/-
When the echo server answers every line.

`echo_read_cb` is called once for every chunk and answers one line, so the server is one
that answers a single request per turn (`Lib/Backlog.lean`): the requests of a turn are the
line ends of its chunk.  `Answered` is the invariant that ties the buffers to the stream:
the lines answered so far, followed by the input buffer, are what has arrived, and the
number of line ends in the input buffer is the backlog.

At the end the input buffer has nothing but lines that were not answered, and there are
none exactly when the server has caught up.
-/
import Technopark.Lib.Backlog
import Technopark.Net.Libevent
import Mathlib.Data.List.TakeWhile

namespace Technopark.Libevent

variable {readln : Readln}

/-! ### What a run should do -/

/-- `'\n'`. -/
def lf : UInt8 := 10

/-- A line without the carriage return it may end in. -/
def dropCr (line : Bytes) : Bytes := if line.getLast? = some 13 then line.dropLast else line

/-- What `EVBUFFER_EOL_CRLF` promises: a line ends in a line feed after an optional `'\r'`. -/
structure EolCrlf (readln : Readln) : Prop where
  incomplete : ∀ buf, lf ∉ buf → readln buf = none
  complete : ∀ line rest, lf ∉ line → readln (line ++ lf :: rest) = some (dropCr line, rest)

/-- The stream that consists of these lines. -/
def stream (lines : List Bytes) : Bytes := lines.flatMap fun line => line ++ [lf]

/-- The answers to these lines, in order. -/
def answers (lines : List Bytes) : Bytes := lines.flatMap fun line => echo ++ dropCr line ++ crlf

/-- No line has a line feed or a NUL in it. -/
def Plain (lines : List Bytes) : Prop := ∀ line ∈ lines, lf ∉ line ∧ 0 ∉ line

/-- The number of lines a chunk completes. -/
def lineEnds (chunk : Bytes) : Nat := chunk.count lf

/-! ### Lines and streams -/

theorem stream_cons (line : Bytes) (lines : List Bytes) :
    stream (line :: lines) = line ++ lf :: stream lines := by
  simp [stream]

theorem stream_append (lines more : List Bytes) :
    stream (lines ++ more) = stream lines ++ stream more := by
  simp [stream]

theorem answers_append (lines more : List Bytes) :
    answers (lines ++ more) = answers lines ++ answers more := by
  simp [answers]

theorem takeWhile_line {line rest : Bytes} (h : lf ∉ line) :
    (line ++ lf :: rest).takeWhile (· ≠ lf) = line := by
  rw [List.takeWhile_append_of_pos]
  · simp
  · intro b hb
    have hne : b ≠ lf := fun heq => h (heq ▸ hb)
    simpa using hne

/-- A stream determines the first of its lines. -/
theorem line_inj {line line' rest rest' : Bytes} (h : lf ∉ line) (h' : lf ∉ line')
    (heq : line ++ lf :: rest = line' ++ lf :: rest') : line = line' ∧ rest = rest' := by
  have hline : line = line' := by
    rw [← @takeWhile_line line rest h, heq, takeWhile_line h']
  subst hline
  exact ⟨rfl, (List.cons.inj (List.append_cancel_left heq)).2⟩

/-- Lines at the front of a stream of lines are the first of them. -/
theorem exists_rest_of_stream {done : List Bytes} :
    ∀ {lines : List Bytes} {input : Bytes}, Plain done → Plain lines →
      stream done ++ input = stream lines →
      ∃ more, lines = done ++ more ∧ input = stream more := by
  induction done with
  | nil => intro lines input _ _ heq; exact ⟨lines, rfl, heq⟩
  | cons line done ih =>
      intro lines input hdone hlines heq
      rw [stream_cons, List.append_assoc, List.cons_append] at heq
      cases lines with
      | nil => simp [stream] at heq
      | cons line' lines =>
          rw [stream_cons] at heq
          obtain ⟨rfl, hrest⟩ := line_inj (hdone line (by simp)).1 (hlines line' (by simp)).1 heq
          obtain ⟨more, rfl, hinput⟩ := ih (fun l hl => hdone l (by simp [hl]))
            (fun l hl => hlines l (by simp [hl])) hrest
          exact ⟨more, rfl, hinput⟩

theorem count_stream {lines : List Bytes} (h : Plain lines) :
    (stream lines).count lf = lines.length := by
  induction lines with
  | nil => rfl
  | cons line lines ih =>
      have hline : line.count lf = 0 := List.count_eq_zero.mpr (h line (by simp)).1
      rw [stream_cons, List.count_append, List.count_cons_self, hline,
        ih (fun l hl => h l (by simp [hl])), List.length_cons]
      omega

theorem answers_eq_nil {lines : List Bytes} (h : answers lines = []) : lines = [] := by
  cases lines with
  | nil => rfl
  | cons line lines => simp [answers, echo] at h

/-! ### The invariant -/

/-- The lines `done` were answered, `bufEv.input` is the rest of what has arrived. -/
structure Answered (bufEv : Bufferevent) (done : List Bytes) (arrived : Bytes) (waiting : Nat) :
    Prop where
  plain : Plain done
  arrived : stream done ++ bufEv.input = arrived
  output : bufEv.output = answers done
  waiting : bufEv.input.count lf = waiting

theorem cString_dropCr {line : Bytes} (h : 0 ∉ line) : cString (dropCr line) = dropCr line := by
  refine List.takeWhile_eq_self_iff.mpr ?_
  intro b hb
  have hmem : b ∈ line := by
    unfold dropCr at hb
    split at hb
    · exact (List.dropLast_sublist line).subset hb
    · exact hb
  have hne : b ≠ 0 := fun heq => h (heq ▸ hmem)
  simpa using hne

/-- One chunk: at most one line more is answered. -/
theorem Answered.receive (hreadln : EolCrlf readln) {bufEv : Bufferevent} {done : List Bytes}
    {arrived : Bytes} {waiting : Nat} (h : Answered bufEv done arrived waiting) {chunk : Bytes}
    (hnul : 0 ∉ arrived ++ chunk) :
    ∃ done', Answered (receive readln bufEv chunk) done' (arrived ++ chunk)
      (waiting + lineEnds chunk - 1) := by
  have harrived : stream done ++ (bufEv.input ++ chunk) = arrived ++ chunk := by
    rw [← List.append_assoc, h.arrived]
  have hcount : (bufEv.input ++ chunk).count lf = waiting + lineEnds chunk := by
    rw [List.count_append, h.waiting]
    rfl
  by_cases hmem : lf ∈ bufEv.input ++ chunk
  · obtain ⟨line, rest, hsplit, hline⟩ := List.eq_append_cons_of_mem hmem
    have hzero : 0 ∉ line := by
      intro hz
      refine hnul ?_
      rw [← harrived, hsplit]
      simp [hz]
    refine ⟨done ++ [line], ?_, ?_, ?_, ?_⟩
    · intro l hl
      rcases List.mem_append.mp hl with hl | hl
      · exact h.plain l hl
      · rw [List.mem_singleton.mp hl]
        exact ⟨hline, hzero⟩
    · rw [Libevent.receive, echoReadCb, hsplit, hreadln.complete line rest hline, ← harrived,
        hsplit, stream_append, stream_cons]
      simp [stream]
    · rw [Libevent.receive, echoReadCb, hsplit, hreadln.complete line rest hline, answers_append]
      simp [h.output, answers, cString_dropCr hzero]
    · rw [Libevent.receive, echoReadCb, hsplit, hreadln.complete line rest hline]
      rw [hsplit, List.count_append, List.count_cons_self, List.count_eq_zero.mpr hline] at hcount
      show rest.count lf = waiting + lineEnds chunk - 1
      omega
  · have hzero : waiting + lineEnds chunk = 0 := by
      rw [← hcount]
      exact List.count_eq_zero.mpr hmem
    have hsame : Libevent.receive readln bufEv chunk
        = { bufEv with input := bufEv.input ++ chunk } := by
      rw [Libevent.receive, echoReadCb, hreadln.incomplete _ hmem]
    refine ⟨done, h.plain, ?_, ?_, ?_⟩
    · rw [hsame]
      exact harrived
    · rw [hsame]
      exact h.output
    · rw [hsame, hzero]
      exact List.count_eq_zero.mpr hmem

/-- All chunks. -/
theorem Answered.run (hreadln : EolCrlf readln) (chunks : List Bytes) :
    ∀ {bufEv : Bufferevent} {done : List Bytes} {arrived : Bytes} {waiting : Nat},
      Answered bufEv done arrived waiting → 0 ∉ arrived ++ chunks.flatten →
      ∃ done', Answered (chunks.foldl (Libevent.receive readln) bufEv) done'
        (arrived ++ chunks.flatten) (backlog waiting (chunks.map lineEnds)) := by
  induction chunks with
  | nil =>
      intro bufEv done arrived waiting h _
      exact ⟨done, by simpa [backlog] using h⟩
  | cons chunk chunks ih =>
      intro bufEv done arrived waiting h hnul
      rw [List.flatten_cons, ← List.append_assoc] at hnul
      obtain ⟨done', hdone⟩ := h.receive hreadln (fun hz => hnul (List.mem_append_left _ hz))
      obtain ⟨done'', hlast⟩ := ih hdone hnul
      refine ⟨done'', ?_⟩
      rw [List.flatten_cons, ← List.append_assoc]
      exact hlast

/-- Every line of the stream is answered, in order and once. -/
def AnswersEveryLine (readln : Readln) (chunks : List Bytes) (lines : List Bytes) : Prop :=
  (received readln chunks).output = answers lines

/--
**The echo server answers every line of a stream exactly when no final run of chunks has
more line ends in it than chunks.**
-/
theorem echo_answersEveryLine_iff (readln : Readln) (hreadln : EolCrlf readln)
    (lines : List Bytes) (hplain : Plain lines) (chunks : List Bytes)
    (hsplit : chunks.flatten = stream lines) :
    AnswersEveryLine readln chunks lines ↔ KeepsUp (chunks.map lineEnds) := by
  have hnul : 0 ∉ [] ++ chunks.flatten := by
    rw [List.nil_append, hsplit]
    intro hz
    obtain ⟨line, hline, hmem⟩ := List.mem_flatMap.mp hz
    rcases List.mem_append.mp hmem with hmem | hmem
    · exact (hplain line hline).2 hmem
    · exact absurd (List.mem_singleton.mp hmem) (by decide)
  have hstart : Answered accepted [] [] 0 := ⟨by simp [Plain], rfl, rfl, rfl⟩
  obtain ⟨done, hdone⟩ := hstart.run hreadln chunks hnul
  have harrived := hdone.arrived
  rw [List.nil_append, hsplit] at harrived
  -- what is left in the input buffer are the lines not answered
  obtain ⟨more, rfl, hinput⟩ := exists_rest_of_stream hdone.plain hplain harrived
  have hmore : Plain more := fun line hline => hplain line (List.mem_append_right _ hline)
  have hwaiting : more.length = backlog 0 (chunks.map lineEnds) := by
    rw [← count_stream hmore, ← hinput]
    exact hdone.waiting
  rw [← caught_up_iff, ← hwaiting, List.length_eq_zero_iff, AnswersEveryLine, received,
    hdone.output, answers_append]
  constructor
  · intro h
    exact answers_eq_nil (List.append_right_eq_self.mp h.symm)
  · intro h
    rw [h, show answers [] = [] from rfl, List.append_nil]

/-! ### Two splits of one stream -/

/-- The line up to the first line feed. -/
def readlnCrlf : Readln := fun buf =>
  match buf.dropWhile (· ≠ lf) with
  | [] => none
  | _ :: rest => some (dropCr (buf.takeWhile (· ≠ lf)), rest)

theorem dropWhile_line {line rest : Bytes} (h : lf ∉ line) :
    (line ++ lf :: rest).dropWhile (· ≠ lf) = lf :: rest := by
  have hall := List.takeWhile_append_dropWhile (p := fun b => decide (b ≠ lf))
    (l := line ++ lf :: rest)
  rw [takeWhile_line h] at hall
  exact List.append_cancel_left hall

theorem readlnCrlf_eolCrlf : EolCrlf readlnCrlf := by
  refine ⟨?_, ?_⟩
  · intro buf hbuf
    have hdrop : buf.dropWhile (· ≠ lf) = [] := by
      rw [List.dropWhile_eq_nil_iff]
      intro b hb
      have hne : b ≠ lf := fun heq => hbuf (heq ▸ hb)
      simpa using hne
    rw [readlnCrlf, hdrop]
  · intro line rest hline
    rw [readlnCrlf, dropWhile_line hline, takeWhile_line hline]

/-- `"a\n"`, then `"b\r\n"`: both lines are answered. -/
theorem echo_answers_line_per_chunk :
    AnswersEveryLine readlnCrlf [[97, 10], [98, 13, 10]] [[97], [98, 13]] := by
  refine (echo_answersEveryLine_iff readlnCrlf readlnCrlf_eolCrlf _ ?_ _ ?_).mpr ?_
  · unfold Plain
    decide
  · rfl
  · rw [← caught_up_iff]
    rfl

/-- `"a\nb\r\n"` in one chunk: `b` stays in the input buffer. -/
theorem echo_misses_second_line :
    EolCrlf readlnCrlf ∧ Plain [[97], [98, 13]] ∧
      [[97, 10, 98, 13, 10]].flatten = stream [[97], [98, 13]] ∧
      ¬ AnswersEveryLine readlnCrlf [[97, 10, 98, 13, 10]] [[97], [98, 13]] ∧
      (received readlnCrlf [[97, 10, 98, 13, 10]]).input = [98, 13, 10] := by
  refine ⟨readlnCrlf_eolCrlf, ?_, rfl, ?_, by decide⟩
  · unfold Plain
    decide
  · unfold AnswersEveryLine
    decide

end Technopark.Libevent
