/-
What the peer's bytes do to the code that takes them over.

Five places read into a buffer, make a string and take the line ends off its end.  Three of
them also write a terminator behind the bytes, and two of these take the string only up to
the first NUL.  A full buffer has no room for the terminator, and a string that is nothing
but line ends has no last character when they are gone.  For each of the places the chunks
that are harmless are characterised exactly.

The echo of the two engines differs where a NUL is: the select engine's text ends there.
-/
import Mathlib.Data.List.DropRight
import Technopark.Net.AsyncEngine
import Technopark.Net.Poll
import Technopark.Net.Select
import Technopark.Proofs.SocketRecv

namespace Technopark

variable {bytes : Bytes}

/-- There is a byte that is not a line end. -/
def HasText (bytes : Bytes) : Prop := ∃ c ∈ bytes, ¬ Socket.isEol c

theorem not_hasText_iff : ¬ HasText bytes ↔ ∀ c ∈ bytes, Socket.isEol c := by
  simp [HasText]

theorem hasText_ne_nil (h : HasText bytes) : bytes ≠ [] := by
  obtain ⟨c, hc, -⟩ := h
  exact List.ne_nil_of_mem hc

/-! ### The trimming loops -/

theorem trimEols_eq_nil_iff : trimEols bytes = [] ↔ ¬ HasText bytes := by
  rw [not_hasText_iff]
  exact List.rdropWhile_eq_nil_iff

theorem trimBack_defined_iff :
    (∀ why, Socket.trimBack bytes ≠ .error (.undefined why)) ↔ HasText bytes := by
  constructor
  · intro hdefined
    by_contra hnone
    exact hdefined _ (Socket.trimBack_undefined (not_hasText_iff.mp hnone))
  · intro htext why hrun
    rw [Socket.trimBack_eq htext] at hrun
    injection hrun

/-- Nothing is missed if the terminator has room and some text is left. -/
theorem readText_strays_iff :
    (readText bytes).2 = [] ↔ bytes.length ≠ bufSize ∧ HasText (cString bytes) := by
  unfold readText
  rw [List.append_eq_nil_iff]
  by_cases hfull : bytes.length = bufSize
  · simp [hfull]
  · by_cases hempty : trimEols (cString bytes) = []
    · simp [hfull, hempty, trimEols_eq_nil_iff.mp hempty]
    · simp [hfull, hempty, not_not.mp (mt trimEols_eq_nil_iff.mpr hempty)]

theorem data_bytes (h : bytes.length ≤ bufSize) : (ReadResult.data bytes).bytes = bytes :=
  List.take_of_length_le h

theorem data_r (h : bytes.length ≤ bufSize) : (ReadResult.data bytes).r = bytes.length := by
  show ((bytes.take bufSize).length : Int) = _
  rw [List.take_of_length_le h]

/-! ### What the engines log -/

namespace SelectEngine

/-- What `serve` adds to the log for bytes that have arrived. -/
theorem serve_log (sd : Int) (s : State) (h : bytes.length ≤ bufSize) :
    (serve sd (.data bytes) s).log
      = s.log ++ (.read sd (.data bytes) :: (readText bytes).2.map .stray ++
          if bytes = [] then [] else [.wrote sd (echo ++ (readText bytes).1 ++ [10])]) := by
  cases bytes with
  | nil => simp [serve, data_r h, data_bytes h, State.note]
  | cons c rest =>
      have hnonneg : ¬ ((rest.length : Int) + 1 < 0) := by omega
      have hpos : (0 : Int) < rest.length + 1 := by omega
      have hne : (rest.length : Int) + 1 ≠ 0 := by omega
      simp [serve, data_r h, data_bytes h, State.note, hnonneg, hpos, hne]

/-- Reading the chunk misses nothing. -/
def Careful (chunk : Bytes) : Prop :=
  ∀ (sd : Int) (s : State), ∃ events, (serve sd (.data chunk) s).log = s.log ++ events ∧
    ∀ stray, Event.stray stray ∉ events

theorem careful_iff (h : bytes.length ≤ bufSize) : Careful bytes ↔ (readText bytes).2 = [] := by
  constructor
  · intro hcareful
    obtain ⟨events, hlog, hnone⟩ := hcareful 0 (start 0)
    rw [serve_log _ _ h] at hlog
    have hevents := List.append_cancel_left hlog
    rw [List.eq_nil_iff_forall_not_mem]
    intro stray hstray
    refine hnone stray ?_
    rw [← hevents]
    exact List.mem_append_left _ (List.mem_cons_of_mem _ (List.mem_map_of_mem hstray))
  · intro hnil sd s
    refine ⟨_, serve_log sd s h, ?_⟩
    intro stray
    rw [hnil]
    split <;> simp

end SelectEngine

namespace AsyncPollEngine

/-- A worker's read and the callback after it. -/
def receive (w : Nat) (event : Event ConnId) (bytes : Bytes) (s : State) : State :=
  callback w event (answer w event (.data bytes) s)

/-- What was missed by a read and its callback. -/
def strays (conn : ConnId) (bytes : Bytes) : List Note :=
  (if bytes.length = bufSize then [.stray conn .terminator] else []) ++
    if bytes ≠ [] ∧ trimEols bytes = [] then [.stray conn .emptyBack] else []

variable {w : Nat} {event : Event ConnId} {s : State} {c : Connection} {conn : ConnId}

/-- The text a read is answered with. -/
def answerTo (bytes : Bytes) : Bytes := server ++ trimEols bytes ++ [10]

theorem getElem?_set_conn (hconn : s.conns[conn]? = some c) (c' : Connection) :
    (s.conns.set conn c')[conn]? = some c' :=
  List.getElem?_set_self (List.getElem?_eq_some_iff.mp hconn).1

/-- The handler on a connection whose buffer is not empty. -/
theorem readHandler_text (hconn : s.conns[conn]? = some c) (hne : c.readBuf ≠ []) :
    readHandler conn s = { s with
      conns := s.conns.set conn { c with writeBuf := answerTo c.readBuf }
      wantWork := s.wantWork ++ [⟨⟨c.sd, .wantWrite⟩, conn⟩]
      log := s.log ++ if trimEols c.readBuf = [] then [.stray conn .emptyBack] else [] } := by
  unfold readHandler
  rw [hconn]
  by_cases hempty : trimEols c.readBuf = []
  · simp [hne, hempty, write, hconn, State.note, State.push, answerTo]
  · simp [hne, hempty, write, hconn, State.push, answerTo]

theorem readHandler_empty (hconn : s.conns[conn]? = some c) (hnil : c.readBuf = []) :
    readHandler conn s = s := by
  unfold readHandler
  rw [hconn]
  simp [hnil]

/-- A worker's read fills the buffer of the connection. -/
theorem answer_data (hread : event.client.state = .wantRead)
    (hconn : s.conns[event.work]? = some c) (h : bytes.length ≤ bufSize) :
    answer w event (.data bytes) s = { s with
      conns := s.conns.set event.work { c with readBuf := bytes }
      workers := s.workers.set w (.answered event)
      log := s.log ++ if bytes.length = bufSize then [.stray event.work .terminator] else [] } := by
  unfold answer
  rw [hread]
  by_cases hfull : bytes.length = bufSize
  · simp [data_r h, data_bytes h, hfull, State.assign, State.note, State.goto, hconn]
  · simp [data_r h, data_bytes h, hfull, State.assign, State.goto, hconn]

/-- What a read and its callback do. -/
theorem receive_log (hread : event.client.state = .wantRead)
    (hconn : s.conns[event.work]? = some c) (h : bytes.length ≤ bufSize) :
    (receive w event bytes s).log = s.log ++ strays event.work bytes := by
  have hbuf := getElem?_set_conn hconn { c with readBuf := bytes }
  rw [receive, answer_data hread hconn h, callback, hread]
  by_cases hnil : bytes = []
  · rw [readHandler_empty hbuf hnil]
    simp [strays, hnil, State.goto]
  · rw [readHandler_text hbuf hnil]
    simp [strays, hnil, State.goto]

/-- The callback leaves the answer in the connection's buffer and asks for it to be written. -/
theorem receive_answers (hread : event.client.state = .wantRead)
    (hconn : s.conns[event.work]? = some c) (h : bytes.length ≤ bufSize) (hne : bytes ≠ []) :
    (receive w event bytes s).conns[event.work]?
        = some { c with readBuf := bytes, writeBuf := answerTo bytes } ∧
    (receive w event bytes s).wantWork
        = s.wantWork ++ [⟨⟨c.sd, .wantWrite⟩, event.work⟩] := by
  have hbuf := getElem?_set_conn hconn { c with readBuf := bytes }
  rw [receive, answer_data hread hconn h, callback, hread]
  dsimp only
  rw [readHandler_text hbuf hne]
  exact ⟨getElem?_set_conn hbuf _, rfl⟩

/-- Reading the chunk for a connection and handling it misses nothing. -/
def Careful (chunk : Bytes) : Prop :=
  ∀ (w : Nat) (event : Event ConnId) (s : State) (c : Connection),
    event.client.state = .wantRead → s.conns[event.work]? = some c →
    ∃ notes, (receive w event chunk s).log = s.log ++ notes ∧
      ∀ conn stray, Note.stray conn stray ∉ notes

theorem strays_eq_nil_iff :
    strays conn bytes = [] ↔ bytes.length ≠ bufSize ∧ (bytes = [] ∨ HasText bytes) := by
  unfold strays
  rw [List.append_eq_nil_iff]
  by_cases hfull : bytes.length = bufSize
  · simp [hfull]
  · by_cases hnil : bytes = []
    · simp [hnil]
    · by_cases hempty : trimEols bytes = []
      · simp [hfull, hnil, hempty, trimEols_eq_nil_iff.mp hempty]
      · simp [hfull, hnil, hempty, not_not.mp (mt trimEols_eq_nil_iff.mpr hempty)]

theorem mem_strays {note : Note} (h : note ∈ strays conn bytes) :
    ∃ stray, note = .stray conn stray := by
  unfold strays at h
  rcases List.mem_append.mp h with h | h
  · split at h
    · exact ⟨_, List.mem_singleton.mp h⟩
    · exact absurd h List.not_mem_nil
  · split at h
    · exact ⟨_, List.mem_singleton.mp h⟩
    · exact absurd h List.not_mem_nil

theorem careful_iff (h : bytes.length ≤ bufSize) :
    Careful bytes ↔ bytes.length ≠ bufSize ∧ (bytes = [] ∨ HasText bytes) := by
  constructor
  · intro hcareful
    obtain ⟨notes, hlog, hnone⟩ := hcareful 0 ⟨⟨0, .wantRead⟩, 0⟩
      { start with conns := [{ sd := 0 }] } { sd := 0 } rfl rfl
    rw [receive_log rfl rfl h] at hlog
    have hnotes := List.append_cancel_left hlog
    rw [← @strays_eq_nil_iff bytes 0, List.eq_nil_iff_forall_not_mem]
    intro note hnote
    obtain ⟨stray, rfl⟩ := mem_strays hnote
    rw [hnotes] at hnote
    exact hnone 0 stray hnote
  · intro hsafe w event s c hread hconn
    refine ⟨_, receive_log hread hconn h, ?_⟩
    intro conn stray
    rw [strays_eq_nil_iff.mpr hsafe]
    exact List.not_mem_nil

end AsyncPollEngine

/-! ### Where the trimming is safe -/

/-- The places that take bytes from the peer; `recv_loop` has a string from before. -/
inductive Receiver
  | selectEngine
  | pollEngine
  /-- A worker's read and `Connection::readHandler`. -/
  | connection
  | recv
  | recvLoop (ret : Bytes)
  deriving Repr, DecidableEq

/-- `sizeof(buf)`. -/
def Receiver.sizeofBuf : Receiver → Nat
  | .recv => 128
  | _ => bufSize

/-- What `::recv` returns for a chunk: nothing means that the peer has closed. -/
def sysRecvOf (chunk : Bytes) : SysRecv := if chunk = [] then .closed else .data chunk

/-- The step on the chunk writes no terminator and reads no character where there is none. -/
def Receiver.Safe (receiver : Receiver) (chunk : Bytes) : Prop :=
  match receiver with
  | .selectEngine => SelectEngine.Careful chunk
  | .pollEngine => (PollEngine.readBranch (.data chunk)).2 = []
  | .connection => AsyncPollEngine.Careful chunk
  | .recv => ∀ mSd why, Socket.recv mSd (sysRecvOf chunk) ≠ .error (.undefined why)
  | .recvLoop ret => ∀ why, Socket.recvLoop [sysRecvOf chunk] ret ≠ .error (.undefined why)

/-- The chunks on which a step is safe. -/
def Receiver.Takes (receiver : Receiver) (chunk : Bytes) : Prop :=
  match receiver with
  | .selectEngine => chunk.length < bufSize ∧ HasText (cString chunk)
  | .pollEngine => chunk.length < bufSize ∧ HasText (cString chunk)
  | .connection => chunk.length < bufSize ∧ (chunk = [] ∨ HasText chunk)
  | .recv => chunk = [] ∨ HasText chunk
  | .recvLoop ret => chunk = [] ∨ HasText (ret ++ chunk)

theorem recv_defined_iff (chunk : Bytes) :
    Receiver.recv.Safe chunk ↔ chunk = [] ∨ HasText chunk := by
  show (∀ mSd why, Socket.recv mSd (sysRecvOf chunk) ≠ .error (.undefined why)) ↔ _
  unfold sysRecvOf
  by_cases hnil : chunk = []
  · simp [hnil, Socket.recv]
  · rw [if_neg hnil, or_iff_right hnil, ← trimBack_defined_iff]
    exact ⟨fun h => h 0, fun h mSd => h⟩

theorem recvLoop_defined_iff (ret chunk : Bytes) :
    (Receiver.recvLoop ret).Safe chunk ↔ chunk = [] ∨ HasText (ret ++ chunk) := by
  show (∀ why, Socket.recvLoop [sysRecvOf chunk] ret ≠ .error (.undefined why)) ↔ _
  unfold sysRecvOf
  by_cases hnil : chunk = []
  · simp [hnil, Socket.recvLoop]
  · have hloop : Socket.recvLoop [.data chunk] ret
        = (do let ret ← Socket.trimBack (ret ++ chunk); Socket.recvLoop [] ret) := rfl
    rw [if_neg hnil, or_iff_right hnil, ← trimBack_defined_iff, hloop]
    cases Socket.trimBack (ret ++ chunk) with
    | error e => exact Iff.rfl
    | ok ret' =>
        -- the string is trimmed, and the loop waits for the next chunk
        have hwaits : (do let ret ← Except.ok (ε := Fault) ret'; Socket.recvLoop [] ret)
            = .error .outOfFuel := rfl
        rw [hwaits]
        simp

/--
**A receive step is safe exactly on the chunks that leave room for the terminator, where
there is one, and some text when the line ends are gone, where they are taken off.**
-/
theorem receive_safe_iff (receiver : Receiver) (chunk : Bytes)
    (h : chunk.length ≤ receiver.sizeofBuf) : receiver.Safe chunk ↔ receiver.Takes chunk := by
  cases receiver with
  | selectEngine =>
      show SelectEngine.Careful chunk ↔ chunk.length < bufSize ∧ HasText (cString chunk)
      have hsize : chunk.length ≤ bufSize := h
      rw [SelectEngine.careful_iff hsize, readText_strays_iff, Nat.lt_iff_le_and_ne,
        and_iff_right hsize]
  | pollEngine =>
      show (PollEngine.readBranch _).2 = [] ↔ chunk.length < bufSize ∧ HasText (cString chunk)
      have hsize : chunk.length ≤ bufSize := h
      have hread : ¬ (ReadResult.data chunk).r < 0 := by
        rw [data_r hsize]
        omega
      rw [PollEngine.readBranch, if_neg hread, data_bytes hsize, readText_strays_iff,
        Nat.lt_iff_le_and_ne, and_iff_right hsize]
  | connection =>
      show AsyncPollEngine.Careful chunk ↔ chunk.length < bufSize ∧ (chunk = [] ∨ HasText chunk)
      have hsize : chunk.length ≤ bufSize := h
      rw [AsyncPollEngine.careful_iff hsize, Nat.lt_iff_le_and_ne, and_iff_right hsize]
  | recv => exact recv_defined_iff chunk
  | recvLoop ret => exact recvLoop_defined_iff ret chunk

/-- `"GET\r\n"`. -/
theorem receive_safe_line :
    Receiver.selectEngine.Safe [71, 69, 84, 13, 10] ↔
      Receiver.selectEngine.Takes [71, 69, 84, 13, 10] :=
  receive_safe_iff .selectEngine _ (by decide)

/-- An empty line runs into nothing, and a full buffer has no room for the terminator. -/
theorem receive_unsafe :
    ¬ Receiver.selectEngine.Safe [10] ∧ ¬ Receiver.recv.Safe [10] ∧
    ¬ Receiver.connection.Safe (List.replicate 256 97) := by
  refine ⟨?_, ?_, ?_⟩
  · intro hsafe
    have hcareful := (SelectEngine.careful_iff (by decide)).mp hsafe
    revert hcareful
    decide
  · rw [recv_defined_iff]
    simp [HasText, Socket.isEol]
  · intro hsafe
    have hlength : (List.replicate 256 (97 : UInt8)).length = bufSize := List.length_replicate
    exact ((AsyncPollEngine.careful_iff (Nat.le_of_eq hlength)).mp hsafe).1 hlength

/-! ### The echo -/

theorem cString_eq_self (h : 0 ∉ bytes) : cString bytes = bytes := by
  refine List.takeWhile_eq_self_iff.mpr ?_
  intro c hc
  have hne : c ≠ 0 := fun heq => h (heq ▸ hc)
  simpa using hne

/-- The text that ends at a NUL is shorter than the trimmed bytes. -/
theorem trimEols_cString_eq_iff :
    trimEols (cString bytes) = trimEols bytes ↔ 0 ∉ bytes := by
  constructor
  · intro heq hzero
    have hsplit : trimEols bytes ++ bytes.rtakeWhile Socket.isEol = bytes :=
      List.rdropWhile_append_rtakeWhile
    -- a NUL is not a line end, so it is still there
    have hkept : 0 ∈ trimEols bytes := by
      rw [← hsplit] at hzero
      rcases List.mem_append.mp hzero with hmem | hmem
      · exact hmem
      · exact absurd (List.mem_rtakeWhile_imp hmem) (by decide)
    rw [← heq] at hkept
    have hmem : 0 ∈ cString bytes := (List.rdropWhile_prefix _ _).subset hkept
    simpa using List.mem_takeWhile_imp hmem
  · intro hzero
    rw [cString_eq_self hzero]

/-- The select engine reads, echoes the text, and that is all. -/
def SelectEngine.Echoes (payload echoed : Bytes) : Prop :=
  ∀ (sd : Int) (s : SelectEngine.State),
    (SelectEngine.serve sd (.data payload) s).log
      = s.log ++ [.read sd (.data payload), .wrote sd (echo ++ echoed ++ [10])]

/-- The asynchronous engine queues a write to the client, and what it writes is the text. -/
structure AsyncPollEngine.Answers (payload answered : Bytes) : Prop where
  queued : ∀ (w : Nat) (event : Event ConnId) (s : State) (c : Connection),
    event.client.state = .wantRead → s.conns[event.work]? = some c →
    (receive w event payload s).log = s.log ∧
    (receive w event payload s).wantWork
      = s.wantWork ++ [⟨⟨c.sd, .wantWrite⟩, event.work⟩]
  written : ∀ (w w' : Nat) (event : Event ConnId) (s : State) (c : Connection)
    (result : ReadResult), event.client.state = .wantRead → s.conns[event.work]? = some c →
    (answer w' ⟨⟨c.sd, .wantWrite⟩, event.work⟩ result (receive w event payload s)).log
      = (receive w event payload s).log ++ [.wrote event.work (server ++ answered ++ [10])]

theorem SelectEngine.echoes_iff {p t : Bytes} (hfits : p.length ≤ bufSize) (hne : p ≠ []) :
    Echoes p t ↔ (readText p).2 = [] ∧ trimEols (cString p) = t := by
  constructor
  · intro hechoes
    have hlog := hechoes 0 (start 0)
    rw [serve_log _ _ hfits, if_neg hne] at hlog
    obtain ⟨-, hrest⟩ := List.cons.inj (List.append_cancel_left hlog)
    have hlen := congrArg List.length hrest
    have hstrays : (readText p).2 = [] := by simpa using hlen
    rw [List.append_eq, hstrays] at hrest
    refine ⟨hstrays, ?_⟩
    simpa [readText] using hrest
  · rintro ⟨hstrays, rfl⟩ sd s
    rw [serve_log sd s hfits, if_neg hne, hstrays]
    rfl

theorem AsyncPollEngine.answers_trimmed {p : Bytes} (hfits : p.length < bufSize)
    (htext : HasText p) : Answers p (trimEols p) := by
  have hne := hasText_ne_nil htext
  have hsize := Nat.le_of_lt hfits
  refine ⟨?_, ?_⟩
  · intro w event s c hread hconn
    refine ⟨?_, (receive_answers hread hconn hsize hne).2⟩
    rw [receive_log hread hconn hsize,
      strays_eq_nil_iff.mpr ⟨Nat.ne_of_lt hfits, .inr htext⟩, List.append_nil]
  · intro w w' event s c result hread hconn
    have hconn' := (receive_answers (w := w) hread hconn hsize hne).1
    simp [answer, hconn', State.note, State.goto, answerTo]

/--
**The two engines answer a payload with the same text, the payload without the line ends at
its end, exactly if there is no NUL in it.**
-/
theorem engines_echo_same_iff (p : Bytes) (hpos : 1 ≤ p.length) (hfits : p.length ≤ 255)
    (htext : HasText p) :
    (SelectEngine.Echoes p (trimEols p) ∧ AsyncPollEngine.Answers p (trimEols p)) ↔ 0 ∉ p := by
  have hlt : p.length < bufSize := Nat.lt_succ_of_le hfits
  have hne : p ≠ [] := List.length_pos_iff.mp hpos
  rw [SelectEngine.echoes_iff (Nat.le_of_lt hlt) hne, trimEols_cString_eq_iff,
    readText_strays_iff]
  constructor
  · rintro ⟨⟨-, hzero⟩, -⟩
    exact hzero
  · intro hzero
    refine ⟨⟨⟨Nat.ne_of_lt hlt, ?_⟩, hzero⟩, AsyncPollEngine.answers_trimmed hlt htext⟩
    rw [cString_eq_self hzero]
    exact htext

/-- `"GET\r\n"`. -/
theorem engines_echo_same_line :
    (SelectEngine.Echoes [71, 69, 84, 13, 10] (trimEols [71, 69, 84, 13, 10]) ∧
      AsyncPollEngine.Answers [71, 69, 84, 13, 10] (trimEols [71, 69, 84, 13, 10])) ↔
    0 ∉ ([71, 69, 84, 13, 10] : Bytes) :=
  engines_echo_same_iff _ (by decide) (by decide) ⟨71, by simp, by decide⟩

/-- Of `"A\0B"` the select engine echoes the `A`, the asynchronous one all three bytes. -/
theorem engines_echo_differently :
    HasText [65, 0, 66] ∧ ¬ SelectEngine.Echoes [65, 0, 66] (trimEols [65, 0, 66]) ∧
    SelectEngine.Echoes [65, 0, 66] [65] ∧ AsyncPollEngine.Answers [65, 0, 66] [65, 0, 66] := by
  refine ⟨⟨65, by simp, by decide⟩, ?_, ?_, ?_⟩
  · rw [SelectEngine.echoes_iff (by decide) (by decide)]
    decide
  · exact (SelectEngine.echoes_iff (by decide) (by decide)).mpr ⟨rfl, rfl⟩
  · exact AsyncPollEngine.answers_trimmed (by decide) ⟨65, by simp, by decide⟩

end Technopark
