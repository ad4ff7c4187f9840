/-
`Socket::recv_loop` over every segmentation of a stream.

The line ends are trimmed after every chunk, not once at the end.  A chunk boundary
that falls right behind a line end therefore loses it, unless nothing but line ends
follows, and a stream that begins with a chunk of nothing but line ends makes
`back()` read an empty string.  `GoodBoundaries` excludes both, and is exact: every
other segmentation either has undefined behaviour or returns fewer bytes than the
trimmed stream has.
-/
import Technopark.Net.Socket
import Technopark.Lib.Segments
import Mathlib.Tactic.Push

namespace Technopark.Socket

/-! ### What a run should do -/

/-- How a stream ends without an error: the peer closes, or the timeout passes. -/
inductive StreamEnd
  | closed
  | timeout
  deriving Repr, DecidableEq

/-- What the last `::recv` returns. -/
def StreamEnd.recv : StreamEnd → SysRecv
  | .closed => .closed
  | .timeout => .timeout

/-- `recv_loop` on a stream delivered in `chunks`. -/
def received (chunks : List Bytes) (last : StreamEnd) : Except Fault Bytes :=
  recvLoop (chunks.map .data ++ [last.recv]) []

/-- The stream without the line ends it ends with. -/
def trimmed (stream : Bytes) : Bytes := stream.rdropWhile isEol

/-- `"\r\n\r\n"`. -/
def headerEnd : Bytes := [13, 10, 13, 10]

/-- The result does not show how the stream was cut. -/
structure IgnoresBoundaries (chunks : List Bytes) (last : StreamEnd) : Prop where
  result : received chunks last = .ok (trimmed chunks.flatten)
  /-- A header terminator with more of the response behind it reaches the callback. -/
  header : ∀ before after, chunks.flatten = before ++ headerEnd ++ after →
    (∃ c ∈ after, ¬ isEol c) →
    ∃ rest, received chunks last = .ok (before ++ headerEnd ++ rest)

/--
The first chunk has something besides line ends, and a boundary right behind a line
end has only line ends after it.
-/
def GoodBoundaries (chunks : List Bytes) : Prop :=
  chunks = [] ∨
    (∃ chunk ∈ chunks.head?, ∃ c ∈ chunk, ¬ isEol c) ∧
    ∀ before after, chunks = before ++ after → (∃ c ∈ before.flatten.getLast?, isEol c) →
      ∀ c ∈ after.flatten, isEol c

/-! ### The trimming loop -/

theorem popEols_eq (ret : Bytes) (h : ∃ c ∈ ret, ¬ isEol c) :
    popEols ret = .ok (ret.dropWhile isEol) := by
  induction ret with
  | nil => simp at h
  | cons c ret ih =>
      by_cases hc : isEol c
      · have hrest : ∃ c ∈ ret, ¬ isEol c := by
          obtain ⟨x, hx, hne⟩ := h
          rcases List.mem_cons.mp hx with rfl | hx
          · exact absurd hc hne
          · exact ⟨x, hx, hne⟩
        rw [popEols, if_pos hc, List.dropWhile_cons_of_pos hc, ih hrest]
      · rw [popEols, if_neg hc, List.dropWhile_cons_of_neg hc]

theorem popEols_undefined (ret : Bytes) (h : ∀ c ∈ ret, isEol c) :
    popEols ret = .error (.undefined .emptyString) := by
  induction ret with
  | nil => rfl
  | cons c ret ih =>
      rw [popEols, if_pos (h c (by simp)), ih (fun x hx => h x (by simp [hx]))]

theorem trimBack_eq {ret : Bytes} (h : ∃ c ∈ ret, ¬ isEol c) :
    trimBack ret = .ok (ret.rdropWhile isEol) := by
  rw [trimBack, popEols_eq _ (by simpa using h)]
  rfl

theorem trimBack_undefined {ret : Bytes} (h : ∀ c ∈ ret, isEol c) :
    trimBack ret = .error (.undefined .emptyString) := by
  rw [trimBack, popEols_undefined _ (by simpa using h)]
  rfl

/-! ### Runs of the loop -/

/-- What the loop makes of the chunks. -/
def feed (chunks : List Bytes) (ret : Bytes) : Except Fault Bytes :=
  chunks.foldlM (fun ret chunk => trimBack (ret ++ chunk)) ret

theorem received_eq_feed (chunks : List Bytes) (last : StreamEnd) :
    received chunks last = feed chunks [] := by
  have key : ∀ (chunks : List Bytes) (ret : Bytes),
      recvLoop (chunks.map .data ++ [last.recv]) ret = feed chunks ret := by
    intro chunks
    induction chunks with
    | nil => intro ret; cases last <;> rfl
    | cons chunk chunks ih =>
        intro ret
        rw [List.map_cons, List.cons_append, recvLoop, feed, List.foldlM_cons]
        cases trimBack (ret ++ chunk) with
        | error e => rfl
        | ok ret => exact ih ret
  exact key chunks []

theorem feed_append (before after : List Bytes) (ret : Bytes) :
    feed (before ++ after) ret = feed before ret >>= feed after :=
  List.foldlM_append

/-- One chunk that leaves something. -/
theorem feed_cons {chunk : Bytes} {ret : Bytes} (h : ∃ c ∈ ret ++ chunk, ¬ isEol c)
    (chunks : List Bytes) :
    feed (chunk :: chunks) ret = feed chunks (trimmed (ret ++ chunk)) := by
  rw [feed, List.foldlM_cons, trimBack_eq h]
  rfl

/-- The loop only goes on after a chunk that leaves something. -/
theorem exists_of_feed_cons {chunk : Bytes} {chunks : List Bytes} {ret result : Bytes}
    (h : feed (chunk :: chunks) ret = .ok result) : ∃ c ∈ ret ++ chunk, ¬ isEol c := by
  by_contra hall
  push Not at hall
  rw [feed, List.foldlM_cons, trimBack_undefined hall] at h
  cases h

theorem trimmed_trimmed (stream : Bytes) : trimmed (trimmed stream) = trimmed stream :=
  List.rdropWhile_idempotent _ _

/-- A result is trimmed, and no longer than the trimmed stream. -/
theorem feed_le (chunks : List Bytes) :
    ∀ {ret result : Bytes}, trimmed ret = ret → feed chunks ret = .ok result →
      trimmed result = result ∧ result.length ≤ (trimmed (ret ++ chunks.flatten)).length := by
  induction chunks with
  | nil =>
      intro ret result htrim h
      obtain rfl : ret = result := Except.ok.inj h
      simp [htrim]
  | cons chunk chunks ih =>
      intro ret result _ h
      rw [feed_cons (exists_of_feed_cons h)] at h
      obtain ⟨htrim, hle⟩ := ih (trimmed_trimmed _) h
      refine ⟨htrim, Nat.le_trans hle ?_⟩
      rw [List.flatten_cons, ← List.append_assoc]
      exact length_rdropWhile_append_le _ _

/-- With good boundaries nothing is lost on the way. -/
theorem feed_eq (chunks : List Bytes) :
    ∀ (stream : Bytes), (∃ c ∈ stream, ¬ isEol c) →
      (∀ before after, chunks = before ++ after →
        (∃ c ∈ (stream ++ before.flatten).getLast?, isEol c) → ∀ c ∈ after.flatten, isEol c) →
      feed chunks (trimmed stream) = .ok (trimmed (stream ++ chunks.flatten)) := by
  induction chunks with
  | nil =>
      intro stream _ _
      simp [feed]
      rfl
  | cons chunk chunks ih =>
      intro stream hstream hgood
      have hsome : ∃ c ∈ trimmed stream, ¬ isEol c := by
        by_contra hall
        push Not at hall
        have hnil : trimmed (trimmed stream) = [] := List.rdropWhile_eq_nil_iff.mpr hall
        rw [trimmed_trimmed] at hnil
        obtain ⟨c, hc, hne⟩ := hstream
        exact hne (List.rdropWhile_eq_nil_iff.mp hnil c hc)
      have hchunk : trimmed (trimmed stream ++ chunk) = trimmed (stream ++ chunk) := by
        by_cases hlast : ∃ c ∈ stream.getLast?, isEol c
        · -- only line ends follow, so nothing of them stays either way
          have hall := hgood [] (chunk :: chunks) rfl (by simpa using hlast)
          have hchunk : ∀ c ∈ chunk, isEol c := fun c hc => hall c (by simp [hc])
          have htrim : ∀ s : Bytes, trimmed (s ++ chunk) = trimmed s :=
            fun s => rdropWhile_append_of_all hchunk
          rw [htrim, htrim, trimmed_trimmed]
        · have hself : trimmed stream = stream := by
            refine List.rdropWhile_eq_self_iff.mpr ?_
            intro hne heol
            exact hlast ⟨_, List.getLast?_eq_some_getLast hne, heol⟩
          rw [hself]
      obtain ⟨c, hc, hne⟩ := hsome
      rw [feed_cons ⟨c, by simp [hc], hne⟩, hchunk, ih (stream ++ chunk), List.flatten_cons,
        List.append_assoc]
      · obtain ⟨c, hc, hne⟩ := hstream
        exact ⟨c, by simp [hc], hne⟩
      · intro before after hsplit hlast
        exact hgood (chunk :: before) after (by rw [hsplit]; rfl) (by simpa using hlast)

/-- A line end lost at a boundary is missed when more follows. -/
theorem feed_ne_of_lost {before after : List Bytes}
    (hlost : ∃ c ∈ before.flatten.getLast?, isEol c) (hmore : ∃ c ∈ after.flatten, ¬ isEol c) :
    feed (before ++ after) [] ≠ .ok (trimmed (before ++ after).flatten) := by
  obtain ⟨x, hx, hxne⟩ := hmore
  have hall : ∀ s : Bytes, (trimmed (s ++ after.flatten)).length
      = s.length + (trimmed after.flatten).length := by
    intro s
    rw [trimmed, rdropWhile_append_of_mem hx hxne, List.length_append]
    rfl
  have hshort : (trimmed before.flatten).length < before.flatten.length := by
    refine Nat.lt_of_le_of_ne (length_rdropWhile_le _) ?_
    intro hlen
    have hself := (List.rdropWhile_prefix isEol before.flatten).eq_of_length hlen
    obtain ⟨c, hc, heol⟩ := hlost
    have hne : before.flatten ≠ [] := by
      intro hnil
      rw [hnil] at hc
      simp at hc
    refine List.rdropWhile_eq_self_iff.mp hself hne ?_
    rw [List.getLast?_eq_some_getLast hne] at hc
    rwa [Option.some.inj hc]
  rw [feed_append, List.flatten_append]
  intro heq
  cases hbefore : feed before [] with
  | error e =>
      rw [hbefore] at heq
      cases heq
  | ok ret =>
      rw [hbefore] at heq
      obtain ⟨htrim, hle⟩ := feed_le before (by rfl) hbefore
      have hlen := (feed_le after htrim heq).2
      rw [hall, hall] at hlen
      rw [List.nil_append] at hle
      omega

theorem trimmed_header {stream before after : Bytes}
    (hsplit : stream = before ++ headerEnd ++ after) (hmore : ∃ c ∈ after, ¬ isEol c) :
    ∃ rest, trimmed stream = before ++ headerEnd ++ rest := by
  obtain ⟨c, hc, hne⟩ := hmore
  exact ⟨_, by rw [hsplit, trimmed, rdropWhile_append_of_mem hc hne]⟩

/--
**`recv_loop` returns the trimmed stream exactly when the boundaries are good.**  The
right-hand side does not depend on how the stream ends, and the result on the left
only on the stream, so any two good segmentations of one stream give one result.
-/
theorem recvLoop_ignoresBoundaries_iff (chunks : List Bytes) (last : StreamEnd) :
    IgnoresBoundaries chunks last ↔ GoodBoundaries chunks := by
  constructor
  · intro h
    have hresult := h.result
    rw [received_eq_feed] at hresult
    cases chunks with
    | nil => exact .inl rfl
    | cons chunk chunks =>
        refine .inr ⟨⟨chunk, rfl, by simpa using exists_of_feed_cons hresult⟩, ?_⟩
        intro before after hsplit hlost c hc
        by_contra hne
        rw [hsplit] at hresult
        exact feed_ne_of_lost hlost ⟨c, hc, hne⟩ hresult
  · intro hgood
    have hresult : received chunks last = .ok (trimmed chunks.flatten) := by
      rw [received_eq_feed]
      rcases hgood with rfl | ⟨⟨chunk, hhead, hsome⟩, hboundary⟩
      · rfl
      · obtain ⟨chunks, rfl⟩ : ∃ rest, chunks = chunk :: rest := by
          cases chunks with
          | nil => simp at hhead
          | cons first rest => exact ⟨rest, by simpa using hhead⟩
        rw [feed_cons (by simpa using hsome), List.nil_append, List.flatten_cons]
        refine feed_eq chunks chunk hsome ?_
        intro before after hsplit hlost
        exact hboundary (chunk :: before) after (by rw [hsplit]; rfl) (by simpa using hlost)
    refine ⟨hresult, ?_⟩
    intro before after hsplit hmore
    obtain ⟨rest, hrest⟩ := trimmed_header hsplit hmore
    exact ⟨rest, by rw [hresult, hrest]⟩

/-- The stream `"a\nb"` cut behind the line end loses it; uncut, it does not. -/
theorem recvLoop_loses_line_end :
    received [[97, 10], [98]] .closed = .ok [97, 98] ∧
    received [[97, 10, 98]] .closed = .ok [97, 10, 98] ∧
    ¬ IgnoresBoundaries [[97, 10], [98]] .closed := by
  have hlost : received [[97, 10], [98]] .closed = .ok [97, 98] := by decide
  refine ⟨hlost, by decide, ?_⟩
  intro h
  have hresult := h.result
  rw [hlost] at hresult
  exact absurd hresult (by decide)

end Technopark.Socket
