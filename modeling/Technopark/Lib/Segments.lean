/-
Streams in pieces.

A transfer covers a buffer when its ranges follow one another from the start to the
end.  `Tiles` says so of offsets and lengths, and `Tiles.copies` that copying the
ranges out one after another then gives back the buffer.  A stream that may never end
is read piece by piece too, and `take_add_stream` puts two pieces together.

The other half is about removing a run of bytes from the end, which does not
distribute over the pieces of a stream: what a piece ends with may be needed by the
next one.
-/
import Mathlib.Algebra.Ring.Nat
import Mathlib.Data.List.DropRight
import Mathlib.Data.Seq.Basic

namespace Technopark

variable {α : Type}

/-! ### Ranges that cover a buffer -/

/-- The ranges, as offset and length, follow one another from `start` to `stop`. -/
def Tiles : Nat → List (Nat × Nat) → Nat → Prop
  | start, [], stop => start = stop
  | start, (offset, len) :: rest, stop => offset = start ∧ Tiles (start + len) rest stop

/-- The bytes of a list of ranges, in their order. -/
def copied (str : List α) (ranges : List (Nat × Nat)) : List α :=
  ranges.flatMap fun r => (str.drop r.1).take r.2

/-- Ranges that cover a buffer copy it. -/
theorem Tiles.copies (str : List α) :
    ∀ {ranges : List (Nat × Nat)} {start : Nat}, Tiles start ranges str.length →
      copied str ranges = str.drop start := by
  intro ranges
  induction ranges with
  | nil =>
      intro start h
      rw [show start = str.length from h, List.drop_length]
      rfl
  | cons r rest ih =>
      obtain ⟨offset, len⟩ := r
      intro start h
      obtain ⟨rfl, hrest⟩ := h
      have hcopied := ih hrest
      rw [copied] at hcopied
      rw [copied, List.flatMap_cons, hcopied, ← List.drop_drop, List.take_append_drop]

/-- The lengths of ranges that cover a buffer add up to its length. -/
theorem Tiles.sum : ∀ {ranges : List (Nat × Nat)} {start stop : Nat}, Tiles start ranges stop →
    start + (ranges.map Prod.snd).sum = stop := by
  intro ranges
  induction ranges with
  | nil =>
      intro start stop h
      exact h
  | cons r rest ih =>
      obtain ⟨offset, len⟩ := r
      intro start stop h
      obtain ⟨rfl, hrest⟩ := h
      rw [List.map_cons, List.sum_cons, ← Nat.add_assoc]
      exact ih hrest

/-! ### Prefixes of a stream -/

/-- The first bytes of a stream, read in two pieces. -/
theorem take_add_stream (s : Stream'.Seq α) (r n : Nat) :
    s.take (r + n) = s.take r ++ (s.drop r).take n := by
  induction r generalizing s with
  | zero => simp
  | succ r ih =>
      cases s using Stream'.Seq.recOn with
      | nil => simp
      | cons x s =>
          rw [Nat.succ_add, Stream'.Seq.take_succ_cons, ih, Stream'.Seq.take_succ_cons,
            Stream'.Seq.drop_succ_cons, List.cons_append]

/-! ### Removing a run from the end -/

variable {p : α → Bool}

theorem rdropWhile_append_of_mem {a b : List α} {x : α} (hx : x ∈ b) (hp : ¬ p x) :
    (a ++ b).rdropWhile p = a ++ b.rdropWhile p := by
  have hne : (b.reverse.dropWhile p).isEmpty = false := by
    rw [List.isEmpty_eq_false_iff]
    intro hnil
    exact hp (List.dropWhile_eq_nil_iff.mp hnil x (by simpa using hx))
  rw [List.rdropWhile, List.rdropWhile, List.reverse_append, List.dropWhile_append, hne]
  simp

theorem rdropWhile_append_of_all {a b : List α} (hb : ∀ x ∈ b, p x) :
    (a ++ b).rdropWhile p = a.rdropWhile p := by
  have hnil : b.reverse.dropWhile p = [] :=
    List.dropWhile_eq_nil_iff.mpr (fun x hx => hb x (by simpa using hx))
  rw [List.rdropWhile, List.rdropWhile, List.reverse_append, List.dropWhile_append, hnil]
  simp

theorem length_rdropWhile_le (a : List α) : (a.rdropWhile p).length ≤ a.length :=
  (List.rdropWhile_prefix p a).length_le

/-- Removing the run early never leaves more. -/
theorem length_rdropWhile_append_le (a b : List α) :
    ((a.rdropWhile p ++ b).rdropWhile p).length ≤ ((a ++ b).rdropWhile p).length := by
  by_cases hb : ∀ x ∈ b, p x
  · rw [rdropWhile_append_of_all hb, rdropWhile_append_of_all hb, List.rdropWhile_idempotent]
  · push Not at hb
    obtain ⟨x, hx, hpx⟩ := hb
    rw [rdropWhile_append_of_mem hx hpx, rdropWhile_append_of_mem hx hpx, List.length_append,
      List.length_append]
    have := length_rdropWhile_le (p := p) a
    omega

end Technopark
