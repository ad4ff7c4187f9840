/-
`std::string` as a list: searching, cutting and reading numbers.

A position is a `size_t`, and the one that is not a position is `npos`, the largest of
them.  Programs compute with it as with any other, so `find` returns a number here too,
and the lemmas about it ask for a string that is shorter than `npos`, which every
`std::string` is.

What a search finds does not depend on what follows the place, and `indexOf_append` says
so; `indexOf_skip` is the other direction, that a character which is not in the pattern
separates what is before it from what is behind it.  `stoi` stops at the first character
that cannot belong to the number, and `stoi_append_cons` is that.
-/
import Technopark.Lib.Call
import Mathlib.Data.List.Infix
import Mathlib.Data.List.TakeWhile

namespace Technopark

/-- The characters of an ASCII text. -/
def text (s : String) : List UInt8 := s.toList.map fun c => UInt8.ofNat c.toNat

section
variable {α : Type} [DecidableEq α] {pat s t : List α} {i pos : Nat}

/-! ### Where a pattern is -/

/-- The position of the first occurrence of a pattern. -/
def indexOf (pat s : List α) : Option Nat := s.tails.findIdx? (pat.isPrefixOf ·)

theorem indexOf_eq_some_iff :
    indexOf pat s = some i ↔
      i ≤ s.length ∧ pat <+: s.drop i ∧ ∀ j < i, ¬ pat <+: s.drop j := by
  rw [indexOf, List.findIdx?_eq_some_iff_getElem]
  simp only [List.length_tails, List.getElem_tails, List.isPrefixOf_iff_prefix, Nat.lt_succ_iff,
    exists_prop]

theorem indexOf_eq_none_iff : indexOf pat s = none ↔ ¬ pat <:+: s := by
  rw [indexOf, List.findIdx?_eq_none_iff, List.infix_iff_prefix_suffix]
  simp only [List.mem_tails, Bool.eq_false_iff, ne_eq, List.isPrefixOf_iff_prefix]
  constructor
  · rintro h ⟨t, hpat, ht⟩
    exact h t ht hpat
  · intro h t ht hpat
    exact h ⟨t, hpat, ht⟩

/-- An occurrence ends inside the string. -/
theorem indexOf_le (h : indexOf pat s = some i) : i + pat.length ≤ s.length := by
  obtain ⟨hle, hpat, -⟩ := indexOf_eq_some_iff.mp h
  have := hpat.length_le
  rw [List.length_drop] at this
  omega

/-- The string around its first occurrence. -/
theorem indexOf_split (h : indexOf pat s = some i) :
    s = s.take i ++ pat ++ s.drop (i + pat.length) := by
  obtain ⟨-, hpat, -⟩ := indexOf_eq_some_iff.mp h
  obtain ⟨t, ht⟩ := hpat
  have hdrop : s.drop (i + pat.length) = t := by
    rw [← List.drop_drop, ← ht, List.drop_left]
  rw [hdrop, List.append_assoc, ht, List.take_append_drop]

theorem indexOf_of_split {a : List α} (hs : s = a ++ pat ++ t)
    (hfirst : ∀ j < a.length, ¬ pat <+: s.drop j) : indexOf pat s = some a.length := by
  refine indexOf_eq_some_iff.mpr ⟨?_, ?_, hfirst⟩
  · rw [hs, List.append_assoc, List.length_append]
    omega
  · rw [hs, List.append_assoc, List.drop_left]
    exact List.prefix_append _ _

/-- What is appended does not change the first occurrence. -/
theorem indexOf_append (h : indexOf pat s = some i) (t : List α) :
    indexOf pat (s ++ t) = some i := by
  have hle := indexOf_le h
  obtain ⟨-, hpat, hfirst⟩ := indexOf_eq_some_iff.mp h
  refine indexOf_eq_some_iff.mpr ⟨by rw [List.length_append]; omega, ?_, ?_⟩
  · rw [List.drop_append_of_le_length (by omega)]
    exact hpat.trans (List.prefix_append _ _)
  · intro j hj hstarts
    rw [List.drop_append_of_le_length (by omega)] at hstarts
    refine hfirst j hj (List.prefix_of_prefix_length_le hstarts (List.prefix_append _ _) ?_)
    rw [List.length_drop]
    omega

/-- A character that is not in the pattern: no occurrence reaches over it. -/
theorem not_prefix_over {c : α} (hs : indexOf pat s = none) (hc : c ∉ pat) {j : Nat}
    (hj : j ≤ s.length) : ¬ pat <+: (s ++ c :: t).drop j := by
  intro hpat
  rw [List.drop_append_of_le_length hj] at hpat
  rcases Nat.lt_or_ge (s.drop j).length pat.length with hlt | hge
  · -- the pattern is longer than what is left of `s`, so it has `c`
    have hlong : s.drop j ++ [c] <+: s.drop j ++ c :: t := ⟨t, by simp⟩
    have hsub := List.prefix_of_prefix_length_le hlong hpat (by rwa [List.length_append])
    exact hc (hsub.subset (by simp))
  · have hinside := List.prefix_of_prefix_length_le hpat (List.prefix_append _ _) hge
    refine indexOf_eq_none_iff.mp hs ?_
    exact hinside.isInfix.trans (List.drop_suffix j s).isInfix

/-- Behind a character that is not in the pattern the search starts anew. -/
theorem indexOf_skip {c : α} (hs : indexOf pat s = none) (hc : c ∉ pat) :
    indexOf pat (s ++ c :: t) = (indexOf pat t).map (· + (s.length + 1)) := by
  have hdrop : ∀ j, (s ++ c :: t).drop (s.length + 1 + j) = t.drop j := by
    intro j
    have hsplit : s ++ c :: t = (s ++ [c]) ++ t := by simp
    rw [hsplit, ← List.drop_drop, List.drop_left' (by simp)]
  cases h : indexOf pat (s ++ c :: t) with
  | none =>
      have ht : indexOf pat t = none := by
        rw [indexOf_eq_none_iff] at h ⊢
        intro hoccurs
        have hsuffix : t <:+ s ++ c :: t := ⟨s ++ [c], by simp⟩
        exact h (hoccurs.trans hsuffix.isInfix)
      rw [ht]
      rfl
  | some i =>
      obtain ⟨hle, hpat, hfirst⟩ := indexOf_eq_some_iff.mp h
      have hlt : s.length < i := by
        by_contra hge
        exact not_prefix_over hs hc (by omega) hpat
      obtain ⟨k, rfl⟩ := Nat.exists_eq_add_of_le (Nat.succ_le_of_lt hlt)
      rw [Nat.succ_eq_add_one, hdrop] at hpat
      have ht : indexOf pat t = some k := by
        refine indexOf_eq_some_iff.mpr ⟨?_, hpat, ?_⟩
        · rw [List.length_append, List.length_cons] at hle
          omega
        · intro j hj hstarts
          refine hfirst (s.length + 1 + j) (by omega) ?_
          rw [hdrop]
          exact hstarts
      rw [ht]
      simp [Nat.add_comm]

theorem indexOf_cons (pat : List α) (x : α) (s : List α) :
    indexOf pat (x :: s)
      = if pat <+: x :: s then some 0 else (indexOf pat s).map (· + 1) := by
  simp [indexOf, List.findIdx?_cons, List.isPrefixOf_iff_prefix]

/-- The text before the first `c`. -/
theorem take_indexOf_singleton {c : α} : ∀ {s : List α} {i : Nat}, indexOf [c] s = some i →
    s.take i = s.takeWhile (· ≠ c) := by
  intro s
  induction s with
  | nil =>
      intro i h
      simp
  | cons x s ih =>
      intro i h
      rw [indexOf_cons] at h
      split at h
      · next hx =>
          obtain rfl : c = x := by simpa using hx
          obtain rfl := Option.some.inj h
          simp
      · next hx =>
          have hne : x ≠ c := by
            rintro rfl
            simp at hx
          obtain ⟨j, hj, rfl⟩ := Option.map_eq_some_iff.mp h
          rw [List.take_succ_cons, ih hj, List.takeWhile_cons]
          simp [hne]

theorem takeWhile_of_indexOf_none {c : α} (h : indexOf [c] s = none) :
    s.takeWhile (· ≠ c) = s := by
  rw [List.takeWhile_eq_self_iff]
  intro x hx
  have hnot : ¬ [c] <:+: s := indexOf_eq_none_iff.mp h
  simp only [decide_eq_true_eq]
  rintro rfl
  exact hnot ((List.singleton_infix_iff _ _).mpr hx)

/-! ### `std::string` -/

/-- `std::string::npos`. -/
def npos : Nat := sizeMod - 1

/-- `s.find(pat, pos)`. -/
def find (s pat : List α) (pos : Nat) : Nat :=
  if pos ≤ s.length then
    match indexOf pat (s.drop pos) with
    | some i => pos + i
    | none => npos
  else
    npos

/-- `s.substr(pos, n)`. -/
def substr (s : List α) (pos n : Nat) : Except Fault (List α) :=
  if s.length < pos then .error .outOfRange else .ok ((s.drop pos).take n)

theorem find_of_some (hpos : pos ≤ s.length) (h : indexOf pat (s.drop pos) = some i) :
    find s pat pos = pos + i := by
  rw [find, if_pos hpos, h]

theorem find_of_none (h : indexOf pat (s.drop pos) = none) : find s pat pos = npos := by
  rw [find, h]
  split <;> rfl

/-- A search from the start. -/
theorem find_start (h : indexOf pat s = some i) : find s pat 0 = i := by
  rw [find_of_some (Nat.zero_le _) h, Nat.zero_add]

omit [DecidableEq α] in
theorem substr_ok (hpos : pos ≤ s.length) (n : Nat) :
    substr s pos n = .ok ((s.drop pos).take n) := by
  rw [substr, if_neg (by omega)]

end

/-! ### `std::stoi` -/

/-- `isspace`: a blank, or one of the characters from the tab to the carriage return. -/
def isSpace (c : UInt8) : Bool := c == 32 || (9 ≤ c && c ≤ 13)

/-- `isdigit`. -/
def isDigit (c : UInt8) : Bool := 48 ≤ c && c ≤ 57

/-- The text behind an optional sign. -/
def dropSign : List UInt8 → List UInt8
  | [] => []
  | c :: s => if c = 43 ∨ c = 45 then s else c :: s

/-- The number a run of decimal digits stands for. -/
def decimal (digits : List UInt8) : Nat := digits.foldl (fun n c => 10 * n + (c.toNat - 48)) 0

/-- A number that has to fit an `int`. -/
def inInt (n : Int) : Except Fault Int :=
  if -2 ^ 31 ≤ n ∧ n < 2 ^ 31 then .ok n else .error .outOfRange

/--
`std::stoi`: leading white space, an optional sign, and the longest run of digits.  What
comes behind it is ignored.
-/
def stoi (str : List UInt8) : Except Fault Int :=
  let s := str.dropWhile isSpace
  let digits := (dropSign s).takeWhile isDigit
  if digits = [] then
    .error .invalidArgument
  else
    inInt (if s.head? = some 45 then -decimal digits else decimal digits)

section
variable {u t : List UInt8} {c : UInt8} {n : Int}

/-- Leading white space does not matter. -/
theorem stoi_append_of_blank (h : ∀ c ∈ u, isSpace c) : stoi (u ++ t) = stoi t := by
  have hnil : u.dropWhile isSpace = [] := List.dropWhile_eq_nil_iff.mpr h
  rw [stoi, stoi, List.dropWhile_append, hnil]
  rfl

/-- White space only: there is no number. -/
theorem stoi_blank (h : ∀ c ∈ u, isSpace c) : stoi u = .error .invalidArgument := by
  rw [← List.append_nil u, stoi_append_of_blank h]
  rfl

theorem takeWhile_append_cons (hc : ¬ isDigit c) (u : List UInt8) :
    (u ++ c :: t).takeWhile isDigit = u.takeWhile isDigit := by
  rw [List.takeWhile_append]
  split
  · next hall =>
      have hself : u.takeWhile isDigit = u :=
        (List.takeWhile_prefix isDigit).eq_of_length hall
      simp [hself, hc]
  · rfl

/-- The number ends before a character that is not a digit, if it has begun by then. -/
theorem stoi_append_cons (hu : ∃ x ∈ u, ¬ isSpace x) (hc : ¬ isDigit c) :
    stoi (u ++ c :: t) = stoi u := by
  obtain ⟨x, w, hw⟩ : ∃ x w, u.dropWhile isSpace = x :: w := by
    refine List.exists_cons_of_ne_nil ?_
    intro hnil
    obtain ⟨x, hx, hnot⟩ := hu
    exact hnot (List.dropWhile_eq_nil_iff.mp hnil x hx)
  have hdrop : (u ++ c :: t).dropWhile isSpace = (x :: w) ++ c :: t := by
    rw [List.dropWhile_append, hw]
    rfl
  have hsign : dropSign ((x :: w) ++ c :: t) = dropSign (x :: w) ++ c :: t := by
    simp only [List.cons_append, dropSign]
    split <;> rfl
  rw [stoi, stoi, hdrop, hw, hsign, takeWhile_append_cons hc]
  rfl

theorem inInt_range {m : Int} (h : inInt m = .ok n) : -2 ^ 31 ≤ n ∧ n < 2 ^ 31 := by
  unfold inInt at h
  split at h
  · next hrange =>
      injection h with hn
      rwa [hn] at hrange
  · injection h

/-- What `stoi` returns is an `int`. -/
theorem stoi_range (h : stoi u = .ok n) : -2 ^ 31 ≤ n ∧ n < 2 ^ 31 := by
  unfold stoi at h
  dsimp only at h
  split at h
  · injection h
  · exact inInt_range h

end

end Technopark
