/-
Decimal numbers as they are written, and what `stoi` makes of them.

`stoi` reads a number from the beginning of a text and does not look at the rest.  `Numeral`
says that without the recursion: some white space, at most one sign, at least one digit, and
then anything that does not go on with the digits.  It is what `stoi` accepts, up to the range
of `int` (`stoi_eq_ok_iff`), and what `decimalText` writes (`numeral_decimalText`).
-/
import Technopark.Lib.StdString
import Mathlib.Data.Nat.Digits.Defs
import Mathlib.Data.Nat.Digits.Lemmas

namespace Technopark

/-! ### Runs of characters -/

/-- White space. -/
def Blank (ws : List UInt8) : Prop := ∀ c ∈ ws, isSpace c

/-- A text that was put together from a run and what does not go on with it. -/
theorem span_append {p : UInt8 → Bool} (run rest : List UInt8) (hrun : ∀ c ∈ run, p c)
    (hrest : ∀ c ∈ rest.head?, ¬ p c) :
    (run ++ rest).takeWhile p = run ∧ (run ++ rest).dropWhile p = rest := by
  rw [List.takeWhile_append_of_pos hrun, List.dropWhile_append_of_pos hrun]
  cases rest with
  | nil => simp
  | cons c rest => simp [hrest c rfl]

/-- What is behind a run does not go on with it. -/
theorem head?_dropWhile {p : UInt8 → Bool} (text : List UInt8) :
    ∀ c ∈ (text.dropWhile p).head?, ¬ p c := by
  intro c hc
  have hhead := List.head?_dropWhile_not p text
  rw [Option.mem_def.mp hc] at hhead
  simpa using hhead

theorem isDigit_not_isSpace {c : UInt8} (h : isDigit c) : ¬ isSpace c := by
  simp only [isDigit, isSpace, Bool.and_eq_true, Bool.or_eq_true, decide_eq_true_eq, beq_iff_eq,
    UInt8.le_iff_toNat_le, ← UInt8.toNat_inj] at h ⊢
  simp only [UInt8.reduceToNat] at h ⊢
  omega

theorem dropSign_digit {c : UInt8} (h : isDigit c) (rest : List UInt8) :
    dropSign (c :: rest) = c :: rest := by
  have hsign : ¬ (c = 43 ∨ c = 45) := by
    rintro (rfl | rfl)
    · exact absurd h (by decide)
    · exact absurd h (by decide)
  exact if_neg hsign

/-! ### Numerals -/

/-- At most one sign. -/
def Sign (sign : List UInt8) : Prop := sign = [] ∨ sign = [43] ∨ sign = [45]

/-- The text begins with a number. -/
def Numeral (str : List UInt8) (n : Int) : Prop :=
  ∃ ws sign digits rest, str = ws ++ (sign ++ (digits ++ rest)) ∧ Blank ws ∧ Sign sign ∧
    digits ≠ [] ∧ (∀ c ∈ digits, isDigit c) ∧ (∀ c ∈ rest.head?, ¬ isDigit c) ∧
    n = if sign = [45] then -(decimal digits : Int) else decimal digits

variable {str : List UInt8} {n : Int}

/-- What is behind the white space of a numeral. -/
theorem Sign.shape {sign digits : List UInt8} (h : Sign sign) (hne : digits ≠ [])
    (hdigits : ∀ c ∈ digits, isDigit c) (rest : List UInt8) :
    (∀ c ∈ (sign ++ (digits ++ rest)).head?, ¬ isSpace c) ∧
      dropSign (sign ++ (digits ++ rest)) = digits ++ rest ∧
      ((sign ++ (digits ++ rest)).head? = some 45 ↔ sign = [45]) := by
  rcases h with rfl | rfl | rfl
  · obtain ⟨c, more, rfl⟩ := List.exists_cons_of_ne_nil hne
    have hc := hdigits c List.mem_cons_self
    refine ⟨?_, dropSign_digit hc _, ?_⟩
    · intro x hx
      rw [← Option.some.inj hx]
      exact isDigit_not_isSpace hc
    · refine iff_of_false ?_ (by simp)
      intro h45
      rw [Option.some.inj h45] at hc
      exact absurd hc (by decide)
  · refine ⟨?_, rfl, by simp⟩
    intro x hx
    rw [← Option.some.inj hx]
    decide
  · refine ⟨?_, rfl, by simp⟩
    intro x hx
    rw [← Option.some.inj hx]
    decide

/-- A text that begins with a sign and digits, or with digits. -/
theorem exists_sign (s : List UInt8) (hne : (dropSign s).takeWhile isDigit ≠ []) :
    ∃ sign, Sign sign ∧ s = sign ++ dropSign s ∧ (s.head? = some 45 ↔ sign = [45]) := by
  cases s with
  | nil => exact absurd rfl hne
  | cons c s =>
      by_cases hplus : c = 43
      · subst hplus
        exact ⟨[43], .inr (.inl rfl), rfl, by simp⟩
      by_cases hminus : c = 45
      · subst hminus
        exact ⟨[45], .inr (.inr rfl), rfl, by simp⟩
      · refine ⟨[], .inl rfl, ?_, by simp [hminus]⟩
        exact (if_neg (not_or.mpr ⟨hplus, hminus⟩)).symm

theorem inInt_eq {m : Int} (h : inInt m = .ok n) : m = n := by
  unfold inInt at h
  split at h
  · injection h
  · injection h

/-- **`stoi` accepts the numerals in the range of an `int`.** -/
theorem stoi_eq_ok_iff : stoi str = .ok n ↔ Numeral str n ∧ -2 ^ 31 ≤ n ∧ n < 2 ^ 31 := by
  constructor
  · intro h
    refine ⟨?_, stoi_range h⟩
    rw [stoi] at h
    split at h
    · injection h
    · next hne =>
        obtain ⟨sign, hsign, hs, hminus⟩ := exists_sign (str.dropWhile isSpace) hne
        refine ⟨str.takeWhile isSpace, sign, _,
          (dropSign (str.dropWhile isSpace)).dropWhile isDigit, ?_,
          fun c hc => List.mem_takeWhile_imp hc, hsign, hne,
          fun c hc => List.mem_takeWhile_imp hc, head?_dropWhile _, ?_⟩
        · rw [List.takeWhile_append_dropWhile, ← hs, List.takeWhile_append_dropWhile]
        · rw [← inInt_eq h]
          exact if_congr hminus rfl rfl
  · rintro ⟨⟨ws, sign, digits, rest, rfl, hws, hsign, hne, hdigits, hrest, rfl⟩, hrange⟩
    obtain ⟨hhead, hdrop, hminus⟩ := hsign.shape hne hdigits rest
    obtain ⟨-, hskip⟩ := span_append ws _ hws hhead
    obtain ⟨htake, -⟩ := span_append digits rest hdigits hrest
    simp only [stoi, hskip, hdrop, htake, hne, if_false, hminus]
    exact if_pos hrange

/-! ### Writing a number -/

/-- A digit. -/
def digitChar (d : Nat) : UInt8 := UInt8.ofNat (48 + d)

/-- A number in decimal. -/
def decimalText (n : Nat) : List UInt8 :=
  if n = 0 then [digitChar 0] else (Nat.digits 10 n).reverse.map digitChar

theorem digitChar_toNat {d : Nat} (h : d < 10) : (digitChar d).toNat = 48 + d := by
  rw [digitChar, UInt8.toNat_ofNat']
  omega

theorem isDigit_digitChar {d : Nat} (h : d < 10) : isDigit (digitChar d) := by
  have := digitChar_toNat h
  simp only [isDigit, Bool.and_eq_true, decide_eq_true_eq, UInt8.le_iff_toNat_le, this]
  simp only [UInt8.reduceToNat]
  omega

theorem decimal_concat (digits : List UInt8) (c : UInt8) :
    decimal (digits ++ [c]) = 10 * decimal digits + (c.toNat - 48) := by
  rw [decimal, List.foldl_append]
  rfl

/-- The digits, the least significant one first, are read from behind. -/
theorem decimal_reverse (ds : List Nat) (hds : ∀ d ∈ ds, d < 10) :
    decimal (ds.reverse.map digitChar) = Nat.ofDigits 10 ds := by
  induction ds with
  | nil => rfl
  | cons d ds ih =>
      obtain ⟨hd, hrest⟩ := List.forall_mem_cons.mp hds
      have hdigit := digitChar_toNat hd
      rw [List.reverse_cons, List.map_append, List.map_singleton, decimal_concat, ih hrest,
        Nat.ofDigits_cons, hdigit]
      omega

theorem decimalText_digits (n : Nat) :
    decimalText n ≠ [] ∧ (∀ c ∈ decimalText n, isDigit c) ∧ decimal (decimalText n) = n := by
  rw [decimalText]
  split
  · next hzero =>
      refine ⟨by simp, ?_, by rw [hzero]; rfl⟩
      intro c hc
      rw [List.mem_singleton.mp hc]
      exact isDigit_digitChar (by omega)
  · next hpos =>
      refine ⟨?_, ?_, ?_⟩
      · rw [ne_eq, List.map_eq_nil_iff, List.reverse_eq_nil_iff]
        exact Nat.digits_ne_nil_iff_ne_zero.mpr hpos
      · intro c hc
        obtain ⟨d, hd, rfl⟩ := List.mem_map.mp hc
        exact isDigit_digitChar (Nat.digits_lt_base (by omega) (List.mem_reverse.mp hd))
      · rw [decimal_reverse _ fun d hd => Nat.digits_lt_base (by omega) hd, Nat.ofDigits_digits]

/-- What is written is a numeral. -/
theorem numeral_decimalText (n : Nat) : Numeral (decimalText n) n := by
  obtain ⟨hne, hdigits, hvalue⟩ := decimalText_digits n
  refine ⟨[], [], decimalText n, [], by simp, ?_, .inl rfl, hne, hdigits, by simp, ?_⟩
  · intro c hc
    exact absurd hc List.not_mem_nil
  · rw [if_neg (by simp), hvalue]

end Technopark
