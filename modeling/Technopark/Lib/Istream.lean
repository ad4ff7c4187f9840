/-
Formatted input from a stream of characters.

A stream is what is still to be read of it and two flags.  An operation on a stream that has
failed or ended does nothing but fail, so a program may read on and ask once in the end.  A
number and a word are read behind white space, a line up to its end; whatever runs into the
end of the stream sets `eof`, which is no failure by itself.

For each operation there is a relation that says what text it reads, and a lemma that on such a
text it returns that and leaves the rest (`word_run`, `number_run`, `getline_run`).  The other
lemma says that it fails on everything else (`word_inv`, `number_inv`, `getline_inv`).
-/
import Technopark.Lib.Numeral

namespace Technopark

/-- An input stream. -/
structure Istream where
  rest : List UInt8
  fail : Bool := false
  eof : Bool := false
  deriving Repr, DecidableEq

namespace Istream

/-- `good()`. -/
def good (s : Istream) : Bool := !s.fail && !s.eof

/-- The beginning of a formatted operation: white space is skipped. -/
def skipBlanks (s : Istream) : Istream :=
  if s.good then
    let rest := s.rest.dropWhile isSpace
    if rest = [] then { rest := [], fail := true, eof := true } else { s with rest := rest }
  else
    { s with fail := true }

/-- `s >> str`, where `str` is `old`: the new `str` and the stream. -/
def word (old : List UInt8) (s : Istream) : List UInt8 × Istream :=
  let s := s.skipBlanks
  if s.fail then (old, s)
  else
    let rest := s.rest.dropWhile (! isSpace ·)
    (s.rest.takeWhile (! isSpace ·), { s with rest := rest, eof := rest = [] })

/-- One more than the largest `unsigned int`. -/
def uintMod : Nat := 2 ^ 32

/-- `s >> n` for an `unsigned int`; a number behind a minus is taken modulo `2 ^ 32`. -/
def number (old : Nat) (s : Istream) : Nat × Istream :=
  let s := s.skipBlanks
  if s.fail then (old, s)
  else
    let body := dropSign s.rest
    let digits := body.takeWhile isDigit
    let rest := body.dropWhile isDigit
    let t : Istream := { s with rest := rest, eof := rest = [] }
    if digits = [] then (0, { t with fail := true })
    else if uintMod ≤ decimal digits then (uintMod - 1, { t with fail := true })
    else if s.rest.head? = some 45 then ((uintMod - decimal digits) % uintMod, t)
    else (decimal digits, t)

/-- `std::getline(s, str)`, where `str` is `old`. -/
def getline (old : List UInt8) (s : Istream) : List UInt8 × Istream :=
  if s.good then
    let line := s.rest.takeWhile (· ≠ 10)
    match s.rest.dropWhile (· ≠ 10) with
    | [] => (line, { rest := [], fail := line = [], eof := true })
    | _ :: rest => (line, { s with rest := rest })
  else
    (old, { s with fail := true })

/-! ### What is read -/

/-- Characters that are not white space, and at least one. -/
def Word (w : List UInt8) : Prop := w ≠ [] ∧ ∀ c ∈ w, ¬ isSpace c

/-- A number with or without a sign. -/
inductive Number : List UInt8 → Nat → Prop
  | plain {digits : List UInt8} (h : digits ≠ []) (hdigits : ∀ c ∈ digits, isDigit c)
      (hfits : decimal digits < uintMod) : Number digits (decimal digits)
  | plus {digits : List UInt8} (h : digits ≠ []) (hdigits : ∀ c ∈ digits, isDigit c)
      (hfits : decimal digits < uintMod) : Number (43 :: digits) (decimal digits)
  | minus {digits : List UInt8} (h : digits ≠ []) (hdigits : ∀ c ∈ digits, isDigit c)
      (hfits : decimal digits < uintMod) :
      Number (45 :: digits) ((uintMod - decimal digits) % uintMod)

/-- The text begins with a line; the last one need not have an end. -/
inductive Line : List UInt8 → List UInt8 → List UInt8 → Prop
  | ended {line : List UInt8} (h : 10 ∉ line) (rest : List UInt8) :
      Line (line ++ 10 :: rest) line rest
  | last {line : List UInt8} (h : 10 ∉ line) (hne : line ≠ []) : Line line line []

/-! ### White space and words -/

variable {ws w rest : List UInt8}

theorem Word.of_all (hne : w ≠ []) (hw : w.all (! isSpace ·) = true) : Word w := by
  refine ⟨hne, ?_⟩
  intro c hc
  simpa using List.all_eq_true.mp hw c hc

theorem Word.head (h : Word w) : ∃ c v, w = c :: v ∧ ¬ isSpace c := by
  obtain ⟨c, v, rfl⟩ := List.exists_cons_of_ne_nil h.1
  exact ⟨c, v, rfl, h.2 c List.mem_cons_self⟩

/-- Skipping up to a text that does not begin with white space. -/
theorem skipBlanks_run (hws : Blank ws) {c : UInt8} (hc : ¬ isSpace c) (rest : List UInt8) :
    skipBlanks { rest := ws ++ c :: rest } = { rest := c :: rest } := by
  obtain ⟨-, hdrop⟩ := span_append ws (c :: rest) hws (by simpa using hc)
  simp [skipBlanks, good, hdrop]

/-- Where skipping does not fail. -/
theorem skipBlanks_inv {s : Istream} (h : s.skipBlanks.fail = false) :
    ∃ ws c rest, s = { rest := ws ++ c :: rest } ∧ Blank ws ∧ ¬ isSpace c := by
  have hgood : s.good = true := by
    by_contra hbad
    rw [skipBlanks, if_neg hbad] at h
    exact Bool.false_ne_true h.symm
  obtain ⟨str, fail, eof⟩ := s
  obtain ⟨rfl, rfl⟩ : fail = false ∧ eof = false := by simpa [good] using hgood
  have hne : str.dropWhile isSpace ≠ [] := by
    intro hnil
    simp [skipBlanks, hgood, hnil] at h
  obtain ⟨c, rest, hrest⟩ := List.exists_cons_of_ne_nil hne
  have hc := head?_dropWhile (p := isSpace) str c (by rw [hrest]; rfl)
  refine ⟨str.takeWhile isSpace, c, rest, ?_, fun x hx => List.mem_takeWhile_imp hx, hc⟩
  rw [← hrest, List.takeWhile_append_dropWhile]

/-- Reading a word. -/
theorem word_run (old : List UInt8) (hws : Blank ws) (hw : Word w)
    (hrest : ∀ c ∈ rest.head?, isSpace c) :
    word old { rest := ws ++ (w ++ rest) } = (w, { rest := rest, eof := rest = [] }) := by
  obtain ⟨c, v, rfl, hc⟩ := hw.head
  have hskip := skipBlanks_run hws hc (v ++ rest)
  rw [← List.cons_append] at hskip
  obtain ⟨htake, hdrop⟩ := span_append (p := (! isSpace ·)) (c :: v) rest
    (fun x hx => by simpa using hw.2 x hx) (fun x hx => by simpa using hrest x hx)
  simp only [word, hskip, htake, hdrop]
  rfl

/-- What is read where reading a word does not fail. -/
theorem word_inv {old : List UInt8} {s : Istream} (h : (s.word old).2.fail = false) :
    ∃ ws w rest, s = { rest := ws ++ (w ++ rest) } ∧ Blank ws ∧ Word w ∧
      ∀ c ∈ rest.head?, isSpace c := by
  have hskip : s.skipBlanks.fail = false := by
    by_contra hfail
    rw [Bool.not_eq_false] at hfail
    simp [word, hfail] at h
  obtain ⟨ws, c, str, rfl, hws, hc⟩ := skipBlanks_inv hskip
  refine ⟨ws, (c :: str).takeWhile (! isSpace ·), (c :: str).dropWhile (! isSpace ·), ?_, hws,
    ⟨?_, ?_⟩, ?_⟩
  · rw [List.takeWhile_append_dropWhile]
  · simp [hc]
  · intro x hx
    simpa using List.mem_takeWhile_imp hx
  · intro x hx
    simpa using head?_dropWhile (c :: str) x hx

/-! ### Numbers -/

/-- The number a sign and digits stand for. -/
def signed (sign : Option UInt8) (digits : List UInt8) : Nat :=
  if sign = some 45 then (uintMod - decimal digits) % uintMod else decimal digits

/-- What a number looks like from its beginning. -/
theorem Number.shape {field : List UInt8} {n : Nat} (h : Number field n) :
    ∃ c body digits, field = c :: body ∧ ¬ isSpace c ∧ digits ≠ [] ∧ (∀ x ∈ digits, isDigit x) ∧
      decimal digits < uintMod ∧ n = signed field.head? digits ∧
      ∀ rest, dropSign (field ++ rest) = digits ++ rest := by
  cases h with
  | @plain digits hne hdigits hfits =>
      obtain ⟨c, body, rfl⟩ := List.exists_cons_of_ne_nil hne
      have hc := hdigits c List.mem_cons_self
      refine ⟨c, body, c :: body, rfl, isDigit_not_isSpace hc, hne, hdigits, hfits, ?_, ?_⟩
      · refine (if_neg ?_).symm
        intro h45
        rw [Option.some.inj h45] at hc
        exact absurd hc (by decide)
      · intro rest
        exact dropSign_digit hc _
  | @plus digits hne hdigits hfits =>
      exact ⟨43, digits, digits, rfl, by decide, hne, hdigits, hfits, rfl, fun rest => rfl⟩
  | @minus digits hne hdigits hfits =>
      exact ⟨45, digits, digits, rfl, by decide, hne, hdigits, hfits, rfl, fun rest => rfl⟩

/-- Reading a number. -/
theorem number_run (old : Nat) {field : List UInt8} {n : Nat} (hws : Blank ws)
    (hfield : Number field n) (hrest : ∀ c ∈ rest.head?, ¬ isDigit c) :
    number old { rest := ws ++ (field ++ rest) } = (n, { rest := rest, eof := rest = [] }) := by
  obtain ⟨c, body, digits, rfl, hc, hne, hdigits, hfits, rfl, hdrop⟩ := hfield.shape
  have hskip := skipBlanks_run hws hc (body ++ rest)
  rw [← List.cons_append] at hskip
  obtain ⟨htake, hbehind⟩ := span_append digits rest hdigits hrest
  have hhead : (c :: body ++ rest).head? = (c :: body).head? := rfl
  simp only [number, hskip, hdrop, htake, hbehind, hne, Nat.not_le.mpr hfits, if_false, hhead,
    signed, Bool.false_eq_true]
  split <;> rfl

/-- What is read where reading a number does not fail. -/
theorem number_inv {old : Nat} {s : Istream} (h : (s.number old).2.fail = false) :
    ∃ ws field n rest, s = { rest := ws ++ (field ++ rest) } ∧ Blank ws ∧ Number field n ∧
      ∀ c ∈ rest.head?, ¬ isDigit c := by
  have hskip : s.skipBlanks.fail = false := by
    by_contra hfail
    rw [Bool.not_eq_false] at hfail
    simp [number, hfail] at h
  obtain ⟨ws, c, str, rfl, hws, hc⟩ := skipBlanks_inv hskip
  rw [number, skipBlanks_run hws hc] at h
  have hdigits : ∀ x ∈ (dropSign (c :: str)).takeWhile isDigit, isDigit x :=
    fun x hx => List.mem_takeWhile_imp hx
  have hne : (dropSign (c :: str)).takeWhile isDigit ≠ [] := by
    intro hnil
    simp [hnil] at h
  have hfits : decimal ((dropSign (c :: str)).takeWhile isDigit) < uintMod := by
    by_contra hbig
    simp [hne, Nat.not_lt.mp hbig] at h
  have hsplit := List.takeWhile_append_dropWhile (p := isDigit) (l := dropSign (c :: str))
  have hrest := head?_dropWhile (p := isDigit) (dropSign (c :: str))
  generalize (dropSign (c :: str)).takeWhile isDigit = digits at *
  generalize (dropSign (c :: str)).dropWhile isDigit = rest at *
  by_cases hsign : c = 43 ∨ c = 45
  · rw [dropSign, if_pos hsign] at hsplit
    subst hsplit
    rcases hsign with rfl | rfl
    · exact ⟨ws, 43 :: digits, _, rest, rfl, hws, .plus hne hdigits hfits, hrest⟩
    · exact ⟨ws, 45 :: digits, _, rest, rfl, hws, .minus hne hdigits hfits, hrest⟩
  · rw [dropSign, if_neg hsign] at hsplit
    exact ⟨ws, digits, _, rest, by rw [hsplit], hws, .plain hne hdigits hfits, hrest⟩

/-! ### Lines -/

theorem ne_newline {line : List UInt8} (h : 10 ∉ line) :
    ∀ c ∈ line, decide (c ≠ (10 : UInt8)) = true := by
  intro c hc
  rw [decide_eq_true_iff]
  rintro rfl
  exact h hc

/-- Reading a line that has an end. -/
theorem getline_ended (old : List UInt8) {line : List UInt8} (h : 10 ∉ line)
    (rest : List UInt8) :
    getline old { rest := line ++ 10 :: rest } = (line, { rest := rest }) := by
  obtain ⟨htake, hdrop⟩ := span_append line (10 :: rest) (ne_newline h) (by simp)
  simp only [getline, htake, hdrop]
  rfl

/-- Reading the last line, which has none. -/
theorem getline_last (old : List UInt8) {line : List UInt8} (h : 10 ∉ line) (hne : line ≠ []) :
    getline old { rest := line } = (line, { rest := [], eof := true }) := by
  obtain ⟨htake, hdrop⟩ := span_append line [] (ne_newline h) (by simp)
  rw [List.append_nil] at htake hdrop
  simp only [getline, htake, hdrop, hne]
  rfl

/-- Reading a line. -/
theorem getline_run (old : List UInt8) {str line : List UInt8} (h : Line str line rest) :
    ∃ eof, getline old { rest := str } = (line, { rest := rest, eof := eof }) ∧
      (eof = true → rest = []) := by
  cases h with
  | ended h rest => exact ⟨false, getline_ended old h rest, by simp⟩
  | last h hne => exact ⟨true, getline_last old h hne, fun _ => rfl⟩

/-- What is read where reading a line does not fail. -/
theorem getline_inv {old : List UInt8} {s : Istream} (h : (s.getline old).2.fail = false) :
    ∃ str line rest, s = { rest := str } ∧ Line str line rest := by
  have hgood : s.good = true := by
    by_contra hbad
    rw [getline, if_neg hbad] at h
    exact Bool.false_ne_true h.symm
  obtain ⟨str, fail, eof⟩ := s
  obtain ⟨rfl, rfl⟩ : fail = false ∧ eof = false := by simpa [good] using hgood
  have hsplit := List.takeWhile_append_dropWhile (p := (· ≠ (10 : UInt8))) (l := str)
  have hline : 10 ∉ str.takeWhile (· ≠ (10 : UInt8)) := by
    intro hmem
    simpa using List.mem_takeWhile_imp hmem
  have hhead := head?_dropWhile (p := (· ≠ (10 : UInt8))) str
  rw [getline, if_pos hgood] at h
  cases hdrop : str.dropWhile (· ≠ (10 : UInt8)) with
  | nil =>
      rw [hdrop, List.append_nil] at hsplit
      have hne : str ≠ [] := by
        rintro rfl
        simp at h
      rw [hsplit] at hline
      exact ⟨str, str, [], rfl, .last hline hne⟩
  | cons c rest =>
      obtain rfl : c = 10 := by
        have hc := hhead c (by rw [hdrop]; rfl)
        simpa using hc
      rw [hdrop] at hsplit
      exact ⟨str, _, rest, rfl, by
        nth_rewrite 1 [← hsplit]
        exact .ended hline rest⟩

end Istream

end Technopark
