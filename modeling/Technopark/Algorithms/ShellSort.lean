/-
`cmake_make_gtest_cppunit/stack_corr.cpp`: `shell_sort`.

The first loop finds the greatest gap, the others sort with one gap after the other, each
a third of the one before.  With a gap `h` every element is inserted among those `h`, `2h`
and so on places before it: it is held in `tmp` while the greater ones move up.

The array is the state, and an access outside of it is undefined.  `h` and `i` are `int`s,
whose arithmetic is undefined when it overflows; `j` and `length` are `long`s, and `j - h` is
only computed when it is not negative.  The loops recurse on a fuel, and `shellSort` passes
one that is enough (`Proofs/ShellSort.lean`).
-/
import Technopark.Lib.Call

namespace Technopark.ShellSort

/-- The result of arithmetic on `int`s. -/
def int (n : Int) : Call (List Int) Int :=
  if -intMax - 1 ≤ n ∧ n ≤ intMax then return n else throw (.undefined .signedOverflow)

/-- Reading `my_array[index]`. -/
def load (index : Int) : Call (List Int) Int := do
  if index < 0 then
    throw (.undefined .outOfBounds)
  match (← get)[index.toNat]? with
  | some x => return x
  | none => throw (.undefined .outOfBounds)

/-- Writing `my_array[index]`. -/
def store (index value : Int) : Call (List Int) Unit := do
  let cells ← get
  if 0 ≤ index ∧ index < cells.length then
    set (cells.set index.toNat value)
  else
    throw (.undefined .outOfBounds)

/-- `for (h = 1; h <= length / 9; h = 3 * h + 1);`, from some `h` on. -/
def firstGap (length : Int) : Nat → Int → Call (List Int) Int
  | 0, _ => throw .outOfFuel
  | fuel + 1, h => do
      if h ≤ length.tdiv 9 then
        let triple ← int (3 * h)
        let h ← int (triple + 1)
        firstGap length fuel h
      else
        return h

/-- The `while` loop that looks for the place of `tmp`, from some `j` on. -/
def shift (h tmp : Int) : Nat → Int → Call (List Int) Int
  | 0, _ => throw .outOfFuel
  | fuel + 1, j => do
      if h ≤ j then
        let x ← load (j - h)
        if tmp < x then
          store j x
          shift h tmp fuel (j - h)
        else
          return j
      else
        return j

/-- The body of the loop over `i`. -/
def insertAt (h i : Int) : Call (List Int) Unit := do
  let tmp ← load i
  let j ← shift h tmp (i.toNat + 1) i
  store j tmp

/-- The loop over `i` with one gap. -/
def pass (length h : Int) : Nat → Int → Call (List Int) Unit
  | 0, _ => throw .outOfFuel
  | fuel + 1, i => do
      if i < length then
        insertAt h i
        let i ← int (i + 1)
        pass length h fuel i

/-- The loop over the gaps. -/
def passes (length : Int) : Nat → Int → Call (List Int) Unit
  | 0, _ => throw .outOfFuel
  | fuel + 1, h => do
      if h > 0 then
        pass length h (length.toNat + 1) h
        passes length fuel (h.tdiv 3)

/-- `shell_sort`. -/
def shellSort (length : Int) : Call (List Int) Unit := do
  let h ← firstGap length (length.toNat + 1) 1
  passes length (h.toNat + 1) h

end Technopark.ShellSort
