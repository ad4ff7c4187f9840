/-
`DArray.cpp` and `DArray.h`: a growing array of doubles.

The element type is a parameter.  The array never computes with its elements, and
the heap built on it only compares them, so nothing here depends on their being
doubles beyond their eight bytes.

`buffer` holds the cells of the allocation `buffer_` points to, and its length is
the number of doubles really allocated, which is not always `buf_size_`: the
constructor multiplies by `sizeof(double)` in `size_t`.  A cell that was never
written is `none`.  Deallocation is not modelled, so the mixture of `malloc` with
`delete[]` and of `new[]` with `free` is not visible here.
-/
import Technopark.Lib.Call
import Mathlib.Data.List.ReduceOption

namespace Technopark

/-- A `DArray` object. -/
structure DArray (α : Type) where
  buffer : List (Option α)
  bufSize : Nat
  actualSize : Nat
  deriving Repr, DecidableEq

namespace DArray

variable {α : Type}

/-- `sizeof(double)`. -/
def sizeofDouble : Nat := 8

/-- `DArray::DArray`.  A failed `malloc` is only noticed by the `memset` after it. -/
def new [Zero α] (bufferSize : Nat) : Except Fault (DArray α) :=
  let bytes := sizeT (bufferSize * sizeofDouble)
  if ptrdiffMax < bytes then
    .error (.undefined .nullPointer)
  else
    .ok { buffer := List.replicate (bytes / sizeofDouble) (some 0)
          bufSize := bufferSize
          actualSize := 0 }

/-- `DArray::Size`. -/
def size : Call (DArray α) Nat := return (← get).actualSize

/-- `DArray::Capacity`. -/
def capacity : Call (DArray α) Nat := return (← get).bufSize

/-- `DArray::IsEmpty`. -/
def isEmpty : Call (DArray α) Bool := return (← get).actualSize == 0

/-- Reading through `operator[]`, which checks nothing. -/
def subscript (index : Nat) : Call (DArray α) α := do
  match (← get).buffer[index]? with
  | some (some x) => return x
  | some none => throw (.undefined .uninitialised)
  | none => throw (.undefined .outOfBounds)

/-- Assigning through `operator[]`. -/
def assign (index : Nat) (value : α) : Call (DArray α) Unit := do
  let arr ← get
  if index < arr.buffer.length then
    set { arr with buffer := arr.buffer.set index (some value) }
  else
    throw (.undefined .outOfBounds)

/-- `std::swap(arr[i], arr[j])`. -/
def swap (i j : Nat) : Call (DArray α) Unit := do
  let x ← subscript i
  let y ← subscript j
  assign i y
  assign j x

/--
`DArray::At`.  The `int` index is converted to `size_t` for the comparison, where
`actual_size_ - 1` has wrapped if the array is empty; the access itself uses the
`int`, so a negative index is outside the buffer.  `buffer_` is never null: where `malloc`
has failed, the constructor has not returned.
-/
def elementAt (index : Int) : Call (DArray α) α := do
  let arr ← get
  if sizeTSub arr.actualSize 1 < sizeTOfInt index then
    throw (.runtimeError "out of range")
  else if index < 0 then
    throw (.undefined .outOfBounds)
  else
    subscript index.toNat

/-- `DArray::Reallocate`.  `new double[n]` throws before anything is written. -/
def reallocate : Call (DArray α) Unit := do
  let arr ← get
  let newBufSize := sizeT (arr.bufSize * 2)
  if ptrdiffMax < newBufSize * sizeofDouble then
    throw .badAlloc
  -- `memcpy` of `buf_size_ * sizeof(double)` bytes
  let copied := sizeT (arr.bufSize * sizeofDouble) / sizeofDouble
  if arr.buffer.length < copied ∨ newBufSize < copied then
    throw (.undefined .outOfBounds)
  set { arr with
    buffer := arr.buffer.take copied ++ List.replicate (newBufSize - copied) none
    bufSize := newBufSize }

/-- `DArray::PushBack`. -/
def pushBack (value : α) : Call (DArray α) Unit := do
  let arr ← get
  if arr.actualSize = arr.bufSize then
    reallocate
  let index ← size
  assign index value
  modify fun arr => { arr with actualSize := sizeT (index + 1) }

/-- `DArray::PopBack`. -/
def popBack : Call (DArray α) α := do
  let arr ← get
  if arr.actualSize = 0 then
    throw (.runtimeError "DArray is empty")
  set { arr with actualSize := arr.actualSize - 1 }
  subscript (arr.actualSize - 1)

/-- The elements stored in the array: its first `Size()` cells. -/
def contents (arr : DArray α) : List α := (arr.buffer.take arr.actualSize).reduceOption

end DArray

end Technopark
