/-
`Stack.cpp` and `Stack.h`: a stack of ints in a buffer of fixed size.

`top_` is a `size_t` that starts at `-1`, that is at `2 ^ 64 - 1`, and the empty stack is
recognised by that value.  `top_ + 1` wraps to zero there, which is what makes both the
overflow test of `Push` and `Size` right on an empty stack.  `Display` compares an `int`
with `top_` itself.
-/
import Technopark.Lib.Call

namespace Technopark

/-- A `Stack` object. -/
structure Stack where
  buffer : List Int
  stackSize : Nat
  /-- `top_`. -/
  topIndex : Nat
  deriving Repr, DecidableEq

namespace Stack

/-- `sizeof(int)`. -/
def sizeofInt : Nat := 4

/-- `size_t(-1)`. -/
def minusOne : Nat := sizeTOfInt (-1)

/-- `Stack::Stack`.  `new int[n]` throws if the size of the array cannot be represented. -/
def new (stackSize : Nat) : Except Fault Stack :=
  if ptrdiffMax < stackSize * sizeofInt then
    .error .badAlloc
  else
    .ok { buffer := List.replicate stackSize 0
          stackSize := stackSize
          topIndex := minusOne }

/-- Reading `buffer_[index]`. -/
def load (index : Nat) : Call Stack Int := do
  match (← get).buffer[index]? with
  | some x => return x
  | none => throw (.undefined .outOfBounds)

/-- Writing `buffer_[index]`. -/
def store (index : Nat) (value : Int) : Call Stack Unit := do
  let s ← get
  if index < s.buffer.length then
    set { s with buffer := s.buffer.set index value }
  else
    throw (.undefined .outOfBounds)

/-- `Stack::Push`. -/
def push (val : Int) : Call Stack Unit := do
  let s ← get
  if s.stackSize ≤ sizeT (s.topIndex + 1) then
    throw (.runtimeError "stack overflow")
  set { s with topIndex := sizeT (s.topIndex + 1) }
  store (sizeT (s.topIndex + 1)) val

/-- `Stack::Size`. -/
def size : Call Stack Nat := return sizeT ((← get).topIndex + 1)

/-- `Stack::Pop`. -/
def pop : Call Stack Int := do
  let s ← get
  if s.topIndex = minusOne then
    throw (.runtimeError "stack underflow")
  set { s with topIndex := sizeTSub s.topIndex 1 }
  load s.topIndex

/-- `Stack::Top`, which checks nothing. -/
def top : Call Stack Int := do
  load (← get).topIndex

/-- `Stack::Empty`. -/
def empty : Call Stack Bool := return (← get).topIndex == minusOne

/-! ### `Stack::Display` -/

/-- The stack a run of `Display` is about, the indices it has read, and what it has printed. -/
structure Terminal where
  stack : Stack
  reads : List Int
  /-- One text for each `<<` on `std::cout`. -/
  cout : List String
  deriving Repr, DecidableEq

/-- Reading `buffer_[index]` with an `int`. -/
def readCell (index : Int) : Call Terminal Int := do
  let t ← get
  set { t with reads := t.reads ++ [index] }
  if index < 0 then
    throw (.undefined .outOfBounds)
  match t.stack.buffer[index.toNat]? with
  | some x => return x
  | none => throw (.undefined .outOfBounds)

/-- `std::cout << text`. -/
def print (text : String) : Call Terminal Unit :=
  modify fun t => { t with cout := t.cout ++ [text] }

/-- `++i` on an `int`. -/
def successor (i : Int) : Call Terminal Int :=
  if i = intMax then throw (.undefined .signedOverflow) else return i + 1

/--
The loop of `Stack::Display`, for at most `fuel` iterations.  In `i <= top_` the `int` is
converted to `size_t`.
-/
def displayLoop : Nat → Int → Call Terminal Unit
  | 0, i => do
      if sizeTOfInt i ≤ (← get).stack.topIndex then
        throw .outOfFuel
  | fuel + 1, i => do
      if sizeTOfInt i ≤ (← get).stack.topIndex then
        let x ← readCell i
        print (toString x)
        print "\t"
        let next ← successor i
        displayLoop fuel next

/-- `Stack::Display`, with at most `fuel` iterations of its loop. -/
def display (fuel : Nat) : Call Terminal Unit := do
  displayLoop fuel 0
  print "\n"

end Stack

end Technopark
