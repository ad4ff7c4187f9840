/-
`Queue.cpp` and `Queue.h`: a fixed ring buffer of ints.

`head_` and `tail_` are `int`s, compared with a `size_t`, so both the overflow of
their increments and the conversion of a negative one are part of the model.
Reading and writing `buffer_` is checked against the cells really allocated.
-/
import Technopark.Lib.Call

namespace Technopark

/-- A `Queue` object. -/
structure Queue where
  buffer : List Int
  queueSize : Nat
  head : Int
  tail : Int
  deriving Repr, DecidableEq

namespace Queue

/-- `sizeof(int)`. -/
def sizeofInt : Nat := 4

/-- `Queue::Queue`.  A failed `malloc` is only noticed by the `memset` after it. -/
def new (queueSize : Nat) : Except Fault Queue :=
  let bytes := sizeT (queueSize * sizeofInt)
  if ptrdiffMax < bytes then
    .error (.undefined .nullPointer)
  else
    .ok { buffer := List.replicate (bytes / sizeofInt) 0
          queueSize := queueSize
          head := 0
          tail := 0 }

/-- Reading `buffer_[index]`. -/
def load (index : Int) : Call Queue Int := do
  let q ← get
  if index < 0 then
    throw (.undefined .outOfBounds)
  match q.buffer[index.toNat]? with
  | some x => return x
  | none => throw (.undefined .outOfBounds)

/-- Writing `buffer_[index]`. -/
def store (index : Int) (value : Int) : Call Queue Unit := do
  let q ← get
  if 0 ≤ index ∧ index.toNat < q.buffer.length then
    set { q with buffer := q.buffer.set index.toNat value }
  else
    throw (.undefined .outOfBounds)

/-- `i + 1` on an `int`. -/
def successor (i : Int) : Call Queue Int :=
  if i = intMax then throw (.undefined .signedOverflow) else return i + 1

/-- `Queue::Empty`. -/
def empty : Call Queue Bool := do
  let q ← get
  return q.head == q.tail

/-- `Queue::Push`. -/
def push (val : Int) : Call Queue Unit := do
  let q ← get
  let next ← successor q.tail
  if q.queueSize = 0 then
    throw (.undefined .divisionByZero)
  if sizeTOfInt next % q.queueSize = sizeTOfInt q.head then
    throw (.runtimeError "queue is full")
  store q.tail val
  let tail ← successor q.tail
  if sizeTOfInt tail = q.queueSize then
    modify fun q => { q with tail := 0 }
  else
    modify fun q => { q with tail := tail }

/-- `Queue::Pop`. -/
def pop : Call Queue Int := do
  if (← empty) then
    throw (.runtimeError "queue is empty")
  let q ← get
  let out ← load q.head
  let head ← successor q.head
  if sizeTOfInt head = q.queueSize then
    modify fun q => { q with head := 0 }
  else
    modify fun q => { q with head := head }
  return out

/-- `Queue::Back`. -/
def back : Call Queue Int := do
  if (← empty) then
    throw (.runtimeError "queue is empty")
  let q ← get
  if q.tail = 0 then
    load (sizeTSub q.queueSize 1)
  else
    load (q.tail - 1)

/-- `Queue::Front`. -/
def front : Call Queue Int := do
  if (← empty) then
    throw (.runtimeError "queue is empty")
  let q ← get
  load q.head

end Queue

end Technopark
