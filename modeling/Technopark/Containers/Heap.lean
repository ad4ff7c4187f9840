/-
`Heap.cpp`: a binary max-heap kept in a `DArray`.

The functions of the namespace `heap`, on the array they are given.  Both sifts
are loops over an index; here they recurse on a fuel, and the public names pass
one that is enough (`Proofs/Heap.lean`).  Index arithmetic is that of `size_t`,
and `MakeHeap` counts down in an `int`.
-/
import Technopark.Containers.DArray

namespace Technopark.Heap

open DArray

variable {α : Type} [LE α] [LT α] [DecidableLE α] [DecidableLT α]

/-- `index < arr.Size() && arr[index] > arr[largest] ? index : largest`. -/
def larger (index largest : Nat) : Call (DArray α) Nat := do
  if index < (← size) then
    let x ← subscript index
    let y ← subscript largest
    if x > y then return index else return largest
  else
    return largest

/-- The recursion of `SiftDown`. -/
def siftDownFrom : Nat → Nat → Call (DArray α) Unit
  | 0, _ => throw .outOfFuel
  | fuel + 1, i => do
      let left := sizeT (2 * i + 1)
      let right := sizeT (2 * i + 2)
      let largest ← larger left i
      let largest ← larger right largest
      if largest ≠ i then
        DArray.swap i largest
        siftDownFrom fuel largest

/-- `SiftDown`. -/
def siftDown (i : Nat) : Call (DArray α) Unit := do
  let n ← size
  siftDownFrom (n + 1) i

/-- The loop of `SiftUp`. -/
def siftUpFrom : Nat → Nat → Call (DArray α) Unit
  | 0, _ => throw .outOfFuel
  | fuel + 1, i => do
      if 0 < i then
        let parent := (i - 1) / 2
        let x ← subscript i
        let y ← subscript parent
        if x ≤ y then
          return
        DArray.swap i parent
        siftUpFrom fuel parent

/-- `SiftUp`. -/
def siftUp (i : Nat) : Call (DArray α) Unit := siftUpFrom (i + 1) i

/-- The iterations of `MakeHeap` from `i = k - 1` down to `i = 0`. -/
def makeHeapFrom : Nat → Call (DArray α) Unit
  | 0 => return
  | k + 1 => do
      siftDown k
      makeHeapFrom k

/-- `MakeHeap`.  A negative first `i` makes no iteration. -/
def makeHeap : Call (DArray α) Unit := do
  let i := toInt32 (sizeTSub ((← size) / 2) 1)
  makeHeapFrom (i + 1).toNat

/-- `Add`. -/
def add (element : α) : Call (DArray α) Unit := do
  pushBack element
  siftUp (sizeTSub (← size) 1)

/-- `ExtractMax`. -/
def extractMax : Call (DArray α) α := do
  if (← isEmpty) then
    throw (.runtimeError "head is empty")
  let res ← subscript 0
  assign 0 (← popBack)
  if !(← isEmpty) then
    siftDown 0
  return res

/-- `HeapMaximum`. -/
def heapMaximum : Call (DArray α) α := do
  if (← isEmpty) then
    throw (.runtimeError "head is empty")
  subscript 0

end Technopark.Heap
