/-
`cmake_make_gtest_cppunit/LinkedList.cpp`: a doubly linked list of `int`s.

Nodes live on the heap, which is shared by all lists; an address is a node's index
in it, and a pointer is an address or null.  `new` never fails here and nothing is
freed before a list is destroyed.  Dereferencing a null pointer is undefined, and so is reading
a node that was freed, or freeing it again.

A `LinkedList` object is its two end pointers.  `InsertAfter`, `DeteleAt` and `Union` do
not touch them, so they are calls on the heap alone; `PushBack` returns the list with the
end pointers it has set.  The loop of `Search` recurses on a fuel, of which `search` passes
one for every node there is; on a list that goes in circles the loop does not end.  So does the
loop of `Display`.  The loop of the destructor has the same fuel and runs on what `Remains` of
the heap: the nodes, and which of them were handed to `delete []`.  That the nodes come from
`new` and not from `new []` is passed over.
-/
import Technopark.Lib.Call

namespace Technopark

/-- A `Node`. -/
structure Node where
  data : Int
  next : Option Nat
  prev : Option Nat
  deriving Repr, DecidableEq

/-- The nodes allocated so far. -/
abbrev NodeHeap := List Node

namespace NodeHeap

/-- `new Node()`. -/
def newNode : Call NodeHeap Nat := do
  let heap ← get
  set (heap ++ [({ data := 0, next := none, prev := none } : Node)])
  return heap.length

/-- Read the node a pointer points to. -/
def load (p : Option Nat) : Call NodeHeap Node := do
  match p with
  | none => throw (.undefined .nullPointer)
  | some a =>
      match (← get)[a]? with
      | none => throw (.undefined .outOfBounds)
      | some node => return node

/-- Write to the node a pointer points to. -/
def store (p : Option Nat) (f : Node → Node) : Call NodeHeap Unit := do
  match p with
  | none => throw (.undefined .nullPointer)
  | some a =>
      let heap ← get
      match heap[a]? with
      | none => throw (.undefined .outOfBounds)
      | some node => set (heap.set a (f node))

end NodeHeap

/-- What is left of the heap while lists are destroyed. -/
structure Remains where
  heap : NodeHeap
  /-- The nodes that were freed, in their order. -/
  freed : List Nat := []
  deriving Repr, DecidableEq

namespace Remains

/-- Read the node a pointer points to. -/
def load (p : Option Nat) : Call Remains Node := do
  match p with
  | none => throw (.undefined .nullPointer)
  | some a =>
      let s ← get
      if a ∈ s.freed then
        throw (.undefined .outOfBounds)
      else
        match s.heap[a]? with
        | none => throw (.undefined .outOfBounds)
        | some node => return node

/-- `delete [] p`. -/
def delete (p : Option Nat) : Call Remains Unit := do
  match p with
  | none => return ()
  | some a =>
      let s ← get
      if a ∈ s.freed ∨ s.heap.length ≤ a then
        throw (.undefined .outOfBounds)
      else
        set { s with freed := s.freed ++ [a] }

end Remains

open NodeHeap

/-- A `LinkedList` object. -/
structure LinkedList where
  head : Option Nat
  tail : Option Nat
  deriving Repr, DecidableEq

namespace LinkedList

/-- `LinkedList::LinkedList`. -/
def new : LinkedList := { head := none, tail := none }

/-- `LinkedList::Front`. -/
def front (l : LinkedList) : Option Nat := l.head

/-- `LinkedList::Back`. -/
def back (l : LinkedList) : Option Nat := l.tail

/-- `LinkedList::PushBack`. -/
def pushBack (l : LinkedList) (val : Int) : Call NodeHeap LinkedList := do
  let temp ← newNode
  store (some temp) fun n => { n with data := val }
  store (some temp) fun n => { n with next := none }
  store (some temp) fun n => { n with prev := none }
  if l.head = none then
    return { head := some temp, tail := some temp }
  else
    store l.tail fun n => { n with next := some temp }
    store (some temp) fun n => { n with prev := l.tail }
    return { l with tail := some temp }

/-- `LinkedList::InsertAfter`. -/
def insertAfter (node : Option Nat) (data : Int) : Call NodeHeap (Option Nat) := do
  if node = none then
    return none
  else
    let temp ← newNode
    store (some temp) fun n => { n with data := data }
    store (some temp) fun n => { n with prev := node }
    let next := (← load node).next
    store (some temp) fun n => { n with next := next }
    if next ≠ none then
      store next fun n => { n with prev := some temp }
    store node fun n => { n with next := some temp }
    return some temp

/-- The loop of `LinkedList::Search`, from some node on. -/
def searchFrom (val : Int) : Nat → Option Nat → Call NodeHeap (Option Nat)
  | 0, _ => throw .outOfFuel
  | fuel + 1, current => do
      if current = none then
        return none
      else
        let node ← load current
        if node.data = val then
          return current
        else
          searchFrom val fuel node.next

/-- `LinkedList::Search`. -/
def search (l : LinkedList) (val : Int) : Call NodeHeap (Option Nat) := do
  searchFrom val ((← get).length + 1) l.head

/-- `LinkedList::DeteleAt`. -/
def deteleAt (node : Option Nat) : Call NodeHeap Bool := do
  if node = none then
    return false
  else
    let next := (← load node).next
    if next ≠ none then
      let prev := (← load node).prev
      store next fun n => { n with prev := prev }
    let prev := (← load node).prev
    if prev ≠ none then
      let next := (← load node).next
      store prev fun n => { n with next := next }
    return true

/-- `LinkedList::Union`. -/
def union (list1 list2 : Option LinkedList) : Call NodeHeap Unit := do
  match list1, list2 with
  | some list1, some list2 =>
      let tail1 := list1.back
      let head2 := list2.front
      store tail1 fun n => { n with next := head2 }
      store head2 fun n => { n with prev := tail1 }
  | _, _ => return

/-- The loop of `LinkedList::Display`, from some node on: one text for each `<<`. -/
def displayFrom : Nat → Option Nat → Call NodeHeap (List String)
  | 0, _ => throw .outOfFuel
  | fuel + 1, current => do
      if current = none then
        return []
      else
        let node ← load current
        let rest ← displayFrom fuel node.next
        return toString node.data :: "\t" :: rest

/-- `LinkedList::Display`. -/
def display (l : LinkedList) : Call NodeHeap (List String) := do
  let texts ← displayFrom ((← get).length + 1) l.head
  return texts ++ ["\n"]

/-- The loop of `LinkedList::~LinkedList`, from some node on. -/
def deleteFrom : Nat → Option Nat → Call Remains Unit
  | 0, _ => throw .outOfFuel
  | fuel + 1, current => do
      if current = none then
        return ()
      else
        let next := (← Remains.load current).next
        Remains.delete current
        deleteFrom fuel next

/-- `LinkedList::~LinkedList`. -/
def destroy (l : LinkedList) : Call Remains Unit := do
  deleteFrom ((← get).heap.length + 1) l.head

/-- The destructors of some lists, one after the other. -/
def destroyAll : List LinkedList → Call Remains Unit
  | [] => return ()
  | l :: lists => do
      destroy l
      destroyAll lists

end LinkedList

end Technopark
