/-
`039_good_lru_cache.cpp`: `lru_cache`, a hash map beside a recency list.

A `std::list` keeps its iterators valid until their element is erased, so its
elements are nodes with an identity, and an iterator is the identity of its node.
`nextNode` is the identity the next allocated node gets.  Using an iterator whose
node is gone, and the back of an empty list, are undefined.

The map is never walked, so nothing here depends on the order of its entries.
-/
import Technopark.Lib.Call
import Technopark.Lib.UnorderedMap

namespace Technopark

/-- `lru_record_t`. -/
structure LruRecord (ν : Type) where
  data : ν
  lruIt : Nat
  deriving Repr, DecidableEq

/-- An `lru_cache` object. -/
structure LruCache (κ ν : Type) where
  lru : List (Nat × κ)
  nextNode : Nat
  cache : UnorderedMap κ (LruRecord ν)
  maxSize : Nat

namespace LruCache

variable {κ ν : Type} [DecidableEq κ]

/-- `lru_cache::lru_cache`. -/
def new (nelems : Nat) : LruCache κ ν := { lru := [], nextNode := 0, cache := ∅, maxSize := nelems }

/-- `lru_cache::find`: the answer, with the item it wrote when it is true. -/
def find (key : κ) : Call (LruCache κ ν) (Option ν) := do
  let c ← get
  match c.cache.lookup key with
  | none => return none
  | some record => return some record.data

/-- `lru_.push_front(key)`, and the `lru_.begin()` after it. -/
def pushFront (key : κ) : Call (LruCache κ ν) Nat := do
  let c ← get
  set { c with lru := (c.nextNode, key) :: c.lru, nextNode := c.nextNode + 1 }
  return c.nextNode

/-- `lru_.back()` followed by `lru_.pop_back()`. -/
def popBack : Call (LruCache κ ν) κ := do
  let c ← get
  match c.lru.getLast? with
  | none => throw (.undefined .outOfBounds)
  | some (_, key) =>
      set { c with lru := c.lru.dropLast }
      return key

/-- `lru_.erase(it)`. -/
def eraseNode (it : Nat) : Call (LruCache κ ν) Unit := do
  let c ← get
  if c.lru.any (fun node => node.1 = it) then
    set { c with lru := c.lru.filter fun node => node.1 ≠ it }
  else
    throw (.undefined .outOfBounds)

/-- `lru_cache::insert`. -/
def insert (key : κ) (data : ν) : Call (LruCache κ ν) Unit := do
  if (← get).maxSize ≠ 0 then
    let begin ← pushFront key
    let record : LruRecord ν := { data := data, lruIt := begin }
    let c ← get
    let (cache, existing) := c.cache.insertNew .none key record
    set { c with cache := cache }
    match existing with
    | none =>
        if cache.size > c.maxSize then
          let olderKey ← popBack
          modify fun c => { c with cache := c.cache.erase olderKey }
    | some old =>
        eraseNode old.lruIt
        modify fun c => { c with cache := c.cache.replace key record }

/-- Where an allocation or a copy in `insert` can throw. -/
inductive ThrowPoint
  /-- `lru_.push_front(key)`. -/
  | pushFront
  /-- `lru_record_t rec(data, lru_.begin())`. -/
  | record
  /-- `value_type(key, rec)`. -/
  | valueType
  /-- `cache_.insert(..)`. -/
  | cacheInsert
  /-- `Tkey older_key = lru_.back()`. -/
  | olderKey
  /-- `oldit->second = rec`. -/
  | assign
  deriving Repr, DecidableEq

/-- An operation without effect if it throws; which exception it is makes no difference. -/
def mayThrow (throws : ThrowPoint → Bool) (point : ThrowPoint) : Call (LruCache κ ν) Unit :=
  if throws point then throw .badAlloc else pure ()

/-- `lru_cache::insert`, with the points at which an allocation or a copy throws. -/
def insertThrowing (throws : ThrowPoint → Bool) (key : κ) (data : ν) :
    Call (LruCache κ ν) Unit := do
  if (← get).maxSize ≠ 0 then
    mayThrow throws .pushFront
    let begin ← pushFront key
    mayThrow throws .record
    let record : LruRecord ν := { data := data, lruIt := begin }
    mayThrow throws .valueType
    mayThrow throws .cacheInsert
    let c ← get
    let (cache, existing) := c.cache.insertNew .none key record
    set { c with cache := cache }
    match existing with
    | none =>
        if cache.size > c.maxSize then
          mayThrow throws .olderKey
          let olderKey ← popBack
          modify fun c => { c with cache := c.cache.erase olderKey }
    | some old =>
        eraseNode old.lruIt
        mayThrow throws .assign
        modify fun c => { c with cache := c.cache.replace key record }

/-- `lru_cache::size`. -/
def size (c : LruCache κ ν) : Nat := c.cache.size

/-- `lru_cache::empty`. -/
def empty (c : LruCache κ ν) : Bool := c.size == 0

/-- `lru_cache::clear`. -/
def clear : Call (LruCache κ ν) Unit :=
  modify fun c => { c with cache := ∅, lru := [] }

end LruCache

end Technopark
