/-
`038_bad_lru_cache.cpp`: `LastUsedCache`, a hash map with generation counters.

Every insertion stamps its record with the next value of a 64-bit counter, and an
overflow walks the map for the least stamp and again for the record that has it.
Both walks follow the order the map is in at that moment, which is the `Rehash` of
the insertion.
-/
import Technopark.Lib.Call
import Technopark.Lib.UnorderedMap

namespace Technopark

/-- `record_t`. -/
structure GenRecord (ν : Type) where
  data : ν
  gen : Nat
  deriving Repr, DecidableEq

/-- A `LastUsedCache` object. -/
structure LastUsedCache (κ ν : Type) where
  cache : UnorderedMap κ (GenRecord ν)
  maxSize : Nat
  generation : Nat

namespace LastUsedCache

variable {κ ν : Type} [DecidableEq κ]

/-- `LastUsedCache::LastUsedCache`. -/
def new (nelems : Nat) : LastUsedCache κ ν := { cache := ∅, maxSize := nelems, generation := 0 }

/-- `LastUsedCache::find`: the answer, with the item it wrote when it is true. -/
def find (key : κ) : Call (LastUsedCache κ ν) (Option ν) := do
  let c ← get
  match c.cache.lookup key with
  | none => return none
  | some record => return some record.data

/-- `++generation_`. -/
def nextGeneration : Call (LastUsedCache κ ν) Nat := do
  let c ← get
  let generation := sizeT (c.generation + 1)
  set { c with generation := generation }
  return generation

/-- The first loop of the overflow branch: `min_gen`. -/
def minGen (entries : List (Σ _ : κ, GenRecord ν)) : Nat :=
  entries.foldl (fun least e => min least e.2.gen) (sizeMod - 1)

/-- The second loop: erase the first record that has `min_gen`. -/
def eraseGen (least : Nat) (cache : UnorderedMap κ (GenRecord ν)) : UnorderedMap κ (GenRecord ν) :=
  match cache.entries.find? (fun e => e.2.gen = least) with
  | none => cache
  | some e => cache.erase e.1

/-- `LastUsedCache::insert`.  An existing record gets a new stamp and keeps its data. -/
def insert (r : Rehash (Σ _ : κ, GenRecord ν)) (key : κ) (data : ν) :
    Call (LastUsedCache κ ν) Unit := do
  if (← get).maxSize ≠ 0 then
    let gen ← nextGeneration
    let record : GenRecord ν := { data := data, gen := gen }
    let c ← get
    let (cache, existing) := c.cache.insertNew r key record
    set { c with cache := cache }
    match existing with
    | none =>
        if cache.size > c.maxSize then
          set { c with cache := eraseGen (minGen cache.entries) cache }
    | some old =>
        let gen ← nextGeneration
        modify fun c => { c with cache := c.cache.replace key { old with gen := gen } }

/-- `LastUsedCache::size`. -/
def size (c : LastUsedCache κ ν) : Nat := c.cache.size

/-- `LastUsedCache::empty`. -/
def empty (c : LastUsedCache κ ν) : Bool := c.size == 0

/-- `LastUsedCache::clear`.  The counter keeps its value. -/
def clear : Call (LastUsedCache κ ν) Unit := modify fun c => { c with cache := ∅ }

end LastUsedCache

end Technopark
