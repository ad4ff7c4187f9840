/-
`lru_cache::insert` when an allocation or a copy in it throws.

The key is pushed on the recency list first, and nothing takes it off again if a later step
throws.  So `insert` is all or nothing exactly if no step behind `push_front` throws.  The
later steps are the copies of the record, the insertion into the map and, depending on
whether the key was there, the copy of the key to evict or the assignment to the old record.

A cache that has seen such a failure goes on being used, and its states count as reachable.
Not much is left of the invariant then: a node may have no record and a record no node.  But
the next node is always one there has not been.
-/
import Technopark.Cache.LruCache
import Technopark.Proofs.LruCache

namespace Technopark.LruCache

variable {κ ν : Type} {c c' : LruCache κ ν} {throws : ThrowPoint → Bool} {key : κ} {data : ν}

/-- A step between `push_front` and the map throws. -/
def ThrowsMidway (throws : ThrowPoint → Bool) : Prop :=
  throws .record ∨ throws .valueType ∨ throws .cacheInsert

theorem not_throwsMidway_iff :
    ¬ ThrowsMidway throws ↔
      throws .record = false ∧ throws .valueType = false ∧ throws .cacheInsert = false := by
  simp [ThrowsMidway]

/-- The cache after `push_front`. -/
def pushed (c : LruCache κ ν) (key : κ) : LruCache κ ν :=
  { c with lru := (c.nextNode, key) :: c.lru, nextNode := c.nextNode + 1 }

/-- The cache after the insertion into the map, which made it `cache`. -/
def added (c : LruCache κ ν) (key : κ) (cache : UnorderedMap κ (LruRecord ν)) : LruCache κ ν :=
  { c with lru := (c.nextNode, key) :: c.lru, nextNode := c.nextNode + 1, cache := cache }

/-- The record that is inserted. -/
def newRecord (c : LruCache κ ν) (data : ν) : LruRecord ν := { data := data, lruIt := c.nextNode }

/-! ### Every node is new -/

/-- The next node differs from every node there is or that a record remembers. -/
structure Fresh (c : LruCache κ ν) : Prop where
  nodes : ∀ node ∈ c.lru, node.1 < c.nextNode
  records : ∀ e ∈ c.cache.entries, e.2.lruIt < c.nextNode

theorem Fresh.pushed (h : Fresh c) (key : κ) : Fresh (pushed c key) := by
  refine ⟨?_, ?_⟩
  · intro node hnode
    rcases List.mem_cons.mp hnode with rfl | hold
    · exact Nat.lt_succ_self _
    · exact Nat.lt_succ_of_lt (h.nodes node hold)
  · intro e he
    exact Nat.lt_succ_of_lt (h.records e he)

/-- A list that begins with the next node is not the one there was. -/
theorem Fresh.lru_ne (h : Fresh c) {lru : List (Nat × κ)}
    (hhead : lru.head? = some (c.nextNode, key)) : lru ≠ c.lru := by
  intro heq
  rw [heq] at hhead
  exact Nat.lt_irrefl _ (h.nodes _ (List.mem_of_head? hhead))

/-! ### The steps of `insert` -/

theorem eraseNode_dangling {it : Nat} (h : it ∉ c.lru.map Prod.fst) :
    (eraseNode it).run c = .error (.undefined .outOfBounds) c := by
  have hany : c.lru.any (fun node => node.1 = it) = false := by
    rw [List.any_eq_false]
    intro node hnode
    have hne : node.1 ≠ it := fun heq => h (List.mem_map.mpr ⟨node, hnode, heq⟩)
    simpa using hne
  simp [eraseNode, hany]

section
variable [DecidableEq κ]

theorem insertThrowing_never :
    insertThrowing (fun _ => false) key data = (insert key data : Call (LruCache κ ν) Unit) := rfl

theorem insertThrowing_zero (hm : c.maxSize = 0) :
    (insertThrowing throws key data).run c = .ok () c := by
  simp [insertThrowing, hm]

/-- `push_front` throws, and nothing has happened. -/
theorem insertThrowing_pushFront (hm : c.maxSize ≠ 0) (h : throws .pushFront = true) :
    (insertThrowing throws key data).run c = .error .badAlloc c := by
  simp [insertThrowing, hm, mayThrow, h]

theorem insertThrowing_midway (hm : c.maxSize ≠ 0) (hpush : throws .pushFront = false)
    (h : ThrowsMidway throws) :
    (insertThrowing throws key data).run c = .error .badAlloc (pushed c key) := by
  cases hrecord : throws .record with
  | true => simp [insertThrowing, hm, mayThrow, hpush, hrecord, pushFront, pushed]
  | false =>
      cases hvalue : throws .valueType with
      | true => simp [insertThrowing, hm, mayThrow, hpush, hrecord, hvalue, pushFront, pushed]
      | false =>
          have hcache : throws .cacheInsert = true := by
            simpa [ThrowsMidway, hrecord, hvalue] using h
          simp [insertThrowing, hm, mayThrow, hpush, hrecord, hvalue, hcache, pushFront, pushed]

/-- The key was there: its old node goes, and the record is assigned to. -/
theorem insertThrowing_old (hm : c.maxSize ≠ 0) (hpush : throws .pushFront = false)
    (hmidway : ¬ ThrowsMidway throws) {old : LruRecord ν} (hold : c.cache.lookup key = some old)
    (data : ν) :
    (insertThrowing throws key data).run c
      = (do eraseNode old.lruIt
            mayThrow throws .assign
            modify fun c' => { c' with cache := c'.cache.replace key (newRecord c data) }
          : Call (LruCache κ ν) Unit).run (pushed c key) := by
  obtain ⟨hrecord, hvalue, hcache⟩ := not_throwsMidway_iff.mp hmidway
  simp [insertThrowing, hm, mayThrow, hpush, hrecord, hvalue, hcache, pushFront, pushed,
    newRecord, UnorderedMap.insertNew_old hold]

/-- The key was not there: it is added, and if it is one too many the last one goes. -/
theorem insertThrowing_new (hm : c.maxSize ≠ 0) (hpush : throws .pushFront = false)
    (hmidway : ¬ ThrowsMidway throws) {cache : UnorderedMap κ (LruRecord ν)}
    (hnew : c.cache.insertNew .none key (newRecord c data) = (cache, none)) :
    (insertThrowing throws key data).run c
      = (do if cache.size > c.maxSize then
              mayThrow throws .olderKey
              let olderKey ← popBack
              modify fun c' => { c' with cache := c'.cache.erase olderKey }
          : Call (LruCache κ ν) Unit).run (added c key cache) := by
  obtain ⟨hrecord, hvalue, hcache⟩ := not_throwsMidway_iff.mp hmidway
  rw [newRecord] at hnew
  simp [insertThrowing, hm, mayThrow, hpush, hrecord, hvalue, hcache, pushFront, added, hnew]

/-! ### How `insert` ends -/

/-- A step behind the insertion into the map throws. -/
def ThrowsBehind (throws : ThrowPoint → Bool) (c : LruCache κ ν) (key : κ) : Prop :=
  c.cache.lookup key = none ∧ c.maxSize ≤ c.size ∧ throws .olderKey ∨
  ∃ old, c.cache.lookup key = some old ∧ old.lruIt ∈ c.lru.map Prod.fst ∧ throws .assign

/-- A step behind `push_front` throws. -/
def ThrowsLate (throws : ThrowPoint → Bool) (c : LruCache κ ν) (key : κ) : Prop :=
  c.maxSize ≠ 0 ∧ throws .pushFront = false ∧ (ThrowsMidway throws ∨ ThrowsBehind throws c key)

/-- How an insertion ends that finds the cache `c` and leaves `c'`. -/
inductive Ends (throws : ThrowPoint → Bool) (c : LruCache κ ν) (key : κ) (data : ν) :
    LruCache κ ν → Prop
  | returned {c' : LruCache κ ν} (hrun : (insertThrowing throws key data).run c = .ok () c')
      (h : ¬ ThrowsLate throws c key) : Ends throws c key data c'
  | early (hrun : (insertThrowing throws key data).run c = .error .badAlloc c)
      (h : ¬ ThrowsLate throws c key) : Ends throws c key data c
  | late {c' : LruCache κ ν}
      (hrun : (insertThrowing throws key data).run c = .error .badAlloc c')
      (h : ThrowsLate throws c key) (hne : c'.lru ≠ c.lru) : Ends throws c key data c'
  | dangling {c' : LruCache κ ν}
      (hrun : (insertThrowing throws key data).run c = .error (.undefined .outOfBounds) c')
      (h : ¬ ThrowsLate throws c key) : Ends throws c key data c'

theorem Ends.after_eq (h : Ends throws c key data c') :
    (insertThrowing throws key data).after c = c' := by
  cases h with
  | returned hrun => exact Call.after_ok hrun
  | early hrun => exact Call.after_error hrun
  | late hrun => exact Call.after_error hrun
  | dangling hrun => exact Call.after_error hrun

/-- The end of an insertion of a key that is in the map. -/
theorem ends_old (hfresh : Fresh c) (hm : c.maxSize ≠ 0) (hpush : throws .pushFront = false)
    (hmidway : ¬ ThrowsMidway throws) {old : LruRecord ν} (hold : c.cache.lookup key = some old)
    (data : ν) :
    ∃ c', Fresh c' ∧ Ends throws c key data c' := by
  have hrun := insertThrowing_old hm hpush hmidway hold data
  have hpushed := hfresh.pushed key
  have hmem : ⟨key, old⟩ ∈ c.cache.entries := AList.mem_lookup_iff.mp hold
  have holder : old.lruIt ≠ c.nextNode := Nat.ne_of_lt (hfresh.records _ hmem)
  have hlate : ThrowsLate throws c key ↔
      old.lruIt ∈ c.lru.map Prod.fst ∧ throws .assign = true := by
    simp [ThrowsLate, ThrowsBehind, hm, hpush, hmidway, hold]
  by_cases hnode : old.lruIt ∈ c.lru.map Prod.fst
  · have hnode' : old.lruIt ∈ (pushed c key).lru.map Prod.fst := by
      rw [pushed, List.map_cons]
      exact List.mem_cons_of_mem _ hnode
    rw [Call.run_bind_ok (eraseNode_run hnode')] at hrun
    have herased : ∀ node ∈ (pushed c key).lru.filter fun node => node.1 ≠ old.lruIt,
        node.1 < (pushed c key).nextNode := by
      intro node hin
      exact hpushed.nodes node (List.mem_of_mem_filter hin)
    cases hassign : throws .assign with
    | true =>
        rw [Call.run_bind_error (by rw [mayThrow, if_pos hassign]; rfl)] at hrun
        have hhead : ((pushed c key).lru.filter fun node => node.1 ≠ old.lruIt).head?
            = some (c.nextNode, key) := by simp [pushed, holder.symm]
        refine ⟨_, ?_, .late hrun (hlate.mpr ⟨hnode, hassign⟩) (hfresh.lru_ne hhead)⟩
        exact ⟨herased, hpushed.records⟩
    | false =>
        rw [Call.run_bind_ok (by rw [mayThrow, hassign]; rfl)] at hrun
        refine ⟨_, ?_, .returned hrun (by simp [hlate, hassign])⟩
        refine ⟨herased, ?_⟩
        intro e he
        have hkeys : key ∈ c.cache.entries.keys :=
          AList.mem_keys.mp (AList.lookup_isSome.mp (by rw [hold]; rfl))
        rcases List.mem_cons.mp ((Log.kreplace_perm (newRecord c data) hkeys).subset he) with
          rfl | hrest
        · exact Nat.lt_succ_self _
        · exact hpushed.records e ((List.kerase_sublist key _).subset hrest)
  · have hnode' : old.lruIt ∉ (pushed c key).lru.map Prod.fst := by
      rw [pushed, List.map_cons, List.mem_cons]
      exact not_or.mpr ⟨holder, hnode⟩
    rw [Call.run_bind_error (eraseNode_dangling hnode')] at hrun
    exact ⟨_, hpushed, .dangling hrun (by simp [hlate, hnode])⟩

/-- The end of an insertion of a key that is not in the map. -/
theorem ends_new (hfresh : Fresh c) (hm : c.maxSize ≠ 0) (hpush : throws .pushFront = false)
    (hmidway : ¬ ThrowsMidway throws) (hnone : c.cache.lookup key = none) (data : ν) :
    ∃ c', Fresh c' ∧ Ends throws c key data c' := by
  obtain ⟨cache, hcache, hperm⟩ := UnorderedMap.insertNew_new .none (newRecord c data) hnone
  have hrun := insertThrowing_new hm hpush hmidway hcache
  have hadded : Fresh (added c key cache) := by
    refine ⟨(hfresh.pushed key).nodes, ?_⟩
    intro e he
    rcases List.mem_cons.mp (hperm.subset he) with rfl | hrest
    · exact Nat.lt_succ_self _
    · exact (hfresh.pushed key).records e hrest
  have hlate : ThrowsLate throws c key ↔ c.maxSize ≤ c.size ∧ throws .olderKey = true := by
    simp [ThrowsLate, ThrowsBehind, hm, hpush, hmidway, hnone]
  have hsize : cache.size = c.size + 1 := hperm.length_eq
  by_cases hover : cache.size > c.maxSize
  · rw [if_pos hover] at hrun
    cases holder : throws .olderKey with
    | true =>
        rw [Call.run_bind_error (by rw [mayThrow, if_pos holder]; rfl)] at hrun
        refine ⟨_, hadded, .late hrun (hlate.mpr ⟨by omega, holder⟩) ?_⟩
        exact hfresh.lru_ne rfl
    | false =>
        rw [Call.run_bind_ok (by rw [mayThrow, holder]; rfl)] at hrun
        obtain ⟨lru, b, hlru⟩ : ∃ lru b, (added c key cache).lru = lru ++ [b] :=
          ⟨_, _, (List.dropLast_append_getLast (List.cons_ne_nil _ _)).symm⟩
        rw [Call.run_bind_ok (popBack_run hlru)] at hrun
        refine ⟨_, ⟨?_, ?_⟩, .returned hrun (by simp [hlate, holder])⟩
        · intro node hnode
          exact hadded.nodes node (by rw [hlru]; exact List.mem_append_left _ hnode)
        · intro e he
          exact hadded.records e ((List.kerase_sublist b.2 _).subset he)
  · rw [if_neg hover] at hrun
    exact ⟨_, hadded, .returned hrun (by rw [hlate]; omega)⟩

/-- **Every insertion ends in one of four ways, and leaves the next node new.** -/
theorem insertThrowing_ends (hfresh : Fresh c) (throws : ThrowPoint → Bool) (key : κ) (data : ν) :
    ∃ c', Fresh c' ∧ Ends throws c key data c' := by
  by_cases hm : c.maxSize = 0
  · exact ⟨c, hfresh, .returned (insertThrowing_zero hm) (by simp [ThrowsLate, hm])⟩
  cases hpush : throws .pushFront with
  | true =>
      exact ⟨c, hfresh, .early (insertThrowing_pushFront hm hpush) (by simp [ThrowsLate, hpush])⟩
  | false =>
      by_cases hmidway : ThrowsMidway throws
      · exact ⟨_, hfresh.pushed key, .late (insertThrowing_midway hm hpush hmidway)
          ⟨hm, hpush, .inl hmidway⟩ (hfresh.lru_ne rfl)⟩
      · cases hlookup : c.cache.lookup key with
        | none => exact ends_new hfresh hm hpush hmidway hlookup data
        | some old => exact ends_old hfresh hm hpush hmidway hlookup data

/-! ### Atomicity -/

/-- The states a client can bring a cache into, with insertions that return or throw. -/
inductive Reached : LruCache κ ν → Prop
  | new (nelems : Nat) : Reached (new nelems)
  | insert {c c' : LruCache κ ν} (throws : ThrowPoint → Bool) (key : κ) (data : ν)
      (h : Reached c)
      (hrun : (insertThrowing throws key data).run c = .ok () c' ∨
        (insertThrowing throws key data).run c = .error .badAlloc c') : Reached c'
  | clear {c : LruCache κ ν} (h : Reached c) : Reached (clear.after c)

theorem Reached.fresh (h : Reached c) : Fresh c := by
  induction h with
  | new nelems => exact ⟨by simp [LruCache.new], by simp [LruCache.new]⟩
  | insert throws key data _ hrun ih =>
      obtain ⟨c'', hfresh, hends⟩ := insertThrowing_ends ih throws key data
      rw [← hends.after_eq] at hfresh
      rcases hrun with hrun | hrun
      · rw [Call.after_ok hrun] at hfresh
        exact hfresh
      · rw [Call.after_error hrun] at hfresh
        exact hfresh
  | clear _ ih => exact ⟨fun node hnode => absurd hnode List.not_mem_nil,
      fun e he => absurd he List.not_mem_nil⟩

/-- If the insertion throws, the list and the map are what they were. -/
def Atomic (throws : ThrowPoint → Bool) (c : LruCache κ ν) (key : κ) (data : ν) : Prop :=
  ∀ c', (insertThrowing throws key data).run c = .error .badAlloc c' →
    c'.lru = c.lru ∧ c'.cache = c.cache

/--
**In every reachable state an insertion is all or nothing exactly if no step behind
`push_front` throws.**
-/
theorem insert_atomic_iff (c : LruCache κ ν) (hreached : Reached c) (throws : ThrowPoint → Bool)
    (key : κ) (data : ν) : Atomic throws c key data ↔ ¬ ThrowsLate throws c key := by
  obtain ⟨c', -, hends⟩ := insertThrowing_ends hreached.fresh throws key data
  unfold Atomic
  cases hends with
  | returned hrun h => simp [hrun, h]
  | early hrun h => simp [hrun, h]
  | late hrun h hne => simp [hrun, h, hne]
  | dangling hrun h => simp [hrun, h]

end

/-- A cache with room for two after two insertions. -/
def fullCache : LruCache Nat Nat :=
  (insert 6 60).after ((insert 5 50).after (new 2))

theorem fullCache_reached : Reached fullCache :=
  .insert (fun _ => false) 6 60 (.insert (fun _ => false) 5 50 (.new 2) (.inl rfl)) (.inl rfl)

/-- The copy of the key to evict throws. -/
theorem insert_atomic_full :
    (Atomic (fun point => point = .olderKey) fullCache 7 70 ↔
        ¬ ThrowsLate (fun point => point = .olderKey) fullCache 7) ∧
      ThrowsLate (fun point => point = .olderKey) fullCache 7 :=
  ⟨insert_atomic_iff fullCache fullCache_reached _ 7 70,
    by decide, rfl, .inr (.inl ⟨rfl, by decide, rfl⟩)⟩

/-- The copy of the data throws, and the key stays in a list whose map does not have it. -/
theorem insert_not_atomic :
    Reached (new 1 : LruCache Nat Nat) ∧
    ¬ Atomic (fun point => point = .record) (new 1 : LruCache Nat Nat) 5 50 ∧
    ∃ c', (insertThrowing (fun point => point = .record) 5 50).run (new 1 : LruCache Nat Nat)
        = .error .badAlloc c' ∧ c'.lru = [(0, 5)] ∧ c'.size = 0 := by
  have hrun : (insertThrowing (fun point => point = .record) 5 50).run (new 1 : LruCache Nat Nat)
      = .error .badAlloc (pushed (new 1) 5) :=
    insertThrowing_midway (by decide) rfl (.inl rfl)
  refine ⟨.new 1, ?_, _, hrun, rfl, rfl⟩
  intro hatomic
  exact List.cons_ne_nil _ _ (hatomic _ hrun).1

end Technopark.LruCache
