/-
`lru_cache` holds the newest insertions.

The invariant lines the two structures up: `E` is the map's entries in the order of
the recency list, so the list is `E` read as nodes and the cache's contents are `E`
read as data.  That no key is in the list twice, that both structures have the same
keys and that every stored iterator designates its own key's node are then all said
by the one list `E`.
-/
import Technopark.Cache.LruCache
import Technopark.Proofs.CacheLog

namespace Technopark.LruCache

variable {κ ν : Type} {c : LruCache κ ν} {E : Log κ (LruRecord ν)}

/-- The recency list that belongs to a list of entries. -/
def nodes (E : Log κ (LruRecord ν)) : List (Nat × κ) := E.map fun e => (e.2.lruIt, e.1)

/-- The contents that belong to a list of entries. -/
def dataOf (E : Log κ (LruRecord ν)) : Log κ ν := Log.mapVal LruRecord.data E

/-- `E` is the map's entries in the order of the recency list. -/
structure Layout (c : LruCache κ ν) (E : Log κ (LruRecord ν)) : Prop where
  entries : c.cache.entries.Perm E
  list : c.lru = nodes E
  distinct : (E.map fun e => e.2.lruIt).Nodup
  fresh : ∀ e ∈ E, e.2.lruIt < c.nextNode
  bound : E.length ≤ c.maxSize

namespace Layout

theorem mem_iff (h : Layout c E) (k : κ) : k ∈ c.cache ↔ k ∈ E.keys :=
  (h.entries.map Sigma.fst).mem_iff

theorem size_eq (h : Layout c E) : c.size = E.length := h.entries.length_eq

theorem nodupKeys (h : Layout c E) : E.NodupKeys :=
  (List.perm_nodupKeys h.entries).mp c.cache.nodupKeys

theorem lookup [DecidableEq κ] (h : Layout c E) (k : κ) : c.cache.lookup k = E.dlookup k :=
  List.perm_dlookup k c.cache.nodupKeys h.entries

/-- The node of the next insertion differs from every node there is. -/
theorem cons_distinct (h : Layout c E) (k : κ) (data : ν) :
    ((⟨k, { data := data, lruIt := c.nextNode }⟩ :: E : Log κ (LruRecord ν)).map
      fun e => e.2.lruIt).Nodup := by
  rw [List.map_cons, List.nodup_cons]
  refine ⟨?_, h.distinct⟩
  intro hmem
  obtain ⟨e, he, heq⟩ := List.mem_map.mp hmem
  exact Nat.ne_of_lt (h.fresh e he) heq

end Layout

theorem new_layout (m : Nat) : Layout (new m : LruCache κ ν) [] :=
  ⟨List.Perm.refl _, rfl, List.nodup_nil, by simp, Nat.zero_le _⟩

/-! ### The steps of `insert` -/

theorem popBack_run {b : Nat × κ} {l : List (Nat × κ)} (h : c.lru = l ++ [b]) :
    popBack.run c = .ok b.2 { c with lru := l } := by
  simp [popBack, h]

theorem eraseNode_run {it : Nat} (h : it ∈ c.lru.map Prod.fst) :
    (eraseNode it).run c = .ok () { c with lru := c.lru.filter fun node => node.1 ≠ it } := by
  obtain ⟨node, hmem, rfl⟩ := List.mem_map.mp h
  have hany : c.lru.any (fun n => n.1 = node.1) = true :=
    List.any_eq_true.mpr ⟨node, hmem, by simp⟩
  simp [eraseNode, hany]

/-- Erasing one node of a list whose nodes are distinct leaves the others. -/
theorem filter_nodes {A B : Log κ (LruRecord ν)} {k : κ} {old : LruRecord ν}
    (h : ((A ++ ⟨k, old⟩ :: B).map fun e => e.2.lruIt).Nodup) :
    (nodes (A ++ ⟨k, old⟩ :: B)).filter (fun node => node.1 ≠ old.lruIt) = nodes (A ++ B) := by
  have hne : ∀ e ∈ A ++ B, e.2.lruIt ≠ old.lruIt := by
    intro e he heq
    rw [List.map_append, List.map_cons, List.nodup_middle, ← List.map_append] at h
    exact (List.nodup_cons.mp h).1 (List.mem_map.mpr ⟨e, he, heq⟩)
  have hkeep : ∀ l : Log κ (LruRecord ν), (∀ e ∈ l, e.2.lruIt ≠ old.lruIt) →
      (nodes l).filter (fun node => node.1 ≠ old.lruIt) = nodes l := by
    intro l hl
    refine List.filter_eq_self.mpr ?_
    intro node hnode
    obtain ⟨e, he, rfl⟩ := List.mem_map.mp hnode
    simpa using hl e he
  have hA := hkeep A (fun e he => hne e (List.mem_append_left B he))
  have hB := hkeep B (fun e he => hne e (List.mem_append_right A he))
  have hsplit : nodes (A ++ ⟨k, old⟩ :: B) = nodes A ++ (old.lruIt, k) :: nodes B := by
    simp [nodes]
  rw [hsplit, List.filter_append, List.filter_cons_of_neg (by simp), hA, hB]
  simp [nodes]

variable [DecidableEq κ]

/-- The entries after an insertion: the new record in front, no more than `maxSize`. -/
def inserted (c : LruCache κ ν) (E : Log κ (LruRecord ν)) (key : κ) (data : ν) :
    Log κ (LruRecord ν) :=
  (E.kinsert key { data := data, lruIt := c.nextNode }).take c.maxSize

/-- Whatever the path, an insertion keeps the nodes distinct and within the bound. -/
theorem Layout.inserted (h : Layout c E) {c' : LruCache κ ν} {key : κ} {data : ν}
    (hmax : c'.maxSize = c.maxSize) (hnext : c'.nextNode = c.nextNode + 1)
    (hentries : c'.cache.entries.Perm (inserted c E key data))
    (hlist : c'.lru = nodes (LruCache.inserted c E key data)) :
    Layout c' (LruCache.inserted c E key data) := by
  have hsub : (LruCache.inserted c E key data).Sublist
      (⟨key, { data := data, lruIt := c.nextNode }⟩ :: E) :=
    (List.take_sublist _ _).trans ((List.kerase_sublist key E).cons_cons _)
  refine ⟨hentries, hlist, ?_, ?_, ?_⟩
  · exact (h.cons_distinct key data).sublist (hsub.map _)
  · intro e he
    rw [hnext]
    rcases List.mem_cons.mp (hsub.subset he) with rfl | hold
    · exact Nat.lt_succ_self _
    · exact Nat.lt_succ_of_lt (h.fresh e hold)
  · rw [hmax]
    exact List.length_take_le _ _

/-- `insert` of a key that is in the cache. -/
private theorem insert_old (h : Layout c E) (hm : c.maxSize ≠ 0) {key : κ} (data : ν)
    {old : LruRecord ν} (hold : E.dlookup key = some old) :
    ∃ c', (insert key data).run c = .ok () c' ∧ c'.maxSize = c.maxSize ∧
      Layout c' (inserted c E key data) := by
  set record : LruRecord ν := { data := data, lruIt := c.nextNode } with hrecord
  have hmem : key ∈ E.keys := List.dlookup_isSome.mp (by rw [hold]; rfl)
  obtain ⟨old', A, B, hA, hsplit, hrest⟩ := List.exists_of_kerase hmem
  obtain rfl : old' = old := by
    have hfound : E.dlookup key = some old' :=
      (Log.dlookup_eq_some_iff h.nodupKeys).mpr (by rw [hsplit]; simp)
    rw [hold] at hfound
    exact (Option.some.inj hfound).symm
  -- nothing is dropped: the old entry makes room for the new one
  have hinserted : inserted c E key data = ⟨key, record⟩ :: (A ++ B) := by
    have hlen : (E.kinsert key record).length ≤ c.maxSize := by
      rw [Log.length_kinsert record hmem]
      exact h.bound
    rw [inserted, List.take_of_length_le hlen, List.kinsert_def, hrest]
  have hdistinct := h.cons_distinct key data
  rw [hsplit] at hdistinct
  have hfilter := filter_nodes (A := ⟨key, record⟩ :: A) hdistinct
  have hnode : old'.lruIt ∈ ((c.nextNode, key) :: c.lru).map Prod.fst := by
    rw [h.list, hsplit]
    simp [nodes]
  have hlookup : c.cache.lookup key = some old' := by rw [h.lookup, hold]
  refine ⟨{ c with
    lru := nodes (⟨key, record⟩ :: (A ++ B)), nextNode := c.nextNode + 1,
    cache := c.cache.replace key record }, ?_, rfl, ?_⟩
  · have herase := eraseNode_run (c := { c with
      lru := (c.nextNode, key) :: c.lru, nextNode := c.nextNode + 1 }) hnode
    have hrun : (insert key data).run c
        = (do eraseNode old'.lruIt
              modify fun c => { c with cache := c.cache.replace key record }
            : Call (LruCache κ ν) Unit).run { c with
              lru := (c.nextNode, key) :: c.lru, nextNode := c.nextNode + 1 } := by
      simp [insert, pushFront, hm, UnorderedMap.insertNew_old hlookup, hrecord]
    have hnodes : (c.nextNode, key) :: c.lru = nodes (⟨key, record⟩ :: A ++ ⟨key, old'⟩ :: B) := by
      rw [h.list, hsplit]
      rfl
    rw [hrun, Call.run_bind_ok herase]
    simp only [hnodes, hfilter]
    rfl
  · refine h.inserted rfl rfl ?_ ?_
    · rw [hinserted]
      have hperm := List.Perm.kreplace c.cache.nodupKeys (a := key) (b := record) h.entries
      have hfront := Log.kreplace_perm record hmem
      rw [hrest] at hfront
      exact hperm.trans hfront
    · rw [hinserted]

/-- `insert` of a key that is not in the cache. -/
private theorem insert_new (h : Layout c E) (hm : c.maxSize ≠ 0) {key : κ} (data : ν)
    (hnone : E.dlookup key = none) :
    ∃ c', (insert key data).run c = .ok () c' ∧ c'.maxSize = c.maxSize ∧
      Layout c' (inserted c E key data) := by
  set record : LruRecord ν := { data := data, lruIt := c.nextNode } with hrecord
  have hnot : key ∉ E.keys := List.dlookup_eq_none.mp hnone
  obtain ⟨cache, hcache, hperm⟩ := UnorderedMap.insertNew_new .none record
    (show c.cache.lookup key = none by rw [h.lookup, hnone])
  have hentries : cache.entries.Perm (⟨key, record⟩ :: E) := hperm.trans (h.entries.cons _)
  have hsize : cache.size = E.length + 1 := hentries.length_eq
  have hnodes : (c.nextNode, key) :: c.lru = nodes (⟨key, record⟩ :: E) := by
    rw [h.list]
    rfl
  have hinserted : inserted c E key data = (⟨key, record⟩ :: E).take c.maxSize := by
    rw [inserted, List.kinsert_def, List.kerase_of_notMem_keys hnot]
  by_cases hover : cache.size > c.maxSize
  · -- the cache was full, so there is a last node to evict
    have hfull : E.length = c.maxSize := by
      have := h.bound
      omega
    obtain ⟨E₀, last, rfl, htake⟩ := Log.take_cons_full ⟨key, record⟩ hm hfull
    have hnodup : ((⟨key, record⟩ :: E₀) ++ [last]).NodupKeys :=
      (List.perm_nodupKeys hentries).mp cache.nodupKeys
    have hpop := popBack_run (b := (last.2.lruIt, last.1)) (l := nodes (⟨key, record⟩ :: E₀))
      (c := { c with
        lru := (c.nextNode, key) :: c.lru, nextNode := c.nextNode + 1, cache := cache })
      (by simp [hnodes, nodes])
    refine ⟨{ c with
      lru := nodes (⟨key, record⟩ :: E₀), nextNode := c.nextNode + 1,
      cache := cache.erase last.1 }, ?_, rfl, ?_⟩
    · have hrun : (insert key data).run c
          = (do let olderKey ← popBack
                modify fun c => { c with cache := c.cache.erase olderKey }
              : Call (LruCache κ ν) Unit).run { c with
                lru := (c.nextNode, key) :: c.lru, nextNode := c.nextNode + 1,
                cache := cache } := by
        simp [insert, pushFront, hm, hcache, hover, ← hrecord]
      rw [hrun, Call.run_bind_ok hpop]
      rfl
    · refine h.inserted rfl rfl ?_ ?_
      · have herase := List.Perm.kerase cache.nodupKeys (a := last.1) hentries
        rw [← List.cons_append, Log.kerase_last hnodup] at herase
        rw [hinserted, htake]
        exact herase
      · rw [hinserted, htake]
  · have htake : (⟨key, record⟩ :: E).take c.maxSize = ⟨key, record⟩ :: E :=
      List.take_of_length_le (by simp; omega)
    refine ⟨{ c with
      lru := (c.nextNode, key) :: c.lru, nextNode := c.nextNode + 1, cache := cache }, ?_, rfl, ?_⟩
    · simp [insert, pushFront, hm, hcache, hover, ← hrecord]
    · refine h.inserted rfl rfl ?_ ?_
      · rw [hinserted, htake]
        exact hentries
      · rw [hinserted, htake, hnodes]

/-- What `insert` does to the entries. -/
theorem insert_run (h : Layout c E) (key : κ) (data : ν) :
    ∃ c', (insert key data).run c = .ok () c' ∧ c'.maxSize = c.maxSize ∧
      Layout c' (inserted c E key data) := by
  by_cases hm : c.maxSize = 0
  · obtain rfl : E = [] := List.length_eq_zero_iff.mp (by have := h.bound; omega)
    refine ⟨c, by simp [insert, hm], rfl, ?_⟩
    simpa [inserted, hm] using h
  · cases hlookup : E.dlookup key with
    | none => exact insert_new h hm data hlookup
    | some old => exact insert_old h hm data hlookup

/-! ### Whole runs -/

/-- The calls of a client; `find` answers with the item. -/
def call : CacheOp κ ν → Call (LruCache κ ν) (Option ν)
  | .insert key data => do
      insert key data
      return none
  | .find key => find key
  | .clear => do
      clear
      return none

/-- The cache has capacity `m` and contents `l`. -/
def Holds (m : Nat) (c : LruCache κ ν) (l : Log κ ν) : Prop :=
  ∃ E, Layout c E ∧ c.maxSize = m ∧ dataOf E = l

theorem find_run (h : Layout c E) (key : κ) :
    (find key).run c = .ok ((dataOf E).dlookup key) c := by
  rw [dataOf, Log.mapVal_dlookup, ← h.lookup]
  cases hlookup : c.cache.lookup key <;> simp [find, hlookup]

/-- **Every call answers, and changes the contents, as the ideal cache does.** -/
theorem call_simulates (m : Nat) :
    Simulates (Call.object (call (κ := κ) (ν := ν))) (newest m) (Holds m) := by
  intro op c l h
  obtain ⟨E, hE, hmax, rfl⟩ := h
  cases op with
  | insert key data =>
      obtain ⟨c', hrun, hmax', hE'⟩ := insert_run hE key data
      have hcall : (call (.insert key data)).run c = .ok none c' := by
        rw [call, Call.run_bind_ok hrun]
        rfl
      rw [Call.object_ok hcall]
      refine ⟨rfl, _, hE', hmax'.trans hmax, ?_⟩
      rw [inserted, dataOf, Log.mapVal_take, Log.mapVal_kinsert, hmax]
      rfl
  | find key =>
      have hcall : (call (.find key)).run c = .ok ((dataOf E).dlookup key) c := find_run hE key
      rw [Call.object_ok hcall]
      exact ⟨rfl, E, hE, hmax, rfl⟩
  | clear =>
      have hempty : Layout { c with cache := ∅, lru := [] } ([] : Log κ (LruRecord ν)) :=
        ⟨List.Perm.refl _, rfl, List.nodup_nil, by simp, Nat.zero_le _⟩
      exact ⟨rfl, [], hempty, hmax, rfl⟩

/-- After every run the entries are those of the history, and no call has thrown. -/
theorem run_layout (m : Nat) (ops : List (CacheOp κ ν)) :
    (∀ out ∈ ((Call.object call).run ops (new m)).1, ∃ item, out = .ok item) ∧
    Holds m ((Call.object call).run ops (new m)).2 ((history ops).take m) := by
  have hstart : Holds m (new m : LruCache κ ν) [] := ⟨[], new_layout m, rfl, rfl⟩
  obtain ⟨houts, hholds⟩ := (call_simulates m).run ops (new m) [] hstart
  rw [newest_run] at hholds
  rw [houts]
  exact ⟨(newest m).run_answers (newest_ok m) ops [], hholds⟩

/-- The cache holds the `m` most recent of the keys `R`, with their latest data. -/
structure HoldsRecent (c : LruCache κ ν) (m : Nat) (R : List κ) (data : κ → Option ν) : Prop where
  list : c.lru.map Prod.snd = R.take (min m R.length)
  nodup : (c.lru.map Prod.snd).Nodup
  keys : ∀ k, k ∈ c.cache ↔ k ∈ c.lru.map Prod.snd
  /-- The iterator a record stores is the node of its own key, and of no other. -/
  iterator : ∀ k record, c.cache.lookup k = some record →
    ∀ node ∈ c.lru, node.1 = record.lruIt ↔ node.2 = k
  size : c.size ≤ m
  found : ∀ k ∈ c.lru.map Prod.snd, ∃ item, data k = some item ∧ (find k).run c = .ok (some item) c
  missing : ∀ k ∉ c.lru.map Prod.snd, (find k).run c = .ok none c

/-- A stored iterator designates the node of its own key, and of no other. -/
theorem Layout.iterator (h : Layout c E) {k : κ} {record : LruRecord ν}
    (hk : c.cache.lookup k = some record) {node : Nat × κ} (hnode : node ∈ c.lru) :
    node.1 = record.lruIt ↔ node.2 = k := by
  rw [h.lookup, Log.dlookup_eq_some_iff h.nodupKeys] at hk
  rw [h.list] at hnode
  obtain ⟨e, he, rfl⟩ := List.mem_map.mp hnode
  constructor
  · intro heq
    rw [List.inj_on_of_nodup_map h.distinct he hk heq]
  · intro heq
    subst heq
    have hsame := (Log.dlookup_eq_some_iff h.nodupKeys).mpr hk
    rw [(Log.dlookup_eq_some_iff h.nodupKeys).mpr he] at hsame
    rw [Option.some.inj hsame]

/-- What the invariant says, in the terms of the two structures. -/
theorem Layout.holdsRecent (h : Layout c E) {m : Nat} (hmax : c.maxSize = m)
    {ops : List (CacheOp κ ν)} (hdata : dataOf E = (history ops).take m) :
    HoldsRecent c m (recent ops) (latest ops) := by
  have hlist : c.lru.map Prod.snd = E.keys := by
    rw [h.list]
    simp [nodes, List.keys]
  have hkeys : E.keys = (recent ops).take m := by
    rw [← history_keys, ← Log.take_keys, ← hdata, dataOf, Log.mapVal_keys]
  have hfind : ∀ k, (find k).run c = .ok (((history ops).take m).dlookup k) c := by
    intro k
    rw [find_run h k, hdata]
  have hmem : ∀ k, k ∈ c.lru.map Prod.snd ↔ k ∈ ((history ops).take m).keys := by
    intro k
    rw [hlist, hkeys, ← history_keys, Log.take_keys]
  refine ⟨?_, ?_, ?_, ?_, ?_, ?_, ?_⟩
  · rw [hlist, hkeys, List.take_eq_take_iff]
    omega
  · rw [hlist]
    exact h.nodupKeys
  · intro k
    rw [hlist, h.mem_iff]
  · intro k record hk node hnode
    exact h.iterator hk hnode
  · rw [h.size_eq, ← hmax]
    exact h.bound
  · intro k hk
    obtain ⟨item, hitem⟩ := Option.isSome_iff_exists.mp (List.dlookup_isSome.mpr ((hmem k).mp hk))
    exact ⟨item, latest_of_take hitem, by rw [hfind, hitem]⟩
  · intro k hk
    rw [hfind, List.dlookup_eq_none.mpr (fun hin => hk ((hmem k).mpr hin))]

/--
**An `lru_cache` of any capacity holds the most recently inserted keys after every
run of calls, with their latest data, and no call throws.**
-/
theorem lruCache_holds_recent (m : Nat) (ops : List (CacheOp κ ν)) :
    (∀ out ∈ ((Call.object call).run ops (new m)).1, ∃ item, out = .ok item) ∧
    HoldsRecent ((Call.object call).run ops (new m)).2 m (recent ops) (latest ops) := by
  obtain ⟨houts, E, hE, hmax, hdata⟩ := run_layout m ops
  exact ⟨houts, hE.holdsRecent hmax hdata⟩

end Technopark.LruCache
