/-
`LastUsedCache` holds the keys of the newest insertions, and stale data.

The invariant is again one list: `E` is the map's entries in decreasing order of
their stamps.  The counter only grows, so a new stamp puts its record in front, and
the least stamp is that of the last record, in whatever order the map is walked.
That is all the two caches need to hold the same keys.

What they hold under those keys differs.  An insertion of a key that is still there
keeps the record's old data, which is what the object `stale m` does, and the two
agree only on runs that never insert a key they hold with data it does not have.
-/
import Technopark.Cache.LastUsedCache
import Technopark.Proofs.LruCache

namespace Technopark.LastUsedCache

variable {κ ν : Type} {c : LastUsedCache κ ν} {E : Log κ (GenRecord ν)}

/-- `E` is the map's entries, newest stamp first. -/
structure Stamped (c : LastUsedCache κ ν) (E : Log κ (GenRecord ν)) : Prop where
  entries : c.cache.entries.Perm E
  order : E.Pairwise fun a b => b.2.gen < a.2.gen
  fresh : ∀ e ∈ E, e.2.gen ≤ c.generation
  bound : E.length ≤ c.maxSize

/-- The contents that belong to a list of entries. -/
def dataOf (E : Log κ (GenRecord ν)) : Log κ ν := Log.mapVal GenRecord.data E

namespace Stamped

theorem mem_iff (h : Stamped c E) (k : κ) : k ∈ c.cache ↔ k ∈ E.keys :=
  (h.entries.map Sigma.fst).mem_iff

theorem size_eq (h : Stamped c E) : c.size = E.length := h.entries.length_eq

theorem nodupKeys (h : Stamped c E) : E.NodupKeys :=
  (List.perm_nodupKeys h.entries).mp c.cache.nodupKeys

theorem lookup [DecidableEq κ] (h : Stamped c E) (k : κ) : c.cache.lookup k = E.dlookup k :=
  List.perm_dlookup k c.cache.nodupKeys h.entries

end Stamped

theorem nextGeneration_run (h : c.generation + 1 < sizeMod) :
    nextGeneration.run c = .ok (c.generation + 1) { c with generation := c.generation + 1 } := by
  have hsize : sizeT (c.generation + 1) = c.generation + 1 := sizeT_eq h
  simp [nextGeneration, hsize]

/-! ### The eviction scan -/

/-- The first loop finds a stamp that is there and not above any other. -/
theorem minGen_least {l : List (Σ _ : κ, GenRecord ν)} {e : Σ _ : κ, GenRecord ν} (he : e ∈ l)
    (hlt : e.2.gen < sizeMod) (hle : ∀ x ∈ l, e.2.gen ≤ x.2.gen) : minGen l = e.2.gen := by
  have key : ∀ (l : List (Σ _ : κ, GenRecord ν)) (a : Nat), e.2.gen ≤ a →
      (∀ x ∈ l, e.2.gen ≤ x.2.gen) → (e ∈ l ∨ a = e.2.gen) →
      l.foldl (fun least x => min least x.2.gen) a = e.2.gen := by
    intro l
    induction l with
    | nil =>
        intro a _ _ hin
        rcases hin with hin | rfl
        · simp at hin
        · rfl
    | cons x l ih =>
        intro a ha hx hin
        rw [List.foldl_cons]
        have hxe := hx x (by simp)
        refine ih _ (by omega) (fun y hy => hx y (by simp [hy])) ?_
        rcases hin with hin | rfl
        · rcases List.mem_cons.mp hin with rfl | hin
          · exact .inr (by omega)
          · exact .inl hin
        · exact .inr (by omega)
  exact key l _ (by omega) hle (.inl he)

variable [DecidableEq κ]

/-- The second loop erases the record with that stamp, wherever it is in the walk. -/
theorem eraseGen_minGen {cache : UnorderedMap κ (GenRecord ν)} {l : Log κ (GenRecord ν)}
    {last : Σ _ : κ, GenRecord ν} (hentries : cache.entries.Perm (l ++ [last]))
    (horder : (l ++ [last]).Pairwise fun a b => b.2.gen < a.2.gen) (hlt : last.2.gen < sizeMod) :
    eraseGen (minGen cache.entries) cache = cache.erase last.1 := by
  have hmem : last ∈ cache.entries := hentries.mem_iff.mpr (by simp)
  have habove : ∀ e ∈ cache.entries, e = last ∨ last.2.gen < e.2.gen := by
    intro e he
    rcases List.mem_append.mp (hentries.mem_iff.mp he) with hl | hl
    · exact .inr ((List.pairwise_append.mp horder).2.2 e hl last (by simp))
    · exact .inl (by simpa using hl)
  have hmin : minGen cache.entries = last.2.gen := by
    refine minGen_least hmem hlt ?_
    intro e he
    rcases habove e he with rfl | hlt
    · exact Nat.le_refl _
    · exact Nat.le_of_lt hlt
  rw [eraseGen, hmin]
  cases hfind : cache.entries.find? (fun e => e.2.gen = last.2.gen) with
  | none => exact absurd (List.find?_eq_none.mp hfind last hmem) (by simp)
  | some e =>
      have hgen : e.2.gen = last.2.gen := by simpa using List.find?_some hfind
      rcases habove e (List.mem_of_find?_eq_some hfind) with rfl | habove
      · rfl
      · omega

/-! ### `insert` -/

/-- The data an insertion leaves: that of the record already there, if there is one. -/
def kept (l : Log κ ν) (key : κ) (data : ν) : ν := (l.dlookup key).getD data

/-- The entries after an insertion: the new stamp in front, no more than `maxSize`. -/
def inserted (c : LastUsedCache κ ν) (E : Log κ (GenRecord ν)) (key : κ) (data : ν) (gen : Nat) :
    Log κ (GenRecord ν) :=
  (E.kinsert key { data := kept (dataOf E) key data, gen := gen }).take c.maxSize

/-- Whatever the path, a stamp above the counter keeps the order of the stamps. -/
theorem Stamped.inserted (h : Stamped c E) {c' : LastUsedCache κ ν} {key : κ} {data : ν}
    (hmax : c'.maxSize = c.maxSize) (hgen : c.generation < c'.generation)
    (hentries : c'.cache.entries.Perm (inserted c E key data c'.generation)) :
    Stamped c' (LastUsedCache.inserted c E key data c'.generation) := by
  have hsub : (LastUsedCache.inserted c E key data c'.generation).Sublist
      (⟨key, { data := kept (dataOf E) key data, gen := c'.generation }⟩ :: E) :=
    (List.take_sublist _ _).trans ((List.kerase_sublist key E).cons_cons _)
  refine ⟨hentries, ?_, ?_, ?_⟩
  · refine List.Pairwise.sublist hsub (List.pairwise_cons.mpr ⟨?_, h.order⟩)
    intro e he
    exact Nat.lt_of_le_of_lt (h.fresh e he) hgen
  · intro e he
    rcases List.mem_cons.mp (hsub.subset he) with rfl | hold
    · exact Nat.le_refl _
    · exact Nat.le_of_lt (Nat.lt_of_le_of_lt (h.fresh e hold) hgen)
  · rw [hmax]
    exact List.length_take_le _ _

/-- `insert` of a key that is in the cache. -/
private theorem insert_old (h : Stamped c E) (hm : c.maxSize ≠ 0)
    (hgen : c.generation + 2 < sizeMod) (r : Rehash (Σ _ : κ, GenRecord ν)) {key : κ} (data : ν)
    {old : GenRecord ν} (hold : E.dlookup key = some old) :
    ∃ c', (insert r key data).run c = .ok () c' ∧ c'.maxSize = c.maxSize ∧
      c'.generation ≤ c.generation + 2 ∧ Stamped c' (inserted c E key data c'.generation) := by
  have hmem : key ∈ E.keys := List.dlookup_isSome.mp (by rw [hold]; rfl)
  have hkept : kept (dataOf E) key data = old.data := by
    rw [kept, dataOf, Log.mapVal_dlookup, hold]
    rfl
  have hlookup : c.cache.lookup key = some old := by rw [h.lookup, hold]
  set record : GenRecord ν := { old with gen := c.generation + 2 } with hrecord
  refine ⟨{ c with cache := c.cache.replace key record, generation := c.generation + 2 },
    ?_, rfl, Nat.le_refl _, ?_⟩
  · have hfirst := nextGeneration_run (c := c) (by omega)
    have hsecond := nextGeneration_run (c := { c with generation := c.generation + 1 })
      (show c.generation + 1 + 1 < sizeMod by omega)
    have hrun : (insert r key data).run c
        = (do let gen ← nextGeneration
              modify fun c => { c with cache := c.cache.replace key { old with gen := gen } }
            : Call (LastUsedCache κ ν) Unit).run { c with generation := c.generation + 1 } := by
      simp [insert, hm, hfirst, UnorderedMap.insertNew_old hlookup]
    rw [hrun, Call.run_bind_ok hsecond]
    rfl
  · refine h.inserted rfl (by simp) ?_
    have hlen : (E.kinsert key record).length ≤ c.maxSize := by
      rw [Log.length_kinsert record hmem]
      exact h.bound
    have hperm := List.Perm.kreplace c.cache.nodupKeys (a := key) (b := record) h.entries
    rw [LastUsedCache.inserted, hkept, List.take_of_length_le hlen, List.kinsert_def]
    exact hperm.trans (Log.kreplace_perm record hmem)

/-- `insert` of a key that is not in the cache. -/
private theorem insert_new (h : Stamped c E) (hm : c.maxSize ≠ 0)
    (hgen : c.generation + 2 < sizeMod) (r : Rehash (Σ _ : κ, GenRecord ν)) {key : κ} (data : ν)
    (hnone : E.dlookup key = none) :
    ∃ c', (insert r key data).run c = .ok () c' ∧ c'.maxSize = c.maxSize ∧
      c'.generation ≤ c.generation + 2 ∧ Stamped c' (inserted c E key data c'.generation) := by
  have hnot : key ∉ E.keys := List.dlookup_eq_none.mp hnone
  have hkept : kept (dataOf E) key data = data := by
    rw [kept, dataOf, Log.mapVal_dlookup, hnone]
    rfl
  set record : GenRecord ν := { data := data, gen := c.generation + 1 } with hrecord
  obtain ⟨cache, hcache, hperm⟩ := UnorderedMap.insertNew_new r record
    (show c.cache.lookup key = none by rw [h.lookup, hnone])
  have hentries : cache.entries.Perm (⟨key, record⟩ :: E) := hperm.trans (h.entries.cons _)
  have hsize : cache.size = E.length + 1 := hentries.length_eq
  have hnext := nextGeneration_run (c := c) (by omega)
  have hinserted : inserted c E key data (c.generation + 1)
      = (⟨key, record⟩ :: E).take c.maxSize := by
    rw [inserted, hkept, List.kinsert_def, List.kerase_of_notMem_keys hnot]
  by_cases hover : cache.size > c.maxSize
  · -- the least stamp is that of the last record, wherever the walk meets it
    have hfull : E.length = c.maxSize := by
      have := h.bound
      omega
    have horder : (⟨key, record⟩ :: E).Pairwise fun a b => b.2.gen < a.2.gen :=
      List.pairwise_cons.mpr ⟨fun e he => Nat.lt_succ_of_le (h.fresh e he), h.order⟩
    have hnodup : (⟨key, record⟩ :: E : Log κ (GenRecord ν)).NodupKeys :=
      (List.perm_nodupKeys hentries).mp cache.nodupKeys
    obtain ⟨E₀, last, rfl, htake⟩ := Log.take_cons_full ⟨key, record⟩ hm hfull
    rw [← List.cons_append] at hentries horder hnodup
    have hscan : eraseGen (minGen cache.entries) cache = cache.erase last.1 := by
      refine eraseGen_minGen hentries horder ?_
      have := h.fresh last (by simp)
      omega
    refine ⟨{ c with cache := cache.erase last.1, generation := c.generation + 1 }, ?_, rfl,
      by simp, ?_⟩
    · simp [insert, hm, hnext, ← hrecord, hcache, hover, hscan]
    · refine h.inserted rfl (by simp) ?_
      have herase := List.Perm.kerase cache.nodupKeys (a := last.1) hentries
      rw [Log.kerase_last hnodup] at herase
      rw [hinserted, htake]
      exact herase
  · refine ⟨{ c with cache := cache, generation := c.generation + 1 }, ?_, rfl, by simp, ?_⟩
    · simp [insert, hm, hnext, ← hrecord, hcache, hover]
    · refine h.inserted rfl (by simp) ?_
      rw [hinserted, List.take_of_length_le (by simp; omega)]
      exact hentries

/-- What `insert` does to the entries, whatever the order of the map. -/
theorem insert_run (h : Stamped c E) (hgen : c.generation + 2 < sizeMod)
    (r : Rehash (Σ _ : κ, GenRecord ν)) (key : κ) (data : ν) :
    ∃ c' gen, (insert r key data).run c = .ok () c' ∧ c'.maxSize = c.maxSize ∧
      c'.generation ≤ c.generation + 2 ∧ Stamped c' (inserted c E key data gen) := by
  by_cases hm : c.maxSize = 0
  · obtain rfl : E = [] := List.length_eq_zero_iff.mp (by have := h.bound; omega)
    refine ⟨c, 0, by simp [insert, hm], rfl, by omega, ?_⟩
    simpa [inserted, hm] using h
  · cases hlookup : E.dlookup key with
    | none =>
        obtain ⟨c', hc'⟩ := insert_new h hm hgen r data hlookup
        exact ⟨c', _, hc'⟩
    | some old =>
        obtain ⟨c', hc'⟩ := insert_old h hm hgen r data hlookup
        exact ⟨c', _, hc'⟩

/-! ### Whole runs -/

/-- The calls of a client, each with the order the map takes in it. -/
def call : CacheOp κ ν × Rehash (Σ _ : κ, GenRecord ν) → Call (LastUsedCache κ ν) (Option ν)
  | (.insert key data, r) => do
      insert r key data
      return none
  | (.find key, _) => find key
  | (.clear, _) => do
      clear
      return none

/-- A bounded cache whose insertions keep the data of a key that is there. -/
def stale (m : Nat) : Object (Log κ ν) (CacheOp κ ν) (Except Fault (Option ν))
  | .insert key data, l => (.ok none, (l.kinsert key (kept l key data)).take m)
  | .find key, l => (.ok (l.dlookup key), l)
  | .clear, _ => (.ok none, [])

/-- The cache has capacity `m` and contents `l`, after `n` insertions. -/
def Holds (m n : Nat) (c : LastUsedCache κ ν) (l : Log κ ν) : Prop :=
  ∃ E, Stamped c E ∧ c.maxSize = m ∧ c.generation ≤ 2 * n ∧ dataOf E = l

theorem find_run (h : Stamped c E) (key : κ) :
    (find key).run c = .ok ((dataOf E).dlookup key) c := by
  rw [dataOf, Log.mapVal_dlookup, ← h.lookup]
  cases hlookup : c.cache.lookup key <;> simp [find, hlookup]

/-- **Until the counter wraps, every call changes the contents as `stale` does.** -/
theorem call_simulates (m : Nat) :
    SimulatesWithin (Call.object (call (κ := κ) (ν := ν))) (fun op => stale m op.1)
      (fun op => op.1.inserts) (2 ^ 63) (Holds m) := by
  intro opr c l n hrel hbudget
  obtain ⟨op, r⟩ := opr
  obtain ⟨E, hE, hmax, hgen, rfl⟩ := hrel
  cases op with
  | insert key data =>
      have hn : n + 1 < 2 ^ 63 := hbudget
      have hroom : c.generation + 2 < sizeMod := by
        unfold sizeMod
        omega
      obtain ⟨c', gen, hrun, hmax', hgen', hE'⟩ := insert_run hE hroom r key data
      have hcall : (call (.insert key data, r)).run c = .ok none c' := by
        rw [call, Call.run_bind_ok hrun]
        rfl
      rw [Call.object_ok hcall]
      refine ⟨rfl, _, hE', hmax'.trans hmax, ?_, ?_⟩
      · show c'.generation ≤ 2 * (n + 1)
        omega
      · rw [inserted, dataOf, Log.mapVal_take, Log.mapVal_kinsert, hmax]
        rfl
  | find key =>
      have hcall : (call (.find key, r)).run c = .ok ((dataOf E).dlookup key) c := find_run hE key
      rw [Call.object_ok hcall]
      exact ⟨rfl, E, hE, hmax, hgen, rfl⟩
  | clear =>
      have hempty : Stamped { c with cache := ∅ } ([] : Log κ (GenRecord ν)) :=
        ⟨List.Perm.refl _, List.Pairwise.nil, by simp, Nat.zero_le _⟩
      exact ⟨rfl, [], hempty, hmax, hgen, rfl⟩

/-- After every run the entries are those of `stale`, and no call has thrown. -/
theorem run_stamped (m : Nat) {ops : List (CacheOp κ ν × Rehash (Σ _ : κ, GenRecord ν))}
    (h : insertCount (ops.map Prod.fst) < 2 ^ 63) :
    ((Call.object call).run ops (new m)).1 = ((stale m).run (ops.map Prod.fst) []).1 ∧
    Holds m (insertCount (ops.map Prod.fst)) ((Call.object call).run ops (new m)).2
      ((stale m).run (ops.map Prod.fst) []).2 := by
  have hstart : Holds m 0 (new m : LastUsedCache κ ν) [] :=
    ⟨[], ⟨List.Perm.refl _, List.Pairwise.nil, by simp, Nat.zero_le _⟩, rfl, Nat.le_refl _, rfl⟩
  have hcount : (ops.map fun op => op.1.inserts).sum = insertCount (ops.map Prod.fst) := by
    rw [insertCount, List.map_map]
    rfl
  have hrun := (call_simulates m).run ops (new m) [] 0 hstart
    (by rw [Nat.zero_add, hcount]; exact h)
  rw [Nat.zero_add, hcount, Object.run_map (stale m) Prod.fst] at hrun
  exact hrun

/-- No call on it throws. -/
theorem stale_ok (m : Nat) (op : CacheOp κ ν) (l : Log κ ν) :
    ∃ item, (stale m op l).1 = .ok item := by
  cases op <;> exact ⟨_, rfl⟩

/-- Stale data does not change which keys are held. -/
theorem stale_keys (m : Nat) (ops : List (CacheOp κ ν)) :
    ((stale m).run ops []).2.keys = (recent ops).take m := by
  have key : ∀ (ops : List (CacheOp κ ν)) (l l' : Log κ ν), l.keys = l'.keys →
      ((stale m).run ops l).2.keys = ((newest m).run ops l').2.keys := by
    intro ops
    induction ops with
    | nil => intro l l' h; exact h
    | cons op ops ih =>
        intro l l' h
        refine ih _ _ ?_
        cases op with
        | insert key data => simp [stale, newest, Log.take_keys, List.keys_kerase, h]
        | find key => exact h
        | clear => rfl
  rw [key ops [] [] rfl, newest_run, Log.take_keys, history_keys]

/-! ### The keys of the two caches -/

/-- Both caches hold the same keys. -/
structure SameKeys (c : LastUsedCache κ ν) (d : LruCache κ ν) : Prop where
  keys : ∀ k, k ∈ c.cache ↔ k ∈ d.cache
  size : c.size = d.size
  found : ∀ k, ∃ x y, (find k).run c = .ok x c ∧ (LruCache.find k).run d = .ok y d ∧
    x.isSome = y.isSome

/-- Inserting `key` removed `victim` and nothing else. -/
structure Evicts (c c' : LastUsedCache κ ν) (key victim : κ) : Prop where
  held : victim ∈ c.cache
  keys : ∀ k, k ∈ c'.cache ↔ k = key ∨ k ∈ c.cache ∧ k ≠ victim
  size : c'.size = c.size
  records : ∀ k, k ≠ key → k ≠ victim → c'.cache.lookup k = c.cache.lookup k

/-- Entries with the same keys make caches with the same keys. -/
theorem sameKeys_of_layout (h : Stamped c E) {d : LruCache κ ν} {F : Log κ (LruRecord ν)}
    (hF : LruCache.Layout d F) (hkeys : E.keys = F.keys) : SameKeys c d := by
  refine ⟨?_, ?_, ?_⟩
  · intro k
    rw [h.mem_iff, hF.mem_iff, hkeys]
  · have hlen := congrArg List.length hkeys
    rw [List.keys, List.keys, List.length_map, List.length_map] at hlen
    rw [h.size_eq, hF.size_eq, hlen]
  · intro k
    refine ⟨_, _, find_run h k, LruCache.find_run hF k, ?_⟩
    rw [Bool.eq_iff_iff, List.dlookup_isSome, List.dlookup_isSome, dataOf, LruCache.dataOf,
      Log.mapVal_keys, Log.mapVal_keys, hkeys]

/-- An overflow removes the record with the least stamp. -/
theorem Stamped.evicts (h : Stamped c E) {c' : LastUsedCache κ ν} {key : κ} {data : ν} {gen : Nat}
    (hm : c.maxSize ≠ 0) (hnew : key ∉ c.cache) (hfull : c.size = c.maxSize)
    (h' : Stamped c' (LastUsedCache.inserted c E key data gen)) :
    ∃ victim, E.keys.getLast? = some victim ∧ Evicts c c' key victim := by
  have hlen : E.length = c.maxSize := by rw [← hfull, h.size_eq]
  have hnot : key ∉ E.keys := fun hin => hnew ((h.mem_iff key).mpr hin)
  obtain ⟨E₀, last, rfl, htake⟩ := Log.take_cons_full
    ⟨key, { data := kept (dataOf E) key data, gen := gen }⟩ hm hlen
  have hinserted : LastUsedCache.inserted c (E₀ ++ [last]) key data gen
      = ⟨key, { data := kept (dataOf (E₀ ++ [last])) key data, gen := gen }⟩ :: E₀ := by
    rw [LastUsedCache.inserted, List.kinsert_def, List.kerase_of_notMem_keys hnot, htake]
  have hlast : last.1 ∉ E₀.keys := by
    rw [← Log.kerase_last h.nodupKeys]
    exact List.notMem_keys_kerase _ h.nodupKeys
  refine ⟨last.1, by simp [List.keys], ?_, ?_, ?_, ?_⟩
  · rw [h.mem_iff]
    simp [List.keys]
  · intro k
    rw [h'.mem_iff, h.mem_iff, hinserted, List.keys_cons, List.mem_cons]
    refine or_congr_right ⟨?_, ?_⟩
    · intro hk
      refine ⟨?_, ?_⟩
      · simpa [List.keys] using Or.inl hk
      · intro heq
        subst heq
        exact hlast hk
    · intro h
      obtain ⟨hk, hne⟩ := h
      rw [List.keys, List.map_append, List.mem_append] at hk
      exact hk.resolve_right (by simpa using hne)
  · rw [h'.size_eq, h.size_eq, hinserted]
    simp
  · intro k hkey hvictim
    rw [h'.lookup, h.lookup, hinserted, List.dlookup_cons_ne _ _ hkey]
    have hrest := List.dlookup_kerase_ne (l := E₀ ++ [last]) hvictim
    rw [Log.kerase_last h.nodupKeys] at hrest
    exact hrest

/--
**As long as the counter has not wrapped, the two caches hold the same keys after
every run, whatever the orders of the map, and every overflow of `LastUsedCache`
removes one record, that of the least recently inserted key.**
-/
theorem lastUsedCache_evicts_as_lruCache (m : Nat)
    (ops : List (CacheOp κ ν × Rehash (Σ _ : κ, GenRecord ν)))
    (hcount : insertCount (ops.map Prod.fst) < 2 ^ 63) :
    (∀ out ∈ ((Call.object call).run ops (new m)).1, ∃ item, out = .ok item) ∧
    SameKeys ((Call.object call).run ops (new m)).2
      ((Call.object LruCache.call).run (ops.map Prod.fst) (LruCache.new m)).2 ∧
    ∀ before after key data r, ops = before ++ (.insert key data, r) :: after → m ≠ 0 →
      key ∉ ((Call.object call).run before (new m)).2.cache →
      ((Call.object call).run before (new m)).2.size = m →
      ∃ victim, ((recent (before.map Prod.fst)).take m).getLast? = some victim ∧
        Evicts ((Call.object call).run before (new m)).2
          ((Call.object call).run (before ++ [(.insert key data, r)]) (new m)).2 key victim := by
  obtain ⟨houts, E, hE, -, -, hdata⟩ := run_stamped m hcount
  obtain ⟨-, F, hF, -, hlru⟩ := LruCache.run_layout m (ops.map Prod.fst)
  refine ⟨?_, ?_, ?_⟩
  · rw [houts]
    exact (stale m).run_answers (stale_ok m) _ []
  · refine sameKeys_of_layout hE hF ?_
    rw [← Log.mapVal_keys GenRecord.data E, ← Log.mapVal_keys LruRecord.data F]
    show (dataOf E).keys = (LruCache.dataOf F).keys
    rw [hdata, hlru, stale_keys, Log.take_keys, history_keys]
  · intro before after key data r heq hm hnew hfull
    subst heq
    have hbefore : insertCount (before.map Prod.fst) < 2 ^ 63 := by
      refine Nat.lt_of_le_of_lt ?_ hcount
      simp [insertCount]
    have hsplit : insertCount (before.map Prod.fst) + 1 < 2 ^ 63 := by
      refine Nat.lt_of_le_of_lt ?_ hcount
      simp [insertCount, CacheOp.inserts]
    obtain ⟨-, E, hE, hmax, hgen, hdata⟩ := run_stamped m hbefore
    have hroom : ((Call.object call).run before (new m)).2.generation + 2 < sizeMod := by
      unfold sizeMod
      omega
    obtain ⟨c', gen, hrun, -, -, hE'⟩ := insert_run hE hroom r key data
    have hcall : (call (.insert key data, r)).run ((Call.object call).run before (new m)).2
        = .ok none c' := by
      rw [call, Call.run_bind_ok hrun]
      rfl
    rw [Object.run_append, Object.run_cons, Object.run_nil, Call.object_ok hcall]
    obtain ⟨victim, hvictim, hevicts⟩ :=
      hE.evicts (by rw [hmax]; exact hm) hnew (by rw [hmax]; exact hfull) hE'
    refine ⟨victim, ?_, hevicts⟩
    rw [← stale_keys, ← hdata, dataOf, Log.mapVal_keys]
    exact hvictim

/-- Two keys in a cache of one: the first is evicted in both. -/
theorem evicts_as_lruCache_two :
    SameKeys ((Call.object call).run
        [(.insert 1 10, .none), (.insert 2 20, .none)] (new 1 : LastUsedCache Nat Nat)).2
      ((Call.object LruCache.call).run [.insert 1 10, .insert 2 20] (LruCache.new 1)).2 :=
  (lastUsedCache_evicts_as_lruCache 1 [(.insert 1 10, .none), (.insert 2 20, .none)]
    (by decide)).2.1

/-! ### The data of the two caches -/

/-- Whatever `find` returns after a run is the latest data, as it is with `lru_cache`. -/
def ReturnsLatest (m : Nat) (ops : List (CacheOp κ ν × Rehash (Σ _ : κ, GenRecord ν))) : Prop :=
  ∀ k item, (find k).reply ((Call.object call).run ops (new m)).2 = .ok (some item) →
    latest (ops.map Prod.fst) k = some item ∧
    (LruCache.find k).reply
      ((Call.object LruCache.call).run (ops.map Prod.fst) (LruCache.new m)).2 = .ok (some item)

/-- Every insertion of a key that is still held brings the data the key already has. -/
def Unchanging (m : Nat) (ops : List (CacheOp κ ν)) : Prop :=
  ∀ before key data after, ops = before ++ .insert key data :: after →
    key ∈ (recent before).take m → latest before key = some data

/-- What `find` answers after a run. -/
theorem find_reply (m : Nat) {ops : List (CacheOp κ ν × Rehash (Σ _ : κ, GenRecord ν))}
    (hcount : insertCount (ops.map Prod.fst) < 2 ^ 63) (k : κ) :
    (find k).reply ((Call.object call).run ops (new m)).2
      = .ok (((stale m).run (ops.map Prod.fst) []).2.dlookup k) := by
  obtain ⟨-, E, hE, -, -, hdata⟩ := run_stamped m hcount
  rw [Call.reply_ok (find_run hE k), hdata]

theorem lruCache_find_reply (m : Nat) (ops : List (CacheOp κ ν)) (k : κ) :
    (LruCache.find k).reply ((Call.object LruCache.call).run ops (LruCache.new m)).2
      = .ok (((history ops).take m).dlookup k) := by
  obtain ⟨-, F, hF, -, hdata⟩ := LruCache.run_layout m ops
  rw [Call.reply_ok (LruCache.find_run hF k), hdata]

/-- When no insertion changes data, nothing is stale. -/
theorem stale_run_eq (m : Nat) (ops : List (CacheOp κ ν)) (h : Unchanging m ops) :
    ((stale m).run ops []).2 = (history ops).take m := by
  induction ops using List.reverseRecOn with
  | nil => simp [history]
  | append_singleton ops op ih =>
      have hprefix : Unchanging m ops := by
        intro before key data after heq
        subst heq
        exact h before key data (after ++ [op]) (by simp)
      rw [Object.run_append, ih hprefix, history_append, ← newest_take]
      cases op with
      | insert key data =>
          have hkept : kept ((history ops).take m) key data = data := by
            cases hlookup : ((history ops).take m).dlookup key with
            | none => rw [kept, hlookup]; rfl
            | some item =>
                have hheld : key ∈ (recent ops).take m := by
                  rw [← history_keys, ← Log.take_keys]
                  exact List.dlookup_isSome.mp (by rw [hlookup]; rfl)
                have hsame := h ops key data [] (by simp) hheld
                rw [latest_of_take hlookup] at hsame
                rw [kept, hlookup]
                exact Option.some.inj hsame
          simp [stale, newest, hkept]
      | find key => rfl
      | clear => rfl

/-- If what is found before and after an insertion is the latest, it changed nothing. -/
theorem data_of_returnsLatest {m : Nat}
    {before : List (CacheOp κ ν × Rehash (Σ _ : κ, GenRecord ν))} {key : κ} {data : ν}
    {r : Rehash (Σ _ : κ, GenRecord ν)}
    (hcount : insertCount (before.map Prod.fst) + 1 < 2 ^ 63)
    (hbefore : ReturnsLatest m before)
    (hafter : ReturnsLatest m (before ++ [(.insert key data, r)]))
    (hheld : key ∈ (recent (before.map Prod.fst)).take m) :
    latest (before.map Prod.fst) key = some data := by
  have hm : m ≠ 0 := by
    intro heq
    subst heq
    simp at hheld
  rw [← stale_keys] at hheld
  obtain ⟨old, hold⟩ := Option.isSome_iff_exists.mp (List.dlookup_isSome.mpr hheld)
  have holdLatest := (hbefore key old (by rw [find_reply m (by omega), hold])).1
  -- the record keeps its old data, and that is what `find` returns now
  have hnow : (find key).reply
      ((Call.object call).run (before ++ [(.insert key data, r)]) (new m)).2 = .ok (some old) := by
    rw [find_reply m (by simpa [insertCount, CacheOp.inserts] using hcount), List.map_append,
      Object.run_append]
    obtain ⟨n, rfl⟩ := Nat.exists_eq_succ_of_ne_zero hm
    simp [stale, kept, hold]
  have hnew := (hafter key old hnow).1
  rw [← history_dlookup, List.map_append, List.map_singleton, history_append, CacheOp.record,
    List.dlookup_kinsert] at hnew
  rw [holdLatest, hnew]

/--
**`LastUsedCache` returns the latest data all along a run exactly when no insertion
of the run changes the data of a key that is still held.**
-/
theorem lastUsedCache_returnsLatest_iff (m : Nat)
    (ops : List (CacheOp κ ν × Rehash (Σ _ : κ, GenRecord ν)))
    (hcount : insertCount (ops.map Prod.fst) < 2 ^ 63) :
    (∀ before after, ops = before ++ after → ReturnsLatest m before) ↔
      Unchanging m (ops.map Prod.fst) := by
  constructor
  · intro h before key data after hsplit hheld
    obtain ⟨before, rest, rfl, rfl, hrest⟩ := List.map_eq_append_iff.mp hsplit
    obtain ⟨⟨op, r⟩, after, rfl, rfl, rfl⟩ := List.map_eq_cons_iff.mp hrest
    refine data_of_returnsLatest (r := r) ?_ (h before _ rfl)
      (h (before ++ [(.insert key data, r)]) after (by simp)) hheld
    refine Nat.lt_of_le_of_lt ?_ hcount
    simp [insertCount, CacheOp.inserts]
  · intro h before after heq k item hfound
    subst heq
    have hbefore : insertCount (before.map Prod.fst) < 2 ^ 63 := by
      refine Nat.lt_of_le_of_lt ?_ hcount
      simp [insertCount]
    have hunchanging : Unchanging m (before.map Prod.fst) := by
      intro b key data a hb
      exact h b key data (a ++ after.map Prod.fst) (by simp [hb])
    rw [find_reply m hbefore, stale_run_eq m _ hunchanging] at hfound
    have hitem : ((history (before.map Prod.fst)).take m).dlookup k = some item := by
      simpa using hfound
    exact ⟨latest_of_take hitem, by rw [lruCache_find_reply, hitem]⟩

/-- One key, inserted once and again with the same data. -/
theorem returnsLatest_iff_same :
    (∀ before after, [(.insert 1 10, .none), (.insert 1 10, .none)] = before ++ after →
        ReturnsLatest (κ := Nat) (ν := Nat) 1 before) ↔
      Unchanging 1 [.insert 1 10, .insert 1 10] :=
  lastUsedCache_returnsLatest_iff 1 [(.insert 1 10, .none), (.insert 1 10, .none)] (by decide)

/-- After `insert(1, 10)` and `insert(1, 11)` the cache still returns `10`. -/
theorem lastUsedCache_returns_stale :
    ¬ ReturnsLatest (κ := Nat) (ν := Nat) 1 [(.insert 1 10, .none), (.insert 1 11, .none)] := by
  intro h
  have hstale := h 1 10 (by decide)
  exact absurd hstale.1 (by decide)

end Technopark.LastUsedCache
