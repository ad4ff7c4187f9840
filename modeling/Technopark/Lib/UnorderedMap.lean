/-
Hash maps, and logs of keys in order of use.

A hash map is a finite map that also walks its entries in some order, which is
nobody's business and may change whenever something is inserted.  It is Mathlib's
`AList` with the entries in the order of the walk; an insertion takes the
rearrangement that happens to follow it, so what is proved for every `Rehash` holds
whatever the walk.

A log is a list of keys with values, most recently written first, each key once.
`List.kinsert` writes to it.  `take_kinsert` is the one fact a bounded log needs: to
know the `m` newest entries after a write, the `m` newest before it are enough.
-/
import Mathlib.Data.List.AList

namespace Technopark

variable {κ ν : Type} [DecidableEq κ]

/-! ### Logs -/

/-- Keys with values, most recently written first. -/
abbrev Log (κ ν : Type) := List (Σ _ : κ, ν)

namespace Log

theorem take_kerase (k : κ) (l : Log κ ν) (m : Nat) :
    (List.kerase k (l.take (m + 1))).take m = (List.kerase k l).take m := by
  induction l generalizing m with
  | nil => simp
  | cons e l ih =>
      rw [List.take_succ_cons]
      by_cases hk : k = e.1
      · rw [List.kerase_cons_eq hk, List.kerase_cons_eq hk, List.take_take, Nat.min_self]
      · rw [List.kerase_cons_ne hk, List.kerase_cons_ne hk]
        cases m with
        | zero => simp
        | succ m => rw [List.take_succ_cons, List.take_succ_cons, ih m]

/-- The newest entries after a write are decided by the newest before it. -/
theorem take_kinsert (k : κ) (v : ν) (l : Log κ ν) (m : Nat) :
    (List.kinsert k v (l.take m)).take m = (List.kinsert k v l).take m := by
  cases m with
  | zero => simp
  | succ m =>
      rw [List.kinsert_def, List.kinsert_def, List.take_succ_cons, List.take_succ_cons,
        take_kerase]

/-- Writing to a key moves it to the front of the others. -/
theorem kreplace_perm {k : κ} (v : ν) {l : Log κ ν} (hk : k ∈ l.keys) :
    (List.kreplace k v l).Perm (⟨k, v⟩ :: List.kerase k l) := by
  induction l with
  | nil => simp at hk
  | cons e l ih =>
      by_cases he : k = e.1
      · obtain ⟨k', v'⟩ := e
        obtain rfl : k = k' := he
        simp [List.kreplace, List.lookmap_cons_some]
      · have hmem : k ∈ l.keys := by
          rw [List.keys_cons, List.mem_cons] at hk
          exact hk.resolve_left he
        have hcons : List.kreplace k v (e :: l) = e :: List.kreplace k v l := by
          unfold List.kreplace
          rw [List.lookmap_cons_none]
          simp [he]
        rw [hcons, List.kerase_cons_ne he]
        exact ((ih hmem).cons e).trans (List.Perm.swap ..)

omit [DecidableEq κ] in
/-- Writing a new key to a full log drops its last entry. -/
theorem take_cons_full (e : Σ _ : κ, ν) {l : Log κ ν} {m : Nat} (hm : m ≠ 0) (hl : l.length = m) :
    ∃ l₀ last, l = l₀ ++ [last] ∧ (e :: l).take m = e :: l₀ := by
  rcases List.eq_nil_or_concat l with rfl | ⟨l₀, last, hlast⟩
  · simp at hl
    omega
  · rw [List.concat_eq_append] at hlast
    subst hlast
    rw [List.length_append, List.length_singleton] at hl
    refine ⟨l₀, last, rfl, ?_⟩
    rw [← List.cons_append, List.take_append_of_le_length (by simp; omega),
      List.take_of_length_le (by simp; omega)]

omit [DecidableEq κ] in
theorem take_keys (l : Log κ ν) (m : Nat) : (l.take m).keys = l.keys.take m := List.map_take

/-- Writing to a key that is there adds no entry. -/
theorem length_kinsert {k : κ} (v : ν) {l : Log κ ν} (hk : k ∈ l.keys) :
    (l.kinsert k v).length = l.length := by
  have hlen := (kreplace_perm v hk).length_eq
  rw [List.kreplace, List.length_lookmap] at hlen
  exact hlen.symm

/-- The log with its values changed. -/
def mapVal {μ : Type} (f : ν → μ) (l : Log κ ν) : Log κ μ := l.map fun e => ⟨e.1, f e.2⟩

section
variable {μ : Type} (f : ν → μ)

omit [DecidableEq κ] in
@[simp] theorem mapVal_keys (l : Log κ ν) : (mapVal f l).keys = l.keys := by
  simp [mapVal, List.keys]

omit [DecidableEq κ] in
theorem mapVal_take (l : Log κ ν) (m : Nat) : mapVal f (l.take m) = (mapVal f l).take m :=
  List.map_take

theorem mapVal_dlookup (k : κ) (l : Log κ ν) : (mapVal f l).dlookup k = (l.dlookup k).map f :=
  List.dlookup_map₂ (f := fun _ => f) k

theorem mapVal_kerase (k : κ) (l : Log κ ν) :
    (mapVal f l).kerase k = mapVal f (l.kerase k) := by
  unfold mapVal List.kerase
  rw [List.eraseP_map]
  rfl

theorem mapVal_kinsert (k : κ) (v : ν) (l : Log κ ν) :
    mapVal f (l.kinsert k v) = (mapVal f l).kinsert k (f v) := by
  rw [List.kinsert_def, List.kinsert_def, mapVal_kerase]
  rfl

end

/-- The last of distinct keys is erased from the end. -/
theorem kerase_last {l : Log κ ν} {e : Σ _ : κ, ν} (h : (l ++ [e]).NodupKeys) :
    (l ++ [e]).kerase e.1 = l := by
  have hnot : e.1 ∉ l.keys := by
    have hkeys : (l.keys ++ [e.1]).Nodup := by simpa [List.NodupKeys, List.keys] using h
    intro hmem
    exact (List.nodup_append.mp hkeys).2.2 e.1 hmem e.1 (by simp) rfl
  rw [List.kerase_append_right hnot]
  simp

/-- A key and its value are in the log exactly when looking the key up finds it. -/
theorem dlookup_eq_some_iff {l : Log κ ν} (h : l.NodupKeys) {k : κ} {v : ν} :
    l.dlookup k = some v ↔ ⟨k, v⟩ ∈ l :=
  List.mem_dlookup_iff h

end Log

/-! ### Hash maps -/

/-- A finite map; the order of `entries` is the order it is walked in. -/
abbrev UnorderedMap (κ ν : Type) := AList (fun _ : κ => ν)

/-- The order a container's elements end up in after an insertion. -/
structure Rehash (α : Type) where
  arrange : List α → List α
  perm : ∀ l, (arrange l).Perm l

/-- The insertion that moves nothing. -/
def Rehash.none {α : Type} : Rehash α := ⟨fun l => l, fun l => List.Perm.refl l⟩

namespace UnorderedMap

/-- `size()`. -/
def size (m : UnorderedMap κ ν) : Nat := m.entries.length

/--
`insert(value_type(k, v))`.  An existing entry is not overwritten; its value comes
back in place of the `false` of the returned pair.
-/
def insertNew (r : Rehash (Σ _ : κ, ν)) (k : κ) (v : ν) (m : UnorderedMap κ ν) :
    UnorderedMap κ ν × Option ν :=
  if h : k ∈ m then (m, m.lookup k)
  else
    (⟨r.arrange (⟨k, v⟩ :: m.entries), (List.perm_nodupKeys (r.perm _)).mpr
      (List.nodupKeys_cons.mpr ⟨h, m.nodupKeys⟩)⟩, none)

theorem insertNew_old {r : Rehash (Σ _ : κ, ν)} {k : κ} {v old : ν} {m : UnorderedMap κ ν}
    (h : m.lookup k = some old) : m.insertNew r k v = (m, some old) := by
  have hmem : k ∈ m := AList.lookup_isSome.mp (by rw [h]; rfl)
  rw [insertNew, dif_pos hmem, h]

/-- A new key is added somewhere in the walk. -/
theorem insertNew_new (r : Rehash (Σ _ : κ, ν)) {k : κ} (v : ν) {m : UnorderedMap κ ν}
    (h : m.lookup k = none) :
    ∃ m', m.insertNew r k v = (m', none) ∧ m'.entries.Perm (⟨k, v⟩ :: m.entries) := by
  have hmem : k ∉ m := AList.lookup_eq_none.mp h
  refine ⟨_, by rw [insertNew, dif_neg hmem], r.perm _⟩

end UnorderedMap

end Technopark
