/-
What a bounded cache should remember.

`insertions` are the insert calls since the last `clear`.  They say which keys are
`recent`, newest first, and which data is the `latest` of a key.  `history` is both
at once, as a log: its keys are the recent keys, and looking a key up in it gives the
latest data.  A cache of capacity `m` should answer from the `m` newest entries of
the history, which is what the object `newest m` does.
-/
import Technopark.Lib.Run
import Technopark.Lib.UnorderedMap
import Mathlib.Data.List.Dedup
import Mathlib.Data.List.Induction

namespace Technopark

variable {κ ν : Type}

/-- The calls a client makes on a cache. -/
inductive CacheOp (κ ν : Type)
  | insert (key : κ) (data : ν)
  | find (key : κ)
  | clear
  deriving Repr, DecidableEq

/-- The insert calls since the last `clear`, oldest first. -/
def insertions (ops : List (CacheOp κ ν)) : List (κ × ν) :=
  ops.foldl (fun l op =>
    match op with
    | .insert key data => l ++ [(key, data)]
    | .find _ => l
    | .clear => []) []

theorem insertions_append (ops : List (CacheOp κ ν)) (op : CacheOp κ ν) :
    insertions (ops ++ [op])
      = match op with
        | .insert key data => insertions ops ++ [(key, data)]
        | .find _ => insertions ops
        | .clear => [] := by
  cases op <;> simp [insertions]

/-- How many insertions a call makes. -/
def CacheOp.inserts : CacheOp κ ν → Nat
  | .insert _ _ => 1
  | .find _ => 0
  | .clear => 0

/-- How many insertions a run makes. -/
def insertCount (ops : List (CacheOp κ ν)) : Nat := (ops.map CacheOp.inserts).sum

variable [DecidableEq κ]

/-- The keys inserted since the last `clear`, by their latest insertion, newest first. -/
def recent (ops : List (CacheOp κ ν)) : List κ := ((insertions ops).map Prod.fst).dedup.reverse

/-- The data of the most recent insertion of a key since the last `clear`. -/
def latest (ops : List (CacheOp κ ν)) (key : κ) : Option ν :=
  ((insertions ops).reverse.find? fun e => e.1 = key).map Prod.snd

/-- What a call adds to the log of insertions. -/
def CacheOp.record : CacheOp κ ν → Log κ ν → Log κ ν
  | .insert key data, l => l.kinsert key data
  | .find _, l => l
  | .clear, _ => []

/-- Everything inserted since the last `clear`, most recent first, each key once. -/
def history (ops : List (CacheOp κ ν)) : Log κ ν := ops.foldl (fun l op => op.record l) []

/-- A cache that answers from the `m` newest insertions. -/
def newest (m : Nat) : Object (Log κ ν) (CacheOp κ ν) (Except Fault (Option ν))
  | .insert key data, l => (.ok none, (l.kinsert key data).take m)
  | .find key, l => (.ok (l.dlookup key), l)
  | .clear, _ => (.ok none, [])

theorem history_append (ops : List (CacheOp κ ν)) (op : CacheOp κ ν) :
    history (ops ++ [op]) = op.record (history ops) := by
  simp [history]

theorem CacheOp.record_nodupKeys (op : CacheOp κ ν) {l : Log κ ν} (h : l.NodupKeys) :
    (op.record l).NodupKeys := by
  cases op with
  | insert key data => exact List.kinsert_nodupKeys key data h
  | find key => exact h
  | clear => exact List.nodupKeys_nil

theorem history_nodupKeys (ops : List (CacheOp κ ν)) : (history ops).NodupKeys := by
  have key : ∀ (ops : List (CacheOp κ ν)) (l : Log κ ν), l.NodupKeys →
      (ops.foldl (fun l op => op.record l) l).NodupKeys := by
    intro ops
    induction ops with
    | nil => intro l h; exact h
    | cons op ops ih => intro l h; exact ih _ (op.record_nodupKeys h)
  exact key ops [] List.nodupKeys_nil

/-- Adding to the end moves an element there. -/
private theorem dedup_concat (l : List κ) (k : κ) :
    (l ++ [k]).dedup = l.dedup.filter (· != k) ++ [k] := by
  induction l with
  | nil => simp
  | cons a l ih =>
      by_cases hmem : a ∈ l
      · rw [List.cons_append, List.dedup_cons_of_mem (List.mem_append_left _ hmem),
          List.dedup_cons_of_mem hmem, ih]
      · rw [List.dedup_cons_of_notMem hmem, List.cons_append]
        by_cases hak : a = k
        · subst hak
          rw [List.dedup_cons_of_mem (by simp), ih]
          simp
        · rw [List.dedup_cons_of_notMem (by simp [hmem, hak]), ih]
          simp [hak]

/-- **The keys of the history are the recent keys.** -/
theorem history_keys (ops : List (CacheOp κ ν)) : (history ops).keys = recent ops := by
  induction ops using List.reverseRecOn with
  | nil => rfl
  | append_singleton ops op ih =>
      have hnodup : (history ops).keys.Nodup := history_nodupKeys ops
      rw [history_append]
      unfold recent at ih ⊢
      rw [insertions_append]
      cases op with
      | insert key data =>
          rw [CacheOp.record, List.kinsert_def, List.keys_cons, List.keys_kerase,
            hnodup.erase_eq_filter, ih, List.map_append, List.map_singleton, dedup_concat]
          simp [List.filter_reverse]
      | find key => exact ih
      | clear => rfl

/-- **Looking a key up in the history gives its latest data.** -/
theorem history_dlookup (ops : List (CacheOp κ ν)) (k : κ) :
    (history ops).dlookup k = latest ops k := by
  induction ops using List.reverseRecOn with
  | nil => rfl
  | append_singleton ops op ih =>
      rw [history_append]
      unfold latest at ih ⊢
      rw [insertions_append]
      cases op with
      | insert key data =>
          by_cases hk : k = key
          · subst hk
            simp [CacheOp.record]
          · rw [CacheOp.record, List.dlookup_kinsert_ne hk, ih]
            simp [Ne.symm hk]
      | find key => exact ih
      | clear => rfl

/-- A key that is held is held with its latest data. -/
theorem latest_of_take {m : Nat} {ops : List (CacheOp κ ν)} {k : κ} {item : ν}
    (h : ((history ops).take m).dlookup k = some item) : latest ops k = some item := by
  rw [← history_dlookup, Log.dlookup_eq_some_iff (history_nodupKeys ops)]
  exact List.mem_of_mem_take (List.of_mem_dlookup h)

/-- The `m` newest entries after a call are decided by the `m` newest before it. -/
theorem newest_take (m : Nat) (op : CacheOp κ ν) (l : Log κ ν) :
    (newest m op (l.take m)).2 = (op.record l).take m := by
  cases op with
  | insert key data => exact Log.take_kinsert key data l m
  | find key => rfl
  | clear => exact List.take_nil.symm

/-- No call on the ideal cache throws. -/
theorem newest_ok (m : Nat) (op : CacheOp κ ν) (l : Log κ ν) :
    ∃ item, (newest m op l).1 = .ok item := by
  cases op <;> exact ⟨_, rfl⟩

/-- **A bounded cache holds the first `m` entries of the history.** -/
theorem newest_run (m : Nat) (ops : List (CacheOp κ ν)) :
    ((newest m).run ops []).2 = (history ops).take m := by
  have key : ∀ (ops : List (CacheOp κ ν)) (l : Log κ ν),
      ((newest m).run ops (l.take m)).2 = (ops.foldl (fun l op => op.record l) l).take m := by
    intro ops
    induction ops with
    | nil => intro l; rfl
    | cons op ops ih =>
        intro l
        rw [Object.run_cons, newest_take, List.foldl_cons]
        exact ih (op.record l)
  have hstart := key ops []
  rw [List.take_nil] at hstart
  exact hstart

end Technopark
