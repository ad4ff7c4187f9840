/-
Why no walk over a `LinkedList` goes in circles.

`InsertAfter` and `DeteleAt` take any node there is: one of another list, or one that was
deleted and still points where it used to.  Nothing of the shape of a list is left then, but
every node can be given a rank that its `next` pointer climbs and its `prev` pointer descends.
A new node gets a rank between its neighbours, and a deletion links a lower node to a higher
one.  So `Search`, `Display` and the destructor of every list come to an end, and since no
pointer leaves the list it belongs to, no node is freed by two destructors.

`Union` is the exception.  Both lists go on to the same nodes, and whichever is destroyed
second reads one that the other has freed; a list that is united with itself never ends, and
its destructor comes back to the first node it has freed.
-/
import Technopark.Lib.Run
import Technopark.Proofs.LinkedListEdit
import Mathlib.Algebra.Order.Field.Basic
import Mathlib.Algebra.Order.Field.Rat

namespace Technopark

open NodeHeap

namespace LinkedList

variable {heap heap' : NodeHeap} {l : LinkedList} {nodes : List Nat}

/-! ### The walks over a list -/

/-- What `Display` prints of a node. -/
def textOf (heap : NodeHeap) (a : Nat) : List String :=
  (heap[a]?.map fun node => toString node.data).toList ++ ["\t"]

/-- The list has these nodes, and every walk over it comes to its end. -/
structure Walks (heap : NodeHeap) (l : LinkedList) (nodes : List Nat) : Prop where
  chain : Chain (nextOf heap) l.front nodes
  search : ∀ val, (search l val).run heap
    = .ok (nodes.find? fun a => dataOf heap a = some val) heap
  display : (display l).run heap = .ok (nodes.flatMap (textOf heap) ++ ["\n"]) heap
  /-- The destructor frees them, in order, if nobody else has. -/
  destroy : ∀ freed, nodes.Disjoint freed →
    (destroy l).run { heap := heap, freed := freed }
      = .ok () { heap := heap, freed := freed ++ nodes }

theorem nextOf_eq {a : Nat} {node : Node} (h : heap[a]? = some node) :
    nextOf heap a = node.next := look_eq Node.next h

section
variable {p : Option Nat} {fuel : Nat}

theorem searchFrom_chain (h : Chain (nextOf heap) p nodes)
    (halloc : ∀ a ∈ nodes, a < heap.length) (val : Int) (hfuel : nodes.length < fuel) :
    (searchFrom val fuel p).run heap
      = .ok (nodes.find? fun a => dataOf heap a = some val) heap := by
  induction h generalizing fuel with
  | nil =>
      obtain ⟨fuel, rfl⟩ : ∃ m, fuel = m + 1 := ⟨fuel - 1, by omega⟩
      rfl
  | @cons a nodes _ ih =>
      obtain ⟨fuel, rfl⟩ : ∃ m, fuel = m + 1 := ⟨fuel - 1, by omega⟩
      obtain ⟨ha, halloc⟩ := List.forall_mem_cons.mp halloc
      have hget : heap[a]? = some heap[a] := List.getElem?_eq_getElem ha
      have hdata : dataOf heap a = some heap[a].data := look_eq _ hget
      rw [searchFrom, if_neg (by simp), Call.run_bind_ok (load_run hget), List.find?_cons, hdata]
      by_cases hval : heap[a].data = val
      · rw [if_pos hval, decide_eq_true (congrArg some hval)]
        rfl
      · rw [if_neg hval, decide_eq_false (mt Option.some.inj hval)]
        have hrest := ih halloc (Nat.lt_of_succ_lt_succ hfuel)
        rw [nextOf_eq hget] at hrest
        exact hrest

theorem displayFrom_chain (h : Chain (nextOf heap) p nodes)
    (halloc : ∀ a ∈ nodes, a < heap.length) (hfuel : nodes.length < fuel) :
    (displayFrom fuel p).run heap = .ok (nodes.flatMap (textOf heap)) heap := by
  induction h generalizing fuel with
  | nil =>
      obtain ⟨fuel, rfl⟩ : ∃ m, fuel = m + 1 := ⟨fuel - 1, by omega⟩
      rfl
  | @cons a nodes _ ih =>
      obtain ⟨fuel, rfl⟩ : ∃ m, fuel = m + 1 := ⟨fuel - 1, by omega⟩
      obtain ⟨ha, halloc⟩ := List.forall_mem_cons.mp halloc
      have hget : heap[a]? = some heap[a] := List.getElem?_eq_getElem ha
      have hrest := ih halloc (Nat.lt_of_succ_lt_succ hfuel)
      rw [nextOf_eq hget] at hrest
      rw [displayFrom, if_neg (by simp), Call.run_bind_ok (load_run hget),
        Call.run_bind_ok hrest, List.flatMap_cons, textOf, hget]
      rfl

end

/-- Distinct nodes of the heap are no more than it has. -/
theorem length_le_heap (hnodup : nodes.Nodup) (halloc : ∀ a ∈ nodes, a < heap.length) :
    nodes.length ≤ heap.length := by
  have hsub : nodes ⊆ List.range heap.length := fun a ha => List.mem_range.mpr (halloc a ha)
  have hle := (List.subperm_of_subset hnodup hsub).length_le
  rwa [List.length_range] at hle

/-! ### The destructor -/

section
variable {p stop : Option Nat} {fuel a : Nat} {freed : List Nat}

theorem remains_load_run (ha : a < heap.length) (hfreed : a ∉ freed) :
    (Remains.load (some a)).run { heap := heap, freed := freed }
      = .ok heap[a] { heap := heap, freed := freed } := by
  simp [Remains.load, hfreed, ha]

theorem remains_delete_run (ha : a < heap.length) (hfreed : a ∉ freed) :
    (Remains.delete (some a)).run { heap := heap, freed := freed }
      = .ok () { heap := heap, freed := freed ++ [a] } := by
  simp [Remains.delete, hfreed, Nat.not_le.mpr ha]

/-- Nothing is left to free. -/
theorem deleteFrom_none (fuel : Nat) (s : Remains) :
    (deleteFrom (fuel + 1) none).run s = .ok () s := rfl

/-- **The destructor cannot go on at a node that was freed.** -/
theorem deleteFrom_freed (ha : a ∈ freed) (fuel : Nat) :
    (deleteFrom (fuel + 1) (some a)).run { heap := heap, freed := freed }
      = .error (.undefined .outOfBounds) { heap := heap, freed := freed } := by
  have hload : (Remains.load (some a)).run { heap := heap, freed := freed }
      = .error (.undefined .outOfBounds) { heap := heap, freed := freed } := by
    simp [Remains.load, ha]
  rw [deleteFrom, if_neg (by simp), Call.run_bind_error hload]

theorem destroy_freed (hhead : l.head = some a) (ha : a ∈ freed) :
    (destroy l).run { heap := heap, freed := freed }
      = .error (.undefined .outOfBounds) { heap := heap, freed := freed } := by
  show (deleteFrom (heap.length + 1) l.head).run _ = _
  rw [hhead, deleteFrom_freed ha]

/-- **On its way the destructor frees the nodes it comes to**, each of them once. -/
theorem deleteFrom_path (h : Path (nextOf heap) p nodes stop)
    (halloc : ∀ a ∈ nodes, a < heap.length) (hnodup : nodes.Nodup)
    (hfreed : nodes.Disjoint freed) (fuel : Nat) :
    (deleteFrom (nodes.length + fuel) p).run { heap := heap, freed := freed }
      = (deleteFrom fuel stop).run { heap := heap, freed := freed ++ nodes } := by
  induction h generalizing freed with
  | nil => rw [List.length_nil, Nat.zero_add, List.append_nil]
  | @cons a nodes stop _ ih =>
      obtain ⟨ha, halloc⟩ := List.forall_mem_cons.mp halloc
      obtain ⟨hnew, hnodup⟩ := List.nodup_cons.mp hnodup
      obtain ⟨hlive, hfreed⟩ := List.disjoint_cons_left.mp hfreed
      have hget : heap[a]? = some heap[a] := List.getElem?_eq_getElem ha
      have hrest : nodes.Disjoint (freed ++ [a]) := by
        refine List.disjoint_append_right.mpr ⟨hfreed, ?_⟩
        exact List.disjoint_singleton.mpr hnew
      have hnext := ih halloc hnodup hrest
      rw [nextOf_eq hget, List.append_assoc] at hnext
      rw [List.length_cons, Nat.succ_add, deleteFrom, if_neg (by simp),
        Call.run_bind_ok (remains_load_run ha hlive),
        Call.run_bind_ok (remains_delete_run ha hlive)]
      exact hnext

theorem destroy_path (h : Path (nextOf heap) l.head nodes stop)
    (halloc : ∀ a ∈ nodes, a < heap.length) (hnodup : nodes.Nodup)
    (hfreed : nodes.Disjoint freed) :
    ∃ fuel, (destroy l).run { heap := heap, freed := freed }
      = (deleteFrom (fuel + 1) stop).run { heap := heap, freed := freed ++ nodes } := by
  have hle := length_le_heap hnodup halloc
  refine ⟨heap.length - nodes.length, ?_⟩
  rw [← deleteFrom_path h halloc hnodup hfreed, ← Nat.add_assoc, Nat.add_sub_cancel' hle]
  rfl

end

/-- **A list whose nodes form a chain can be walked over.** -/
theorem walks_of_chain (h : Chain (nextOf heap) l.head nodes) (hnodup : nodes.Nodup)
    (halloc : ∀ a ∈ nodes, a < heap.length) : Walks heap l nodes := by
  have hfuel : nodes.length < heap.length + 1 :=
    Nat.lt_succ_of_le (length_le_heap hnodup halloc)
  refine ⟨h, fun val => searchFrom_chain h halloc val hfuel, ?_, ?_⟩
  · show (displayFrom (heap.length + 1) l.head >>= fun texts =>
      pure (texts ++ ["\n"])).run heap = _
    rw [Call.run_bind_ok (displayFrom_chain h halloc hfuel)]
    rfl
  · intro freed hfreed
    obtain ⟨fuel, hrun⟩ := destroy_path h.path halloc hnodup hfreed
    rw [hrun, deleteFrom_none]

/-- Lists without a common node can be destroyed one after the other. -/
theorem destroyAll_run {nodesOf : LinkedList → List Nat} :
    ∀ (lists : List LinkedList) (freed : List Nat),
      (∀ l ∈ lists, Walks heap l (nodesOf l)) →
      lists.Pairwise (fun l l' => (nodesOf l).Disjoint (nodesOf l')) →
      (∀ l ∈ lists, (nodesOf l).Disjoint freed) →
      (destroyAll lists).run { heap := heap, freed := freed }
        = .ok () { heap := heap, freed := freed ++ lists.flatMap nodesOf } := by
  intro lists
  induction lists with
  | nil =>
      intro freed _ _ _
      rw [List.flatMap_nil, List.append_nil]
      rfl
  | cons l lists ih =>
      intro freed hwalks hapart hfreed
      obtain ⟨hwalk, hwalks⟩ := List.forall_mem_cons.mp hwalks
      obtain ⟨hfirst, hapart⟩ := List.pairwise_cons.mp hapart
      obtain ⟨hlive, hfreed⟩ := List.forall_mem_cons.mp hfreed
      have hrest : ∀ k ∈ lists, (nodesOf k).Disjoint (freed ++ nodesOf l) := fun k hk =>
        List.disjoint_append_right.mpr ⟨hfreed k hk, (hfirst k hk).symm⟩
      rw [destroyAll, Call.run_bind_ok (hwalk.destroy freed hlive), ih _ hwalks hapart hrest,
        List.flatMap_cons, List.append_assoc]

/-! ### Ranks and owners -/

/-- `next` climbs and `prev` descends, and no pointer leaves the nodes of an owner. -/
structure Graded (heap : NodeHeap) (rank : Nat → ℚ) (owner : Nat → Nat) : Prop where
  next : ∀ a b, nextOf heap a = some b → b < heap.length ∧ rank a < rank b ∧ owner b = owner a
  prev : ∀ a b, prevOf heap a = some b → b < heap.length ∧ rank b < rank a ∧ owner b = owner a

variable {rank rank' : Nat → ℚ} {owner owner' : Nat → Nat}

theorem lt_of_look {β : Type} {field : Node → Option β} {a : Nat} {b : β}
    (h : look field heap a = some b) : a < heap.length := by
  rw [look] at h
  cases hget : heap[a]? with
  | none =>
      rw [hget] at h
      injection h
  | some node => exact lt_of_getElem? hget

/-- Pointers that were there before stay right, and the new ones have to be. -/
theorem Graded.extend (h : Graded heap rank owner) (hlen : heap.length ≤ heap'.length)
    (hsame : ∀ a < heap.length, rank' a = rank a ∧ owner' a = owner a)
    (hnext : ∀ a b, nextOf heap' a = some b → nextOf heap a = some b ∨
      b < heap'.length ∧ rank' a < rank' b ∧ owner' b = owner' a)
    (hprev : ∀ a b, prevOf heap' a = some b → prevOf heap a = some b ∨
      b < heap'.length ∧ rank' b < rank' a ∧ owner' b = owner' a) :
    Graded heap' rank' owner' := by
  refine ⟨?_, ?_⟩
  · intro a b hab
    rcases hnext a b hab with hold | hnew
    · obtain ⟨hb, hrank, howner⟩ := h.next a b hold
      have ha := lt_of_look hold
      rw [(hsame a ha).1, (hsame a ha).2, (hsame b hb).1, (hsame b hb).2]
      exact ⟨Nat.lt_of_lt_of_le hb hlen, hrank, howner⟩
    · exact hnew
  · intro a b hab
    rcases hprev a b hab with hold | hnew
    · obtain ⟨hb, hrank, howner⟩ := h.prev a b hold
      have ha := lt_of_look hold
      rw [(hsame a ha).1, (hsame a ha).2, (hsame b hb).1, (hsame b hb).2]
      exact ⟨Nat.lt_of_lt_of_le hb hlen, hrank, howner⟩
    · exact hnew

/-- A rank and an owner for the node that is allocated next. -/
theorem update_same {β : Type} (f : Nat → β) (heap : NodeHeap) (x : β) :
    ∀ a < heap.length, Function.update f heap.length x a = f a :=
  fun _ ha => Function.update_of_ne (Nat.ne_of_lt ha) x f

/-- A node on its own. -/
theorem Graded.alone (h : Graded heap rank owner) (data : Int) (i : Nat) :
    Graded (heap ++ [{ data := data, next := none, prev := none }]) rank
      (Function.update owner heap.length i) := by
  have hlook (field : Node → Option Nat)
      (hfield : field { data := data, next := none, prev := none } = none) :
      ∀ a b, look field (heap ++ [{ data := data, next := none, prev := none }]) a = some b →
        look field heap a = some b := by
    intro a b hab
    rw [look_append, hfield] at hab
    by_cases ha : a = heap.length
    · rw [ha, Function.update_self] at hab
      injection hab
    · rwa [Function.update_of_ne ha] at hab
  refine h.extend (by simp) (fun a ha => ⟨rfl, update_same owner heap i a ha⟩) ?_ ?_
  · exact fun a b hab => .inl (hlook Node.next rfl a b hab)
  · exact fun a b hab => .inl (hlook Node.prev rfl a b hab)

theorem look_written {β : Type} (field : Node → Option β) {p : Nat} (hp : p < heap.length)
    (node last : Node) :
    look field (heap.set p node ++ [last])
      = Function.update (Function.update (look field heap) p (field node)) heap.length
          (field last) := by
  rw [look_append, look_set field hp, List.length_set]

/-- What a function that was updated twice is at some place. -/
theorem update_update_cases {β : Type} {f : Nat → Option β} {p n a : Nat} {x y : Option β} {b : β}
    (h : Function.update (Function.update f p x) n y a = some b) :
    a = n ∧ y = some b ∨ a = p ∧ x = some b ∨ f a = some b := by
  by_cases hn : a = n
  · rw [hn, Function.update_self] at h
    exact .inl ⟨hn, h⟩
  · rw [Function.update_of_ne hn] at h
    by_cases hp : a = p
    · rw [hp, Function.update_self] at h
      exact .inr (.inl ⟨hp, h⟩)
    · rw [Function.update_of_ne hp] at h
      exact .inr (.inr h)

/-- A node behind another one, with nothing behind it. -/
theorem Graded.behind (h : Graded heap rank owner) {p : Nat} {node : Node}
    (hp : heap[p]? = some node) (data : Int) :
    ∃ r, Graded (heap.set p { node with next := some heap.length }
        ++ [{ data := data, next := none, prev := some p }])
      (Function.update rank heap.length r) (Function.update owner heap.length (owner p)) := by
  have hlt := lt_of_getElem? hp
  obtain ⟨r, hr⟩ := exists_gt (rank p)
  have hrank := update_same rank heap r
  have howner := update_same owner heap (owner p)
  refine ⟨r, h.extend (by simp) (fun a ha => ⟨hrank a ha, howner a ha⟩) ?_ ?_⟩
  · intro a b hab
    rw [nextOf, look_written Node.next hlt] at hab
    rcases update_update_cases hab with ⟨-, hnone⟩ | ⟨rfl, hnew⟩ | hold
    · injection hnone
    · obtain rfl := Option.some.inj hnew
      rw [hrank a hlt, howner a hlt, Function.update_self, Function.update_self]
      exact .inr ⟨by simp, hr, rfl⟩
    · exact .inl hold
  · intro a b hab
    rw [prevOf, look_written Node.prev hlt] at hab
    rcases update_update_cases hab with ⟨rfl, hback⟩ | ⟨rfl, hsame⟩ | hold
    · obtain rfl := Option.some.inj hback
      rw [hrank p hlt, howner p hlt, Function.update_self, Function.update_self]
      exact .inr ⟨by simp; omega, hr, rfl⟩
    · exact .inl ((look_eq Node.prev hp).trans hsame)
    · exact .inl hold

/-- A node between two others. -/
theorem Graded.between (h : Graded heap rank owner) {p q : Nat} {node after : Node}
    (hp : heap[p]? = some node) (hnext : node.next = some q) (hq : heap[q]? = some after)
    (data : Int) :
    ∃ r, Graded ((heap.set q { after with prev := some heap.length }).set p
          { node with next := some heap.length }
        ++ [{ data := data, next := some q, prev := some p }])
      (Function.update rank heap.length r) (Function.update owner heap.length (owner p)) := by
  have hlt := lt_of_getElem? hp
  have hlt' := lt_of_getElem? hq
  obtain ⟨-, hclimbs, howned⟩ := h.next p q ((nextOf_eq hp).trans hnext)
  obtain ⟨r, hpr, hrq⟩ := exists_between hclimbs
  have hrank := update_same rank heap r
  have howner := update_same owner heap (owner p)
  have hlook (field : Node → Option Nat) :
      look field ((heap.set q { after with prev := some heap.length }).set p
          { node with next := some heap.length }
        ++ [{ data := data, next := some q, prev := some p }])
      = Function.update (Function.update (Function.update (look field heap) q
          (field { after with prev := some heap.length })) p
          (field { node with next := some heap.length })) heap.length
          (field { data := data, next := some q, prev := some p }) := by
    have hset := @look_written (heap.set q { after with prev := some heap.length }) _ field p
      (by rwa [List.length_set]) { node with next := some heap.length }
      { data := data, next := some q, prev := some p }
    rwa [List.length_set, look_set field hlt'] at hset
  refine ⟨r, h.extend (by simp) (fun a ha => ⟨hrank a ha, howner a ha⟩) ?_ ?_⟩
  · intro a b hab
    rw [nextOf, hlook] at hab
    rcases update_update_cases hab with ⟨rfl, hahead⟩ | ⟨rfl, hnew⟩ | hold
    · obtain rfl := Option.some.inj hahead
      rw [hrank q hlt', howner q hlt', Function.update_self, Function.update_self]
      exact .inr ⟨by simp; omega, hrq, howned⟩
    · obtain rfl := Option.some.inj hnew
      rw [hrank a hlt, howner a hlt, Function.update_self, Function.update_self]
      exact .inr ⟨by simp, hpr, rfl⟩
    · -- writing `prev` leaves the pointer of `q` as it is
      have hsame : look Node.next heap q = after.next := look_eq Node.next hq
      have hkept : Function.update (look Node.next heap) q after.next = look Node.next heap := by
        rw [← hsame, Function.update_eq_self]
      rw [hkept] at hold
      exact .inl hold
  · intro a b hab
    rw [prevOf, hlook] at hab
    rcases update_update_cases hab with ⟨rfl, hback⟩ | ⟨rfl, hsame⟩ | hold
    · obtain rfl := Option.some.inj hback
      rw [hrank p hlt, howner p hlt, Function.update_self, Function.update_self]
      exact .inr ⟨by simp; omega, hpr, rfl⟩
    · exact .inl ((look_eq Node.prev hp).trans hsame)
    · by_cases ha : a = q
      · rw [ha, Function.update_self] at hold
        obtain rfl := Option.some.inj hold
        rw [ha, hrank q hlt', howner q hlt', Function.update_self, Function.update_self]
        exact .inr ⟨by simp, hrq, howned.symm⟩
      · rw [Function.update_of_ne ha] at hold
        exact .inl hold

/-- The neighbours of a node, linked to each other. -/
theorem Graded.unlinked (h : Graded heap rank owner) {p : Nat} {node : Node}
    (hp : heap[p]? = some node) : Graded (unlinked heap node) rank owner := by
  have hnextOf : ∀ q, node.next = some q → _ := fun q hq =>
    h.next p q ((nextOf_eq hp).trans hq)
  have hprevOf : ∀ q, node.prev = some q → _ := fun q hq =>
    h.prev p q ((look_eq Node.prev hp).trans hq)
  refine h.extend (Nat.le_of_eq length_unlinked.symm) (fun _ _ => ⟨rfl, rfl⟩) ?_ ?_
  · intro a b hab
    by_cases ha : node.prev = some a
    · obtain ⟨hlt, hlow, hown⟩ := hprevOf a ha
      rw [nextOf_unlinked_self ha hlt] at hab
      obtain ⟨hlt', hhigh, hown'⟩ := hnextOf b hab
      rw [length_unlinked]
      exact .inr ⟨hlt', hlow.trans hhigh, hown'.trans hown.symm⟩
    · rw [nextOf_unlinked_ne ha] at hab
      exact .inl hab
  · intro a b hab
    by_cases ha : node.next = some a
    · obtain ⟨hlt, hhigh, hown⟩ := hnextOf a ha
      rw [prevOf_unlinked_self ha hlt] at hab
      obtain ⟨hlt', hlow, hown'⟩ := hprevOf b hab
      rw [length_unlinked]
      exact .inr ⟨hlt', hlow.trans hhigh, hown'.trans hown.symm⟩
    · rw [prevOf_unlinked_ne ha] at hab
      exact .inl hab

/-! ### The calls -/

/-- Ranks and owners for whatever is allocated, with the old ones kept. -/
def Extends (heap : NodeHeap) (owner : Nat → Nat) (heap' : NodeHeap) (owner' : Nat → Nat) : Prop :=
  heap.length ≤ heap'.length ∧ ∀ a < heap.length, owner' a = owner a

theorem Graded.insertAfter_run (h : Graded heap rank owner) {p : Nat} (hp : p < heap.length)
    (data : Int) :
    ∃ heap' rank' owner', (insertAfter (some p) data).run heap = .ok (some heap.length) heap' ∧
      Graded heap' rank' owner' ∧ Extends heap owner heap' owner' := by
  have hget : heap[p]? = some heap[p] := List.getElem?_eq_getElem hp
  cases hnext : heap[p].next with
  | none =>
      obtain ⟨r, hgraded⟩ := h.behind hget data
      exact ⟨_, _, _, insertAfter_last hget hnext data, hgraded, by simp,
        update_same owner heap (owner p)⟩
  | some q =>
      obtain ⟨hq, hclimbs, -⟩ := h.next p q ((nextOf_eq hget).trans hnext)
      have hne : q ≠ p := by
        rintro rfl
        exact lt_irrefl _ hclimbs
      have hget' : heap[q]? = some heap[q] := List.getElem?_eq_getElem hq
      obtain ⟨r, hgraded⟩ := h.between hget hnext hget' data
      exact ⟨_, _, _, insertAfter_inner hget hnext hget' hne data, hgraded, by simp,
        update_same owner heap (owner p)⟩

theorem Graded.deteleAt_run (h : Graded heap rank owner) {p : Nat} (hp : p < heap.length) :
    ∃ heap', (deteleAt (some p)).run heap = .ok true heap' ∧
      Graded heap' rank owner ∧ Extends heap owner heap' owner := by
  have hget : heap[p]? = some heap[p] := List.getElem?_eq_getElem hp
  refine ⟨_, LinkedList.deteleAt_run hget ?_ ?_, h.unlinked hget,
    Nat.le_of_eq length_unlinked.symm, fun _ _ => rfl⟩
  · intro q hq
    obtain ⟨hlt, hclimbs, -⟩ := h.next p q ((nextOf_eq hget).trans hq)
    refine ⟨hlt, ?_⟩
    rintro rfl
    exact lt_irrefl _ hclimbs
  · intro q hq
    exact (h.prev p q ((look_eq Node.prev hget).trans hq)).1

/-- The end pointers are at nodes of this owner. -/
def Ends (heap : NodeHeap) (owner : Nat → Nat) (i : Nat) (l : LinkedList) : Prop :=
  ∀ a, l.head = some a → (a < heap.length ∧ owner a = i) ∧
    ∃ t, l.tail = some t ∧ t < heap.length ∧ owner t = i

theorem Ends.extends {i : Nat} (h : Ends heap owner i l) (hext : Extends heap owner heap' owner') :
    Ends heap' owner' i l := by
  intro a ha
  obtain ⟨⟨hlt, hown⟩, t, ht, hlt', hown'⟩ := h a ha
  refine ⟨⟨Nat.lt_of_lt_of_le hlt hext.1, ?_⟩, t, ht, Nat.lt_of_lt_of_le hlt' hext.1, ?_⟩
  · rw [hext.2 a hlt, hown]
  · rw [hext.2 t hlt', hown']

theorem Graded.pushBack_run (h : Graded heap rank owner) {i : Nat} (hends : Ends heap owner i l)
    (val : Int) :
    ∃ l' heap' rank' owner', (pushBack l val).run heap = .ok l' heap' ∧
      Graded heap' rank' owner' ∧ Extends heap owner heap' owner' ∧ Ends heap' owner' i l' := by
  cases hhead : l.head with
  | none =>
      refine ⟨_, _, _, _, pushBack_empty hhead val, h.alone val i,
        ⟨by simp, update_same owner heap i⟩, ?_⟩
      intro a ha
      obtain rfl := Option.some.inj ha
      have hnew (node : Node) : heap.length < (heap ++ [node]).length := by simp
      exact ⟨⟨hnew _, Function.update_self ..⟩, heap.length, rfl, hnew _, Function.update_self ..⟩
  | some a =>
      obtain ⟨⟨hlt, hown⟩, t, ht, hlt', hown'⟩ := hends a hhead
      have hget : heap[t]? = some heap[t] := List.getElem?_eq_getElem hlt'
      obtain ⟨r, hgraded⟩ := h.behind hget val
      have hext := update_same owner heap (owner t)
      refine ⟨_, _, _, _, pushBack_tail (by simp [hhead]) ht hget val, hgraded,
        ⟨by simp, hext⟩, ?_⟩
      intro b hb
      obtain rfl : a = b := Option.some.inj (hhead.symm.trans hb)
      refine ⟨⟨by simp; omega, (hext a hlt).trans hown⟩, heap.length, rfl, by simp, ?_⟩
      rw [Function.update_self]
      exact hown'

/-! ### Whole runs -/

/-- Some lists, and the heap they share. -/
structure Lists where
  heap : NodeHeap
  lists : List LinkedList
  deriving Repr, DecidableEq

/-- No list yet. -/
def Lists.start : Lists := { heap := [], lists := [] }

/-- The calls; a list is named by its number, and a node by a pointer. -/
inductive ListOp
  | construct
  | pushBack (i : Nat) (val : Int)
  | insertAfter (node : Option Nat) (data : Int)
  | deteleAt (node : Option Nat)
  deriving Repr, DecidableEq

/-- One call. -/
def call (op : ListOp) (s : Lists) : Except Fault Lists :=
  match op with
  | .construct => .ok { s with lists := s.lists ++ [new] }
  | .pushBack i val =>
      match s.lists[i]? with
      | none => .ok s
      | some l =>
          match (LinkedList.pushBack l val).run s.heap with
          | .ok l' heap => .ok { heap := heap, lists := s.lists.set i l' }
          | .error e _ => .error e
  | .insertAfter node data =>
      match (LinkedList.insertAfter node data).run s.heap with
      | .ok _ heap => .ok { s with heap := heap }
      | .error e _ => .error e
  | .deteleAt node =>
      match (LinkedList.deteleAt node).run s.heap with
      | .ok _ heap => .ok { s with heap := heap }
      | .error e _ => .error e

/-- A pointer is null or at a node that was allocated, of whichever list, deleted or not. -/
def Pointed (s : Lists) : ListOp → Prop
  | .insertAfter (some a) _ => a < s.heap.length
  | .deteleAt (some a) => a < s.heap.length
  | _ => True

instance (s : Lists) : (op : ListOp) → Decidable (Pointed s op)
  | .construct => isTrue trivial
  | .pushBack _ _ => isTrue trivial
  | .insertAfter none _ => isTrue trivial
  | .insertAfter (some a) _ => inferInstanceAs (Decidable (a < s.heap.length))
  | .deteleAt none => isTrue trivial
  | .deteleAt (some a) => inferInstanceAs (Decidable (a < s.heap.length))

/-- Every list has its nodes to itself, in an order that its pointers follow. -/
def Untangled (s : Lists) : Prop :=
  ∃ rank owner, Graded s.heap rank owner ∧
    ∀ (i : Nat) (l : LinkedList), s.lists[i]? = some l → Ends s.heap owner i l

/-- A call that leaves the lists alone. -/
theorem untangled_of_heap {s : Lists} (hends : ∀ (i : Nat) (l : LinkedList),
      s.lists[i]? = some l → Ends s.heap owner i l)
    (hgraded : Graded heap' rank' owner') (hext : Extends s.heap owner heap' owner') :
    Untangled { s with heap := heap' } :=
  ⟨rank', owner', hgraded, fun i l hl => (hends i l hl).extends hext⟩

theorem call_untangled (op : ListOp) (s : Lists) (h : Untangled s) (hpointed : Pointed s op) :
    ∃ t, call op s = .ok t ∧ Untangled t := by
  obtain ⟨rank, owner, hgraded, hends⟩ := h
  cases op with
  | construct =>
      refine ⟨_, rfl, rank, owner, hgraded, ?_⟩
      intro i l hl
      by_cases hi : i < s.lists.length
      · rw [List.getElem?_append_left hi] at hl
        exact hends i l hl
      · -- the new list has no node
        rw [List.getElem?_append_right (Nat.le_of_not_lt hi)] at hl
        obtain rfl : l = new := List.mem_singleton.mp (List.mem_of_getElem? hl)
        intro a ha
        injection ha
  | pushBack i val =>
      cases hl : s.lists[i]? with
      | none => exact ⟨s, by rw [call, hl], rank, owner, hgraded, hends⟩
      | some l =>
          obtain ⟨l', heap', rank', owner', hrun, hgraded', hext, hends'⟩ :=
            hgraded.pushBack_run (hends i l hl) val
          refine ⟨{ heap := heap', lists := s.lists.set i l' }, ?_, rank', owner', hgraded', ?_⟩
          · simp only [call, hl, hrun]
          · intro j k hk
            by_cases hij : i = j
            · subst hij
              have hset : (s.lists.set i l')[i]? = some l' :=
                List.getElem?_set_self (List.getElem?_eq_some_iff.mp hl).1
              obtain rfl : l' = k := Option.some.inj (hset.symm.trans hk)
              exact hends'
            · rw [List.getElem?_set_ne hij] at hk
              exact (hends j k hk).extends hext
  | insertAfter node data =>
      cases node with
      | none => exact ⟨s, rfl, rank, owner, hgraded, hends⟩
      | some a =>
          obtain ⟨heap', rank', owner', hrun, hgraded', hext⟩ :=
            hgraded.insertAfter_run hpointed data
          exact ⟨{ s with heap := heap' }, by simp only [call, hrun],
            untangled_of_heap hends hgraded' hext⟩
  | deteleAt node =>
      cases node with
      | none => exact ⟨s, rfl, rank, owner, hgraded, hends⟩
      | some a =>
          obtain ⟨heap', hrun, hgraded', hext⟩ := hgraded.deteleAt_run hpointed
          exact ⟨{ s with heap := heap' }, by simp only [call, hrun],
            untangled_of_heap hends hgraded' hext⟩

theorem untangled_start : Untangled .start := by
  refine ⟨fun _ => 0, fun _ => 0, ⟨?_, ?_⟩, ?_⟩
  · intro a b hab
    injection hab
  · intro a b hab
    injection hab
  · intro i l hl
    injection hl

/-- Every walk ends, and no two lists have a node in common. -/
structure Separate (s : Lists) : Prop where
  walks : ∀ l ∈ s.lists, ∃ nodes, nodes.Nodup ∧ Walks s.heap l nodes
  apart : ∀ (i j : Nat) (l l' : LinkedList) (nodes nodes' : List Nat), i ≠ j →
    s.lists[i]? = some l → s.lists[j]? = some l' →
    Walks s.heap l nodes → Walks s.heap l' nodes' → nodes.Disjoint nodes'
  /-- All destructors get through, and free no node twice. -/
  destroyed : ∃ freed, freed.Nodup ∧
    (destroyAll s.lists).run { heap := s.heap } = .ok () { heap := s.heap, freed := freed }

/-- Whose nodes are apart can be destroyed. -/
theorem exists_destroyed {s : Lists}
    (hwalks : ∀ l ∈ s.lists, ∃ nodes, nodes.Nodup ∧ Walks s.heap l nodes)
    (hapart : ∀ (i j : Nat) (l l' : LinkedList) (nodes nodes' : List Nat), i ≠ j →
      s.lists[i]? = some l → s.lists[j]? = some l' →
      Walks s.heap l nodes → Walks s.heap l' nodes' → nodes.Disjoint nodes') :
    ∃ freed, freed.Nodup ∧
      (destroyAll s.lists).run { heap := s.heap } = .ok () { heap := s.heap, freed := freed } := by
  choose! nodesOf hnodes using hwalks
  have hpairwise : s.lists.Pairwise fun l l' => (nodesOf l).Disjoint (nodesOf l') := by
    rw [List.pairwise_iff_getElem]
    intro i j hi hj hlt
    exact hapart i j _ _ _ _ (Nat.ne_of_lt hlt) (List.getElem?_eq_getElem hi)
      (List.getElem?_eq_getElem hj) (hnodes _ (List.getElem_mem hi)).2
      (hnodes _ (List.getElem_mem hj)).2
  refine ⟨s.lists.flatMap nodesOf, ?_, ?_⟩
  · exact List.nodup_flatMap.mpr ⟨fun l hl => (hnodes l hl).1, hpairwise⟩
  · exact destroyAll_run s.lists [] (fun l hl => (hnodes l hl).2) hpairwise
      fun l _ => List.disjoint_nil_right _

theorem Untangled.separate {s : Lists} (h : Untangled s) : Separate s := by
  obtain ⟨rank, owner, hgraded, hends⟩ := h
  have hwalks : ∀ l ∈ s.lists, ∃ nodes, nodes.Nodup ∧ Walks s.heap l nodes := by
    intro l hl
    obtain ⟨i, hi⟩ := List.mem_iff_getElem?.mp hl
    have hstep : ∀ a b, nextOf s.heap a = some b →
        b ∈ Finset.range s.heap.length ∧ rank a < rank b := by
      intro a b hab
      obtain ⟨hb, hrank, -⟩ := hgraded.next a b hab
      exact ⟨Finset.mem_range.mpr hb, hrank⟩
    obtain ⟨nodes, hchain, hsorted⟩ := exists_chain hstep l.head
    have hnodup : nodes.Nodup := by
      refine hsorted.imp ?_
      intro a b hlt heq
      rw [heq] at hlt
      exact lt_irrefl _ hlt
    refine ⟨nodes, hnodup, walks_of_chain hchain hnodup ?_⟩
    exact hchain.forall_mem (fun a b hab _ => (hgraded.next a b hab).1)
      (fun a ha => (hends i l hi a ha).1.1)
  have hapart : ∀ (i j : Nat) (l l' : LinkedList) (nodes nodes' : List Nat), i ≠ j →
      s.lists[i]? = some l → s.lists[j]? = some l' →
      Walks s.heap l nodes → Walks s.heap l' nodes' → nodes.Disjoint nodes' := by
    intro i j l l' nodes nodes' hij hl hl' hwalk hwalk' a ha ha'
    have howner (k : Nat) (m : LinkedList) (ns : List Nat) (hm : s.lists[k]? = some m)
        (hchain : Chain (nextOf s.heap) m.front ns) : ∀ b ∈ ns, owner b = k :=
      hchain.forall_mem (fun b c hbc hb => (hgraded.next b c hbc).2.2.trans hb)
        (fun b hb => (hends k m hm b hb).1.2)
    exact hij ((howner i l nodes hl hwalk.chain a ha).symm.trans
      (howner j l' nodes' hl' hwalk'.chain a ha'))
  exact ⟨hwalks, hapart, exists_destroyed hwalks hapart⟩

/--
**No calls of `PushBack`, `InsertAfter` and `DeteleAt` make a list go in circles**, whatever
nodes they are given.  No call dereferences a null pointer.  `Search`, `Display` and the
destructor of every list come to their end, and all destructors together free no node twice.
-/
theorem lists_never_circle (ops : List ListOp)
    (hpointed : Guarded call Pointed .start ops) :
    ∃ s, machineRun call .start ops = .ok s ∧ Separate s := by
  obtain ⟨s, hrun, huntangled⟩ := hpointed.invariant call_untangled untangled_start
  exact ⟨s, hrun, huntangled.separate⟩

/-- A node of a list is deleted, and what is inserted behind it is in another list. -/
def strayInserts : List ListOp :=
  [.construct, .construct, .pushBack 0 1, .pushBack 0 2, .pushBack 1 3, .deteleAt (some 0),
    .deteleAt (some 1), .insertAfter (some 1) 4, .insertAfter (some 2) 5, .deteleAt (some 1)]

theorem lists_never_circle_stray :
    ∃ s, machineRun call .start strayInserts = .ok s ∧ Separate s := by
  refine lists_never_circle strayInserts ?_
  refine .cons trivial rfl (.cons trivial rfl (.cons trivial rfl (.cons trivial rfl
    (.cons trivial rfl (.cons ?_ rfl (.cons ?_ rfl (.cons ?_ rfl (.cons ?_ rfl
      (.cons ?_ rfl .nil)))))))))
  all_goals decide

/-! ### `Union` -/

/-- The heap after `Union`. -/
def united (heap : NodeHeap) (l1 l2 : LinkedList) : NodeHeap :=
  rewire (rewire heap l1.tail fun n => { n with next := l2.head }) l2.head
    fun n => { n with prev := l1.tail }

theorem union_run {l1 l2 : LinkedList} {t b : Nat} (ht : l1.tail = some t) (hb : l2.head = some b)
    (htail : t < heap.length) (hhead : b < heap.length) :
    (union (some l1) (some l2)).run heap = .ok () (united heap l1 l2) := by
  rw [union, back, ht, front, hb, Call.run_bind_ok (store_run htail _),
    store_run (by simpa using hhead), united, ht, hb]

theorem dataOf_united (l1 l2 : LinkedList) : dataOf (united heap l1 l2) = dataOf heap := by
  rw [dataOf, united, look_rewire_same, look_rewire_same]
  · rfl
  · exact fun _ => rfl
  · exact fun _ => rfl

theorem nextOf_united {l1 l2 : LinkedList} {t : Nat} (ht : l1.tail = some t)
    (htail : t < heap.length) :
    nextOf (united heap l1 l2) = Function.update (nextOf heap) t l2.head := by
  have hkept : nextOf (united heap l1 l2)
      = look Node.next (rewire heap l1.tail fun n => { n with next := l2.head }) := by
    rw [nextOf, united, look_rewire_same]
    exact fun _ => rfl
  rw [hkept]
  funext a
  by_cases ha : a = t
  · rw [ha, Function.update_self, look_rewire_self Node.next _ ht htail]
  · have hne : l1.tail ≠ some a := by
      rw [ht]
      exact fun heq => ha (Option.some.inj heq).symm
    rw [Function.update_of_ne ha, look_rewire_ne _ _ hne]
    rfl

variable {xs ys : List (Nat × Int)}

/-- The last node of a list that is not empty. -/
theorem WellFormed.exists_tail (h : WellFormed heap l xs) (hne : xs ≠ []) :
    ∃ before t, xs.map Prod.fst = before ++ [t] ∧ l.tail = some t ∧ t < heap.length := by
  have hrep := h.represents
  rcases List.eq_nil_or_concat (xs.map Prod.fst) with hnil | ⟨before, t, hlast⟩
  · exact absurd (List.map_eq_nil_iff.mp hnil) hne
  · rw [List.concat_eq_append] at hlast
    refine ⟨before, t, hlast, ?_, hrep.shape.lt_length ?_⟩
    · rw [hrep.tail, hlast, List.getLast?_concat]
    · rw [hlast]
      exact List.mem_append_right _ List.mem_cons_self

theorem WellFormed.exists_head (h : WellFormed heap l xs) (hne : xs ≠ []) :
    ∃ b, l.head = some b ∧ b ∈ xs.map Prod.fst ∧ b < heap.length := by
  have hrep := h.represents
  obtain ⟨e, rest, rfl⟩ := List.exists_cons_of_ne_nil hne
  exact ⟨e.1, hrep.head, List.mem_cons_self, hrep.shape.lt_length List.mem_cons_self⟩

/--
**After `Union` both lists go on to the nodes of the second one.**  The destructor that comes
first gets through; the other one frees what is left, and reads a node that was freed.
-/
theorem union_shares_nodes {l1 l2 : LinkedList} (h1 : WellFormed heap l1 xs)
    (h2 : WellFormed heap l2 ys) (hdisjoint : (xs.map Prod.fst).Disjoint (ys.map Prod.fst))
    (hxs : xs ≠ []) (hys : ys ≠ []) :
    ∃ heap', (union (some l1) (some l2)).run heap = .ok () heap' ∧
      Walks heap' l1 ((xs ++ ys).map Prod.fst) ∧ Walks heap' l2 (ys.map Prod.fst) ∧
      (destroyAll [l1, l2]).run { heap := heap' } = .error (.undefined .outOfBounds)
        { heap := heap', freed := (xs ++ ys).map Prod.fst } ∧
      (destroyAll [l2, l1]).run { heap := heap' } = .error (.undefined .outOfBounds)
        { heap := heap', freed := (ys ++ xs).map Prod.fst } := by
  obtain ⟨before, t, hlast, ht, htail⟩ := h1.exists_tail hxs
  obtain ⟨b, hb, hbmem, hhead⟩ := h2.exists_head hys
  have hnext := @nextOf_united _ l1 l2 t ht htail
  have hmem : t ∈ xs.map Prod.fst := by
    rw [hlast]
    exact List.mem_append_right _ List.mem_cons_self
  have hsecond : Chain (nextOf (united heap l1 l2)) l2.head (ys.map Prod.fst) := by
    refine h2.forward.congr ?_
    intro a ha
    rw [hnext, Function.update_of_ne]
    rintro rfl
    exact hdisjoint hmem ha
  have hchain : Chain (nextOf heap) l1.head (before ++ [t]) := hlast ▸ h1.forward
  have hkept : ∀ a ∈ before, nextOf (united heap l1 l2) a = nextOf heap a := by
    have hdistinct : (before ++ [t]).Nodup := hlast ▸ h1.acyclic
    intro a ha
    rw [hnext, Function.update_of_ne]
    rintro rfl
    exact (List.nodup_append.mp hdistinct).2.2 a ha a List.mem_cons_self rfl
  have hfirst : Chain (nextOf (united heap l1 l2)) l1.head ((xs ++ ys).map Prod.fst) := by
    rw [List.map_append, hlast, List.append_assoc]
    refine hchain.append hkept ?_
    rw [hnext, Function.update_self, ← hnext]
    exact hsecond
  have hlength : (united heap l1 l2).length = heap.length := by
    rw [united, length_rewire, length_rewire]
  have halloc1 : ∀ a ∈ xs.map Prod.fst, a < (united heap l1 l2).length := fun a ha =>
    hlength.symm ▸ h1.represents.shape.lt_length ha
  have halloc2 : ∀ a ∈ ys.map Prod.fst, a < (united heap l1 l2).length := fun a ha =>
    hlength.symm ▸ h2.represents.shape.lt_length ha
  have hwalks1 : Walks (united heap l1 l2) l1 ((xs ++ ys).map Prod.fst) := by
    rw [List.map_append] at hfirst ⊢
    refine walks_of_chain hfirst (List.Nodup.append h1.acyclic h2.acyclic hdisjoint) ?_
    exact fun a ha => (List.mem_append.mp ha).elim (halloc1 a) (halloc2 a)
  have hwalks2 := walks_of_chain hsecond h2.acyclic halloc2
  refine ⟨_, union_run ht hb htail hhead, hwalks1, hwalks2, ?_, ?_⟩
  · -- the first destructor has freed the second list, too
    have hfreed : b ∈ [] ++ (xs ++ ys).map Prod.fst := by
      rw [List.nil_append, List.map_append]
      exact List.mem_append_right _ hbmem
    rw [destroyAll, Call.run_bind_ok (hwalks1.destroy [] (List.disjoint_nil_right _)), destroyAll,
      Call.run_bind_error (destroy_freed hb hfreed)]
    rfl
  · -- the second one gets to the end of the first list and finds the other one freed
    have hpath : Path (nextOf (united heap l1 l2)) l1.head (xs.map Prod.fst) (some b) := by
      have hredirect := hchain.redirect hkept
      have hgoesOn : nextOf (united heap l1 l2) t = some b := by
        rw [hnext, Function.update_self, hb]
      rwa [hgoesOn, ← hlast] at hredirect
    have hunfreed : (xs.map Prod.fst).Disjoint ([] ++ ys.map Prod.fst) := by
      rwa [List.nil_append]
    obtain ⟨fuel, hrun⟩ := destroy_path hpath halloc1 h1.acyclic hunfreed
    have hfreed : b ∈ [] ++ ys.map Prod.fst ++ xs.map Prod.fst :=
      List.mem_append_left _ hbmem
    rw [deleteFrom_freed hfreed] at hrun
    rw [destroyAll, Call.run_bind_ok (hwalks2.destroy [] (List.disjoint_nil_right _)), destroyAll,
      Call.run_bind_error hrun, List.map_append, List.nil_append]

theorem union_shares_nodes_two :
    ∃ heap', (union (some ⟨some 0, some 0⟩) (some ⟨some 1, some 1⟩)).run twoLists
        = .ok () heap' ∧
      Walks heap' ⟨some 0, some 0⟩ [0, 1] ∧ Walks heap' ⟨some 1, some 1⟩ [1] ∧
      (destroyAll [⟨some 0, some 0⟩, ⟨some 1, some 1⟩]).run { heap := heap' }
        = .error (.undefined .outOfBounds) { heap := heap', freed := [0, 1] } ∧
      (destroyAll [⟨some 1, some 1⟩, ⟨some 0, some 0⟩]).run { heap := heap' }
        = .error (.undefined .outOfBounds) { heap := heap', freed := [1, 0] } :=
  union_shares_nodes twoLists_wellFormed.1 twoLists_wellFormed.2 (by simp) (by simp) (by simp)

section
variable {p : Nat} {val : Int}

/-- Nodes that lead to each other for ever. -/
def Circles (heap : NodeHeap) (nodes : List Nat) : Prop :=
  ∀ a ∈ nodes, a < heap.length ∧ ∃ b ∈ nodes, nextOf heap a = some b

theorem displayFrom_circles (h : Circles heap nodes) (fuel : Nat) :
    ∀ a ∈ nodes, (displayFrom fuel (some a)).run heap = .error .outOfFuel heap := by
  induction fuel with
  | zero => exact fun _ _ => rfl
  | succ fuel ih =>
      intro a ha
      obtain ⟨hlt, b, hb, hnext⟩ := h a ha
      have hget : heap[a]? = some heap[a] := List.getElem?_eq_getElem hlt
      rw [nextOf_eq hget] at hnext
      rw [displayFrom, if_neg (by simp), Call.run_bind_ok (load_run hget), hnext,
        Call.run_bind_error (ih b hb)]

theorem searchFrom_circles (h : Circles heap nodes)
    (habsent : ∀ a ∈ nodes, dataOf heap a ≠ some val) (fuel : Nat) :
    ∀ a ∈ nodes, (searchFrom val fuel (some a)).run heap = .error .outOfFuel heap := by
  induction fuel with
  | zero => exact fun _ _ => rfl
  | succ fuel ih =>
      intro a ha
      obtain ⟨hlt, b, hb, hnext⟩ := h a ha
      have hget : heap[a]? = some heap[a] := List.getElem?_eq_getElem hlt
      have hdata : heap[a].data ≠ val := by
        have hother := habsent a ha
        rw [dataOf, look_eq _ hget] at hother
        exact fun heq => hother (congrArg some heq)
      rw [nextOf_eq hget] at hnext
      rw [searchFrom, if_neg (by simp), Call.run_bind_ok (load_run hget), if_neg hdata, hnext]
      exact ih b hb

end

/--
**A list that is united with itself goes in circles**: `Display` does not come to an end, and
neither does `Search` for a value that is not in it.  The destructor frees every node once, and
then reads the first one again.
-/
theorem union_self_circles (h : WellFormed heap l xs) (hne : xs ≠ []) :
    ∃ heap', (union (some l) (some l)).run heap = .ok () heap' ∧
      (∀ fuel, (displayFrom fuel l.front).run heap' = .error .outOfFuel heap' ∧
        ∀ val, val ∉ xs.map Prod.snd →
          (searchFrom val fuel l.front).run heap' = .error .outOfFuel heap') ∧
      (destroy l).run { heap := heap' } = .error (.undefined .outOfBounds)
        { heap := heap', freed := xs.map Prod.fst } := by
  obtain ⟨before, t, hlast, ht, htail⟩ := h.exists_tail hne
  obtain ⟨b, hb, hmem, hhead⟩ := h.exists_head hne
  have hnext := @nextOf_united _ l l t ht htail
  have hlength : (united heap l l).length = heap.length := by
    rw [united, length_rewire, length_rewire]
  have halloc : ∀ a ∈ xs.map Prod.fst, a < (united heap l l).length := fun a ha =>
    hlength.symm ▸ h.represents.shape.lt_length ha
  have hchain : Chain (nextOf heap) l.head (before ++ [t]) := hlast ▸ h.forward
  have hcircles : Circles (united heap l l) (xs.map Prod.fst) := by
    intro a ha
    refine ⟨halloc a ha, ?_⟩
    rw [hnext]
    by_cases hat : a = t
    · exact ⟨b, hmem, by rw [hat, Function.update_self, hb]⟩
    · rw [hlast] at ha ⊢
      have hinner : a ∈ before := by
        refine (List.mem_append.mp ha).resolve_right ?_
        exact fun hsame => hat (List.mem_singleton.mp hsame)
      rw [Function.update_of_ne hat]
      exact hchain.next_mem a hinner
  refine ⟨_, union_run ht hb htail hhead, fun fuel => ?_, ?_⟩
  · rw [front, hb]
    refine ⟨displayFrom_circles hcircles fuel b hmem, ?_⟩
    intro val hval
    refine searchFrom_circles hcircles ?_ fuel b hmem
    intro a ha heq
    obtain ⟨e, he, rfl⟩ := List.mem_map.mp ha
    rw [dataOf_united, h.values e he] at heq
    exact hval (Option.some.inj heq ▸ List.mem_map_of_mem he)
  · -- one lap, back to the first node
    have hkept : ∀ a ∈ before, nextOf (united heap l l) a = nextOf heap a := by
      have hdistinct : (before ++ [t]).Nodup := hlast ▸ h.acyclic
      intro a ha
      rw [hnext, Function.update_of_ne]
      rintro rfl
      exact (List.nodup_append.mp hdistinct).2.2 a ha a List.mem_cons_self rfl
    have hpath : Path (nextOf (united heap l l)) l.head (xs.map Prod.fst) (some b) := by
      have hredirect := hchain.redirect hkept
      have hback : nextOf (united heap l l) t = some b := by
        rw [hnext, Function.update_self, hb]
      rwa [hback, ← hlast] at hredirect
    have hunfreed : (xs.map Prod.fst).Disjoint [] := List.disjoint_nil_right _
    obtain ⟨fuel, hrun⟩ := destroy_path hpath halloc h.acyclic hunfreed
    rw [List.nil_append, deleteFrom_freed hmem] at hrun
    exact hrun

theorem union_self_circles_three :
    ∃ heap', (union (some ⟨some 0, some 2⟩) (some ⟨some 0, some 2⟩)).run threeNodes
        = .ok () heap' ∧
      (∀ fuel, (displayFrom fuel (some 0)).run heap' = .error .outOfFuel heap' ∧
        ∀ val, val ∉ [5, 10, 15] →
          (searchFrom val fuel (some 0)).run heap' = .error .outOfFuel heap') ∧
      (destroy ⟨some 0, some 2⟩).run { heap := heap' } = .error (.undefined .outOfBounds)
        { heap := heap', freed := [0, 1, 2] } :=
  union_self_circles threeNodes_wellFormed (by simp)

end LinkedList

end Technopark
