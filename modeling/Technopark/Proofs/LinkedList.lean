/-
What `PushBack` and `InsertAfter` keep of a `LinkedList`.

`Represents` is the shape: the nodes of the list, in order, are linked to their
neighbours and the end pointers are at the ends.  `PushBack` keeps it.  `InsertAfter`
keeps the links whatever node it is given, but it never moves `tail_`, so it keeps
the shape exactly when the node is not the last one.
-/
import Technopark.Containers.LinkedList
import Technopark.Lib.Chain
import Mathlib.Data.List.Nodup
import Mathlib.Logic.Function.Basic

namespace Technopark

/-! ### Reading a node's fields -/

namespace NodeHeap

variable {β : Type} {heap : NodeHeap} {a : Nat} {node : Node}

/-- A field of the node at an address. -/
def look (field : Node → Option β) (heap : NodeHeap) (a : Nat) : Option β := heap[a]?.bind field

/-- The `next` pointers. -/
def nextOf (heap : NodeHeap) : Nat → Option Nat := look Node.next heap

/-- The `prev` pointers. -/
def prevOf (heap : NodeHeap) : Nat → Option Nat := look Node.prev heap

/-- The data. -/
def dataOf (heap : NodeHeap) : Nat → Option Int := look (fun n => some n.data) heap

theorem look_append (field : Node → Option β) (heap : NodeHeap) (node : Node) :
    look field (heap ++ [node]) = Function.update (look field heap) heap.length (field node) := by
  funext a
  rcases Nat.lt_trichotomy a heap.length with h | rfl | h
  · rw [Function.update_of_ne (Nat.ne_of_lt h), look, List.getElem?_append_left h, look]
  · rw [Function.update_self, look, List.getElem?_concat_length]
    rfl
  · rw [Function.update_of_ne (Nat.ne_of_gt h), look, look, List.getElem?_eq_none (by simp; omega),
      List.getElem?_eq_none (by omega)]

theorem look_set (field : Node → Option β) (h : a < heap.length) (node : Node) :
    look field (heap.set a node) = Function.update (look field heap) a (field node) := by
  funext b
  by_cases hb : b = a
  · subst hb
    rw [Function.update_self, look, List.getElem?_set_self h]
    rfl
  · rw [Function.update_of_ne hb, look, List.getElem?_set_ne (Ne.symm hb), look]

theorem look_eq (field : Node → Option β) (h : heap[a]? = some node) :
    look field heap a = field node := by
  rw [look, h]
  rfl

theorem lt_of_getElem? (h : heap[a]? = some node) : a < heap.length :=
  (List.getElem?_eq_some_iff.mp h).1

/-- Writing to the node just allocated. -/
theorem store_new (h : a = heap.length) (node : Node) (f : Node → Node) :
    (store (some a) f).run (heap ++ [node]) = .ok () (heap ++ [f node]) := by
  subst h
  simp [store]

/-- Writing to a node that was there before. -/
theorem store_old (h : heap[a]? = some node) (last : Node) (f : Node → Node) :
    (store (some a) f).run (heap ++ [last]) = .ok () (heap.set a (f node) ++ [last]) := by
  have hlt := lt_of_getElem? h
  have hget : (heap ++ [last])[a]? = some node := by rw [List.getElem?_append_left hlt, h]
  simp [store, hget, hlt]

theorem load_old (h : heap[a]? = some node) (last : Node) :
    (load (some a)).run (heap ++ [last]) = .ok node (heap ++ [last]) := by
  have hget : (heap ++ [last])[a]? = some node := by
    rw [List.getElem?_append_left (lt_of_getElem? h), h]
  simp [load, hget]

theorem newNode_run (heap : NodeHeap) :
    newNode.run heap
      = .ok heap.length (heap ++ [({ data := 0, next := none, prev := none } : Node)]) := rfl

end NodeHeap

open NodeHeap

namespace LinkedList

variable {heap : NodeHeap} {l : LinkedList}

/-! ### The calls -/

/-- `PushBack` on an empty list. -/
theorem pushBack_empty (h : l.head = none) (val : Int) :
    (pushBack l val).run heap = .ok { head := some heap.length, tail := some heap.length }
      (heap ++ [{ data := val, next := none, prev := none }]) := by
  rw [pushBack, Call.run_bind_ok (newNode_run heap), Call.run_bind_ok (store_new rfl _ _),
    Call.run_bind_ok (store_new rfl _ _), Call.run_bind_ok (store_new rfl _ _), if_pos h]
  rfl

/-- `PushBack` behind the node `tail_` points to. -/
theorem pushBack_tail (h : l.head ≠ none) {t : Nat} (ht : l.tail = some t) {last : Node}
    (hlast : heap[t]? = some last) (val : Int) :
    (pushBack l val).run heap = .ok { l with tail := some heap.length }
      (heap.set t { last with next := some heap.length }
        ++ [{ data := val, next := none, prev := some t }]) := by
  rw [pushBack, Call.run_bind_ok (newNode_run heap), Call.run_bind_ok (store_new rfl _ _),
    Call.run_bind_ok (store_new rfl _ _), Call.run_bind_ok (store_new rfl _ _), if_neg h, ht,
    Call.run_bind_ok (store_old hlast _ _), Call.run_bind_ok (store_new (by simp) _ _)]
  rfl

/-- `InsertAfter` a node that has no next one. -/
theorem insertAfter_last {p : Nat} {node : Node} (hp : heap[p]? = some node)
    (hnext : node.next = none) (data : Int) :
    (insertAfter (some p) data).run heap = .ok (some heap.length)
      (heap.set p { node with next := some heap.length }
        ++ [{ data := data, next := none, prev := some p }]) := by
  rw [insertAfter, if_neg (by simp), Call.run_bind_ok (newNode_run heap),
    Call.run_bind_ok (store_new rfl _ _), Call.run_bind_ok (store_new rfl _ _),
    Call.run_bind_ok (load_old hp _), Call.run_bind_ok (store_new rfl _ _)]
  simp only [hnext, ne_eq, not_true_eq_false, if_false]
  rw [Call.run_bind_ok (store_old hp _ _)]
  rfl

/-- `InsertAfter` a node that has one. -/
theorem insertAfter_inner {p q : Nat} {node after : Node} (hp : heap[p]? = some node)
    (hnext : node.next = some q) (hq : heap[q]? = some after) (hne : q ≠ p) (data : Int) :
    (insertAfter (some p) data).run heap = .ok (some heap.length)
      ((heap.set q { after with prev := some heap.length }).set p
          { node with next := some heap.length }
        ++ [{ data := data, next := some q, prev := some p }]) := by
  have hp' : (heap.set q { after with prev := some heap.length })[p]? = some node := by
    rw [List.getElem?_set_ne hne, hp]
  rw [insertAfter, if_neg (by simp), Call.run_bind_ok (newNode_run heap),
    Call.run_bind_ok (store_new rfl _ _), Call.run_bind_ok (store_new rfl _ _),
    Call.run_bind_ok (load_old hp _), Call.run_bind_ok (store_new rfl _ _)]
  simp only [hnext, ne_eq, reduceCtorEq, not_false_eq_true, if_true]
  rw [Call.run_bind_ok (store_old hq _ _), Call.run_bind_ok (store_old hp' _ _)]
  rfl

/-! ### The shape of a list -/

/-- The nodes `ref`, as address and value, are linked to their neighbours. -/
structure Shape (heap : NodeHeap) (ref : List (Nat × Int)) : Prop where
  linked : Linked (nextOf heap) (prevOf heap) none (ref.map Prod.fst) none
  nodup : (ref.map Prod.fst).Nodup
  allocated : ∀ e ∈ ref, e.1 < heap.length
  values : ∀ e ∈ ref, dataOf heap e.1 = some e.2

/-- The list consists of the nodes `ref`. -/
structure Represents (heap : NodeHeap) (l : LinkedList) (ref : List (Nat × Int)) : Prop where
  shape : Shape heap ref
  head : l.head = (ref.map Prod.fst).head?
  tail : l.tail = (ref.map Prod.fst).getLast?

namespace Shape

variable {xs ys : List (Nat × Int)} {p : Nat} {v : Int}

theorem getElem? (h : Shape heap (xs ++ (p, v) :: ys)) : ∃ node, heap[p]? = some node :=
  ⟨_, List.getElem?_eq_getElem (h.allocated (p, v) (by simp))⟩

/-- What a node of the list points to. -/
theorem next_eq (h : Shape heap (xs ++ (p, v) :: ys)) :
    nextOf heap p = (ys.map Prod.fst).head? := by
  have hlinked := h.linked
  rw [List.map_append, List.map_cons, linked_append] at hlinked
  obtain ⟨-, -, hnext, -⟩ := hlinked
  rwa [Option.or_none] at hnext

/-- The node allocated next is not one of the list. -/
theorem ne_new {ref : List (Nat × Int)} (h : Shape heap ref) {b : Nat} (hb : b ∈ ref.map Prod.fst) :
    b ≠ heap.length := by
  obtain ⟨e, he, rfl⟩ := List.mem_map.mp hb
  exact Nat.ne_of_lt (h.allocated e he)

/-- A node behind `p`: what has to have been written. -/
theorem insert (h : Shape heap (xs ++ (p, v) :: ys)) {heap' : NodeHeap} {data : Int}
    (hlen : heap'.length = heap.length + 1)
    (hnext : nextOf heap' = Function.update (Function.update (nextOf heap) p (some heap.length))
      heap.length (ys.map Prod.fst).head?)
    (hdata : dataOf heap' = Function.update (dataOf heap) heap.length (some data))
    (hprev : ∀ b ∈ xs.map Prod.fst ++ p :: (ys.map Prod.fst).tail, prevOf heap' b = prevOf heap b)
    (hprev_new : prevOf heap' heap.length = some p)
    (hprev_next : ∀ b ∈ (ys.map Prod.fst).head?, prevOf heap' b = some heap.length) :
    Shape heap' (xs ++ (p, v) :: (heap.length, data) :: ys) := by
  have hperm : (xs ++ (p, v) :: (heap.length, data) :: ys).Perm
      ((heap.length, data) :: (xs ++ (p, v) :: ys)) := by
    have hmiddle : (xs ++ [(p, v)] ++ (heap.length, data) :: ys).Perm
        ((heap.length, data) :: (xs ++ [(p, v)] ++ ys)) := List.perm_middle
    rwa [List.append_assoc, List.append_assoc] at hmiddle
  have hnodup := h.nodup
  rw [List.map_append, List.map_cons, List.nodup_middle, ← List.map_append] at hnodup
  refine ⟨?_, ?_, ?_, ?_⟩
  · have hlinked := h.linked
    rw [List.map_append, List.map_cons] at hlinked ⊢
    refine hlinked.insert ?_ ?_ ?_ hprev hprev_new hprev_next
    · intro b hb
      have hbp : b ≠ p := by
        intro heq
        subst heq
        rw [← List.map_append] at hb
        exact (List.nodup_cons.mp hnodup).1 hb
      have hmem : b ∈ (xs ++ (p, v) :: ys).map Prod.fst := by
        rw [List.map_append, List.map_cons]
        exact ((List.sublist_cons_self p _).append_left _).subset hb
      rw [hnext, Function.update_of_ne (h.ne_new hmem), Function.update_of_ne hbp]
    · rw [hnext, Function.update_of_ne (h.ne_new (by simp)), Function.update_self]
    · rw [hnext, Function.update_self, Option.or_none]
  · rw [(hperm.map Prod.fst).nodup_iff, List.map_cons]
    exact List.nodup_cons.mpr ⟨fun hmem => h.ne_new hmem rfl, h.nodup⟩
  · intro e he
    rw [hlen]
    rcases List.mem_cons.mp (hperm.mem_iff.mp he) with rfl | he
    · exact Nat.lt_succ_self _
    · exact Nat.lt_succ_of_lt (h.allocated e he)
  · intro e he
    rw [hdata]
    rcases List.mem_cons.mp (hperm.mem_iff.mp he) with rfl | he
    · exact Function.update_self ..
    · rw [Function.update_of_ne (h.ne_new (List.mem_map_of_mem he))]
      exact h.values e he

/-- A node at the end, as both calls write it. -/
theorem insert_last (h : Shape heap (xs ++ [(p, v)])) {node : Node} (hp : heap[p]? = some node)
    (data : Int) :
    Shape (heap.set p { node with next := some heap.length }
        ++ [{ data := data, next := none, prev := some p }])
      (xs ++ [(p, v), (heap.length, data)]) := by
  have hlt := lt_of_getElem? hp
  have hlook : ∀ {β : Type} (field : Node → Option β),
      look field (heap.set p { node with next := some heap.length }
        ++ [{ data := data, next := none, prev := some p }])
      = Function.update (Function.update (look field heap) p
          (field { node with next := some heap.length })) heap.length
          (field { data := data, next := none, prev := some p }) := by
    intro β field
    rw [look_append, look_set field hlt, List.length_set]
  refine h.insert (by simp) (hlook Node.next) ?_ ?_ ?_ (by simp)
  · rw [dataOf, hlook, ← look_eq (fun n => some n.data) hp, Function.update_eq_self]
    rfl
  · intro b hb
    have hne : b ≠ heap.length := h.ne_new (by simpa using hb)
    rw [prevOf, hlook, Function.update_of_ne hne, ← look_eq Node.prev hp, Function.update_eq_self]
    rfl
  · rw [prevOf, hlook, Function.update_self]

/-- The second of two nodes in a row is at no other place of the list. -/
theorem once {q : Nat} {u : Int} {zs : List (Nat × Int)}
    (h : Shape heap (xs ++ (p, v) :: (q, u) :: zs)) :
    q ∉ xs.map Prod.fst ++ p :: zs.map Prod.fst := by
  have hnodup := h.nodup
  rw [List.map_append, List.map_cons, List.map_cons, List.append_cons, List.nodup_middle,
    List.append_assoc] at hnodup
  exact (List.nodup_cons.mp hnodup).1

/-- A node between two others. -/
theorem insert_inner {q : Nat} {u : Int} {zs : List (Nat × Int)}
    (h : Shape heap (xs ++ (p, v) :: (q, u) :: zs)) {node after : Node}
    (hp : heap[p]? = some node) (hq : heap[q]? = some after) (data : Int) :
    Shape ((heap.set q { after with prev := some heap.length }).set p
          { node with next := some heap.length }
        ++ [{ data := data, next := some q, prev := some p }])
      (xs ++ (p, v) :: (heap.length, data) :: (q, u) :: zs) := by
  have hlook : ∀ {β : Type} (field : Node → Option β),
      look field ((heap.set q { after with prev := some heap.length }).set p
          { node with next := some heap.length }
        ++ [{ data := data, next := some q, prev := some p }])
      = Function.update (Function.update (Function.update (look field heap) q
          (field { after with prev := some heap.length })) p
          (field { node with next := some heap.length })) heap.length
          (field { data := data, next := some q, prev := some p }) := by
    intro β field
    rw [look_append, look_set field (by simpa using lt_of_getElem? hp),
      look_set field (lt_of_getElem? hq), List.length_set, List.length_set]
  have hqp : q ≠ p := by
    intro heq
    subst heq
    exact h.once (by simp)
  have hq_new : q ≠ heap.length := Nat.ne_of_lt (lt_of_getElem? hq)
  -- writing `prev` leaves the other fields of `q` as they are, and the same at `p`
  have hsame_q : ∀ {β : Type} (field : Node → Option β),
      field { after with prev := some heap.length } = field after →
      Function.update (look field heap) q (field { after with prev := some heap.length })
        = look field heap := by
    intro β field heq
    rw [heq, ← look_eq field hq, Function.update_eq_self]
  refine h.insert (by simp) ?_ ?_ ?_ ?_ ?_
  · rw [nextOf, hlook, hsame_q Node.next rfl]
    rfl
  · rw [dataOf, hlook, hsame_q (fun n => some n.data) rfl,
      ← look_eq (fun n => some n.data) hp, Function.update_eq_self]
    rfl
  · intro b hb
    have hmem : b ∈ xs.map Prod.fst ++ p :: zs.map Prod.fst := by simpa using hb
    have hb_new : b ≠ heap.length := by
      refine h.ne_new ?_
      rw [List.map_append, List.map_cons, List.map_cons]
      exact List.Sublist.subset (by simp) hmem
    have hbq : b ≠ q := by
      intro heq
      subst heq
      exact h.once hmem
    rw [prevOf, hlook, Function.update_of_ne hb_new]
    by_cases hbp : b = p
    · subst hbp
      rw [Function.update_self]
      exact (look_eq Node.prev hp).symm
    · rw [Function.update_of_ne hbp, Function.update_of_ne hbq]
      rfl
  · rw [prevOf, hlook, Function.update_self]
  · intro b hb
    obtain rfl : q = b := by simpa using hb
    rw [prevOf, hlook, Function.update_of_ne hq_new, Function.update_of_ne hqp,
      Function.update_self]

/-- **`InsertAfter` links a node in behind any node of the list.** -/
theorem insertAfter_run (h : Shape heap (xs ++ (p, v) :: ys)) (data : Int) :
    ∃ heap', (insertAfter (some p) data).run heap = .ok (some heap.length) heap' ∧
      heap'.length = heap.length + 1 ∧ Shape heap' (xs ++ (p, v) :: (heap.length, data) :: ys) := by
  obtain ⟨node, hp⟩ := h.getElem?
  have hnext : node.next = (ys.map Prod.fst).head? := by
    rw [← h.next_eq, nextOf, look_eq Node.next hp]
  cases ys with
  | nil => exact ⟨_, insertAfter_last hp hnext data, by simp, h.insert_last hp data⟩
  | cons e zs =>
      obtain ⟨q, u⟩ := e
      have h' : Shape heap ((xs ++ [(p, v)]) ++ (q, u) :: zs) := by simpa using h
      obtain ⟨after, hq⟩ := h'.getElem?
      have hne : q ≠ p := by
        intro heq
        subst heq
        have hnodup := h.nodup
        rw [List.map_append, List.map_cons, List.map_cons, List.nodup_append] at hnodup
        exact (List.nodup_cons.mp hnodup.2.1).1 (by simp)
      exact ⟨_, insertAfter_inner hp hnext hq hne data, by simp, h.insert_inner hp hq data⟩

end Shape

/-- **`PushBack` appends a node.** -/
theorem Represents.pushBack_run {ref : List (Nat × Int)} (h : Represents heap l ref) (val : Int) :
    ∃ l' heap', (pushBack l val).run heap = .ok l' heap' ∧ heap'.length = heap.length + 1 ∧
      Represents heap' l' (ref ++ [(heap.length, val)]) := by
  rcases List.eq_nil_or_concat ref with rfl | ⟨xs, ⟨t, v⟩, hlast⟩
  · refine ⟨_, _, pushBack_empty h.head val, by simp, ⟨?_, ?_, by simp, ?_⟩, rfl, rfl⟩
    · refine ⟨?_, ?_, trivial⟩
      · rw [prevOf, look_append, Function.update_self]
      · rw [nextOf, look_append, Function.update_self]
        rfl
    · simp
    · intro e he
      obtain rfl : e = (heap.length, val) := by simpa using he
      rw [dataOf, look_append, Function.update_self]
  · rw [List.concat_eq_append] at hlast
    subst hlast
    obtain ⟨node, hp⟩ := h.shape.getElem?
    have htail : l.tail = some t := by simpa using h.tail
    have hhead : l.head ≠ none := by
      rw [h.head]
      cases xs <;> simp
    refine ⟨_, _, pushBack_tail hhead htail hp val, by simp, ?_, ?_, by simp⟩
    · simpa using h.shape.insert_last hp val
    · rw [h.head]
      cases xs <;> simp

/-! ### Whole runs -/

/-- The calls that make a list grow. -/
inductive GrowOp
  | pushBack (val : Int)
  | insertAfter (node : Nat) (data : Int)
  deriving Repr, DecidableEq

/-- One call on a heap and a list. -/
def grow (op : GrowOp) (s : NodeHeap × LinkedList) : Except Fault (NodeHeap × LinkedList) :=
  match op with
  | .pushBack val =>
      match (LinkedList.pushBack s.2 val).run s.1 with
      | .ok l heap => .ok (heap, l)
      | .error e _ => .error e
  | .insertAfter node data =>
      match (LinkedList.insertAfter (some node) data).run s.1 with
      | .ok _ heap => .ok (heap, s.2)
      | .error e _ => .error e

/-- A sequence of calls on an empty list. -/
def grown (ops : List GrowOp) : Except Fault (NodeHeap × LinkedList) :=
  ops.foldlM (fun s op => grow op s) ([], new)

/-- Put an entry right behind that of a node. -/
def insertBehind (node : Nat) (entry : Nat × Int) : List (Nat × Int) → List (Nat × Int)
  | [] => []
  | e :: ref => if e.1 = node then e :: entry :: ref else e :: insertBehind node entry ref

/-- The reference list after a call that allocates at `address`. -/
def GrowOp.apply (op : GrowOp) (address : Nat) (ref : List (Nat × Int)) : List (Nat × Int) :=
  match op with
  | .pushBack val => ref ++ [(address, val)]
  | .insertAfter node data => insertBehind node (address, data) ref

/-- The reference list: each call allocates one node. -/
def reference (ops : List GrowOp) : List (Nat × Int) :=
  (ops.foldl (fun s op => (s.1 + 1, op.apply s.1 s.2)) ((0, []) : Nat × List (Nat × Int))).2

/-- The list spells the reference forwards and backwards, and `Back()` is its last node. -/
structure WellFormed (heap : NodeHeap) (l : LinkedList) (ref : List (Nat × Int)) : Prop where
  forward : Chain (nextOf heap) l.front (ref.map Prod.fst)
  acyclic : (ref.map Prod.fst).Nodup
  values : ∀ e ∈ ref, dataOf heap e.1 = some e.2
  backward : Chain (prevOf heap) l.back (ref.map Prod.fst).reverse
  back : l.back = (ref.map Prod.fst).getLast?

/-- `InsertAfter` is only given nodes of the list. -/
def Legal (ops : List GrowOp) : Prop :=
  ∀ before node data after, ops = before ++ .insertAfter node data :: after →
    node ∈ (reference before).map Prod.fst

/-- `InsertAfter` is never given the last node. -/
def NeverAfterLast (ops : List GrowOp) : Prop :=
  ∀ before node data after, ops = before ++ .insertAfter node data :: after →
    ((reference before).map Prod.fst).getLast? ≠ some node

theorem Represents.wellFormed {ref : List (Nat × Int)} (h : Represents heap l ref) :
    WellFormed heap l ref := by
  refine ⟨?_, h.shape.nodup, h.shape.values, ?_, h.tail⟩
  · rw [front, h.head]
    exact h.shape.linked.forward
  · rw [back, h.tail]
    exact h.shape.linked.backward

theorem reference_append (ops : List GrowOp) (op : GrowOp) :
    reference (ops ++ [op]) = op.apply ops.length (reference ops) := by
  have hcount : ∀ (ops : List GrowOp) (s : Nat × List (Nat × Int)),
      (ops.foldl (fun s op => (s.1 + 1, op.apply s.1 s.2)) s).1 = s.1 + ops.length := by
    intro ops
    induction ops with
    | nil => intro s; rfl
    | cons op ops ih =>
        intro s
        rw [List.foldl_cons, ih, List.length_cons]
        omega
  rw [reference, List.foldl_append, List.foldl_cons, List.foldl_nil, hcount, Nat.zero_add]
  rfl

theorem grown_append (ops : List GrowOp) (op : GrowOp) :
    grown (ops ++ [op]) = grown ops >>= grow op := by
  rw [grown, List.foldlM_append, grown]
  simp

theorem insertBehind_eq {xs : List (Nat × Int)} {p : Nat} (h : p ∉ xs.map Prod.fst) (v : Int)
    (entry : Nat × Int) (ys : List (Nat × Int)) :
    insertBehind p entry (xs ++ (p, v) :: ys) = xs ++ (p, v) :: entry :: ys := by
  induction xs with
  | nil => simp [insertBehind]
  | cons e xs ih =>
      rw [List.map_cons, List.mem_cons, not_or] at h
      rw [List.cons_append, insertBehind, if_neg (Ne.symm h.1), ih h.2]
      rfl

/-- The entry of a node splits the reference list. -/
theorem exists_split {ref : List (Nat × Int)} {p : Nat} (hnodup : (ref.map Prod.fst).Nodup)
    (hp : p ∈ ref.map Prod.fst) :
    ∃ xs v ys, ref = xs ++ (p, v) :: ys ∧ p ∉ xs.map Prod.fst := by
  obtain ⟨⟨p, v⟩, hmem, rfl⟩ := List.mem_map.mp hp
  obtain ⟨xs, ys, rfl⟩ := List.append_of_mem hmem
  refine ⟨xs, v, ys, rfl, ?_⟩
  rw [List.map_append, List.map_cons, List.nodup_append] at hnodup
  intro hin
  exact hnodup.2.2 p hin p (by simp) rfl

/-- Away from the end, `InsertAfter` keeps the shape. -/
theorem Represents.grow_insertAfter {ref : List (Nat × Int)} (h : Represents heap l ref) {p : Nat}
    (hp : p ∈ ref.map Prod.fst) (hlast : (ref.map Prod.fst).getLast? ≠ some p) (data : Int) :
    ∃ heap', grow (.insertAfter p data) (heap, l) = .ok (heap', l) ∧
      heap'.length = heap.length + 1 ∧
      Represents heap' l (insertBehind p (heap.length, data) ref) := by
  obtain ⟨xs, v, ys, rfl, hxs⟩ := exists_split h.shape.nodup hp
  obtain ⟨heap', hrun, hlen, hshape⟩ := h.shape.insertAfter_run data
  refine ⟨heap', by rw [grow, hrun], hlen, ?_⟩
  rw [insertBehind_eq hxs]
  refine ⟨hshape, ?_, ?_⟩
  · rw [h.head]
    cases xs <;> simp
  · rw [h.tail]
    cases ys with
    | nil => simp at hlast
    | cons y ys => simp [List.getLast?_append, List.getLast?_cons_cons]

/-- Runs that never insert behind the last node keep the shape. -/
theorem grown_represents (ops : List GrowOp) (hlegal : Legal ops) (hlast : NeverAfterLast ops) :
    ∃ heap l, grown ops = .ok (heap, l) ∧ heap.length = ops.length ∧
      Represents heap l (reference ops) := by
  induction ops using List.reverseRecOn with
  | nil =>
      refine ⟨[], new, rfl, rfl, ⟨trivial, ?_, ?_, ?_⟩, rfl, rfl⟩ <;> simp [reference]
  | append_singleton ops op ih =>
      have hlegal' : Legal ops := by
        intro before node data after heq
        subst heq
        exact hlegal before node data (after ++ [op]) (by simp)
      have hlast' : NeverAfterLast ops := by
        intro before node data after heq
        subst heq
        exact hlast before node data (after ++ [op]) (by simp)
      obtain ⟨heap, l, hrun, hlen, hrep⟩ := ih hlegal' hlast'
      rw [grown_append, hrun, reference_append, ← hlen, List.length_append, List.length_singleton,
        ← hlen]
      cases op with
      | pushBack val =>
          obtain ⟨l', heap', hpush, hlen', hrep'⟩ := hrep.pushBack_run val
          refine ⟨heap', l', ?_, hlen', hrep'⟩
          show grow (.pushBack val) (heap, l) = .ok (heap', l')
          rw [grow, hpush]
      | insertAfter p data =>
          obtain ⟨heap', hgrow, hlen', hrep'⟩ := hrep.grow_insertAfter
            (hlegal ops p data [] rfl) (hlast ops p data [] rfl) data
          exact ⟨heap', l, hgrow, hlen', hrep'⟩

/-- A run keeps the list well formed in every state it reaches. -/
def StaysWellFormed (ops : List GrowOp) : Prop :=
  ∀ before after, ops = before ++ after →
    ∃ heap l, grown before = .ok (heap, l) ∧ WellFormed heap l (reference before)

/-- `InsertAfter` the last node leaves `tail_` behind. -/
theorem not_wellFormed_afterLast {before : List GrowOp} {p : Nat} {data : Int}
    {heap heap' : NodeHeap} {l' : LinkedList}
    (hrun : grown before = .ok (heap, l)) (hwf : WellFormed heap l (reference before))
    (hlast : ((reference before).map Prod.fst).getLast? = some p)
    (hrun' : grown (before ++ [.insertAfter p data]) = .ok (heap', l')) :
    ¬ WellFormed heap' l' (reference (before ++ [.insertAfter p data])) := by
  intro hwf'
  -- the end pointers are the ones from before
  have hsame : l' = l := by
    rw [grown_append, hrun] at hrun'
    have hgrow : grow (.insertAfter p data) (heap, l) = .ok (heap', l') := hrun'
    rw [grow] at hgrow
    split at hgrow
    · injection hgrow with hgrow
      injection hgrow with _ hl
      exact hl.symm
    · cases hgrow
  have hp : p ∈ (reference before).map Prod.fst := List.mem_of_getLast? hlast
  obtain ⟨xs, v, ys, hsplit, hxs⟩ := exists_split hwf.acyclic hp
  have hnil : ys = [] := by
    have hnodup := hwf.acyclic
    rw [hsplit] at hlast hnodup
    rw [List.map_append, List.map_cons, List.nodup_append, List.nodup_cons] at hnodup
    cases ys with
    | nil => rfl
    | cons y ys =>
        rw [List.map_append, List.map_cons, List.map_cons, List.getLast?_append,
          List.getLast?_cons_cons] at hlast
        refine absurd (List.mem_of_getLast? (a := p) ?_) hnodup.2.1.1
        simpa [List.getLast?_cons] using hlast
  subst hnil
  have hback := hwf'.back
  have hnodup := hwf'.acyclic
  rw [reference_append, hsplit, GrowOp.apply, insertBehind_eq hxs] at hback hnodup
  rw [hsame, back, ← back, hwf.back, hlast] at hback
  have hpnew : p = before.length := by simpa [List.getLast?_append] using hback
  rw [List.map_append, List.map_cons, List.map_cons, List.nodup_append, List.nodup_cons] at hnodup
  exact hnodup.2.1.1 (by simp [hpnew])

/--
**A list grown by `PushBack` and `InsertAfter` stays well formed if and only if no
`InsertAfter` is given the last node.**
-/
theorem linkedList_staysWellFormed_iff (ops : List GrowOp) (hlegal : Legal ops) :
    StaysWellFormed ops ↔ NeverAfterLast ops := by
  constructor
  · intro h before p data after heq hlast
    subst heq
    obtain ⟨heap, l, hrun, hwf⟩ := h before _ rfl
    obtain ⟨heap', l', hrun', hwf'⟩ := h (before ++ [.insertAfter p data]) after (by simp)
    exact not_wellFormed_afterLast hrun hwf hlast hrun' hwf'
  · intro hlast before after heq
    subst heq
    obtain ⟨heap, l, hrun, -, hrep⟩ := grown_represents before
      (fun b p data a hb => hlegal b p data (a ++ after) (by simp [hb]))
      (fun b p data a hb => hlast b p data (a ++ after) (by simp [hb]))
    exact ⟨heap, l, hrun, hrep.wellFormed⟩

/-- `PushBack(5)`, `PushBack(10)`, `InsertAfter(node 0, 100)`. -/
theorem staysWellFormed_iff_three :
    StaysWellFormed [.pushBack 5, .pushBack 10, .insertAfter 0 100] ↔
      NeverAfterLast [.pushBack 5, .pushBack 10, .insertAfter 0 100] := by
  refine linkedList_staysWellFormed_iff _ ?_
  rintro (_ | ⟨_, _ | ⟨_, _ | ⟨_, before⟩⟩⟩) node data after h <;> simp at h
  obtain ⟨rfl, rfl, ⟨rfl, rfl⟩, rfl⟩ := h
  decide

/--
`PushBack(1)`, `InsertAfter(node 0, 2)`, `PushBack(3)`: the last call writes over the
pointer to the inserted node, and the list is `1, 3`.
-/
theorem linkedList_loses_value :
    Legal [.pushBack 1, .insertAfter 0 2, .pushBack 3] ∧
    reference [.pushBack 1, .insertAfter 0 2, .pushBack 3] = [(0, 1), (1, 2), (2, 3)] ∧
    (∃ heap l, grown [.pushBack 1, .insertAfter 0 2, .pushBack 3] = .ok (heap, l) ∧
      Chain (nextOf heap) l.front [0, 2]) ∧
    ¬ StaysWellFormed [.pushBack 1, .insertAfter 0 2, .pushBack 3] := by
  have hrun : grown [.pushBack 1, .insertAfter 0 2, .pushBack 3]
      = .ok ([⟨1, some 2, none⟩, ⟨2, none, some 0⟩, ⟨3, none, some 0⟩],
          ⟨some 0, some 2⟩) := by rfl
  have hchain : Chain (nextOf [⟨1, some 2, none⟩, ⟨2, none, some 0⟩, ⟨3, none, some 0⟩])
      (some 0) [0, 2] := .cons (.cons .nil)
  have hlegal : Legal [.pushBack 1, .insertAfter 0 2, .pushBack 3] := by
    rintro (_ | ⟨_, _ | ⟨_, _ | ⟨_, before⟩⟩⟩) node data after h <;> simp at h
    obtain ⟨rfl, ⟨rfl, rfl⟩, rfl⟩ := h
    decide
  refine ⟨hlegal, rfl, ⟨_, _, hrun, hchain⟩, ?_⟩
  intro h
  obtain ⟨heap, l, hrun', hwf⟩ := h _ [] (List.append_nil _).symm
  rw [hrun] at hrun'
  injection hrun' with heq
  injection heq with hheap hl
  subst hheap hl
  exact absurd (hwf.forward.unique hchain) (by decide)

end LinkedList

end Technopark
