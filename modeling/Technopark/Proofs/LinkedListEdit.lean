/-
What `DeteleAt` and `Union` do to a `LinkedList`.

`DeteleAt` links the neighbours of a node to each other, which keeps the shape of the
remaining nodes wherever the node was.  It leaves the end pointers alone, so the list is
right afterwards exactly when the node was at neither end.  For nodes that `InsertAfter` has
put in this never matters: the shape alone gives every other node its pointers, so once all
of them are gone, in whatever order, the original nodes are as they were.

`Union` links the end of one list to the beginning of another.  It leaves `tail_` where it
was, and it does not look whether there is an end or a beginning.
-/
import Technopark.Proofs.LinkedList
import Mathlib.Data.List.Perm.Subperm

namespace Technopark

namespace NodeHeap

variable {β : Type} {heap : NodeHeap} {a : Nat} {node : Node}

/-! ### Writing through a pointer -/

theorem load_run (h : heap[a]? = some node) : (load (some a)).run heap = .ok node heap := by
  simp [load, h]

/-- The node a pointer points to is rewritten, if there is one. -/
def rewire (heap : NodeHeap) (p : Option Nat) (f : Node → Node) : NodeHeap :=
  p.elim heap fun a => heap.modify a f

@[simp] theorem length_rewire (heap : NodeHeap) (p : Option Nat) (f : Node → Node) :
    (rewire heap p f).length = heap.length := by
  cases p <;> simp [rewire]

theorem getElem?_rewire (heap : NodeHeap) (p : Option Nat) (f : Node → Node) (b : Nat) :
    (rewire heap p f)[b]? = if p = some b then heap[b]?.map f else heap[b]? := by
  cases p with
  | none => simp [rewire]
  | some a =>
      rw [rewire, Option.elim_some, List.getElem?_modify]
      by_cases h : a = b <;> simp [h]

theorem store_run (h : a < heap.length) (f : Node → Node) :
    (store (some a) f).run heap = .ok () (rewire heap (some a) f) := by
  have hget : heap[a]? = some heap[a] := List.getElem?_eq_getElem h
  simp [store, rewire, hget, List.modify_eq_set_getElem?]

/-- A field that is not written. -/
theorem look_rewire_same {field : Node → Option β} {f : Node → Node}
    (hsame : ∀ n, field (f n) = field n) (heap : NodeHeap) (p : Option Nat) :
    look field (rewire heap p f) = look field heap := by
  funext b
  rw [look, getElem?_rewire, look]
  split_ifs
  · cases heap[b]? <;> simp [hsame]
  · rfl

/-- A field at a node that is not written. -/
theorem look_rewire_ne (field : Node → Option β) (f : Node → Node) {p : Option Nat} {b : Nat}
    (h : p ≠ some b) : look field (rewire heap p f) b = look field heap b := by
  rw [look, getElem?_rewire, if_neg h, look]

/-- A field at the node that is written. -/
theorem look_rewire_self (field : Node → Option β) (f : Node → Node) {p : Option Nat}
    (h : p = some a) (ha : a < heap.length) :
    look field (rewire heap p f) a = field (f heap[a]) := by
  rw [look, getElem?_rewire, if_pos h, List.getElem?_eq_getElem ha]
  rfl

end NodeHeap

open NodeHeap

namespace LinkedList

variable {heap : NodeHeap} {l : LinkedList} {xs ys ref : List (Nat × Int)} {p : Nat} {v : Int}

/-! ### `DeteleAt` -/

/-- The heap after the neighbours of a node are linked to each other. -/
def unlinked (heap : NodeHeap) (node : Node) : NodeHeap :=
  rewire (rewire heap node.next fun n => { n with prev := node.prev }) node.prev
    fun n => { n with next := node.next }

section Unlinked

variable {node : Node} {b : Nat}

theorem nextOf_unlinked_ne (h : node.prev ≠ some b) :
    nextOf (unlinked heap node) b = nextOf heap b := by
  rw [nextOf, unlinked, look_rewire_ne _ _ h, look_rewire_same]
  · rfl
  · exact fun _ => rfl

theorem nextOf_unlinked_self (h : node.prev = some b) (hb : b < heap.length) :
    nextOf (unlinked heap node) b = node.next :=
  look_rewire_self Node.next _ h (by simpa using hb)

theorem prevOf_unlinked_ne (h : node.next ≠ some b) :
    prevOf (unlinked heap node) b = prevOf heap b := by
  rw [prevOf, unlinked, look_rewire_same, look_rewire_ne _ _ h]
  · rfl
  · exact fun _ => rfl

theorem prevOf_unlinked_self (h : node.next = some b) (hb : b < heap.length) :
    prevOf (unlinked heap node) b = node.prev := by
  rw [prevOf, unlinked, look_rewire_same, look_rewire_self Node.prev _ h hb]
  exact fun _ => rfl

theorem dataOf_unlinked : dataOf (unlinked heap node) = dataOf heap := by
  rw [dataOf, unlinked, look_rewire_same, look_rewire_same]
  · rfl
  · exact fun _ => rfl
  · exact fun _ => rfl

theorem length_unlinked : (unlinked heap node).length = heap.length := by
  simp [unlinked]

end Unlinked

/-- The second half of `DeteleAt`: the node before points past the node. -/
theorem deteleAt_prev {node : Node} (hp : heap[p]? = some node)
    (hprev : ∀ q, node.prev = some q → q < heap.length) :
    (do
      let prev := (← load (some p)).prev
      if prev ≠ none then
        let next := (← load (some p)).next
        store prev fun n => { n with next := next }
      return true : Call NodeHeap Bool).run heap
      = .ok true (rewire heap node.prev fun n => { n with next := node.next }) := by
  rw [Call.run_bind_ok (load_run hp)]
  cases hr : node.prev with
  | none =>
      rw [if_neg (by simp)]
      rfl
  | some r =>
      rw [if_pos (by simp), Call.run_bind_ok (load_run hp),
        Call.run_bind_ok (store_run (hprev r hr) _)]
      rfl

theorem deteleAt_run {node : Node} (hp : heap[p]? = some node)
    (hnext : ∀ q, node.next = some q → q < heap.length ∧ q ≠ p)
    (hprev : ∀ q, node.prev = some q → q < heap.length) :
    (deteleAt (some p)).run heap = .ok true (unlinked heap node) := by
  rw [deteleAt, if_neg (by simp), Call.run_bind_ok (load_run hp), unlinked]
  cases hn : node.next with
  | none =>
      rw [if_neg (by simp), deteleAt_prev hp hprev, hn]
      rfl
  | some q =>
      obtain ⟨hq, hne⟩ := hnext q hn
      have hp' : (rewire heap (some q) fun n => { n with prev := node.prev })[p]? = some node := by
        rw [getElem?_rewire, if_neg (by simpa using hne), hp]
      rw [if_pos (by simp), Call.run_bind_ok (load_run hp), Call.run_bind_ok (store_run hq _),
        deteleAt_prev hp' (by simpa using hprev), hn]

namespace Shape

/-- What a node of the list points back to. -/
theorem prev_eq (h : Shape heap (xs ++ (p, v) :: ys)) :
    prevOf heap p = (xs.map Prod.fst).getLast? := by
  have hlinked := h.linked
  rw [List.map_append, List.map_cons, linked_append] at hlinked
  obtain ⟨-, hprev, -⟩ := hlinked
  rwa [Option.or_none] at hprev

/-- The pointers of a node of the list. -/
theorem pointers (h : Shape heap (xs ++ (p, v) :: ys)) {node : Node} (hp : heap[p]? = some node) :
    node.next = (ys.map Prod.fst).head? ∧ node.prev = (xs.map Prod.fst).getLast? := by
  rw [← h.next_eq, ← h.prev_eq, nextOf, prevOf, look_eq Node.next hp, look_eq Node.prev hp]
  exact ⟨rfl, rfl⟩

/-- A node of the list is at one place of it. -/
theorem not_mem (h : Shape heap (xs ++ (p, v) :: ys)) : p ∉ (xs ++ ys).map Prod.fst := by
  have hnodup := h.nodup
  rw [List.map_append, List.map_cons, List.nodup_middle, ← List.map_append] at hnodup
  exact (List.nodup_cons.mp hnodup).1

theorem lt_length (h : Shape heap ref) {b : Nat} (hb : b ∈ ref.map Prod.fst) : b < heap.length := by
  obtain ⟨e, he, rfl⟩ := List.mem_map.mp hb
  exact h.allocated e he

/-- The remaining nodes are linked. -/
theorem unlink (h : Shape heap (xs ++ (p, v) :: ys)) {node : Node} (hp : heap[p]? = some node) :
    Shape (unlinked heap node) (xs ++ ys) := by
  have hsub : (xs ++ ys).Sublist (xs ++ (p, v) :: ys) := (List.sublist_cons_self _ _).append_left _
  have hnodup : (xs.map Prod.fst ++ ys.map Prod.fst).Nodup := by
    rw [← List.map_append]
    exact h.nodup.sublist (hsub.map _)
  obtain ⟨hnext, hprev⟩ := h.pointers hp
  have hlt : ∀ b ∈ xs.map Prod.fst ++ ys.map Prod.fst, b < heap.length := by
    intro b hb
    rw [← List.map_append] at hb
    exact h.lt_length ((hsub.map _).subset hb)
  refine ⟨?_, by rw [List.map_append]; exact hnodup, ?_, ?_⟩
  · have hlinked := h.linked
    rw [List.map_append, List.map_cons] at hlinked
    rw [List.map_append]
    refine hlinked.remove ?_ ?_ ?_ ?_
    · intro b hb
      refine nextOf_unlinked_ne ?_
      rw [hprev]
      intro hlast
      obtain ⟨zs, hzs⟩ := List.getLast?_eq_some_iff.mp hlast
      rw [hzs, List.append_assoc, List.singleton_append, List.nodup_middle] at hnodup
      rw [hzs, List.dropLast_concat] at hb
      exact (List.nodup_cons.mp hnodup).1 hb
    · intro b hb
      rw [Option.or_none, nextOf_unlinked_self (hprev.trans hb), hnext]
      exact hlt b (List.mem_append_left _ (List.mem_of_getLast? hb))
    · intro b hb
      refine prevOf_unlinked_ne ?_
      rw [hnext]
      intro hhead
      obtain ⟨zs, hzs⟩ := List.head?_eq_some_iff.mp hhead
      rw [hzs, List.nodup_middle] at hnodup
      rw [hzs] at hb
      exact (List.nodup_cons.mp hnodup).1 hb
    · intro b hb
      rw [Option.or_none, prevOf_unlinked_self (hnext.trans hb), hprev]
      exact hlt b (List.mem_append_right _ (List.mem_of_mem_head? hb))
  · intro e he
    rw [length_unlinked]
    exact h.allocated e (hsub.subset he)
  · intro e he
    rw [dataOf_unlinked]
    exact h.values e (hsub.subset he)

/-- **`DeteleAt` takes any node out of the list.** -/
theorem deteleAt_run (h : Shape heap (xs ++ (p, v) :: ys)) :
    ∃ heap', (deteleAt (some p)).run heap = .ok true heap' ∧ heap'.length = heap.length ∧
      Shape heap' (xs ++ ys) := by
  obtain ⟨node, hp⟩ := h.getElem?
  obtain ⟨hnext, hprev⟩ := h.pointers hp
  refine ⟨_, LinkedList.deteleAt_run hp ?_ ?_, length_unlinked, h.unlink hp⟩
  · intro q hq
    have hmem : q ∈ ys.map Prod.fst := List.mem_of_mem_head? (hnext.symm.trans hq)
    refine ⟨h.lt_length ?_, ?_⟩
    · rw [List.map_append, List.map_cons]
      exact List.mem_append_right _ (List.mem_cons_of_mem _ hmem)
    · intro heq
      subst heq
      exact h.not_mem (by rw [List.map_append]; exact List.mem_append_right _ hmem)
  · intro q hq
    refine h.lt_length ?_
    rw [List.map_append]
    exact List.mem_append_left _ (List.mem_of_getLast? (hprev.symm.trans hq))

end Shape

/-- A list that reads right in both directions has the shape. -/
theorem WellFormed.represents (h : WellFormed heap l ref) : Represents heap l ref := by
  refine ⟨⟨linked_of_chains h.forward h.backward, h.acyclic, ?_, h.values⟩, h.forward.start_eq,
    h.back⟩
  intro e he
  have hdata := h.values e he
  rw [dataOf, look] at hdata
  cases hget : heap[e.1]? with
  | none => rw [hget] at hdata; cases hdata
  | some node => exact lt_of_getElem? hget

/-! ### `Search` -/

/-- There are no more nodes in a list than on the heap. -/
theorem Shape.length_le (h : Shape heap ref) : ref.length ≤ heap.length := by
  have hsub : ref.map Prod.fst ⊆ List.range heap.length := by
    intro b hb
    exact List.mem_range.mpr (h.lt_length hb)
  have hle := (List.subperm_of_subset h.nodup hsub).length_le
  rwa [List.length_map, List.length_range] at hle

/-- The loop stops at the first node with the value. -/
theorem searchFrom_run {zs : List (Nat × Int)} (hv : v ∉ zs.map Prod.snd) :
    ∀ {xs : List (Nat × Int)} {fuel : Nat}, Shape heap (xs ++ (zs ++ (p, v) :: ys)) →
      zs.length < fuel →
      (searchFrom v fuel ((zs ++ (p, v) :: ys).map Prod.fst).head?).run heap
        = .ok (some p) heap := by
  induction zs with
  | nil =>
      intro xs fuel h hfuel
      obtain ⟨fuel, rfl⟩ : ∃ m, fuel = m + 1 := ⟨fuel - 1, by omega⟩
      obtain ⟨node, hp⟩ := h.getElem?
      have hdata : node.data = v := by
        have hvalue := h.values (p, v) (by simp)
        rw [dataOf, look_eq _ hp] at hvalue
        exact Option.some.inj hvalue
      show (searchFrom v (fuel + 1) (some p)).run heap = _
      rw [searchFrom, if_neg (by simp), Call.run_bind_ok (load_run hp), if_pos hdata]
      rfl
  | cons e zs ih =>
      intro xs fuel h hfuel
      obtain ⟨q, u⟩ := e
      obtain ⟨fuel, rfl⟩ : ∃ m, fuel = m + 1 := ⟨fuel - 1, by omega⟩
      obtain ⟨node, hq⟩ := h.getElem?
      rw [List.map_cons, List.mem_cons, not_or] at hv
      rw [List.cons_append] at h
      have hdata : node.data ≠ v := by
        have hvalue := h.values (q, u) (by simp)
        rw [dataOf, look_eq _ hq] at hvalue
        rw [Option.some.inj hvalue]
        exact Ne.symm hv.1
      have hnext : node.next = ((zs ++ (p, v) :: ys).map Prod.fst).head? := (h.pointers hq).1
      have h' : Shape heap ((xs ++ [(q, u)]) ++ (zs ++ (p, v) :: ys)) := by simpa using h
      show (searchFrom v (fuel + 1) (some q)).run heap = _
      rw [searchFrom, if_neg (by simp), Call.run_bind_ok (load_run hq), if_neg hdata, hnext]
      exact ih hv.2 h' (by simpa using hfuel)

/-- **`Search` finds the first node with a value.** -/
theorem Represents.search_run (h : Represents heap l (xs ++ (p, v) :: ys))
    (hv : v ∉ xs.map Prod.snd) : (search l v).run heap = .ok (some p) heap := by
  have hle := h.shape.length_le
  show (searchFrom v (heap.length + 1) l.head).run heap = _
  rw [h.head]
  have hshape : Shape heap ([] ++ (xs ++ (p, v) :: ys)) := h.shape
  refine searchFrom_run hv hshape ?_
  rw [List.length_append] at hle
  omega

/-! ### Deleting the first occurrence of a value -/

/--
`DeteleAt(Search(v))` takes the first node with the value out of the list, which is well
formed afterwards, and nothing leads to the node any more.
-/
def DeletesFirst (heap : NodeHeap) (l : LinkedList) (ref : List (Nat × Int)) (v : Int) : Prop :=
  ∃ p heap', (search l v).run heap = .ok (some p) heap ∧
    (deteleAt (some p)).run heap = .ok true heap' ∧
    WellFormed heap' l (ref.eraseP fun e => e.2 = v) ∧
    ¬ Reaches (nextOf heap') l.front p ∧ ¬ Reaches (prevOf heap') l.back p

/-- The first entry with a value splits the reference list. -/
theorem exists_first (hv : v ∈ ref.map Prod.snd) :
    ∃ xs p ys, ref = xs ++ (p, v) :: ys ∧ v ∉ xs.map Prod.snd ∧
      (ref.map Prod.snd).idxOf v = xs.length ∧ (ref.eraseP fun e => e.2 = v) = xs ++ ys := by
  induction ref with
  | nil => simp at hv
  | cons e ref ih =>
      obtain ⟨q, u⟩ := e
      by_cases hu : u = v
      · subst hu
        exact ⟨[], q, ref, rfl, by simp, by simp, by simp⟩
      · obtain ⟨xs, p, ys, rfl, hxs, hidx, herase⟩ := ih (by simpa [Ne.symm hu] using hv)
        refine ⟨(q, u) :: xs, p, ys, rfl, by simpa [Ne.symm hu] using hxs, ?_, ?_⟩
        · rw [List.map_cons, List.idxOf_cons_ne _ hu, hidx]
          rfl
        · rw [List.eraseP_cons_of_neg (by simpa using hu), herase]
          rfl

/--
**`DeteleAt(Search(v))` does its job if and only if the first node with the value is
neither the first nor the last of the list.**
-/
theorem deteleAt_search_iff (hwf : WellFormed heap l ref) (hv : v ∈ ref.map Prod.snd) :
    DeletesFirst heap l ref v ↔
      0 < (ref.map Prod.snd).idxOf v ∧ (ref.map Prod.snd).idxOf v + 1 < ref.length := by
  obtain ⟨xs, p, ys, rfl, hxs, hidx, herase⟩ := exists_first hv
  have hrep := hwf.represents
  have hnot := hrep.shape.not_mem
  rw [List.map_append, List.mem_append, not_or] at hnot
  rw [DeletesFirst, herase, hidx, List.length_append, List.length_cons]
  constructor
  · rintro ⟨-, heap', -, -, hwf', -⟩
    have hfront := hwf'.forward.start_eq
    have hback := hwf'.back
    rw [front, hrep.head] at hfront
    rw [back, hrep.tail] at hback
    -- the end pointers are the ones from before
    constructor
    · by_contra hzero
      have hnil : xs = [] := List.eq_nil_of_length_eq_zero (by omega)
      subst hnil
      exact hnot.2 (List.mem_of_mem_head? hfront.symm)
    · by_contra hzero
      have hnil : ys = [] := List.eq_nil_of_length_eq_zero (by omega)
      subst hnil
      refine hnot.1 (List.mem_of_getLast? ?_)
      simpa using hback.symm
  · rintro ⟨hpos, hlast⟩
    obtain ⟨heap', hdelete, -, hshape⟩ := hrep.shape.deteleAt_run
    have hhead : l.head = ((xs ++ ys).map Prod.fst).head? := by
      rw [hrep.head]
      cases xs with
      | nil => simp at hpos
      | cons x xs => rfl
    have htail : l.tail = ((xs ++ ys).map Prod.fst).getLast? := by
      rw [hrep.tail]
      cases ys with
      | nil => simp at hlast
      | cons y ys => simp [List.getLast?_append, List.getLast?_cons]
    have hwf' : WellFormed heap' l (xs ++ ys) := Represents.wellFormed ⟨hshape, hhead, htail⟩
    refine ⟨p, heap', hrep.search_run hxs, hdelete, hwf', ?_, ?_⟩
    · intro hreach
      have hmem := hwf'.forward.mem_of_reaches hreach
      rw [List.map_append, List.mem_append] at hmem
      exact hmem.elim hnot.1 hnot.2
    · intro hreach
      have hmem := hwf'.backward.mem_of_reaches hreach
      rw [List.mem_reverse, List.map_append, List.mem_append] at hmem
      exact hmem.elim hnot.1 hnot.2

/-- `5`, `10`, `15`. -/
def threeNodes : NodeHeap := [⟨5, some 1, none⟩, ⟨10, some 2, some 0⟩, ⟨15, none, some 1⟩]

theorem threeNodes_wellFormed :
    WellFormed threeNodes ⟨some 0, some 2⟩ [(0, 5), (1, 10), (2, 15)] :=
  ⟨.cons (.cons (.cons .nil)), by decide, by decide, .cons (.cons (.cons .nil)), rfl⟩

/-- The node in the middle can be deleted. -/
theorem deletesFirst_middle :
    DeletesFirst threeNodes ⟨some 0, some 2⟩ [(0, 5), (1, 10), (2, 15)] 10 :=
  (deteleAt_search_iff threeNodes_wellFormed (by decide)).mpr (by decide)

/-- The list goes on with its first node, or ends in its last, after it was deleted. -/
theorem deteleAt_keeps_end_pointers :
    WellFormed threeNodes ⟨some 0, some 2⟩ [(0, 5), (1, 10), (2, 15)] ∧
      ¬ DeletesFirst threeNodes ⟨some 0, some 2⟩ [(0, 5), (1, 10), (2, 15)] 5 ∧
      ¬ DeletesFirst threeNodes ⟨some 0, some 2⟩ [(0, 5), (1, 10), (2, 15)] 15 := by
  refine ⟨threeNodes_wellFormed, ?_, ?_⟩
  · rintro ⟨-, heap', -, -, hwf, -⟩
    exact absurd hwf.forward.start_eq (by decide)
  · rintro ⟨-, heap', -, -, hwf, -⟩
    exact absurd hwf.back (by decide)

/-! ### Taking back insertions -/

/-- `InsertAfter` for each pair of a node and a value; the nodes it has made. -/
def insertAll : List (Nat × Int) → Call NodeHeap (List Nat)
  | [] => return []
  | (node, data) :: rest => do
      let inserted ← insertAfter (some node) data
      let others ← insertAll rest
      return inserted.toList ++ others

/-- `DeteleAt` for each node. -/
def deteleAll : List Nat → Call NodeHeap Unit
  | [] => return
  | node :: rest => do
      let _ ← deteleAt (some node)
      deteleAll rest

/-- The nodes the insertions are behind are among `nodes`, or were inserted earlier. -/
def KnownNodes (nodes : List Nat) (size : Nat) (inserts : List (Nat × Int)) : Prop :=
  ∀ before node data after, inserts = before ++ (node, data) :: after →
    node ∈ nodes ∨ size ≤ node ∧ node < size + before.length

/-- The list has the nodes of `ref`, and between them those of `inserted`. -/
structure Grown (size : Nat) (heap : NodeHeap) (ref cur : List (Nat × Int))
    (inserted : List Nat) : Prop where
  shape : Shape heap cur
  original : (cur.filter fun e => e.1 < size) = ref
  others : ∀ a, size ≤ a → (a ∈ cur.map Prod.fst ↔ a ∈ inserted)

/-- Without the inserted nodes, the nodes are the original ones, with their pointers. -/
theorem Shape.getElem?_eq {heap' : NodeHeap} (h : Shape heap ref) (h' : Shape heap' ref) {a : Nat}
    (ha : a ∈ ref.map Prod.fst) : heap'[a]? = heap[a]? := by
  obtain ⟨xs, v, ys, rfl, -⟩ := exists_split h.nodup ha
  obtain ⟨node, hnode⟩ := h.getElem?
  obtain ⟨node', hnode'⟩ := h'.getElem?
  have hnext : node'.next = node.next := by
    rw [← look_eq Node.next hnode, ← look_eq Node.next hnode']
    exact h'.next_eq.trans h.next_eq.symm
  have hprev : node'.prev = node.prev := by
    rw [← look_eq Node.prev hnode, ← look_eq Node.prev hnode']
    exact h'.prev_eq.trans h.prev_eq.symm
  have hdata : some node'.data = some node.data := by
    rw [← look_eq (fun n => some n.data) hnode, ← look_eq (fun n => some n.data) hnode']
    exact (h'.values (a, v) (by simp)).trans (h.values (a, v) (by simp)).symm
  rw [hnode, hnode']
  cases node
  cases node'
  simp_all

namespace Grown

variable {size : Nat} {cur : List (Nat × Int)} {inserted : List Nat}

/-- One insertion. -/
theorem insertAfter_run (h : Grown size heap ref cur inserted) (hsize : size ≤ heap.length)
    (hp : p ∈ cur.map Prod.fst) (data : Int) :
    ∃ heap' cur', (insertAfter (some p) data).run heap = .ok (some heap.length) heap' ∧
      heap'.length = heap.length + 1 ∧
      (∀ a, a ∈ cur'.map Prod.fst ↔ a ∈ cur.map Prod.fst ∨ a = heap.length) ∧
      Grown size heap' ref cur' (inserted ++ [heap.length]) := by
  obtain ⟨xs, v, ys, rfl, -⟩ := exists_split h.shape.nodup hp
  obtain ⟨heap', hrun, hlen, hshape⟩ := h.shape.insertAfter_run data
  have hnodes : ∀ a, a ∈ (xs ++ (p, v) :: (heap.length, data) :: ys).map Prod.fst ↔
      a ∈ (xs ++ (p, v) :: ys).map Prod.fst ∨ a = heap.length := by
    intro a
    simp only [List.map_append, List.map_cons, List.mem_append, List.mem_cons]
    tauto
  refine ⟨heap', _, hrun, hlen, hnodes, hshape, ?_, ?_⟩
  · rw [← h.original]
    have hnew : ¬ heap.length < size := by omega
    simp [List.filter_cons, hnew]
  · intro a ha
    rw [hnodes, List.mem_append, List.mem_singleton, h.others a ha]

/-- One deletion. -/
theorem deteleAt_run (h : Grown size heap ref cur (p :: inserted)) (hp : size ≤ p)
    (hnot : p ∉ inserted) :
    ∃ heap' cur', (deteleAt (some p)).run heap = .ok true heap' ∧
      Grown size heap' ref cur' inserted := by
  have hmem : p ∈ cur.map Prod.fst := (h.others p hp).mpr List.mem_cons_self
  obtain ⟨xs, v, ys, rfl, -⟩ := exists_split h.shape.nodup hmem
  obtain ⟨heap', hrun, -, hshape⟩ := h.shape.deteleAt_run
  refine ⟨heap', _, hrun, hshape, ?_, ?_⟩
  · rw [← h.original]
    have hold : ¬ p < size := by omega
    simp [hold]
  · intro a ha
    have hothers := h.others a ha
    have hp' := h.shape.not_mem
    by_cases heq : a = p
    · subst heq
      exact iff_of_false hp' hnot
    · simp only [List.map_append, List.map_cons, List.mem_append, List.mem_cons, heq,
        false_or] at hothers ⊢
      exact hothers

/-- All insertions. -/
theorem insertAll_run (inserts : List (Nat × Int)) :
    ∀ {heap : NodeHeap} {cur : List (Nat × Int)} {inserted : List Nat},
      Grown size heap ref cur inserted → size ≤ heap.length →
      KnownNodes (cur.map Prod.fst) heap.length inserts →
      ∃ heap' cur', (insertAll inserts).run heap
          = .ok (List.range' heap.length inserts.length) heap' ∧
        Grown size heap' ref cur' (inserted ++ List.range' heap.length inserts.length) := by
  induction inserts with
  | nil =>
      intro heap cur inserted h _ _
      exact ⟨heap, cur, rfl, by simpa using h⟩
  | cons op inserts ih =>
      intro heap cur inserted h hsize hknown
      obtain ⟨p, data⟩ := op
      have hp : p ∈ cur.map Prod.fst := by
        refine (hknown [] p data inserts rfl).resolve_right fun hnew => ?_
        rw [List.length_nil] at hnew
        omega
      obtain ⟨heap₁, cur₁, hrun, hlen, hnodes, hgrown⟩ := h.insertAfter_run hsize hp data
      have hknown' : KnownNodes (cur₁.map Prod.fst) heap₁.length inserts := by
        intro before node data' after heq
        rw [hnodes, hlen]
        rcases hknown ((p, data) :: before) node data' after (by rw [heq]; rfl) with hold | hnew
        · exact .inl (.inl hold)
        · rw [List.length_cons] at hnew
          by_cases hnode : node = heap.length
          · exact .inl (.inr hnode)
          · exact .inr (by omega)
      obtain ⟨heap', cur', hrest, hgrown'⟩ := ih hgrown (by omega) hknown'
      rw [hlen] at hrest hgrown'
      refine ⟨heap', cur', ?_, ?_⟩
      · rw [insertAll, Call.run_bind_ok hrun, Call.run_bind_ok hrest]
        rfl
      · rw [List.length_cons, List.range'_succ]
        simpa using hgrown'

/-- All deletions. -/
theorem deteleAll_run (order : List Nat) :
    ∀ {heap : NodeHeap} {cur : List (Nat × Int)}, Grown size heap ref cur order → order.Nodup →
      (∀ a ∈ order, size ≤ a) →
      ∃ heap', (deteleAll order).run heap = .ok () heap' ∧ Shape heap' ref := by
  induction order with
  | nil =>
      intro heap cur h _ _
      have hcur : cur = ref := by
        rw [← h.original, eq_comm, List.filter_eq_self]
        intro e he
        rw [decide_eq_true_eq, ← Nat.not_le]
        intro hge
        exact absurd ((h.others e.1 hge).mp (List.mem_map_of_mem he)) List.not_mem_nil
      exact ⟨heap, rfl, hcur ▸ h.shape⟩
  | cons p order ih =>
      intro heap cur h hnodup hnew
      obtain ⟨hnot, hnodup'⟩ := List.nodup_cons.mp hnodup
      obtain ⟨heap₁, cur₁, hrun, hgrown⟩ := h.deteleAt_run (hnew p List.mem_cons_self) hnot
      obtain ⟨heap', hrest, hshape⟩ := ih hgrown hnodup' fun a ha =>
        hnew a (List.mem_cons_of_mem _ ha)
      refine ⟨heap', ?_, hshape⟩
      rw [deteleAll, Call.run_bind_ok hrun, hrest]

end Grown

/--
**Insertions are undone by deletions in any order**: every original node has its data and
its pointers back, and the list is the one it was.
-/
theorem insertions_undone (hwf : WellFormed heap l ref) (inserts : List (Nat × Int))
    (hknown : KnownNodes (ref.map Prod.fst) heap.length inserts) :
    ∃ nodes heap₁, (insertAll inserts).run heap = .ok nodes heap₁ ∧
      nodes.length = inserts.length ∧
      ∀ order : List Nat, order.Perm nodes →
        ∃ heap₂, (deteleAll order).run heap₁ = .ok () heap₂ ∧
          (∀ a ∈ ref.map Prod.fst, heap₂[a]? = heap[a]?) ∧ WellFormed heap₂ l ref := by
  have hrep := hwf.represents
  have hstart : Grown heap.length heap ref ref [] := by
    refine ⟨hrep.shape, ?_, ?_⟩
    · rw [List.filter_eq_self]
      intro e he
      simpa using hrep.shape.allocated e he
    · intro a ha
      refine iff_of_false (fun hmem => ?_) List.not_mem_nil
      have hlt := hrep.shape.lt_length hmem
      omega
  obtain ⟨heap₁, cur, hinsert, hgrown⟩ := hstart.insertAll_run inserts (Nat.le_refl _) hknown
  rw [List.nil_append] at hgrown
  refine ⟨_, heap₁, hinsert, List.length_range', ?_⟩
  intro order hperm
  have hgrown' : Grown heap.length heap₁ ref cur order :=
    ⟨hgrown.shape, hgrown.original, fun a ha => (hgrown.others a ha).trans hperm.mem_iff.symm⟩
  obtain ⟨heap₂, hdelete, hshape⟩ := hgrown'.deteleAll_run order
    (hperm.nodup_iff.mpr List.nodup_range') fun a ha => by
      have hmem := hperm.mem_iff.mp ha
      rw [List.mem_range'_1] at hmem
      exact hmem.1
  exact ⟨heap₂, hdelete, fun a ha => hrep.shape.getElem?_eq hshape ha,
    Represents.wellFormed ⟨hshape, hrep.head, hrep.tail⟩⟩

/-- Two nodes behind the last one of three, the second of them deleted first. -/
theorem insertions_undone_behind_last :
    ∃ nodes heap₁, (insertAll [(2, 20), (3, 30)]).run threeNodes = .ok nodes heap₁ ∧
      ∃ heap₂, (deteleAll nodes.reverse).run heap₁ = .ok () heap₂ ∧
        WellFormed heap₂ ⟨some 0, some 2⟩ [(0, 5), (1, 10), (2, 15)] := by
  have hknown : KnownNodes [0, 1, 2] threeNodes.length [(2, 20), (3, 30)] := by
    rintro (_ | ⟨_, _ | ⟨_, before⟩⟩) node data after h <;> simp at h
    · obtain ⟨⟨rfl, rfl⟩, rfl⟩ := h
      exact .inl (by decide)
    · obtain ⟨rfl, ⟨rfl, rfl⟩, rfl⟩ := h
      exact .inr ⟨by decide, by decide⟩
  obtain ⟨nodes, heap₁, hinsert, -, hdelete⟩ :=
    insertions_undone threeNodes_wellFormed [(2, 20), (3, 30)] hknown
  obtain ⟨heap₂, hrun, -, hwf⟩ := hdelete nodes.reverse (List.reverse_perm nodes)
  exact ⟨nodes, heap₁, hinsert, heap₂, hrun, hwf⟩

/-! ### `Union` -/

/--
`Union` makes the first list the concatenation of both, which is well formed, and to which
`PushBack` can append.
-/
def Concatenates (heap : NodeHeap) (l1 l2 : LinkedList) (xs ys : List (Nat × Int)) : Prop :=
  ∃ heap', (union (some l1) (some l2)).run heap = .ok () heap' ∧ WellFormed heap' l1 (xs ++ ys) ∧
    ∀ v, ∃ l' heap'', (pushBack l1 v).run heap' = .ok l' heap'' ∧
      WellFormed heap'' l' (xs ++ ys ++ [(heap'.length, v)])

/-- Without a first list there is no node to link to. -/
theorem union_empty_left {l1 l2 : LinkedList} (h : l1.tail = none) :
    (union (some l1) (some l2)).run heap = .error (.undefined .nullPointer) heap := by
  simp [union, back, h, store]

/-- Without a second one, there is none to link back from. -/
theorem union_empty_right {l1 l2 : LinkedList} {t : Nat} (ht : l1.tail = some t)
    (hlt : t < heap.length) (h : l2.head = none) :
    ∃ heap', (union (some l1) (some l2)).run heap = .error (.undefined .nullPointer) heap' := by
  refine ⟨rewire heap (some t) fun n => { n with next := none }, ?_⟩
  rw [union, back, ht, front, h, Call.run_bind_ok (store_run hlt _)]
  rfl

/--
**`Union` never makes a proper list**: if one of the lists is empty it dereferences a null
pointer, and if none is, `Back()` is not the last node.
-/
theorem union_never_concatenates {l1 l2 : LinkedList} (h1 : WellFormed heap l1 xs)
    (h2 : WellFormed heap l2 ys) (hdisjoint : (xs.map Prod.fst).Disjoint (ys.map Prod.fst)) :
    ¬ Concatenates heap l1 l2 xs ys := by
  rintro ⟨heap', hrun, hwf, -⟩
  have hrep1 := h1.represents
  have hrep2 := h2.represents
  rcases List.eq_nil_or_concat xs with hxs | ⟨zs, ⟨t, v⟩, hxs⟩
  · have htail : l1.tail = none := by rw [hrep1.tail, hxs]; rfl
    rw [union_empty_left htail] at hrun
    cases hrun
  · rw [List.concat_eq_append] at hxs
    have htail : l1.tail = some t := by rw [hrep1.tail, hxs]; simp
    have hmem : t ∈ xs.map Prod.fst := by rw [hxs]; simp
    cases ys with
    | nil =>
        obtain ⟨heap'', hfault⟩ :=
          union_empty_right htail (hrep1.shape.lt_length hmem) hrep2.head
        rw [hfault] at hrun
        cases hrun
    | cons y ys =>
        -- `tail_` still points into the first list
        have hback := hwf.back
        rw [back, htail, List.map_append, List.getLast?_append_of_ne_nil _ (by simp)] at hback
        exact hdisjoint hmem (List.mem_of_getLast? hback.symm)

/-- One node in each of two lists. -/
def twoLists : NodeHeap := [⟨1, none, none⟩, ⟨2, none, none⟩]

theorem twoLists_wellFormed :
    WellFormed twoLists ⟨some 0, some 0⟩ [(0, 1)] ∧ WellFormed twoLists ⟨some 1, some 1⟩ [(1, 2)] :=
  ⟨⟨.cons .nil, by decide, by decide, .cons .nil, rfl⟩,
    ⟨.cons .nil, by decide, by decide, .cons .nil, rfl⟩⟩

theorem union_never_concatenates_two :
    ¬ Concatenates twoLists ⟨some 0, some 0⟩ ⟨some 1, some 1⟩ [(0, 1)] [(1, 2)] :=
  union_never_concatenates twoLists_wellFormed.1 twoLists_wellFormed.2 (by simp)

/--
`Union` of `1` and `2`, and `PushBack(3)`: the list reads `1, 3`.  With an empty list on
either side, a null pointer is dereferenced.
-/
theorem union_loses_second_list :
    WellFormed twoLists ⟨some 0, some 0⟩ [(0, 1)] ∧
    WellFormed twoLists ⟨some 1, some 1⟩ [(1, 2)] ∧
    ¬ Concatenates twoLists ⟨some 0, some 0⟩ ⟨some 1, some 1⟩ [(0, 1)] [(1, 2)] ∧
    (∃ heap' l' heap'', (union (some ⟨some 0, some 0⟩) (some ⟨some 1, some 1⟩)).run twoLists
        = .ok () heap' ∧ (pushBack ⟨some 0, some 0⟩ 3).run heap' = .ok l' heap'' ∧
      Chain (nextOf heap'') l'.front [0, 2]) ∧
    (union (some new) (some ⟨some 1, some 1⟩)).run twoLists
      = .error (.undefined .nullPointer) twoLists ∧
    (union (some ⟨some 0, some 0⟩) (some new)).run twoLists
      = .error (.undefined .nullPointer) twoLists := by
  refine ⟨twoLists_wellFormed.1, twoLists_wellFormed.2, ?_, ?_, rfl, rfl⟩
  · rintro ⟨heap', -, hwf, -⟩
    exact absurd hwf.back (by decide)
  · exact ⟨_, _, _, rfl, rfl, .cons (.cons .nil)⟩

end LinkedList

end Technopark
