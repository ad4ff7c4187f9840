/-
When the sweep of the select demo server survives a disconnection.

A client that is gone is erased while the iterator designates it, and the loop goes on to
advance that iterator.  The only way out is the `break` for a set that has become empty.  So
the sweep has a meaning exactly if no client is gone, or the one that is gone was the only
one.  Up to the first client that is gone the set does not change, and the sweep handles one
client after another (`sweep_through`).
-/
import Technopark.Net.ServerSelect

namespace Technopark.ServerSelect

variable {answers : Answers} {s : State} {sd : Int} {fuel : Nat} {before after : List Int}

/-! ### The property -/

/-- The client is reported, and its `recv` returns nothing or fails. -/
def Gone (answers : Answers) (sd : Int) : Prop :=
  answers.ready sd = true ∧ answers.bytesRead sd ≤ 0

instance (answers : Answers) (sd : Int) : Decidable (Gone answers sd) :=
  inferInstanceAs (Decidable (_ ∧ _))

/-- The clients that were received from. -/
def receivedFrom (log : List Event) : List Int :=
  log.filterMap fun
    | .received sd _ => some sd
    | _ => none

/-- The clients that were closed. -/
def closedIn (log : List Event) : List Int :=
  log.filterMap fun
    | .closed sd => some sd
    | _ => none

/-- Every ready client was handled once, and those that are gone were closed once and erased. -/
structure Swept (clients : OrderedSet Int) (answers : Answers) (s : State) : Prop where
  handled : receivedFrom s.log = clients.elems.filter answers.ready
  closed : closedIn s.log = clients.elems.filter (Gone answers ·)
  clients : s.clients.elems = clients.elems.filter (¬ Gone answers ·)

/-- The sweep ends, with all its iterators valid. -/
def Survives (clients : OrderedSet Int) (answers : Answers) : Prop :=
  ∃ s, sweepClients answers clients = .ok s ∧ Swept clients answers s

/-! ### One client -/

/-- What happens to a client that is not gone. -/
def events (answers : Answers) (sd : Int) : List Event :=
  if answers.ready sd then
    .received sd (answers.bytesRead sd) ::
      ((if trimEols (answers.bytes sd) = [] then [.stray .emptyBack] else []) ++
        [.sent sd (trimEols (answers.bytes sd) ++ fromServer)])
  else []

theorem reply_eq (sd : Int) (bytes : Bytes) (s : State) :
    reply sd bytes s = s.note ((if trimEols bytes = [] then [.stray .emptyBack] else []) ++
      [.sent sd (trimEols bytes ++ fromServer)]) := by
  by_cases hempty : trimEols bytes = []
  · simp [reply, hempty, State.note]
  · simp [reply, hempty, State.note]

/-- The state a client that is gone leaves. -/
def State.lose (s : State) (answers : Answers) (sd : Int) : State :=
  { clients := s.clients.erase sd,
    log := s.log ++ [.received sd (answers.bytesRead sd), .closed sd] }

/-- The branches of the loop's body. -/
theorem sweep_run (hmem : sd ∈ s.clients) :
    sweep answers (fuel + 1) (some sd) s
      = if Gone answers sd then
          if (s.lose answers sd).clients.isEmpty then .ok (s.lose answers sd)
          else
            (s.lose answers sd).clients.next (some sd) >>= fun it =>
              sweep answers fuel it (s.lose answers sd)
        else
          s.clients.next (some sd) >>= fun it =>
            sweep answers fuel it (s.note (events answers sd)) := by
  simp only [sweep, OrderedSet.deref_ok hmem, ok_bind]
  by_cases hready : answers.ready sd
  · by_cases hread : answers.bytesRead sd ≤ 0
    · have hgone : Gone answers sd := ⟨hready, hread⟩
      rw [if_pos hready, if_pos hread, if_pos hgone]
      simp only [State.note, State.lose, List.append_assoc]
      rfl
    · have hkept : ¬ Gone answers sd := fun h => hread h.2
      rw [if_pos hready, if_neg hread, if_neg hkept, reply_eq]
      simp only [State.note, events, if_pos hready, List.append_assoc]
      rfl
  · have hkept : ¬ Gone answers sd := fun h => hready h.1
    rw [if_neg hready, if_neg hkept]
    simp [State.note, events, hready]

/-- A client that is not gone leaves the set as it is. -/
theorem sweep_kept (h : s.clients.elems = before ++ sd :: after) (hkept : ¬ Gone answers sd) :
    sweep answers (fuel + 1) (some sd) s
      = sweep answers fuel after.head? (s.note (events answers sd)) := by
  have hmem : sd ∈ s.clients := by
    rw [OrderedSet.mem_def, h]
    simp
  rw [sweep_run hmem, if_neg hkept, OrderedSet.next_split h]
  rfl

/-- A client that is gone ends the sweep: it was the last one, or the iterator dangles. -/
theorem sweep_gone (hmem : sd ∈ s.clients) (hgone : Gone answers sd) :
    sweep answers (fuel + 1) (some sd) s
      = if (s.clients.erase sd).isEmpty then .ok (s.lose answers sd)
        else .error (.undefined .danglingIterator) := by
  have hnext : (s.lose answers sd).clients.next (some sd) = .error (.undefined .danglingIterator) :=
    s.clients.next_erased sd
  rw [sweep_run hmem, if_pos hgone, hnext]
  rfl

/-- **Up to the first client that is gone the sweep handles one after another.** -/
theorem sweep_through {fine rest : List Int} (h : s.clients.elems = before ++ (fine ++ rest))
    (hfine : ∀ sd ∈ fine, ¬ Gone answers sd) :
    sweep answers (rest.length + fine.length) (fine ++ rest).head? s
      = sweep answers rest.length rest.head? (s.note (fine.flatMap (events answers))) := by
  induction fine generalizing before s with
  | nil => simp [State.note]
  | cons sd fine ih =>
      have hhead : s.clients.elems = before ++ sd :: (fine ++ rest) := h
      have hsplit : (s.note (events answers sd)).clients.elems
          = before ++ [sd] ++ (fine ++ rest) := by
        rw [List.append_assoc]
        exact hhead
      rw [List.length_cons, ← Nat.add_assoc, List.cons_append, List.head?_cons,
        sweep_kept hhead (hfine sd List.mem_cons_self),
        ih hsplit fun sd' hmem => hfine sd' (List.mem_cons_of_mem _ hmem)]
      simp [State.note]

/-! ### The whole sweep -/

/-- A client that is not gone is received from if it is ready, and not closed. -/
theorem events_handled (answers : Answers) (sd : Int) :
    receivedFrom (events answers sd) = (if answers.ready sd then [sd] else []) ∧
      closedIn (events answers sd) = [] := by
  by_cases hready : answers.ready sd
  · by_cases hempty : trimEols (answers.bytes sd) = []
    · simp [events, hready, hempty, receivedFrom, closedIn]
    · simp [events, hready, hempty, receivedFrom, closedIn]
  · simp [events, hready, receivedFrom, closedIn]

theorem receivedFrom_events (fine : List Int) :
    receivedFrom (fine.flatMap (events answers)) = fine.filter answers.ready := by
  induction fine with
  | nil => rfl
  | cons sd fine ih =>
      rw [List.flatMap_cons, receivedFrom, List.filterMap_append, ← receivedFrom, ← receivedFrom,
        (events_handled answers sd).1, ih, List.filter_cons]
      split
      · rfl
      · rfl

theorem closedIn_events (fine : List Int) : closedIn (fine.flatMap (events answers)) = [] := by
  induction fine with
  | nil => rfl
  | cons sd fine ih =>
      rw [List.flatMap_cons, closedIn, List.filterMap_append, ← closedIn, ← closedIn,
        (events_handled answers sd).2, ih]
      rfl

/-- The sweep of the clients before the first one that is gone. -/
theorem sweepClients_through (answers : Answers) {clients : OrderedSet Int} {fine rest : List Int}
    (h : clients.elems = fine ++ rest) (hfine : ∀ sd ∈ fine, ¬ Gone answers sd) :
    sweepClients answers clients
      = sweep answers rest.length rest.head? ⟨clients, fine.flatMap (events answers)⟩ := by
  have hstart : (⟨clients, []⟩ : State).clients.elems = [] ++ (fine ++ rest) := h
  have hthrough := sweep_through hstart hfine
  have hlength : clients.elems.length = rest.length + fine.length := by
    rw [h, List.length_append, Nat.add_comm]
  rw [sweepClients, OrderedSet.begin, hlength, h, hthrough]
  rfl

/-- Nobody is gone: every client is handled, and nothing else happens. -/
theorem survives_of_kept {clients : OrderedSet Int}
    (hkept : ∀ sd ∈ clients, ¬ Gone answers sd) : Survives clients answers := by
  have hrun := sweepClients_through answers (List.append_nil clients.elems).symm hkept
  refine ⟨_, hrun, receivedFrom_events _, ?_, ?_⟩
  · show closedIn _ = _
    rw [closedIn_events]
    refine (List.filter_eq_nil_iff.mpr ?_).symm
    intro sd hmem
    simpa using hkept sd hmem
  · refine (List.filter_eq_self.mpr ?_).symm
    intro sd hmem
    simpa using hkept sd hmem

/-- The only client is gone: the set becomes empty, and the loop is left. -/
theorem survives_of_only {clients : OrderedSet Int} {sd : Int} (h : clients.elems = [sd])
    (hgone : Gone answers sd) : Survives clients answers := by
  have hmem : sd ∈ clients := by
    rw [OrderedSet.mem_def, h]
    exact List.mem_cons_self
  have herased : (clients.erase sd).elems = [] := by
    show clients.elems.erase sd = []
    rw [h, List.erase_cons_head]
  have hrun : sweepClients answers clients
      = .ok (({ clients := clients, log := [] } : State).lose answers sd) := by
    have hempty : (clients.erase sd).isEmpty = true := by rw [OrderedSet.isEmpty, herased]; rfl
    rw [sweepClients, OrderedSet.begin, h]
    refine (sweep_gone hmem hgone).trans ?_
    exact if_pos hempty
  refine ⟨_, hrun, ?_, ?_, ?_⟩
  · rw [h]
    simp [State.lose, receivedFrom, hgone.1]
  · rw [h]
    simp [State.lose, closedIn, hgone]
  · rw [h]
    simp [State.lose, herased, hgone]

/-- The clients up to the first one that is gone. -/
theorem exists_first_gone {l : List Int} (h : ∃ sd ∈ l, Gone answers sd) :
    ∃ fine sd rest, l = fine ++ sd :: rest ∧ (∀ sd' ∈ fine, ¬ Gone answers sd') ∧
      Gone answers sd := by
  induction l with
  | nil => simp at h
  | cons sd l ih =>
      by_cases hgone : Gone answers sd
      · exact ⟨[], sd, l, rfl, by simp, hgone⟩
      · obtain ⟨sd', hmem, hgone'⟩ := h
        rcases List.mem_cons.mp hmem with rfl | hmem
        · exact absurd hgone' hgone
        · obtain ⟨fine, first, rest, rfl, hfine, hfirst⟩ := ih ⟨sd', hmem, hgone'⟩
          refine ⟨sd :: fine, first, rest, rfl, ?_, hfirst⟩
          intro x hx
          rcases List.mem_cons.mp hx with rfl | hx
          · exact hgone
          · exact hfine x hx

/-- Somebody is gone and is not alone: the iterator dangles. -/
theorem sweepClients_dangling {clients : OrderedSet Int} (hone : clients.elems.length ≠ 1)
    (h : ∃ sd ∈ clients, Gone answers sd) :
    sweepClients answers clients = .error (.undefined .danglingIterator) := by
  obtain ⟨fine, sd, rest, hsplit, hfine, hgone⟩ := exists_first_gone h
  have hmem : sd ∈ clients := by
    rw [OrderedSet.mem_def, hsplit]
    simp
  have hleft : (clients.erase sd).isEmpty = false := by
    have hlength : (clients.elems.erase sd).length = clients.elems.length - 1 :=
      List.length_erase_of_mem hmem
    have hpos : 0 < clients.elems.length := List.length_pos_of_mem hmem
    show (clients.elems.erase sd).isEmpty = false
    rw [List.isEmpty_eq_false_iff]
    intro hnil
    rw [hnil, List.length_nil] at hlength
    omega
  rw [sweepClients_through answers hsplit hfine, List.length_cons, List.head?_cons,
    sweep_gone hmem hgone, hleft]
  rfl

theorem kept_iff (sd : Int) :
    ¬ Gone answers sd ↔ (answers.ready sd → 0 < answers.bytesRead sd) := by
  rw [Gone, not_and, Int.not_le]

/--
**The sweep survives exactly if no client that is reported is gone, or there is only one
client.**
-/
theorem sweep_survives_iff (clients : OrderedSet Int) (answers : Answers) :
    Survives clients answers ↔
      (∀ sd ∈ clients, answers.ready sd → 0 < answers.bytesRead sd) ∨
        clients.elems.length = 1 := by
  simp only [← kept_iff]
  by_cases hkept : ∀ sd ∈ clients, ¬ Gone answers sd
  · exact iff_of_true (survives_of_kept hkept) (.inl hkept)
  obtain ⟨sd, hmem, hgone⟩ : ∃ sd, sd ∈ clients ∧ Gone answers sd := by
    simpa using hkept
  rw [or_iff_right hkept]
  constructor
  · rintro ⟨s, hrun, -⟩
    by_contra hone
    rw [sweepClients_dangling hone ⟨sd, hmem, hgone⟩] at hrun
    injection hrun
  · intro hone
    obtain ⟨only, honly⟩ := List.length_eq_one_iff.mp hone
    have hsame : sd = only := by
      rw [OrderedSet.mem_def, honly] at hmem
      exact List.mem_singleton.mp hmem
    exact survives_of_only honly (hsame ▸ hgone)

/-- Two clients, of which the first has disconnected. -/
def twoClients : OrderedSet Int := ⟨[4, 5], by decide⟩

theorem sweep_dangles :
    sweepClients { ready := fun sd => sd = 4, waiting := fun _ => some [] } twoClients
      = .error (.undefined .danglingIterator) ∧
    ¬ Survives twoClients { ready := fun sd => sd = 4, waiting := fun _ => some [] } := by
  have hrun : sweepClients { ready := fun sd => sd = 4, waiting := fun _ => some [] } twoClients
      = .error (.undefined .danglingIterator) := by
    refine sweepClients_dangling (by decide) ⟨4, ?_, ?_⟩
    · decide
    · exact ⟨rfl, by decide⟩
  refine ⟨hrun, ?_⟩
  rintro ⟨s, hok, -⟩
  rw [hrun] at hok
  injection hok

end Technopark.ServerSelect
