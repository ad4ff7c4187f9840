/-
What the poll engine's table holds, and whether it fits into `fds`.

The acceptor stores whatever `accept` returns.  When the process is out of descriptors that
is `-1`, and as the listener stays readable it is `-1` again in the next round of the loop.
The manager only ever takes entries out of the table, so an entry is a result of `accept`,
and neither its sign nor the size of the table is anybody's business but the acceptor's:
both are in order exactly in the runs whose accepts succeed while the table has room.

A table that has outgrown `fds` does not have to wait for an event.  The next round's fill
loop runs over the end of the array.
-/
import Technopark.Proofs.Poll

namespace Technopark.PollEngine

variable {s t : State}

/-! ### The property and the condition -/

/-- The results of `accept`, in order. -/
def accepted (actions : List Action) : List Int :=
  actions.filterMap fun
    | .accept sd => some sd
    | .manage _ => none

/-- The manager's next step accesses `fds[i]`; the poll call accesses all of its slots. -/
def Touches (s : State) (i : Nat) : Prop :=
  i < s.clients.length ∧ (s.pc = .fill i ∨ (∃ filled, s.pc = .polling filled) ∨ s.pc = .second i)

/-- The table has clients that were accepted, and fits into `fds`. -/
structure FitsPollArray (actions : List Action) (s : State) : Prop where
  entries : ∀ client ∈ s.clients, 0 ≤ client.sd ∧ client.sd ∈ accepted actions
  room : s.clients.length ≤ pollSlots
  inBounds : ∀ i, Touches s i → i < pollSlots

/-- `accept` succeeds, and the table has fewer entries than `fds` has slots. -/
def AcceptsWithRoom (s : State) : Action → Prop
  | .accept sd => 0 ≤ sd ∧ s.clients.length < pollSlots
  | .manage _ => True

/-! ### What the steps do to the table -/

/-- The manager adds nobody and changes no descriptor. -/
theorem manage_sds {answers : Answers} (h : manage answers s = .ok t) :
    (t.clients.map Client.sd).Sublist (s.clients.map Client.sd) := by
  have hsame : ∀ {u : State}, (.ok u : Except Fault State) = .ok t → u.clients = s.clients →
      (t.clients.map Client.sd).Sublist (s.clients.map Client.sd) := by
    intro u heq hclients
    injection heq with heq
    rw [← heq, hclients]
  unfold manage at h
  split at h
  · -- the top of the round
    split_ifs at h
    · exact hsame h rfl
    · exact hsame h rfl
  · -- the fill loop
    split at h
    · exact hsame h rfl
    · split_ifs at h
      exact hsame h rfl
  · -- the poll call
    split at h
    · exact hsame h rfl
    · simp only at h
      split_ifs at h
      · exact hsame h rfl
      · exact hsame h rfl
  · -- the second loop changes states only
    rename_i i _
    split at h
    · exact hsame h rfl
    · rename_i client hget
      split at h
      · injection h
      · rename_i slot _
        injection h with h
        rw [← h, (visit_visited hget slot.pollfd answers.read).sds]
  · exact hsame h rfl
  · -- the removal loop takes one entry out
    split_ifs at h
    injection h with h
    rw [← h]
    exact List.eraseP_sublist.map _
  · exact hsame h rfl

theorem accepted_concat (actions : List Action) (action : Action) :
    accepted (actions ++ [action]) = accepted actions ++ accepted [action] :=
  List.filterMap_append

/-- The table holds results of `accept`, each of them once for every time it was returned. -/
theorem clients_accepted (actions : List Action) :
    ∀ {s : State}, machineRun step start actions = .ok s →
      (s.clients.map Client.sd).Sublist (accepted actions) := by
  induction actions using List.reverseRecOn with
  | nil =>
      intro s hrun
      injection hrun with hrun
      rw [← hrun]
      exact List.nil_sublist _
  | append_singleton actions action ih =>
      intro t hrun
      obtain ⟨s, hbefore, hstep⟩ := machineRun_concat_ok hrun
      have hs := ih hbefore
      rw [accepted_concat]
      cases action with
      | accept sd =>
          injection hstep with hstep
          rw [← hstep, List.map_append]
          exact hs.append (List.Sublist.refl _)
      | manage answers => exact ((manage_sds hstep).trans hs).trans (List.sublist_append_left _ _)

/-! ### The invariant -/

/-- The part of `FitsPollArray` that speaks of one state only. -/
structure Roomy (s : State) : Prop where
  valid : ∀ client ∈ s.clients, 0 ≤ client.sd
  room : s.clients.length ≤ pollSlots

theorem fitsPollArray_iff {actions : List Action} (hrun : machineRun step start actions = .ok s) :
    FitsPollArray actions s ↔ Roomy s := by
  constructor
  · rintro ⟨hentries, hroom, -⟩
    exact ⟨fun client hclient => (hentries client hclient).1, hroom⟩
  · rintro ⟨hvalid, hroom⟩
    refine ⟨?_, hroom, ?_⟩
    · intro client hclient
      exact ⟨hvalid client hclient,
        (clients_accepted actions hrun).subset (List.mem_map_of_mem hclient)⟩
    · rintro i ⟨hi, -⟩
      exact Nat.lt_of_lt_of_le hi hroom

theorem start_roomy : Roomy start := ⟨by simp [start], Nat.zero_le _⟩

/-- An accept keeps the invariant if it succeeds and finds room, and breaks it otherwise. -/
theorem accept_roomy_iff (h : Roomy s) (sd : Int) :
    Roomy { s with clients := s.clients ++ [{ sd := sd }] } ↔ AcceptsWithRoom s (.accept sd) := by
  constructor
  · rintro ⟨hvalid, hroom⟩
    refine ⟨hvalid { sd := sd } (List.mem_append_right _ List.mem_cons_self), ?_⟩
    rw [List.length_append, List.length_singleton] at hroom
    exact hroom
  · rintro ⟨hsd, hlt⟩
    refine ⟨?_, ?_⟩
    · intro client hclient
      rcases List.mem_append.mp hclient with hclient | hclient
      · exact h.valid client hclient
      · rw [List.mem_singleton.mp hclient]
        exact hsd
    · rw [List.length_append, List.length_singleton]
      exact hlt

theorem manage_roomy (h : Roomy s) {answers : Answers} (hstep : manage answers s = .ok t) :
    Roomy t := by
  have hsub := manage_sds hstep
  refine ⟨?_, ?_⟩
  · intro client hclient
    obtain ⟨before, hbefore, hsd⟩ :=
      List.mem_map.mp (hsub.subset (List.mem_map_of_mem hclient))
    rw [← hsd]
    exact h.valid before hbefore
  · have hle := hsub.length_le
    rw [List.length_map, List.length_map] at hle
    exact Nat.le_trans hle h.room

/--
**The poll engine's table fits into `fds`, with nothing in it but accepted clients, in exactly
the runs whose accepts succeed while there is room.**
-/
theorem pollEngine_fits_iff (actions : List Action) :
    (∀ before after s, actions = before ++ after → machineRun step start before = .ok s →
      FitsPollArray before s) ↔ Guarded step AcceptsWithRoom start actions := by
  have hkeep : ∀ action s t, Roomy s → AcceptsWithRoom s action → step action s = .ok t →
      Roomy t := by
    intro action s t hs hguard hstep
    cases action with
    | accept sd =>
        injection hstep with hstep
        exact hstep ▸ (accept_roomy_iff hs sd).mpr hguard
    | manage answers => exact manage_roomy hs hstep
  have hbreak : ∀ action s, Roomy s → ¬ AcceptsWithRoom s action →
      ∃ t, step action s = .ok t ∧ ¬ Roomy t := by
    intro action s hs hguard
    cases action with
    | accept sd => exact ⟨_, rfl, mt (accept_roomy_iff hs sd).mp hguard⟩
    | manage answers => exact absurd trivial hguard
  rw [← always_iff_guarded hkeep hbreak start_roomy]
  constructor
  · intro hfits before after s heq hrun
    exact (fitsPollArray_iff hrun).mp (hfits before after s heq hrun)
  · intro hroomy before after s heq hrun
    exact (fitsPollArray_iff hrun).mpr (hroomy before after s heq hrun)

/-! ### A table that has outgrown the array -/

/-- A process without descriptors: `n` accepts fail. -/
def failedAccepts (n : Nat) : List Action := List.replicate n (.accept (-1))

theorem failedAccepts_run (n : Nat) : ∀ s : State, machineRun step s (failedAccepts n)
    = .ok { s with clients := s.clients ++ List.replicate n { sd := -1 } } := by
  induction n with
  | zero =>
      intro s
      simp [failedAccepts, machineRun, pure, Except.pure]
  | succ n ih =>
      intro s
      rw [failedAccepts, List.replicate_succ, machineRun_cons_ok rfl]
      refine (ih _).trans ?_
      simp [List.replicate_succ]

/-- The fill loop of a table that is longer than `fds` runs over the end of the array. -/
theorem fill_overruns (n : Nat) : ∀ {s : State} {i : Nat}, s.pc = .fill i → i + n = pollSlots →
    pollSlots < s.clients.length →
    machineRun step s (List.replicate (n + 1) (.manage {})) = .error (.undefined .outOfBounds) := by
  induction n with
  | zero =>
      intro s i hpc hi hlong
      obtain ⟨client, hget⟩ : ∃ client, s.clients[i]? = some client :=
        ⟨_, List.getElem?_eq_getElem (by omega)⟩
      have hend : ¬ i < pollSlots := by omega
      have hstep : step (.manage {}) s = .error (.undefined .outOfBounds) := by
        simp only [step, manage, hpc, hget, if_neg hend]
      rw [List.replicate_succ, machineRun_cons_error hstep]
  | succ n ih =>
      intro s i hpc hi hlong
      obtain ⟨client, hget⟩ : ∃ client, s.clients[i]? = some client :=
        ⟨_, List.getElem?_eq_getElem (by omega)⟩
      have hslot : i < pollSlots := by omega
      have hstep : ∃ t, step (.manage {}) s = .ok t ∧ t.pc = .fill (i + 1) ∧
          t.clients = s.clients := by
        simp only [step, manage, hpc, hget, if_pos hslot]
        exact ⟨_, rfl, rfl, rfl⟩
      obtain ⟨t, ht, hpc', hclients⟩ := hstep
      rw [List.replicate_succ, machineRun_cons_ok ht]
      exact ih hpc' (by omega) (hclients ▸ hlong)

/-- The next round does it, whatever becomes of the descriptors in the table. -/
theorem outgrown_overruns (hpc : s.pc = .head) (hlong : pollSlots < s.clients.length) :
    machineRun step s (List.replicate (pollSlots + 2) (.manage {}))
      = .error (.undefined .outOfBounds) := by
  have hsome : s.clients ≠ [] := by
    intro hnil
    rw [hnil] at hlong
    exact Nat.not_lt_zero _ hlong
  have hstep : step (.manage {}) s
      = .ok { s with disconnected := [], pc := .fill 0, round := s.round + 1 } := by
    simp only [step, manage, hpc, if_neg hsome]
  rw [List.replicate_succ, machineRun_cons_ok hstep]
  exact fill_overruns pollSlots rfl (Nat.zero_add _) hlong

/-- One failed accept is in the table, and enough of them run the manager over `fds`. -/
theorem pollEngine_outgrows :
    (∃ s, machineRun step start [.accept (-1)] = .ok s ∧ s.clients = [{ sd := -1 }] ∧
      ¬ FitsPollArray [.accept (-1)] s) ∧
    ∃ s, machineRun step start (failedAccepts (pollSlots + 1)) = .ok s ∧
      ¬ FitsPollArray (failedAccepts (pollSlots + 1)) s ∧
      machineRun step s (List.replicate (pollSlots + 2) (.manage {}))
        = .error (.undefined .outOfBounds) := by
  refine ⟨⟨_, rfl, rfl, ?_⟩, _, failedAccepts_run _ start, ?_, ?_⟩
  · intro hfits
    exact absurd (hfits.entries _ List.mem_cons_self).1 (by decide)
  · intro hfits
    have hroom := hfits.room
    simp only [start, List.nil_append, List.length_replicate] at hroom
    omega
  · exact outgrown_overruns rfl (by simp [start])

end Technopark.PollEngine
