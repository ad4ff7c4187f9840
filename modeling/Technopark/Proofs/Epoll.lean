/-
The protocol of the epoll engine.

`Registered` is what holds between any two steps: objects on the heap and entries of the
interest set are paired (`Lib/Paired.lean`), an entry waits for what the client's state says,
and the counts of every client agree.  Which counts these are is left open: `Tallied` is the law
of every run, `Answered` that of the runs in which no reply was cut short, and `Counting` is
what both have to show.  `AtPc` adds what deferred deletion
needs: the clients of the events still to be handled and the disconnected ones are all on the
heap, and none of them comes twice.  A batch has every descriptor once, and descriptors and
objects correspond, so a batch has every object once.

A failed `epoll_ctl` leaves a client whose state and entry disagree, and the loop throws;
about that state nothing is said.
-/
import Technopark.Lib.Paired
import Technopark.Lib.Run
import Technopark.Net.Epoll
import Mathlib.Data.List.Nodup
import Mathlib.Tactic.SplitIfs

namespace Technopark.EpollEngine

variable {listener : Int} {s : State} {Counts : Cell → Prop} {Result : Int → Prop}

/-! ### The protocol and what is assumed -/

/-- The replies a client is owed. -/
def owed : ClientState → Nat
  | .wantRead => 0
  | .wantWrite => 1

/-- Every read was answered, or is about to be. -/
def Answered (cell : Cell) : Prop :=
  cell.reads = cell.replies + owed cell.client.state

/-- Every read had its turn, whether its reply was taken whole or not. -/
def Tallied (cell : Cell) : Prop :=
  cell.reads = cell.replies + cell.unsent + owed cell.client.state

/-- The heap, the states and the interest set agree. -/
structure Registered (listener : Int) (Counts : Cell → Prop) (s : State) : Prop where
  /-- Objects and registered clients correspond, and the entry has the mask of the state. -/
  paired : Paired (· ≠ listener) (fun cell : Cell => cell.client.sd) Interest.data
    (fun cell interest => interest.events = mask cell.client.state) s.heap s.interest
  counts : ∀ cs cell, s.heap cs = some cell → Counts cell

/--
`epoll_wait` reports registered descriptors, each once; `accept`, `new` and `EPOLL_CTL_ADD`
succeed, with a descriptor and an address that are not in use.
-/
def Assumed (listener : Int) (s : State) (answers : Answers) : Prop :=
  match s.pc with
  | .head => ∀ ready, answers.wait = some ready → (ready.map Prod.fst).Nodup ∧
      ∀ fd ∈ ready.map Prod.fst, s.interest fd ≠ none
  | .events (event :: _) => event.fd = listener → 0 ≤ answers.accept ∧
      s.interest answers.accept = none ∧ s.heap answers.new = none ∧ answers.ctl = true
  | _ => True

/-- The event has the engine write to a client. -/
def Writes (listener : Int) (s : State) (event : EpollEvent) : Prop :=
  event.fd ≠ listener ∧ event.events.epollhup = false ∧ event.events.epollin = false ∧
    event.events.epollout = true ∧
      ∃ cell, s.heap event.data = some cell ∧ cell.client.state = .wantWrite

/-- If the step writes, then with such a result. -/
def WritesWith (Result : Int → Prop) (listener : Int) (s : State) (answers : Answers) : Prop :=
  match s.pc with
  | .events (event :: _) => Writes listener s event → Result answers.write
  | _ => True

/-- A reply that is written is taken whole. -/
abbrev Whole : Int → State → Answers → Prop := WritesWith (· = replySize)

/-- What is counted of a client holds at first, and reads and such writes keep it. -/
structure Counting (Counts : Cell → Prop) (Result : Int → Prop) : Prop where
  fresh : ∀ sd, Counts { client := { sd := sd } }
  read : ∀ cell, cell.client.state = .wantRead → Counts cell → Counts cell.read
  wrote : ∀ cell result, Result result → cell.client.state = .wantWrite → Counts cell →
    Counts (cell.wrote result)

/-! ### The invariant -/

/-- The objects a batch still needs: the disconnected ones, and those of the events left. -/
def pending (listener : Int) (s : State) (left : List EpollEvent) : List Nat :=
  s.disconnected ++ (left.filter fun event => event.fd ≠ listener).map EpollEvent.data

/-- These objects are on the heap, and none comes twice. -/
def Live (s : State) (objects : List Nat) : Prop :=
  objects.Nodup ∧ ∀ cs ∈ objects, s.heap cs ≠ none

/-- What holds at each point of the round. -/
def AtPc (listener : Int) (s : State) : Pc → Prop
  | .events left => Live s (pending listener s left)
  | .remove left => Live s left
  | _ => True

/-- The invariant of the loop, while it has not thrown. -/
structure Running (listener : Int) (Counts : Cell → Prop) (s : State) : Prop where
  registered : Registered listener Counts s
  listening : s.interest listener = some ⟨.epollin, dataOfFd listener⟩
  atPc : AtPc listener s s.pc

/-- The invariant. -/
def Inv (listener : Int) (Counts : Cell → Prop) (s : State) : Prop :=
  s.pc = .stopped ∨ Running listener Counts s

theorem start_inv (listener : Int) (Counts : Cell → Prop) :
    Inv listener Counts (start listener) := by
  refine .inr ⟨⟨⟨?_, ?_⟩, ?_⟩, ?_, trivial⟩
  · intro cs cell hcell
    simp [start] at hcell
  · intro fd interest hfd hinterest
    simp only [start, Function.update_of_ne hfd] at hinterest
    exact absurd hinterest (by simp)
  · intro cs cell hcell
    simp [start] at hcell
  · simp [start]

/-! ### What a step does to a client -/

theorem Live.mono {t : State} {objects objects' : List Nat} (h : Live s objects)
    (hsub : objects'.Sublist objects) (hheap : ∀ cs, s.heap cs ≠ none → t.heap cs ≠ none) :
    Live t objects' :=
  ⟨h.1.sublist hsub, fun cs hcs => hheap cs (h.2 cs (hsub.subset hcs))⟩

/-- Writing to an object frees none. -/
theorem store_live (s : State) (cs : Nat) (cell : Cell) :
    ∀ cs', s.heap cs' ≠ none → (s.store cs cell).heap cs' ≠ none := by
  intro cs' hcs'
  by_cases heq : cs' = cs
  · subst heq
    simp [State.store]
  · simpa only [State.store, Function.update_of_ne heq] using hcs'

/-- An accepted client. -/
theorem accept_running (hcounting : Counting Counts Result) {left : List EpollEvent}
    (h : Running listener Counts s) (hpc : s.pc = .events left) {answers : Answers}
    (hsd : s.interest answers.accept = none) (hcs : s.heap answers.new = none)
    (hctl : answers.ctl = true) :
    Running listener Counts (acceptAction answers s) := by
  have haccept : acceptAction answers s = { s with
      heap := Function.update s.heap answers.new (some { client := { sd := answers.accept } })
      interest := Function.update s.interest answers.accept
        (some ⟨.epollin, answers.new⟩) } := by
    have hfree : answers.ctl = true ∧ (s.store answers.new
        { client := { sd := answers.accept } }).interest answers.accept = none := ⟨hctl, hsd⟩
    rw [acceptAction, epollAdd, if_pos hfree]
    rfl
  have hne : answers.accept ≠ listener := by
    intro heq
    rw [heq, h.listening] at hsd
    exact absurd hsd (by simp)
  have hat := h.atPc
  rw [hpc] at hat
  rw [haccept]
  refine ⟨⟨?_, ?_⟩, ?_, ?_⟩
  · exact h.registered.paired.insert hne rfl rfl hcs hsd
  · intro cs cell hcell
    by_cases heq : cs = answers.new
    · subst heq
      obtain rfl : _ = cell := Option.some.inj (by simpa using hcell)
      exact hcounting.fresh _
    · exact h.registered.counts cs cell (by simpa [Function.update_of_ne heq] using hcell)
  · show Function.update s.interest answers.accept _ listener = _
    rw [Function.update_of_ne hne.symm]
    exact h.listening
  · show AtPc listener _ s.pc
    rw [hpc]
    exact Live.mono hat (List.Sublist.refl _) (store_live s _ _)

/-- A client changes its state, and its entry with it; or `epoll_ctl` fails. -/
theorem switch_inv {left : List EpollEvent} (h : Running listener Counts s)
    (hpc : s.pc = .events left) (answers : Answers) {cs : Nat} {cell new : Cell}
    (hcell : s.heap cs = some cell) (hsd : new.client.sd = cell.client.sd)
    (hcounts : Counts new) :
    Inv listener Counts (setDesireEvents answers new.client.sd (mask new.client.state) cs
      (s.store cs new)) := by
  obtain ⟨hne, interest, hinterest, -, -⟩ := h.registered.paired.indexed cs cell hcell
  have hat := h.atPc
  rw [hpc] at hat
  unfold setDesireEvents
  by_cases hok : answers.ctl = true ∧ (s.store cs new).interest new.client.sd ≠ none
  · rw [if_pos hok]
    refine .inr ⟨⟨?_, ?_⟩, ?_, ?_⟩
    · exact h.registered.paired.replace hcell hsd rfl rfl
    · intro cs' cell' hcell'
      by_cases heq : cs' = cs
      · subst heq
        obtain rfl : new = cell' := Option.some.inj (by simpa [State.store] using hcell')
        exact hcounts
      · refine h.registered.counts cs' cell' ?_
        simpa [State.store, Function.update_of_ne heq] using hcell'
    · have hother : listener ≠ new.client.sd := by
        rw [hsd]
        exact hne.symm
      show Function.update s.interest new.client.sd _ listener = _
      rw [Function.update_of_ne hother]
      exact h.listening
    · show AtPc listener _ s.pc
      rw [hpc]
      exact Live.mono hat (List.Sublist.refl _) (store_live s cs new)
  · rw [if_neg hok]
    exact .inl rfl

/-- A client is queued for deletion. -/
theorem disconnect_running {left : List EpollEvent} {cs : Nat}
    (h : Registered listener Counts s)
    (hlistening : s.interest listener = some ⟨.epollin, dataOfFd listener⟩)
    (hpc : s.pc = .events left) (hlive : Live s (s.disconnected ++ cs ::
      (left.filter fun event => event.fd ≠ listener).map EpollEvent.data)) :
    Running listener Counts (s.disconnect cs) := by
  refine ⟨⟨h.paired, h.counts⟩, hlistening, ?_⟩
  show AtPc listener _ s.pc
  rw [hpc]
  have hsame : pending listener (s.disconnect cs) left = s.disconnected ++ cs ::
      (left.filter fun event => event.fd ≠ listener).map EpollEvent.data := by
    simp [pending, State.disconnect]
  show Live _ (pending listener (s.disconnect cs) left)
  rw [hsame]
  exact hlive

theorem wrote_sd (cell : Cell) (result : Int) :
    (cell.wrote result).client.sd = cell.client.sd := by
  unfold Cell.wrote
  split_ifs <;> rfl

theorem wrote_state (cell : Cell) (result : Int) :
    (cell.wrote result).client.state = .wantRead := by
  unfold Cell.wrote
  split_ifs <;> rfl

theorem handle_client {event : EpollEvent} {answers : Answers} {cell : Cell}
    (hlistener : ¬ event.fd = listener) (hhup : ¬ event.events.epollhup = true)
    (hcell : s.heap event.data = some cell) :
    handle listener answers event s
      = if event.events.epollin then
          if cell.client.state ≠ .wantRead then .ok s
          else .ok (readFrom answers event.data cell s)
        else if event.events.epollout then
          if cell.client.state ≠ .wantWrite then .ok s
          else .ok (writeTo answers event.data cell s)
        else .ok s := by
  rw [handle, if_neg hlistener, if_neg hhup, hcell]

/-- One event of the batch. -/
theorem handle_inv (hcounting : Counting Counts Result) {event : EpollEvent}
    {left : List EpollEvent} {answers : Answers} (h : Registered listener Counts s)
    (hlistening : s.interest listener = some ⟨.epollin, dataOfFd listener⟩)
    (hpc : s.pc = .events left) (hlive : Live s (pending listener s (event :: left)))
    (haccept : event.fd = listener → s.interest answers.accept = none ∧
      s.heap answers.new = none ∧ answers.ctl = true)
    (hresult : Writes listener s event → Result answers.write) :
    ∃ t, handle listener answers event s = .ok t ∧ Inv listener Counts t := by
  have hsub : (pending listener s left).Sublist (pending listener s (event :: left)) :=
    List.Sublist.append (List.Sublist.refl _)
      (((List.sublist_cons_self event left).filter _).map EpollEvent.data)
  have hleft : Running listener Counts s := by
    refine ⟨h, hlistening, ?_⟩
    rw [hpc]
    exact hlive.mono hsub fun _ hcs => hcs
  by_cases hlistener : event.fd = listener
  · obtain ⟨hsd, hcs, hctl⟩ := haccept hlistener
    exact ⟨_, by rw [handle, if_pos hlistener], .inr
      (accept_running hcounting hleft hpc hsd hcs hctl)⟩
  · have hpending : pending listener s (event :: left) = s.disconnected ++ event.data ::
        (left.filter fun event => event.fd ≠ listener).map EpollEvent.data := by
      simp [pending, hlistener]
    rw [hpending] at hlive
    have hdisconnect := disconnect_running h hlistening hpc hlive
    by_cases hhup : event.events.epollhup = true
    · exact ⟨_, by rw [handle, if_neg hlistener, if_pos hhup], .inr hdisconnect⟩
    · -- the event is that of an object, which no earlier event of the batch has deleted
      obtain ⟨cell, hcell⟩ : ∃ cell, s.heap event.data = some cell :=
        Option.ne_none_iff_exists'.mp (hlive.2 event.data (by simp))
      have hcounts := h.counts event.data cell hcell
      rw [handle_client hlistener hhup hcell]
      split_ifs with hin hstate hout hstate
      · exact ⟨_, rfl, .inr hleft⟩
      · refine ⟨_, rfl, ?_⟩
        rw [not_not] at hstate
        unfold readFrom
        split_ifs with hneg hpos
        · exact .inr hdisconnect
        · exact switch_inv hleft hpc answers hcell rfl (hcounting.read cell hstate hcounts)
        · exact .inr hdisconnect
      · exact ⟨_, rfl, .inr hleft⟩
      · rw [not_not] at hstate
        have hwrites : Writes listener s event :=
          ⟨hlistener, by simpa using hhup, by simpa using hin, hout, cell, hcell, hstate⟩
        have hwrote := hcounting.wrote cell answers.write (hresult hwrites) hstate hcounts
        have hswitch := switch_inv hleft hpc answers hcell (wrote_sd cell _) hwrote
        rw [wrote_sd, wrote_state] at hswitch
        exact ⟨_, rfl, hswitch⟩
      · exact ⟨_, rfl, .inr hleft⟩

/-- One pass of the deletion loop. -/
theorem delete_running {cs : Nat} {left : List Nat} (h : Registered listener Counts s)
    (hlistening : s.interest listener = some ⟨.epollin, dataOfFd listener⟩)
    (hpc : s.pc = .remove left) (hlive : Live s (cs :: left)) :
    ∃ t, deleteClient cs s = .ok t ∧ Running listener Counts t := by
  obtain ⟨hcs, hnodup⟩ := List.nodup_cons.mp hlive.1
  obtain ⟨cell, hcell⟩ : ∃ cell, s.heap cs = some cell :=
    Option.ne_none_iff_exists'.mp (hlive.2 cs (List.mem_cons_self ..))
  obtain ⟨hne, -⟩ := h.paired.indexed cs cell hcell
  have hother : ∀ cs' cell', Function.update s.heap cs none cs' = some cell' →
      s.heap cs' = some cell' := by
    intro cs' cell' hcell'
    by_cases heq : cs' = cs
    · subst heq
      simp at hcell'
    · rwa [Function.update_of_ne heq] at hcell'
  refine ⟨_, by rw [deleteClient, hcell], ⟨h.paired.delete hcell, ?_⟩, ?_, ?_⟩
  · intro cs' cell' hcell'
    exact h.counts cs' cell' (hother cs' cell' hcell')
  · show Function.update s.interest cell.client.sd none listener = _
    rw [Function.update_of_ne hne.symm]
    exact hlistening
  · show AtPc listener _ s.pc
    rw [hpc]
    refine ⟨hnodup, ?_⟩
    intro cs' hcs'
    have hne' : cs' ≠ cs := fun heq => hcs (heq ▸ hcs')
    show Function.update s.heap cs none cs' ≠ none
    rw [Function.update_of_ne hne']
    exact hlive.2 cs' (List.mem_cons_of_mem _ hcs')

/-! ### The batch -/

theorem dataOfFd_fd {fd : Int} (hpos : 0 ≤ fd) (hint : fd ≤ intMax) :
    toInt32 (dataOfFd fd) = fd := by
  unfold intMax at hint
  have hdata : dataOfFd fd = fd.toNat := by
    unfold dataOfFd
    rw [Int.emod_eq_of_lt hpos (by omega)]
  rw [hdata, toInt32_eq (by omega)]
  omega

/-- The objects of a batch. -/
def reported (listener : Int) (s : State) (ready : List (Int × Bits)) : List Nat :=
  ((report s ready).filter fun event => event.fd ≠ listener).map EpollEvent.data

/-- A reported object is that of a reported descriptor. -/
theorem mem_reported (h : Registered listener Counts s)
    (hlistening : s.interest listener = some ⟨.epollin, dataOfFd listener⟩)
    (hfd : toInt32 (dataOfFd listener) = listener) {ready : List (Int × Bits)} {cs : Nat}
    (hcs : cs ∈ reported listener s ready) :
    ∃ cell, s.heap cs = some cell ∧ cell.client.sd ∈ ready.map Prod.fst := by
  obtain ⟨event, hevent, rfl⟩ := List.mem_map.mp hcs
  obtain ⟨hreport, hne⟩ := List.mem_filter.mp hevent
  obtain ⟨r, hr, hsome⟩ := List.mem_filterMap.mp hreport
  obtain ⟨interest, hinterest, rfl⟩ := Option.map_eq_some_iff.mp hsome
  have hclient : r.1 ≠ listener := by
    intro heq
    rw [heq, hlistening] at hinterest
    rw [← Option.some.inj hinterest] at hne
    simp [EpollEvent.fd, hfd] at hne
  obtain ⟨cell, hcell, hsd⟩ := h.paired.stored r.1 interest hclient hinterest
  refine ⟨cell, hcell, ?_⟩
  rw [hsd]
  exact List.mem_map_of_mem hr

/-- The objects of a batch of different descriptors are different. -/
theorem reported_nodup (h : Registered listener Counts s)
    (hlistening : s.interest listener = some ⟨.epollin, dataOfFd listener⟩)
    (hfd : toInt32 (dataOfFd listener) = listener) {ready : List (Int × Bits)}
    (hnodup : (ready.map Prod.fst).Nodup) : (reported listener s ready).Nodup := by
  induction ready with
  | nil => exact List.nodup_nil
  | cons r ready ih =>
      rw [List.map_cons, List.nodup_cons] at hnodup
      cases hinterest : s.interest r.1 with
      | none =>
          have hsame : reported listener s (r :: ready) = reported listener s ready := by
            simp [reported, report, hinterest]
          rw [hsame]
          exact ih hnodup.2
      | some interest =>
          by_cases hevent : toInt32 interest.data = listener
          · have hsame : reported listener s (r :: ready) = reported listener s ready := by
              simp [reported, report, hinterest, EpollEvent.fd, hevent]
            rw [hsame]
            exact ih hnodup.2
          · have hcons : reported listener s (r :: ready)
                = interest.data :: reported listener s ready := by
              simp [reported, report, hinterest, EpollEvent.fd, hevent]
            have hone : interest.data ∈ reported listener s [r] := by
              simp [reported, report, hinterest, EpollEvent.fd, hevent]
            rw [hcons]
            refine List.nodup_cons.mpr ⟨?_, ih hnodup.2⟩
            intro hmem
            -- the same object twice would be the same descriptor twice
            obtain ⟨cell, hcell, hsd⟩ := mem_reported h hlistening hfd hone
            obtain ⟨cell', hcell', hsd'⟩ := mem_reported h hlistening hfd hmem
            rw [hcell] at hcell'
            rw [← Option.some.inj hcell'] at hsd'
            rw [List.map_singleton, List.mem_singleton] at hsd
            exact hnodup.1 (hsd ▸ hsd')

/-! ### Steps and runs -/

/-- A step of the loop. -/
theorem step_inv (hcounting : Counting Counts Result) (hpos : 0 < listener)
    (hint : listener ≤ intMax) (answers : Answers) (s : State) (h : Inv listener Counts s)
    (hguard : Assumed listener s answers ∧ WritesWith Result listener s answers) :
    ∃ t, step listener answers s = .ok t ∧ Inv listener Counts t := by
  obtain ⟨hassumed, hwrites⟩ := hguard
  rcases h with hstopped | h
  · exact ⟨s, by rw [step, hstopped], .inl hstopped⟩
  · have hregistered : ∀ {t : State}, t.heap = s.heap → t.interest = s.interest →
        Registered listener Counts t := by
      intro t hheap hinterest
      refine ⟨?_, ?_⟩
      · rw [hheap, hinterest]
        exact h.registered.paired
      · rw [hheap]
        exact h.registered.counts
    have hat := h.atPc
    cases hpc : s.pc with
    | head =>
        rw [Assumed, hpc] at hassumed
        cases hwait : answers.wait with
        | none => exact ⟨_, by rw [step, hpc]; simp only [hwait]; rfl, .inl rfl⟩
        | some ready =>
            cases ready with
            | nil =>
                have hrun : step listener answers s = .ok { s with disconnected := [] } := by
                  simp only [step, hpc, hwait]
                refine ⟨_, hrun, .inr ⟨hregistered rfl rfl, h.listening, ?_⟩⟩
                show AtPc listener _ s.pc
                rw [hpc]
                trivial
            | cons r ready =>
                have hrun : step listener answers s = .ok { s with
                    disconnected := [], pc := .events (report s (r :: ready)) } := by
                  simp only [step, hpc, hwait]
                have hfd := dataOfFd_fd (Int.le_of_lt hpos) hint
                have hnodup := (hassumed _ hwait).1
                refine ⟨_, hrun, .inr ⟨hregistered rfl rfl, h.listening, ?_⟩⟩
                refine ⟨reported_nodup h.registered h.listening hfd hnodup, ?_⟩
                intro cs hcs
                obtain ⟨cell, hcell, -⟩ := mem_reported h.registered h.listening hfd hcs
                show s.heap cs ≠ none
                rw [hcell]
                simp
    | events left =>
        rw [hpc] at hat
        cases left with
        | nil =>
            refine ⟨{ s with pc := .remove s.disconnected }, by rw [step, hpc], .inr ?_⟩
            refine ⟨hregistered rfl rfl, h.listening, ?_⟩
            show Live _ s.disconnected
            rw [AtPc, pending, List.filter_nil, List.map_nil, List.append_nil] at hat
            exact hat
        | cons event left =>
            rw [Assumed, hpc] at hassumed
            rw [WritesWith, hpc] at hwrites
            rw [step, hpc]
            exact handle_inv hcounting (hregistered rfl rfl) h.listening rfl hat
              (fun hlistener => (hassumed hlistener).2) hwrites
    | remove left =>
        rw [hpc] at hat
        cases left with
        | nil =>
            exact ⟨{ s with pc := .head }, by rw [step, hpc],
              .inr ⟨hregistered rfl rfl, h.listening, trivial⟩⟩
        | cons cs left =>
            obtain ⟨t, ht, hrunning⟩ :=
              delete_running (s := { s with pc := .remove left }) (hregistered rfl rfl) h.listening
                rfl hat
            exact ⟨t, by rw [step, hpc]; exact ht, .inr hrunning⟩
    | stopped => exact ⟨s, by rw [step, hpc], .inl hpc⟩

theorem tallied_counting : Counting Tallied fun _ => True := by
  refine ⟨fun _ => rfl, ?_, ?_⟩
  · intro cell hstate h
    rw [Tallied, hstate] at h
    show cell.reads + 1 = cell.replies + cell.unsent + 1
    rw [h]
    rfl
  · intro cell result _ hstate h
    rw [Tallied, hstate] at h
    rw [Tallied, wrote_state]
    unfold Cell.wrote
    simp only [owed] at h ⊢
    split_ifs <;> simp only <;> omega

/-- While replies are taken whole, nobody is owed one he will not get. -/
theorem answered_counting : Counting Answered (· = replySize) := by
  refine ⟨fun _ => rfl, ?_, ?_⟩
  · intro cell hstate h
    rw [Answered, hstate] at h
    show cell.reads + 1 = cell.replies + 1
    rw [h]
    rfl
  · intro cell result hresult hstate h
    rw [Answered, hstate] at h
    rw [Answered, Cell.wrote, if_pos hresult]
    exact h

/-- What a count keeps holds wherever the loop is, up to an exception. -/
theorem registered_run (hcounting : Counting Counts Result) (hpos : 0 < listener)
    (hint : listener ≤ intMax) {answers : List Answers}
    (hassumed : Guarded (step listener) (Assumed listener) (start listener) answers)
    (hwrites : Guarded (step listener) (WritesWith Result listener) (start listener) answers) :
    ∃ s, machineRun (step listener) (start listener) answers = .ok s ∧
      (s.pc = .head → Registered listener Counts s) := by
  obtain ⟨s, hrun, hinv⟩ := (hassumed.and hwrites).invariant (step_inv hcounting hpos hint)
    (start_inv listener Counts)
  refine ⟨s, hrun, fun hpc => ?_⟩
  rcases hinv with hstopped | hrunning
  · rw [hpc] at hstopped
    exact absurd hstopped (by simp)
  · exact hrunning.registered

/-- A step has such a result if every result is one. -/
theorem guarded_writesWith (hresult : ∀ result, Result result) (listener : Int) (s : State)
    (answers : List Answers) : Guarded (step listener) (WritesWith Result listener) s answers := by
  intro before action _ t _ _
  unfold WritesWith
  split
  · exact fun _ => hresult _
  · trivial

/--
**At every loop head, up to an exception, the objects on the heap and the registered clients
correspond, every client waits for what its state says, and its reads are the replies it was
written, those that `write` did not take whole, and the one it is still owed.**  So its reads and
its replies agree with its state exactly if every reply to it was taken whole, and they do for
every client in a run in which every reply is.  No object is used after it was deleted, and none
is deleted twice.
-/
theorem epollEngine_keeps_protocol (listener : Int) (hpos : 0 < listener)
    (hint : listener ≤ intMax) (answers : List Answers)
    (hassumed : Guarded (step listener) (Assumed listener) (start listener) answers) :
    ∀ before after, answers = before ++ after →
      ∃ s, machineRun (step listener) (start listener) before = .ok s ∧
        (s.pc = .head → Registered listener Tallied s ∧
          (∀ cs cell, s.heap cs = some cell → (Answered cell ↔ cell.unsent = 0)) ∧
          (Guarded (step listener) (Whole listener) (start listener) before →
            Registered listener Answered s)) := by
  intro before after heq
  subst heq
  obtain ⟨s, hrun, htallied⟩ := registered_run tallied_counting hpos hint hassumed.of_append
    (guarded_writesWith (fun _ => trivial) listener _ before)
  refine ⟨s, hrun, fun hpc => ⟨htallied hpc, ?_, fun hwhole => ?_⟩⟩
  · intro cs cell hcell
    have htally := (htallied hpc).counts cs cell hcell
    rw [Tallied] at htally
    rw [Answered]
    omega
  · obtain ⟨t, hrun', hanswered⟩ :=
      registered_run answered_counting hpos hint hassumed.of_append hwhole
    obtain rfl : s = t := Except.ok.inj (hrun.symm.trans hrun')
    exact hanswered hpc

/-- A client is accepted at an address, sends, and is written to with this result. -/
def oneReply (result : Int) : List Answers :=
  [{ wait := some [(3, { epollin := true })] }, { accept := 5, new := 4096 }, {}, {},
    { wait := some [(5, { epollin := true })] }, { read := 3 }, {}, {},
    { wait := some [(5, { epollout := true })] }, { write := result }, {}, {}]

/-- Then it comes to the end of its stream. -/
def oneVisit : List Answers :=
  oneReply replySize ++
    ([{ wait := some [(5, { epollin := true })] }, {}, {}, {}, {}] : List Answers)

theorem assumed_wait {fd : Int} {bits : Bits} (hpc : s.pc = .head) (hfd : s.interest fd ≠ none) :
    Assumed 3 s { wait := some [(fd, bits)] } := by
  rw [Assumed, hpc]
  intro ready hready
  obtain rfl := Option.some.inj hready
  exact ⟨List.nodup_singleton fd, by simpa using hfd⟩

/-- An event of the client assumes nothing. -/
theorem assumed_event {event : EpollEvent} {left : List EpollEvent} {answers : Answers}
    (hpc : s.pc = .events (event :: left)) (hfd : event.fd ≠ 3) : Assumed 3 s answers := by
  rw [Assumed, hpc]
  exact fun heq => absurd heq hfd

theorem oneReply_assumed (result : Int) :
    Guarded (step 3) (Assumed 3) (start 3) (oneReply result) := by
  refine .cons (assumed_wait rfl (by decide)) rfl (.cons ?_ rfl (.cons trivial rfl
    (.cons trivial rfl ?_)))
  · exact fun _ => ⟨by decide, by decide, rfl, rfl⟩
  refine .cons (assumed_wait rfl (by decide)) rfl (.cons (assumed_event rfl (by decide)) rfl
    (.cons trivial rfl (.cons trivial rfl ?_)))
  exact .cons (assumed_wait rfl (by decide)) rfl (.cons (assumed_event rfl (by decide)) rfl
    (.cons trivial rfl (.cons trivial rfl .nil)))

theorem epollEngine_one_client :
    ∃ s, machineRun (step 3) (start 3) oneVisit = .ok s ∧
      (s.pc = .head → Registered 3 Tallied s ∧
        (∀ cs cell, s.heap cs = some cell → (Answered cell ↔ cell.unsent = 0)) ∧
        (Guarded (step 3) (Whole 3) (start 3) oneVisit → Registered 3 Answered s)) := by
  refine epollEngine_keeps_protocol 3 (by decide) (by decide) oneVisit ?_ oneVisit [] (by simp)
  refine (oneReply_assumed replySize).append rfl ?_
  exact .cons (assumed_wait rfl (by decide)) rfl (.cons (assumed_event rfl (by decide)) rfl
    (.cons trivial rfl (.cons trivial rfl (.cons trivial rfl .nil))))

/--
**A reply that could not be written is never made up for**: the client was reset, `write`
returns -1, and at the next loop head it wants to be read from with one read and no reply.
-/
theorem epollEngine_drops_reply :
    Guarded (step 3) (Assumed 3) (start 3) (oneReply (-1)) ∧
      ∃ s, machineRun (step 3) (start 3) (oneReply (-1)) = .ok s ∧ s.pc = .head ∧
        s.heap 4096 = some { client := { sd := 5, state := .wantRead }, reads := 1, unsent := 1 } ∧
        ¬ Registered 3 Answered s := by
  refine ⟨oneReply_assumed (-1), _, rfl, rfl, rfl, ?_⟩
  intro h
  have hanswered := h.counts 4096 _ rfl
  unfold Answered at hanswered
  exact absurd hanswered (by decide)

end Technopark.EpollEngine
