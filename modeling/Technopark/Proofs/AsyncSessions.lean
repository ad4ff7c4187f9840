/-
How the asynchronous engine serves a connection with four workers.

`Orderly` asks four things of the steps.  `accept` returns no descriptor that is open.  No
`read` fails, since the worker would close the descriptor under its connection.  The manager
deletes the event it has handed over before it hands over another one, and the removal loop
deletes events that are there.  The manager deletes by descriptor, and finds the right event
since no two connections are open on the same one.

The manager of the program keeps to this as long as a round hands over one event.  After the
first one its indices are off, and what it deletes need not be what it has handed over: the
last run of this file.
-/
import Technopark.Proofs.AsyncTurns

namespace Technopark.AsyncPollEngine

variable {s t : Watched}

/-! ### The invariant -/

/-- The descriptors of the connections. -/
def State.sds (s : State) : List Int := s.conns.map Connection.sd

/-- No two that are alive have the same descriptor. -/
def Distinct (alive : List Bool) (sds : List Int) : Prop :=
  ∀ i j : ConnId, alive[i]? = some true → alive[j]? = some true → sds[i]? = sds[j]? → i = j

/-- `InTurn`, and what the manager needs to find the events it deletes. -/
structure Inv (s : Watched) : Prop where
  inTurn : InTurn s
  balanced : Balanced s.engine
  distinct : Distinct s.engine.alive s.engine.sds
  /-- An event that waits has the descriptor of its connection. -/
  sds : ∀ event ∈ s.engine.wantWork, s.engine.sds[event.work]? = some event.client.sd
  owed : ∀ sd, s.owed = some sd → ∃ event ∈ s.engine.wantWork, event.client.sd = sd

theorem watch_ok {action : Action} {u : State} (hstep : step action s.engine = .ok u) :
    watch action s = .ok (s.after action u) := by
  rw [watch, hstep]
  rfl

/-- No step but an accept makes a connection. -/
theorem alive_of_change {s u : State} (hchange : Change s u) (hsds : u.sds = s.sds) {i : Nat}
    (h : u.alive[i]? = some true) : s.alive[i]? = some true := by
  cases hchange with
  | quiet hquiet => rwa [hquiet.alive] at h
  | accepted halive =>
      have hlength := congrArg List.length hsds
      have hlength' := congrArg List.length halive
      simp only [State.sds, State.alive, List.length_map, List.length_append,
        List.length_singleton] at hlength hlength'
      omega
  | destroyed conn _ _ _ halive =>
      rw [halive, List.getElem?_set] at h
      split_ifs at h
      · simp at h
      · exact h

/-- A step that makes no connection. -/
theorem Inv.next (h : Inv s) {action : Action} {u : State} (hstep : step action s.engine = .ok u)
    (hfine : ¬ FailsRead s.engine action) (hturned : Turned s (s.after action u))
    (hsds : u.sds = s.engine.sds)
    (hwant : ∀ event ∈ u.wantWork, event ∈ s.engine.wantWork ∨
      s.engine.sds[event.work]? = some event.client.sd)
    (howed : ∀ sd, owes s action = some sd → ∃ event ∈ u.wantWork, event.client.sd = sd) :
    ∃ t, watch action s = .ok t ∧ Inv t := by
  have hchange := ((step_change hstep).resolve_left fun hfails => hfine hfails.1).2
  refine ⟨_, watch_ok hstep, hturned.inTurn h.inTurn, (hchange.balanced h.balanced).1, ?_, ?_,
    howed⟩
  · intro i j hi hj heq
    refine h.distinct i j (alive_of_change hchange hsds hi) (alive_of_change hchange hsds hj) ?_
    rw [← hsds]
    exact heq
  · intro event hevent
    show u.sds[event.work]? = some event.client.sd
    rw [hsds]
    exact (hwant event hevent).elim (h.sds event) id

/-- ... and leaves the first queue alone. -/
theorem Inv.keeps (h : Inv s) {action : Action} {u : State} (hstep : step action s.engine = .ok u)
    (hfine : ¬ FailsRead s.engine action) (hturned : Turned s (s.after action u))
    (hsds : u.sds = s.engine.sds) (hwant : u.wantWork = s.engine.wantWork)
    (howes : owes s action = s.owed) : ∃ t, watch action s = .ok t ∧ Inv t := by
  refine h.next hstep hfine hturned hsds ?_ ?_
  · intro event hevent
    exact .inl (hwant ▸ hevent)
  · rw [howes, hwant]
    exact h.owed

/-- ... and queues the next event of a connection. -/
theorem Inv.pushes (h : Inv s) {action : Action} {u : State} {event : Event ConnId}
    (hstep : step action s.engine = .ok u) (hfine : ¬ FailsRead s.engine action)
    (hturned : Turned s (s.after action u)) (hsds : u.sds = s.engine.sds)
    (hwant : u.wantWork = s.engine.wantWork ++ [event])
    (hsd : s.engine.sds[event.work]? = some event.client.sd)
    (howes : owes s action = s.owed) : ∃ t, watch action s = .ok t ∧ Inv t := by
  refine h.next hstep hfine hturned hsds ?_ ?_
  · intro event' hevent'
    rw [hwant] at hevent'
    refine (List.mem_append.mp hevent').imp_right ?_
    intro hnew
    rw [List.mem_singleton.mp hnew]
    exact hsd
  · intro sd howed
    rw [howes] at howed
    obtain ⟨first, hfirst, hfirstSd⟩ := h.owed sd howed
    exact ⟨first, hwant ▸ List.mem_append_left _ hfirst, hfirstSd⟩

/-- A step that is not enabled. -/
theorem Inv.idle (h : Inv s) {action : Action} (hstep : step action s.engine = .ok s.engine)
    (hheard : heard s.engine action = []) (howes : owes s action = s.owed)
    (hdrops : drops s action = []) : ∃ t, watch action s = .ok t ∧ Inv t := by
  have hsame : s.after action s.engine = s := by
    rw [Watched.after, howes, hdrops, said, hheard, List.drop_length]
    simp
  refine ⟨_, watch_ok hstep, ?_⟩
  rw [hsame]
  exact h

/-! ### The parts of a step -/

/-- The same turns, buffers and talk. -/
theorem Turned.congr {t' : Watched} (h : Turned s t) (hturns : t'.turns = t.turns)
    (hbuffers : t'.buffers = t.buffers) (htalk : t'.talk = t.talk)
    (hdropped : t'.dropped = t.dropped) : Turned s t' := by
  cases h with
  | stayed h₁ h₂ h₃ h₄ =>
      exact .stayed (hturns ▸ h₁) (hbuffers ▸ h₂) (htalk ▸ h₃) (hdropped ▸ h₄)
  | accepted h₁ h₂ h₃ h₄ =>
      exact .accepted (hturns ▸ h₁) (hbuffers ▸ h₂) (htalk ▸ h₃) (hdropped ▸ h₄)
  | advanced hadvances hget h₁ h₂ h₃ h₄ =>
      exact .advanced hadvances hget (hturns ▸ h₁) (hbuffers ▸ h₂) (htalk ▸ h₃) (hdropped ▸ h₄)
  | lost h₁ h₂ h₃ h₄ =>
      exact .lost (hturns ▸ h₁) (hbuffers ▸ h₂) (htalk ▸ h₃) (hdropped ▸ h₄)

theorem release_queues (s : State) (conn : ConnId) :
    (s.release conn).wantWork = s.wantWork ∧ (s.release conn).haveWork = s.haveWork ∧
      (s.release conn).workers = s.workers ∧ (s.release conn).acceptor = s.acceptor := by
  unfold State.release
  split
  · exact ⟨rfl, rfl, rfl, rfl⟩
  · split <;> exact ⟨rfl, rfl, rfl, rfl⟩

/-- A destructor changes nothing of a connection but that it is gone. -/
theorem release_conns {β : Type} (key : Connection → β)
    (hkey : ∀ c : Connection, key { c with alive := false } = key c) (s : State) (conn : ConnId) :
    (s.release conn).conns.map key = s.conns.map key := by
  unfold State.release
  split
  · rfl
  · split
    · rfl
    · next c hget => exact map_set_key key hget (hkey c)

theorem release_log (s : State) (conn : ConnId) :
    ∃ notes, (s.release conn).log = s.log ++ notes ∧ notes.filterMap Note.told? = [] := by
  have hnone : ∃ notes, s.log = s.log ++ notes ∧ notes.filterMap Note.told? = [] :=
    ⟨[], (List.append_nil _).symm, rfl⟩
  unfold State.release
  split
  · exact hnone
  · split
    · exact hnone
    · exact ⟨_, rfl, rfl⟩

theorem said_eq {action : Action} {s t : State} {notes : List Note}
    (hlog : t.log = s.log ++ notes) :
    said action s t = heard s action ++ notes.filterMap Note.told? := by
  rw [said, hlog, List.drop_left]

/-- A step that neither reads nor writes. -/
theorem talk_same {action : Action} {u : State} {notes : List Note}
    (hheard : heard s.engine action = []) (hlog : u.log = s.engine.log ++ notes)
    (hnotes : notes.filterMap Note.told? = []) : (s.after action u).talk = s.talk := by
  rw [Watched.after, said_eq hlog, hheard, hnotes]
  exact List.append_nil _

theorem talk_silent {action : Action} {u : State} {notes : List Note} {conn : ConnId}
    (hheard : heard s.engine action = []) (hlog : u.log = s.engine.log ++ notes)
    (hnotes : notes.filterMap Note.told? = []) :
    (s.after action u).talk = s.talk ++ ([] : List Message).map (conn, ·) :=
  (talk_same hheard hlog hnotes).trans (List.append_nil _).symm

/-- A destructor at the end of a step. -/
theorem Turned.release {action : Action} {u : State} (h : Turned s (s.after action u))
    (hheard : heard s.engine action = []) (hlog : u.log = s.engine.log) (conn : ConnId) :
    Turned s (s.after action (u.release conn)) := by
  obtain ⟨hwant, hhave, hworkers, hacc⟩ := release_queues u conn
  obtain ⟨notes, hrelease, hnotes⟩ := release_log u conn
  rw [hlog] at hrelease
  refine h.congr ?_ (release_conns Connection.buffers (fun _ => rfl) u conn) ?_ rfl
  · simp only [Watched.turns, Watched.after, hwant, hhave, hworkers, hacc]
  · rw [talk_same hheard hrelease hnotes,
      talk_same hheard (hlog.trans (List.append_nil _).symm) rfl]

/-- What is queued comes behind what the manager owes. -/
theorem Inv.traded_push (h : Inv s) (event : Event ConnId) :
    Traded [] [turnOf event] ((waiting s.owed s.engine.wantWork).map turnOf)
      ((waiting s.owed (s.engine.wantWork ++ [event])).map turnOf) := by
  have hpush : waiting s.owed (s.engine.wantWork ++ [event])
      = waiting s.owed s.engine.wantWork ++ [event] := by
    cases howed : s.owed with
    | none => rfl
    | some sd =>
        obtain ⟨first, hmem, hsd⟩ := h.owed sd howed
        exact List.eraseP_append_left (by simpa using hsd) _ hmem
  rw [hpush]
  exact (Traded.concat _ _).map turnOf

/-- The four places in which a turn can be. -/
theorem turns_traded {action : Action} {u : State}
    {old new want have₁ work acc want' have' work' acc' : List (ConnId × Turn)}
    (hwant : Traded want want' ((waiting s.owed s.engine.wantWork).map turnOf)
      ((waiting (owes s action) u.wantWork).map turnOf))
    (hhave : Traded have₁ have' (s.engine.haveWork.map turnOf) (u.haveWork.map turnOf))
    (hwork : Traded work work' (s.engine.workers.filterMap Worker.turn?)
      (u.workers.filterMap Worker.turn?))
    (hacc : Traded acc acc' s.engine.acceptor.turn?.toList u.acceptor.turn?.toList)
    (hold : want ++ have₁ ++ work ++ acc = old) (hnew : want' ++ have' ++ work' ++ acc' = new) :
    Traded old new s.turns (s.after action u).turns := by
  rw [← hold, ← hnew]
  exact ((hwant.append hhave).append hwork).append hacc

/-- A connection whose turn it is. -/
theorem InTurn.conn (h : InTurn s) {conn : ConnId} {turn : Turn} (hturn : (conn, turn) ∈ s.turns) :
    ∃ c, s.engine.conns[conn]? = some c ∧ s.buffers[conn]? = some c.buffers ∧
      s.engine.sds[conn]? = some c.sd := by
  obtain ⟨b, -, hget, -⟩ := h.fits conn turn hturn
  rw [Watched.buffers, List.getElem?_map, Option.map_eq_some_iff] at hget
  obtain ⟨c, hc, -⟩ := hget
  refine ⟨c, hc, ?_, ?_⟩
  · rw [Watched.buffers, List.getElem?_map, hc]
    rfl
  · rw [State.sds, List.getElem?_map, hc]
    rfl

theorem buffers_self {conn : ConnId} {b : Bytes × Bytes} (hget : s.buffers[conn]? = some b) :
    s.buffers.set conn b = s.buffers := by
  obtain ⟨hlt, hval⟩ := List.getElem?_eq_some_iff.mp hget
  rw [← hval, List.set_getElem_self]

theorem worker_turn {w : Nat} {worker : Worker} {turn : ConnId × Turn}
    (hget : s.engine.workers[w]? = some worker) (hturn : worker.turn? = some turn) :
    turn ∈ s.turns :=
  List.mem_append_left _ (List.mem_append_right _
    (List.mem_filterMap.mpr ⟨worker, List.mem_of_getElem? hget, hturn⟩))

/-! ### The acceptor -/

theorem Distinct.concat {alive : List Bool} {sds : List Int} {sd : Int} (h : Distinct alive sds)
    (hlength : sds.length = alive.length)
    (hfresh : ∀ i : ConnId, alive[i]? = some true → sds[i]? ≠ some sd) :
    Distinct (alive ++ [true]) (sds ++ [sd]) := by
  have hcases : ∀ k : ConnId, (alive ++ [true])[k]? = some true →
      alive[k]? = some true ∧ (sds ++ [sd])[k]? = sds[k]? ∨
        k = alive.length ∧ (sds ++ [sd])[k]? = some sd := by
    intro k hk
    have hle := (List.getElem?_eq_some_iff.mp hk).1
    rw [List.length_append, List.length_singleton] at hle
    rcases Nat.lt_succ_iff_lt_or_eq.mp hle with hlt | heq
    · rw [List.getElem?_append_left hlt] at hk
      exact .inl ⟨hk, List.getElem?_append_left (hlength.symm ▸ hlt)⟩
    · refine .inr ⟨heq, ?_⟩
      rw [heq, ← hlength]
      exact List.getElem?_concat_length
  intro i j hi hj heq
  rcases hcases i hi with ⟨hi, hisd⟩ | ⟨hi, hisd⟩
  · rcases hcases j hj with ⟨hj, hjsd⟩ | ⟨-, hjsd⟩
    · exact h i j hi hj (hisd.symm.trans (heq.trans hjsd))
    · exact absurd (hisd.symm.trans (heq.trans hjsd)) (hfresh i hi)
  · rcases hcases j hj with ⟨hj, hjsd⟩ | ⟨hj, -⟩
    · exact absurd (hjsd.symm.trans (heq.symm.trans hisd)) (hfresh j hj)
    · rw [hi, hj]

/-- A connection is made. -/
theorem accept_inv (h : Inv s) {sd : Int} (horderly : Orderly s (.accept sd)) :
    ∃ t, watch (.accept sd) s = .ok t ∧ Inv t := by
  by_cases hpolling : s.engine.acceptor = .polling
  · have hstep : step (.accept sd) s.engine = .ok { s.engine with
        conns := s.engine.conns ++ [{ sd := sd }],
        acceptor := .accepted s.engine.conns.length } := if_pos hpolling
    have hlength : s.buffers.length = s.engine.conns.length := List.length_map _
    have hchange := ((step_change hstep).resolve_left fun hfails => hfails.1).2
    have hdistinct : Distinct (s.engine.alive ++ [true]) (s.engine.sds ++ [sd]) := by
      refine h.distinct.concat (by simp [State.sds, State.alive]) ?_
      intro i hi hsd
      rw [State.alive, List.getElem?_map, Option.map_eq_some_iff] at hi
      obtain ⟨c, hc, hlive⟩ := hi
      rw [State.sds, List.getElem?_map, hc] at hsd
      exact horderly c (List.mem_of_getElem? hc) hlive (Option.some.inj hsd)
    refine ⟨_, watch_ok hstep, Turned.inTurn h.inTurn (.accepted ?_ List.map_append ?_ ?_),
      (hchange.balanced h.balanced).1, ?_, ?_, h.owed⟩
    · rw [hlength]
      refine turns_traded (.refl _) (.refl _) (.refl _) ?_ rfl rfl
      rw [hpolling]
      exact ⟨[], .refl _, .refl _⟩
    · exact talk_same rfl (List.append_nil _).symm rfl
    · exact List.append_nil _
    · simpa [Watched.after, State.alive, State.sds] using hdistinct
    · intro event hevent
      have hget := h.sds event hevent
      have hlt := (List.getElem?_eq_some_iff.mp hget).1
      show (List.map Connection.sd (s.engine.conns ++ _))[event.work]? = some event.client.sd
      rw [List.map_append]
      exact (List.getElem?_append_left hlt).trans hget
  · exact h.idle (if_neg hpolling) rfl rfl rfl

/-- Its first event is queued. -/
theorem startRead_inv (h : Inv s) : ∃ t, watch .startRead s = .ok t ∧ Inv t := by
  cases hacceptor : s.engine.acceptor with
  | accepted conn =>
      have hturn : (conn, Turn.todo .wantRead) ∈ s.turns := by
        refine List.mem_append_right _ ?_
        rw [hacceptor]
        exact List.mem_cons_self
      obtain ⟨c, hc, -, hsd⟩ := h.inTurn.conn hturn
      have hstep : step .startRead s.engine = .ok { s.engine.push c.sd .wantRead conn with
          acceptor := .started conn } := by
        simp only [step, hacceptor, read, hc]
      have hleft : Traded [(conn, Turn.todo .wantRead)] [] s.engine.acceptor.turn?.toList
          (Acceptor.started conn).turn?.toList := by
        rw [hacceptor]
        exact .of_cons _ []
      exact h.pushes hstep id (.stayed (turns_traded (h.traded_push _) (.refl _) (.refl _) hleft rfl
        rfl) rfl (talk_same rfl (List.append_nil _).symm rfl) (List.append_nil _)) rfl rfl hsd rfl
  | polling => exact h.idle (by simp only [step, hacceptor]) rfl rfl rfl
  | started conn => exact h.idle (by simp only [step, hacceptor]) rfl rfl rfl

/-- The acceptor lets go of it. -/
theorem forget_inv (h : Inv s) : ∃ t, watch .forget s = .ok t ∧ Inv t := by
  cases hacceptor : s.engine.acceptor with
  | started conn =>
      have hstep : step .forget s.engine
          = .ok (({ s.engine with acceptor := .polling } : State).release conn) := by
        simp only [step, hacceptor]
      have hleft : Traded [] [] s.engine.acceptor.turn?.toList Acceptor.polling.turn?.toList := by
        rw [hacceptor]
        exact .refl _
      have hturned : Turned s (s.after .forget { s.engine with acceptor := .polling }) :=
        .stayed (turns_traded (.refl _) (.refl _) (.refl _) hleft rfl rfl) rfl
          (talk_same rfl (List.append_nil _).symm rfl) (List.append_nil _)
      exact h.keeps hstep id (hturned.release rfl rfl conn)
        (release_conns Connection.sd (fun _ => rfl) _ conn) (release_queues _ conn).1 rfl
  | polling => exact h.idle (by simp only [step, hacceptor]) rfl rfl rfl
  | accepted conn => exact h.idle (by simp only [step, hacceptor]) rfl rfl rfl

/-! ### The manager -/

/-- An event goes to the other queue; what is left of it is owed. -/
theorem handOver_inv (h : Inv s) {i : Nat} (horderly : Orderly s (.handOver i)) :
    ∃ t, watch (.handOver i) s = .ok t ∧ Inv t := by
  have howed : s.owed = none := horderly
  cases hget : s.engine.wantWork[i]? with
  | none =>
      refine h.idle (by simp only [step, hget]) rfl ?_ rfl
      rw [owes, hget, howed]
      rfl
  | some event =>
      have hmem : event ∈ s.engine.wantWork := List.mem_of_getElem? hget
      have howes : owes s (.handOver i) = some event.client.sd := by
        rw [owes, hget]
        rfl
      have hstep : step (.handOver i) s.engine
          = .ok { s.engine with haveWork := s.engine.haveWork ++ [event] } := by
        simp only [step, hget]
      -- the first event with this descriptor is the one that was handed over
      obtain ⟨first, hfirst⟩ : ∃ first, s.engine.wantWork.find?
          (fun e => e.client.sd = event.client.sd) = some first := by
        rw [← Option.isSome_iff_exists, List.find?_isSome]
        exact ⟨event, hmem, by simp⟩
      have hfirstMem := List.mem_of_find?_eq_some hfirst
      have hsd : first.client.sd = event.client.sd := by simpa using List.find?_some hfirst
      have hturn : ∀ e ∈ s.engine.wantWork, turnOf e ∈ s.turns := by
        intro e he
        refine List.mem_append_left _ (List.mem_append_left _ (List.mem_append_left _ ?_))
        rw [howed]
        exact List.mem_map_of_mem he
      have hsame : turnOf first = turnOf event := by
        refine List.inj_on_of_nodup_map h.inTurn.once (hturn _ hfirstMem) (hturn _ hmem) ?_
        refine h.distinct _ _ (h.balanced.held _ (want_held hfirstMem))
          (h.balanced.held _ (want_held hmem)) ?_
        show s.engine.sds[first.work]? = s.engine.sds[event.work]?
        rw [h.sds _ hfirstMem, h.sds _ hmem, hsd]
      have hgone : Traded [turnOf event] [] ((waiting s.owed s.engine.wantWork).map turnOf)
          ((waiting (owes s (.handOver i)) s.engine.wantWork).map turnOf) := by
        rw [howed, howes, ← hsame]
        exact (Traded.of_eraseP hfirst).map turnOf
      refine h.next hstep id (.stayed (turns_traded hgone ((Traded.concat _ _).map turnOf)
        (.refl _) (.refl _) rfl rfl) rfl (talk_same rfl (List.append_nil _).symm rfl)
        (List.append_nil _)) rfl (fun event hevent => .inl hevent) ?_
      intro sd hsd
      rw [howes] at hsd
      exact ⟨event, hmem, Option.some.inj hsd⟩

/-- An event is deleted: the one that was handed over, or one that is dropped. -/
theorem deleteClient_inv (h : Inv s) {sd : Int} (horderly : Orderly s (.deleteClient sd)) :
    ∃ t, watch (.deleteClient sd) s = .ok t ∧ Inv t := by
  have hfound : ∃ event ∈ s.engine.wantWork, event.client.sd = sd := by
    unfold Orderly at horderly
    cases howed : s.owed with
    | none =>
        rw [howed] at horderly
        exact horderly
    | some owed =>
        rw [howed] at horderly
        rw [show sd = owed from horderly]
        exact h.owed owed howed
  obtain ⟨event, hfind⟩ : ∃ event, s.engine.wantWork.find? (fun e => e.client.sd = sd)
      = some event := by
    rw [← Option.isSome_iff_exists, List.find?_isSome]
    obtain ⟨event, hmem, hsd⟩ := hfound
    exact ⟨event, hmem, by simpa using hsd⟩
  have hstep : step (.deleteClient sd) s.engine = .ok (({ s.engine with
      wantWork := s.engine.wantWork.eraseP fun e => e.client.sd = sd } : State).release
        event.work) := by
    simp only [step, hfind]
  have hturned : Turned s (s.after (.deleteClient sd) { s.engine with
      wantWork := s.engine.wantWork.eraseP fun e => e.client.sd = sd }) := by
    cases howed : s.owed with
    | none =>
        have hgone : Traded [turnOf event] [] ((waiting s.owed s.engine.wantWork).map turnOf)
            ((s.engine.wantWork.eraseP fun e => e.client.sd = sd).map turnOf) := by
          rw [howed]
          exact (Traded.of_eraseP hfind).map turnOf
        refine .lost (turns_traded hgone (.refl _) (.refl _) (.refl _) rfl rfl) rfl
          (talk_same rfl (List.append_nil _).symm rfl) ?_
        show s.dropped ++ drops s (.deleteClient sd) = s.dropped ++ [event.work]
        rw [drops, if_pos howed, hfind]
        rfl
    | some owed =>
        have hsame : Traded [] [] ((waiting s.owed s.engine.wantWork).map turnOf)
            ((s.engine.wantWork.eraseP fun e => e.client.sd = sd).map turnOf) := by
          have hsd : sd = owed := by
            unfold Orderly at horderly
            rw [howed] at horderly
            exact horderly
          rw [howed, hsd]
          exact .refl _
        refine .stayed (turns_traded hsame (.refl _) (.refl _) (.refl _) rfl rfl) rfl
          (talk_same rfl (List.append_nil _).symm rfl) ?_
        show s.dropped ++ drops s (.deleteClient sd) = s.dropped
        rw [drops, if_neg (by rw [howed]; simp), List.append_nil]
  refine h.next hstep id (hturned.release rfl rfl event.work)
    (release_conns Connection.sd (fun _ => rfl) _ event.work) ?_ (by simp [owes])
  intro e he
  rw [(release_queues _ event.work).1] at he
  exact .inl (List.mem_of_mem_eraseP he)

/-! ### The workers -/

/-- A worker goes on. -/
theorem traded_goto {workers : List Worker} {w : Nat} {old : Worker} (h : workers[w]? = some old)
    (new : Worker) :
    Traded old.turn?.toList new.turn?.toList (workers.filterMap Worker.turn?)
      ((workers.set w new).filterMap Worker.turn?) := by
  have hset := (Traded.of_set h new).filterMap Worker.turn?
  have hone : ∀ worker : Worker, [worker].filterMap Worker.turn? = worker.turn?.toList := by
    intro worker
    cases hturn : worker.turn? <;> simp [hturn]
  rw [hone, hone] at hset
  exact hset

theorem take_inv (h : Inv s) (w : Nat) : ∃ t, watch (.take w) s = .ok t ∧ Inv t := by
  have hidle : step (.take w) s.engine = .ok s.engine →
      ∃ t, watch (.take w) s = .ok t ∧ Inv t := fun hstep => h.idle hstep rfl rfl rfl
  cases hw : s.engine.workers[w]? with
  | none => exact hidle (by simp only [step, hw])
  | some worker =>
      cases hhave : s.engine.haveWork with
      | nil => exact hidle (by simp only [step, hw, hhave])
      | cons event rest =>
          cases worker with
          | idle =>
              have hstep : step (.take w) s.engine
                  = .ok (({ s.engine with haveWork := rest } : State).goto w (.taken event)) := by
                simp only [step, hw, hhave]
              have hpopped : Traded [turnOf event] [] (s.engine.haveWork.map turnOf)
                  (rest.map turnOf) := by
                rw [hhave]
                exact .of_cons _ _
              exact h.keeps hstep id (.stayed (turns_traded (.refl _) hpopped (traded_goto hw _)
                (.refl _) rfl rfl) rfl (talk_same rfl (List.append_nil _).symm rfl)
                (List.append_nil _)) rfl rfl rfl
          | taken | answered | done => exact hidle (by simp only [step, hw, hhave])

/-- What a `read` that did not fail does. -/
theorem answer_read {s : State} {w : Nat} {event : Event ConnId} {result : ReadResult}
    {c : Connection} (hstate : event.client.state = .wantRead) (hok : ¬ result.r < 0)
    (hc : s.conns[event.work]? = some c) :
    ∃ notes, notes.filterMap Note.told? = [] ∧ answer w event result s
      = ({ s with
          conns := s.conns.set event.work { c with readBuf := result.bytes }
          log := s.log ++ notes } : State).goto w (.answered event) := by
  by_cases hfull : result.bytes.length = bufSize
  · refine ⟨[.stray event.work .terminator], rfl, ?_⟩
    simp only [answer, hstate, if_neg hok, if_pos hfull, State.assign, State.note, hc]
  · refine ⟨[], rfl, ?_⟩
    simp only [answer, hstate, if_neg hok, if_neg hfull, State.assign, hc, List.append_nil]

theorem answer_inv (h : Inv s) {w : Nat} {result : ReadResult}
    (horderly : Orderly s (.answer w result)) :
    ∃ t, watch (.answer w result) s = .ok t ∧ Inv t := by
  have hidle : step (.answer w result) s.engine = .ok s.engine →
      heard s.engine (.answer w result) = [] →
      ∃ t, watch (.answer w result) s = .ok t ∧ Inv t :=
    fun hstep hheard => h.idle hstep hheard rfl rfl
  cases hw : s.engine.workers[w]? with
  | none => exact hidle (by simp only [step, hw]) (by simp only [heard, hw])
  | some worker =>
      cases worker with
      | taken event =>
          obtain ⟨c, hc, hbuffers, -⟩ := h.inTurn.conn (worker_turn hw rfl)
          cases hstate : event.client.state with
          | wantRead =>
              have hok : ¬ result.r < 0 := fun hfails => horderly ⟨event, hw, hstate, hfails⟩
              obtain ⟨notes, hnotes, hanswer⟩ := answer_read (w := w) hstate hok hc
              have hstep : step (.answer w result) s.engine = .ok (({ s.engine with
                  conns := s.engine.conns.set event.work { c with readBuf := result.bytes }
                  log := s.engine.log ++ notes } : State).goto w (.answered event)) := by
                simp only [step, hw, hanswer]
              have hsaid : said (.answer w result) s.engine (({ s.engine with
                  conns := s.engine.conns.set event.work { c with readBuf := result.bytes }
                  log := s.engine.log ++ notes } : State).goto w (.answered event))
                  = [Message.heard result.bytes].map (event.work, ·) := by
                rw [said_eq rfl, hnotes]
                simp only [heard, hw, if_pos hstate]
                rfl
              refine h.keeps hstep horderly (.advanced (.hears c.buffers result.bytes) hbuffers
                (turns_traded (.refl _) (.refl _) (traded_goto hw _) (.refl _) ?_ ?_) List.map_set
                (congrArg (s.talk ++ ·) hsaid) (List.append_nil _)) (map_set_key _ hc rfl) rfl rfl
              · simp [Worker.turn?, turnOf, hstate]
              · simp [Worker.turn?, hstate]
          | wantWrite =>
              have hstep : step (.answer w result) s.engine = .ok ((s.engine.note
                  [.wrote event.work c.writeBuf]).goto w (.answered event)) := by
                simp only [step, hw, answer, hstate, hc]
                rfl
              have hsaid : said (.answer w result) s.engine ((s.engine.note
                  [.wrote event.work c.writeBuf]).goto w (.answered event))
                  = [Message.told c.buffers.2].map (event.work, ·) := by
                rw [said_eq rfl]
                simp only [heard, hw, hstate]
                rfl
              refine h.keeps hstep horderly (.advanced (.tells c.buffers) hbuffers
                (turns_traded (.refl _) (.refl _) (traded_goto hw _) (.refl _) ?_ ?_)
                (buffers_self hbuffers).symm
                (congrArg (s.talk ++ ·) hsaid) (List.append_nil _)) rfl rfl rfl
              · simp [Worker.turn?, turnOf, hstate]
              · simp [Worker.turn?, hstate]
      | idle | answered | done =>
          exact hidle (by simp only [step, hw]) (by simp only [heard, hw])

theorem callback_inv (h : Inv s) (w : Nat) : ∃ t, watch (.callback w) s = .ok t ∧ Inv t := by
  have hidle : step (.callback w) s.engine = .ok s.engine →
      ∃ t, watch (.callback w) s = .ok t ∧ Inv t := fun hstep => h.idle hstep rfl rfl rfl
  cases hw : s.engine.workers[w]? with
  | none => exact hidle (by simp only [step, hw])
  | some worker =>
      cases worker with
      | answered event =>
          obtain ⟨c, hc, hbuffers, hsd⟩ := h.inTurn.conn (worker_turn hw rfl)
          cases hstate : event.client.state with
          | wantRead =>
              by_cases hempty : c.readBuf = []
              · -- the end of the stream: nothing is queued
                have hstep : step (.callback w) s.engine
                    = .ok (s.engine.goto w (.done event)) := by
                  simp only [step, hw, callback, hstate, readHandler_empty hc hempty]
                refine h.keeps hstep id (.advanced (.ends _ hempty) hbuffers (turns_traded (.refl _)
                  (.refl _) (traded_goto hw _) (.refl _) ?_ rfl) (buffers_self hbuffers).symm
                  (talk_silent rfl (List.append_nil _).symm rfl) (List.append_nil _)) rfl rfl rfl
                simp [Worker.turn?, hstate]
              · have hstep : step (.callback w) s.engine = .ok (({ s.engine with
                    conns := s.engine.conns.set event.work { c with writeBuf := answerTo c.readBuf }
                    wantWork := s.engine.wantWork ++ [⟨⟨c.sd, .wantWrite⟩, event.work⟩]
                    log := s.engine.log ++ if trimEols c.readBuf = [] then
                      [.stray event.work .emptyBack] else [] } : State).goto w (.done event)) := by
                  simp only [step, hw, callback, hstate, readHandler_text hc hempty]
                refine h.pushes hstep id (.advanced (.answers _ hempty) hbuffers
                  (turns_traded (h.traded_push _) (.refl _) (traded_goto hw _) (.refl _) ?_ rfl)
                  List.map_set (talk_silent rfl rfl (by split <;> rfl)) (List.append_nil _))
                  (map_set_key _ hc rfl) rfl hsd rfl
                simp [Worker.turn?, hstate]
          | wantWrite =>
              have hstep : step (.callback w) s.engine
                  = .ok ((s.engine.push c.sd .wantRead event.work).goto w (.done event)) := by
                simp only [step, hw, callback, hstate, writeHandler, read, hc]
              refine h.pushes hstep id (.advanced (.listens _) hbuffers
                (turns_traded (h.traded_push _) (.refl _) (traded_goto hw _) (.refl _) ?_ rfl)
                (buffers_self hbuffers).symm (talk_silent rfl (List.append_nil _).symm rfl)
                (List.append_nil _)) rfl rfl hsd rfl
              simp [Worker.turn?, hstate]
      | idle | taken | done => exact hidle (by simp only [step, hw])

/-- The event goes out of scope. -/
theorem finish_inv (h : Inv s) (w : Nat) : ∃ t, watch (.finish w) s = .ok t ∧ Inv t := by
  have hidle : step (.finish w) s.engine = .ok s.engine →
      ∃ t, watch (.finish w) s = .ok t ∧ Inv t := fun hstep => h.idle hstep rfl rfl rfl
  cases hw : s.engine.workers[w]? with
  | none => exact hidle (by simp only [step, hw])
  | some worker =>
      cases worker with
      | done event =>
          have hstep : step (.finish w) s.engine
              = .ok ((s.engine.goto w .idle).release event.work) := by
            simp only [step, hw]
          have hturned : Turned s (s.after (.finish w) (s.engine.goto w .idle)) :=
            .stayed (turns_traded (.refl _) (.refl _) (traded_goto hw _) (.refl _) rfl rfl) rfl
              (talk_same rfl (List.append_nil _).symm rfl) (List.append_nil _)
          exact h.keeps hstep id (hturned.release rfl rfl event.work)
            (release_conns Connection.sd (fun _ => rfl) _ event.work) (release_queues _ _).1 rfl
      | idle | taken | answered => exact hidle (by simp only [step, hw])

/-! ### The runs -/

theorem watch_inv (action : Action) (s : Watched) (h : Inv s) (horderly : Orderly s action) :
    ∃ t, watch action s = .ok t ∧ Inv t := by
  cases action with
  | accept sd => exact accept_inv h horderly
  | startRead => exact startRead_inv h
  | forget => exact forget_inv h
  | handOver i => exact handOver_inv h horderly
  | deleteClient sd => exact deleteClient_inv h horderly
  | take w => exact take_inv h w
  | answer w result => exact answer_inv h horderly
  | callback w => exact callback_inv h w
  | finish w => exact finish_inv h w

theorem start_inv : Inv Watched.start := by
  refine ⟨⟨by decide, ?_, ?_, ?_⟩, start_balanced, ?_, ?_, ?_⟩
  · intro conn turn hmem
    exact absurd hmem List.not_mem_nil
  · intro conn hconn
    exact absurd hconn (Nat.not_lt_zero conn)
  · intro entry hentry
    exact absurd hentry List.not_mem_nil
  · intro i j hi
    simp [Watched.start, start, State.alive] at hi
  · intro event hevent
    exact absurd hevent List.not_mem_nil
  · intro sd howed
    injection howed

theorem held_of_turn {conn : ConnId} {turn : Turn} (h : (conn, turn) ∈ s.turns) :
    conn ∈ s.engine.holders := by
  simp only [Watched.turns, List.mem_append, List.mem_map, List.mem_filterMap, Option.mem_toList,
    or_assoc] at h
  rcases h with ⟨event, hmem, heq⟩ | ⟨event, hmem, heq⟩ | ⟨worker, hmem, hturn⟩ | hturn
  · have hwant : event ∈ s.engine.wantWork := by
      cases howed : s.owed with
      | none => rwa [howed] at hmem
      | some sd =>
          rw [howed] at hmem
          exact List.mem_of_mem_eraseP hmem
    rw [← show event.work = conn from congrArg Prod.fst heq]
    exact want_held hwant
  · rw [← show event.work = conn from congrArg Prod.fst heq]
    exact have_held hmem
  · cases worker with
    | taken event =>
        rw [← show event.work = conn from congrArg Prod.fst (Option.some.inj hturn)]
        exact worker_held hmem rfl
    | answered event =>
        rw [← show event.work = conn from congrArg Prod.fst (Option.some.inj hturn)]
        exact worker_held hmem rfl
    | idle | done => injection hturn
  · cases hacceptor : s.engine.acceptor with
    | accepted conn' =>
        rw [hacceptor] at hturn
        rw [← show conn' = conn from congrArg Prod.fst (Option.some.inj hturn)]
        exact acceptor_held (by rw [hacceptor]; rfl)
    | polling | started =>
        rw [hacceptor] at hturn
        injection hturn

/-- What the turns mean for the workers, the talk and the connections that are gone. -/
theorem Inv.conversing (h : Inv s) : Conversing s := by
  refine ⟨?_, ?_, ?_⟩
  · have hworkers : (s.engine.workers.filterMap Worker.turn?).Sublist s.turns :=
      (List.sublist_append_right _ _).trans (List.sublist_append_left _ _)
    have hbusy : s.engine.workers.filterMap Worker.busy?
        = (s.engine.workers.filterMap Worker.turn?).map Prod.fst := by
      rw [List.map_filterMap]
      congr 1
      funext worker
      cases worker <;> rfl
    rw [hbusy]
    exact h.inTurn.once.sublist (hworkers.map Prod.fst)
  · intro conn
    by_cases hturn : ∃ turn, (conn, turn) ∈ s.turns
    · obtain ⟨turn, hmem⟩ := hturn
      obtain ⟨-, phase, -, hphase, -⟩ := h.inTurn.fits conn turn hmem
      rw [hphase]
      rfl
    rcases Nat.lt_or_ge conn s.buffers.length with hlt | hge
    · rcases h.inTurn.rest conn hlt (not_exists.mp hturn) with hover | ⟨-, hsome⟩
      · rw [hover]
        rfl
      · exact hsome
    · rw [phaseIn_unknown fun entry hentry =>
        Nat.ne_of_lt (Nat.lt_of_lt_of_le (h.inTurn.known entry hentry) hge)]
      rfl
  · intro conn c hc hdead
    have hlt : conn < s.buffers.length := by
      rw [Watched.buffers, List.length_map]
      exact (List.getElem?_eq_some_iff.mp hc).1
    refine (h.inTurn.rest conn hlt ?_).imp_right And.left
    -- whoever has a turn is held, and whoever is held is alive
    intro turn hmem
    have halive := h.balanced.held conn (held_of_turn hmem)
    rw [State.alive, List.getElem?_map, hc] at halive
    exact absurd (Option.some.inj halive) (by rw [hdead]; exact Bool.false_ne_true)

/-- A line is read by the first worker and answered by the second, which starts before the manager
has deleted the first event and before the first worker has dropped it. -/
def twoWorkers : List Action :=
  [.accept 5, .startRead, .forget, .handOver 0, .take 0, .answer 0 (.data [104, 105, 10]),
    .callback 0, .deleteClient 5, .handOver 0, .take 1, .deleteClient 5, .answer 1 .failed,
    .finish 0]

/-- Two clients of three are reported, and the manager hands over the third for the second; in the
next round it hands it over again. -/
def thirdTwice : List Action :=
  [.accept 4, .startRead, .forget, .accept 5, .startRead, .forget, .accept 6, .startRead, .forget,
    .handOver 0, .deleteClient 4, .handOver 1, .deleteClient 5, .handOver 0, .deleteClient 6,
    .take 0, .take 1, .take 2]

example : (machineRun step start thirdTwice).toOption.map
    (fun s => s.workers.filterMap Worker.busy?) = some [0, 2, 2] := by rfl

end Technopark.AsyncPollEngine
