/-
The sockets of the asio server: when it stops accepting, what it closes, what it sends.

`onAccept` starts the next accept behind its test of the error.  So exactly one accept is on
its way until one fails, and none ever after; and `service_.run()` has no work left only when
that has happened and every client is gone.

The descriptors of the clients are closed by `~Client`, each of them once.  And every answer is
cut from the same 1024 cells, of which `handleRead` writes the first 51: a longer write sends
what was never written.
-/
import Technopark.Proofs.Asio

namespace Technopark.Asio

open Technopark.Ledger

variable {s t : State}

/-! ### Accepting -/

/-- The activity is the accept, or will start the next one. -/
def Activity.accepting : Activity → Bool
  | .pending (.accept _) => true
  | .ready (.onAccept _ none) => true
  | .thread (.called (.onAccept _ none)) => true
  | .thread (.accepted _) => true
  | .thread (.reading _) => true
  | _ => false

/-- The accepts that have failed. -/
def refusals (log : List (ClientId × Event)) : Nat :=
  log.countP fun entry => entry.2 = .refused

/-- If it is an accept that succeeded, none had failed. -/
def Unrefused (before : List (ClientId × Event)) (entry : ClientId × Event) : Prop :=
  (∃ sd, entry.2 = .accepted sd) → refusals before = 0

/-- There is one accept until one fails, and none behind that. -/
structure Accepting (s : State) : Prop where
  one : s.activities.countP Activity.accepting + refusals s.log = 1
  early : Stepwise Unrefused s.log

/-- The connected go on being served, and the program can only end when an accept has failed. -/
structure Accepts (s : State) : Prop extends Accepting s where
  /-- It is the turn of everybody whose session goes on. -/
  served : ∀ c phase, c < s.clients.length → phase = .reading ∨ phase = .answering →
    session Phase.next .unconnected (eventsOf c s.log) = some phase → (c, phase) ∈ s.turns
  idle : s.holders = [] ↔ ∀ client ∈ s.clients, client.alive = false
  ends : s.holders = [] → refusals s.log = 1

theorem refusals_concat (log : List (ClientId × Event)) (c : ClientId) (event : Event) :
    refusals (log ++ [(c, event)]) = refusals log + if event = .refused then 1 else 0 := by
  rw [refusals, List.countP_append, List.countP_singleton, ← refusals]
  congr 1
  simp

theorem Moves.accepting {old new : List Activity} (h : Moves old new) :
    old.countP Activity.accepting = new.countP Activity.accepting := by
  cases h with
  | take handler =>
      rcases handler with ⟨c, _ | e⟩ | ⟨c, e⟩ | c
      all_goals rfl
  | accepted | refused | startRead | received | hungUp | startWrite | readAgain => rfl

/-- An accept is finished: there is a next one, or it has failed. -/
theorem Op.accepting (op : Op) (outcome : Outcome) (c : Client) :
    [Activity.ready (op.handler outcome)].countP Activity.accepting
        + (if op.event outcome c = .refused then 1 else 0)
      = [Activity.pending op].countP Activity.accepting := by
  rcases op with a | a | a
  · cases he : outcome.e <;> simp [Op.handler, Op.event, he, Activity.accepting]
  · cases he : outcome.e <;> simp [Op.handler, Op.event, he, Activity.accepting]
  · rfl

theorem release_accepting (c : ClientId) :
    (s.release c).activities = s.activities ∧ refusals (s.release c).log = refusals s.log := by
  unfold State.release
  split
  · exact ⟨rfl, rfl⟩
  · split
    · exact ⟨rfl, rfl⟩
    · exact ⟨rfl, refusals_concat _ _ _⟩

/-- Only an accept that succeeds is in the log as one. -/
theorem Op.accepted_event {op : Op} {outcome : Outcome} {c : Client} {sd : Int}
    (h : op.event outcome c = .accepted sd) : (Activity.pending op).accepting = true := by
  rcases op with a | a | a
  · rfl
  · rw [Op.event] at h
    split at h <;> injection h
  · injection h

/-- The release of a client accepts nobody. -/
theorem release_early {c : ClientId} (h : Stepwise Unrefused s.log) :
    Stepwise Unrefused (s.release c).log := by
  unfold State.release
  split
  · exact h
  · split
    · exact h
    · refine stepwise_concat.mpr ⟨h, ?_⟩
      rintro ⟨sd, hsd⟩
      injection hsd

theorem Accepting.step {action : Action} (h : Accepting s) (hstep : step action s = .ok t) :
    Accepting t := by
  rcases step_stepped hstep with rfl | ⟨hmoves, hchange, hclients, hlog⟩ |
    ⟨-, -, hchange, hop, hclients, hlog⟩ | ⟨hchange, hclients, hlog⟩ | ⟨hchange, hclients, hlog⟩ |
    ⟨hchange, hclients, hlog, rfl⟩
  · exact h
  · refine ⟨?_, hlog ▸ h.early⟩
    rw [hchange.countP_eq hmoves.accepting, hlog]
    exact h.one
  · next op outcome c =>
      have hcount := hchange.countP Activity.accepting
      have hnext := op.accepting outcome c
      have hone := h.one
      refine ⟨?_, ?_⟩
      · rw [hlog, refusals_concat]
        omega
      · rw [hlog]
        refine stepwise_concat.mpr ⟨h.early, ?_⟩
        rintro ⟨sd, hsd⟩
        -- the accept that was outstanding is the one there is until one fails
        have hpending : 0 < s.activities.countP Activity.accepting :=
          List.countP_pos_iff.mpr ⟨_, hchange.mem_old List.mem_cons_self, Op.accepted_event hsd⟩
        omega
  · refine ⟨?_, hlog ▸ h.early⟩
    rw [hchange.countP_eq rfl, hlog]
    exact h.one
  · refine ⟨?_, hlog ▸ h.early⟩
    rw [hchange.countP_eq rfl, hlog]
    exact h.one
  · refine ⟨?_, release_early (hlog ▸ h.early)⟩
    rw [(release_accepting _).1, (release_accepting _).2, hchange.countP_eq rfl, hlog]
    exact h.one

/-- Who is accepting is held. -/
theorem Activity.client?_of_accepting {activity : Activity} (h : activity.accepting = true) :
    activity.client?.isSome := by
  unfold Activity.accepting at h
  split at h
  all_goals first | rfl | injection h

theorem Inv.accepts (h : Inv s) (haccepting : Accepting s) : Accepts s := by
  refine ⟨haccepting, ?_, ?_, ?_⟩
  · intro c phase hlt hgoesOn hsession
    by_cases hturn : ∃ p, (c, p) ∈ s.turns
    · obtain ⟨p, hturn⟩ := hturn
      obtain rfl : p = phase := Option.some.inj ((h.turn c p hturn).symm.trans hsession)
      exact hturn
    · -- without a turn the session is over
      have hfinished := h.finished c _ (List.getElem?_eq_getElem hlt) (not_exists.mp hturn)
      rw [hsession] at hfinished
      have hover := Option.some.inj hfinished
      rcases hgoesOn with rfl | rfl
      all_goals split at hover <;> injection hover
  · constructor
    · intro hnil client hmem
      obtain ⟨c, hc⟩ := List.getElem?_of_mem hmem
      rw [Bool.eq_false_iff, ne_eq, h.held c client hc, hnil]
      exact List.not_mem_nil
    · intro hdead
      rw [List.eq_nil_iff_forall_not_mem]
      intro c hc
      have hlt := h.bounded c hc
      have halive := (h.held c _ (List.getElem?_eq_getElem hlt)).mpr hc
      rw [hdead _ (List.getElem_mem hlt)] at halive
      exact Bool.false_ne_true halive
  · intro hnil
    have hnone : s.activities.countP Activity.accepting = 0 := by
      rw [List.countP_eq_zero]
      intro activity hmem haccepting
      obtain ⟨c, hc⟩ := Option.isSome_iff_exists.mp (Activity.client?_of_accepting haccepting)
      have hheld : c ∈ s.holders := by
        rw [holders_eq]
        exact List.mem_filterMap.mpr ⟨activity, hmem, hc⟩
      rw [hnil] at hheld
      exact List.not_mem_nil hheld
    have hone := haccepting.one
    omega

/--
**The server accepts until an accept fails, and never after.**  In every state of every run
exactly one accept is outstanding or about to be started, if none has failed, and otherwise
none; nobody was accepted behind an accept that had failed, and everybody whose session goes on
has an operation, a handler or a thread at work for it.  The threads run out of work only when
an accept has failed, with every client gone.
-/
theorem asio_accepts_until_refused (actions : List Action) :
    Always step startServer actions Accepts := by
  intro before after t heq hrun
  have hstart : Inv startServer ∧ Accepting startServer :=
    ⟨inv_startServer, by decide, Stepwise.nil⟩
  obtain ⟨hinv, haccepting⟩ := Always.of_step
    (fun _ _ _ h hstep => And.intro (Inv.step h.1 hstep) (Accepting.step h.2 hstep)) hstart
    actions before after t heq hrun
  exact hinv.accepts haccepting

/-! ### Descriptors -/

/-- What an event means for the descriptors that are open. -/
def Event.entry : Event → Option (Entry Int)
  | .accepted sd => some (.opened sd)
  | .closed (some sd) => some (.closed sd)
  | _ => none

/-- The openings and closings in a log. -/
def ledger (log : List (ClientId × Event)) : List (Entry Int) :=
  log.filterMap fun entry => entry.2.entry

/-- The socket of a client that exists. -/
def Client.socket? (c : Client) : Option Int := if c.alive then c.sock else none

/-- The open descriptors are the sockets of the clients that exist. -/
structure Closes (s : State) : Prop where
  /-- Only open descriptors were closed, and none was opened twice. -/
  proper : Proper (ledger s.log)
  live : (live (ledger s.log)).Perm (s.clients.filterMap Client.socket?)

/-- What an accept returns is a descriptor that is not open. -/
def Fresh (s : State) : Action → Prop
  | .complete i outcome => ∀ c, s.pending[i]? = some (.accept c) → outcome.e = none →
      outcome.sd ∉ live (ledger s.log)
  | _ => True

/-- A client that was not accepted yet has no socket. -/
def Unset (s : State) : Prop :=
  ∀ c client, s.clients[c]? = some client → (c, .unconnected) ∈ s.turns → client.sock = none

theorem ledger_concat (log : List (ClientId × Event)) (c : ClientId) (event : Event) :
    ledger (log ++ [(c, event)]) = ledger log ++ event.entry.toList := by
  rw [ledger, List.filterMap_append, ← ledger, List.filterMap_cons]
  cases event.entry <;> rfl

/-- What is changed of the clients is neither their socket nor whether they exist. -/
theorem Closes.of_same (h : Closes s)
    (hsockets : t.clients.map Client.socket? = s.clients.map Client.socket?)
    (hlog : ledger t.log = ledger s.log) : Closes t := by
  have hmaps (clients : List Client) :
      clients.filterMap Client.socket? = (clients.map Client.socket?).filterMap id := by
    rw [List.filterMap_map]
    rfl
  refine ⟨by rw [hlog]; exact h.proper, ?_⟩
  rw [hlog, hmaps, hsockets, ← hmaps]
  exact h.live

/-- A client has a new socket. -/
theorem Closes.opened (h : Closes s) {c : ClientId} {old new : Client} {sd : Int}
    (hold : s.clients[c]? = some old) (hnone : old.socket? = none) (hnew : new.socket? = some sd)
    (hfresh : sd ∉ Ledger.live (ledger s.log)) (hclients : t.clients = s.clients.set c new)
    (hlog : ledger t.log = ledger s.log ++ [.opened sd]) : Closes t := by
  obtain ⟨rest, hbefore, hafter⟩ := (Traded.of_set hold new).filterMap Client.socket?
  simp only [List.filterMap_cons, hnone, hnew, List.filterMap_nil] at hbefore hafter
  refine ⟨by rw [hlog]; exact h.proper.concat hfresh, ?_⟩
  rw [hlog, live_opened, hclients]
  have hfirst : (Ledger.live (ledger s.log) ++ [sd]).Perm (sd :: rest) :=
    (List.perm_append_singleton sd _).trans ((h.live.trans hbefore).cons sd)
  exact hfirst.trans hafter.symm

/-- A client's socket is closed. -/
theorem Closes.closed (h : Closes s) {c : ClientId} {old new : Client} {sd : Int}
    (hold : s.clients[c]? = some old) (hsome : old.socket? = some sd) (hnew : new.socket? = none)
    (hclients : t.clients = s.clients.set c new)
    (hlog : ledger t.log = ledger s.log ++ [.closed sd]) : Closes t := by
  obtain ⟨rest, hbefore, hafter⟩ := (Traded.of_set hold new).filterMap Client.socket?
  simp only [List.filterMap_cons, hsome, hnew, List.filterMap_nil] at hbefore hafter
  have hmem : sd ∈ Ledger.live (ledger s.log) :=
    (h.live.trans hbefore).mem_iff.mpr List.mem_cons_self
  refine ⟨by rw [hlog]; exact h.proper.concat hmem, ?_⟩
  rw [hlog, live_closed, hclients]
  refine ((h.live.trans hbefore).erase sd).trans ?_
  rw [List.cons_append, List.erase_cons_head]
  exact hafter.symm

/-- What finishes but is not an accept that succeeds leaves all sockets as they are. -/
theorem Op.quiet {op : Op} {outcome : Outcome} (c : Client)
    (h : ∀ a, op = .accept a → outcome.e ≠ none) :
    op.finish outcome c = c ∧ (op.event outcome c).entry = none := by
  rcases op with a | a | a
  · have he := h a rfl
    rw [Op.finish, Op.event, if_neg he, if_neg he]
    exact ⟨rfl, rfl⟩
  · rw [Op.finish, Op.event]
    split <;> exact ⟨rfl, rfl⟩
  · exact ⟨rfl, rfl⟩

theorem Closes.completed (h : Closes s) (hinv : Inv s) (hunset : Unset s) {i : Nat} {op : Op}
    {outcome : Outcome} {c : Client} (hfresh : Fresh s (.complete i outcome))
    (hi : s.pending[i]? = some op) (hop : s.clients[op.client]? = some c)
    (hclients : t.clients = s.clients.set op.client (op.finish outcome c))
    (hlog : t.log = s.log ++ [(op.client, op.event outcome c)]) : Closes t := by
  by_cases hquiet : ∀ a, op = .accept a → outcome.e ≠ none
  · obtain ⟨hfinish, hentry⟩ := Op.quiet c hquiet
    refine h.of_same ?_ ?_
    · rw [hclients]
      exact map_set_key Client.socket? hop (by rw [hfinish])
    · rw [hlog, ledger_concat, hentry]
      exact List.append_nil _
  · obtain ⟨a, rfl, he⟩ : ∃ a, op = .accept a ∧ outcome.e = none := by
      simpa using hquiet
    have hturn : (a, Phase.unconnected) ∈ s.turns := by
      refine List.mem_filterMap.mpr ⟨.pending (.accept a), ?_, rfl⟩
      simp [State.activities, List.mem_of_getElem? hi]
    have hnone : c.sock = none := hunset a c hop hturn
    have halive : c.alive = true := (hinv.held a c hop).mpr (held_of_turn hturn)
    refine h.opened hop ?_ ?_ (hfresh a hi he) hclients ?_
    · rw [Client.socket?, hnone]
      exact ite_self none
    · rw [Op.finish, if_pos he, Client.socket?]
      exact if_pos halive
    · rw [hlog, ledger_concat, Op.event, if_pos he]
      rfl

theorem Closes.release (h : Closes s) {c : ClientId}
    (hlive : ∀ client, s.clients[c]? = some client → client.alive = true) :
    Closes (s.release c) := by
  unfold State.release
  split
  · exact h
  · split
    · exact h
    · next client hclient =>
        have halive := hlive client hclient
        cases hsock : client.sock with
        | none =>
            have hnone : client.socket? = none := by
              rw [Client.socket?, hsock]
              exact ite_self none
            refine h.of_same (map_set_key Client.socket? hclient hnone.symm) ?_
            rw [ledger_concat]
            exact List.append_nil _
        | some sd =>
            have hsome : client.socket? = some sd := by
              rw [Client.socket?, hsock]
              exact if_pos halive
            refine h.closed hclient hsome rfl rfl ?_
            rw [ledger_concat]
            rfl

theorem closes_step {action : Action} (h : Closes s) (hinv : Inv s) (hunset : Unset s)
    (hfresh : Fresh s action) (hstep : step action s = .ok t) : Closes t := by
  rcases step_stepped hstep with rfl | ⟨hmoves, hchange, hclients, hlog⟩ |
    ⟨rfl, hi, hchange, hop, hclients, hlog⟩ | ⟨hchange, hclients, hlog⟩ |
    ⟨hchange, hclients, hlog⟩ | ⟨hchange, hclients, hlog, rfl⟩
  · exact h
  · exact h.of_same (by rw [hclients]) (by rw [hlog])
  · exact h.completed hinv hunset hfresh hi hop hclients hlog
  · refine ⟨by rw [hlog]; exact h.proper, ?_⟩
    rw [hlog, hclients, List.filterMap_append]
    exact h.live.trans (List.append_nil _ ▸ .refl _)
  · refine h.of_same ?_ (by rw [hlog])
    rw [hclients]
    refine map_modify_key Client.socket? ?_ s.clients _
    intro client
    rfl
  · next c u =>
      have hu : Closes u := h.of_same (by rw [hclients]) (by rw [hlog])
      refine hu.release ?_
      intro client hclient
      rw [hclients] at hclient
      have hheld : c ∈ s.holders := (holders_traded hchange).mem_old List.mem_cons_self
      exact (hinv.held c client hclient).mpr hheld

theorem Unset.of_same (h : Unset s) (hturns : ∀ turn ∈ t.turns, turn ∈ s.turns)
    (hsocks : t.clients.map Client.sock = s.clients.map Client.sock) : Unset t := by
  intro c client hc hturn
  have hget := congrArg (·[c]?) hsocks
  simp only [List.getElem?_map, hc, Option.map_some] at hget
  obtain ⟨client', hc', heq⟩ := Option.map_eq_some_iff.mp hget.symm
  rw [← heq]
  exact h c client' hc' (hturns _ hturn)

theorem Handler.connected (handler : Handler) (c : ClientId) :
    handler.turn? ≠ some (c, .unconnected) := by
  rcases handler with ⟨d, _ | e⟩ | ⟨d, _ | e⟩ | d
  all_goals simp [Handler.turn?]

theorem release_sockets (s : State) (c : ClientId) :
    (s.release c).clients.map Client.sock = s.clients.map Client.sock := by
  unfold State.release
  split
  · rfl
  · split
    · rfl
    · next client hclient => exact map_set_key Client.sock hclient rfl

theorem unset_step {action : Action} (h : Unset s) (hinv : Inv s)
    (hstep : step action s = .ok t) : Unset t := by
  rcases step_stepped hstep with rfl | ⟨hmoves, hchange, hclients, hlog⟩ |
    ⟨rfl, hi, hchange, hop, hclients, hlog⟩ | ⟨hchange, hclients, hlog⟩ |
    ⟨hchange, hclients, hlog⟩ | ⟨hchange, hclients, hlog, rfl⟩
  · exact h
  · have hturns := turns_traded hchange
    rw [hmoves.turns] at hturns
    exact h.of_same (fun turn hturn => hturns.perm.mem_iff.mpr hturn) (by rw [hclients])
  · next i op outcome client =>
      obtain ⟨rest, hbefore, hafter⟩ := turns_traded hchange
      intro c client' hc hturn
      have hrest : (c, Phase.unconnected) ∈ rest := by
        refine (List.mem_append.mp (hafter.mem_iff.mp hturn)).resolve_left ?_
        intro hnew
        obtain ⟨activity, hmem, heq⟩ := List.mem_filterMap.mp hnew
        rw [List.mem_singleton.mp hmem] at heq
        exact (op.handler outcome).connected c heq
      have hne : op.client ≠ c := by
        have hnodup := (hbefore.map Prod.fst).nodup_iff.mp hinv.once
        rintro rfl
        rw [← op.turn_fst] at hrest
        exact (List.nodup_cons.mp hnodup).1 (List.mem_map.mpr ⟨_, hrest, rfl⟩)
      rw [hclients, List.getElem?_set_ne hne] at hc
      exact h c client' hc (hbefore.mem_iff.mpr (List.mem_append_right _ hrest))
  · have hturns := turns_traded hchange
    intro c client hc hturn
    by_cases hlt : c < s.clients.length
    · rw [hclients, List.getElem?_append_left hlt] at hc
      refine h c client hc ((hturns.mem_after hturn).resolve_left ?_)
      intro hnew
      have heq : c = s.clients.length := congrArg Prod.fst (List.mem_singleton.mp hnew)
      exact Nat.ne_of_lt hlt heq
    · rw [hclients, List.getElem?_append_right (Nat.not_lt.mp hlt)] at hc
      obtain ⟨-, rfl⟩ := List.mem_singleton.mp (List.mem_of_getElem? hc)
      rfl
  · refine h.of_same (fun turn hturn => (turns_traded hchange).perm.mem_iff.mpr hturn) ?_
    rw [hclients]
    refine map_modify_key Client.sock ?_ s.clients _
    intro client
    rfl
  · next c u =>
      have hactivities : (u.release c).turns = u.turns := by
        rw [State.turns, (release_accepting c).1]
        rfl
      refine h.of_same ?_ ((release_sockets u c).trans (by rw [hclients]))
      intro turn hturn
      rw [hactivities] at hturn
      exact (turns_traded hchange).perm.mem_iff.mpr hturn

/--
**Every descriptor is closed by the client it was accepted for.**  If the kernel only hands
out descriptors that are not open, then in every state of every run the open ones are the
sockets of the clients that exist, each once, and nothing was closed that was not open.
-/
theorem asio_closes_sockets (actions : List Action)
    (hfresh : Guarded step Fresh startServer actions) :
    Always step startServer actions Closes := by
  rintro before after t rfl hrun
  have hstart : Inv startServer ∧ Unset startServer ∧ Closes startServer := by
    refine ⟨inv_startServer, ?_, Proper.nil, .refl _⟩
    intro c client hc hturn
    obtain rfl := List.mem_singleton.mp (List.mem_of_getElem? hc)
    rfl
  have hkeep : ∀ action s t, Inv s ∧ Unset s ∧ Closes s → Fresh s action →
      step action s = .ok t → Inv t ∧ Unset t ∧ Closes t := by
    rintro action s t ⟨hinv, hunset, hcloses⟩ hfresh hstep
    exact ⟨hinv.step hstep, unset_step hunset hinv hstep,
      closes_step hcloses hinv hunset hfresh hstep⟩
  exact (hfresh.of_append.keeps hkeep hstart hrun).2.2

/--
The first client is accepted and the accept behind it started; its first read fails, its last
handler is destroyed, and the second client gets its descriptor.
-/
def firstVisit : List Action :=
  [.complete 0 { sd := 7 }, .take 0 0, .advance 0 none, .advance 0 none, .advance 0 none,
    .advance 0 none, .complete 0 { e := some .other }, .take 1 0, .advance 1 none, .advance 1 none,
    .complete 0 { sd := 7 }]

theorem asio_closes_first_socket :
    Always step startServer firstVisit Closes ∧
      ∃ s, machineRun step startServer firstVisit = .ok s ∧
        ledger s.log = [.opened 7, .closed 7, .opened 7] := by
  refine ⟨asio_closes_sockets firstVisit ?_, _, rfl, by decide⟩
  refine .cons ?_ rfl (.cons trivial rfl (.cons trivial rfl (.cons trivial rfl (.cons trivial rfl
    (.cons trivial rfl (.cons ?_ rfl (.cons trivial rfl (.cons trivial rfl (.cons trivial rfl
      (.cons ?_ rfl .nil))))))))))
  · intro c _ _
    exact List.not_mem_nil
  · intro c _ he
    injection he
  · intro c _ _
    decide

/-! ### What is sent -/

/-- The text of an answer. -/
def response : Bytes := text "HTTP/1.1 200 OK\r\nContent-Length: 26\r\n\r\nready proxy"

/-- `m_SendBuf` after an answer was written to it: text, terminator, and what was there. -/
def answer : CharArray :=
  response.map some ++ some 0 :: List.replicate (sendBufSize - 51) none

/-- Writing behind a text. -/
theorem snprintf_append (before str : Bytes) (cell : Option UInt8) (rest : CharArray)
    (h : str.length ≤ rest.length) :
    snprintf str (before.map some ++ cell :: rest) before.length
      = ((before ++ str).map some ++ some 0 :: rest.drop str.length, (before ++ str).length) := by
  have hbefore : (before.map some).length = before.length := List.length_map _
  have hcells : snprintfCells (before.map some ++ cell :: rest).length before.length str
      = str.map some ++ [some 0] := by
    rw [snprintfCells, List.length_append, List.length_cons, hbefore, if_pos (by omega),
      List.take_of_length_le (by omega)]
  have hlength : (str.map some ++ [some (0 : UInt8)]).length = str.length + 1 := by simp
  simp only [snprintf, hcells, hlength]
  rw [← hbefore, List.take_left, ← List.drop_drop, List.drop_left, hbefore]
  simp [List.append_assoc]

/-- The answer is written over the first 51 cells, whatever there was. -/
theorem fillSendBuf_eq {buf : CharArray} (h : 51 ≤ buf.length) :
    fillSendBuf buf = response.map some ++ some 0 :: buf.drop 51 := by
  obtain ⟨cell, rest, rfl⟩ := List.exists_cons_of_length_pos (Nat.lt_of_lt_of_le (by decide) h)
  rw [List.length_cons] at h
  have hstatus : (text "HTTP/1.1 200 OK\r\n").length = 17 := by decide
  have hheader : (text "Content-Length: 26\r\n\r\n").length = 22 := by decide
  have hbody : (text "ready proxy").length = 11 := by decide
  have hfirst := snprintf_append [] (text "HTTP/1.1 200 OK\r\n") cell rest (by omega)
  have hsecond := snprintf_append (text "HTTP/1.1 200 OK\r\n") (text "Content-Length: 26\r\n\r\n")
    (some 0) (rest.drop 17) (by rw [List.length_drop]; omega)
  have hthird := snprintf_append
    (text "HTTP/1.1 200 OK\r\n" ++ text "Content-Length: 26\r\n\r\n") (text "ready proxy")
    (some 0) ((rest.drop 17).drop 22) (by rw [List.length_drop, List.length_drop]; omega)
  have hresponse : text "HTTP/1.1 200 OK\r\n" ++ text "Content-Length: 26\r\n\r\n"
      ++ text "ready proxy" = response := by decide
  rw [List.map_nil, List.nil_append, List.nil_append, List.length_nil, hstatus] at hfirst
  rw [hstatus, hheader] at hsecond
  rw [List.length_append, hstatus, hheader, hbody, hresponse] at hthird
  rw [List.length_append, hstatus, hheader] at hsecond
  simp only [fillSendBuf, hfirst, hsecond, hthird]
  rw [List.drop_drop, List.drop_drop]
  rfl

/-- The first answer, and every answer over an answer. -/
theorem fillSendBuf_new : fillSendBuf Client.new.sendBuf = answer := by
  rw [fillSendBuf_eq]
  · show _ ++ some 0 :: (List.replicate sendBufSize none).drop 51 = answer
    rw [List.drop_replicate]
    rfl
  · rw [show Client.new.sendBuf = List.replicate sendBufSize none from rfl, List.length_replicate]
    decide

theorem fillSendBuf_answer : fillSendBuf answer = answer := by
  have hlength : response.length = 50 := by decide
  have hrest : answer.drop 51 = List.replicate (sendBufSize - 51) none := by
    rw [answer, List.append_cons, List.drop_left' (by simp [hlength])]
  rw [fillSendBuf_eq, hrest]
  · rfl
  · rw [answer, List.length_append, List.length_map, hlength, List.length_cons]
    omega

/-- The activity will send, or sends, what is in the buffer. -/
def Activity.sends? : Activity → Option ClientId
  | .pending (.write c) => some c
  | .thread (.filled c) => some c
  | _ => none

/-- A buffer has an answer or nothing in it, and an answer when it is sent. -/
structure Buffers (s : State) : Prop where
  cells : ∀ client ∈ s.clients, client.sendBuf = Client.new.sendBuf ∨ client.sendBuf = answer
  filled : ∀ c ∈ s.activities.filterMap Activity.sends?,
    ∃ client, s.clients[c]? = some client ∧ client.sendBuf = answer
  sent : ∀ c cells, (c, .sent cells) ∈ s.log → ∃ n, cells = answer.take n

/-- Every answer that went out is the beginning of the same 1024 cells. -/
def SendsAnswers (s : State) : Prop :=
  ∀ c cells, (c, .sent cells) ∈ s.log →
    cells <+: answer ∧ (none ∈ cells ↔ response.length + 1 < cells.length)

theorem Moves.sends {old new : List Activity} (h : Moves old new) :
    new.filterMap Activity.sends? ⊆ old.filterMap Activity.sends? := by
  cases h with
  | take | accepted | refused | startRead | received | hungUp | startWrite | readAgain =>
      exact fun _ hc => hc

/-- Steps that leave the buffers alone. -/
theorem Buffers.of_same (h : Buffers s) {old new : List Activity}
    (hchange : Traded old new s.activities t.activities)
    (hsends : new.filterMap Activity.sends? ⊆ old.filterMap Activity.sends?)
    (hbufs : t.clients.map Client.sendBuf = s.clients.map Client.sendBuf)
    (hlog : ∀ c cells, (c, .sent cells) ∈ t.log → (c, .sent cells) ∈ s.log ∨
      ∃ n, cells = answer.take n) : Buffers t := by
  have hmem : ∀ buf, buf ∈ t.clients.map Client.sendBuf ↔ buf ∈ s.clients.map Client.sendBuf := by
    intro buf
    rw [hbufs]
  refine ⟨?_, ?_, ?_⟩
  · intro client hclient
    obtain ⟨client', hclient', heq⟩ :=
      List.mem_map.mp ((hmem client.sendBuf).mp (List.mem_map_of_mem hclient))
    rw [← heq]
    exact h.cells client' hclient'
  · intro c hc
    have hold : c ∈ s.activities.filterMap Activity.sends? := by
      have hexchange := hchange.filterMap Activity.sends?
      rcases hexchange.mem_after hc with hnew | hbefore
      · exact hexchange.mem_old (hsends hnew)
      · exact hbefore
    obtain ⟨client, hclient, hanswer⟩ := h.filled c hold
    have hget := congrArg (·[c]?) hbufs
    simp only [List.getElem?_map, hclient, Option.map_some] at hget
    obtain ⟨client', hclient', heq⟩ := Option.map_eq_some_iff.mp hget
    exact ⟨client', hclient', heq.trans hanswer⟩
  · intro c cells hsent
    rcases hlog c cells hsent with hold | hnew
    · exact h.sent c cells hold
    · exact hnew

/-- `m_SendBuf` is filled. -/
theorem Buffers.answered (h : Buffers s) (hinv : Inv s) {c : ClientId}
    (hchange : Traded [.thread (.answering c)] [.thread (.filled c)] s.activities t.activities)
    (hclients : t.clients = s.clients.modify c fun client =>
      { client with sendBuf := fillSendBuf client.sendBuf })
    (hlog : t.log = s.log) : Buffers t := by
  have hfill : ∀ client ∈ s.clients, fillSendBuf client.sendBuf = answer := by
    intro client hclient
    rcases h.cells client hclient with hnew | hanswer
    · rw [hnew, fillSendBuf_new]
    · rw [hanswer, fillSendBuf_answer]
  -- a client of the old table is in the new one, with an answer if it had one or is filled
  have hget : ∀ i client, s.clients[i]? = some client →
      ∃ client', t.clients[i]? = some client' ∧
        client'.sendBuf = if c = i then answer else client.sendBuf := by
    intro i client hi
    rw [hclients, List.getElem?_modify, hi]
    by_cases hc : c = i
    · exact ⟨_, rfl, by simpa [hc] using hfill client (List.mem_of_getElem? hi)⟩
    · exact ⟨_, rfl, by simp [hc]⟩
  refine ⟨?_, ?_, ?_⟩
  · intro client hclient
    obtain ⟨i, hi⟩ := List.getElem?_of_mem hclient
    have hlt := (List.getElem?_eq_some_iff.mp hi).1
    rw [hclients, List.length_modify] at hlt
    obtain ⟨client', hi', hbuf⟩ := hget i _ (List.getElem?_eq_getElem hlt)
    obtain rfl : client = client' := Option.some.inj (hi.symm.trans hi')
    rw [hbuf]
    split
    · exact .inr rfl
    · exact h.cells _ (List.getElem_mem hlt)
  · intro d hd
    rcases (hchange.filterMap Activity.sends?).mem_after hd with hnew | hbefore
    · obtain rfl : d = c := List.mem_singleton.mp hnew
      have hheld : d ∈ s.holders := (holders_traded hchange).mem_old List.mem_cons_self
      obtain ⟨client', hi', hbuf⟩ := hget d _ (List.getElem?_eq_getElem (hinv.bounded d hheld))
      exact ⟨client', hi', by rw [hbuf, if_pos rfl]⟩
    · obtain ⟨client, hclient, hanswer⟩ := h.filled d hbefore
      obtain ⟨client', hi', hbuf⟩ := hget d client hclient
      exact ⟨client', hi', by rw [hbuf, hanswer, ite_self]⟩
  · rw [hlog]
    exact h.sent

theorem Op.finish_sendBuf (op : Op) (outcome : Outcome) (c : Client) :
    (op.finish outcome c).sendBuf = c.sendBuf := by
  unfold Op.finish
  split
  · split <;> rfl
  · rfl
  · rfl

theorem buffers_step {action : Action} (h : Buffers s) (hinv : Inv s)
    (hstep : step action s = .ok t) : Buffers t := by
  rcases step_stepped hstep with rfl | ⟨hmoves, hchange, hclients, hlog⟩ |
    ⟨rfl, hi, hchange, hop, hclients, hlog⟩ | ⟨hchange, hclients, hlog⟩ |
    ⟨hchange, hclients, hlog⟩ | ⟨hchange, hclients, hlog, rfl⟩
  · exact h
  · refine h.of_same hchange hmoves.sends (by rw [hclients]) ?_
    intro c cells hsent
    rw [hlog] at hsent
    exact .inl hsent
  · next i op outcome client =>
      refine h.of_same hchange (List.nil_subset _) ?_ ?_
      · rw [hclients]
        exact map_set_key Client.sendBuf hop (op.finish_sendBuf outcome client)
      · intro c cells hsent
        rw [hlog] at hsent
        refine (List.mem_append.mp hsent).imp_right ?_
        intro hnew
        obtain ⟨hc, hevent⟩ := Prod.mk.inj (List.mem_singleton.mp hnew)
        -- only a write sends, and its buffer was filled
        obtain ⟨a, rfl⟩ : ∃ a, op = .write a := by
          rcases op with a | a | a
          · rw [Op.event] at hevent
            split at hevent <;> injection hevent
          · rw [Op.event] at hevent
            split at hevent <;> injection hevent
          · exact ⟨a, rfl⟩
        obtain ⟨client', hclient', hanswer⟩ := h.filled a ((hchange.filterMap _).mem_old
          List.mem_cons_self)
        obtain rfl : client = client' := Option.some.inj (hop.symm.trans hclient')
        refine ⟨outcome.bytesTransferred, ?_⟩
        rw [← hanswer]
        injection hevent
  · next c =>
      refine ⟨?_, ?_, by rw [hlog]; exact h.sent⟩
      · intro client hclient
        rw [hclients, List.mem_append, List.mem_singleton] at hclient
        rcases hclient with hold | rfl
        · exact h.cells client hold
        · exact .inl rfl
      · intro d hd
        have hold := ((hchange.filterMap Activity.sends?).mem_after hd).resolve_left
          List.not_mem_nil
        obtain ⟨client, hclient, hanswer⟩ := h.filled d hold
        refine ⟨client, ?_, hanswer⟩
        rw [hclients, List.getElem?_append_left (List.getElem?_eq_some_iff.mp hclient).1, hclient]
  · exact h.answered hinv hchange hclients hlog
  · next c u =>
      have hbufs : (u.release c).clients.map Client.sendBuf = u.clients.map Client.sendBuf := by
        unfold State.release
        split
        · rfl
        · split
          · rfl
          · next client hclient => exact map_set_key Client.sendBuf hclient rfl
      have hu : Traded [.thread (.leaving c)] [.thread .idle] s.activities
          (u.release c).activities := by
        rw [(release_accepting c).1]
        exact hchange
      refine h.of_same hu (List.nil_subset _) (by rw [hbufs, hclients]) ?_
      intro d cells hsent
      rw [← hlog]
      left
      unfold State.release at hsent
      split at hsent
      · exact hsent
      · split at hsent
        · exact hsent
        · refine (List.mem_append.mp hsent).resolve_right ?_
          simp

/-- The cells of an answer that were never written. -/
theorem none_mem_take_answer (n : Nat) :
    none ∈ answer.take n ↔ response.length + 1 < (answer.take n).length := by
  have hlength : response.length = 50 := by decide
  have hsplit : answer = (response.map some ++ [some 0])
      ++ List.replicate (sendBufSize - 51) none := by rw [answer, List.append_cons]
  have hwritten : (none : Option UInt8) ∉ (response.map some ++ [some 0]).take n := by
    intro hmem
    have hall := List.mem_of_mem_take hmem
    simp at hall
  have hcount : (response.map some ++ [some (0 : UInt8)]).length = 51 := by simp [hlength]
  have hsize : sendBufSize - 51 = 973 := rfl
  rw [hsplit, List.take_append, hcount, hsize, List.take_replicate, List.mem_append,
    or_iff_right hwritten, List.mem_replicate, and_iff_left rfl, List.length_append,
    List.length_take, List.length_replicate, hcount, hlength]
  omega

/--
**An answer that is sent in more than 51 bytes has bytes in it that were never written.**
Whatever the threads do, what goes out for an answer is a prefix of the text, its terminator
and what was in the buffer before.
-/
theorem asio_sends_answers (actions : List Action) :
    Always step startServer actions SendsAnswers := by
  intro before after t heq hrun
  have hstart : Inv startServer ∧ Buffers startServer := by
    refine ⟨inv_startServer, ?_, ?_, ?_⟩
    · intro client hclient
      exact .inl (congrArg Client.sendBuf (List.mem_singleton.mp hclient))
    · intro c hc
      exact absurd hc List.not_mem_nil
    · intro c cells hsent
      exact absurd hsent List.not_mem_nil
  obtain ⟨-, hbuffers⟩ := Always.of_step
    (fun _ _ _ h hstep => And.intro (h.1.step hstep) (buffers_step h.2 h.1 hstep)) hstart
    actions before after t heq hrun
  intro c cells hsent
  obtain ⟨n, rfl⟩ := hbuffers.sent c cells hsent
  exact ⟨List.take_prefix n answer, none_mem_take_answer n⟩

end Technopark.Asio
