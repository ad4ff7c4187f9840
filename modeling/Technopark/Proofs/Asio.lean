/-
Every client of the asio server is served as if it were alone.

The handlers run on four threads and nothing locks the buffers of a `Client`.  What protects
them is that a client has one thing going on at a time: an operation that is outstanding, a
handler that waits to be called, or a thread that has not started the client's next operation
yet.  `State.turns` lists them, and no client is in it twice.

So what happens at one socket, whatever the others do in between, is a run of `Phase.next`:
accept, then read and answer in turns until a read fails, then the end.  A client is destroyed
when nobody holds it any more, and by then its session is over.

A step ends a few activities and begins a few others; `Stepped` says which, once for all the
invariants.
-/
import Technopark.Lib.Exchange
import Technopark.Lib.Ledger
import Technopark.Lib.Run
import Technopark.Lib.Session
import Technopark.Net.Asio

namespace Technopark.Asio

variable {s t : State}

/-! ### Activities -/

/-- An operation that is outstanding, a handler to be called, or a thread. -/
inductive Activity
  | pending (op : Op)
  | ready (handler : Handler)
  | thread (th : Thread)

def State.activities (s : State) : List Activity :=
  s.pending.map .pending ++ s.ready.map .ready ++ s.threads.map .thread

/-- The client an activity has a `shared_ptr` to. -/
def Activity.client? : Activity → Option ClientId
  | .pending op => some op.client
  | .ready handler => some handler.client
  | .thread th => th.client?

theorem holders_eq (s : State) : s.holders = s.activities.filterMap Activity.client? := by
  simp only [State.holders, State.activities, List.filterMap_append, List.filterMap_map]
  congr 1
  congr 1
  · rw [← List.filterMap_eq_map]
    rfl
  · rw [← List.filterMap_eq_map]
    rfl

/-! ### The session of one client -/

/-- Where a client is. -/
inductive Phase
  | unconnected
  | reading
  | answering
  | ended
  | destroyed
  deriving Repr, DecidableEq

/-- What may happen next at its socket. -/
def Phase.next : Phase → Event → Option Phase
  | .unconnected, .accepted _ => some .reading
  | .unconnected, .refused => some .ended
  | .reading, .received _ => some .answering
  | .reading, .hungUp => some .ended
  | .answering, .sent _ => some .reading
  | .ended, .closed _ => some .destroyed
  | _, _ => none

/-! ### Whose turn it is -/

/-- The phase of its client that an operation belongs to. -/
def Op.turn : Op → ClientId × Phase
  | .accept c => (c, .unconnected)
  | .read c => (c, .reading)
  | .write c => (c, .answering)

/-- A handler that was called with an error starts nothing. -/
def Handler.turn? : Handler → Option (ClientId × Phase)
  | .onAccept c none => some (c, .reading)
  | .onAccept _ (some _) => none
  | .handleRead c none => some (c, .answering)
  | .handleRead _ (some _) => none
  | .written c => some (c, .reading)

/-- A thread that has started the next operation of its client only has to leave. -/
def Thread.turn? : Thread → Option (ClientId × Phase)
  | .idle => none
  | .called handler => handler.turn?
  | .accepted c => some (c, .reading)
  | .reading _ => none
  | .answering c => some (c, .answering)
  | .filled c => some (c, .answering)
  | .leaving _ => none

def Activity.turn? : Activity → Option (ClientId × Phase)
  | .pending op => some op.turn
  | .ready handler => handler.turn?
  | .thread th => th.turn?

/-- What goes on for the clients, each with the phase it belongs to. -/
def State.turns (s : State) : List (ClientId × Phase) := s.activities.filterMap Activity.turn?

theorem Op.turn_fst (op : Op) : op.turn.1 = op.client := by cases op <;> rfl

theorem Handler.turn?_fst {handler : Handler} {turn : ClientId × Phase}
    (h : handler.turn? = some turn) : handler.client = turn.1 := by
  rcases handler with ⟨c, _ | _⟩ | ⟨c, _ | _⟩ | c
  all_goals first | exact congrArg Prod.fst (Option.some.inj h) | injection h

/-- Who has a turn is held. -/
theorem Activity.client?_of_turn? {activity : Activity} {turn : ClientId × Phase}
    (h : activity.turn? = some turn) : activity.client? = some turn.1 := by
  rcases activity with op | handler | th
  · rw [← Option.some.inj h, op.turn_fst]
    rfl
  · exact congrArg some (Handler.turn?_fst h)
  · rcases th with _ | handler | c | c | c | c | c
    case called => exact congrArg some (Handler.turn?_fst h)
    all_goals first | exact congrArg (some ∘ Prod.fst) (Option.some.inj h) | injection h

theorem held_of_turn {c : ClientId} {p : Phase} (h : (c, p) ∈ s.turns) : c ∈ s.holders := by
  obtain ⟨activity, hmem, hturn⟩ := List.mem_filterMap.mp h
  rw [holders_eq]
  exact List.mem_filterMap.mpr ⟨activity, hmem, Activity.client?_of_turn? hturn⟩

/-! ### The property -/

/-- Every client has one turn at most, and its events are those of a session up to there. -/
structure InTurn (s : State) : Prop where
  /-- No client has two operations, handlers or threads at work for it. -/
  once : (s.turns.map Prod.fst).Nodup
  turn : ∀ c p, (c, p) ∈ s.turns → session Phase.next .unconnected (eventsOf c s.log) = some p
  finished : ∀ c client, s.clients[c]? = some client → (∀ p, (c, p) ∉ s.turns) →
    session Phase.next .unconnected (eventsOf c s.log)
      = some (if client.alive then .ended else .destroyed)
  /-- A client exists as long as somebody holds it. -/
  held : ∀ c client, s.clients[c]? = some client → (client.alive = true ↔ c ∈ s.holders)

/-! ### What a step does -/

/-- What a step ends and begins that does nothing else. -/
inductive Moves : List Activity → List Activity → Prop
  | take (handler : Handler) :
      Moves [.ready handler, .thread .idle] [.thread (.called handler)]
  | accepted (c : ClientId) :
      Moves [.thread (.called (.onAccept c none))] [.thread (.accepted c)]
  | refused (c : ClientId) (e : ErrorCode) :
      Moves [.thread (.called (.onAccept c (some e)))] [.thread (.leaving c)]
  | startRead (c : ClientId) :
      Moves [.thread (.accepted c)] [.pending (.read c), .thread (.reading c)]
  | received (c : ClientId) :
      Moves [.thread (.called (.handleRead c none))] [.thread (.answering c)]
  | hungUp (c : ClientId) (e : ErrorCode) :
      Moves [.thread (.called (.handleRead c (some e)))] [.thread (.leaving c)]
  | startWrite (c : ClientId) :
      Moves [.thread (.filled c)] [.pending (.write c), .thread (.leaving c)]
  | readAgain (c : ClientId) :
      Moves [.thread (.called (.written c))] [.pending (.read c), .thread (.leaving c)]

/-- What a step can do. -/
inductive Stepped (action : Action) (s t : State) : Prop
  | stayed (h : t = s)
  | moved {old new : List Activity} (hmoves : Moves old new)
      (h : Traded old new s.activities t.activities) (hclients : t.clients = s.clients)
      (hlog : t.log = s.log)
  | completed {i : Nat} {op : Op} {outcome : Outcome} {c : Client}
      (haction : action = .complete i outcome) (hi : s.pending[i]? = some op)
      (h : Traded [.pending op] [.ready (op.handler outcome)] s.activities t.activities)
      (hop : s.clients[op.client]? = some c)
      (hclients : t.clients = s.clients.set op.client (op.finish outcome c))
      (hlog : t.log = s.log ++ [(op.client, op.event outcome c)])
  | rearmed {c : ClientId}
      (h : Traded [.thread (.reading c)]
        [.pending (.accept s.clients.length), .thread (.leaving c)] s.activities t.activities)
      (hclients : t.clients = s.clients ++ [Client.new]) (hlog : t.log = s.log)
  | answered {c : ClientId}
      (h : Traded [.thread (.answering c)] [.thread (.filled c)] s.activities t.activities)
      (hclients : t.clients = s.clients.modify c fun client =>
        { client with sendBuf := fillSendBuf client.sendBuf })
      (hlog : t.log = s.log)
  | left {c : ClientId} {u : State}
      (h : Traded [.thread (.leaving c)] [.thread .idle] s.activities u.activities)
      (hclients : u.clients = s.clients) (hlog : u.log = s.log) (hrelease : t = u.release c)

/-- A thread goes on. -/
theorem traded_goto {w : Nat} {old : Thread} (h : s.threads[w]? = some old) (new : Thread) :
    Traded [.thread old] [.thread new] s.activities (s.goto w new).activities :=
  (Traded.refl _).append ((Traded.of_set h new).map Activity.thread)

/-- A thread starts an operation and goes on. -/
theorem traded_async {w : Nat} {old : Thread} (h : s.threads[w]? = some old) (op : Op)
    (new : Thread) :
    Traded [.thread old] [.pending op, .thread new] s.activities
      ((s.async op).goto w new).activities :=
  (((Traded.concat s.pending op).map Activity.pending).append
    (Traded.refl (s.ready.map Activity.ready))).append
    ((Traded.of_set h new).map Activity.thread)

theorem traded_take {w i : Nat} {handler : Handler} (hw : s.threads[w]? = some .idle)
    (hi : s.ready[i]? = some handler) :
    Traded [.ready handler, .thread .idle] [.thread (.called handler)] s.activities
      (({ s with ready := s.ready.eraseIdx i } : State).goto w (.called handler)).activities :=
  ((Traded.refl (s.pending.map Activity.pending)).append
    ((Traded.of_eraseIdx hi).map Activity.ready)).append
    ((Traded.of_set hw _).map Activity.thread)

theorem complete_stepped (i : Nat) (outcome : Outcome) : 
    Stepped (.complete i outcome) s (complete i outcome s) := by
  cases hpending : s.pending[i]? with
  | none =>
      refine .stayed ?_
      simp only [complete, hpending]
  | some op =>
      cases hclient : s.clients[op.client]? with
      | none =>
          refine .stayed ?_
          simp only [complete, hpending, hclient]
      | some c =>
          have hchange := (((Traded.of_eraseIdx hpending).map Activity.pending).append
            ((Traded.concat s.ready (op.handler outcome)).map Activity.ready)).append
            (Traded.refl (s.threads.map Activity.thread))
          simp only [complete, hpending, hclient]
          exact .completed rfl hpending hchange hclient rfl rfl

theorem take_stepped (w i : Nat) : Stepped (.take w i) s (take w i s) := by
  unfold take
  split
  · next hidle hready => exact .moved (.take _) (traded_take hidle hready) rfl rfl
  · exact .stayed rfl

/-- `remote_endpoint()` that returned. -/
theorem remoteEndpoint_ok {α : Type} {error : Option String} {x : Except Fault α} {a : α}
    (h : (do remoteEndpoint error; x) = .ok a) : x = .ok a := by
  cases error with
  | none => exact h
  | some what => injection h

theorem advance_stepped {w : Nat} {error : Option String} (h : advance w error s = .ok t) :
    Stepped (.advance w error) s t := by
  unfold advance at h
  split at h
  · exact .stayed (Except.ok.inj h).symm
  · exact .stayed (Except.ok.inj h).symm
  · next c e hw =>
      cases e with
      | none =>
          have ht := remoteEndpoint_ok h
          obtain rfl := Except.ok.inj ht
          exact .moved (.accepted c) (traded_goto hw _) rfl rfl
      | some e =>
          obtain rfl := Except.ok.inj h
          exact .moved (.refused c e) (traded_goto hw _) rfl rfl
  · next c hw =>
      obtain rfl := Except.ok.inj h
      exact .moved (.startRead c) (traded_async hw _ _) rfl rfl
  · next c hw =>
      obtain rfl := Except.ok.inj h
      refine .rearmed (c := c) ?_ rfl rfl
      exact traded_async (s := { s with clients := s.clients ++ [Client.new] }) hw _ _
  · next c e hw =>
      rcases e with _ | e
      · obtain rfl := Except.ok.inj h
        exact .moved (.received c) (traded_goto hw _) rfl rfl
      · have ht : (Except.ok (s.goto w (.leaving c)) : Except Fault State) = .ok t := by
          cases e with
          | eof => exact remoteEndpoint_ok h
          | other => exact h
        obtain rfl := Except.ok.inj ht
        exact .moved (.hungUp c e) (traded_goto hw _) rfl rfl
  · next c hw =>
      obtain rfl := Except.ok.inj h
      exact .answered (traded_goto (s := { s with clients := s.clients.modify c fun client =>
        { client with sendBuf := fillSendBuf client.sendBuf } }) hw _) rfl rfl
  · next c hw =>
      obtain rfl := Except.ok.inj h
      exact .moved (.startWrite c) (traded_async hw _ _) rfl rfl
  · next c hw =>
      obtain rfl := Except.ok.inj h
      exact .moved (.readAgain c) (traded_async hw _ _) rfl rfl
  · next c hw =>
      obtain rfl := Except.ok.inj h
      exact .left (traded_goto hw .idle) rfl rfl rfl

/-- Every step is one of these. -/
theorem step_stepped {action : Action} (h : step action s = .ok t) : Stepped action s t := by
  cases action with
  | complete i outcome =>
      obtain rfl := Except.ok.inj h
      exact complete_stepped i outcome
  | take w i =>
      obtain rfl := Except.ok.inj h
      exact take_stepped w i
  | advance w error => exact advance_stepped h

/-- Moving changes neither whose turn it is nor who is held. -/
theorem Moves.turns {old new : List Activity} (h : Moves old new) :
    old.filterMap Activity.turn? = new.filterMap Activity.turn? := by
  cases h with
  | take handler =>
      simp only [List.filterMap_cons, List.filterMap_nil, Activity.turn?, Thread.turn?]
  | accepted | refused | startRead | received | hungUp | startWrite | readAgain => rfl

theorem Moves.holders {old new : List Activity} (h : Moves old new) (c : ClientId) :
    c ∈ old.filterMap Activity.client? ↔ c ∈ new.filterMap Activity.client? := by
  cases h with
  | accepted | refused | received | hungUp => exact Iff.rfl
  | take | startRead | startWrite | readAgain =>
      simp [List.filterMap_cons, Activity.client?, Thread.client?, Handler.client, Op.client]

/-! ### The invariant -/

/-- `InTurn`, with what it takes to keep it: clients are known by their numbers. -/
structure Inv (s : State) : Prop extends InTurn s where
  bounded : ∀ c ∈ s.holders, c < s.clients.length
  logged : ∀ entry ∈ s.log, entry.1 < s.clients.length

theorem turns_traded {old new : List Activity}
    (h : Traded old new s.activities t.activities) :
    Traded (old.filterMap Activity.turn?) (new.filterMap Activity.turn?) s.turns t.turns :=
  h.filterMap _

theorem holders_traded {old new : List Activity}
    (h : Traded old new s.activities t.activities) :
    Traded (old.filterMap Activity.client?) (new.filterMap Activity.client?)
      s.holders t.holders := by
  rw [holders_eq, holders_eq]
  exact h.filterMap _

theorem alive_eq {clients clients' : List Client}
    (h : clients'.map Client.alive = clients.map Client.alive) {c : ClientId} {client : Client}
    (hc : clients'[c]? = some client) :
    ∃ client' : Client, clients[c]? = some client' ∧ client'.alive = client.alive := by
  have hget := congrArg (·[c]?) h
  simp only [List.getElem?_map, hc, Option.map_some] at hget
  exact Option.map_eq_some_iff.mp hget.symm

/-- The same turns and holders: only the buffers of clients may have changed. -/
theorem Inv.of_same (h : Inv s) (hturns : s.turns.Perm t.turns)
    (hholders : ∀ c, c ∈ s.holders ↔ c ∈ t.holders)
    (halive : t.clients.map Client.alive = s.clients.map Client.alive) (hlog : t.log = s.log) :
    Inv t := by
  have hlength : t.clients.length = s.clients.length := by
    simpa using congrArg List.length halive
  refine ⟨⟨?_, ?_, ?_, ?_⟩, ?_, ?_⟩
  · exact (hturns.map _).nodup_iff.mp h.once
  · intro c p hmem
    rw [hlog]
    exact h.turn c p (hturns.mem_iff.mpr hmem)
  · intro c client hc hnone
    obtain ⟨client', hc', heq⟩ := alive_eq halive hc
    rw [hlog, ← heq]
    exact h.finished c client' hc' fun p hmem => hnone p (hturns.mem_iff.mp hmem)
  · intro c client hc
    obtain ⟨client', hc', heq⟩ := alive_eq halive hc
    rw [← heq, h.held c client' hc']
    exact hholders c
  · intro c hc
    rw [hlength]
    exact h.bounded c ((hholders c).mpr hc)
  · rw [hlog, hlength]
    exact h.logged

/-- An exchange of activities that hold the same clients. -/
theorem holders_iff {old new : List Activity}
    (h : Traded old new s.activities t.activities)
    (hsame : ∀ c, c ∈ old.filterMap Activity.client? ↔ c ∈ new.filterMap Activity.client?)
    (c : ClientId) : c ∈ s.holders ↔ c ∈ t.holders := by
  have hholders := holders_traded h
  constructor
  · intro hc
    rcases hholders.mem_before hc with hold | hafter
    · exact hholders.mem_new ((hsame c).mp hold)
    · exact hafter
  · intro hc
    rcases hholders.mem_after hc with hnew | hbefore
    · exact hholders.mem_old ((hsame c).mpr hnew)
    · exact hbefore

theorem Inv.moved (h : Inv s) {old new : List Activity} (hmoves : Moves old new)
    (hchange : Traded old new s.activities t.activities) (hclients : t.clients = s.clients)
    (hlog : t.log = s.log) : Inv t := by
  refine h.of_same ?_ (holders_iff hchange hmoves.holders) (by rw [hclients]) hlog
  have hturns := turns_traded hchange
  rw [hmoves.turns] at hturns
  exact hturns.perm

/-- Writing to a buffer. -/
theorem Inv.answered (h : Inv s) {c : ClientId} {f : Client → Client}
    (hchange : Traded [.thread (.answering c)] [.thread (.filled c)] s.activities t.activities)
    (hclients : t.clients = s.clients.modify c f) (hf : ∀ client, (f client).alive = client.alive)
    (hlog : t.log = s.log) : Inv t := by
  refine h.of_same (turns_traded hchange).perm (holders_iff hchange fun _ => Iff.rfl) ?_ hlog
  rw [hclients]
  exact map_modify_key Client.alive hf s.clients c

theorem Op.handler_client (op : Op) (outcome : Outcome) :
    (op.handler outcome).client = op.client := by cases op <;> rfl

/-- What happens at the socket is what may happen in the phase of the operation. -/
theorem Op.next (op : Op) (outcome : Outcome) (c : Client) :
    op.turn.2.next (op.event outcome c)
      = some (((op.handler outcome).turn?.map Prod.snd).getD .ended) := by
  rcases op with a | a | a
  · cases he : outcome.e <;> simp [Op.turn, Op.event, Op.handler, Handler.turn?, Phase.next, he]
  · cases he : outcome.e <;> simp [Op.turn, Op.event, Op.handler, Handler.turn?, Phase.next, he]
  · rfl

theorem Op.finish_alive (op : Op) (outcome : Outcome) (c : Client) :
    (op.finish outcome c).alive = c.alive := by
  unfold Op.finish
  split
  · split <;> rfl
  · rfl
  · rfl

/-- An operation is finished. -/
theorem Inv.completed (h : Inv s) {op : Op} {outcome : Outcome} {client : Client}
    (hchange : Traded [.pending op] [.ready (op.handler outcome)] s.activities t.activities)
    (hop : s.clients[op.client]? = some client)
    (hclients : t.clients = s.clients.set op.client (op.finish outcome client))
    (hlog : t.log = s.log ++ [(op.client, op.event outcome client)]) : Inv t := by
  obtain ⟨rest, hbefore, hafter⟩ := turns_traded hchange
  have halive : t.clients.map Client.alive = s.clients.map Client.alive := by
    rw [hclients]
    exact map_set_key Client.alive hop (op.finish_alive outcome client)
  have hlength : t.clients.length = s.clients.length := by rw [hclients, List.length_set]
  have hholders := holders_iff hchange fun c => by
    simp [Activity.client?, op.handler_client]
  have hhead : op.turn ∈ s.turns := hbefore.mem_iff.mpr List.mem_cons_self
  have hnodup : (op.client :: rest.map Prod.fst).Nodup := by
    have hfirsts := (hbefore.map Prod.fst).nodup_iff.mp h.once
    rw [← op.turn_fst]
    exact hfirsts
  -- the client of the operation goes on to the phase of the handler, or is at its end
  have hsession : session Phase.next .unconnected (eventsOf op.client t.log)
      = some (((op.handler outcome).turn?.map Prod.snd).getD .ended) := by
    have hturn := h.turn op.client op.turn.2 (by rw [← op.turn_fst]; exact hhead)
    rw [hlog, eventsOf_self, session_concat, hturn]
    exact op.next outcome client
  have hother : ∀ c, c ≠ op.client → eventsOf c t.log = eventsOf c s.log := by
    intro c hc
    rw [hlog]
    exact eventsOf_ne (Ne.symm hc) _ _
  have hnew : ∀ turn, (op.handler outcome).turn? = some turn → turn.1 = op.client := by
    intro turn hturn
    rw [← Handler.turn?_fst hturn, op.handler_client]
  have hmem : ∀ turn, turn ∈ t.turns ↔ (op.handler outcome).turn? = some turn ∨ turn ∈ rest := by
    intro turn
    rw [hafter.mem_iff, List.mem_append, List.filterMap_cons]
    cases hhandler : (op.handler outcome).turn? with
    | none => simp [Activity.turn?, hhandler]
    | some new => simp [Activity.turn?, hhandler, eq_comm]
  refine ⟨⟨?_, ?_, ?_, ?_⟩, ?_, ?_⟩
  · refine (hafter.map Prod.fst).nodup_iff.mpr ?_
    cases hhandler : (op.handler outcome).turn? with
    | none =>
        simp only [List.filterMap_cons, Activity.turn?, hhandler]
        exact (List.nodup_cons.mp hnodup).2
    | some turn =>
        simp only [List.filterMap_cons, Activity.turn?, hhandler]
        rw [← hnew turn hhandler] at hnodup
        exact hnodup
  · intro c p hturn
    rcases (hmem (c, p)).mp hturn with hhandler | hrest
    · have hc : c = op.client := hnew (c, p) hhandler
      rw [hc, hsession, hhandler]
      rfl
    · have hc : c ≠ op.client := by
        rintro rfl
        exact (List.nodup_cons.mp hnodup).1 (List.mem_map_of_mem hrest)
      rw [hother c hc]
      exact h.turn c p (hbefore.mem_iff.mpr (List.mem_cons_of_mem _ hrest))
  · intro c client' hc hnone
    obtain ⟨client₀, hc₀, heq⟩ := alive_eq halive hc
    rw [← heq]
    by_cases hsame : c = op.client
    · have hgone : (op.handler outcome).turn? = none := by
        rw [Option.eq_none_iff_forall_ne_some]
        intro turn hturn
        refine hnone turn.2 ((hmem _).mpr (.inl ?_))
        rw [hsame, ← hnew turn hturn]
        exact hturn
      have hheld : c ∈ s.holders := by
        rw [hsame, ← op.turn_fst]
        exact held_of_turn hhead
      rw [hsame, hsession, hgone, (h.held c client₀ hc₀).mpr hheld]
      rfl
    · rw [hother c hsame]
      refine h.finished c client₀ hc₀ ?_
      intro p hturn
      rcases List.mem_cons.mp (hbefore.mem_iff.mp hturn) with heq | hrest
      · exact hsame ((congrArg Prod.fst heq).trans op.turn_fst)
      · exact hnone p ((hmem _).mpr (.inr hrest))
  · intro c client' hc
    obtain ⟨client₀, hc₀, heq⟩ := alive_eq halive hc
    rw [← heq, h.held c client₀ hc₀]
    exact hholders c
  · intro c hc
    rw [hlength]
    exact h.bounded c ((hholders c).mpr hc)
  · intro entry hentry
    rw [hlength]
    rw [hlog, List.mem_append, List.mem_singleton] at hentry
    rcases hentry with hentry | rfl
    · exact h.logged entry hentry
    · exact (List.getElem?_eq_some_iff.mp hop).1

/-- `startAccept`: a new client, which nothing has happened to. -/
theorem Inv.rearmed (h : Inv s) {c : ClientId}
    (hchange : Traded [.thread (.reading c)]
      [.pending (.accept s.clients.length), .thread (.leaving c)] s.activities t.activities)
    (hclients : t.clients = s.clients ++ [Client.new]) (hlog : t.log = s.log) : Inv t := by
  obtain ⟨rest, hbefore, hafter⟩ := turns_traded hchange
  have hturns : t.turns.Perm ((s.clients.length, .unconnected) :: s.turns) :=
    hafter.trans (hbefore.symm.cons (s.clients.length, Phase.unconnected))
  have hmem : ∀ c', c' ∈ t.holders ↔ c' = s.clients.length ∨ c' ∈ s.holders := by
    obtain ⟨rest, hold, hnew⟩ := holders_traded hchange
    intro c'
    rw [hold.mem_iff, hnew.mem_iff]
    simp [Activity.client?, Thread.client?, Op.client]
  have hlength : t.clients.length = s.clients.length + 1 := by simp [hclients]
  have hfresh : s.clients.length ∉ s.turns.map Prod.fst := by
    intro hin
    obtain ⟨turn, hturn, heq⟩ := List.mem_map.mp hin
    exact Nat.ne_of_lt (h.bounded turn.1 (held_of_turn hturn)) heq
  -- an old client is as it was
  have hold : ∀ c' client, t.clients[c']? = some client → c' ≠ s.clients.length →
      s.clients[c']? = some client := by
    intro c' client hc' hne
    have hlt := (List.getElem?_eq_some_iff.mp hc').1
    rwa [hclients, List.getElem?_append_left (by omega)] at hc'
  refine ⟨⟨?_, ?_, ?_, ?_⟩, ?_, ?_⟩
  · rw [(hturns.map Prod.fst).nodup_iff]
    exact List.nodup_cons.mpr ⟨hfresh, h.once⟩
  · intro c' p hturn
    rw [hlog]
    rcases List.mem_cons.mp (hturns.mem_iff.mp hturn) with heq | hturn
    · obtain ⟨rfl, rfl⟩ := Prod.mk.inj heq
      rw [eventsOf_eq_nil fun entry hentry => Nat.ne_of_lt (h.logged entry hentry)]
      rfl
    · exact h.turn c' p hturn
  · intro c' client hc' hnone
    rw [hlog]
    have hne : c' ≠ s.clients.length := by
      rintro rfl
      exact hnone .unconnected (hturns.mem_iff.mpr List.mem_cons_self)
    exact h.finished c' client (hold c' client hc' hne)
      fun p hturn => hnone p (hturns.mem_iff.mpr (List.mem_cons_of_mem _ hturn))
  · intro c' client hc'
    rw [hmem]
    by_cases hne : c' = s.clients.length
    · rw [hclients, hne, List.getElem?_concat_length] at hc'
      obtain rfl := Option.some.inj hc'
      exact iff_of_true rfl (.inl hne)
    · rw [h.held c' client (hold c' client hc' hne), or_iff_right hne]
  · intro c' hc'
    rw [hlength]
    rcases (hmem c').mp hc' with rfl | hc'
    · exact Nat.lt_succ_self _
    · exact Nat.lt_succ_of_lt (h.bounded c' hc')
  · intro entry hentry
    rw [hlog] at hentry
    rw [hlength]
    exact Nat.lt_succ_of_lt (h.logged entry hentry)

/-- A handler is destroyed, and its client with it if nobody else holds it. -/
theorem Inv.left (h : Inv s) {c : ClientId} {u : State}
    (hchange : Traded [.thread (.leaving c)] [.thread .idle] s.activities u.activities)
    (hclients : u.clients = s.clients) (hlog : u.log = s.log) : Inv (u.release c) := by
  have hturns : s.turns.Perm u.turns := (turns_traded hchange).perm
  have hbefore : ∀ c', c' ∈ s.holders ↔ c' = c ∨ c' ∈ u.holders := by
    obtain ⟨rest, hold, hnew⟩ := holders_traded hchange
    intro c'
    rw [hold.mem_iff, hnew.mem_iff]
    simp [Activity.client?, Thread.client?]
  by_cases hheld : c ∈ u.holders
  · rw [State.release, if_pos hheld]
    refine h.of_same hturns ?_ (by rw [hclients]) hlog
    intro c'
    rw [hbefore, or_iff_right_iff_imp]
    rintro rfl
    exact hheld
  have hc : c ∈ s.holders := (hbefore c).mpr (.inl rfl)
  obtain ⟨client, hclient⟩ : ∃ client, u.clients[c]? = some client := by
    rw [hclients]
    exact ⟨_, List.getElem?_eq_getElem (h.bounded c hc)⟩
  simp only [State.release, if_neg hheld, hclient]
  have hother : ∀ c', c' ≠ c →
      eventsOf c' (u.log ++ [(c, .closed client.sock)]) = eventsOf c' s.log := by
    intro c' hne
    rw [eventsOf_ne (Ne.symm hne), hlog]
  have hgone : ∀ p, (c, p) ∉ u.turns := fun p hturn => hheld (held_of_turn hturn)
  refine ⟨⟨?_, ?_, ?_, ?_⟩, ?_, ?_⟩
  · exact (hturns.map Prod.fst).nodup_iff.mp h.once
  · intro c' p hturn
    have hne : c' ≠ c := by
      rintro rfl
      exact hgone p hturn
    show session Phase.next .unconnected (eventsOf c' (u.log ++ [(c, .closed client.sock)]))
      = some p
    rw [hother c' hne]
    exact h.turn c' p (hturns.mem_iff.mpr hturn)
  · intro c' client' hc' hnone
    show session Phase.next .unconnected (eventsOf c' (u.log ++ [(c, .closed client.sock)])) = _
    by_cases hsame : c' = c
    · subst hsame
      rw [hclients] at hclient
      have hended : session Phase.next .unconnected (eventsOf c' s.log) = some .ended := by
        rw [h.finished c' client hclient fun p hturn => hgone p (hturns.mem_iff.mp hturn),
          (h.held c' client hclient).mpr hc]
        rfl
      have hdead : client' = { client with alive := false } := by
        have hlt := (List.getElem?_eq_some_iff.mp hclient).1
        simp only [List.getElem?_set, hclients] at hc'
        simpa [hlt, eq_comm] using hc'
      rw [eventsOf_self, session_concat, hlog, hended, hdead]
      rfl
    · rw [hother c' hsame]
      simp only [List.getElem?_set, hclients, Ne.symm hsame, if_false] at hc'
      exact h.finished c' client' hc' fun p hturn => hnone p (hturns.mem_iff.mp hturn)
  · intro c' client' hc'
    show client'.alive = true ↔ c' ∈ u.holders
    by_cases hsame : c' = c
    · subst hsame
      have hlt := h.bounded c' hc
      simp only [List.getElem?_set, hclients] at hc'
      have hdead : client' = { client with alive := false } := by simpa [hlt, eq_comm] using hc'
      rw [hdead]
      exact iff_of_false Bool.false_ne_true hheld
    · simp only [List.getElem?_set, hclients, Ne.symm hsame, if_false] at hc'
      rw [h.held c' client' hc', hbefore, or_iff_right hsame]
  · intro c' hc'
    show c' < (u.clients.set c _).length
    rw [List.length_set, hclients]
    exact h.bounded c' ((hbefore c').mpr (.inr hc'))
  · intro entry hentry
    show entry.1 < (u.clients.set c _).length
    rw [List.length_set, hclients]
    rcases List.mem_append.mp hentry with hentry | hentry
    · rw [hlog] at hentry
      exact h.logged entry hentry
    · rw [List.mem_singleton.mp hentry]
      exact h.bounded c hc

theorem Inv.step (h : Inv s) {action : Action} (hstep : step action s = .ok t) : Inv t := by
  rcases step_stepped hstep with rfl | ⟨hmoves, hchange, hclients, hlog⟩ |
    ⟨-, -, hchange, hop, hclients, hlog⟩ | ⟨hchange, hclients, hlog⟩ | ⟨hchange, hclients, hlog⟩ |
    ⟨hchange, hclients, hlog, rfl⟩
  · exact h
  · exact h.moved hmoves hchange hclients hlog
  · exact h.completed hchange hop hclients hlog
  · exact h.rearmed hchange hclients hlog
  · exact h.answered hchange hclients (fun _ => rfl) hlog
  · exact h.left hchange hclients hlog

theorem inv_startServer : Inv startServer := by
  refine ⟨⟨by decide, ?_, ?_, ?_⟩, by decide, by decide⟩
  · intro c p hturn
    rw [show startServer.turns = [(0, .unconnected)] from rfl, List.mem_singleton] at hturn
    obtain ⟨rfl, rfl⟩ := Prod.mk.inj hturn
    rfl
  · intro c client hc hnone
    have hc : c = 0 := by
      have hlt := (List.getElem?_eq_some_iff.mp hc).1
      exact Nat.lt_one_iff.mp hlt
    subst hc
    exact absurd (List.mem_singleton.mpr rfl) (hnone .unconnected)
  · intro c client hc
    have hzero : c = 0 := by
      have hlt := (List.getElem?_eq_some_iff.mp hc).1
      exact Nat.lt_one_iff.mp hlt
    subst hzero
    obtain rfl := Option.some.inj hc
    exact iff_of_true rfl (by decide)

/--
**Whatever the threads do, every client is served in turn**: in every state of every run no
client has two operations, handlers or threads at work for it, the events at its socket are
those of one session, and it is destroyed once, after that session, when nobody holds it.
-/
theorem asio_serves_in_turn (actions : List Action) : Always step startServer actions InTurn := by
  intro before after t heq hrun
  exact (Always.of_step (fun _ _ _ h hstep => Inv.step h hstep) inv_startServer actions before after
    t heq hrun).toInTurn

end Technopark.Asio
