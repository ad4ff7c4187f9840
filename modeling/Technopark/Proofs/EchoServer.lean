/-
What the clients of an echo server hear, and what ends the server.

The log of a process is one conversation after another, each from its `accept` to its close,
and in each of them a line is answered before the next one is read (`echoServer_converses`).
`~Socket` closes no descriptor 0, so nobody must be accepted with that one.
What the client gets is the echo of the pieces it was read in, as long as the kernel takes each
answer in at most two calls (`echoServer_echoes`).

One client can end the server for all.  A piece of nothing but line ends leaves nothing to
trim, and that is no exception (`main_goes_on_iff`).
-/
import Technopark.Lib.Session
import Technopark.Net.EchoServer
import Technopark.Proofs.Receive
import Technopark.Proofs.SocketSend

namespace Technopark.EchoServer

open Socket (SendResults Wire accepted trimmed)

variable {answer : Bytes → Bytes} {sd : Int} {turns : List Turn} {log : List Event}

/-! ### The conversations -/

/-- What a process is doing. -/
inductive Phase
  | free
  | talking (sd : Int)
  /-- A line was read and is not answered yet. -/
  | owing (sd : Int) (line : Bytes)
  | leaving (sd : Int)
  deriving Repr, DecidableEq

/-- What may happen next. -/
def Phase.next (answer : Bytes → Bytes) : Phase → Event → Option Phase
  | .free, .accepted sd => some (.talking sd)
  | .talking sd, .received sd' line => if sd' = sd then some (.owing sd line) else none
  | .owing sd line, .sent sd' str _ =>
      if sd' = sd ∧ str = answer line then some (.talking sd) else none
  | .talking sd, .caught sd' _ => if sd' = sd then some (.leaving sd) else none
  | .leaving sd, .closed sd' => if sd' = sd then some .free else none
  | _, _ => none

/-- The process is through with everybody it has accepted. -/
def Through (answer : Bytes → Bytes) (log : List Event) : Prop :=
  session (Phase.next answer) .free log = some .free

theorem session_next {phase phase' : Phase} {event : Event}
    (h : session (Phase.next answer) .free log = some phase)
    (hnext : phase.next answer event = some phase') :
    session (Phase.next answer) .free (log ++ [event]) = some phase' := by
  rw [session_concat, h]
  exact hnext

theorem caught_ok {e : Fault} {log' : List Event} (h : caught sd e log = .ok log') :
    ∃ what, log' = log ++ [.caught sd what] := by
  rw [caught] at h
  split at h
  · next what _ =>
      injection h with h
      exact ⟨what, h.symm⟩
  · injection h

/-- A line and its answer. -/
theorem session_echoed (h : session (Phase.next answer) .free log = some (.talking sd))
    (line : Bytes) (wire : Wire) :
    session (Phase.next answer) .free
      (log ++ [.received sd line, .sent sd (answer line) wire]) = some (.talking sd) := by
  have howing : session (Phase.next answer) .free (log ++ [.received sd line])
      = some (.owing sd line) := session_next h (if_pos rfl)
  rw [List.append_cons]
  exact session_next howing (if_pos ⟨rfl, rfl⟩)

/-- `client_work` returns when the client leaves. -/
theorem clientWork_leaves (turns : List Turn) :
    ∀ {log log' : List Event}, session (Phase.next answer) .free log = some (.talking sd) →
      clientWork answer sd turns log = .ok log' →
      session (Phase.next answer) .free log' = some (.leaving sd) := by
  induction turns with
  | nil =>
      intro log log' _ hrun
      injection hrun
  | cons turn turns ih =>
      intro log log' h hrun
      have hleaves {e : Fault} {log log' : List Event}
          (h : session (Phase.next answer) .free log = some (.talking sd))
          (hcaught : caught sd e log = .ok log') :
          session (Phase.next answer) .free log' = some (.leaving sd) := by
        obtain ⟨what, rfl⟩ := caught_ok hcaught
        exact session_next h (if_pos rfl)
      rw [clientWork] at hrun
      split at hrun
      · exact hleaves h hrun
      · next line _ =>
          split at hrun
          · next wire _ => exact ih (session_echoed h line wire) hrun
          · next wire _ => exact hleaves (session_echoed h line wire) hrun

/-- One client from its `accept` to its close. -/
theorem serve_through {visit : Visit} {log' : List Event} (h : Through answer log)
    (hpos : visit.accept = -1 ∨ 0 < visit.accept) (hserve : serve answer visit log = .ok log') :
    Through answer log' := by
  rw [serve] at hserve
  split at hserve
  · injection hserve
  · next haccept =>
      rw [Socket.setRcvTimeout] at hserve
      split at hserve
      · injection hserve
      · rw [ok_bind] at hserve
        have htalking : session (Phase.next answer) .free (log ++ [.accepted visit.accept])
            = some (.talking visit.accept) := session_next h rfl
        cases hwork : clientWork answer visit.accept visit.turns
            (log ++ [.accepted visit.accept]) with
        | error e =>
            rw [hwork, error_bind] at hserve
            injection hserve
        | ok log₁ =>
            rw [hwork, ok_bind] at hserve
            injection hserve with hserve
            rw [← hserve, close, if_pos (hpos.resolve_left haccept)]
            exact session_next (clientWork_leaves visit.turns htalking hwork) (if_pos rfl)

/--
**A process of an echo server has one conversation at a time.**  Whenever `main` is about to
accept, everybody it has accepted was closed; in between nobody else was accepted, read from
or written to, each line was answered before the next one was read, and the answer was the
echo of the line.
-/
theorem echoServer_converses (answer : Bytes → Bytes) (visits : List Visit)
    (haccept : ∀ visit ∈ visits, visit.accept = -1 ∨ 0 < visit.accept) :
    Always (serve answer) [] visits (Through answer) := by
  intro before after log hsplit hrun
  have hguard : Guarded (serve answer) (fun _ visit => visit.accept = -1 ∨ 0 < visit.accept) []
      before := by
    intro us visit vs heq _ _
    refine haccept visit ?_
    rw [hsplit, heq]
    simp
  exact hguard.keeps (fun visit s t h hpos hserve => serve_through h hpos hserve) rfl hrun

/-- `::send` takes so many bytes. -/
def takes (size : Nat) : SendResults := { result := fun _ => size, strerror := fun _ => "" }

/-- `"hi\n"` and a good-bye, answered in one call. -/
def greeting (answer : Bytes → Bytes) (sd : Int) : Visit where
  accept := sd
  turns := [⟨.data [104, 105, 10], takes (answer [104, 105]).length, 1⟩, ⟨.closed, takes 0, 0⟩]

theorem echoServer_converses_greeting :
    Always (serve simpleAnswer) [] [greeting simpleAnswer 4, greeting simpleAnswer 5]
        (Through simpleAnswer) ∧
      Always (serve preforkAnswer) [] [greeting preforkAnswer 4, greeting preforkAnswer 4]
        (Through preforkAnswer) :=
  ⟨echoServer_converses simpleAnswer [greeting simpleAnswer 4, greeting simpleAnswer 5]
      (by decide),
    echoServer_converses preforkAnswer [greeting preforkAnswer 4, greeting preforkAnswer 4]
      (by decide)⟩

/-! ### What goes over the wire -/

/-- The kernel takes so many bytes in one call, or in two. -/
def Takes (env : SendResults) (fuel size : Nat) : Prop :=
  1 ≤ fuel ∧ env.result 0 = size ∨
    2 ≤ fuel ∧ ∃ k k' : Nat, env.result 0 = k ∧ 1 ≤ k ∧ k < size ∧ env.result 1 = k' ∧ k + k' = size

/-- What a call of `send` has put on the wire. -/
def onWire (str : Bytes) (wire : Wire) : Bytes := copied str (accepted wire)

/-- What the clients have been sent. -/
def heard (log : List Event) : Bytes :=
  log.flatMap fun
    | .sent _ str wire => onWire str wire
    | _ => []

/-- The pieces `recv` gets of a client before anything else. -/
def spoken : List Turn → List Bytes
  | [] => []
  | turn :: turns =>
      match turn.recv with
      | .data chunk => chunk :: spoken turns
      | _ => []

theorem heard_append (log more : List Event) : heard (log ++ more) = heard log ++ heard more :=
  List.flatMap_append

/-- **An answer that is taken in two calls goes out as it is.** -/
theorem send_taken {env : SendResults} {fuel : Nat} {str : Bytes} (hsize : str.length < 2 ^ 63)
    (hpos : 0 < str.length) (htakes : Takes env fuel str.length) :
    ∃ wire, (Socket.send env fuel str).run { log := [] } = .ok () wire ∧ onWire str wire = str := by
  rcases htakes with ⟨hfuel, hone⟩ | ⟨hfuel, k, k', hk, hkpos, hlt, hk', hsum⟩
  · obtain ⟨fuel, rfl⟩ := Nat.exists_eq_add_of_le' hfuel
    refine ⟨{ log := [⟨0, str.length, str.length⟩] }, ?_, ?_⟩
    · refine (Socket.sendLoop_step hsize hpos (Nat.zero_le _) hone (by omega)).trans ?_
      rw [sizeTSub_eq (Nat.le_refl _) (by omega), Nat.sub_self, Socket.sendLoop_done]
      rfl
    · have hne : (str.length : Int) ≠ -1 := by omega
      simp [onWire, accepted, copied, hne]
  · obtain ⟨fuel, rfl⟩ := Nat.exists_eq_add_of_le' hfuel
    refine ⟨{ log := [⟨0, str.length, k⟩, ⟨k, str.length - k, k'⟩] }, ?_, ?_⟩
    · refine (Socket.sendLoop_step hsize hpos (Nat.zero_le _) hk (by omega)).trans ?_
      rw [sizeTSub_eq (by omega) (by omega)]
      refine (Socket.sendLoop_step hsize (by omega) (by omega) hk' (by omega)).trans ?_
      rw [sizeTSub_eq (by omega) (by omega), show str.length - k - k' = 0 by omega,
        Socket.sendLoop_done]
      rfl
    · have hne : (k : Int) ≠ -1 := by omega
      have hne' : (k' : Int) ≠ -1 := by omega
      have hrest : (str.drop k).take k' = str.drop k := by
        rw [List.take_of_length_le]
        rw [List.length_drop]
        omega
      simp [onWire, accepted, copied, hne, hne', hrest]

/-! ### What is read -/

theorem recv_text {chunk : Bytes} (h : HasText chunk) :
    Socket.recv sd (.data chunk) = .ok (trimmed chunk) := Socket.trimBack_eq h

/-- A piece of nothing but line ends is trimmed too far. -/
theorem recv_blank {chunk : Bytes} (h : ¬ HasText chunk) :
    Socket.recv sd (.data chunk) = .error (.undefined .emptyString) :=
  Socket.trimBack_undefined (not_hasText_iff.mp h)

/-- Without a piece, `recv` throws. -/
theorem recv_left (sd : Int) {result : SysRecv} (h : ∀ chunk, result ≠ .data chunk) :
    ∃ what, Socket.recv sd result = .error (.runtimeError what) := by
  cases result with
  | data chunk => exact absurd rfl (h chunk)
  | closed => exact ⟨_, rfl⟩
  | timeout => exact ⟨_, rfl⟩
  | failed strerror => exact ⟨_, rfl⟩

/-! ### One client -/

/-- The kernel takes the answers to these turns. -/
def Taken (answer : Bytes → Bytes) (turns : List Turn) : Prop :=
  ∀ turn ∈ turns, ∀ chunk, turn.recv = .data chunk →
    (answer (trimmed chunk)).length < 2 ^ 63 ∧
      Takes turn.send turn.fuel (answer (trimmed chunk)).length

/-- The client leaves in the end. -/
def Leaves (turns : List Turn) : Prop := ∃ turn ∈ turns, ∀ chunk, turn.recv ≠ .data chunk

/-- What the client should hear. -/
def echoes (answer : Bytes → Bytes) (turns : List Turn) : Bytes :=
  (spoken turns).flatMap fun chunk => answer (trimmed chunk)

theorem spoken_data {turn : Turn} {chunk : Bytes} (h : turn.recv = .data chunk)
    (turns : List Turn) : spoken (turn :: turns) = chunk :: spoken turns := by
  rw [spoken, h]

theorem spoken_left {turn : Turn} (h : ∀ chunk, turn.recv ≠ .data chunk) (turns : List Turn) :
    spoken (turn :: turns) = [] := by
  rw [spoken]
  split
  · next chunk hdata => exact absurd hdata (h chunk)
  · rfl

/-- A turn brings a piece, or the client has left. -/
theorem Turn.data_or_left (turn : Turn) :
    (∃ chunk, turn.recv = .data chunk) ∨ ∀ chunk, turn.recv ≠ .data chunk := by
  by_cases h : ∃ chunk, turn.recv = .data chunk
  · exact .inl h
  · exact .inr fun chunk hdata => h ⟨chunk, hdata⟩

/-- One pass of the loop with a piece of text. -/
theorem clientWork_text (hne : ∀ line, answer line ≠ []) {turn : Turn} {chunk : Bytes}
    (htaken : Taken answer (turn :: turns)) (hdata : turn.recv = .data chunk)
    (htext : HasText chunk) (sd : Int) (log : List Event) :
    ∃ wire, onWire (answer (trimmed chunk)) wire = answer (trimmed chunk) ∧
      clientWork answer sd (turn :: turns) log = clientWork answer sd turns
        (log ++ [.received sd (trimmed chunk), .sent sd (answer (trimmed chunk)) wire]) := by
  obtain ⟨hsize, htakes⟩ := htaken turn List.mem_cons_self chunk hdata
  have hpos : 0 < (answer (trimmed chunk)).length := List.length_pos_iff.mpr (hne _)
  obtain ⟨wire, hsend, hwire⟩ := send_taken hsize hpos htakes
  refine ⟨wire, hwire, ?_⟩
  rw [clientWork, hdata, recv_text htext]
  dsimp only
  rw [hsend]

/-- What is caught when the client has left. -/
theorem clientWork_left {turn : Turn} (h : ∀ chunk, turn.recv ≠ .data chunk)
    (answer : Bytes → Bytes) (sd : Int) (turns : List Turn) (log : List Event) :
    ∃ what, clientWork answer sd (turn :: turns) log = .ok (log ++ [.caught sd what]) := by
  obtain ⟨what, hrecv⟩ := recv_left sd h
  refine ⟨what, ?_⟩
  rw [clientWork, hrecv]
  rfl

/-- **Every piece of text is echoed until the client leaves.** -/
theorem clientWork_echoes (hne : ∀ line, answer line ≠ []) (turns : List Turn) :
    ∀ {log : List Event}, Taken answer turns → Leaves turns →
      (∀ chunk ∈ spoken turns, HasText chunk) →
      ∃ events what, clientWork answer sd turns log = .ok (log ++ events ++ [.caught sd what]) ∧
        heard events = echoes answer turns := by
  induction turns with
  | nil =>
      intro log _ hleaves _
      obtain ⟨turn, hmem, -⟩ := hleaves
      exact absurd hmem List.not_mem_nil
  | cons turn turns ih =>
      intro log htaken hleaves htext
      rcases turn.data_or_left with ⟨chunk, hdata⟩ | hleft
      · rw [spoken_data hdata] at htext
        obtain ⟨hchunk, htext⟩ := List.forall_mem_cons.mp htext
        obtain ⟨wire, hwire, hstep⟩ := clientWork_text hne htaken hdata hchunk sd log
        have hleaves' : Leaves turns := by
          obtain ⟨left, hmem, hleft⟩ := hleaves
          rcases List.mem_cons.mp hmem with rfl | hmem
          · exact absurd hdata (hleft chunk)
          · exact ⟨left, hmem, hleft⟩
        obtain ⟨events, what, hrun, hheard⟩ := ih
          (fun other hmem => htaken other (List.mem_cons_of_mem _ hmem)) hleaves' htext
        refine ⟨[.received sd (trimmed chunk), .sent sd (answer (trimmed chunk)) wire] ++ events,
          what, ?_, ?_⟩
        · rw [hstep, hrun]
          simp only [List.append_assoc]
        · rw [heard_append, hheard, echoes, echoes, spoken_data hdata, List.flatMap_cons, ← hwire]
          simp [heard, hwire]
      · obtain ⟨what, hrun⟩ := clientWork_left hleft answer sd turns log
        refine ⟨[], what, ?_, ?_⟩
        · rw [hrun, List.append_nil]
        · rw [echoes, spoken_left hleft]
          rfl

/-- A blank piece has no meaning. -/
theorem clientWork_blank (hne : ∀ line, answer line ≠ []) (turns : List Turn) :
    ∀ {log : List Event}, Taken answer turns → (∃ chunk ∈ spoken turns, ¬ HasText chunk) →
      clientWork answer sd turns log = .error (.undefined .emptyString) := by
  induction turns with
  | nil =>
      intro log _ hblank
      obtain ⟨chunk, hmem, -⟩ := hblank
      exact absurd hmem List.not_mem_nil
  | cons turn turns ih =>
      intro log htaken hblank
      rcases turn.data_or_left with ⟨chunk, hdata⟩ | hleft
      · by_cases htext : HasText chunk
        · obtain ⟨wire, -, hstep⟩ := clientWork_text hne htaken hdata htext sd log
          rw [hstep]
          refine ih (fun other hmem => htaken other (List.mem_cons_of_mem _ hmem)) ?_
          obtain ⟨other, hmem, hother⟩ := hblank
          rw [spoken_data hdata] at hmem
          rcases List.mem_cons.mp hmem with rfl | hmem
          · exact absurd htext hother
          · exact ⟨other, hmem, hother⟩
        · rw [clientWork, hdata, recv_blank htext]
          rfl
      · obtain ⟨chunk, hmem, -⟩ := hblank
        rw [spoken_left hleft] at hmem
        exact absurd hmem List.not_mem_nil

/-! ### The server -/

/-- What was done with one client, and that it has heard its echoes. -/
structure Echoed (answer : Bytes → Bytes) (visit : Visit) (events : List Event) : Prop where
  first : events.head? = some (.accepted visit.accept)
  heard : heard events = echoes answer visit.turns

/-- Nothing a visit does ends the server. -/
structure Served (visit : Visit) : Prop where
  accept : visit.accept ≠ -1
  setsockopt : visit.setsockopt = 0
  text : ∀ chunk ∈ spoken visit.turns, HasText chunk

theorem close_quiet (sd : Int) : ∃ events, heard events = [] ∧
    ∀ log, close sd log = log ++ events := by
  by_cases hpos : sd > 0
  · exact ⟨[.closed sd], rfl, fun log => if_pos hpos⟩
  · exact ⟨[], rfl, fun log => (if_neg hpos).trans (List.append_nil log).symm⟩

theorem serve_run (hne : ∀ line, answer line ≠ []) {visit : Visit}
    (htaken : Taken answer visit.turns) (hleaves : Leaves visit.turns) (h : Served visit)
    (log : List Event) :
    ∃ events, serve answer visit log = .ok (log ++ events) ∧ Echoed answer visit events := by
  obtain ⟨events, what, hwork, hheard⟩ := @clientWork_echoes answer visit.accept hne visit.turns
    (log ++ [.accepted visit.accept]) htaken hleaves h.text
  obtain ⟨closing, hquiet, hclose⟩ := close_quiet visit.accept
  refine ⟨[.accepted visit.accept] ++ events ++ [.caught visit.accept what] ++ closing, ?_, rfl,
    ?_⟩
  · rw [serve, if_neg h.accept, Socket.setRcvTimeout, if_neg (not_not.mpr h.setsockopt), ok_bind,
      hwork, ok_bind, hclose]
    simp only [List.append_assoc]
    rfl
  · rw [heard_append, heard_append, heard_append, hheard, hquiet]
    simp [heard]

/-- How `main` ends with a visit that ends it. -/
def ending (visit : Visit) : Except Fault Ended :=
  if visit.accept = -1 then .error (.undefined .nullPointer)
  else if visit.setsockopt ≠ 0 then .ok (.exception ("set rcvtimeout: " ++ visit.strerror))
  else .error (.undefined .emptyString)

/-- What `main` makes of the fault its loop ended in. -/
def reported (e : Fault) : Except Fault Ended :=
  match e.what with
  | some what => .ok (.exception what)
  | none => .error e

/-- A visit that ends the loop. -/
theorem serve_ends (hne : ∀ line, answer line ≠ []) {visit : Visit}
    (htaken : Taken answer visit.turns) (h : ¬ Served visit) (log : List Event) :
    ∃ e, serve answer visit log = .error e ∧ reported e = ending visit := by
  rw [serve, ending]
  by_cases haccept : visit.accept = -1
  · rw [if_pos haccept, if_pos haccept]
    exact ⟨_, rfl, rfl⟩
  rw [if_neg haccept, if_neg haccept, Socket.setRcvTimeout]
  by_cases hsetsockopt : visit.setsockopt = 0
  · have hblank : ∃ chunk ∈ spoken visit.turns, ¬ HasText chunk := by
      by_contra hnone
      push Not at hnone
      exact h ⟨haccept, hsetsockopt, hnone⟩
    rw [if_neg (not_not.mpr hsetsockopt), ok_bind, if_neg (not_not.mpr hsetsockopt),
      clientWork_blank hne visit.turns htaken hblank]
    exact ⟨_, rfl, rfl⟩
  · rw [if_pos hsetsockopt, if_pos hsetsockopt]
    exact ⟨_, rfl, rfl⟩

/--
**Whoever an echo server is through with has heard its echoes**: one after another the clients
got the answer to every piece they were read in, byte by byte, as long as the kernel takes each
answer in at most two calls.
-/
theorem echoServer_echoes (hne : ∀ line, answer line ≠ []) (visits : List Visit)
    (htaken : ∀ visit ∈ visits, Taken answer visit.turns)
    (hleaves : ∀ visit ∈ visits, Leaves visit.turns) {log : List Event}
    (hrun : machineRun (serve answer) [] visits = .ok log) :
    ∃ logs : List (List Event), log = logs.flatten ∧
      List.Forall₂ (Echoed answer) visits logs := by
  induction visits using List.reverseRecOn generalizing log with
  | nil =>
      injection hrun with hrun
      exact ⟨[], hrun.symm, .nil⟩
  | append_singleton visits visit ih =>
      obtain ⟨before, hbefore, hserve⟩ := machineRun_concat_ok hrun
      have hmem : visit ∈ visits ++ [visit] := List.mem_append_right _ List.mem_cons_self
      have hserved : Served visit := by
        by_contra hnot
        obtain ⟨e, hends, -⟩ := serve_ends hne (htaken visit hmem) hnot before
        rw [hends] at hserve
        injection hserve
      obtain ⟨events, hevents, hechoed⟩ :=
        serve_run hne (htaken visit hmem) (hleaves visit hmem) hserved before
      obtain ⟨logs, hlogs, hall⟩ := ih
        (fun v hv => htaken v (List.mem_append_left _ hv))
        (fun v hv => hleaves v (List.mem_append_left _ hv)) hbefore
      refine ⟨logs ++ [events], ?_, ?_⟩
      · rw [List.flatten_append, List.flatten_singleton, ← hlogs]
        rw [hevents] at hserve
        injection hserve with hserve
        exact hserve.symm
      · exact List.rel_append hall (.cons hechoed .nil)

/-- One piece that is answered in one call. -/
theorem once_taken {piece : Bytes} {size : Nat} (hanswer : (answer (trimmed piece)).length = size)
    (hsize : size < 2 ^ 63) :
    Taken answer [⟨.data piece, takes size, 1⟩, ⟨.closed, takes 0, 0⟩] := by
  intro turn hmem chunk hdata
  rcases List.mem_cons.mp hmem with rfl | hmem
  · injection hdata with hdata
    subst hdata hanswer
    exact ⟨hsize, .inl ⟨Nat.le_refl 1, rfl⟩⟩
  · obtain rfl := List.mem_singleton.mp hmem
    injection hdata

theorem greeting_taken (hsize : (answer [104, 105]).length < 2 ^ 63) (sd : Int) :
    Taken answer (greeting answer sd).turns :=
  once_taken rfl hsize

theorem greeting_leaves (answer : Bytes → Bytes) (sd : Int) : Leaves (greeting answer sd).turns :=
  ⟨_, List.mem_cons_of_mem _ List.mem_cons_self, nofun⟩

theorem simpleAnswer_ne_nil (line : Bytes) : simpleAnswer line ≠ [] := by
  rw [simpleAnswer]
  exact List.append_ne_nil_of_right_ne_nil _ (List.cons_ne_nil 10 [])

theorem preforkAnswer_ne_nil (line : Bytes) : preforkAnswer line ≠ [] := by
  rw [preforkAnswer]
  exact List.append_ne_nil_of_left_ne_nil (by decide) line

theorem echoServer_echoes_greeting :
    (∃ log logs, machineRun (serve simpleAnswer) []
          [greeting simpleAnswer 4, greeting simpleAnswer 5] = .ok log ∧
        log = logs.flatten ∧ List.Forall₂ (Echoed simpleAnswer)
          [greeting simpleAnswer 4, greeting simpleAnswer 5] logs) ∧
      ∃ log logs, machineRun (serve preforkAnswer) [] [greeting preforkAnswer 4] = .ok log ∧
        log = logs.flatten ∧
        List.Forall₂ (Echoed preforkAnswer) [greeting preforkAnswer 4] logs := by
  have htaken (sd : Int) : Taken simpleAnswer (greeting simpleAnswer sd).turns :=
    greeting_taken (by decide) sd
  have htaken' (sd : Int) : Taken preforkAnswer (greeting preforkAnswer sd).turns :=
    greeting_taken (by decide) sd
  refine ⟨?_, ?_⟩
  · obtain ⟨log, hrun⟩ : ∃ log, machineRun (serve simpleAnswer) []
        [greeting simpleAnswer 4, greeting simpleAnswer 5] = .ok log := ⟨_, rfl⟩
    obtain ⟨logs, hlogs, hall⟩ := echoServer_echoes simpleAnswer_ne_nil
      [greeting simpleAnswer 4, greeting simpleAnswer 5] (by simp [htaken])
      (by simp [greeting_leaves]) hrun
    exact ⟨log, logs, hrun, hlogs, hall⟩
  · obtain ⟨log, hrun⟩ : ∃ log, machineRun (serve preforkAnswer) [] [greeting preforkAnswer 4]
        = .ok log := ⟨_, rfl⟩
    obtain ⟨logs, hlogs, hall⟩ := echoServer_echoes preforkAnswer_ne_nil
      [greeting preforkAnswer 4] (by simp [htaken']) (by simp [greeting_leaves]) hrun
    exact ⟨log, logs, hrun, hlogs, hall⟩

/-! ### `main` -/

/-- Every client is served, up to the first one that ends the loop. -/
theorem serves_until (hne : ∀ line, answer line ≠ []) (visits : List Visit)
    (htaken : ∀ visit ∈ visits, Taken answer visit.turns)
    (hleaves : ∀ visit ∈ visits, Leaves visit.turns) (hserved : ∀ visit ∈ visits, Served visit) :
    ∀ log, ∃ log', machineRun (serve answer) log visits = .ok log' := by
  induction visits with
  | nil => exact fun log => ⟨log, rfl⟩
  | cons visit visits ih =>
      intro log
      obtain ⟨hfirst, htaken⟩ := List.forall_mem_cons.mp htaken
      obtain ⟨hfirst', hleaves⟩ := List.forall_mem_cons.mp hleaves
      obtain ⟨hthis, hserved⟩ := List.forall_mem_cons.mp hserved
      obtain ⟨events, hserve, -⟩ := serve_run hne hfirst hfirst' hthis log
      rw [machineRun_cons_ok hserve]
      exact ih htaken hleaves hserved _

/-- The first visit that is not served. -/
theorem exists_first {visits : List Visit} (h : ¬ ∀ visit ∈ visits, Served visit) :
    ∃ before visit after, visits = before ++ visit :: after ∧ (∀ v ∈ before, Served v) ∧
      ¬ Served visit := by
  induction visits with
  | nil => exact absurd (fun visit hmem => absurd hmem List.not_mem_nil) h
  | cons visit visits ih =>
      by_cases hserved : Served visit
      · have hrest : ¬ ∀ visit ∈ visits, Served visit := fun hall =>
          h (List.forall_mem_cons.mpr ⟨hserved, hall⟩)
        obtain ⟨before, first, after, rfl, hbefore, hfirst⟩ := ih hrest
        exact ⟨visit :: before, first, after, rfl,
          List.forall_mem_cons.mpr ⟨hserved, hbefore⟩, hfirst⟩
      · exact ⟨[], visit, visits, rfl, fun v hv => absurd hv List.not_mem_nil, hserved⟩

/--
**An echo server is back at `accept` after all these clients exactly if every `accept` and
`setsockopt` succeeds and nobody sends a piece of nothing but line ends**, as long as the kernel
takes each answer in at most two calls and every client leaves in the end.  The first client
that is not served ends it: a null pointer is dereferenced, or `main` returns with the exception,
or an empty string is trimmed.
-/
theorem main_goes_on_iff (hne : ∀ line, answer line ≠ []) (sys : Socket.SysCalls)
    (program port : Bytes) {n : Int} (hport : stoi port = .ok n)
    (hlisten : (Socket.createServerSocket sys).reply (Socket.construct none) = .ok ())
    (visits : List Visit) (htaken : ∀ visit ∈ visits, Taken answer visit.turns)
    (hleaves : ∀ visit ∈ visits, Leaves visit.turns) :
    ((∃ log, machineRun (serve answer) [] visits = .ok log) ↔ ∀ visit ∈ visits, Served visit) ∧
      ∀ before visit after, visits = before ++ visit :: after → (∀ v ∈ before, Served v) →
        ¬ Served visit → main answer sys [program, port] visits = ending visit := by
  -- the loop up to a visit that ends it
  have hends : ∀ before visit after, visits = before ++ visit :: after →
      (∀ v ∈ before, Served v) → ¬ Served visit →
      ∃ e, machineRun (serve answer) [] visits = .error e ∧ reported e = ending visit := by
    rintro before visit after rfl hbefore hnot
    obtain ⟨log, hlog⟩ := serves_until hne before
      (fun v hv => htaken v (List.mem_append_left _ hv))
      (fun v hv => hleaves v (List.mem_append_left _ hv)) hbefore []
    obtain ⟨e, hserve, hending⟩ :=
      serve_ends hne (htaken visit (List.mem_append_right _ List.mem_cons_self)) hnot log
    refine ⟨e, ?_, hending⟩
    rw [machineRun, List.foldlM_append, ← machineRun, hlog, ok_bind, ← machineRun,
      machineRun_cons_error hserve]
  refine ⟨⟨?_, fun hserved => serves_until hne visits htaken hleaves hserved []⟩, ?_⟩
  · rintro ⟨log, hlog⟩
    by_contra hnot
    obtain ⟨before, visit, after, heq, hbefore, hfirst⟩ := exists_first hnot
    obtain ⟨e, hrun, -⟩ := hends before visit after heq hbefore hfirst
    rw [hlog] at hrun
    injection hrun
  · intro before visit after heq hbefore hnot
    obtain ⟨e, hrun, hending⟩ := hends before visit after heq hbefore hnot
    rw [← hending, main, hport, ok_bind, hlisten, ok_bind, hrun]
    cases hwhat : e.what with
    | some what => simp only [reported, hwhat]; rfl
    | none => simp only [reported, hwhat]; rfl

/-- An empty line. -/
def blank (answer : Bytes → Bytes) (sd : Int) : Visit where
  accept := sd
  turns := [⟨.data [13, 10], takes (answer []).length, 1⟩, ⟨.closed, takes 0, 0⟩]

theorem blank_taken (hsize : (answer []).length < 2 ^ 63) (sd : Int) :
    Taken answer (blank answer sd).turns :=
  once_taken rfl hsize

/-- On port `50`: two clients, the second of which sends an empty line. -/
theorem main_goes_on_greeting :
    ((∃ log, machineRun (serve preforkAnswer) []
        [greeting preforkAnswer 4, blank preforkAnswer 5] = .ok log) ↔
      ∀ visit ∈ [greeting preforkAnswer 4, blank preforkAnswer 5], Served visit) ∧
    main preforkAnswer { socket := 3 } [[], [53, 48]]
        [greeting preforkAnswer 4, blank preforkAnswer 5]
      = .error (.undefined .emptyString) := by
  have htaken : ∀ visit ∈ [greeting preforkAnswer 4, blank preforkAnswer 5],
      Taken preforkAnswer visit.turns := by
    simp only [List.forall_mem_cons]
    exact ⟨greeting_taken (by decide) 4, blank_taken (by decide) 5, nofun⟩
  have hleaves : ∀ visit ∈ [greeting preforkAnswer 4, blank preforkAnswer 5],
      Leaves visit.turns := by
    simp only [List.forall_mem_cons]
    exact ⟨greeting_leaves _ 4, ⟨_, List.mem_cons_of_mem _ List.mem_cons_self, nofun⟩, nofun⟩
  obtain ⟨hiff, hends⟩ := main_goes_on_iff preforkAnswer_ne_nil { socket := 3 } [] [53, 48]
    (by decide : stoi _ = .ok 50) rfl _ htaken hleaves
  refine ⟨hiff, hends [greeting preforkAnswer 4] (blank preforkAnswer 5) [] rfl ?_ ?_⟩
  · simp only [List.forall_mem_cons]
    refine ⟨⟨by decide, rfl, ?_⟩, nofun⟩
    intro chunk hmem
    obtain rfl := List.mem_singleton.mp hmem
    exact ⟨104, by decide, by decide⟩
  · intro hserved
    obtain ⟨c, hc, htext⟩ := hserved.text [13, 10] List.mem_cons_self
    rcases List.mem_cons.mp hc with rfl | hc
    · exact absurd htext (by decide)
    · obtain rfl := List.mem_singleton.mp hc
      exact absurd htext (by decide)

end Technopark.EchoServer
