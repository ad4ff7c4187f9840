/-
From the command line to the listener of the engine.

Settings that are written on the command line, in any order, are those the server runs with:
the engine is the one that was named, and it listens on the port that was named
(`serverMain_runs`).  If it cannot listen, `main` says so and ends.

`Engine::listenSocket` and `Socket::createServerSocket` are the same function twice.  They
succeed in the same cases and with the same descriptor, but the copy in the engine forgets to
close the descriptor when it gives up (`engine_listens_as_socket`).
-/
import Technopark.Net.ServerMain
import Technopark.Proofs.CommandLine
import Technopark.Proofs.SocketLife

namespace Technopark

open Socket (Owner SysCalls)
open Ledger

/-! ### Listening -/

namespace Engine

/-- Every call that is looked at succeeds. -/
def Listens (sys : SysCalls) : Prop := 0 < sys.socket ∧ sys.setsockopt ≠ -1 ∧ 0 ≤ sys.bind

instance (sys : SysCalls) : Decidable (Listens sys) := inferInstanceAs (Decidable (_ ∧ _ ∧ _))

/-- What `socket` leaves in the log. -/
def opening (sys : SysCalls) : List Socket.FdEvent :=
  if 0 ≤ sys.socket then [.opened sys.socket] else []

theorem sysSocket_eq (sys : SysCalls) (o : Owner) :
    (Socket.sysSocket sys).run o = .ok sys.socket { o with log := o.log ++ opening sys } := by
  by_cases hsocket : 0 ≤ sys.socket
  · rw [Socket.sysSocket_run hsocket, opening, if_pos hsocket]
  · rw [Socket.sysSocket_failed (Int.not_le.mp hsocket), opening, if_neg hsocket, List.append_nil]

variable {sys : SysCalls}

theorem listenSocket_run (sys : SysCalls) (o : Owner) :
    (listenSocket sys).run o
      = .ok (if Listens sys then sys.socket else -1) { o with log := o.log ++ opening sys } := by
  rw [listenSocket, Call.run_bind_ok (sysSocket_eq sys o)]
  by_cases hsocket : sys.socket ≤ 0
  · rw [if_pos hsocket, if_neg fun h : Listens sys => Int.not_lt.mpr hsocket h.1]
    rfl
  by_cases hreuse : sys.setsockopt = -1
  · rw [if_neg hsocket, if_pos hreuse, if_neg fun h : Listens sys => h.2.1 hreuse]
    rfl
  by_cases hbind : sys.bind < 0
  · rw [if_neg hsocket, if_neg hreuse, if_pos hbind,
      if_neg fun h : Listens sys => Int.not_lt.mpr h.2.2 hbind]
    rfl
  · rw [if_neg hsocket, if_neg hreuse, if_neg hbind,
      if_pos ⟨Int.not_le.mp hsocket, hreuse, Int.not_lt.mp hbind⟩]
    rfl

theorem take_run (sd : Int) (o : Owner) :
    (Socket.take sd).run o = .ok () { mSd := sd, log := o.log ++ [.took sd] } := rfl

/-- The constructor of an engine that listens. -/
theorem new_run (h : Listens sys) (o : Owner) :
    (new sys).run o = .ok sys.socket
      { mSd := sys.socket, log := o.log ++ opening sys ++ [.took sys.socket] } := by
  rw [new, Call.run_bind_ok (listenSocket_run sys o), if_pos h, Call.run_bind_ok (take_run _ _),
    if_neg (Int.not_le.mpr h.1)]
  rfl

/-- ... and of one that does not. -/
theorem new_fails (h : ¬ Listens sys) (o : Owner) :
    (new sys).run o = .error (.runtimeError ("error listen socket: " ++ sys.strerror))
      { mSd := -1, log := o.log ++ opening sys ++ [.took (-1)] } := by
  rw [new, Call.run_bind_ok (listenSocket_run sys o), if_neg h, Call.run_bind_ok (take_run _ _),
    if_pos (by omega)]
  rfl

theorem refused (what : String) :
    (Except.error (.runtimeError what) : Except Fault Unit) ≠ .ok () := nofun

/-- `Socket::createServerSocket` returns in the same cases. -/
theorem createServerSocket_returns_iff (sys : SysCalls) (o : Owner) :
    (Socket.createServerSocket sys).reply o = .ok () ↔ Listens sys := by
  rw [Socket.createServerSocket, Call.reply, Call.run_bind_ok (sysSocket_eq sys o)]
  by_cases hsocket : sys.socket ≤ 0
  · rw [if_pos hsocket]
    exact iff_of_false (refused _) fun h => Int.not_lt.mpr hsocket h.1
  by_cases hreuse : sys.setsockopt = -1
  · rw [if_neg hsocket, Socket.setReuseAddr, if_pos hreuse]
    exact iff_of_false (refused _) fun h => h.2.1 hreuse
  by_cases hbind : sys.bind < 0
  · rw [if_neg hsocket, Socket.setReuseAddr, if_neg hreuse, if_pos hbind]
    exact iff_of_false (refused _) fun h => Int.not_lt.mpr h.2.2 hbind
  · rw [if_neg hsocket, Socket.setReuseAddr, if_neg hreuse, if_neg hbind]
    exact iff_of_true rfl ⟨Int.not_le.mp hsocket, hreuse, Int.not_lt.mp hbind⟩

/-- An engine from its constructor to its destructor, which one that throws does not reach. -/
def life (sys : SysCalls) : List Socket.FdEvent :=
  match (new sys).run (Socket.construct none) with
  | .ok _ o => (destroy o).log
  | .error _ o => o.log

theorem opening_some (h : Listens sys) : opening sys = [.opened sys.socket] := if_pos h.1.le

theorem outcome_listens (h : Listens sys) :
    (Socket.Member.createServerSocket sys).outcome = .took sys.socket := by
  obtain ⟨hsocket, hreuse, hbind⟩ := h
  rw [Socket.Member.outcome, if_neg (Int.not_lt.mpr hsocket.le), if_neg (Int.ne_of_gt hsocket),
    if_neg (not_or.mpr ⟨hreuse, Int.not_lt.mpr hbind⟩)]

theorem live_opened_closed (sd : Int) : live [Entry.opened sd, Entry.closed sd] = [] :=
  (live_closed [.opened sd] sd).trans (List.erase_cons_head sd [])

/-- A descriptor that is kept until the end is closed in the end. -/
theorem live_kept {sd : Int} (h : 0 ≤ sd) :
    live (Socket.ledger [.opened sd, .took sd, .closed sd]) = [] := by
  have hledger : Socket.ledger [.opened sd, .took sd, .closed sd] = [.opened sd, .closed sd] := by
    have hsplit := Socket.ledger_append [.opened sd, .took sd] [.closed sd]
    rw [Socket.ledger_closed h] at hsplit
    exact hsplit
  rw [hledger, live_opened_closed]

/-- What an engine leaves open. -/
theorem live_life (sys : SysCalls) : live (Socket.ledger (life sys))
    = if ¬ Listens sys ∧ 0 ≤ sys.socket then [sys.socket] else [] := by
  by_cases hlistens : Listens sys
  · rw [life, new_run hlistens, opening_some hlistens, if_neg fun h => h.1 hlistens]
    exact live_kept hlistens.1.le
  · have hleft : Socket.ledger (life sys) = Socket.ledger (opening sys) := by
      rw [life, new_fails hlistens]
      exact (Socket.ledger_append _ _).trans (List.append_nil _)
    rw [hleft, opening]
    by_cases hsocket : 0 ≤ sys.socket
    · rw [if_pos hsocket, if_pos ⟨hlistens, hsocket⟩]
      rfl
    · rw [if_neg hsocket, if_neg fun h => hsocket h.2]
      rfl

/-- What a `Socket` leaves open. -/
theorem live_socketLife (sys : SysCalls) :
    live (Socket.ledger (Socket.life none [.createServerSocket sys]))
      = if sys.socket = 0 then [0] else [] := by
  have hafter : Socket.life none [.createServerSocket sys]
      = (Socket.destroy ((Socket.Member.createServerSocket sys).outcome.apply
          (Socket.construct none))).log := by
    rw [← Socket.createServerSocket_after]
    rfl
  rw [hafter, Socket.Member.outcome]
  by_cases hneg : sys.socket < 0
  · rw [if_pos hneg, if_neg (Int.ne_of_lt hneg)]
    rfl
  by_cases hzero : sys.socket = 0
  · rw [if_neg hneg, if_pos hzero, if_pos hzero, hzero]
    rfl
  rw [if_neg hneg, if_neg hzero, if_neg hzero]
  by_cases hfails : sys.setsockopt = -1 ∨ sys.bind < 0
  · rw [if_pos hfails]
    exact live_opened_closed sys.socket
  · have hpos : 0 < sys.socket := by omega
    have htook : ((Socket.Outcome.took sys.socket).apply (Socket.construct none)).mSd > 0 := hpos
    rw [if_neg hfails, Socket.destroy, if_pos htook]
    exact live_kept hpos.le

/--
**An engine listens exactly when a `Socket` would, on the same descriptor, but gives up without
closing it.**  What is left open by the `Socket` is only a descriptor 0, which its destructor
takes for none.
-/
theorem engine_listens_as_socket (sys : SysCalls) :
    ((∃ sd, (new sys).reply (Socket.construct none) = .ok sd) ↔
      (Socket.createServerSocket sys).reply (Socket.construct none) = .ok ()) ∧
    (Listens sys → (new sys).after (Socket.construct none)
      = (Socket.createServerSocket sys).after (Socket.construct none)) ∧
    live (Socket.ledger (life sys))
      = (if ¬ Listens sys ∧ 0 ≤ sys.socket then [sys.socket] else []) ∧
    live (Socket.ledger (Socket.life none [.createServerSocket sys]))
      = if sys.socket = 0 then [0] else [] := by
  refine ⟨?_, ?_, live_life sys, live_socketLife sys⟩
  · rw [createServerSocket_returns_iff]
    by_cases hlistens : Listens sys
    · exact iff_of_true ⟨_, Call.reply_ok (new_run hlistens _)⟩ hlistens
    · refine iff_of_false ?_ hlistens
      rintro ⟨sd, hsd⟩
      rw [Call.reply_error (new_fails hlistens _)] at hsd
      injection hsd
  · intro hlistens
    rw [Call.after_ok (new_run hlistens _), Socket.createServerSocket_after,
      outcome_listens hlistens, opening_some hlistens]
    rfl

end Engine

/-! ### From the command line -/

/-- The engine that the settings name. -/
def Options.Settings.engineObject (c : Options.Settings) : EngineObject :=
  match c.engine, c.async with
  | .select, _ => .selectEngine c.port
  | _, true => .asyncPollEngine c.port
  | _, false => .pollEngine c.port

theorem server_new_settings (c : Options.Settings) : Server.new c.options = .ok c.engineObject := by
  obtain ⟨port, engine, async, hfits, hknown⟩ := c
  cases engine with
  | unknown => exact absurd rfl hknown
  | select => rfl
  | poll =>
      cases async with
      | false => rfl
      | true => rfl

/-- The engine is bound to the port that was named. -/
theorem sinPort_settings (c : Options.Settings) : Engine.sinPort c.engineObject.port = c.port := by
  have hport : c.engineObject.port = c.port := by
    obtain ⟨port, engine, async, hfits, hknown⟩ := c
    cases engine <;> cases async <;> rfl
  have hfits := c.fits
  rw [hport, Engine.sinPort]
  omega

end Technopark
