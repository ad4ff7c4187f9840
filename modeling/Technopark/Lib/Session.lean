/-
Sessions of many parties in one log.

What a server does is written to one log, in the order in which it happens, whoever it
happens with.  `eventsOf` picks out one party, and `session` runs a protocol over what was
picked: the phase the party is in, or `none` if something happened that was not its turn.
`phaseOf` is the same for events that name the party themselves.

An event of one party leaves the sessions of all the others as they are, so a step of a server
is followed by looking at the parties it names.
-/
import Mathlib.Data.List.Basic

namespace Technopark

variable {κ ε φ : Type} [DecidableEq κ]

/-- What has happened to one party. -/
def eventsOf (c : κ) (log : List (κ × ε)) : List ε :=
  log.filterMap fun entry => if entry.1 = c then some entry.2 else none

/-- The phase of a party after its events. -/
def session (next : φ → ε → Option φ) (start : φ) (events : List ε) : Option φ :=
  events.foldlM next start

theorem session_append (next : φ → ε → Option φ) (start : φ) (events more : List ε) :
    session next start (events ++ more)
      = session next start events >>= fun phase => session next phase more :=
  List.foldlM_append

theorem session_concat (next : φ → ε → Option φ) (start : φ) (events : List ε) (event : ε) :
    session next start (events ++ [event])
      = session next start events >>= fun phase => next phase event := by
  rw [session_append]
  refine bind_congr ?_
  intro phase
  exact bind_pure (next phase event)

theorem eventsOf_append (c : κ) (log more : List (κ × ε)) :
    eventsOf c (log ++ more) = eventsOf c log ++ eventsOf c more :=
  List.filterMap_append

theorem eventsOf_self (c : κ) (log : List (κ × ε)) (event : ε) :
    eventsOf c (log ++ [(c, event)]) = eventsOf c log ++ [event] := by
  simp [eventsOf, List.filterMap_append]

theorem eventsOf_ne {c d : κ} (h : d ≠ c) (log : List (κ × ε)) (event : ε) :
    eventsOf c (log ++ [(d, event)]) = eventsOf c log := by
  simp [eventsOf, List.filterMap_append, h]

/-- What happens to one party alone. -/
theorem eventsOf_map_self (c : κ) (events : List ε) : eventsOf c (events.map (c, ·)) = events := by
  rw [eventsOf, List.filterMap_map]
  simp

/-- A party nothing has happened to. -/
theorem eventsOf_eq_nil {c : κ} {log : List (κ × ε)} (h : ∀ entry ∈ log, entry.1 ≠ c) :
    eventsOf c log = [] := by
  rw [eventsOf, List.filterMap_eq_nil_iff]
  intro entry hentry
  exact if_neg (h entry hentry)

theorem eventsOf_map_ne {c d : κ} (h : d ≠ c) (events : List ε) :
    eventsOf c (events.map (d, ·)) = [] := by
  refine eventsOf_eq_nil ?_
  intro entry hentry
  obtain ⟨event, -, rfl⟩ := List.mem_map.mp hentry
  exact h

/-! ### Events that name the party -/

/-- The phase of a party after a log whose events say who they are about, if anybody. -/
def phaseOf (next : φ → ε → Option φ) (start : φ) (party : ε → Option κ) (c : κ) (log : List ε) :
    Option φ :=
  session next start (log.filter fun event => party event = some c)

section
variable {next : φ → ε → Option φ} {start : φ} {party : ε → Option κ} {c : κ}

/-- Events about others. -/
theorem phaseOf_other {more : List ε} (h : ∀ event ∈ more, party event ≠ some c) (log : List ε) :
    phaseOf next start party c (log ++ more) = phaseOf next start party c log := by
  have hnone : more.filter (fun event => party event = some c) = [] := by
    rw [List.filter_eq_nil_iff]
    intro event hevent
    simpa using h event hevent
  rw [phaseOf, List.filter_append, hnone, List.append_nil]
  rfl

/-- One event about this party. -/
theorem phaseOf_own {event : ε} (h : party event = some c) (log : List ε) :
    phaseOf next start party c (log ++ [event])
      = phaseOf next start party c log >>= fun phase => next phase event := by
  have hown : [event].filter (fun event => party event = some c) = [event] := by simp [h]
  rw [phaseOf, List.filter_append, hown, session_concat]
  rfl

/-- A party that goes on to another phase. -/
theorem phaseOf_next {event : ε} (h : party event = some c) {log : List ε} {phase phase' : φ}
    (hphase : phaseOf next start party c log = some phase)
    (hnext : next phase event = some phase') :
    phaseOf next start party c (log ++ [event]) = some phase' := by
  rw [phaseOf_own h, hphase]
  exact hnext

end

end Technopark
