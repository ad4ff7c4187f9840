/-
When a `Socket` closes every descriptor it has obtained exactly once.

For the descriptors a call of a member comes to one of five things (`Outcome`): it obtains
none, it obtains one and releases it, it loses it, it stores it in `m_Sd`, or it closes
`m_Sd`.  Which one is decided by the results of the system calls alone.

`Owned` is the condition: it reads the outcomes in order, with the number `m_Sd` has and
whether a descriptor of that number is open.  A stored descriptor must not overwrite an open
one, `close()` must find an open one (or no number at all), and in the end the destructor
must find one exactly if it closes.  A descriptor may be lost in one case only, that
`close()` has left its number in `m_Sd`, since then `m_Sd` names it.

As long as the condition holds, the only open descriptor is the one `m_Sd` names (`Holds`).
Once it fails the object is `Doomed`: a number was closed that was not open, or a descriptor
is open that `m_Sd` does not name, and neither can be mended.
-/
import Technopark.Lib.Ledger
import Technopark.Net.SocketLife
import Mathlib.Tactic.SplitIfs

namespace Technopark.Socket

open Technopark.Ledger

/-! ### The property -/

/-- What an event means for the open descriptors.  `::close(-1)` closes nothing. -/
def FdEvent.entry : FdEvent → Option (Entry Int)
  | .opened sd => some (.opened sd)
  | .took _ => none
  | .released sd => some (.closed sd)
  | .closed sd => if 0 ≤ sd then some (.closed sd) else none

/-- The openings and closings in a log. -/
def ledger (log : List FdEvent) : List (Entry Int) := log.filterMap FdEvent.entry

/-- The descriptor in use as `m_Sd`: the one stored last, until `m_Sd` is closed. -/
def inUse (log : List FdEvent) : Option Int :=
  log.foldl (fun used event =>
    match event with
    | .took sd => some sd
    | .closed _ => none
    | _ => used) none

/-- A member that gives up releases its own descriptor, not the one in use. -/
def Unused (log : List FdEvent) : Prop :=
  Stepwise (fun before event => ∀ sd, event = .released sd → inUse before ≠ some sd) log

/-- Every descriptor is closed exactly once, and none while it is in use or after its release. -/
structure Owns (log : List FdEvent) : Prop where
  /-- Only open descriptors are closed. -/
  proper : Proper (ledger log)
  /-- None is left open. -/
  closed : live (ledger log) = []
  unused : Unused log

/-- The closings of every number are as many as its openings. -/
theorem Owns.count_closed {log : List FdEvent} (h : Owns log) (sd : Int) :
    (ledger log).count (.closed sd) = (ledger log).count (.opened sd) := by
  rw [← h.proper.count_closed sd, h.closed]
  rfl

/-! ### The outcomes of a call -/

/-- What becomes of the descriptor a call obtains. -/
inductive Outcome
  | nothing
  | released (sd : Int)
  /-- The call throws and leaves it open. -/
  | lost (sd : Int)
  | took (sd : Int)
  /-- The call was `close()`. -/
  | closed
  deriving Repr, DecidableEq

/-- The outcome of a call, from the results of its system calls. -/
def Member.outcome : Member → Outcome
  | .connect sys =>
      if sys.resolves = false ∨ sys.socket < 0 then .nothing
      else if sys.socket = 0 then .lost sys.socket
      else if sys.connect = -1 then .released sys.socket
      else .took sys.socket
  | .connectTimeout sys =>
      if sys.resolves = false ∨ sys.socket < 0 then .nothing
      else if sys.socket = 0 ∨ sys.fcntl = -1 then .lost sys.socket
      else if sys.connect = -1 ∧ sys.inProgress = false ∨ sys.select ≠ 1 then .released sys.socket
      else .took sys.socket
  | .createServerSocket sys =>
      if sys.socket < 0 then .nothing
      else if sys.socket = 0 then .lost sys.socket
      else if sys.setsockopt = -1 ∨ sys.bind < 0 then .released sys.socket
      else .took sys.socket
  | .close => .closed

/-- The descriptor the call obtains from `socket`. -/
def Outcome.obtained : Outcome → Option Int
  | .nothing => none
  | .released sd => some sd
  | .lost sd => some sd
  | .took sd => some sd
  | .closed => none

/-- The object after the outcome. -/
def Outcome.apply (o : Owner) : Outcome → Owner
  | .nothing => o
  | .released sd => { o with log := o.log ++ [.opened sd, .released sd] }
  | .lost sd => { o with log := o.log ++ [.opened sd] }
  | .took sd => { mSd := sd, log := o.log ++ [.opened sd, .took sd] }
  | .closed => { o with log := o.log ++ [.closed o.mSd] }

/-- A member that asks for a descriptor gets none. -/
theorem sysSocket_failed {sys : SysCalls} (h : sys.socket < 0) (o : Owner) :
    (sysSocket sys).run o = .ok sys.socket o := by
  have hneg : ¬ 0 ≤ sys.socket := by omega
  simp only [sysSocket, if_neg hneg]
  rfl

/-- ... or gets one. -/
theorem sysSocket_run {sys : SysCalls} (h : 0 ≤ sys.socket) (o : Owner) :
    (sysSocket sys).run o = .ok sys.socket { o with log := o.log ++ [.opened sys.socket] } := by
  simp only [sysSocket, if_pos h]
  rfl

theorem resolve_failed {sys : SysCalls} (h : sys.resolves = false) (o : Owner) :
    (resolve sys).run o = .error (.runtimeError ("resolve error: " ++ sys.strerror)) o := by
  simp [resolve, h]

theorem resolve_run {sys : SysCalls} (h : ¬ sys.resolves = false) (o : Owner) :
    (resolve sys).run o = .ok () o := by
  simp [resolve, h]

/-- Both overloads of `connect` begin with a host that resolves and a descriptor. -/
theorem descriptor_after {sys : SysCalls} {o : Owner} {f : Int → Call Owner Unit}
    {outcome : Outcome} (hnone : sys.socket < 0 → (f sys.socket).after o = o)
    (hsome : 0 ≤ sys.socket →
      (f sys.socket).after { o with log := o.log ++ [.opened sys.socket] } = outcome.apply o) :
    (do
      resolve sys
      let sd ← sysSocket sys
      f sd : Call Owner Unit).after o
    = (if sys.resolves = false ∨ sys.socket < 0 then .nothing else outcome : Outcome).apply o := by
  by_cases hresolves : sys.resolves = false
  · rw [if_pos (.inl hresolves)]
    exact Call.after_error (Call.run_bind_error (resolve_failed hresolves o))
  rw [Call.after_bind_ok (resolve_run hresolves o)]
  by_cases hneg : sys.socket < 0
  · rw [if_pos (.inr hneg), Call.after_bind_ok (sysSocket_failed hneg o)]
    exact hnone hneg
  · rw [if_neg (not_or.mpr ⟨hresolves, hneg⟩),
      Call.after_bind_ok (sysSocket_run (Int.not_lt.mp hneg) o)]
    exact hsome (Int.not_lt.mp hneg)

theorem connect_after (sys : SysCalls) (o : Owner) :
    (connect sys).after o = (Member.connect sys).outcome.apply o := by
  refine descriptor_after ?_ fun hnonneg => ?_
  · intro hneg
    rw [if_pos (Int.le_of_lt hneg)]
    rfl
  by_cases hzero : sys.socket = 0
  · simp [hzero, Outcome.apply, Call.after]
  · have hpos : ¬ sys.socket ≤ 0 := by omega
    by_cases hconnect : sys.connect = -1
    · simp [hzero, hpos, hconnect, Outcome.apply, Call.after, note]
    · simp [hzero, hpos, hconnect, Outcome.apply, Call.after, note, take]

theorem connectTimeout_after (sys : SysCalls) (o : Owner) :
    (connectTimeout sys).after o = (Member.connectTimeout sys).outcome.apply o := by
  refine descriptor_after ?_ fun hnonneg => ?_
  · intro hneg
    rw [if_pos (Int.le_of_lt hneg)]
    rfl
  by_cases hzero : sys.socket = 0
  · simp [hzero, Outcome.apply, Call.after]
  · have hpos : ¬ sys.socket ≤ 0 := by omega
    by_cases hfcntl : sys.fcntl = -1
    · simp [hzero, hpos, hfcntl, setNonBlockedImpl, Outcome.apply, Call.after]
    · by_cases hconnect : sys.connect = -1 ∧ sys.inProgress = false
      · simp [hzero, hpos, hfcntl, hconnect, setNonBlockedImpl, Outcome.apply, Call.after, note]
      · by_cases hselect : sys.select = 1
        · simp [hzero, hpos, hfcntl, hconnect, hselect, setNonBlockedImpl, Outcome.apply,
            Call.after, note, take]
        · simp [hzero, hpos, hfcntl, hconnect, hselect, setNonBlockedImpl, Outcome.apply,
            Call.after, note]

theorem createServerSocket_after (sys : SysCalls) (o : Owner) :
    (createServerSocket sys).after o = (Member.createServerSocket sys).outcome.apply o := by
  by_cases hneg : sys.socket < 0
  · rw [Member.outcome, if_pos hneg]
    rw [createServerSocket, Call.after_bind_ok (sysSocket_failed hneg o),
      if_pos (Int.le_of_lt hneg)]
    rfl
  rw [createServerSocket, Call.after_bind_ok (sysSocket_run (Int.not_lt.mp hneg) o),
    Member.outcome, if_neg hneg]
  by_cases hzero : sys.socket = 0
  · simp [hzero, Outcome.apply, Call.after]
  · have hpos : ¬ sys.socket ≤ 0 := by omega
    by_cases hreuse : sys.setsockopt = -1
    · simp [hzero, hpos, hreuse, setReuseAddr, Outcome.apply, Call.after, note]
    · by_cases hbind : sys.bind < 0
      · simp [hzero, hpos, hreuse, hbind, setReuseAddr, Outcome.apply, Call.after, note]
      · simp [hzero, hpos, hreuse, hbind, setReuseAddr, Outcome.apply, Call.after, note, take]

/-- The members do to the object what their outcome says. -/
theorem after_eq_outcome (m : Member) (o : Owner) : m.call.after o = m.outcome.apply o := by
  cases m with
  | connect sys => exact connect_after sys o
  | connectTimeout sys => exact connectTimeout_after sys o
  | createServerSocket sys => exact createServerSocket_after sys o
  | close => rfl

/-! ### The condition -/

/--
The outcomes, read in order with the number in `m_Sd` and whether a descriptor of that
number is open, never overwrite, lose or miss an open descriptor.
-/
def Owned : Int → Bool → List Outcome → Prop
  | mSd, isOpen, [] => isOpen = true ↔ 0 < mSd
  | mSd, isOpen, .nothing :: rest => Owned mSd isOpen rest
  | mSd, isOpen, .released _ :: rest => Owned mSd isOpen rest
  | mSd, _, .lost sd :: rest => sd = mSd ∧ Owned mSd true rest
  | _, isOpen, .took sd :: rest => isOpen = false ∧ Owned sd true rest
  | mSd, isOpen, .closed :: rest => (isOpen = true ∨ mSd < 0) ∧ Owned mSd false rest

instance decidableOwned : (mSd : Int) → (isOpen : Bool) → (outcomes : List Outcome) →
    Decidable (Owned mSd isOpen outcomes)
  | mSd, isOpen, [] => inferInstanceAs (Decidable (isOpen = true ↔ 0 < mSd))
  | mSd, isOpen, .nothing :: rest => decidableOwned mSd isOpen rest
  | mSd, isOpen, .released _ :: rest => decidableOwned mSd isOpen rest
  | mSd, _, .lost sd :: rest =>
      have := decidableOwned mSd true rest
      inferInstanceAs (Decidable (sd = mSd ∧ Owned mSd true rest))
  | _, isOpen, .took sd :: rest =>
      have := decidableOwned sd true rest
      inferInstanceAs (Decidable (isOpen = false ∧ Owned sd true rest))
  | mSd, isOpen, .closed :: rest =>
      have := decidableOwned mSd false rest
      inferInstanceAs (Decidable ((isOpen = true ∨ mSd < 0) ∧ Owned mSd false rest))

/-- What the call obtains from `socket` is not open. -/
def Fresh (o : Owner) (m : Member) : Prop :=
  ∀ sd, m.outcome.obtained = some sd → sd ∉ live (ledger o.log)

/-! ### An object that keeps its descriptor -/

/-- No descriptor is open but the one `m_Sd` names, if `isOpen`. -/
structure Holds (o : Owner) (isOpen : Bool) : Prop where
  proper : Proper (ledger o.log)
  only : live (ledger o.log) = if isOpen = true then [o.mSd] else []
  unused : Unused o.log
  used : ∀ sd, inUse o.log = some sd → isOpen = true ∧ sd = o.mSd
  nonneg : isOpen = true → 0 ≤ o.mSd

theorem ledger_append (log more : List FdEvent) :
    ledger (log ++ more) = ledger log ++ ledger more := List.filterMap_append

theorem inUse_concat (log : List FdEvent) (event : FdEvent) :
    inUse (log ++ [event]) = match event with
      | .took sd => some sd
      | .closed _ => none
      | _ => inUse log := by
  rw [inUse, List.foldl_append]
  cases event <;> rfl

theorem Unused.concat {log : List FdEvent} (h : Unused log) {event : FdEvent}
    (hne : ∀ sd, event ≠ .released sd) : Unused (log ++ [event]) :=
  stepwise_concat.mpr ⟨h, fun sd heq => absurd heq (hne sd)⟩

theorem ledger_closed {sd : Int} (h : 0 ≤ sd) : ledger [.closed sd] = [.closed sd] := by
  simp [ledger, FdEvent.entry, h]

theorem construct_holds (given : Option Int) :
    Holds (construct given) (decide (0 ≤ (construct given).mSd)) := by
  cases given with
  | none => exact ⟨Proper.nil, rfl, Stepwise.nil, by simp [construct, inUse], by simp [construct]⟩
  | some sd =>
      by_cases hsd : 0 ≤ sd
      · have hlog : (construct (some sd)).log = [] ++ [.opened sd] ++ [.took sd] := by
          simp [construct, hsd]
        have hledger : ledger (construct (some sd)).log = [.opened sd] := by
          rw [hlog]
          rfl
        refine ⟨?_, ?_, ?_, ?_, ?_⟩
        · rw [hledger]
          exact Proper.nil.concat List.not_mem_nil
        · rw [hledger]
          exact (if_pos (decide_eq_true hsd)).symm
        · rw [hlog]
          have hnil : Unused [] := Stepwise.nil
          exact (hnil.concat (by simp)).concat (by simp)
        · intro used hused
          rw [hlog, inUse_concat] at hused
          exact ⟨decide_eq_true hsd, (Option.some.inj hused).symm⟩
        · intro _
          exact hsd
      · have hlog : (construct (some sd)).log = [] := by simp [construct, hsd]
        refine ⟨?_, ?_, ?_, ?_, ?_⟩
        · rw [hlog]
          exact Proper.nil
        · rw [hlog]
          exact (if_neg fun heq => hsd (of_decide_eq_true heq)).symm
        · rw [hlog]
          exact Stepwise.nil
        · rw [hlog]
          simp [inUse]
        · simp [construct, hsd]

namespace Holds

variable {o : Owner} {isOpen : Bool}

theorem mem_live (h : Holds o isOpen) {sd : Int} :
    sd ∈ live (ledger o.log) ↔ isOpen = true ∧ sd = o.mSd := by
  rw [h.only]
  cases isOpen <;> simp

/-- A fresh descriptor is opened and released again. -/
theorem released (h : Holds o isOpen) {sd : Int} (hfresh : sd ∉ live (ledger o.log)) :
    Holds ((Outcome.released sd).apply o) isOpen := by
  have hlog : ((Outcome.released sd).apply o).log = o.log ++ [.opened sd] ++ [.released sd] := by
    simp [Outcome.apply]
  have hledger : ledger ((Outcome.released sd).apply o).log
      = ledger o.log ++ [.opened sd] ++ [.closed sd] := by
    rw [hlog, ledger_append, ledger_append]
    rfl
  have hunused : inUse o.log ≠ some sd := fun heq => hfresh (h.mem_live.mpr (h.used sd heq))
  refine ⟨?_, ?_, ?_, ?_, h.nonneg⟩
  · rw [hledger]
    have hopened : Proper (ledger o.log ++ [.opened sd]) := h.proper.concat hfresh
    refine hopened.concat ?_
    rw [live_opened]
    exact List.mem_append_right _ (List.mem_singleton_self sd)
  · rw [hledger, live_closed, live_opened, List.erase_append_right _ hfresh,
      List.erase_cons_head, List.append_nil]
    exact h.only
  · rw [hlog]
    refine stepwise_concat.mpr ⟨h.unused.concat (by simp), ?_⟩
    intro sd' heq
    injection heq with heq
    rw [inUse_concat, ← heq]
    exact hunused
  · rw [hlog, inUse_concat, inUse_concat]
    exact h.used

/-- A descriptor is lost whose number `m_Sd` still has. -/
theorem lost (h : Holds o isOpen) (hfresh : o.mSd ∉ live (ledger o.log))
    (hsd : 0 ≤ o.mSd) : Holds ((Outcome.lost o.mSd).apply o) true := by
  have hclosed : isOpen = false := by
    rw [h.mem_live] at hfresh
    simpa using hfresh
  have hledger : ledger ((Outcome.lost o.mSd).apply o).log = ledger o.log ++ [.opened o.mSd] := by
    show ledger (o.log ++ [.opened o.mSd]) = _
    rw [ledger_append]
    rfl
  refine ⟨?_, ?_, h.unused.concat (by simp), ?_, fun _ => hsd⟩
  · rw [hledger]
    exact h.proper.concat hfresh
  · rw [hledger, live_opened, h.only, hclosed]
    rfl
  · intro sd hused
    have hused : inUse (o.log ++ [.opened o.mSd]) = some sd := hused
    rw [inUse_concat] at hused
    exact ⟨rfl, (h.used sd hused).2⟩

/-- A descriptor is stored in an object that has none. -/
theorem took (h : Holds o false) {sd : Int} (hsd : 0 ≤ sd) :
    Holds ((Outcome.took sd).apply o) true := by
  have hlog : ((Outcome.took sd).apply o).log = o.log ++ [.opened sd] ++ [.took sd] := by
    simp [Outcome.apply]
  have hlive : live (ledger o.log) = [] := h.only
  have hledger : ledger ((Outcome.took sd).apply o).log = ledger o.log ++ [.opened sd] := by
    rw [hlog, ledger_append, ledger_append, List.append_assoc]
    rfl
  refine ⟨?_, ?_, ?_, ?_, fun _ => hsd⟩
  · rw [hledger]
    refine h.proper.concat ?_
    rw [hlive]
    exact List.not_mem_nil
  · rw [hledger, live_opened, hlive]
    rfl
  · rw [hlog]
    exact (h.unused.concat (by simp)).concat (by simp)
  · intro used hused
    rw [hlog, inUse_concat] at hused
    exact ⟨rfl, (Option.some.inj hused).symm⟩

/-- `close()` on an open descriptor, or on none. -/
theorem close (h : Holds o isOpen) (hok : isOpen = true ∨ o.mSd < 0) :
    Holds (Outcome.closed.apply o) false := by
  have hused : ∀ sd, inUse (Outcome.closed.apply o).log = some sd →
      false = true ∧ sd = o.mSd := by
    intro sd hused
    have hused : inUse (o.log ++ [.closed o.mSd]) = some sd := hused
    rw [inUse_concat] at hused
    exact absurd hused (by simp)
  by_cases hopen : isOpen = true
  · have hledger : ledger (Outcome.closed.apply o).log = ledger o.log ++ [.closed o.mSd] := by
      show ledger (o.log ++ [.closed o.mSd]) = _
      rw [ledger_append, ledger_closed (h.nonneg hopen)]
    refine ⟨?_, ?_, h.unused.concat (by simp), hused, by simp⟩
    · rw [hledger]
      exact h.proper.concat (h.mem_live.mpr ⟨hopen, rfl⟩)
    · rw [hledger, live_closed, h.only, if_pos hopen]
      simp
  · have hneg : ¬ 0 ≤ o.mSd := Int.not_le.mpr (hok.resolve_left hopen)
    have hledger : ledger (Outcome.closed.apply o).log = ledger o.log := by
      show ledger (o.log ++ [.closed o.mSd]) = _
      rw [ledger_append]
      simp [ledger, FdEvent.entry, hneg]
    refine ⟨?_, ?_, h.unused.concat (by simp), hused, by simp⟩
    · rw [hledger]
      exact h.proper
    · rw [hledger, h.only, if_neg hopen]
      rfl

end Holds

/-! ### An object that has lost its way -/

/-- Something was closed that was not open, or is open without `m_Sd` naming it. -/
def Doomed (o : Owner) : Prop :=
  ¬ Proper (ledger o.log) ∨ ∃ sd ∈ live (ledger o.log), sd ≠ o.mSd

/-- What the outcome adds to the ledger. -/
def Outcome.entries (o : Owner) : Outcome → List (Entry Int)
  | .nothing => []
  | .released sd => [.opened sd, .closed sd]
  | .lost sd => [.opened sd]
  | .took sd => [.opened sd]
  | .closed => ledger [.closed o.mSd]

theorem ledger_apply (outcome : Outcome) (o : Owner) :
    ledger (outcome.apply o).log = ledger o.log ++ outcome.entries o := by
  cases outcome with
  | nothing => exact (List.append_nil _).symm
  | released sd => exact ledger_append ..
  | lost sd => exact ledger_append ..
  | took sd => exact ledger_append ..
  | closed => exact ledger_append ..

theorem not_proper_append {log more : List (Entry Int)} (h : ¬ Proper log) :
    ¬ Proper (log ++ more) := by
  intro hall
  exact h fun before entry after heq => hall before entry (after ++ more) (by simp [heq])

/-- Closing another number leaves a descriptor open. -/
theorem mem_live_closed {ledger' : List (Entry Int)} {sd n : Int} (h : sd ∈ live ledger')
    (hne : sd ≠ n) : sd ∈ live (ledger' ++ ledger [.closed n]) := by
  by_cases hn : 0 ≤ n
  · rw [ledger_closed hn, live_closed]
    exact (List.mem_erase_of_ne hne).mpr h
  · simpa [ledger, FdEvent.entry, hn] using h

namespace Doomed

variable {o : Owner}

/-- No outcome mends it. -/
theorem apply (h : Doomed o) {outcome : Outcome}
    (hfresh : ∀ sd, outcome.obtained = some sd → sd ∉ live (ledger o.log)) :
    Doomed (outcome.apply o) := by
  rcases h with hproper | ⟨sd, hsd, hne⟩
  · left
    rw [ledger_apply]
    exact not_proper_append hproper
  · refine .inr ⟨sd, ?_, ?_⟩
    · rw [ledger_apply]
      cases outcome with
      | nothing => simpa [Outcome.entries] using hsd
      | released n =>
          have hn : sd ≠ n := fun heq => hfresh n rfl (heq ▸ hsd)
          show sd ∈ live (ledger o.log ++ ([.opened n] ++ [.closed n]))
          rw [← List.append_assoc, live_closed, live_opened]
          exact (List.mem_erase_of_ne hn).mpr (List.mem_append_left _ hsd)
      | lost n => simp [Outcome.entries, hsd]
      | took n => simp [Outcome.entries, hsd]
      | closed => exact mem_live_closed hsd hne
    · cases outcome with
      | nothing => exact hne
      | released n => exact hne
      | lost n => exact hne
      | took n =>
          intro heq
          rw [heq] at hsd
          exact hfresh n rfl hsd
      | closed => exact hne

theorem run (calls : List Member) : ∀ {o : Owner}, Doomed o →
    Allowed (Call.object Member.call) Fresh o calls →
    Doomed ((Call.object Member.call).run calls o).2 := by
  induction calls with
  | nil => intro o h _; exact h
  | cons m calls ih =>
      intro o h hfresh
      refine ih ?_ hfresh.tail
      show Doomed (m.call.after o)
      rw [after_eq_outcome]
      exact h.apply hfresh.head

theorem not_owns (h : Doomed o) : ¬ Owns (destroy o).log := by
  intro howns
  have hdestroy : ledger (destroy o).log
      = ledger o.log ++ (if o.mSd > 0 then [.closed o.mSd] else []) := by
    unfold destroy
    split_ifs with hpos
    · rw [ledger_append, ledger_closed (Int.le_of_lt hpos)]
    · rw [List.append_nil]
  rcases h with hproper | ⟨sd, hsd, hne⟩
  · have hall := howns.proper
    rw [hdestroy] at hall
    exact not_proper_append hproper hall
  · have hlive := howns.closed
    rw [hdestroy] at hlive
    have hmem : sd ∈ live (ledger o.log ++ (if o.mSd > 0 then [.closed o.mSd] else [])) := by
      split_ifs with hpos
      · rw [live_closed]
        exact (List.mem_erase_of_ne hne).mpr hsd
      · simpa using hsd
    rw [hlive] at hmem
    exact absurd hmem List.not_mem_nil

end Doomed

/-! ### The whole life -/

/-- The destructor. -/
theorem Holds.destroy_iff {o : Owner} {isOpen : Bool} (h : Holds o isOpen) :
    Owns (destroy o).log ↔ (isOpen = true ↔ 0 < o.mSd) := by
  by_cases hpos : 0 < o.mSd
  · have hdestroy : destroy o = Outcome.closed.apply o := if_pos hpos
    rw [hdestroy]
    constructor
    · intro howns
      have hproper := howns.proper
      rw [ledger_apply, Outcome.entries, ledger_closed (Int.le_of_lt hpos)] at hproper
      have hmem : o.mSd ∈ live (ledger o.log) := (stepwise_concat.mp hproper).2
      exact ⟨fun _ => hpos, fun _ => (h.mem_live.mp hmem).1⟩
    · intro hiff
      have hclosed := h.close (.inl (hiff.mpr hpos))
      exact ⟨hclosed.proper, hclosed.only, hclosed.unused⟩
  · have hdestroy : destroy o = o := if_neg hpos
    rw [hdestroy]
    constructor
    · intro howns
      refine ⟨fun hopen => ?_, fun hmSd => absurd hmSd hpos⟩
      have hmem : o.mSd ∈ live (ledger o.log) := h.mem_live.mpr ⟨hopen, rfl⟩
      rw [howns.closed] at hmem
      exact absurd hmem List.not_mem_nil
    · intro hiff
      have hclosed : ¬ isOpen = true := fun hopen => hpos (hiff.mp hopen)
      exact ⟨h.proper, by rw [h.only, if_neg hclosed], h.unused⟩

/-- The descriptors a call obtains are numbers. -/
theorem obtained_nonneg {m : Member} {sd : Int} (h : m.outcome.obtained = some sd) : 0 ≤ sd := by
  cases m with
  | connect sys =>
      simp only [Member.outcome] at h
      split_ifs at h <;> simp_all [Outcome.obtained]
  | connectTimeout sys =>
      simp only [Member.outcome] at h
      split_ifs at h <;> simp_all [Outcome.obtained]
  | createServerSocket sys =>
      simp only [Member.outcome] at h
      split_ifs at h <;> simp_all [Outcome.obtained]
  | close => simp [Member.outcome, Outcome.obtained] at h

theorem Holds.run_iff (calls : List Member) : ∀ {o : Owner} {isOpen : Bool}, Holds o isOpen →
    Allowed (Call.object Member.call) Fresh o calls →
    (Owns (destroy ((Call.object Member.call).run calls o).2).log ↔
      Owned o.mSd isOpen (calls.map Member.outcome)) := by
  induction calls with
  | nil =>
      intro o isOpen h _
      exact h.destroy_iff
  | cons m calls ih =>
      intro o isOpen h hfresh
      have hhead : Fresh o m := hfresh.head
      have htail := hfresh.tail
      have hnext : (Call.object Member.call m o).2 = m.outcome.apply o := after_eq_outcome m o
      rw [Object.run_cons, List.map_cons]
      rw [hnext] at htail ⊢
      -- an outcome the condition rules out dooms the object
      have hbad : Doomed (m.outcome.apply o) →
          ¬ Owns (destroy ((Call.object Member.call).run calls (m.outcome.apply o)).2).log :=
        fun hdoomed => (hdoomed.run calls htail).not_owns
      have hnonneg : ∀ sd, m.outcome.obtained = some sd → 0 ≤ sd := fun _ => obtained_nonneg
      unfold Fresh at hhead
      generalize m.outcome = outcome at hhead hnext htail hbad hnonneg ⊢
      cases outcome with
      | nothing => exact ih h htail
      | released sd => exact ih (h.released (hhead sd rfl)) htail
      | lost sd =>
          by_cases hsd : sd = o.mSd
          · subst hsd
            rw [ih (h.lost (hhead _ rfl) (hnonneg _ rfl)) htail]
            exact ⟨fun hrest => ⟨rfl, hrest⟩, fun hrest => hrest.2⟩
          · refine iff_of_false (hbad (.inr ⟨sd, ?_, hsd⟩)) fun hrest => hsd hrest.1
            rw [ledger_apply]
            simp [Outcome.entries]
      | took sd =>
          cases hopen : isOpen with
          | false =>
              rw [hopen] at h
              rw [ih (h.took (hnonneg sd rfl)) htail]
              exact ⟨fun hrest => ⟨rfl, hrest⟩, fun hrest => hrest.2⟩
          | true =>
              have hmem : o.mSd ∈ live (ledger o.log) := h.mem_live.mpr ⟨hopen, rfl⟩
              refine iff_of_false (hbad (.inr ⟨o.mSd, ?_, ?_⟩)) fun hrest => by simpa using hrest.1
              · rw [ledger_apply]
                simp [Outcome.entries, hmem]
              · intro heq
                rw [heq] at hmem
                exact hhead sd rfl hmem
      | closed =>
          by_cases hok : isOpen = true ∨ o.mSd < 0
          · rw [ih (h.close hok) htail]
            exact ⟨fun hrest => ⟨hok, hrest⟩, fun hrest => hrest.2⟩
          · refine iff_of_false (hbad (.inl ?_)) fun hrest => hok hrest.1
            rw [not_or, Int.not_lt] at hok
            rw [ledger_apply, Outcome.entries, ledger_closed hok.2]
            intro hproper
            have hmem : o.mSd ∈ live (ledger o.log) := (stepwise_concat.mp hproper).2
            exact hok.1 (h.mem_live.mp hmem).1

/--
**A socket closes each of its descriptors exactly once exactly when its calls never
overwrite, lose or miss an open one.**
-/
theorem socket_owns_iff (given : Option Int) (calls : List Member)
    (hfresh : Allowed (Call.object Member.call) Fresh (construct given) calls) :
    Owns (life given calls) ↔
      Owned (construct given).mSd (decide (0 ≤ (construct given).mSd))
        (calls.map Member.outcome) :=
  (construct_holds given).run_iff calls hfresh

/-- Connected, closed, refused with the same number, and turned into a server. -/
theorem socket_owns_reconnected :
    Owns (life none [.connect { socket := 5 }, .close, .connect { socket := 5, connect := -1 },
      .createServerSocket { socket := 6 }]) := by
  refine (socket_owns_iff none _ ?_).mpr ?_
  · refine .cons ?_ (.cons ?_ (.cons ?_ (.cons ?_ .nil))) <;> unfold Fresh <;> decide
  · decide

/--
`close()` and then the destructor, a second `connect`, a timed `connect` whose `fcntl` fails,
and a `socket` that returns 0.
-/
theorem socket_closes_twice_or_never :
    ¬ Owns (life none [.connect { socket := 5 }, .close]) ∧
    ¬ Owns (life none [.connect { socket := 5 }, .connect { socket := 6 }]) ∧
    ¬ Owns (life none [.connectTimeout { socket := 5, fcntl := -1 }]) ∧
    ¬ Owns (life none [.createServerSocket { socket := 0 }]) := by
  refine ⟨?_, ?_, ?_, ?_⟩
  · intro h
    have hfits := h.proper [.opened 5, .closed 5] (.closed 5) [] (by decide)
    exact absurd hfits (by decide)
  · exact fun h => absurd h.closed (by decide)
  · exact fun h => absurd h.closed (by decide)
  · exact fun h => absurd h.closed (by decide)

end Technopark.Socket
