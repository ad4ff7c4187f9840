/-
The two overloads of `Socket::connect` on one network.

The blocking `::connect` waits for the end of the attempt and says how it ended.  On a
non-blocking descriptor it may return while the attempt is pending, and then `select` waits:
it reports the descriptor writable once the attempt has ended, and not how.  The overload
with a timeout does not ask for the pending error, so a refusal that comes in time looks to
it like a connection.
-/
import Technopark.Net.SocketLife
import Technopark.Proofs.SocketLife

namespace Technopark.Socket

/-! ### The network -/

/-- What `::connect` on a non-blocking descriptor says at once. -/
inductive AtOnce
  | connected
  /-- `-1` with `EINPROGRESS`. -/
  | inProgress
  /-- `-1` with another `errno`. -/
  | failed
  deriving Repr, DecidableEq

/-- What happens when a host and a port are asked for a connection. -/
structure Network where
  /-- `gethostbyname` knows the host. -/
  resolves : Bool
  /-- The results of `socket` and of `fcntl(sd, F_SETFL, new_flags)`. -/
  socket : Int
  fcntl : Int
  strerror : String
  atOnce : AtOnce
  /-- The attempt ends in a connection; otherwise it is refused. -/
  established : Bool
  /-- The seconds after which it ends. -/
  ends : Nat
  /-- A signal interrupts `select`. -/
  interrupted : Bool
  established_of_connected : atOnce = .connected → established
  refused_of_failed : atOnce = .failed → ¬ established

namespace Network

/--
The attempt is under way, pending when `::connect` returns, and refused within the timeout
that `select` waits for.
-/
structure RefusedInTime (net : Network) (timeout : Int) : Prop where
  resolves : net.resolves
  socket : 0 < net.socket
  fcntl : net.fcntl ≠ -1
  waits : net.interrupted = false
  pending : net.atOnce = .inProgress
  refused : ¬ net.established
  inTime : net.ends ≤ timeout

/-- The descriptor is writable within the timeout: the attempt has ended. -/
def writable (net : Network) (timeout : Int) : Bool :=
  net.atOnce = .connected || net.ends ≤ timeout

/-- `select` for writing: a negative timeout is refused. -/
def select (net : Network) (timeout : Int) : Int :=
  if timeout < 0 || net.interrupted then -1 else if net.writable timeout then 1 else 0

/-- The system calls of `connect(host, port)`. -/
def blocking (net : Network) : SysCalls :=
  { resolves := net.resolves, socket := net.socket, fcntl := net.fcntl,
    connect := if net.established then 0 else -1, strerror := net.strerror }

/-- The system calls of `connect(host, port, timeout)`. -/
def timed (net : Network) (timeout : Int) : SysCalls :=
  { resolves := net.resolves, socket := net.socket, fcntl := net.fcntl,
    connect := if net.atOnce = .connected then 0 else -1,
    inProgress := net.atOnce = .inProgress, select := net.select timeout,
    strerror := net.strerror }

theorem select_eq_one_iff (net : Network) (timeout : Int) :
    net.select timeout = 1 ↔
      0 ≤ timeout ∧ net.interrupted = false ∧ net.writable timeout := by
  unfold select
  cases net.interrupted <;> cases net.writable timeout <;> grind

end Network

/-! ### When an overload returns -/

/-- The call returns. -/
def Returns (x : Call Owner Unit) (o : Owner) : Prop := ∃ o', x.run o = .ok () o'

theorem returns_bind_iff {α : Type} {x : Call Owner α} {f : α → Call Owner Unit} {o o' : Owner}
    {a : α} (h : x.run o = .ok a o') : Returns (x >>= f) o ↔ Returns (f a) o' := by
  unfold Returns
  rw [Call.run_bind_ok h]

theorem not_returns_bind {α : Type} {x : Call Owner α} {f : α → Call Owner Unit} {o o' : Owner}
    {e : Fault} (h : x.run o = .error e o') : ¬ Returns (x >>= f) o := by
  unfold Returns
  rw [Call.run_bind_error h]
  simp

/-- Both overloads begin with a host that resolves and a descriptor other than 0. -/
theorem returns_descriptor_iff {sys : SysCalls} {o : Owner} {e : Fault}
    {f : Int → Call Owner Unit} :
    Returns (do
      resolve sys
      let sd ← sysSocket sys
      if sd ≤ 0 then throw e
      f sd) o ↔
    sys.resolves ∧ 0 < sys.socket ∧
      Returns (f sys.socket) { o with log := o.log ++ [.opened sys.socket] } := by
  by_cases hresolves : sys.resolves = false
  · simp [not_returns_bind (resolve_failed hresolves o), hresolves]
  have htrue : sys.resolves = true := by simpa using hresolves
  rw [returns_bind_iff (resolve_run hresolves o)]
  by_cases hneg : sys.socket < 0
  · have hnot : ¬ 0 < sys.socket := by omega
    rw [returns_bind_iff (sysSocket_failed hneg o), if_pos (Int.le_of_lt hneg)]
    simp [Returns, hnot]
  · rw [returns_bind_iff (sysSocket_run (Int.not_lt.mp hneg) o)]
    by_cases hzero : sys.socket ≤ 0
    · rw [if_pos hzero]
      simp [Returns, Int.not_lt.mpr hzero]
    · rw [if_neg hzero]
      simp [htrue, Int.not_le.mp hzero]

theorem connect_returns_iff (sys : SysCalls) (o : Owner) :
    Returns (connect sys) o ↔ sys.resolves ∧ 0 < sys.socket ∧ sys.connect ≠ -1 := by
  rw [connect, returns_descriptor_iff]
  refine and_congr_right fun _ => and_congr_right fun _ => ?_
  by_cases hconnect : sys.connect = -1
  · simp [Returns, hconnect, note]
  · simp [Returns, hconnect, take, note]

theorem connectTimeout_returns_iff (sys : SysCalls) (o : Owner) :
    Returns (connectTimeout sys) o ↔
      sys.resolves ∧ 0 < sys.socket ∧ sys.fcntl ≠ -1 ∧
        ¬ (sys.connect = -1 ∧ ¬ sys.inProgress) ∧ sys.select = 1 := by
  rw [connectTimeout, returns_descriptor_iff]
  refine and_congr_right fun _ => and_congr_right fun _ => ?_
  by_cases hfcntl : sys.fcntl = -1
  · simp [Returns, hfcntl, setNonBlockedImpl]
  · by_cases hconnect : sys.connect = -1 ∧ sys.inProgress = false
    · simp [Returns, hfcntl, hconnect, setNonBlockedImpl, note]
    · by_cases hselect : sys.select = 1
      · simp [Returns, hfcntl, hconnect, hselect, setNonBlockedImpl, take, note]
      · simp [Returns, hfcntl, hconnect, hselect, setNonBlockedImpl, note]

/-! ### The overloads agree -/

/-- The overload with a timeout returns only with a connection, where the other one would. -/
def AgreesOnSuccess (net : Network) (timeout : Int) : Prop :=
  ∀ o o', Returns (connectTimeout (net.timed timeout)) o →
    net.established ∧ Returns (connect net.blocking) o'

theorem blocking_returns_iff (net : Network) (o : Owner) :
    Returns (connect net.blocking) o ↔ net.resolves ∧ 0 < net.socket ∧ net.established := by
  rw [connect_returns_iff]
  refine and_congr_right fun _ => and_congr_right fun _ => ?_
  unfold Network.blocking
  cases net.established <;> simp

/-- How the overload with a timeout comes to return. -/
theorem timed_returns_iff (net : Network) (timeout : Int) (o : Owner) :
    Returns (connectTimeout (net.timed timeout)) o ↔
      net.resolves ∧ 0 < net.socket ∧ net.fcntl ≠ -1 ∧ net.interrupted = false ∧ 0 ≤ timeout ∧
        (net.atOnce = .connected ∨ net.atOnce = .inProgress ∧ net.ends ≤ timeout) := by
  rw [connectTimeout_returns_iff]
  have hselect := net.select_eq_one_iff timeout
  unfold Network.writable at hselect
  cases honce : net.atOnce <;> grind [Network.timed]

/--
**The overload with a timeout returns only with a connection exactly if no pending attempt
is refused within the timeout.**
-/
theorem connect_overloads_agree_iff (net : Network) (timeout : Int) :
    AgreesOnSuccess net timeout ↔ ¬ net.RefusedInTime timeout := by
  constructor
  · intro hagrees hrefused
    have hreturns : Returns (connectTimeout (net.timed timeout)) (construct none) := by
      have htimeout : (0 : Int) ≤ timeout := Int.le_trans (Int.natCast_nonneg _) hrefused.inTime
      exact (timed_returns_iff net timeout _).mpr ⟨hrefused.resolves, hrefused.socket,
        hrefused.fcntl, hrefused.waits, htimeout, .inr ⟨hrefused.pending, hrefused.inTime⟩⟩
    exact hrefused.refused (hagrees _ (construct none) hreturns).1
  · intro hnot o o' hreturns
    obtain ⟨hresolves, hsocket, hfcntl, hwaits, -, hended⟩ :=
      (timed_returns_iff net timeout o).mp hreturns
    have hestablished : net.established := by
      rcases hended with hconnected | ⟨hpending, hinTime⟩
      · exact net.established_of_connected hconnected
      · by_contra hrefused
        exact hnot ⟨hresolves, hsocket, hfcntl, hwaits, hpending, hrefused, hinTime⟩
    exact ⟨hestablished, (blocking_returns_iff net o').mpr ⟨hresolves, hsocket, hestablished⟩⟩

/-- A host that refuses after a second. -/
def closedPort : Network where
  resolves := true
  socket := 3
  fcntl := 0
  strerror := "Connection refused"
  atOnce := .inProgress
  established := false
  ends := 1
  interrupted := false
  established_of_connected := by simp
  refused_of_failed := by simp

/-- With five seconds to wait, `connect` reports success on a port nobody listens on. -/
theorem connect_overloads_disagree :
    Returns (connectTimeout (closedPort.timed 5)) (construct none) ∧
    ¬ closedPort.established ∧ ¬ Returns (connect closedPort.blocking) (construct none) := by
  refine ⟨?_, by decide, ?_⟩
  · rw [timed_returns_iff]
    decide
  · rw [blocking_returns_iff]
    decide

end Technopark.Socket
