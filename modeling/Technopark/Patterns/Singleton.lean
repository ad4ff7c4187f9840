/-
`examples/007_private_constructor.cpp`: `Singleton<Type>::GetInstance`.

The function looks at the shared pointer without the lock, and only if it finds null takes
the lock and looks again.  Any number of threads call it any number of times; a thread's
next step is one access to what they share, and a schedule says whose turn it is.

The atomics are sequentially consistent, so an access sees what the last store left.  A
thread that wants the lock while another has it stays where it is.  The constructor of
`Type` may throw: the lock guard gives the lock back and the call ends without a result.

Objects are numbered in the order they are constructed in.  `stores` and `returned` record
what the program itself does not keep.
-/
import Mathlib.Logic.Function.Basic

namespace Technopark

namespace Singleton

/-- Where a thread is in `GetInstance`, with its local `instance`. -/
inductive Pc
  /-- Before the first `atomic_instance_.load()`. -/
  | idle
  /-- The first load gave null. -/
  | locking
  /-- In the lock, before the second load. -/
  | locked
  /-- The second load gave null. -/
  | constructing
  /-- `new Type` gave this object. -/
  | storing (instance_ : Nat)
  /-- About to leave the lock with this object. -/
  | unlocking (instance_ : Nat)
  /-- About to leave the lock with an exception. -/
  | unwinding
  /-- About to return this object. -/
  | returning (instance_ : Nat)
  deriving Repr, DecidableEq

/-- The threads and what they share. -/
structure State (ι : Type) where
  /-- `atomic_instance_`. -/
  atomicInstance : Option Nat
  /-- The thread that has `initialization_mutex_`. -/
  owner : Option ι
  pc : ι → Pc
  /-- The number of `Type` objects constructed. -/
  constructed : Nat
  /-- The stores to `atomic_instance_`: what was there, and what was stored. -/
  stores : List (Option Nat × Nat)
  /-- The calls that returned, and the object each returned. -/
  returned : List (ι × Nat)

variable {ι : Type} [DecidableEq ι]

/-- Before the first call. -/
def start : State ι :=
  { atomicInstance := none, owner := none, pc := fun _ => .idle, constructed := 0, stores := []
    returned := [] }

/-- Thread `t` goes on at `pc`. -/
def State.goto (s : State ι) (t : ι) (pc : Pc) : State ι :=
  { s with pc := Function.update s.pc t pc }

/-- Whose turn it is, and whether the constructor throws should it be called. -/
structure Turn (ι : Type) where
  thread : ι
  throws : Bool := false
  deriving Repr, DecidableEq

/-- The next step of `Singleton::GetInstance` in one thread. -/
def step (turn : Turn ι) (s : State ι) : State ι :=
  let t := turn.thread
  match s.pc t with
  | .idle =>
      match s.atomicInstance with
      | none => s.goto t .locking
      | some p => s.goto t (.returning p)
  | .locking =>
      if s.owner = none then { s with owner := some t }.goto t .locked else s
  | .locked =>
      match s.atomicInstance with
      | none => s.goto t .constructing
      | some p => s.goto t (.unlocking p)
  | .constructing =>
      if turn.throws then s.goto t .unwinding
      else { s with constructed := s.constructed + 1 }.goto t (.storing s.constructed)
  | .storing p =>
      { s with atomicInstance := some p, stores := s.stores ++ [(s.atomicInstance, p)] }.goto t
        (.unlocking p)
  | .unlocking p => { s with owner := none }.goto t (.returning p)
  | .unwinding => { s with owner := none }.goto t .idle
  | .returning p => { s with returned := s.returned ++ [(t, p)] }.goto t .idle

/-- The state after a schedule. -/
def run (schedule : List (Turn ι)) : State ι := schedule.foldl (fun s turn => step turn s) start

end Singleton

end Technopark
