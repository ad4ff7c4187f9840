/-
What a C++ call does to the object it is made on.

A member function reads and writes its object and either returns or throws, and
an exception keeps whatever was written before it was thrown.  `Call σ α` is that:
a function of the object's state that ends in `ok` or in `error`, with the state
it leaves in both.  Nothing is rolled back, so "the call throws and leaves the
object unchanged" is a statement with content.

Undefined behaviour is a fault too.  The embedding raises it wherever the language
gives an operation no meaning, such as an access outside an allocation or a
division by zero, so a theorem that a call returns `ok` also says that none of
these was reached on the way.

The second half is machine arithmetic: what `size_t` and `int` make of a number.
-/
import Mathlib.Algebra.Ring.Int.Defs
import Mathlib.Algebra.Ring.Nat
import Mathlib.Data.Int.Basic
import Mathlib.Data.Nat.Basic

namespace Technopark

/-- The ways an operation can have no meaning. -/
inductive Undefined
  | outOfBounds
  | uninitialised
  | nullPointer
  | divisionByZero
  | signedOverflow
  | emptyString
  | danglingIterator
  deriving Repr, DecidableEq

/-- How a call can fail to return. -/
inductive Fault
  /-- `throw std::runtime_error(what)`. -/
  | runtimeError (what : String)
  /-- `throw std::logic_error(what)`. -/
  | logicError (what : String)
  /-- `throw std::out_of_range`, by `substr` or `stoi`. -/
  | outOfRange
  /-- `throw std::invalid_argument`, by `stoi`. -/
  | invalidArgument
  /-- `new` or `malloc` could not serve the request. -/
  | badAlloc
  /-- `assert` failed. -/
  | assertion
  | undefined (why : Undefined)
  /-- A loop of the embedding was given too little fuel. -/
  | outOfFuel
  deriving Repr, DecidableEq

/-- What comes behind a function that returned. -/
theorem ok_bind {α β : Type} (a : α) (f : α → Except Fault β) : (Except.ok a >>= f) = f a := rfl

/-- Nothing comes behind a function that threw. -/
theorem error_bind {α β : Type} (e : Fault) (f : α → Except Fault β) :
    (Except.error e >>= f) = .error e := rfl

/-- A call on an object of type `σ` that returns an `α`. -/
abbrev Call (σ α : Type) := EStateM Fault σ α

instance decidableEqResult {ε σ α : Type} [DecidableEq ε] [DecidableEq σ] [DecidableEq α] :
    DecidableEq (EStateM.Result ε σ α)
  | .ok a s, .ok b t => decidable_of_iff (a = b ∧ s = t) (by simp)
  | .error e s, .error f t => decidable_of_iff (e = f ∧ s = t) (by simp)
  | .ok _ _, .error _ _ => isFalse (by simp)
  | .error _ _, .ok _ _ => isFalse (by simp)

namespace Call

variable {σ α β : Type}

@[simp] theorem run_map (f : α → β) (x : Call σ α) (s : σ) :
    EStateM.run (f <$> x) s
      = match x.run s with
        | .ok a s' => .ok (f a) s'
        | .error e s' => .error e s' := by
  simp only [EStateM.run, Functor.map, EStateM.map]
  cases x s <;> rfl

@[simp] theorem run_throw (e : Fault) (s : σ) : (throw e : Call σ α).run s = .error e s := rfl

/-- Sequencing after a call that returned. -/
theorem run_bind_ok {x : Call σ α} {f : α → Call σ β} {s t : σ} {a : α}
    (h : x.run s = .ok a t) : (x >>= f).run s = (f a).run t := by
  rw [EStateM.run_bind, h]

/-- Sequencing after a call that threw. -/
theorem run_bind_error {x : Call σ α} {f : α → Call σ β} {s t : σ} {e : Fault}
    (h : x.run s = .error e t) : (x >>= f).run s = .error e t := by
  rw [EStateM.run_bind, h]

/-- A call that does not touch the object. -/
def ofExcept : Except Fault α → Call σ α
  | .ok a => pure a
  | .error e => throw e

@[simp] theorem run_ofExcept_ok (a : α) (s : σ) : (ofExcept (.ok a) : Call σ α).run s = .ok a s :=
  rfl

@[simp] theorem run_ofExcept_error (e : Fault) (s : σ) :
    (ofExcept (.error e) : Call σ α).run s = .error e s :=
  rfl

/-- What the caller sees of a call: the value or the fault. -/
def reply (x : Call σ α) (s : σ) : Except Fault α :=
  match x.run s with
  | .ok a _ => .ok a
  | .error e _ => .error e

/-- The state a call leaves, however it ended. -/
def after (x : Call σ α) (s : σ) : σ :=
  match x.run s with
  | .ok _ s' => s'
  | .error _ s' => s'

theorem reply_ok {x : Call σ α} {s t : σ} {a : α} (h : x.run s = .ok a t) :
    x.reply s = .ok a := by simp only [reply, h]

theorem reply_error {x : Call σ α} {s t : σ} {e : Fault} (h : x.run s = .error e t) :
    x.reply s = .error e := by simp only [reply, h]

theorem after_ok {x : Call σ α} {s t : σ} {a : α} (h : x.run s = .ok a t) :
    x.after s = t := by simp only [after, h]

theorem after_error {x : Call σ α} {s t : σ} {e : Fault} (h : x.run s = .error e t) :
    x.after s = t := by simp only [after, h]

/-- What a call returns does not change what it leaves. -/
theorem after_map (f : α → β) (x : Call σ α) (s : σ) : after (f <$> x) s = x.after s := by
  rw [after, run_map, after]
  cases x.run s <;> rfl

theorem after_bind_pure (x : Call σ α) (f : α → β) (s : σ) :
    after (x >>= fun a => pure (f a)) s = x.after s := by
  rw [← map_eq_pure_bind, after_map]

/-- What is left after a call that returned and what comes behind it. -/
theorem after_bind_ok {x : Call σ α} {f : α → Call σ β} {s t : σ} {a : α}
    (h : x.run s = .ok a t) : (x >>= f).after s = (f a).after t := by
  rw [after, run_bind_ok h]
  rfl

end Call

/-! ### Machine arithmetic -/

/-- One more than the largest `size_t`. -/
def sizeMod : Nat := 2 ^ 64

/-- The value `size_t` arithmetic leaves of a natural number. -/
def sizeT (n : Nat) : Nat := n % sizeMod

/-- `a - b` on two `size_t` values. -/
def sizeTSub (a b : Nat) : Nat := sizeT (a + sizeMod - b)

/-- An `int` converted to `size_t`. -/
def sizeTOfInt (i : Int) : Nat := (i % sizeMod).toNat

/-- `PTRDIFF_MAX`, the most bytes one allocation may have. -/
def ptrdiffMax : Nat := 2 ^ 63 - 1

/-- `INT_MAX`. -/
def intMax : Int := 2 ^ 31 - 1

/-- A `size_t` converted to `int`: the low 32 bits, read in two's complement. -/
def toInt32 (n : Nat) : Int := Int.bmod n (2 ^ 32)

theorem sizeT_eq {n : Nat} (h : n < 2 ^ 64) : sizeT n = n := Nat.mod_eq_of_lt h

theorem sizeTSub_eq {a b : Nat} (h : b ≤ a) (ha : a < 2 ^ 64) : sizeTSub a b = a - b := by
  unfold sizeTSub sizeT sizeMod
  omega

@[simp] theorem sizeTOfInt_natCast {n : Nat} (h : n < 2 ^ 64) : sizeTOfInt n = n := by
  unfold sizeTOfInt sizeMod
  omega

theorem toInt32_eq {n : Nat} (h : n < 2 ^ 31) : toInt32 n = n := by
  unfold toInt32
  rw [Int.bmod_eq_of_le] <;> omega

end Technopark
