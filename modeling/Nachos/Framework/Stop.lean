import Mathlib.Tactic.Common

/-!
# Computations that may stop

`Except Stop` is the result of code that can end the whole program: a halt, a
failed assertion, or a use of memory that the language leaves undefined: of
what is not there (a dangling or null pointer, an index outside an array), or
of an element that a list has deleted but still points to.

* `bind_eq_ok`, `assert_eq_ok`, `deref_eq_ok`: what a computation that went
  through has passed;
* `Avoids`: a computation that does not end in a certain way, part by part.
-/

namespace Nachos.Framework

/-- Why the program ended. -/
inductive Stop
  | halt
  | assertion
  | undefined
  | freed
  deriving DecidableEq, Repr

/-- `ASSERT(b)`. -/
def assert (b : Prop) [Decidable b] : Except Stop Unit := if b then .ok () else .error .assertion

/-- What a pointer points to, or an index of an array: undefined when nothing
is there. -/
def deref {α : Type*} : Option α → Except Stop α
  | some a => .ok a
  | none => .error .undefined

theorem bind_eq_ok {ε α β : Type} {x : Except ε α} {f : α → Except ε β} {b : β} :
    (x >>= f) = .ok b ↔ ∃ a, x = .ok a ∧ f a = .ok b := by
  cases x with
  | error e => simp [bind, Except.bind]
  | ok a => simp [bind, Except.bind]

@[simp] theorem ok_bind {ε α β : Type} (a : α) (f : α → Except ε β) :
    (Except.ok a >>= f) = f a := rfl

@[simp] theorem error_bind {ε α β : Type} (e : ε) (f : α → Except ε β) :
    (Except.error e >>= f) = .error e := rfl

@[simp] theorem deref_some {α : Type*} (a : α) : deref (some a) = .ok a := rfl

theorem assert_eq_ok {b : Prop} [Decidable b] {u : Unit} : assert b = .ok u ↔ b := by
  unfold assert
  split <;> simp_all

theorem deref_eq_ok {α : Type*} {x : Option α} {a : α} : deref x = .ok a ↔ x = some a := by
  cases x <;> simp [deref]

theorem pure_eq_ok {ε α : Type*} {a b : α} : (pure a : Except ε α) = .ok b ↔ a = b := by
  simp [pure, Except.pure]

theorem ite_error_eq_ok {ε α : Type*} {c : Prop} [Decidable c] {e : ε} {x : Except ε α} {a : α} :
    (if c then .error e else x) = .ok a ↔ ¬ c ∧ x = .ok a := by
  split <;> simp_all

theorem toOption_eq_some {α ε : Type*} {x : Except ε α} {a : α} :
    x.toOption = some a ↔ x = .ok a := by
  cases x <;> simp [Except.toOption]

/-! ## Ends that do not happen -/

/-- `x` does not end with `e`. -/
def Avoids {ε α : Type*} (e : ε) (x : Except ε α) : Prop := x ≠ .error e

section Avoids

variable {ε α β : Type} {e : ε}

theorem Avoids.bind {x : Except ε β} {f : β → Except ε α} (hx : Avoids e x)
    (hf : ∀ b, x = .ok b → Avoids e (f b)) : Avoids e (x >>= f) := by
  cases x with
  | error e' =>
    intro h
    apply hx
    rw [error_bind] at h
    exact congrArg Except.error (Except.error.inj h)
  | ok b => exact hf b rfl

end Avoids

end Nachos.Framework
