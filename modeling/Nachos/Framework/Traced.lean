import Nachos.Framework.Stop

/-!
# Computations with a trace

`Traced ω ε α` is a computation that may fail and that reports, on the way, what
it does. Its result is `run`; what it has reported, also when it fails, is `trace`.

* `run_bind`: the trace can be left out;
* `Reports`, `Reports.bind`: all that is reported has a property;
* `mem_trace_bind`: where the first part goes through, the second has reported too.
-/

namespace Nachos.Framework

/-- What has been reported, and the result. -/
def Traced (ω ε α : Type) := List ω × Except ε α

namespace Traced

variable {ω ε α β : Type}

def trace (x : Traced ω ε α) : List ω := x.1

def run (x : Traced ω ε α) : Except ε α := x.2

/-- A computation that reports nothing. -/
def lift (x : Except ε α) : Traced ω ε α := ([], x)

def report (w : ω) : Traced ω ε Unit := ([w], .ok ())

protected def bind (x : Traced ω ε α) (f : α → Traced ω ε β) : Traced ω ε β :=
  match x.2 with
  | .ok a => (x.1 ++ (f a).1, (f a).2)
  | .error e => (x.1, .error e)

instance : Monad (Traced ω ε) where
  pure a := lift (.ok a)
  bind := Traced.bind

@[simp] theorem run_pure (a : α) : (pure a : Traced ω ε α).run = .ok a := rfl

@[simp] theorem run_lift (x : Except ε α) : (lift x : Traced ω ε α).run = x := rfl

@[simp] theorem run_report (w : ω) : (report w : Traced ω ε Unit).run = .ok () := rfl

@[simp] theorem trace_pure (a : α) : (pure a : Traced ω ε α).trace = [] := rfl

@[simp] theorem trace_lift (x : Except ε α) : (lift x : Traced ω ε α).trace = [] := rfl

@[simp] theorem trace_report (w : ω) : (report w : Traced ω ε Unit).trace = [w] := rfl

@[simp] theorem run_bind (x : Traced ω ε α) (f : α → Traced ω ε β) :
    (x >>= f).run = x.run >>= fun a => (f a).run := by
  obtain ⟨l, x⟩ := x
  cases x with
  | error e => rfl
  | ok a => rfl

theorem trace_bind_of_ok {x : Traced ω ε α} {a : α} (h : x.run = .ok a) (f : α → Traced ω ε β) :
    (x >>= f).trace = x.trace ++ (f a).trace := by
  obtain ⟨l, x⟩ := x
  cases h
  rfl

theorem trace_bind_of_error {x : Traced ω ε α} {e : ε} (h : x.run = .error e)
    (f : α → Traced ω ε β) : (x >>= f).trace = x.trace := by
  obtain ⟨l, x⟩ := x
  cases h
  rfl

/-- What the first part reports is reported. -/
theorem mem_trace_left {x : Traced ω ε α} {f : α → Traced ω ε β} {w : ω} (h : w ∈ x.trace) :
    w ∈ (x >>= f).trace := by
  cases hx : x.run with
  | error e => rwa [trace_bind_of_error hx]
  | ok a =>
    rw [trace_bind_of_ok hx]
    exact List.mem_append_left _ h

/-- So is what the second part reports, if it is reached. -/
theorem mem_trace_right {x : Traced ω ε α} {a : α} (hx : x.run = .ok a) {f : α → Traced ω ε β}
    {w : ω} (h : w ∈ (f a).trace) : w ∈ (x >>= f).trace := by
  rw [trace_bind_of_ok hx]
  exact List.mem_append_right _ h

/-- All that is reported has the property `P`. -/
def Reports (P : ω → Prop) (x : Traced ω ε α) : Prop := ∀ w ∈ x.trace, P w

variable {P : ω → Prop}

theorem Reports.pure (a : α) : Reports P (Pure.pure a : Traced ω ε α) := fun _ hw => by cases hw

theorem Reports.lift (x : Except ε α) : Reports P (Traced.lift x) := fun _ hw => by cases hw

theorem Reports.report {w : ω} (h : P w) : Reports P (Traced.report w : Traced ω ε Unit) := by
  intro w' hw
  rw [trace_report, List.mem_singleton] at hw
  rwa [hw]

theorem Reports.bind {x : Traced ω ε α} {f : α → Traced ω ε β} (hx : Reports P x)
    (hf : ∀ a, x.run = .ok a → Reports P (f a)) : Reports P (x >>= f) := by
  intro w hw
  cases hrun : x.run with
  | error e =>
    rw [trace_bind_of_error hrun] at hw
    exact hx w hw
  | ok a =>
    rw [trace_bind_of_ok hrun] at hw
    rcases List.mem_append.mp hw with hw | hw
    · exact hx w hw
    · exact hf a hrun w hw

theorem Reports.ite {c : Prop} [Decidable c] {x y : Traced ω ε α} (hx : c → Reports P x)
    (hy : ¬ c → Reports P y) : Reports P (if c then x else y) := by
  split
  · rename_i hc
    exact hx hc
  · rename_i hc
    exact hy hc

end Traced

end Nachos.Framework
