import Nachos.Framework.CInt
import Nachos.Framework.Run
import Mathlib.Data.List.Nodup
import Mathlib.Logic.Function.Basic

/-!
# `Semaphore` (threads/synch.cc)

One semaphore and the threads that call it, on the scheduler of
threads/scheduler.cc and `Thread::Sleep`. `P` and `V` turn interrupts off, so
the thread changes only where `P` sleeps, and the thread that `Sleep`
dispatches goes on with interrupts off: a thread that slept in `P` tests
`value` again before anything else happens. `Act` lists what can happen
between two such points, including `V` from an interrupt handler, a time
slice, and threads that block or are made ready elsewhere in the kernel.

* `step_correct`: as long as `V` does not increment past `INT_MAX`, every step
  keeps `Correct`: the value counts, and it never exceeds the number of
  woken threads while some thread is asleep;
* `correct_iff`: a run is correct throughout exactly when no `V` of it finds
  `value` at `INT_MAX`.
-/

namespace Nachos.Threads

open Nachos.Framework

/-- The semaphore, its threads and the scheduler. -/
structure SemSystem (T : Type) where
  /-- `Semaphore::value`, an `int`. -/
  value : Int
  /-- `Semaphore::queue`. -/
  queue : List T
  /-- `Scheduler::readyList`. -/
  readyList : List T
  /-- `currentThread`, or `none` while `Thread::Sleep` idles for want of a
  ready thread. -/
  currentThread : Option T
  /-- The threads inside `P` that have gone to sleep and not tested `value`
  since. -/
  inP : T → Bool
  /-- The calls of `V`, and the calls of `P` that got past the loop; auxiliary,
  not in the code. -/
  numV : Nat
  numP : Nat

namespace SemSystem

variable {T : Type}

/-- A semaphore made by `Semaphore(debugName, initialValue)`, and the thread
that made it. -/
def start (initialValue : Int) (main : T) : SemSystem T :=
  ⟨initialValue, [], [], some main, fun _ => false, 0, 0⟩

/-- `Scheduler::ReadyToRun`. -/
def readyToRun (t : T) (s : SemSystem T) : SemSystem T :=
  { s with readyList := s.readyList ++ [t] }

/-- `Thread::Sleep`: the CPU goes to the thread `Scheduler::FindNextToRun`
takes off the ready list, or idles. -/
def sleep (s : SemSystem T) : SemSystem T :=
  { s with currentThread := s.readyList.head?, readyList := s.readyList.tail }

/-- `Thread::Yield`. -/
def yield (t : T) (s : SemSystem T) : SemSystem T :=
  match s.readyList with
  | [] => s
  | n :: ts => { s with currentThread := some n, readyList := ts ++ [t] }

/-- `Semaphore::V`. -/
def V (s : SemSystem T) : SemSystem T :=
  let s' := match s.queue with
    | [] => s
    | t :: ts => readyToRun t { s with queue := ts }
  { s' with value := int32 (s'.value + 1), numV := s'.numV + 1 }

variable [DecidableEq T]

/-- The loop of `Semaphore::P` from its test of `value`, and what follows it,
by thread `t`. -/
def P (t : T) (s : SemSystem T) : SemSystem T :=
  if s.value = 0 then
    sleep { s with queue := s.queue ++ [t], inP := Function.update s.inP t true }
  else
    { s with value := int32 (s.value - 1), inP := Function.update s.inP t false, numP := s.numP + 1 }

/-- What happens next. -/
inductive Act (T : Type) where
  /-- The current thread calls `P`. -/
  | callP
  /-- The current thread, having been dispatched inside `P`, goes on there. -/
  | resumeP
  /-- The current thread or an interrupt handler calls `V`. -/
  | callV
  /-- The current thread yields, or its time slice ends. -/
  | yield
  /-- The current thread blocks elsewhere, or finishes. -/
  | block
  /-- A thread that is new, or blocked elsewhere, is made ready. -/
  | wake (t : T)
  /-- `Thread::Sleep` finds a ready thread after idling. -/
  | dispatch

/-- Interrupts are on: the current thread is not on its way from `Sleep` to
the test of `value`. While idling, interrupt handlers run too. -/
def interruptible (s : SemSystem T) : Bool := s.currentThread.all fun t => !s.inP t

/-- One step; `none` when the action is not possible in the state. -/
def step : Act T → SemSystem T → Option (SemSystem T)
  | .callP, s => do
    let t ← s.currentThread
    if s.inP t then none else some (P t s)
  | .resumeP, s => do
    let t ← s.currentThread
    if s.inP t then some (P t s) else none
  | .callV, s => if s.interruptible then some (V s) else none
  | .yield, s => do
    let t ← s.currentThread
    if s.inP t then none else some (yield t s)
  | .block, s => do
    let t ← s.currentThread
    if s.inP t then none else some (sleep s)
  | .wake t, s =>
    if s.interruptible ∧ s.inP t = false ∧ t ∉ s.currentThread.toList ++ s.readyList ++ s.queue
    then some (readyToRun t s) else none
  | .dispatch, s =>
    if s.currentThread = none ∧ s.readyList ≠ [] then some (sleep s) else none

/-- The threads that `V` has taken off the queue and that have not tested
`value` since. -/
def woken (s : SemSystem T) : List T := (s.currentThread.toList ++ s.readyList).filter s.inP

/-- What the semaphore keeps to: the value is never negative and counts the
calls, and while a thread is asleep it is at most the number of woken
threads. -/
structure Correct (initialValue : Int) (s : SemSystem T) : Prop where
  nonneg : 0 ≤ s.value
  count : s.value = initialValue + s.numV - s.numP
  woken : s.queue ≠ [] → s.value ≤ s.woken.length

/-- `Correct`, with what it rests on: every thread is in one place, and the
queued threads are inside `P`. -/
structure Inv (initialValue : Int) (s : SemSystem T) : Prop extends Correct initialValue s where
  le_max : s.value ≤ intMax
  nodup : (s.currentThread.toList ++ s.readyList ++ s.queue).Nodup
  queued : ∀ t ∈ s.queue, s.inP t = true

/-! ## Each action keeps the invariant -/

variable {initialValue : Int} {s : SemSystem T}

omit [DecidableEq T] in
/-- Changing only who runs and in which order keeps the invariant, as long as
no thread gets lost or doubled and the woken ones stay. -/
theorem Inv.reschedule (h : Inv initialValue s) {c : Option T} {rs : List T}
    (hn : (c.toList ++ rs ++ s.queue).Nodup)
    (hw : ((c.toList ++ rs).filter s.inP).length = s.woken.length) :
    Inv initialValue { s with currentThread := c, readyList := rs } where
  nonneg := h.nonneg
  count := h.count
  woken := fun hq => (h.woken hq).trans_eq (by rw [← hw]; rfl)
  le_max := h.le_max
  nodup := hn
  queued := h.queued

omit [DecidableEq T] in
theorem Inv.sleep_of_idle (h : Inv initialValue s) (hc : s.currentThread = none) :
    Inv initialValue s.sleep := by
  have hn := h.nodup
  refine h.reschedule ?_ ?_
  · rw [hc] at hn
    cases hr : s.readyList <;> simpa [hr] using hn
  · rw [SemSystem.woken, hc]
    cases hr : s.readyList <;> rfl

omit [DecidableEq T] in
theorem Inv.block (h : Inv initialValue s) {t : T} (hc : s.currentThread = some t)
    (ht : s.inP t = false) : Inv initialValue s.sleep := by
  have hn := h.nodup
  refine h.reschedule ?_ ?_
  · rw [hc] at hn
    cases hr : s.readyList with
    | nil => simpa [hr] using (List.nodup_cons.mp hn).2
    | cons => simpa [hr] using (List.nodup_cons.mp hn).2
  · rw [SemSystem.woken, hc]
    cases hr : s.readyList <;> simp [ht]

omit [DecidableEq T] in
theorem Inv.yield (h : Inv initialValue s) {t : T} (hc : s.currentThread = some t) :
    Inv initialValue (s.yield t) := by
  have hn := h.nodup
  unfold SemSystem.yield
  split
  · exact h
  · rename_i n ts hr
    have hp : (n :: (ts ++ [t])).Perm (t :: n :: ts) :=
      (List.perm_append_singleton t (n :: ts))
    rw [hc, hr] at hn
    refine h.reschedule (c := some n) ((hp.append_right s.queue).nodup_iff.mpr hn) ?_
    rw [SemSystem.woken, hc, hr]
    exact (hp.filter _).length_eq

omit [DecidableEq T] in
theorem Inv.wake (h : Inv initialValue s) {t : T} (ht : s.inP t = false)
    (hm : t ∉ s.currentThread.toList ++ s.readyList ++ s.queue) :
    Inv initialValue (s.readyToRun t) := by
  have hp : (s.currentThread.toList ++ (s.readyList ++ [t]) ++ s.queue).Perm
      (t :: (s.currentThread.toList ++ s.readyList ++ s.queue)) := by
    rw [← List.append_assoc, List.append_assoc]
    exact List.perm_middle
  refine h.reschedule (hp.nodup_iff.mpr (List.nodup_cons.mpr ⟨hm, h.nodup⟩)) ?_
  simp [SemSystem.woken, ht]

omit [DecidableEq T] in
/-- `V` makes the first waiter ready and increments: one more woken thread for
one more unit. -/
theorem Inv.V (h : Inv initialValue s) (hv : s.value ≠ intMax) : Inv initialValue s.V := by
  have hmax := h.le_max
  have hlt : s.value < 2 ^ 31 - 1 := lt_of_le_of_ne hmax hv
  have hinc : int32 (s.value + 1) = s.value + 1 := int32_eq (by have := h.nonneg; omega) (by omega)
  have hcount := h.count
  have hnonneg := h.nonneg
  unfold SemSystem.V
  cases hq : s.queue with
  | nil =>
    refine ⟨⟨?_, ?_, fun hne => absurd hq hne⟩, ?_, h.nodup, h.queued⟩
    · simp only [hinc]; omega
    · simp only [hinc]; push_cast; omega
    · simp only [hinc, intMax]; omega
  | cons t ts =>
    have hn := h.nodup
    have hw := h.woken (by rw [hq]; exact List.cons_ne_nil _ _)
    have hin : s.inP t = true := h.queued t (by rw [hq]; exact List.mem_cons_self)
    rw [hq] at hn
    refine ⟨⟨?_, ?_, fun _ => ?_⟩, ?_, ?_, fun u hu => h.queued u (by rw [hq]; exact List.mem_cons_of_mem _ hu)⟩
    · simp only [readyToRun, hinc]; omega
    · simp only [readyToRun, hinc]; push_cast; omega
    · simp only [readyToRun, hinc, SemSystem.woken, ← List.append_assoc, List.filter_append,
        List.length_append] at hw ⊢
      simp only [hin, List.filter_cons_of_pos, List.filter_nil, List.length_cons, List.length_nil]
      push_cast at hw ⊢
      omega
    · simp only [readyToRun, hinc, intMax]; omega
    · simpa [readyToRun] using hn

/-- `P`, from the test of `value`: it either takes one, and the thread is no
longer among the woken ones, or finds `value` at 0 and sleeps. -/
theorem Inv.P (h : Inv initialValue s) {t : T} (hc : s.currentThread = some t) :
    Inv initialValue (s.P t) := by
  have hn := h.nodup
  have hcount := h.count
  have hnonneg := h.nonneg
  have hmax := h.le_max
  rw [hc] at hn
  have htr : t ∉ s.readyList ∧ t ∉ s.queue := by
    have := (List.nodup_cons.mp hn).1
    simpa using this
  have hready : ∀ b, s.readyList.filter (Function.update s.inP t b) = s.readyList.filter s.inP :=
    fun b => List.filter_congr fun u hu => by
      rw [Function.update_of_ne (by rintro rfl; exact htr.1 hu)]
  unfold SemSystem.P
  split
  · rename_i hz
    refine ⟨⟨hnonneg, hcount, fun _ => ?_⟩, hmax, ?_, fun u hu => ?_⟩
    · show s.value ≤ _
      rw [hz]
      exact Int.natCast_nonneg _
    · have hp : (s.readyList ++ (s.queue ++ [t])).Perm (t :: (s.readyList ++ s.queue)) := by
        rw [← List.append_assoc]
        exact List.perm_append_singleton _ _
      have hnd := hp.nodup_iff.mpr (by simpa using hn)
      simp only [sleep]
      cases hr : s.readyList <;> simpa [hr] using hnd
    · show Function.update s.inP t true u = true
      rcases List.mem_append.mp (show u ∈ s.queue ++ [t] from hu) with hq | hq
      · rw [Function.update_of_ne (by rintro rfl; exact htr.2 hq)]
        exact h.queued u hq
      · rw [List.mem_singleton.mp hq, Function.update_self]
  · rename_i hz
    have hdec : int32 (s.value - 1) = s.value - 1 := int32_eq (by omega) (by simp only [intMax] at hmax; omega)
    refine ⟨⟨?_, ?_, fun hq => ?_⟩, ?_, ?_, fun u hu => ?_⟩
    · simp only [hdec]; omega
    · simp only [hdec]; push_cast; omega
    · have hw := h.woken hq
      simp only [SemSystem.woken, hc, Option.toList_some, List.singleton_append, hdec] at hw ⊢
      simp only [List.filter_cons, Function.update_self, Bool.false_eq_true, ite_false, hready] at hw ⊢
      split at hw
      · simp only [List.length_cons] at hw; push_cast at hw; omega
      · omega
    · simp only [hdec]; omega
    · show (s.currentThread.toList ++ s.readyList ++ s.queue).Nodup
      rw [hc]
      exact hn
    · show Function.update s.inP t false u = true
      rw [Function.update_of_ne (by rintro rfl; exact htr.2 hu)]
      exact h.queued u hu

/-- Every step keeps the invariant, unless it is a `V` at `INT_MAX`. -/
theorem step_inv (h : Inv initialValue s) {a : Act T} {s' : SemSystem T}
    (ha : a matches .callV → s.value ≠ intMax) (hs : step a s = some s') : Inv initialValue s' := by
  cases a with
  | callP =>
    simp only [step, Option.bind_eq_bind, Option.bind_eq_some_iff] at hs
    obtain ⟨t, hc, hs⟩ := hs
    split at hs
    · cases hs
    · cases hs; exact h.P hc
  | resumeP =>
    simp only [step, Option.bind_eq_bind, Option.bind_eq_some_iff] at hs
    obtain ⟨t, hc, hs⟩ := hs
    split at hs
    · cases hs; exact h.P hc
    · cases hs
  | callV =>
    simp only [step] at hs
    split at hs
    · cases hs; exact h.V (ha rfl)
    · cases hs
  | yield =>
    simp only [step, Option.bind_eq_bind, Option.bind_eq_some_iff] at hs
    obtain ⟨t, hc, hs⟩ := hs
    split at hs
    · cases hs
    · cases hs; exact h.yield hc
  | block =>
    simp only [step, Option.bind_eq_bind, Option.bind_eq_some_iff] at hs
    obtain ⟨t, hc, hs⟩ := hs
    split at hs
    · cases hs
    · rename_i ht
      cases hs; exact h.block hc (by simpa using ht)
  | wake t =>
    simp only [step] at hs
    split at hs
    · rename_i hw
      cases hs; exact h.wake hw.2.1 hw.2.2
    · cases hs
  | dispatch =>
    simp only [step] at hs
    split at hs
    · rename_i hw
      cases hs; exact h.sleep_of_idle hw.1
    · cases hs

omit [DecidableEq T] in
theorem start_inv {main : T} (h₀ : 0 ≤ initialValue) (h₁ : initialValue ≤ intMax) :
    Inv initialValue (start initialValue main) :=
  ⟨⟨h₀, by simp [start], fun hq => absurd rfl hq⟩, h₁, by simp [start], fun t ht => by cases ht⟩

/-- A run of a semaphore made with `initialValue` is correct in every state it
passes exactly when no `V` of it is called with `value` at `INT_MAX`. -/
theorem correct_iff (h₀ : 0 ≤ initialValue) (h₁ : initialValue ≤ intMax) {main : T}
    {acts : List (Act T)} (h : run step acts (start initialValue main) = some s) :
    (∀ n u, run step (acts.take n) (start initialValue main) = some u → Correct initialValue u) ↔
      Along step (fun a u => a matches .callV → u.value ≠ intMax) acts (start initialValue main) := by
  constructor
  · intro hc
    refine along_iff.mpr fun n a u ha hu hv hmax => ?_
    -- the `V` that overflows leaves a negative value
    obtain ⟨t, ht⟩ := run_take h (n + 1)
    have hcor := hc (n + 1) t ht
    rw [List.take_add_one, ha, Option.toList_some] at ht
    obtain ⟨u', hu', hs⟩ := run_snoc_eq_some.mp ht
    rw [hu] at hu'
    cases hu'
    cases a <;> simp only [reduceCtorEq] at hv
    simp only [step] at hs
    split at hs <;> cases hs
    have hneg : u.V.value = int32 (u.value + 1) := by
      unfold V
      cases u.queue <;> rfl
    have hn := hcor.nonneg
    rw [hneg, hmax] at hn
    exact absurd hn (by decide)
  · intro ha n u hu
    exact (run_invariant_along (I := Inv initialValue) (fun a s t hs hg => step_inv hs hg)
      (start_inv h₀ h₁) (ha.take n) hu).toCorrect

/-- Thread 0 takes the only unit; thread 7 sleeps in `P`, is woken by the `V` of
thread 0, and takes the unit when it is dispatched again. -/
theorem correct_handover :
    let acts : List (Act Nat) := [.wake 7, .callP, .yield, .callP, .callV, .yield, .resumeP]
    ∀ n u, run step (acts.take n) (start 1 0) = some u → Correct 1 u :=
  (correct_iff (by decide) (by decide) rfl).mpr (by decide)

/-- A semaphore made with `INT_MAX` goes negative at its first `V`. -/
theorem overflow_of_intMax :
    ¬ ∀ n u, run step ([.callV].take n) (start intMax (0 : Nat)) = some u → Correct intMax u := by
  intro h
  have hneg : ¬ 0 ≤ int32 (intMax + 1) := by decide
  exact hneg (h 1 _ rfl).nonneg

end SemSystem

end Nachos.Threads
