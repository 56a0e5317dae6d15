import Nachos.Framework.Run
import Nachos.Threads.Scheduler

/-!
# Who deletes a thread (threads/thread.cc, threads/scheduler.cc, userprog/exception.cc)

`Lifecycle` is the scheduler under any interleaving of `Thread::Fork`, `Yield`,
`Sleep` and `Finish` (which `Exit` calls), of `ReadyToRun` for a thread that
sleeps, and of the system call `Kill`, which calls `Scheduler::Remove`.

`threadToBeDestroyed` names one thread, and only a thread that has run before
deletes it when it is dispatched again. So a thread is lost when another one
finishes or is killed before that has happened.

* `Reclaimed`: what deleting is meant to keep to;
* `reclaimed_run`: it does in the runs in which a thread that has run before is
  dispatched between any two `Finish` or `Kill`, and in which a thread that was
  killed in its sleep is not woken up.
-/

namespace Nachos.Threads

open Nachos.Framework

/-- The scheduler, and what it does not know of: the threads on the queues of semaphores, locks and
conditions, whether the current thread is in the loop of `Thread::Sleep`, and whether
`List::RemoveElement` has left `last` of the ready list pointing to an element that it deleted. The
last two fields are not in the code: the threads that finished or were killed, and whether a thread
that had run before has been dispatched since the last of them. -/
structure Lifecycle where
  sched : Scheduler
  asleep : List ThreadId
  sleeping : Bool
  lastDeleted : Bool
  numThreads : Nat
  dead : List ThreadId
  resumed : Bool

namespace Lifecycle

/-- The main thread alone. -/
def start : Lifecycle := ⟨.start 0, [], false, false, 1, [], true⟩

/-- `Scheduler::ReadyToRun`: `List::Append` is undefined when it follows a pointer to a deleted
element. -/
def readyToRun (t : ThreadId) (s : Lifecycle) : Option Lifecycle :=
  if s.lastDeleted = true ∧ s.sched.readyList ≠ [] then none
  else some { s with sched := s.sched.readyToRun t, lastDeleted := false }

/-- `Scheduler::Run`. -/
def run (next : ThreadId) (s : Lifecycle) : Lifecycle :=
  { s with
    sched := s.sched.run next
    sleeping := false
    resumed := s.resumed || s.sched.started next }

/-- `new Thread` and `Thread::Fork`. -/
def fork (s : Lifecycle) : Option Lifecycle :=
  { s with numThreads := s.numThreads + 1 }.readyToRun s.numThreads

/-- `Thread::Yield`. -/
def yield (s : Lifecycle) : Option Lifecycle :=
  match s.sched.readyList with
  | [] => some s
  | next :: rest =>
    ({ s with sched := s.sched.takeNext next rest }.readyToRun s.sched.currentThread).map
      (Lifecycle.run next)

/-- `Thread::Sleep` on a queue, up to its loop. -/
def sleep (s : Lifecycle) : Lifecycle :=
  { s with
    sched := s.sched.setStatus s.sched.currentThread .blocked
    asleep := s.asleep ++ [s.sched.currentThread]
    sleeping := true }

/-- `V`, `Release`, `Signal` or `Broadcast` takes `t` off the queue and makes it ready. -/
def wake (t : ThreadId) (s : Lifecycle) : Option Lifecycle :=
  if t ∈ s.asleep then { s with asleep := s.asleep.erase t }.readyToRun t else none

/-- `Thread::Finish`, up to the loop of `Thread::Sleep`. -/
def finish (s : Lifecycle) : Lifecycle :=
  { s with
    sched := { s.sched with threadToBeDestroyed := some s.sched.currentThread }.setStatus
      s.sched.currentThread .blocked
    sleeping := true
    dead := s.dead ++ [s.sched.currentThread]
    resumed := false }

/-- The system call `Kill`, for the thread of another process that is there. -/
def kill (t : ThreadId) (s : Lifecycle) : Option Lifecycle :=
  if t < s.numThreads ∧ t ≠ s.sched.currentThread ∧ t ∉ s.dead then
    some { s with
      sched := s.sched.remove t
      lastDeleted := s.lastDeleted ||
        (s.sched.readyList.getLast? = some t && s.sched.readyList.head? ≠ some t)
      dead := s.dead ++ [t]
      resumed := false }
  else none

/-- The end of the loop of `Thread::Sleep`. -/
def dispatch (s : Lifecycle) : Option Lifecycle :=
  match s.sched.readyList with
  | [] => none
  | next :: rest => some ({ s with sched := s.sched.takeNext next rest }.run next)

/-- What happens next. -/
inductive Action
  | fork
  | yield
  | sleep
  | finish
  | kill (t : ThreadId)
  | wake (t : ThreadId)
  | dispatch
deriving DecidableEq, Repr

/-- In the loop of `Thread::Sleep`, only interrupts come. -/
def step : Action → Lifecycle → Option Lifecycle
  | .fork, s => if s.sleeping then none else s.fork
  | .yield, s => if s.sleeping then none else s.yield
  | .sleep, s => if s.sleeping then none else some s.sleep
  | .finish, s => if s.sleeping then none else some s.finish
  | .kill t, s => if s.sleeping then none else s.kill t
  | .wake t, s => s.wake t
  | .dispatch, s => if s.sleeping then s.dispatch else none

/-- What deleting threads keeps to: a thread is deleted at most once, not while it runs or is on the
ready list, and not before it is dead; and a dead thread is deleted, or is the one that
`threadToBeDestroyed` names. -/
structure Reclaimed (s : Lifecycle) : Prop where
  once : s.sched.destroyed.Nodup
  running : s.sched.currentThread ∉ s.sched.destroyed
  ready : ∀ t ∈ s.sched.readyList, t ∉ s.sched.destroyed
  dead : ∀ t ∈ s.sched.destroyed, t ∈ s.dead
  pending : ∀ t ∈ s.dead, t ∉ s.sched.destroyed → s.sched.threadToBeDestroyed = some t
  names : ∀ t, s.sched.threadToBeDestroyed = some t → t ∈ s.dead ∧ t ∉ s.sched.destroyed

/-- A run of the program test/kill.c: the child that it forks, lets run and kills is never deleted,
since the parent exits next. -/
theorem not_reclaimed_kill : ∃ s, Framework.run step
    [.fork, .yield, .yield, .kill 1, .finish] start = some s ∧ ¬ s.Reclaimed := by
  have heval : ((Framework.run step [.fork, .yield, .yield, .kill 1, .finish] start).any fun s =>
      1 ∈ s.dead ∧ 1 ∉ s.sched.destroyed ∧ s.sched.threadToBeDestroyed = some 0) = true := by
    decide +kernel
  obtain ⟨s, hs, hstate⟩ := (Option.any_eq_true _ _).mp heval
  obtain ⟨hdead, hnot, hnames⟩ := of_decide_eq_true hstate
  refine ⟨s, hs, fun h => ?_⟩
  have h1 := h.pending 1 hdead hnot
  rw [hnames] at h1
  cases h1

/-! ## Runs that do keep to it -/

/-- Before a `Finish` or a `Kill`, a thread that had run before has been dispatched since the last one;
and a thread that was killed is not woken up. -/
def Meets : Action → Lifecycle → Prop
  | .finish, s => s.resumed = true
  | .kill _, s => s.resumed = true
  | .wake t, s => t ∉ s.dead
  | _, _ => True

instance : (a : Action) → (s : Lifecycle) → Decidable (Meets a s)
  | .finish, s => inferInstanceAs (Decidable (s.resumed = true))
  | .kill _, s => inferInstanceAs (Decidable (s.resumed = true))
  | .wake t, s => inferInstanceAs (Decidable (t ∉ s.dead))
  | .fork, _ => isTrue trivial
  | .yield, _ => isTrue trivial
  | .sleep, _ => isTrue trivial
  | .dispatch, _ => isTrue trivial

variable {s u : Lifecycle} {t next : ThreadId} {rest : List ThreadId}

/-- What holds whichever thread is the current one. -/
structure Placed (s : Lifecycle) : Prop where
  born : ∀ t, t ∈ s.sched.readyList ∨ t ∈ s.asleep ∨ t ∈ s.dead → t < s.numThreads
  nodup : (s.sched.readyList ++ s.asleep).Nodup
  alive : ∀ t ∈ s.sched.readyList, t ∉ s.dead
  resumed : s.resumed = true → s.sched.threadToBeDestroyed = none
  once : s.sched.destroyed.Nodup
  dead : ∀ t ∈ s.sched.destroyed, t ∈ s.dead
  pending : ∀ t ∈ s.dead, t ∉ s.sched.destroyed → s.sched.threadToBeDestroyed = some t
  names : ∀ t, s.sched.threadToBeDestroyed = some t → t ∈ s.dead ∧ t ∉ s.sched.destroyed

/-- What every step that `Meets` the condition keeps. -/
structure Invariant (s : Lifecycle) : Prop extends Placed s where
  current : s.sched.currentThread < s.numThreads
  running : s.sched.currentThread ∉ s.sched.destroyed
  awake : s.sleeping = false → s.sched.currentThread ∉ s.sched.readyList ∧
    s.sched.currentThread ∉ s.asleep ∧ s.sched.currentThread ∉ s.dead

theorem Invariant.reclaimed (h : Invariant s) : s.Reclaimed :=
  ⟨h.once, h.running, fun t ht hd => h.alive t ht (h.dead t hd), h.dead, h.pending, h.names⟩

theorem readyToRun_eq_some (h : s.readyToRun t = some u) :
    u = { s with sched := s.sched.readyToRun t, lastDeleted := false } := by
  unfold readyToRun at h
  split at h
  · cases h
  · exact (Option.some.inj h).symm

/-- A thread that is nowhere, and not dead, becomes ready. -/
theorem Placed.readyToRun (h : Placed s) (hready : t ∉ s.sched.readyList) (hasleep : t ∉ s.asleep)
    (hdead : t ∉ s.dead) (hborn : t < s.numThreads) (hu : s.readyToRun t = some u) : Placed u := by
  obtain rfl := readyToRun_eq_some hu
  have hmem (t' : ThreadId) : t' ∈ s.sched.readyList ++ [t] ↔ t' ∈ s.sched.readyList ∨ t' = t := by
    simp
  refine ⟨fun t' ht' => ?_, ?_, fun t' ht' => ?_, h.resumed, h.once, h.dead, h.pending, h.names⟩
  · obtain ht' | ht' := ht'
    · obtain ht' | rfl := (hmem t').mp ht'
      · exact h.born t' (.inl ht')
      · exact hborn
    · exact h.born t' (.inr ht')
  · have hperm : (s.sched.readyList ++ [t] ++ s.asleep).Perm (t :: (s.sched.readyList ++ s.asleep)) := by
      rw [List.append_assoc]
      exact List.perm_middle
    refine hperm.nodup_iff.mpr (List.nodup_cons.mpr ⟨?_, h.nodup⟩)
    rw [List.mem_append, not_or]
    exact ⟨hready, hasleep⟩
  · obtain ht' | rfl := (hmem t').mp ht'
    · exact h.alive t' ht'
    · exact hdead

section Run

variable (s next)

@[simp] theorem run_readyList : (s.run next).sched.readyList = s.sched.readyList := by
  unfold Lifecycle.run Scheduler.run Scheduler.reap
  dsimp only
  split
  · split <;> rfl
  · rfl

@[simp] theorem run_currentThread : (s.run next).sched.currentThread = next := by
  unfold Lifecycle.run Scheduler.run Scheduler.reap
  dsimp only
  split
  · split <;> rfl
  · rfl

theorem run_destroyed_of_started (h : s.sched.started next = true) :
    (s.run next).sched.destroyed = s.sched.destroyed ++ s.sched.threadToBeDestroyed.toList ∧
      (s.run next).sched.threadToBeDestroyed = none := by
  have hstarted : (s.sched.setStatus next .running).started next = true := h
  cases ht : s.sched.threadToBeDestroyed <;>
    simp [Lifecycle.run, Scheduler.run, Scheduler.reap, Scheduler.setStatus, h, ht]

theorem run_destroyed_of_not_started (h : s.sched.started next = false) :
    (s.run next).sched.destroyed = s.sched.destroyed ∧
      (s.run next).sched.threadToBeDestroyed = s.sched.threadToBeDestroyed ∧
      (s.run next).resumed = s.resumed := by
  simp [Lifecycle.run, Scheduler.run, Scheduler.setStatus, h]

end Run

/-- A thread is dispatched that was taken off the ready list. -/
theorem Placed.run (h : Placed s) (hready : next ∉ s.sched.readyList) (hasleep : next ∉ s.asleep)
    (hdead : next ∉ s.dead) (hborn : next < s.numThreads) : Invariant (s.run next) := by
  have hnot : next ∉ s.sched.destroyed := fun hd => hdead (h.dead next hd)
  have hawake : (s.run next).sleeping = false → (s.run next).sched.currentThread ∉
      (s.run next).sched.readyList ∧ (s.run next).sched.currentThread ∉ (s.run next).asleep ∧
      (s.run next).sched.currentThread ∉ (s.run next).dead := fun _ => by
    rw [run_currentThread, run_readyList]
    exact ⟨hready, hasleep, hdead⟩
  have hborn' : (s.run next).sched.currentThread < (s.run next).numThreads := by
    rw [run_currentThread]
    exact hborn
  have hlt (t : ThreadId) (ht : t ∈ (s.run next).sched.readyList ∨ t ∈ (s.run next).asleep ∨
      t ∈ (s.run next).dead) : t < (s.run next).numThreads := by
    rw [run_readyList] at ht
    exact h.born t ht
  have hnodup : ((s.run next).sched.readyList ++ (s.run next).asleep).Nodup := by
    rw [run_readyList]
    exact h.nodup
  have halive (t : ThreadId) (ht : t ∈ (s.run next).sched.readyList) : t ∉ (s.run next).dead := by
    rw [run_readyList] at ht
    exact h.alive t ht
  cases hstarted : s.sched.started next with
  | false =>
    -- the new thread begins in `ThreadRoot`
    obtain ⟨hdestroyed, hnames, hresumed⟩ := run_destroyed_of_not_started s next hstarted
    refine ⟨⟨hlt, hnodup, halive, ?_, ?_, ?_, ?_, ?_⟩, hborn', ?_, hawake⟩
    · rw [hresumed, hnames]
      exact h.resumed
    · rw [hdestroyed]
      exact h.once
    · rw [hdestroyed]
      exact h.dead
    · rw [hdestroyed, hnames]
      exact h.pending
    · rw [hdestroyed, hnames]
      exact h.names
    · rw [run_currentThread, hdestroyed]
      exact hnot
  | true =>
    obtain ⟨hdestroyed, hnone⟩ := run_destroyed_of_started s next hstarted
    have hmem (t : ThreadId) : t ∈ (s.run next).sched.destroyed ↔
        t ∈ s.sched.destroyed ∨ s.sched.threadToBeDestroyed = some t := by
      rw [hdestroyed]
      simp
    refine ⟨⟨hlt, hnodup, halive, fun _ => hnone, ?_, fun t ht => ?_, fun t ht hd => ?_,
      fun t ht => by simp [hnone] at ht⟩, hborn', ?_, hawake⟩
    · rw [hdestroyed]
      cases ht : s.sched.threadToBeDestroyed with
      | none => simpa using h.once
      | some t =>
        refine List.nodup_append.mpr ⟨h.once, List.nodup_singleton t, fun a ha b hb hab => ?_⟩
        obtain rfl := List.mem_singleton.mp hb
        exact (h.names b ht).2 (hab ▸ ha)
    · obtain ht | ht := (hmem t).mp ht
      · exact h.dead t ht
      · exact (h.names t ht).1
    · rw [hmem, not_or] at hd
      exact absurd (h.pending t ht hd.1) hd.2
    · rw [run_currentThread, hmem, not_or]
      exact ⟨hnot, fun ht => hdead (h.names next ht).1⟩

/-- The first thread of the ready list is taken off it. -/
theorem Placed.takeNext (h : Placed s) (hlist : s.sched.readyList = next :: rest) :
    Placed { s with sched := s.sched.takeNext next rest } ∧ next ∉ rest ∧ next ∉ s.asleep ∧
      next ∉ s.dead ∧ next < s.numThreads := by
  have hnodup := h.nodup
  rw [hlist, List.cons_append, List.nodup_cons, List.mem_append, not_or] at hnodup
  have hsub (t : ThreadId) (ht : t ∈ rest) : t ∈ s.sched.readyList := by
    rw [hlist]
    exact List.mem_cons_of_mem next ht
  have hnext : next ∈ s.sched.readyList := by simp [hlist]
  exact ⟨⟨fun t ht => h.born t (ht.imp_left (hsub t)), hnodup.2, fun t ht => h.alive t (hsub t ht),
    h.resumed, h.once, h.dead, h.pending, h.names⟩, hnodup.1.1, hnodup.1.2, h.alive next hnext,
    h.born next (.inl hnext)⟩

theorem Invariant.yield (h : Invariant s) (hawake : s.sleeping = false) (hu : s.yield = some u) :
    Invariant u := by
  unfold Lifecycle.yield at hu
  split at hu
  · exact Option.some.inj hu ▸ h
  next next rest hlist =>
    obtain ⟨v, hv, rfl⟩ := Option.map_eq_some_iff.mp hu
    obtain ⟨hplaced, hrest, hasleep, hdead, hborn⟩ := h.toPlaced.takeNext hlist
    obtain ⟨hready', hasleep', hdead'⟩ := h.awake hawake
    rw [hlist, List.mem_cons, not_or] at hready'
    have hv' := hplaced.readyToRun hready'.2 hasleep' hdead' h.current hv
    obtain rfl := readyToRun_eq_some hv
    refine hv'.run ?_ hasleep hdead hborn
    show next ∉ rest ++ [s.sched.currentThread]
    simp [hrest, Ne.symm hready'.1]

theorem Invariant.dispatch (h : Invariant s) (hu : s.dispatch = some u) : Invariant u := by
  unfold Lifecycle.dispatch at hu
  split at hu
  · cases hu
  next next rest hlist =>
    obtain ⟨hplaced, hrest, hasleep, hdead, hborn⟩ := h.toPlaced.takeNext hlist
    exact Option.some.inj hu ▸ hplaced.run hrest hasleep hdead hborn

theorem Invariant.fork (h : Invariant s) (hu : s.fork = some u) : Invariant u := by
  have hnew {t : ThreadId} (ht : t ∈ s.sched.readyList ∨ t ∈ s.asleep ∨ t ∈ s.dead) :
      t ≠ s.numThreads := (h.born t ht).ne
  have hplaced : Placed { s with numThreads := s.numThreads + 1 } :=
    ⟨fun t ht => Nat.lt_succ_of_lt (h.born t ht), h.nodup, h.alive, h.resumed, h.once, h.dead,
      h.pending, h.names⟩
  have hu' := hplaced.readyToRun (fun ht => hnew (.inl ht) rfl) (fun ht => hnew (.inr (.inl ht)) rfl)
    (fun ht => hnew (.inr (.inr ht)) rfl) (Nat.lt_succ_self _) hu
  obtain rfl := readyToRun_eq_some hu
  refine ⟨hu', Nat.lt_succ_of_lt h.current, h.running, fun hawake => ?_⟩
  obtain ⟨hready, hasleep, hdead⟩ := h.awake hawake
  refine ⟨?_, hasleep, hdead⟩
  show s.sched.currentThread ∉ s.sched.readyList ++ [s.numThreads]
  simp [hready, h.current.ne]

theorem Invariant.sleep (h : Invariant s) (hawake : s.sleeping = false) : Invariant s.sleep := by
  obtain ⟨hready, hasleep, hdead⟩ := h.awake hawake
  refine ⟨⟨fun t ht => ?_, ?_, h.alive, h.resumed, h.once, h.dead, h.pending, h.names⟩, h.current,
    h.running, (nomatch ·)⟩
  · obtain ht | ht | ht := ht
    · exact h.born t (.inl ht)
    · obtain ht | ht := List.mem_append.mp ht
      · exact h.born t (.inr (.inl ht))
      · exact List.mem_singleton.mp ht ▸ h.current
    · exact h.born t (.inr (.inr ht))
  · show (s.sched.readyList ++ (s.asleep ++ [s.sched.currentThread])).Nodup
    rw [← List.append_assoc]
    refine List.nodup_append.mpr ⟨h.nodup, List.nodup_singleton _, fun a ha b hb hab => ?_⟩
    obtain rfl := List.mem_singleton.mp hb
    subst hab
    exact (List.mem_append.mp ha).elim hready hasleep

theorem Invariant.wake (h : Invariant s) (hmeets : t ∉ s.dead) (hu : s.wake t = some u) :
    Invariant u := by
  unfold Lifecycle.wake at hu
  split at hu
  next ht =>
    have hsub : (s.asleep.erase t).Sublist s.asleep := List.erase_sublist
    have hready : t ∉ s.sched.readyList := fun hr => (List.nodup_append.mp h.nodup).2.2 t hr t ht rfl
    have hasleep : t ∉ s.asleep.erase t :=
      (List.nodup_append.mp h.nodup).2.1.not_mem_erase
    have hplaced : Placed { s with asleep := s.asleep.erase t } :=
      ⟨fun t' ht' => h.born t' (ht'.imp_right (·.imp_left fun h => hsub.subset h)),
        h.nodup.sublist ((List.Sublist.refl _).append hsub), h.alive, h.resumed, h.once, h.dead,
        h.pending, h.names⟩
    have hu' := hplaced.readyToRun hready hasleep hmeets (h.born t (.inr (.inl ht))) hu
    obtain rfl := readyToRun_eq_some hu
    refine ⟨hu', h.current, h.running, fun hawake => ?_⟩
    obtain ⟨hready', hasleep', hdead'⟩ := h.awake hawake
    refine ⟨?_, fun h => hasleep' (hsub.subset h), hdead'⟩
    show s.sched.currentThread ∉ s.sched.readyList ++ [t]
    have hne : s.sched.currentThread ≠ t := fun he => hasleep' (he ▸ ht)
    simp [hready', hne]
  · cases hu

/-- A thread dies when `threadToBeDestroyed` names no other. -/
theorem Invariant.dies (h : Invariant s) (hresumed : s.resumed = true) (hdead : t ∉ s.dead)
    (hdead' : u.dead = s.dead ++ [t]) (hnames : u.sched.threadToBeDestroyed = some t)
    (hdestroyed : u.sched.destroyed = s.sched.destroyed) :
    (∀ t' ∈ u.sched.destroyed, t' ∈ u.dead) ∧
    (∀ t' ∈ u.dead, t' ∉ u.sched.destroyed → u.sched.threadToBeDestroyed = some t') ∧
    (∀ t', u.sched.threadToBeDestroyed = some t' → t' ∈ u.dead ∧ t' ∉ u.sched.destroyed) := by
  rw [hdead', hnames, hdestroyed]
  refine ⟨fun t' ht' => List.mem_append_left _ (h.dead t' ht'), fun t' ht' hd => ?_, fun t' ht' => ?_⟩
  · obtain ht' | ht' := List.mem_append.mp ht'
    · have hnone := h.pending t' ht' hd
      rw [h.resumed hresumed] at hnone
      cases hnone
    · rw [List.mem_singleton.mp ht']
  · obtain rfl := Option.some.inj ht'
    exact ⟨by simp, fun hd => hdead (h.dead t hd)⟩

theorem Invariant.finish (h : Invariant s) (hawake : s.sleeping = false) (hmeets : s.resumed = true) :
    Invariant s.finish := by
  obtain ⟨hready, hasleep, hdead⟩ := h.awake hawake
  obtain ⟨h₁, h₂, h₃⟩ := h.dies (u := s.finish) hmeets hdead rfl rfl rfl
  refine ⟨⟨fun t ht => ?_, h.nodup, fun t ht hd => ?_, (nomatch ·), h.once, h₁, h₂, h₃⟩,
    h.current, h.running, (nomatch ·)⟩
  · obtain ht | ht | ht := ht
    · exact h.born t (.inl ht)
    · exact h.born t (.inr (.inl ht))
    · obtain ht | ht := List.mem_append.mp ht
      · exact h.born t (.inr (.inr ht))
      · exact List.mem_singleton.mp ht ▸ h.current
  · obtain hd | hd := List.mem_append.mp hd
    · exact h.alive t ht hd
    · exact hready (List.mem_singleton.mp hd ▸ ht)

theorem Invariant.kill (h : Invariant s) (hawake : s.sleeping = false) (hmeets : s.resumed = true)
    (hu : s.kill t = some u) : Invariant u := by
  unfold Lifecycle.kill at hu
  split at hu
  next ht =>
    obtain ⟨hborn, hne, hdead⟩ := ht
    obtain rfl := Option.some.inj hu
    obtain ⟨h₁, h₂, h₃⟩ := h.dies (u := { s with
      sched := s.sched.remove t
      lastDeleted := _
      dead := s.dead ++ [t]
      resumed := false }) hmeets hdead rfl rfl rfl
    obtain ⟨hready', hasleep', hdead'⟩ := h.awake hawake
    have hsub : (s.sched.readyList.erase t).Sublist s.sched.readyList := List.erase_sublist
    refine ⟨⟨fun t' ht' => ?_, h.nodup.sublist (hsub.append (List.Sublist.refl _)), fun t' ht' hd => ?_,
      (nomatch ·), h.once, h₁, h₂, h₃⟩, h.current, h.running, fun _ => ⟨fun hr =>
      hready' (hsub.subset hr), hasleep', ?_⟩⟩
    · obtain ht' | ht' | ht' := ht'
      · exact h.born t' (.inl (hsub.subset ht'))
      · exact h.born t' (.inr (.inl ht'))
      · obtain ht' | ht' := List.mem_append.mp ht'
        · exact h.born t' (.inr (.inr ht'))
        · exact List.mem_singleton.mp ht' ▸ hborn
    · obtain hd | hd := List.mem_append.mp hd
      · exact h.alive t' (hsub.subset ht') hd
      · obtain rfl := List.mem_singleton.mp hd
        exact (List.nodup_append.mp h.nodup).1.not_mem_erase ht'
    · show s.sched.currentThread ∉ s.dead ++ [t]
      simp [hdead', Ne.symm hne]
  · cases hu

theorem Invariant.step {a : Action} (h : Invariant s) (hmeets : Meets a s)
    (hu : Lifecycle.step a s = some u) : Invariant u := by
  cases hsleeping : s.sleeping with
  | false =>
    cases a with
    | fork => exact h.fork (by simpa [Lifecycle.step, hsleeping] using hu)
    | yield => exact h.yield hsleeping (by simpa [Lifecycle.step, hsleeping] using hu)
    | sleep =>
      simp only [Lifecycle.step, hsleeping, Bool.false_eq_true, if_false, Option.some.injEq] at hu
      exact hu ▸ h.sleep hsleeping
    | finish =>
      simp only [Lifecycle.step, hsleeping, Bool.false_eq_true, if_false, Option.some.injEq] at hu
      exact hu ▸ h.finish hsleeping hmeets
    | kill t => exact h.kill hsleeping hmeets (by simpa [Lifecycle.step, hsleeping] using hu)
    | wake t => exact h.wake hmeets hu
    | dispatch => simp [Lifecycle.step, hsleeping] at hu
  | true =>
    cases a with
    | wake t => exact h.wake hmeets hu
    | dispatch => exact h.dispatch (by simpa [Lifecycle.step, hsleeping] using hu)
    | fork | yield | sleep | finish | kill _ => simp [Lifecycle.step, hsleeping] at hu

theorem start_invariant : Invariant start := by
  refine ⟨⟨?_, ?_, ?_, ?_, ?_, ?_, ?_, ?_⟩, ?_, ?_, ?_⟩ <;> simp [start, Scheduler.start]

/-- In every run in which each `Finish` and `Kill` finds that a thread that had run before has been
dispatched since the one before it, and no killed thread is woken up: no thread is deleted twice,
while it runs, or while it is on the ready list, and a thread that finished or was killed is
deleted, or is the one in `threadToBeDestroyed`. -/
theorem reclaimed_run {as : List Action} (h : Framework.run Lifecycle.step as start = some s)
    (hmeets : Along Lifecycle.step Meets as start) : s.Reclaimed :=
  (run_invariant_along (fun _ _ _ hs hm hstep => Invariant.step hs hm hstep) start_invariant hmeets
    h).reclaimed

/-- The same program with a third thread, which the parent yields to before it exits. -/
theorem reclaimed_run_kill : ∃ s, Framework.run Lifecycle.step
    [.fork, .fork, .yield, .yield, .yield, .kill 1, .yield, .yield, .finish] start = some s ∧
    s.dead = [1, 0] ∧ s.sched.destroyed = [1] ∧ s.Reclaimed := by
  have heval : Along Lifecycle.step Meets
        [.fork, .fork, .yield, .yield, .yield, .kill 1, .yield, .yield, .finish] start ∧
      ((Framework.run Lifecycle.step
        [.fork, .fork, .yield, .yield, .yield, .kill 1, .yield, .yield, .finish] start).any fun s =>
        s.dead = [1, 0] ∧ s.sched.destroyed = [1]) = true := by
    decide +kernel
  obtain ⟨s, hs, hstate⟩ := (Option.any_eq_true _ _).mp heval.2
  obtain ⟨hdead, hdestroyed⟩ := of_decide_eq_true hstate
  exact ⟨s, hs, hdead, hdestroyed, reclaimed_run hs heval.1⟩

end Lifecycle

end Nachos.Threads
