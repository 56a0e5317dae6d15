import Nachos.Threads.Scheduler
import Nachos.Threads.Synch

/-!
# Threads on one processor (threads/thread.cc, threads/synch.cc, machine/interrupt.cc)

`System` puts the scheduler under the threads of `Threads/Synch.lean`. What a
thread has still to do inside the kernel is a stack of `Frame`s above its own
code. Only the current thread runs; time passes where interrupts are turned on
(`Frame.tick`), and there, and while `Sleep` finds no ready thread, an `Input`
tells which handlers run and whether the timer asks for a `Yield`.

* `step_core`: what a step does to the objects and the threads is a step of an
  interleaving;
* `run_core`: so is what a run does.
-/

namespace Nachos.Threads

open Nachos.Framework Nachos.Machine

/-- What a thread has to do before it goes on with its own code. -/
inductive Frame
  /-- `interrupt->SetLevel(now)`. -/
  | setLevel (now : IntStatus)
  /-- `Interrupt::OneTick`. -/
  | tick
  /-- `Thread::Yield`. -/
  | yield
  /-- The loop of `Thread::Sleep`. -/
  | sleeping
  /-- The loop of `P` or `Acquire` after `Sleep`, or the call of `Acquire` in `Wait`. -/
  | resume
deriving DecidableEq, Repr

/-- The interrupts that are due at a tick, and whether the timer is among them. -/
structure Input (Ev : Type) where
  events : List Ev
  preempt : Bool
deriving DecidableEq, Repr

/-- The whole system. `found` is not in the code: the interrupt level at the last call a thread
made. -/
structure System (S L C σ Loc : Type) where
  core : Core S L C σ Loc
  sched : Scheduler
  frames : ThreadId → List Frame
  found : ThreadId → IntStatus

namespace System

variable {S L C σ Loc Ev : Type} [DecidableEq S] [DecidableEq L] [DecidableEq C]

/-- The main thread, in its own code; the stack of a thread that is not forked yet is what
`Thread::StackAllocate` will make it, with `ThreadRoot` to begin with. -/
def start (core : Core S L C σ Loc) (main : ThreadId) : System S L C σ Loc where
  core := core
  sched := .start main
  frames := Function.update (fun _ => [.setLevel .intOn]) main []
  found := fun _ => .intOn

def setFrames (t : ThreadId) (fs : List Frame) (s : System S L C σ Loc) : System S L C σ Loc :=
  { s with frames := Function.update s.frames t fs }

def setLevel (now : IntStatus) (s : System S L C σ Loc) : System S L C σ Loc :=
  { s with sched := { s.sched with level := now } }

/-- The calls of `ReadyToRun`. -/
def readyAll (ts : List ThreadId) (s : System S L C σ Loc) : System S L C σ Loc :=
  { s with sched := s.sched.readyAll ts }

/-- `Thread::Sleep`, until its loop; `rest` is what comes after it. -/
def sleep (t : ThreadId) (rest : List Frame) (s : System S L C σ Loc) : System S L C σ Loc :=
  { s with sched := s.sched.setStatus t .blocked }.setFrames t (.sleeping :: rest)

/-- What a call, made with interrupts at `oldLevel`, leaves the thread to do after its critical
section. -/
def leaveCall (t : ThreadId) (oldLevel : IntStatus) (after : After) (s : System S L C σ Loc) :
    System S L C σ Loc :=
  match after with
  | .returns => (s.setLevel .intOff).setFrames t [.setLevel oldLevel]
  | .sleeps => (s.setLevel .intOff).sleep t [.resume, .setLevel oldLevel]
  | .yields => s.setFrames t [.yield]
  | .setsLevel now => { s with found := Function.update s.found t now }.setFrames t [.setLevel now]
  | .finishes =>
    let s := s.setLevel .intOff
    { s with sched := { s.sched with threadToBeDestroyed := some t } }.sleep t []

/-- The current thread runs its own code, and its next call up to the end of the critical
section. -/
def userStep (p : Program S L C σ Loc Ev) (t : ThreadId) (s : System S L C σ Loc) :
    Option (System S L C σ Loc) :=
  (s.core.step p t).map fun r =>
    let oldLevel := s.sched.level
    { s with core := r.2, found := Function.update s.found t oldLevel }.readyAll r.1.ready
      |>.leaveCall t oldLevel r.1.after

/-- The end of a round of the loop that a thread slept in; `rest` is what comes after the loop. -/
def leaveLoop (t : ThreadId) (after : After) (rest : List Frame) (s : System S L C σ Loc) :
    System S L C σ Loc :=
  match after with
  | .sleeps => s.sleep t (.resume :: rest)
  | _ => s.setFrames t rest

/-- The current thread goes on after a `Sleep`: with the loop it slept in, or in `Wait` with a call
of `Acquire`, which turns interrupts off and restores the level too. -/
def resumeStep (p : Program S L C σ Loc Ev) (t : ThreadId) (rest : List Frame)
    (s : System S L C σ Loc) : Option (System S L C σ Loc) :=
  match s.core.pc t with
  | .user _ => none
  | .inWait .. => (s.core.step p t).map fun r =>
    ({ s with core := r.2 }.readyAll r.1.ready |>.setLevel .intOff).leaveLoop t r.1.after
      (.setLevel s.sched.level :: rest)
  | _ => (s.core.step p t).map fun r =>
    ({ s with core := r.2 }.readyAll r.1.ready).leaveLoop t r.1.after rest

/-- The handlers of the interrupts that are due. -/
def handle (p : Program S L C σ Loc Ev) : List Ev → System S L C σ Loc →
    Option (System S L C σ Loc)
  | [], s => some s
  | e :: es, s => do
    let (ready, core) ← s.core.interrupt p e
    handle p es ({ s with core := core }.readyAll ready)

/-- `Scheduler::Run` from the current thread, which leaves it with `rest` to do. -/
def run (t : ThreadId) (rest : List Frame) (next : ThreadId) (s : System S L C σ Loc) :
    System S L C σ Loc :=
  { s.setFrames t rest with sched := s.sched.run next }

/-- `Interrupt::SetLevel`, up to the tick if there is one. -/
def levelStep (t : ThreadId) (now : IntStatus) (rest : List Frame) (s : System S L C σ Loc) :
    System S L C σ Loc :=
  if now = .intOn ∧ s.sched.level = .intOff then (s.setLevel now).setFrames t (.tick :: rest)
  else (s.setLevel now).setFrames t rest

/-- `Interrupt::OneTick`. -/
def tickStep (p : Program S L C σ Loc Ev) (i : Input Ev) (t : ThreadId) (rest : List Frame)
    (s : System S L C σ Loc) : Option (System S L C σ Loc) :=
  ((s.setLevel .intOff).handle p i.events).map fun s =>
    (s.setLevel .intOn).setFrames t (if i.preempt then .yield :: rest else rest)

/-- `Thread::Yield`. -/
def yieldStep (t : ThreadId) (rest : List Frame) (s : System S L C σ Loc) : System S L C σ Loc :=
  let oldLevel := s.sched.level
  let s := s.setLevel .intOff
  match s.sched.readyList with
  | [] => s.setFrames t (.setLevel oldLevel :: rest)
  | next :: others =>
    { s with sched := (s.sched.takeNext next others).readyToRun t }.run t
      (.setLevel oldLevel :: rest) next

/-- The loop of `Thread::Sleep`; `Interrupt::Idle` calls the handlers of what is due next. -/
def sleepStep (p : Program S L C σ Loc Ev) (i : Input Ev) (t : ThreadId) (rest : List Frame)
    (s : System S L C σ Loc) : Option (System S L C σ Loc) :=
  match s.sched.readyList with
  | [] => s.handle p i.events
  | next :: others => some ({ s with sched := s.sched.takeNext next others }.run t rest next)

/-- What the current thread does next. -/
def step (p : Program S L C σ Loc Ev) (i : Input Ev) (s : System S L C σ Loc) :
    Option (System S L C σ Loc) :=
  match s.frames s.sched.currentThread with
  | [] => s.userStep p s.sched.currentThread
  | .resume :: rest => s.resumeStep p s.sched.currentThread rest
  | .setLevel now :: rest => some (s.levelStep s.sched.currentThread now rest)
  | .tick :: rest => s.tickStep p i s.sched.currentThread rest
  | .yield :: rest => some (s.yieldStep s.sched.currentThread rest)
  | .sleeping :: rest => s.sleepStep p i s.sched.currentThread rest

/-! ## The interleaving -/

variable {p : Program S L C σ Loc Ev} {s u : System S L C σ Loc} {t : ThreadId}

section Fields

omit [DecidableEq S] [DecidableEq L] [DecidableEq C]

variable (s t) (fs : List Frame) (now : IntStatus) (ts : List ThreadId)

@[simp] theorem setFrames_core : (s.setFrames t fs).core = s.core := rfl
@[simp] theorem setFrames_sched : (s.setFrames t fs).sched = s.sched := rfl
@[simp] theorem setFrames_frames : (s.setFrames t fs).frames = Function.update s.frames t fs := rfl
@[simp] theorem setFrames_found : (s.setFrames t fs).found = s.found := rfl
@[simp] theorem setLevel_core : (s.setLevel now).core = s.core := rfl
@[simp] theorem setLevel_sched : (s.setLevel now).sched = { s.sched with level := now } := rfl
@[simp] theorem setLevel_frames : (s.setLevel now).frames = s.frames := rfl
@[simp] theorem setLevel_found : (s.setLevel now).found = s.found := rfl
@[simp] theorem readyAll_core : (s.readyAll ts).core = s.core := rfl
@[simp] theorem readyAll_sched : (s.readyAll ts).sched = s.sched.readyAll ts := rfl
@[simp] theorem readyAll_frames : (s.readyAll ts).frames = s.frames := rfl
@[simp] theorem readyAll_found : (s.readyAll ts).found = s.found := rfl
@[simp] theorem sleep_core : (s.sleep t fs).core = s.core := rfl
@[simp] theorem sleep_sched : (s.sleep t fs).sched = s.sched.setStatus t .blocked := rfl
@[simp] theorem sleep_frames :
    (s.sleep t fs).frames = Function.update s.frames t (.sleeping :: fs) := rfl
@[simp] theorem sleep_found : (s.sleep t fs).found = s.found := rfl
@[simp] theorem switch_core (next : ThreadId) : (s.run t fs next).core = s.core := rfl

@[simp] theorem leaveCall_core (oldLevel : IntStatus) (after : After) :
    (s.leaveCall t oldLevel after).core = s.core := by
  cases after <;> rfl

@[simp] theorem leaveLoop_core (after : After) (rest : List Frame) :
    (s.leaveLoop t after rest).core = s.core := by
  cases after <;> rfl

@[simp] theorem levelStep_core (rest : List Frame) :
    (s.levelStep t now rest).core = s.core := by
  unfold levelStep
  split <;> rfl

@[simp] theorem yieldStep_core (rest : List Frame) : (s.yieldStep t rest).core = s.core := by
  unfold yieldStep
  dsimp only
  split <;> rfl

end Fields

theorem userStep_core (h : s.userStep p t = some u) :
    ∃ e, s.core.step p t = some (e, u.core) := by
  obtain ⟨⟨e, core⟩, hstep, rfl⟩ := Option.map_eq_some_iff.mp h
  exact ⟨e, by simpa using hstep⟩

theorem resumeStep_core {rest : List Frame} (h : s.resumeStep p t rest = some u) :
    ∃ e, s.core.step p t = some (e, u.core) := by
  unfold resumeStep at h
  split at h
  · cases h
  all_goals
    obtain ⟨⟨e, core⟩, hstep, rfl⟩ := Option.map_eq_some_iff.mp h
    exact ⟨e, by simpa using hstep⟩

theorem handle_core {es : List Ev} (h : s.handle p es = some u) :
    Framework.run (Core.next p) (es.map .interrupt) s.core = some u.core := by
  induction es generalizing s with
  | nil => rw [← Option.some.inj h]; rfl
  | cons e es ih =>
    obtain ⟨⟨ts, core⟩, hint, h⟩ := Option.bind_eq_some_iff.mp h
    refine run_cons_eq_some.mpr ⟨core, ?_, ih h⟩
    simp [Core.next, hint]

/-- What a step does to the objects and the threads is some moves of an interleaving: none, a step
of the current thread, or the interrupts that are due. -/
theorem step_core {i : Input Ev} (h : s.step p i = some u) :
    ∃ ms, Framework.run (Core.next p) ms s.core = some u.core := by
  have hthread {t : ThreadId} (h : ∃ e, s.core.step p t = some (e, u.core)) :
      ∃ ms, Framework.run (Core.next p) ms s.core = some u.core := by
    obtain ⟨e, hstep⟩ := h
    exact ⟨[.thread t], run_cons_eq_some.mpr ⟨u.core, by simp [Core.next, hstep], rfl⟩⟩
  unfold step at h
  split at h
  · exact hthread (userStep_core h)
  · exact hthread (resumeStep_core h)
  · exact ⟨[], by simp [← Option.some.inj h]⟩
  · obtain ⟨v, hv, rfl⟩ := Option.map_eq_some_iff.mp h
    exact ⟨_, by simpa using handle_core hv⟩
  · exact ⟨[], by simp [← Option.some.inj h]⟩
  · unfold sleepStep at h
    split at h
    · exact ⟨_, handle_core h⟩
    · exact ⟨[], by simp [← Option.some.inj h]⟩

/-- So a run of the system is a run of an interleaving. -/
theorem run_core {is : List (Input Ev)} (h : Framework.run (step p) is s = some u) :
    ∃ ms, Framework.run (Core.next p) ms s.core = some u.core := by
  induction is generalizing s with
  | nil => exact ⟨[], congrArg (Option.map System.core) h⟩
  | cons i is ih =>
    obtain ⟨v, hv, h⟩ := run_cons_eq_some.mp h
    obtain ⟨ms, hms⟩ := step_core hv
    obtain ⟨ms', hms'⟩ := ih h
    exact ⟨ms ++ ms', by rw [run_append, hms, Option.bind_some, hms']⟩

end System

end Nachos.Threads
