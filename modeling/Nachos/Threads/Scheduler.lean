import Nachos.Machine.Interrupt
import Nachos.Threads.Synch

/-!
# The scheduler (threads/scheduler.cc, threads/thread.cc)

`Scheduler` is the ready list with the globals the scheduler works on:
`currentThread`, the status of each thread, `threadToBeDestroyed` and the
interrupt level. `SWITCH` goes on where the next thread called it, after which
`Scheduler::Run` deletes `threadToBeDestroyed`; but a thread that is dispatched
for the first time starts at `ThreadRoot` instead. `started` tells the two
apart.
-/

namespace Nachos.Threads

open Nachos.Machine

/-- `enum ThreadStatus`. -/
inductive ThreadStatus
  | justCreated
  | running
  | ready
  | blocked
deriving DecidableEq, Repr

/-- `class Scheduler` and the globals. The last four fields are not in the code: the threads put on
and taken off the ready list, in order, the threads deleted, and whether some `SWITCH` happened
with interrupts on. -/
structure Scheduler where
  currentThread : ThreadId
  readyList : List ThreadId
  status : ThreadId → ThreadStatus
  threadToBeDestroyed : Option ThreadId
  level : IntStatus
  started : ThreadId → Bool
  entered : List ThreadId
  left : List ThreadId
  destroyed : List ThreadId
  switchedOn : Bool

namespace Scheduler

/-- The main thread alone. -/
def start (main : ThreadId) : Scheduler where
  currentThread := main
  readyList := []
  status := Function.update (fun _ => .justCreated) main .running
  threadToBeDestroyed := none
  level := .intOn
  started := fun t => t == main
  entered := []
  left := []
  destroyed := []
  switchedOn := false

/-- `Thread::setStatus`. -/
def setStatus (t : ThreadId) (v : ThreadStatus) (s : Scheduler) : Scheduler :=
  { s with status := Function.update s.status t v }

/-- `Scheduler::ReadyToRun`. -/
def readyToRun (t : ThreadId) (s : Scheduler) : Scheduler :=
  { s.setStatus t .ready with
    readyList := s.readyList ++ [t]
    entered := s.entered ++ [t] }

/-- `Scheduler::ReadyToRun`, for each of the threads. -/
def readyAll (ts : List ThreadId) (s : Scheduler) : Scheduler := ts.foldl (fun s t => s.readyToRun t) s

/-- `Scheduler::FindNextToRun`, when the list is `next :: rest`. -/
def takeNext (next : ThreadId) (rest : List ThreadId) (s : Scheduler) : Scheduler :=
  { s with readyList := rest, left := s.left ++ [next] }

/-- The end of `Scheduler::Run`, in the thread that `SWITCH` has gone to. -/
def reap (s : Scheduler) : Scheduler :=
  match s.threadToBeDestroyed with
  | none => s
  | some t => { s with threadToBeDestroyed := none, destroyed := s.destroyed ++ [t] }

/-- `Scheduler::Run`. -/
def run (next : ThreadId) (s : Scheduler) : Scheduler :=
  let s := { s.setStatus next .running with
    currentThread := next
    switchedOn := s.switchedOn || s.level == IntStatus.intOn }
  if s.started next then s.reap else { s with started := Function.update s.started next true }

/-- `Scheduler::Remove`. -/
def remove (t : ThreadId) (s : Scheduler) : Scheduler :=
  { s with readyList := s.readyList.erase t, threadToBeDestroyed := some t }

end Scheduler

end Nachos.Threads
