import Nachos.Framework.CInt
import Nachos.Framework.Run
import Nachos.Machine.Interrupt
import Mathlib.Data.List.Nodup
import Mathlib.Logic.Function.Basic

/-!
# Semaphores, locks, conditions, and threads that use them (threads/synch.cc)

`Program` is what the threads of a program do, as a function of where each is
in its code (`Loc`) and of the memory they share: a piece of code that calls no
synchronization routine, then one call of `Instr`, then where the code goes on.
Interrupts come only where a routine turns them on again at its end, so such a
piece and the critical section of the call after it are one step of the thread.

`Core` is the state of the objects and of the threads, without the scheduler.
`Core.next` lets any thread that is not asleep take its next step, and any
interrupt handler run between two steps: a run of it is an interleaving of the
threads, of which the scheduler of threads/scheduler.cc chooses some
(`Threads/System.lean`).

A thread is asleep as long as it is on the queue it sleeps on; when it is taken
off, it goes on with its loop in `P` or `Acquire`, or with the call of
`Acquire` in `Wait`.
-/

namespace Nachos.Threads

open Nachos.Framework Nachos.Machine

/-- A `Thread *`. -/
abbrev ThreadId := Nat

/-- `class Semaphore`. -/
structure Semaphore where
  value : Int
  queue : List ThreadId
deriving DecidableEq, Repr

/-- `class Lock`. The constructor leaves `holder` unset. `inside` is not in the code: the
threads that have got past the loop of an `Acquire` and have not called `Release` or
`Wait` since. -/
structure Lock where
  free : Bool
  holder : Option ThreadId
  queue : List ThreadId
  inside : List ThreadId
deriving DecidableEq, Repr

/-- `class Condition`. `waited` and `woken` are not in the code: the threads that were ever
put on the queue, and those that were taken off it, in order. -/
structure Condition where
  queue : List ThreadId
  waited : List ThreadId
  woken : List ThreadId
deriving DecidableEq, Repr

/-- `Semaphore::Semaphore`. -/
def Semaphore.new (initialValue : Int) : Semaphore := ⟨initialValue, []⟩

/-- `Lock::Lock`. -/
def Lock.new : Lock := ⟨true, none, [], []⟩

/-- `Condition::Condition`. -/
def Condition.new : Condition := ⟨[], [], []⟩

/-- `Semaphore::V`: the thread for `ReadyToRun`, if there is one. -/
def Semaphore.V (x : Semaphore) : List ThreadId × Semaphore :=
  (x.queue.head?.toList, { value := int32 (x.value + 1), queue := x.queue.tail })

/-- `Lock::Release` by thread `t`. The first thread of the queue is taken off it in any case,
and made ready only if `t` is the holder. -/
def Lock.release (t : ThreadId) (k : Lock) : List ThreadId × Lock :=
  let k' := { k with queue := k.queue.tail, inside := k.inside.erase t }
  if k.holder = some t then (k.queue.head?.toList, { k' with free := true }) else ([], k')

theorem Lock.release_queue (t : ThreadId) (k : Lock) : (k.release t).2.queue = k.queue.tail := by
  unfold Lock.release
  split <;> rfl

/-- `Condition::Signal`. -/
def Condition.signal (x : Condition) : List ThreadId × Condition :=
  (x.queue.head?.toList,
    { x with queue := x.queue.tail, woken := x.woken ++ x.queue.head?.toList })

/-- `Condition::Broadcast`. -/
def Condition.broadcast (x : Condition) : List ThreadId × Condition :=
  (x.queue, { x with queue := [], woken := x.woken ++ x.queue })

/-! ## Programs -/

/-- The calls a thread makes. `fork` is `new Thread` with `Thread::Fork` on a function whose
code begins at `start`; `finish` is `Thread::Finish`, also where a function returns to
`ThreadRoot`. -/
inductive Instr (S L C Loc : Type)
  | P (x : S)
  | V (x : S)
  | acquire (k : L)
  | release (k : L)
  | wait (x : C) (k : L)
  | signal (x : C) (k : L)
  | broadcast (x : C) (k : L)
  | fork (start : Loc)
  | yield
  | setLevel (now : IntStatus)
  | finish
deriving DecidableEq, Repr

/-- The code of the threads, and of the interrupt handlers. `code` is `none` where an assertion
fails; `handler` is `none` when the device has no such interrupt pending, and otherwise tells
the semaphores on which it calls `V`, in order. -/
structure Program (S L C σ Loc Ev : Type) where
  code : ThreadId → Loc → σ → Option (σ × Instr S L C Loc × Loc)
  handler : Ev → σ → Option (σ × List S)

/-- Where a thread is: in its own code, in the loop of `P` or `Acquire` after a `Sleep`, after
the `Sleep` of `Wait`, or nowhere, when it has finished or was not forked yet. `next` is where
the call returns to. -/
inductive PC (S L C Loc : Type)
  | user (loc : Loc)
  | inP (x : S) (next : Loc)
  | inAcquire (k : L) (next : Loc)
  | inWait (x : C) (k : L) (next : Loc)
  | finished
deriving DecidableEq, Repr

/-- The queues a thread can sleep on. -/
inductive WaitQueue (S L C : Type)
  | sem (x : S)
  | lock (k : L)
  | cond (x : C)
deriving DecidableEq, Repr

/-- The queue a thread sleeps on, if it is where it would sleep. -/
def PC.waitsOn {S L C Loc : Type} : PC S L C Loc → Option (WaitQueue S L C)
  | .user _ => none
  | .inP x _ => some (.sem x)
  | .inAcquire k _ => some (.lock k)
  | .inWait x _ _ => some (.cond x)
  | .finished => none

/-- The objects and the threads. The threads forked so far are those below `numThreads`. -/
structure Core (S L C σ Loc : Type) where
  sem : S → Semaphore
  lock : L → Lock
  cond : C → Condition
  mem : σ
  pc : ThreadId → PC S L C Loc
  numThreads : Nat

/-- How a step ends for the thread that makes it. -/
inductive After
  | returns
  | sleeps
  | yields
  | finishes
  | setsLevel (now : IntStatus)
deriving DecidableEq, Repr

/-- What the scheduler sees of a step: the threads given to `ReadyToRun`, and how it ends. -/
structure Effect where
  ready : List ThreadId
  after : After
deriving DecidableEq, Repr

namespace Core

variable {S L C σ Loc Ev : Type} [DecidableEq S] [DecidableEq L] [DecidableEq C]

/-- All is new, and thread 0 is about to run its code. -/
def new (initialValue : S → Int) (mem : σ) (main : Loc) : Core S L C σ Loc where
  sem := fun x => .new (initialValue x)
  lock := fun _ => .new
  cond := fun _ => .new
  mem := mem
  pc := Function.update (fun _ => .finished) 0 (.user main)
  numThreads := 1

def queue (s : Core S L C σ Loc) : WaitQueue S L C → List ThreadId
  | .sem x => (s.sem x).queue
  | .lock k => (s.lock k).queue
  | .cond x => (s.cond x).queue

/-- `t` is on the queue it sleeps on. -/
def asleep (s : Core S L C σ Loc) (t : ThreadId) : Bool :=
  match (s.pc t).waitsOn with
  | some w => t ∈ s.queue w
  | none => false

def setSem (x : S) (v : Semaphore) (s : Core S L C σ Loc) : Core S L C σ Loc :=
  { s with sem := Function.update s.sem x v }

def setLock (k : L) (v : Lock) (s : Core S L C σ Loc) : Core S L C σ Loc :=
  { s with lock := Function.update s.lock k v }

def setCond (x : C) (v : Condition) (s : Core S L C σ Loc) : Core S L C σ Loc :=
  { s with cond := Function.update s.cond x v }

def setPC (t : ThreadId) (v : PC S L C Loc) (s : Core S L C σ Loc) : Core S L C σ Loc :=
  { s with pc := Function.update s.pc t v }

/-- `Semaphore::P` by `t` from the test of its loop. -/
def testP (t : ThreadId) (x : S) (next : Loc) (s : Core S L C σ Loc) :
    Effect × Core S L C σ Loc :=
  let v := s.sem x
  if v.value = 0 then
    (⟨[], .sleeps⟩, (s.setSem x { v with queue := v.queue ++ [t] }).setPC t (.inP x next))
  else
    (⟨[], .returns⟩, (s.setSem x { v with value := int32 (v.value - 1) }).setPC t (.user next))

/-- `Lock::Acquire` by `t` from the test of its loop. -/
def testAcquire (t : ThreadId) (k : L) (next : Loc) (s : Core S L C σ Loc) :
    Effect × Core S L C σ Loc :=
  let v := s.lock k
  if v.free then
    (⟨[], .returns⟩, (s.setLock k { v with
      free := false, holder := some t, inside := v.inside ++ [t] }).setPC t (.user next))
  else
    (⟨[], .sleeps⟩, (s.setLock k { v with queue := v.queue ++ [t] }).setPC t (.inAcquire k next))

/-- The critical section of a call by `t`, which returns to `next`. -/
def call (t : ThreadId) (i : Instr S L C Loc) (next : Loc) (s : Core S L C σ Loc) :
    Effect × Core S L C σ Loc :=
  match i with
  | .P x => s.testP t x next
  | .V x =>
    let r := (s.sem x).V
    (⟨r.1, .returns⟩, (s.setSem x r.2).setPC t (.user next))
  | .acquire k => s.testAcquire t k next
  | .release k =>
    let r := (s.lock k).release t
    (⟨r.1, .returns⟩, (s.setLock k r.2).setPC t (.user next))
  | .wait x k =>
    -- interrupts are off already, so that `Release` does not turn them on at its end
    let r := (s.lock k).release t
    let v := s.cond x
    (⟨r.1, .sleeps⟩, ((s.setLock k r.2).setCond x { v with
      queue := v.queue ++ [t], waited := v.waited ++ [t] }).setPC t (.inWait x k next))
  | .signal x _ =>
    let r := (s.cond x).signal
    (⟨r.1, .returns⟩, (s.setCond x r.2).setPC t (.user next))
  | .broadcast x _ =>
    let r := (s.cond x).broadcast
    (⟨r.1, .returns⟩, (s.setCond x r.2).setPC t (.user next))
  | .fork start =>
    (⟨[s.numThreads], .returns⟩, { (s.setPC t (.user next)).setPC s.numThreads (.user start) with
      numThreads := s.numThreads + 1 })
  | .yield => (⟨[], .yields⟩, s.setPC t (.user next))
  | .setLevel now => (⟨[], .setsLevel now⟩, s.setPC t (.user next))
  | .finish => (⟨[], .finishes⟩, s.setPC t .finished)

/-- The next step of thread `t`, when it is not asleep. -/
def step (p : Program S L C σ Loc Ev) (t : ThreadId) (s : Core S L C σ Loc) :
    Option (Effect × Core S L C σ Loc) :=
  if s.asleep t then none
  else match s.pc t with
  | .user loc => (p.code t loc s.mem).map fun r => call t r.2.1 r.2.2 { s with mem := r.1 }
  | .inP x next => some (s.testP t x next)
  | .inAcquire k next => some (s.testAcquire t k next)
  | .inWait _ k next => some (s.testAcquire t k next)
  | .finished => none

/-- The calls of `V` of a handler. -/
def signalAll : List S → Core S L C σ Loc → List ThreadId × Core S L C σ Loc
  | [], s => ([], s)
  | x :: xs, s =>
    let r := signalAll xs (s.setSem x (s.sem x).V.2)
    ((s.sem x).V.1 ++ r.1, r.2)

/-- An interrupt. -/
def interrupt (p : Program S L C σ Loc Ev) (e : Ev) (s : Core S L C σ Loc) :
    Option (List ThreadId × Core S L C σ Loc) :=
  (p.handler e s.mem).map fun r => signalAll r.2 { s with mem := r.1 }

end Core

/-- What happens next in an interleaving. -/
inductive Move (Ev : Type)
  | thread (t : ThreadId)
  | interrupt (e : Ev)
deriving DecidableEq, Repr

variable {S L C σ Loc Ev : Type} [DecidableEq S] [DecidableEq L] [DecidableEq C]

/-- One move of an interleaving. -/
def Core.next (p : Program S L C σ Loc Ev) : Move Ev → Core S L C σ Loc → Option (Core S L C σ Loc)
  | .thread t, s => (s.step p t).map Prod.snd
  | .interrupt e, s => (s.interrupt p e).map Prod.snd

end Nachos.Threads
