import Nachos.Framework.CInt
import Nachos.Framework.Run
import Nachos.Framework.Stop
import Nachos.Threads.ListRefinement

/-!
# The interrupt simulation (machine/interrupt.cc)

`Interrupt` is the state of the simulated hardware: the level, the pending
interrupts, the clock. A handler is a procedure of a device simulator, which
this module does not know: it is a function (`Handlers`) of the state of the
rest of the machine, an arbitrary type `E`, and what it does to the interrupts
is a list of calls of `Schedule` and whether it calls `YieldOnReturn`. It does
not enable interrupts.

Time is `int`: an addition that leaves the type is undefined. The loop
`while (CheckIfDue(FALSE))` is `dueLoop`, which is `none` when it has not ended
after the given number of rounds.

`Call` lists what the rest of the program does with the interrupts, and `step`
performs one. When `OneTick` switches threads, what the other threads do before
its `Yield` returns are further calls; `yieldReturns` is the assignment
`status = old` after it.
-/

namespace Nachos.Machine

open Framework Threads

/-- `enum IntStatus`. -/
inductive IntStatus
  | intOff
  | intOn
deriving DecidableEq, Repr

/-- `enum MachineStatus`. -/
inductive MachineStatus
  | idleMode
  | systemMode
  | userMode
deriving DecidableEq, Repr

/-- `enum IntType`. -/
inductive IntType
  | timerInt
  | diskInt
  | consoleWriteInt
  | consoleReadInt
  | networkSendInt
  | networkRecvInt
deriving DecidableEq, Repr

/-- `class PendingInterrupt`; `id` tells apart the objects that `new` makes. -/
structure PendingInterrupt where
  handler : Nat
  arg : Int
  when : Int
  type : IntType
  id : Nat
deriving DecidableEq, Repr

/-- The arguments of `Interrupt::Schedule`. -/
structure Request where
  handler : Nat
  arg : Int
  fromNow : Int
  type : IntType
deriving DecidableEq, Repr

/-- `class Statistics`: the counters of simulated time. -/
structure Statistics where
  totalTicks : Int
  idleTicks : Int
  systemTicks : Int
  userTicks : Int
deriving DecidableEq, Repr

def userTick : Int := 1
def systemTick : Int := 10

/-- `class Interrupt` with `stats` and the rest of the machine. `yielding` holds the
local `old` of every `OneTick` whose `Yield` has not returned. `scheduled` and
`fired` are the history: the interrupts ever scheduled, and those whose handler
was called, with the time of the call. -/
structure Interrupt (E : Type) where
  level : IntStatus
  pending : List (Entry PendingInterrupt)
  inHandler : Bool
  yieldOnReturn : Bool
  status : MachineStatus
  stats : Statistics
  machine : E
  yielding : List MachineStatus
  halted : Bool
  scheduled : List PendingInterrupt
  fired : List (Int × PendingInterrupt)

/-- What a handler does to the interrupts. -/
structure HandlerRun where
  schedules : List Request
  yieldOnReturn : Bool

/-- What the handler procedures do: the procedure, its argument, the state it is
called in; with the state of the rest of the machine after it. -/
abbrev Handlers (E : Type) := Nat → Int → Interrupt E → HandlerRun × E

/-- `x + n` in type `int`. -/
def addTicks (x n : Int) : Except Stop Int :=
  if x + n ≤ intMax then .ok (x + n) else .error .undefined

namespace Interrupt

variable {E : Type}

/-- `Interrupt::Interrupt`, with the counters of `Statistics::Statistics`. -/
def new (e : E) : Interrupt E where
  level := .intOff
  pending := []
  inHandler := false
  yieldOnReturn := false
  status := .systemMode
  stats := ⟨0, 0, 0, 0⟩
  machine := e
  yielding := []
  halted := false
  scheduled := []
  fired := []

/-- `Interrupt::ChangeLevel`. -/
def changeLevel (now : IntStatus) (s : Interrupt E) : Interrupt E := { s with level := now }

/-- `Interrupt::Schedule`. -/
def schedule (r : Request) (s : Interrupt E) : Except Stop (Interrupt E) := do
  let when ← addTicks s.stats.totalTicks r.fromNow
  let toOccur : PendingInterrupt := ⟨r.handler, r.arg, when, r.type, s.scheduled.length⟩
  assert (r.fromNow > 0)
  return { s with
    pending := insertByKey (when, some toOccur) s.pending
    scheduled := s.scheduled ++ [toOccur] }

/-- The calls of `Schedule` that a handler makes. -/
def scheduleAll : List Request → Interrupt E → Except Stop (Interrupt E)
  | [], s => return s
  | r :: rs, s => do scheduleAll rs (← s.schedule r)

/-- `(*(toOccur->handler))(toOccur->arg)`, in system mode and with `inHandler` set. -/
def callHandler (handlers : Handlers E) (toOccur : PendingInterrupt) (s : Interrupt E) :
    Except Stop (Interrupt E) := do
  let old := s.status
  let s := { s with
    inHandler := true
    status := .systemMode
    fired := s.fired ++ [(s.stats.totalTicks, toOccur)] }
  let r := handlers toOccur.handler toOccur.arg s
  let s ← scheduleAll r.1.schedules s
  return { s with
    machine := r.2
    yieldOnReturn := s.yieldOnReturn || r.1.yieldOnReturn
    status := old
    inHandler := false }

/-- `Interrupt::CheckIfDue` from where the clock has been looked at: the entry
taken from the list is put back when it is the time-slice daemon alone. -/
def fire (handlers : Handlers E) (when : Int) (toOccur : PendingInterrupt) (s : Interrupt E) :
    Except Stop (Bool × Interrupt E) := do
  if s.status = .idleMode ∧ toOccur.type = .timerInt ∧ s.pending.isEmpty then
    return (false, { s with pending := insertByKey (when, some toOccur) s.pending })
  return (true, ← s.callHandler handlers toOccur)

/-- `Interrupt::CheckIfDue`. -/
def checkIfDue (handlers : Handlers E) (advanceClock : Bool) (s : Interrupt E) :
    Except Stop (Bool × Interrupt E) := do
  assert (s.level = .intOff)
  match s.pending with
  | [] => return (false, s)
  | (_, none) :: rest => return (false, { s with pending := rest })
  | (when, some toOccur) :: rest =>
    let s := { s with pending := rest }
    if advanceClock ∧ when > s.stats.totalTicks then
      let idleTicks ← addTicks s.stats.idleTicks (when - s.stats.totalTicks)
      let stats := { s.stats with idleTicks := idleTicks, totalTicks := when }
      fire handlers when toOccur { s with stats := stats }
    else if when > s.stats.totalTicks then
      return (false, { s with pending := insertByKey (when, some toOccur) s.pending })
    else fire handlers when toOccur s

/-- `while (CheckIfDue(FALSE))`, for at most the given number of rounds. -/
def dueLoop (handlers : Handlers E) : Nat → Interrupt E → Option (Except Stop (Interrupt E))
  | 0, _ => none
  | n + 1, s =>
    match s.checkIfDue handlers false with
    | .error e => some (.error e)
    | .ok (false, s) => some (.ok s)
    | .ok (true, s) => dueLoop handlers n s

/-- The loop, with more rounds than there are pending interrupts. -/
def whileDue (handlers : Handlers E) (s : Interrupt E) : Except Stop (Interrupt E) :=
  (dueLoop handlers (s.pending.length + 1) s).getD (.error .undefined)

/-- The first part of `Interrupt::OneTick`: advance simulated time. -/
def advance (s : Interrupt E) : Except Stop (Interrupt E) :=
  if s.status = .systemMode then do
    let totalTicks ← addTicks s.stats.totalTicks systemTick
    let systemTicks ← addTicks s.stats.systemTicks systemTick
    return { s with stats := { s.stats with totalTicks, systemTicks } }
  else do
    let totalTicks ← addTicks s.stats.totalTicks userTick
    let userTicks ← addTicks s.stats.userTicks userTick
    return { s with stats := { s.stats with totalTicks, userTicks } }

/-- `Interrupt::OneTick`, until its call of `Yield` if it makes one. -/
def oneTick (handlers : Handlers E) (s : Interrupt E) : Except Stop (Interrupt E) := do
  let old := s.status
  let s ← s.advance
  let s ← (s.changeLevel .intOff).whileDue handlers
  let s := s.changeLevel .intOn
  if s.yieldOnReturn then
    return { s with
      yieldOnReturn := false
      status := .systemMode
      yielding := s.yielding ++ [old] }
  return s

/-- `Interrupt::SetLevel`. -/
def setLevel (handlers : Handlers E) (now : IntStatus) (s : Interrupt E) :
    Except Stop (Interrupt E) := do
  let old := s.level
  assert (now = .intOff ∨ s.inHandler = false)
  let s := s.changeLevel now
  if now = .intOn ∧ old = .intOff then s.oneTick handlers else return s

/-- `Interrupt::Idle`. -/
def idle (handlers : Handlers E) (s : Interrupt E) : Except Stop (Interrupt E) := do
  let (fired, s) ← checkIfDue handlers true { s with status := .idleMode }
  if fired then
    let s ← s.whileDue handlers
    return { s with yieldOnReturn := false, status := .systemMode }
  return { s with halted := true }

end Interrupt

/-- What the rest of the program does: the calls, `setStatus` as `Machine::Run` and
`Machine::RaiseException` use it, the return of a `Yield` that a `OneTick` made,
and anything that is not about interrupts. -/
inductive Call (E : Type)
  | schedule (r : Request)
  | setLevel (now : IntStatus)
  | oneTick
  | idle
  | setSystemMode
  | setUserMode
  | yieldReturns (i : Nat)
  | other (e : E)

variable {E : Type}

/-- One call, from a machine that has not halted. -/
def step (handlers : Handlers E) (c : Call E) (s : Interrupt E) : Option (Interrupt E) :=
  if s.halted then none
  else match c with
  | .schedule r => (s.schedule r).toOption
  | .setLevel now => (s.setLevel handlers now).toOption
  | .oneTick => (s.oneTick handlers).toOption
  | .idle => (s.idle handlers).toOption
  | .setSystemMode => some { s with status := .systemMode }
  | .setUserMode => some { s with status := .userMode }
  | .yieldReturns i => s.yielding[i]?.map fun old =>
      { s with status := old, yielding := s.yielding.eraseIdx i }
  | .other e => some { s with machine := e }

/-! ## The timer (machine/timer.cc) -/

def timerTicks : Int := 100

/-- `Timer::TimeOfNextInterrupt`; `random` is what `Random()` returns. -/
def timeOfNextInterrupt (randomize : Bool) (random : Int) : Int :=
  if randomize then 1 + random.tmod (timerTicks * 2) else timerTicks

/-- `Timer::TimerExpired` with the handler `TimerInterruptHandler` of threads/system.cc; the
procedure that calls it is at `timerHandler`. -/
def timerExpired (timerHandler : Nat) (randomize : Bool) (random : Int) (arg : Int)
    (s : Interrupt E) : HandlerRun where
  schedules := [⟨timerHandler, arg, timeOfNextInterrupt randomize random, .timerInt⟩]
  yieldOnReturn := s.status ≠ .idleMode

end Nachos.Machine
