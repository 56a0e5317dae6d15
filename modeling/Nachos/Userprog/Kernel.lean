import Nachos.Framework.Run
import Nachos.Machine.MipsSim
import Nachos.Userprog.AddrSpace

/-!
# The kernel with user processes (userprog/exception.cc, pcb.cc, processmanager.cc, progtest.cc,
threads/scheduler.cc, threads/thread.cc, machine/interrupt.cc)

The whole system as a state machine: `Kernel.step` runs the current thread from
one point where a timer interrupt can come to the next. Interrupts are off
inside the kernel, and the only places that turn them on are the ends of
`Thread::Fork`, `Thread::Yield` and the start of a new thread, and the end of
each user instruction; each of them is an `Interrupt::OneTick`, where the timer
may force a `Thread::Yield`. The lock of the managers does nothing in this
build. A list is the sequence of its items, and whether `RemoveElement` has
left its `last` pointing to an element that it deleted; `Append` then stops.

Objects on the heap are numbered; a number is not used again, and a pointer to
a deleted object leads nowhere, so following it is undefined.
-/

namespace Nachos

open Nachos.Framework

/-! ## The state -/

/-- Where a thread goes on after the ticks at which it may be preempted. -/
inductive Point
  /-- The next user instruction, in `Machine::Run`. -/
  | user
  /-- The end of the `yield` system call. -/
  | yieldTail
  /-- The loop of the `join` system call, with its locals `pid` and `pcb`. -/
  | joinLoop (pid : Int) (pcb : Nat)
  /-- `fork`, after `newThread->Fork(dummy, 0)`, with its local `pid`. -/
  | forkTail (pid : Int)
  /-- `ThreadRoot`, after `InterruptEnable`: the call of `dummy`. -/
  | threadRoot
  deriving DecidableEq, Repr

/-- `Thread`: the saved user registers, the address space, and where its kernel
stack goes on when it is dispatched, `none` if it has not run yet. -/
structure Thread where
  userRegisters : Registers
  space : Option Nat
  resume : Option Point

/-- `PCB`. -/
structure PCB where
  processThread : Nat
  processID : Int
  parentProcess : Option Nat
  children : List Nat
  /-- `last` of `children` points to a deleted element. -/
  lastDeleted : Bool
  childExitValue : BitVec 32
  deriving DecidableEq, Repr

/-- What the current thread does next: a tick of the clock, or the code at a
point. -/
inductive Control
  | tick (p : Point)
  | run (p : Point)
  deriving DecidableEq, Repr

structure Kernel where
  /-- `machine->registers`. -/
  registers : Registers
  /-- `machine->mainMemory`. -/
  mainMemory : Bytes
  /-- `machine->pageTable`: the address space whose table it is. -/
  pageTable : Option Nat
  /-- `machine->pageTableSize`. -/
  pageTableSize : Nat
  /-- The bitmap `virtMem` of `memoryManager`. -/
  virtMem : BitMap
  /-- The bitmap `map` of `processManager`. -/
  pids : BitMap
  /-- The array `pcbTable` of `processManager`. -/
  pcbTable : Nat → Option Nat
  threads : Nat → Option Thread
  spaces : Nat → Option AddrSpace
  pcbs : Nat → Option PCB
  /-- The number of the next object. -/
  nextId : Nat
  currentThread : Nat
  /-- `scheduler->readyList`. -/
  readyList : List Nat
  /-- Its `last` points to a deleted element. -/
  lastDeleted : Bool
  threadToBeDestroyed : Option Nat
  control : Control

/-- The size of the process table. -/
def numPids : Nat := 10

/-- `update()`: the system call is done, go on behind it. -/
def Registers.update (r : Registers) : Registers :=
  let r := r.write pcReg (r pcReg + 4)
  let r := r.write nextPCReg (r nextPCReg + 4)
  r.write prevPCReg (r prevPCReg + 4)

/-! ## Lists -/

/-- `List::Append` writes through `last`, unless the list is empty. -/
def useLast (lastDeleted : Bool) (items : List Nat) : Except Stop Unit :=
  if lastDeleted = true ∧ items ≠ [] then .error .freed else .ok ()

/-- `RemoveElement` of `item` leaves `last` as it is, also when it deletes the element that `last` points
to. Where that is the first one, the list is empty, and `last` is not used. -/
def deletesLast (items : List Nat) (item : Nat) : Bool :=
  items.getLast? = some item && items.head? ≠ some item

namespace Kernel

/-! ## Processes -/

/-- The thread, the address space and the PCB of a process. -/
structure Process where
  thread : Thread
  spaceId : Nat
  space : AddrSpace
  pcbId : Nat
  pcb : PCB

/-- `thread->space->pcb`, with everything on the way. -/
def process (k : Kernel) (t : Nat) : Except Stop Process := do
  let thread ← deref (k.threads t)
  let spaceId ← deref thread.space
  let space ← deref (k.spaces spaceId)
  let pcbId ← deref space.pcb
  let pcb ← deref (k.pcbs pcbId)
  .ok ⟨thread, spaceId, space, pcbId, pcb⟩

def setThread (k : Kernel) (t : Nat) (thread : Thread) : Kernel :=
  { k with threads := Function.update k.threads t (some thread) }

def setSpace (k : Kernel) (s : Nat) (space : AddrSpace) : Kernel :=
  { k with spaces := Function.update k.spaces s (some space) }

/-- `ProcessManager::getProcess`. -/
def getProcess (k : Kernel) (pid : Int) : Except Stop (Option Nat) := do
  if ← k.pids.test pid then .ok (k.pcbTable pid.toNat) else .ok none

/-- `Thread::RestoreUserState` of the current thread. -/
def restoreUserState (k : Kernel) (thread : Thread) : Kernel :=
  { k with registers := thread.userRegisters }

/-- `AddrSpace::RestoreState`. -/
def restoreState (k : Kernel) (s : Nat) (space : AddrSpace) : Kernel :=
  { k with pageTable := some s, pageTableSize := space.numPages }

/-- The end of a system call that returns: `machine->WriteRegister(2, value)`
and `update()`, then the tick after the instruction. -/
def sysReturn (k : Kernel) (value : BitVec 32) : Kernel :=
  { k with registers := (k.registers.write 2 value).update, control := .tick .user }

/-! ## The scheduler -/

/-- `delete threadToBeDestroyed`, in `Scheduler::Run`. -/
def reap (k : Kernel) : Except Stop Kernel :=
  match k.threadToBeDestroyed with
  | none => .ok k
  | some t => do
    let _ ← deref (k.threads t)
    assert (t ≠ k.currentThread)
    .ok { k with threads := Function.update k.threads t none, threadToBeDestroyed := none }

/-- `Scheduler::Run`. A thread that has not run yet starts in `ThreadRoot`; one
that has goes on behind `SWITCH`, and then at the tick where it left off. -/
def dispatch (k : Kernel) (nextThread : Nat) : Except Stop Kernel := do
  let old ← deref (k.threads k.currentThread)
  let k := if old.space.isSome
    then k.setThread k.currentThread { old with userRegisters := k.registers } else k
  let next ← deref (k.threads nextThread)
  let k := { k with currentThread := nextThread }
  match next.resume with
  | none => .ok { k with control := .tick .threadRoot }
  | some p => do
    let k ← k.reap
    match next.space with
    | none => .ok { k with control := .tick p }
    | some s => do
      let space ← deref (k.spaces s)
      .ok { (k.restoreUserState next).restoreState s space with control := .tick p }

/-- `Thread::Yield` of the current thread, which goes on at `p`. -/
def yield (k : Kernel) (p : Point) : Except Stop Kernel :=
  match k.readyList with
  | [] => .ok { k with control := .tick p }
  | nextThread :: rest => do
    useLast k.lastDeleted rest
    let old ← deref (k.threads k.currentThread)
    dispatch ({ k with readyList := rest ++ [k.currentThread], lastDeleted := false }.setThread
      k.currentThread { old with resume := some p }) nextThread

/-- `Thread::Finish`: with no thread ready, `Interrupt::Idle` finds no pending
interrupt but the timer and halts. -/
def finish (k : Kernel) : Except Stop Kernel :=
  match k.readyList with
  | [] => .error .halt
  | nextThread :: rest =>
    dispatch { k with threadToBeDestroyed := some k.currentThread, readyList := rest } nextThread

/-! ## The system calls -/

/-- `fork`, steps 5 to 7, in the kernel that has the new address space `spaceId`
and the new thread `threadId` already: a PCB for the new process, a child of the
current one; the registers of the child, in the machine and in its thread; and
`Thread::Fork`, up to the tick when it turns interrupts on. -/
def addProcess (env : Env) (k : Kernel) (cur : Process) (newSpace : AddrSpace)
    (spaceId threadId pcbId pid : Nat) : Kernel :=
  let newPCB : PCB := ⟨threadId, pid, some cur.pcbId, [], false, env.junkExitValue⟩
  let parent := { cur.pcb with children := cur.pcb.children ++ [pcbId], lastDeleted := false }
  let r := k.registers
  let r := ((r.write pcReg (r 4)).write nextPCReg (r 4 + 4)).write prevPCReg (r 4 - 4)
  { (k.setSpace spaceId { newSpace with pcb := some pcbId }).setThread threadId
      ⟨r, some spaceId, none⟩ with
    pcbs := Function.update (Function.update k.pcbs cur.pcbId (some parent)) pcbId (some newPCB)
    pcbTable := Function.update k.pcbTable pid (some pcbId)
    registers := r
    readyList := k.readyList ++ [threadId]
    lastDeleted := false
    control := .tick (.forkTail pid) }

/-- `fork`, up to the tick in `Thread::Fork`. -/
def fork (env : Env) (k : Kernel) : Except Stop Kernel := do
  let cur ← k.process k.currentThread
  -- 1. save the registers
  let k := k.setThread k.currentThread { cur.thread with userRegisters := k.registers }
  -- 2. copy the address space
  match cur.space.copy k.virtMem k.mainMemory with
  | none => .ok (k.sysReturn (-1))
  | some (newSpace, virtMem, mainMemory) =>
    -- 3. and 4. a new thread, a PID and a PCB
    let spaceId := k.nextId
    let threadId := k.nextId + 1
    let pcbId := k.nextId + 2
    let (pid, pids) := k.pids.find
    let k := { (k.setSpace spaceId newSpace).setThread threadId
        ⟨env.junkRegisters, some spaceId, none⟩ with
      virtMem, mainMemory, pids, nextId := k.nextId + 3 }
    if pid < 0 then .ok (k.sysReturn (-1))
    else do
      -- the lists that `addChild` and `ReadyToRun` append to
      useLast cur.pcb.lastDeleted cur.pcb.children
      useLast k.lastDeleted k.readyList
      .ok (k.addProcess env cur newSpace spaceId threadId pcbId pid.toNat)

/-- `nullParent`, on one child. -/
def nullParent (pcbs : Nat → Option PCB) (p : Nat) : Except Stop (Nat → Option PCB) := do
  let pcb ← deref (pcbs p)
  .ok (Function.update pcbs p (some { pcb with parentProcess := none }))

/-- The process leaves the children of its parent, which gets the exit status,
if there is one. -/
def leaveParent (pcbs : Nat → Option PCB) (p : Nat) (status : Option (BitVec 32)) :
    Option Nat → Except Stop (Nat → Option PCB)
  | none => .ok pcbs
  | some q => do
    let parent ← deref (pcbs q)
    .ok (Function.update pcbs q (some { parent with
      children := parent.children.erase p
      lastDeleted := parent.lastDeleted || deletesLast parent.children p
      childExitValue := status.getD parent.childExitValue }))

/-- What `exit` and `kill` both do with the process that ends: its children lose
their parent, its parent loses a child (and gets the exit status, if there is
one), the PID `pid` and its frames become free, its PCB and address space are
deleted. -/
def tearDown (k : Kernel) (pid : Int) (p : Nat) (pcb : PCB) (s : Nat) (space : AddrSpace)
    (status : Option (BitVec 32)) : Except Stop Kernel := do
  let pcbs ← pcb.children.foldlM nullParent k.pcbs
  let self ← deref (pcbs p)
  let pcbs ← leaveParent pcbs p status self.parentProcess
  let pids ← k.pids.clear pid
  let virtMem ← releasePhysicalMemory space.pageTable k.virtMem
  .ok { k with
    pcbs := Function.update pcbs p none
    pcbTable := Function.update k.pcbTable pid.toNat none
    pids, virtMem
    spaces := Function.update k.spaces s none }

/-- `exit`. -/
def exit (k : Kernel) : Except Stop Kernel := do
  let cur ← k.process k.currentThread
  let k ← k.tearDown cur.pcb.processID cur.pcbId cur.pcb cur.spaceId cur.space (some (k.registers 4))
  k.finish

/-- `join`, up to its loop. -/
def join (k : Kernel) : Except Stop Kernel := do
  let cur ← k.process k.currentThread
  let pid := (k.registers 4).toInt
  if pid < 0 then .ok (k.sysReturn (-1))
  else
    match ← k.getProcess pid with
    | none => .ok (k.sysReturn (-1))
    | some c =>
      if c ∈ cur.pcb.children then .ok { k with control := .run (.joinLoop pid c) }
      else .ok (k.sysReturn (-1))

/-- The loop of `join`, once round, and its end. -/
def joinLoop (k : Kernel) (pid : Int) (c : Nat) : Except Stop Kernel := do
  match ← k.getProcess pid with
  | some _ => k.yield (.joinLoop pid c)
  | none => do
    let cur ← k.process k.currentThread
    .ok (k.sysReturn cur.pcb.childExitValue)

/-- `kill`. -/
def kill (k : Kernel) : Except Stop Kernel := do
  let cur ← k.process k.currentThread
  let killID := (k.registers 4).toInt
  match ← k.getProcess killID with
  | none => .ok (k.sysReturn (-1))
  | some p =>
    if killID = cur.pcb.processID then k.exit
    else do
      let killPCB ← deref (k.pcbs p)
      let killThread ← deref (k.threads killPCB.processThread)
      let s ← deref killThread.space
      let killSpace ← deref (k.spaces s)
      let k ← k.tearDown killID p killPCB s killSpace none
      -- `Scheduler::Remove`
      .ok ({ k with
        readyList := k.readyList.erase killPCB.processThread
        lastDeleted := k.lastDeleted || deletesLast k.readyList killPCB.processThread
        threadToBeDestroyed := some killPCB.processThread }.sysReturn 0)

/-- `exec`. -/
def exec (env : Env) (k : Kernel) : Except Stop Kernel := do
  let cur ← k.process k.currentThread
  match ← cur.space.replace env (k.registers 4) k.virtMem k.mainMemory with
  | (space, none) => .ok ((k.setSpace cur.spaceId space).sysReturn (-1))
  | (space, some (virtMem, mainMemory)) =>
    let k := { k.setSpace cur.spaceId space with
      virtMem, mainMemory, registers := initRegisters space.numPages }
    .ok ((k.restoreState cur.spaceId space).sysReturn 1)

/-- `ExceptionHandler`, for a system call: the code is in register 2. `Create`,
`Open`, `Read`, `Write` and `Close` do nothing; a code without a case halts. -/
def syscall (env : Env) (k : Kernel) : Except Stop Kernel :=
  match (k.registers 2).toNat with
  | 1 => k.exit
  | 2 => k.exec env
  | 3 => k.join
  | 4 | 5 | 6 | 7 | 8 => .ok { k with control := .tick .user }
  | 9 => k.fork env
  | 10 => k.yield .yieldTail
  | 11 => k.kill
  | _ => .error .halt

/-- `Machine::RaiseException` and `ExceptionHandler`; every exception but a
system call trips an assertion. -/
def raiseException (env : Env) (k : Kernel) (which : ExceptionType) (badVAddr : BitVec 32) :
    Except Stop Kernel := do
  let r ← (k.registers.write badVAddrReg badVAddr).delayedLoad 0 0
  match which with
  | .syscall => syscall env { k with registers := r }
  | _ => .error .assertion

/-! ## Steps -/

/-- The machine as the hardware sees it: the page table is the array that
`machine->pageTable` points to, in the address space `s`. -/
def machine (k : Kernel) (space : AddrSpace) : Machine :=
  ⟨k.registers, k.mainMemory, space.pageTable, k.pageTableSize⟩

def setMachine (k : Kernel) (s : Nat) (space : AddrSpace) (m : Machine) : Kernel :=
  { k.setSpace s { space with pageTable := m.pageTable } with
    registers := m.registers, mainMemory := m.mainMemory }

/-- One round of `Machine::Run`, up to the tick. -/
def userInstruction (env : Env) (k : Kernel) : Except Stop Kernel := do
  assert (k.pageTable ≠ none)
  let s ← deref k.pageTable
  let space ← deref (k.spaces s)
  match (k.machine space).oneInstruction with
  | .ok m => .ok { k.setMachine s space m with control := .tick .user }
  | .error (.exception which badVAddr m) =>
    (k.setMachine s space m).raiseException env which badVAddr
  | .error (.stop e) => .error e

/-- `Interrupt::OneTick`: a timer interrupt finishes the pending load and makes
the thread yield. -/
def oneTick (env : Env) (k : Kernel) (p : Point) : Except Stop Kernel :=
  if env.timer then do
    let r ← k.registers.delayedLoad 0 0
    yield { k with registers := r } p
  else .ok { k with control := .run p }

/-- The code at a point, up to the next tick. -/
def runPoint (env : Env) (k : Kernel) : Point → Except Stop Kernel
  | .user => k.userInstruction env
  | .yieldTail => .ok { k with registers := k.registers.update, control := .tick .user }
  | .joinLoop pid c => k.joinLoop pid c
  | .forkTail pid => do
    let thread ← deref (k.threads k.currentThread)
    .ok ((k.restoreUserState thread).sysReturn (BitVec.ofInt 32 pid))
  | .threadRoot => do
    let thread ← deref (k.threads k.currentThread)
    let s ← deref thread.space
    let space ← deref (k.spaces s)
    .ok { (k.restoreUserState thread).restoreState s space with control := .run .user }

/-- One step of the system. -/
def step (env : Env) (k : Kernel) : Except Stop Kernel :=
  match k.control with
  | .tick p => k.oneTick env p
  | .run p => k.runPoint env p

/-! ## The start -/

/-- The kernel when `StartProcess` is called by the main thread, number 0. -/
def boot (junk : Nat → BitVec 32) (junkTable : Nat → Option Nat) (junkRegisters : Registers) :
    Kernel where
  registers := fun _ => 0
  mainMemory := fun _ => 0
  pageTable := none
  pageTableSize := 0
  virtMem := .new numPhysPages junk
  pids := .new numPids junk
  pcbTable := junkTable
  threads := Function.update (fun _ => none) 0 (some ⟨junkRegisters, none, none⟩)
  spaces := fun _ => none
  pcbs := fun _ => none
  nextId := 1
  currentThread := 0
  readyList := []
  lastDeleted := false
  threadToBeDestroyed := none
  control := .run .user

/-- `StartProcess`, up to the first user instruction. Where it returns, the main
thread finishes and Nachos halts. -/
def startProcess (env : Env) (k : Kernel) (filename : List (BitVec 8)) : Except Stop Kernel := do
  match env.files filename with
  | none => .error .halt
  | some executable =>
    let (pid, pids) := k.pids.find
    if pid < 0 then .error .halt
    else do
      let pcbId := k.nextId
      let spaceId := k.nextId + 1
      let npcb : PCB := ⟨k.currentThread, pid, none, [], false, env.junkExitValue⟩
      let (space, virtMem, mainMemory) ← AddrSpace.new executable env.buffers k.virtMem k.mainMemory
      let space := { space with pcb := some pcbId }
      let thread ← deref (k.threads k.currentThread)
      let k := { (k.setSpace spaceId space).setThread k.currentThread
          { thread with space := some spaceId } with
        pids, virtMem, mainMemory
        pcbs := Function.update k.pcbs pcbId (some npcb)
        pcbTable := Function.update k.pcbTable pid.toNat (some pcbId)
        nextId := k.nextId + 2
        registers := initRegisters space.numPages }
      .ok { k.restoreState spaceId space with control := .run .user }

/-! ## Runs -/

/-- What Nachos is started with: the program, and what uninitialised memory
holds. -/
structure Boot where
  env : Env
  filename : List (BitVec 8)
  junk : Nat → BitVec 32
  junkTable : Nat → Option Nat
  junkRegisters : Registers

/-- The kernel at the first user instruction. -/
def start (b : Boot) : Option Kernel :=
  (startProcess b.env (boot b.junk b.junkTable b.junkRegisters) b.filename).toOption

/-- The kernel after the first user process was started and a step was done in
each of the `envs`. -/
def runs (b : Boot) (envs : List Env) : Option Kernel :=
  (start b).bind (run (fun env k => (step env k).toOption) envs)

/-- The NOFF file of a program without data. -/
def noffImage (code : List (BitVec 32)) : List (BitVec 8) :=
  ([noffMagic, 0, 40, BitVec.ofNat 32 (4 * code.length), 0, 0, 0, 0, 0, 0] ++ code).flatMap fun w =>
    (List.range 4).map (bytesOf w)

/-- One file under every name, and zeros wherever memory is uninitialised. -/
def plainEnv (code : List (BitVec 32)) (timer : Bool) : Env :=
  ⟨timer, fun _ => some (noffImage code), ⟨fun _ => 0, fun _ => 0, fun _ => 0⟩, [], fun _ => 0, 0⟩

def plainBoot (code : List (BitVec 32)) : Boot :=
  ⟨plainEnv code false, [], fun _ => 0, fun _ => none, fun _ => 0⟩

end Kernel

end Nachos
