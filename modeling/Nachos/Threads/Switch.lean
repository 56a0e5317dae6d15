import Nachos.Framework.I386

/-!
# `SWITCH` and `ThreadRoot` on the i386 (threads/switch.s, switch.h)

A thread that does not run has its registers in the first 36 bytes of its
`Thread` object. `SWITCH` moves the registers of `t1` there, and takes those of
`t2` from its object, through one register and the global word `_eax_save`. It
is called with the two objects as arguments, and returns to where the call of
`SWITCH` by `t2` came from: it writes the saved `_PC` at 4(%esp), and its `ret`
takes the word at 0(%esp).

* `execs_save`, `execs_restore`: the two halves, as long as the frame of the call, the
  objects and `_eax_save` do not overlap;
* `execs_SWITCH`: both.
-/

namespace Nachos.Threads.Switch

open Nachos.I386

/-! ## Offsets (switch.h) -/

/-- The offsets `_ESP`, `_EAX`, ... of the registers from the beginning of the thread object. -/
def offset : Reg → Word
  | .esp => 0
  | .eax => 4
  | .ebx => 8
  | .ecx => 12
  | .edx => 16
  | .ebp => 20
  | .esi => 24
  | .edi => 28

/-- The offset `_PC`. -/
def PC : Word := 32

abbrev InitialPC : Reg := .esi

abbrev InitialArg : Reg := .edx

abbrev WhenDonePC : Reg := .edi

abbrev StartupPC : Reg := .ecx

/-! ## The code (switch.s) -/

def ThreadRoot : List Instr :=
  [.op (.push .ebp),
   .op (.move .esp .ebp),
   .op (.push InitialArg),
   .call StartupPC,
   .call InitialPC,
   .call WhenDonePC,
   -- not reached
   .op (.move .ebp .esp),
   .op (.pop .ebp),
   .ret]

/-- `SWITCH` up to the pointer to `t2`: the registers are saved in `t1`. -/
def saveOps (eax_save : Word) : List I386.Op :=
  [.storeAbs .eax eax_save,
   .load 4 .esp .eax,
   .store .ebx (offset .ebx) .eax,
   .store .ecx (offset .ecx) .eax,
   .store .edx (offset .edx) .eax,
   .store .esi (offset .esi) .eax,
   .store .edi (offset .edi) .eax,
   .store .ebp (offset .ebp) .eax,
   .store .esp (offset .esp) .eax,
   .loadAbs eax_save .ebx,
   .store .ebx (offset .eax) .eax,
   .load 0 .esp .ebx,
   .store .ebx PC .eax]

/-- `SWITCH` from the pointer to `t2` on: the registers are taken from `t2`. -/
def restoreOps (eax_save : Word) : List I386.Op :=
  [.load 8 .esp .eax,
   .load (offset .eax) .eax .ebx,
   .storeAbs .ebx eax_save,
   .load (offset .ebx) .eax .ebx,
   .load (offset .ecx) .eax .ecx,
   .load (offset .edx) .eax .edx,
   .load (offset .esi) .eax .esi,
   .load (offset .edi) .eax .edi,
   .load (offset .ebp) .eax .ebp,
   .load (offset .esp) .eax .esp,
   .load PC .eax .eax,
   .store .eax 4 .esp,
   .loadAbs eax_save .eax]

/-- The operations of `SWITCH`, up to its `ret`. -/
def switchOps (eax_save : Word) : List I386.Op := saveOps eax_save ++ restoreOps eax_save

def SWITCH (eax_save : Word) : List Instr := (switchOps eax_save).map .op ++ [.ret]

/-! ## The stack of a new thread (thread.cc) -/

/-- In words. -/
def StackSize : Nat := 4 * 1024

def STACK_FENCEPOST : Word := 0xdeadbeef

/-- The address of `machineState[i]`, which stands behind `stackTop`. -/
def machineState (object : Word) (i : Nat) : Word := object + BitVec.ofNat 32 (4 + 4 * i)

def PCState : Nat := 32 / 4 - 1
def InitialPCState : Nat := 24 / 4 - 1
def InitialArgState : Nat := 16 / 4 - 1
def WhenDonePCState : Nat := 28 / 4 - 1
def StartupPCState : Nat := 12 / 4 - 1

/-- `stackTop` when `StackAllocate` is done: one word for `ThreadRoot` was put on the stack. -/
def stackTop (stack : Word) : Word := stack + BitVec.ofNat 32 (4 * (StackSize - 4)) - 4

/-- The functions whose addresses `StackAllocate` stores. -/
structure Entries where
  ThreadRoot : Word
  InterruptEnable : Word
  ThreadFinish : Word

/-- `StackAllocate`, with the memory that `AllocBoundedArray` returned. -/
def StackAllocate (k : Entries) (object stack func arg : Word) (m : Mem) : Mem :=
  let m := m.write (stackTop stack) k.ThreadRoot
  let m := m.write (object + offset .esp) (stackTop stack)
  let m := m.write stack STACK_FENCEPOST
  let m := m.write (machineState object PCState) k.ThreadRoot
  let m := m.write (machineState object StartupPCState) k.InterruptEnable
  let m := m.write (machineState object InitialPCState) func
  let m := m.write (machineState object InitialArgState) arg
  m.write (machineState object WhenDonePCState) k.ThreadFinish

/-- The assertion of `CheckOverflow`, for a stack that is not NULL. -/
def CheckOverflow (m : Mem) (stack : Word) : Bool := m.read stack == STACK_FENCEPOST

/-! ## What `SWITCH` does -/

/-- The memory after the registers of `s` are saved in `t1`. -/
def saved (eax_save t1 : Word) (s : State) : Mem :=
  (((((((((s.mem.write eax_save (s.reg .eax)).write (t1 + offset .ebx) (s.reg .ebx)).write
    (t1 + offset .ecx) (s.reg .ecx)).write (t1 + offset .edx) (s.reg .edx)).write
    (t1 + offset .esi) (s.reg .esi)).write (t1 + offset .edi) (s.reg .edi)).write
    (t1 + offset .ebp) (s.reg .ebp)).write (t1 + offset .esp) (s.reg .esp)).write
    (t1 + offset .eax) (s.reg .eax)).write (t1 + PC) (s.mem.read (s.reg .esp))

/-- The part of a thread object that `SWITCH` uses. -/
abbrev context (t : Word) : Set Word := span t 36

theorem context_offset (t : Word) (r : Reg) : span (t + offset r) 4 ⊆ context t := by
  apply span_add_subset
  cases r <;> decide

theorem context_PC (t : Word) : span (t + PC) 4 ⊆ context t := span_add_subset (by decide)

theorem context_state (t : Word) {i : Nat} (h : i < 8) : span (machineState t i) 4 ⊆ context t := by
  apply span_add_subset
  rw [BitVec.toNat_ofNat]
  omega

/-- `StackAllocate` writes to the object and the stack. -/
theorem StackAllocate_of_notMem {k : Entries} {object stack func arg : Word} {m : Mem} {x : Word}
    (ho : x ∉ context object) (hs : x ∉ span stack (4 * StackSize)) :
    StackAllocate k object stack func arg m x = m x := by
  have hstate : ∀ i < 8, x ∉ span (machineState object i) 4 := fun i hi h => ho (context_state object hi h)
  have htop : x ∉ span (stackTop stack) 4 := by
    intro h
    apply hs
    have heq : stackTop stack = stack + BitVec.ofNat 32 (4 * (StackSize - 5)) := by
      unfold stackTop StackSize
      bv_omega
    rw [heq] at h
    exact span_add_subset (by decide) h
  have hesp : x ∉ span (object + offset .esp) 4 := fun h => ho (context_offset object .esp h)
  have hfence : x ∉ span stack 4 := fun h => hs (span_subset (by decide) h)
  simp only [StackAllocate, Mem.write_of_notMem htop, Mem.write_of_notMem hesp, Mem.write_of_notMem hfence,
    Mem.write_of_notMem (hstate PCState (by decide)), Mem.write_of_notMem (hstate StartupPCState (by decide)),
    Mem.write_of_notMem (hstate InitialPCState (by decide)),
    Mem.write_of_notMem (hstate InitialArgState (by decide)),
    Mem.write_of_notMem (hstate WhenDonePCState (by decide))]

theorem StackAllocate_agree {k : Entries} {object stack func arg : Word} {m m' : Mem} {S : Set Word}
    (h : Mem.Agree S m m') :
    Mem.Agree S (StackAllocate k object stack func arg m) (StackAllocate k object stack func arg m') :=
  ((((((((h.write _ _).write _ _).write _ _).write _ _).write _ _).write _ _).write _ _).write _ _)

/-- `StackAllocate`, by the registers it sets. -/
theorem StackAllocate_eq (k : Entries) (object stack func arg : Word) (m : Mem) :
    StackAllocate k object stack func arg m =
      ((((((((m.write (stackTop stack) k.ThreadRoot).write (object + offset .esp) (stackTop stack)).write
        stack STACK_FENCEPOST).write (object + PC) k.ThreadRoot).write
        (object + offset StartupPC) k.InterruptEnable).write (object + offset InitialPC) func).write
        (object + offset InitialArg) arg).write (object + offset WhenDonePC) k.ThreadFinish) := rfl

/-- The registers saved in `t`. -/
def savedRegs (m : Mem) (t : Word) : Regs := fun r => m.read (t + offset r)

/-- The registers in a new object; `eax`, `ebx` and `ebp` are what was there. -/
def allocated (k : Entries) (object stack func arg : Word) (m : Mem) : Regs
  | .esp => stackTop stack
  | .ecx => k.InterruptEnable
  | .edx => arg
  | .esi => func
  | .edi => k.ThreadFinish
  | r => m.read (object + offset r)

section StackAllocate

variable {k : Entries} {object stack func arg : Word} {m : Mem}

theorem stackTop_subset (stack : Word) {n d : Nat} (h : d + n ≤ 20) :
    span (stackTop stack + BitVec.ofNat 32 d) n ⊆ span stack (4 * StackSize) := by
  have heq : stackTop stack + BitVec.ofNat 32 d = stack + BitVec.ofNat 32 (4 * (StackSize - 5) + d) := by
    unfold stackTop StackSize
    bv_omega
  rw [heq]
  apply span_add_subset
  rw [BitVec.toNat_ofNat, StackSize]
  omega

theorem stackTop_disjoint : Disjoint (span (stackTop stack) 8) (span stack 4) := by
  rw [Set.disjoint_left]
  intro x hx hs
  rw [mem_span] at hx hs
  unfold stackTop StackSize at hx
  bv_omega

theorem stackTop_span_subset : span (stackTop stack) 4 ⊆ span stack (4 * StackSize) := by
  have h := @stackTop_subset stack 4 0 (by decide)
  rwa [show stackTop stack + BitVec.ofNat 32 0 = stackTop stack by bv_omega] at h

/-- The stack is elsewhere: the object holds what is stored in it. -/
theorem StackAllocate_agree_object :
    Mem.Agree (span stack (4 * StackSize)) (StackAllocate k object stack func arg m)
      ((((((m.write (object + offset .esp) (stackTop stack)).write (object + PC) k.ThreadRoot).write
        (object + offset StartupPC) k.InterruptEnable).write (object + offset InitialPC) func).write
        (object + offset InitialArg) arg).write (object + offset WhenDonePC) k.ThreadFinish) := by
  have htop : Mem.Agree (span stack (4 * StackSize)) (m.write (stackTop stack) k.ThreadRoot) m :=
    fun x hx => Mem.write_of_notMem fun h => hx (stackTop_span_subset h)
  have hfence : ∀ m' : Mem, Mem.Agree (span stack (4 * StackSize)) (m'.write stack STACK_FENCEPOST) m' :=
    fun m' x hx => Mem.write_of_notMem fun h => hx (span_subset (by decide) h)
  have h2 : Mem.Agree (span stack (4 * StackSize))
      (((m.write (stackTop stack) k.ThreadRoot).write (object + offset .esp) (stackTop stack)).write
        stack STACK_FENCEPOST) (m.write (object + offset .esp) (stackTop stack)) :=
    fun x hx => (hfence _ x hx).trans (htop.write _ _ x hx)
  rw [StackAllocate_eq]
  exact ((((h2.write _ _).write _ _).write _ _).write _ _).write _ _

variable (h : Disjoint (context object) (span stack (4 * StackSize)))
include h

theorem StackAllocate_savedRegs :
    savedRegs (StackAllocate k object stack func arg m) object = allocated k object stack func arg m := by
  funext r
  unfold savedRegs
  rw [StackAllocate_agree_object.read (h.mono_left (context_offset object r))]
  cases r <;> simp (disch := decide) only [allocated, PC, offset, Mem.read_write, Mem.read_write_add]

theorem StackAllocate_read_PC : (StackAllocate k object stack func arg m).read (object + PC) = k.ThreadRoot := by
  rw [StackAllocate_agree_object.read (h.mono_left (context_PC object))]
  simp (disch := decide) only [PC, offset, Mem.read_write, Mem.read_write_add]

/-- Nothing is stored on the stack after the word for `ThreadRoot` and the fencepost. -/
theorem StackAllocate_read_stack {a : Word} (ha : span a 4 ⊆ span stack (4 * StackSize)) :
    (StackAllocate k object stack func arg m).read a =
      ((m.write (stackTop stack) k.ThreadRoot).write stack STACK_FENCEPOST).read a := by
  have hr : ∀ (m' : Mem) (r : Reg) (v : Word), (m'.write (object + offset r) v).read a = m'.read a :=
    fun m' r v => Mem.read_write_of_disjoint ((h.mono_left (context_offset object r)).mono_right ha).symm
  have hp : ∀ (m' : Mem) (v : Word), (m'.write (object + PC) v).read a = m'.read a :=
    fun m' v => Mem.read_write_of_disjoint ((h.mono_left (context_PC object)).mono_right ha).symm
  have hf : ∀ m' m'' : Mem, (∀ x ∈ span a 4, m' x = m'' x) → ∀ x ∈ span a 4,
      m'.write stack STACK_FENCEPOST x = m''.write stack STACK_FENCEPOST x := by
    intro m' m'' hm
    have hagree : Mem.Agree (Set.compl (span a 4)) m' m'' := fun x hx => hm x (not_not.mp hx)
    exact fun x hx => hagree.write _ _ x (not_not.mpr hx)
  rw [StackAllocate_eq, hr, hr, hr, hr, hp]
  apply Mem.read_congr
  apply hf
  intro x hx
  apply Mem.write_of_notMem
  exact fun ho => Set.disjoint_left.mp h (context_offset object .esp ho) (ha hx)

theorem StackAllocate_read_stackTop :
    (StackAllocate k object stack func arg m).read (stackTop stack) = k.ThreadRoot := by
  rw [StackAllocate_read_stack h stackTop_span_subset, Mem.read_write_of_disjoint, Mem.read_write]
  exact stackTop_disjoint.mono_left (span_subset (by decide))

theorem StackAllocate_CheckOverflow : CheckOverflow (StackAllocate k object stack func arg m) stack = true := by
  unfold CheckOverflow
  rw [StackAllocate_read_stack h (span_subset (by decide)), Mem.read_write]
  exact beq_self_eq_true _

end StackAllocate

variable {eax_save t1 t2 : Word} {s : State}

theorem saved_of_notMem {x : Word} (hc : x ∉ context t1) (he : x ∉ span eax_save 4) :
    saved eax_save t1 s x = s.mem x := by
  have hr : ∀ r, x ∉ span (t1 + offset r) 4 := fun r h => hc (context_offset t1 r h)
  have hpc : x ∉ span (t1 + PC) 4 := fun h => hc (context_PC t1 h)
  simp only [saved, Mem.write_of_notMem (hr _), Mem.write_of_notMem hpc, Mem.write_of_notMem he]

theorem saved_read_offset (r : Reg) : (saved eax_save t1 s).read (t1 + offset r) = s.reg r := by
  cases r <;> simp (disch := decide) only [saved, Mem.read_write, Mem.read_write_add]

theorem saved_read_PC : (saved eax_save t1 s).read (t1 + PC) = s.mem.read (s.reg .esp) :=
  Mem.read_write ..

theorem saved_read_of_disjoint {a : Word} (hc : Disjoint (span a 4) (context t1))
    (he : Disjoint (span a 4) (span eax_save 4)) : (saved eax_save t1 s).read a = s.mem.read a :=
  Mem.read_congr fun _ hx => saved_of_notMem (Set.disjoint_left.mp hc hx) (Set.disjoint_left.mp he hx)

/-- The frame of a call of `SWITCH`: the return address and the two arguments. -/
abbrev frame (esp : Word) : Set Word := span esp 12

theorem frame_add (esp : Word) {d : Word} (h : d.toNat + 4 ≤ 12) : span (esp + d) 4 ⊆ frame esp :=
  span_add_subset h

theorem execs_save (hframe : Disjoint (frame (s.reg .esp)) (span eax_save 4))
    (hcontext : Disjoint (frame (s.reg .esp)) (context t1)) (hsave : Disjoint (span eax_save 4) (context t1))
    (harg : s.mem.read (s.reg .esp + 4) = t1) :
    execs (saveOps eax_save) s =
      ⟨Function.update (Function.update s.reg .eax t1) .ebx (s.mem.read (s.reg .esp)), s.eip,
        saved eax_save t1 s⟩ := by
  have hesp : s.reg .esp = s.reg .esp + 0 := (BitVec.add_zero _).symm
  have h4 : (s.mem.write eax_save (s.reg .eax)).read (s.reg .esp + 4) = t1 := by
    rw [Mem.read_write_of_disjoint (hframe.mono_left (frame_add _ (by decide)))]
    exact harg
  -- `_eax_save` and the return address are read while the registers are being stored
  have hr : ∀ (m : Mem) (r : Reg) (v : Word), (m.write (t1 + offset r) v).read eax_save = m.read eax_save :=
    fun m r v => Mem.read_write_of_disjoint (hsave.mono_right (context_offset t1 r))
  have hf : ∀ (m : Mem) (r : Reg) (v : Word),
      (m.write (t1 + offset r) v).read (s.reg .esp + 0) = m.read (s.reg .esp + 0) := fun m r v =>
    Mem.read_write_of_disjoint
      ((hcontext.mono_left (frame_add _ (by decide))).mono_right (context_offset t1 r))
  have hfe : (s.mem.write eax_save (s.reg .eax)).read (s.reg .esp + 0) = s.mem.read (s.reg .esp + 0) :=
    Mem.read_write_of_disjoint (hframe.mono_left (frame_add _ (by decide)))
  simp (disch := decide) only [saveOps, execs_cons, execs_nil, I386.Op.exec, State.set, h4,
    Function.update_self, Function.update_of_ne, Function.update_idem, hr, hf, hfe, Mem.read_write]
  rw [← hesp]
  rfl

theorem execs_restore (hsave : Disjoint (span eax_save 4) (context t2))
    (hslot : Disjoint (span (savedRegs s.mem t2 .esp + 4) 4) (span eax_save 4))
    (harg : s.mem.read (s.reg .esp + 8) = t2) :
    execs (restoreOps eax_save) s =
      ⟨savedRegs s.mem t2, s.eip,
        (s.mem.write eax_save (savedRegs s.mem t2 .eax)).write (savedRegs s.mem t2 .esp + 4)
          (s.mem.read (t2 + PC))⟩ := by
  have hr : ∀ (v : Word) (r : Reg), (s.mem.write eax_save v).read (t2 + offset r) = savedRegs s.mem t2 r :=
    fun v r => Mem.read_write_of_disjoint ((hsave.mono_right (context_offset t2 r)).symm)
  have hp : ∀ v : Word, (s.mem.write eax_save v).read (t2 + PC) = s.mem.read (t2 + PC) :=
    fun v => Mem.read_write_of_disjoint ((hsave.mono_right (context_PC t2)).symm)
  have heax : ∀ (m : Mem) (v : Word),
      (m.write (savedRegs s.mem t2 .esp + 4) v).read eax_save = m.read eax_save :=
    fun m v => Mem.read_write_of_disjoint hslot.symm
  simp (disch := decide) only [restoreOps, execs_cons, execs_nil, I386.Op.exec, State.set, harg,
    Function.update_self, Function.update_of_ne, Function.update_idem, hr, hp, heax, Mem.read_write]
  congr 1
  funext r
  cases r <;> rfl

theorem execs_SWITCH
    (hframe : Disjoint (frame (s.reg .esp)) (span eax_save 4))
    (hcontext : Disjoint (frame (s.reg .esp)) (context t1)) (hsave : Disjoint (span eax_save 4) (context t1))
    (hsave' : Disjoint (span eax_save 4) (context t2))
    (hslot : Disjoint (span (savedRegs (saved eax_save t1 s) t2 .esp + 4) 4) (span eax_save 4))
    (harg : s.mem.read (s.reg .esp + 4) = t1) (harg' : s.mem.read (s.reg .esp + 8) = t2) :
    execs (switchOps eax_save) s =
      ⟨savedRegs (saved eax_save t1 s) t2, s.eip,
        ((saved eax_save t1 s).write eax_save (savedRegs (saved eax_save t1 s) t2 .eax)).write
          (savedRegs (saved eax_save t1 s) t2 .esp + 4) ((saved eax_save t1 s).read (t2 + PC))⟩ := by
  have harg2 : (saved eax_save t1 s).read (s.reg .esp + 8) = t2 := by
    rw [saved_read_of_disjoint (hcontext.mono_left (frame_add _ (by decide)))
      (hframe.mono_left (frame_add _ (by decide)))]
    exact harg'
  rw [switchOps, execs_append, execs_save hframe hcontext hsave harg]
  exact @execs_restore eax_save t2 ⟨_, s.eip, saved eax_save t1 s⟩ hsave' hslot harg2

/-- `SWITCH` from its first instruction to the one it returns to. -/
theorem steps_SWITCH {code : Code} {z : Word} (hcode : Placed code s.eip (SWITCH eax_save) z) :
    steps code ((switchOps eax_save).length + 1) s = some (Instr.ret.exec z (execs (switchOps eax_save) s)) :=
  run_routine hcode

end Nachos.Threads.Switch
