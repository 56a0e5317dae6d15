import Nachos.Machine.Memory
import Nachos.Machine.Step

/-!
# Exceptions (machine/machine.cc, mipssim.cc)

An instruction that traps has read at most: its registers and main memory are as
before it when `ExceptionHandler` is called, but for the load that was pending.

* `Machine.execute_traps`: every operation checks, and reads, before it writes;
* `Machine.handled`: one instruction with the handler it may call;
* `Registers.Sound.handled`: r0 is 0 and a pending load is one to a general register,
  after every instruction;
* `precise`: what the handler finds, and that nothing follows it.
-/

namespace Nachos

open Nachos.Framework

/-! ## Where a trap leaves the machine -/

/-- Where `x` traps, main memory and the registers are those of `m`. -/
def Traps {α : Type} (m : Machine) (x : Except Fault α) : Prop :=
  ∀ which badVAddr m', x = .error (.exception which badVAddr m') →
    m'.mainMemory = m.mainMemory ∧ m'.registers = m.registers

section
variable {α : Type} {m : Machine}

theorem traps_ok (a : α) : Traps m (.ok a) := fun _ _ _ h => by cases h

theorem traps_stop (s : Stop) : Traps m (.error (.stop s) : Except Fault α) :=
  fun _ _ _ h => by cases h

theorem traps_raise (which : ExceptionType) (badVAddr : BitVec 32) :
    Traps m (.error (.exception which badVAddr m) : Except Fault α) := by
  intro w b m' h
  cases h
  exact ⟨rfl, rfl⟩

theorem traps_ite {c : Prop} [Decidable c] {x y : Except Fault α} (hx : Traps m x) (hy : Traps m y) :
    Traps m (if c then x else y) := by
  split
  · exact hx
  · exact hy

/-- A read that goes through has changed neither. -/
theorem readMem_unchanged {m' : Machine} {addr value : BitVec 32} {size : Nat}
    (h : m.readMem addr size = .ok (value, m')) :
    m'.mainMemory = m.mainMemory ∧ m'.registers = m.registers := by
  unfold Machine.readMem at h
  obtain ⟨p, hp, h⟩ := bind_eq_ok.mp h
  obtain ⟨e, -, rfl⟩ := translate_eq_ok.mp hp
  simp only at h
  split at h <;> cases h <;> exact ⟨rfl, rfl⟩

theorem traps_readMem {addr : BitVec 32} {size : Nat} {k : BitVec 32 × Machine → Except Fault α}
    (hk : ∀ p : BitVec 32 × Machine, Traps p.2 (k p)) : Traps m (m.readMem addr size >>= k) := by
  intro w b m' h
  cases hread : m.readMem addr size with
  | error f =>
    rw [hread] at h
    cases h
    rw [Machine.readMem_exception hread]
    exact ⟨rfl, rfl⟩
  | ok p =>
    rw [hread] at h
    obtain ⟨hmem, hreg⟩ := readMem_unchanged hread
    obtain ⟨hmem', hreg'⟩ := hk p w b m' h
    exact ⟨hmem'.trans hmem, hreg'.trans hreg⟩

/-- A write is the last thing an instruction does. -/
theorem traps_writeMem {addr value : BitVec 32} {size : Nat} {f : Machine → α} :
    Traps m (m.writeMem addr size value >>= fun m' => .ok (f m')) := by
  intro w b m' h
  cases hwrite : m.writeMem addr size value with
  | error f =>
    rw [hwrite] at h
    cases h
    rw [Machine.writeMem_exception hwrite]
    exact ⟨rfl, rfl⟩
  | ok p =>
    rw [hwrite] at h
    cases h

end

theorem Machine.execute_traps (m : Machine) (instr : Instruction) : Traps m (m.execute instr) := by
  obtain ⟨op, rs, rt, rd, extra⟩ := instr
  cases op with
  | add | addi | sub => exact traps_ite (traps_raise _ _) (traps_ok _)
  | div | divu => exact traps_ite (traps_ok _) (traps_ok _)
  | lb | lbu => exact traps_readMem fun p => traps_ite (traps_ok _) (traps_ok _)
  | lh | lhu =>
    exact traps_ite (traps_raise _ _) (traps_readMem fun p => traps_ite (traps_ok _) (traps_ok _))
  | lw => exact traps_ite (traps_raise _ _) (traps_readMem fun p => traps_ok _)
  | lwl | lwr => exact traps_ite (traps_stop _) (traps_readMem fun p => traps_ok _)
  | sb | sh | sw => exact traps_writeMem
  | swl | swr => exact traps_ite (traps_stop _) (traps_readMem fun p => traps_writeMem)
  | syscall | res | unimp => exact traps_raise _ _
  | special | bcond => exact traps_stop _
  | _ => exact traps_ok _

/-- The common tail does not trap. -/
theorem finish_ne_exception (e : Executed) (which : ExceptionType) (badVAddr : BitVec 32)
    (m' : Machine) : e.finish ≠ .error (.exception which badVAddr m') := by
  intro h
  unfold Executed.finish at h
  cases hd : e.machine.registers.delayedLoad e.nextLoadReg e.nextLoadValue with
  | error s =>
    rw [hd] at h
    cases h
  | ok r =>
    rw [hd] at h
    cases h

theorem Machine.oneInstruction_traps (m : Machine) : Traps m m.oneInstruction := by
  rw [Machine.oneInstruction_eq]
  refine traps_readMem fun p => ?_
  intro w b m' h
  cases hx : p.2.execute (decode p.1) with
  | error f =>
    rw [hx] at h
    cases h
    exact p.2.execute_traps _ w b m' hx
  | ok e =>
    rw [hx] at h
    exact absurd h (finish_ne_exception e w b m')

/-! ## The handler -/

/-- `Machine::RaiseException`, up to the call of `ExceptionHandler`. -/
def Machine.raiseException (m : Machine) (badVAddr : BitVec 32) : Except Stop Machine := do
  let r ← (m.registers.write badVAddrReg badVAddr).delayedLoad 0 0
  .ok { m with registers := r }

/-- `Machine::OneInstruction` with what `ExceptionHandler` does: an exception ends the
instruction. -/
def Machine.handled (handler : ExceptionType → Machine → Except Stop Machine) (m : Machine) :
    Except Stop Machine :=
  match m.oneInstruction with
  | .ok m' => .ok m'
  | .error (.exception which badVAddr m') => m'.raiseException badVAddr >>= handler which
  | .error (.stop s) => .error s

/-- The registers between two instructions: r0 is 0, and the load that is pending goes to a
general register. -/
structure Registers.Sound (r : Registers) : Prop where
  zero : r 0 = 0
  load : LoadsGeneral r

/-- What `ExceptionHandler` finds, for an instruction executed in `m`. -/
structure Precise (m : Machine) (badVAddr : BitVec 32) (m' : Machine) : Prop where
  mainMemory : m'.mainMemory = m.mainMemory
  control : ∀ i ∈ [hiReg, loReg, pcReg, nextPCReg, prevPCReg], m'.registers i = m.registers i
  /-- The load that was pending has been applied; r0 stays 0. -/
  general : ∀ i : Fin 32, m'.registers (gp i) =
    if i ≠ 0 ∧ i.val = (m.registers loadReg).toNat then m.registers loadValueReg
    else m.registers (gp i)
  pending : m'.registers loadReg = 0
  badVAddr : m'.registers badVAddrReg = badVAddr

/-- After a trap of this kind the handler is entered in the state that `Precise` describes. -/
theorem Registers.Sound.raiseException {m m₁ : Machine} (hm : m.registers.Sound)
    (hmem : m₁.mainMemory = m.mainMemory) (hreg : m₁.registers = m.registers) (badVAddr : BitVec 32) :
    ∃ m', m₁.raiseException badVAddr = .ok m' ∧ Precise m badVAddr m' ∧ m'.registers.Sound := by
  have hlt : (m.registers loadReg).toNat < 32 := hm.load
  have hload : (m.registers.write badVAddrReg badVAddr) loadReg = m.registers loadReg :=
    Registers.write_of_ne _ (by decide) badVAddr
  have hvalue : (m.registers.write badVAddrReg badVAddr) loadValueReg = m.registers loadValueReg :=
    Registers.write_of_ne _ (by decide) badVAddr
  obtain ⟨r, hr⟩ : ∃ r, (m.registers.write badVAddrReg badVAddr).delayedLoad 0 0 = .ok r := by
    rw [Registers.delayedLoad, dif_pos (by rw [hload]; omega)]
    exact ⟨_, rfl⟩
  have happly := delayedLoad_apply hr
  rw [hload, hvalue] at happly
  -- a register that the pending load cannot name
  have hcontrol : ∀ i : Fin 40, 32 ≤ i.val → i ≠ loadReg → i ≠ loadValueReg →
      r i = m.registers.write badVAddrReg badVAddr i := by
    intro i hi h₁ h₂
    have h₀ : i ≠ 0 := fun h => absurd (h ▸ hi) (by decide)
    rw [happly, if_neg h₀, if_neg h₂, if_neg h₁, if_neg (by omega)]
  refine ⟨{ m₁ with registers := r }, ?_, ⟨hmem, ?_, ?_, ?_, ?_⟩, ?_, ?_⟩
  · unfold Machine.raiseException
    rw [hreg, hr]
    rfl
  · intro i hi
    have hi' : 32 ≤ i.val ∧ i ≠ loadReg ∧ i ≠ loadValueReg ∧ i ≠ badVAddrReg := by
      revert i
      decide
    exact (hcontrol i hi'.1 hi'.2.1 hi'.2.2.1).trans (Registers.write_of_ne _ hi'.2.2.2 badVAddr)
  · intro i
    show r (gp i) = _
    by_cases hi : i = 0
    · subst hi
      exact ((happly 0).trans (if_pos rfl)).trans hm.zero.symm
    · have hgp : gp i ≠ 0 := fun h => hi (Fin.ext (congrArg (fun j : Fin 40 => j.val) h))
      rw [happly, if_neg hgp, if_neg (gp_ne i (by decide)), if_neg (gp_ne i (by decide)),
        Registers.write_of_ne _ (gp_ne i (by decide))]
      exact if_congr (by rw [and_iff_right hi]; rfl) rfl rfl
  · exact delayedLoad_loadReg hr
  · show r badVAddrReg = badVAddr
    rw [hcontrol _ (by decide) (by decide) (by decide), Registers.write_self]
  · show r 0 = 0
    rw [happly, if_pos rfl]
  · show (r loadReg).toNat < 32
    rw [delayedLoad_loadReg hr]
    decide

/-- Between instructions the registers stay sound. -/
theorem Registers.Sound.handled {handler : ExceptionType → Machine → Except Stop Machine}
    {m m' : Machine} (hm : m.registers.Sound)
    (hhandler : ∀ which m₁ m₂, m₁.registers.Sound → handler which m₁ = .ok m₂ → m₂.registers.Sound)
    (h : m.handled handler = .ok m') : m'.registers.Sound := by
  unfold Machine.handled at h
  split at h
  · rename_i m₁ hone
    cases h
    obtain ⟨raw, m₂, e, -, -, hfinish⟩ := Machine.oneInstruction_eq_ok.mp hone
    exact ⟨finish_zero hfinish, Machine.oneInstruction_loads hone⟩
  · rename_i which badVAddr m₁ hone
    obtain ⟨hmem, hreg⟩ := m.oneInstruction_traps _ _ _ hone
    obtain ⟨e, he, -, hsound⟩ := hm.raiseException hmem hreg badVAddr
    rw [he] at h
    exact hhandler which e m' hsound h
  · cases h

/-- For every machine and every handler: an exception enters the handler in the state that
`Precise` describes, and the instruction ends with it. -/
theorem precise (handler : ExceptionType → Machine → Except Stop Machine) (m : Machine)
    (hm : m.registers.Sound) (which : ExceptionType) (badVAddr : BitVec 32) (m₁ : Machine)
    (h : m.oneInstruction = .error (.exception which badVAddr m₁)) :
    ∃ m', Precise m badVAddr m' ∧ m.handled handler = handler which m' := by
  obtain ⟨hmem, hreg⟩ := m.oneInstruction_traps _ _ _ h
  obtain ⟨m', hraise, hprecise, -⟩ := hm.raiseException hmem hreg badVAddr
  refine ⟨m', hprecise, ?_⟩
  unfold Machine.handled
  rw [h]
  simp only
  rw [hraise]
  rfl

/-- The fetch at address 0 without a page table, while 7 is pending for r5. -/
theorem precise_fetch :
    let m := withRegisters fun i => if i = loadReg then 5 else if i = loadValueReg then 7 else 0
    ∃ m', Precise m 0 m' ∧ m.handled (fun _ m => .ok m) = .ok m' := by
  have hload : (5 : BitVec 32).toNat < 32 := by decide
  exact precise (fun _ m => .ok m)
    (withRegisters fun i => if i = loadReg then 5 else if i = loadValueReg then 7 else 0)
    ⟨rfl, hload⟩ .addressError 0 _ rfl

end Nachos
