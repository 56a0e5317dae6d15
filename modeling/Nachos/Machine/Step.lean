import Nachos.Machine.Decode

/-!
# One instruction (machine/mipssim.cc)

`Machine::OneInstruction` in three parts: the fetch, the `switch`, and the common
tail, which does the load that is pending and moves the program counters.

* `oneInstruction_eq_ok`, `finish_gp`: the parts, and what the tail leaves;
* `Instruction.dest`, `Instruction.target`: the register an instruction writes at
  once, and the one it loads; it writes no other (`Machine.execute_leaves`);
* `LoadsGeneral`: the pending load goes to a general register; an instruction
  leaves such a load behind (`Machine.oneInstruction_loads`).
-/

namespace Nachos

open Nachos.Framework

theorem Registers.write_comm {r : Registers} {i j : Fin 40} (hij : i ≠ j) (v u : BitVec 32) :
    (r.write i v).write j u = (r.write j u).write i v := by
  unfold Registers.write
  exact Function.update_comm hij v u r

theorem gp_ne (r : Fin 32) {i : Fin 40} (hi : 32 ≤ i.val) : gp r ≠ i := by
  rintro rfl
  exact absurd hi (Nat.not_le.mpr r.isLt)

/-! ## Delayed loads -/

/-- The pending load goes to a general register. -/
def LoadsGeneral (r : Registers) : Prop := (r loadReg).toNat < 32

theorem LoadsGeneral.write {r : Registers} (h : LoadsGeneral r) {i : Fin 40} (v : BitVec 32)
    (hi : i ≠ loadReg) : LoadsGeneral (r.write i v) := by
  rw [LoadsGeneral, Registers.write_of_ne _ hi.symm]
  exact h

/-- The registers after `DelayedLoad`. -/
theorem delayedLoad_apply {r r' : Registers} {nextReg nextValue : BitVec 32}
    (h : r.delayedLoad nextReg nextValue = .ok r') (i : Fin 40) :
    r' i = if i = 0 then 0 else if i = loadValueReg then nextValue else if i = loadReg then nextReg
      else if i.val = (r loadReg).toNat then r loadValueReg else r i := by
  unfold Registers.delayedLoad at h
  split at h
  · cases h
    simp only [Registers.write, Function.update_apply, Fin.ext_iff]
  · cases h

theorem delayedLoad_loadReg {r r' : Registers} {nextReg nextValue : BitVec 32}
    (h : r.delayedLoad nextReg nextValue = .ok r') : r' loadReg = nextReg := by
  rw [delayedLoad_apply h, if_neg (by decide), if_neg (by decide), if_pos rfl]

/-- It leaves the control registers alone. -/
theorem LoadsGeneral.delayedLoad {r r' : Registers} {nextReg nextValue : BitVec 32}
    (hr : LoadsGeneral r) (h : r.delayedLoad nextReg nextValue = .ok r') {i : Fin 40}
    (hi : 32 ≤ i.val) (h₁ : i ≠ loadReg) (h₂ : i ≠ loadValueReg) : r' i = r i := by
  have hlt : (r loadReg).toNat < 32 := hr
  have h₀ : i ≠ 0 := fun heq => absurd (heq ▸ hi) (by decide)
  rw [delayedLoad_apply h, if_neg h₀, if_neg h₂, if_neg h₁, if_neg (by omega)]

/-! ## What an instruction writes -/

/-- The general register that an instruction writes at once: its result, or the return
address. -/
def Instruction.dest (instr : Instruction) : Option (Fin 32) :=
  match instr.opCode with
  | .add | .addu | .and | .jalr | .mfhi | .mflo | .nor | .or | .sll | .sllv | .slt | .sltu | .sra
  | .srav | .srl | .srlv | .sub | .subu | .xor => some instr.rd
  | .addi | .addiu | .andi | .lui | .ori | .slti | .sltiu | .xori => some instr.rt
  | .bgezal | .bltzal | .jal => some 31
  | _ => none

/-- The register that an instruction loads. -/
def Instruction.target (instr : Instruction) : Option (Fin 32) :=
  match instr.opCode with
  | .lb | .lbu | .lh | .lhu | .lw | .lwl | .lwr => some instr.rt
  | _ => none

/-- The execution writes `dest`, `Hi` and `Lo` at most, and leaves the load of `target`. -/
structure Leaves (m : Machine) (instr : Instruction) (e : Executed) : Prop where
  registers : ∀ i, i ≠ hiReg → i ≠ loReg → (∀ d, instr.dest = some d → i ≠ gp d) →
    e.machine.registers i = m.registers i
  nextLoadReg : e.nextLoadReg = (instr.target.map fun r => BitVec.ofNat 32 r).getD 0

/-- The same, if the instruction goes through. -/
def AllLeave (m : Machine) (instr : Instruction) (x : Except Fault Executed) : Prop :=
  ∀ e, x = .ok e → Leaves m instr e

section
variable {m m' : Machine} {instr : Instruction} {pcAfter value : BitVec 32}

theorem leave_error (f : Fault) : AllLeave m instr (.error f) := fun _ he => by cases he

theorem leave_ite {c : Prop} [Decidable c] {x y : Except Fault Executed} (hx : AllLeave m instr x)
    (hy : AllLeave m instr y) : AllLeave m instr (if c then x else y) := by
  split
  · exact hx
  · exact hy

/-- The registers are as before. -/
theorem leave_same (hr : m'.registers = m.registers) (ht : instr.target = none) :
    AllLeave m instr (.ok ⟨m', pcAfter, 0, value⟩) := by
  intro e he
  cases he
  exact ⟨fun i _ _ _ => congrFun hr i, by rw [ht]; rfl⟩

theorem leave_dest {d : Fin 32} (hd : instr.dest = some d) (ht : instr.target = none) (v : BitVec 32) :
    AllLeave m instr (.ok ⟨{ m with registers := m.registers.write (gp d) v }, pcAfter, 0, value⟩) := by
  intro e he
  cases he
  exact ⟨fun i _ _ hne => Registers.write_of_ne _ (hne d hd) v, by rw [ht]; rfl⟩

theorem leave_hiLo {r : Registers} (hr : ∀ i, i ≠ hiReg → i ≠ loReg → r i = m.registers i)
    (ht : instr.target = none) :
    AllLeave m instr (.ok ⟨{ m with registers := r }, pcAfter, 0, value⟩) := by
  intro e he
  cases he
  exact ⟨fun i hhi hlo _ => hr i hhi hlo, by rw [ht]; rfl⟩

theorem leave_load {r : Fin 32} (hr : m'.registers = m.registers) (ht : instr.target = some r) :
    AllLeave m instr (.ok ⟨m', pcAfter, BitVec.ofNat 32 r, value⟩) := by
  intro e he
  cases he
  exact ⟨fun i _ _ _ => congrFun hr i, by rw [ht]; rfl⟩

theorem leave_readMem {addr : BitVec 32} {size : Nat} {k : BitVec 32 × Machine → Except Fault Executed}
    (hk : ∀ p : BitVec 32 × Machine, p.2.registers = m.registers → AllLeave m instr (k p)) :
    AllLeave m instr (m.readMem addr size >>= k) := by
  intro e he
  obtain ⟨p, hp, he⟩ := bind_eq_ok.mp he
  exact hk p (Machine.readMem_sameMapping hp).2 e he

theorem leave_writeMem {addr v : BitVec 32} {size : Nat} {k : Machine → Except Fault Executed}
    (hr : m'.registers = m.registers)
    (hk : ∀ p : Machine, p.registers = m.registers → AllLeave m instr (k p)) :
    AllLeave m instr (m'.writeMem addr size v >>= k) := by
  intro e he
  obtain ⟨p, hp, he⟩ := bind_eq_ok.mp he
  exact hk p ((Machine.writeMem_sameMapping hp).2.trans hr) e he

end

theorem Machine.execute_leaves (m : Machine) (instr : Instruction) :
    AllLeave m instr (m.execute instr) := by
  have hhi : ∀ (v : BitVec 32) i, i ≠ hiReg → i ≠ loReg → m.registers.write hiReg v i = m.registers i :=
    fun v i hi _ => Registers.write_of_ne _ hi v
  have hlo : ∀ (v : BitVec 32) i, i ≠ hiReg → i ≠ loReg → m.registers.write loReg v i = m.registers i :=
    fun v i _ hi => Registers.write_of_ne _ hi v
  have hlohi : ∀ (v u : BitVec 32) i, i ≠ hiReg → i ≠ loReg →
      (m.registers.write loReg v).write hiReg u i = m.registers i :=
    fun v u i hi hi' => (Registers.write_of_ne _ hi u).trans (hlo v i hi hi')
  have hhilo : ∀ (v u : BitVec 32) i, i ≠ hiReg → i ≠ loReg →
      (m.registers.write hiReg v).write loReg u i = m.registers i :=
    fun v u i hi hi' => (Registers.write_of_ne _ hi' u).trans (hhi v i hi hi')
  obtain ⟨op, rs, rt, rd, extra⟩ := instr
  -- by what the operation does: a write, none, `Hi` and `Lo`, a load, a store, a trap
  cases op with
  | bgezal | bltzal | jal => exact leave_dest (d := 31) rfl rfl _
  | mthi => exact leave_hiLo (hhi _) rfl
  | mtlo => exact leave_hiLo (hlo _) rfl
  | mult | multu => exact leave_hiLo (hhilo _ _) rfl
  | div | divu => exact leave_ite (leave_hiLo (hlohi _ _) rfl) (leave_hiLo (hlohi _ _) rfl)
  | lb | lbu => exact leave_readMem fun p hp => leave_ite (leave_load hp rfl) (leave_load hp rfl)
  | lh | lhu =>
    exact leave_ite (leave_error _)
      (leave_readMem fun p hp => leave_ite (leave_load hp rfl) (leave_load hp rfl))
  | lw | lwl | lwr =>
    exact leave_ite (leave_error _) (leave_readMem fun p hp => leave_load hp rfl)
  | sb | sh | sw => exact leave_writeMem rfl fun p hp => leave_same hp rfl
  | swl | swr =>
    exact leave_ite (leave_error _)
      (leave_readMem fun p hp => leave_writeMem hp fun p hp => leave_same hp rfl)
  | add | addi | sub => exact leave_ite (leave_error _) (leave_dest rfl rfl _)
  | _ => first
    | exact leave_same rfl rfl
    | exact leave_dest rfl rfl _
    | exact leave_error _

/-- Where the instruction goes through, the load it leaves is one to a general
register. -/
def Loads (x : Except Fault Executed) : Prop := ∀ e, x = .ok e → e.nextLoadReg.toNat < 32

theorem Machine.execute_loads (m : Machine) (instr : Instruction) : Loads (m.execute instr) := by
  intro e he
  rw [(m.execute_leaves instr e he).nextLoadReg]
  cases instr.target with
  | none => exact Nat.zero_lt_succ 31
  | some r =>
    show (BitVec.ofNat 32 r).toNat < 32
    rw [BitVec.toNat_ofNat, Nat.mod_eq_of_lt (by omega)]
    exact r.isLt

/-! ## The common tail -/

/-- What the execution of an instruction leaves that writes one register. -/
def Machine.writes (m : Machine) (num : Fin 40) (value : BitVec 32) : Executed :=
  ⟨{ m with registers := m.registers.write num value }, m.registers nextPCReg + 4, 0, 0⟩

/-- The tail of `Machine::OneInstruction`. -/
def Executed.finish (e : Executed) : Except Fault Machine := do
  let r ← (e.machine.registers.delayedLoad e.nextLoadReg e.nextLoadValue).mapError .stop
  let r := r.write prevPCReg (r pcReg)
  let r := r.write pcReg (r nextPCReg)
  .ok { e.machine with registers := r.write nextPCReg e.pcAfter }

theorem Machine.oneInstruction_eq (m : Machine) : m.oneInstruction =
    m.readMem (m.registers pcReg) 4 >>= fun p => p.2.execute (decode p.1) >>= Executed.finish := rfl

theorem Machine.oneInstruction_eq_ok {m m' : Machine} : m.oneInstruction = .ok m' ↔
    ∃ raw m₁ e, m.readMem (m.registers pcReg) 4 = .ok (raw, m₁) ∧
      m₁.execute (decode raw) = .ok e ∧ e.finish = .ok m' := by
  rw [oneInstruction_eq]
  constructor
  · intro h
    obtain ⟨⟨raw, m₁⟩, hfetch, h⟩ := bind_eq_ok.mp h
    obtain ⟨e, he, h⟩ := bind_eq_ok.mp h
    exact ⟨raw, m₁, e, hfetch, he, h⟩
  · rintro ⟨raw, m₁, e, hfetch, he, h⟩
    rw [hfetch, ok_bind, he]
    exact h

theorem finish_eq_ok {e : Executed} {m' : Machine} : e.finish = .ok m' ↔
    ∃ r, e.machine.registers.delayedLoad e.nextLoadReg e.nextLoadValue = .ok r ∧
      m' = { e.machine with registers :=
        ((r.write prevPCReg (r pcReg)).write pcReg (r nextPCReg)).write nextPCReg e.pcAfter } := by
  unfold Executed.finish
  constructor
  · intro h
    obtain ⟨r, hr, h⟩ := bind_eq_ok.mp h
    cases h
    refine ⟨r, ?_, rfl⟩
    cases hd : e.machine.registers.delayedLoad e.nextLoadReg e.nextLoadValue with
    | error s =>
      rw [hd] at hr
      cases hr
    | ok r' =>
      rw [hd] at hr
      cases hr
      rfl
  · rintro ⟨r, hr, rfl⟩
    rw [hr]
    rfl

section
variable {e : Executed} {m' : Machine} (h : e.finish = .ok m')
include h

/-- A register that is no program counter is as `DelayedLoad` leaves it. -/
theorem finish_apply {i : Fin 40} (h₁ : i ≠ pcReg) (h₂ : i ≠ nextPCReg) (h₃ : i ≠ prevPCReg) :
    m'.registers i = if i = 0 then 0 else if i = loadValueReg then e.nextLoadValue
      else if i = loadReg then e.nextLoadReg
      else if i.val = (e.machine.registers loadReg).toNat then e.machine.registers loadValueReg
      else e.machine.registers i := by
  obtain ⟨r, hr, rfl⟩ := finish_eq_ok.mp h
  show ((r.write prevPCReg _).write pcReg _).write nextPCReg _ i = _
  rw [Registers.write_of_ne _ h₂, Registers.write_of_ne _ h₁, Registers.write_of_ne _ h₃,
    delayedLoad_apply hr]

theorem finish_zero : m'.registers 0 = 0 := by
  rw [finish_apply h (by decide) (by decide) (by decide), if_pos rfl]

theorem finish_loadReg : m'.registers loadReg = e.nextLoadReg := by
  rw [finish_apply h (by decide) (by decide) (by decide), if_neg (by decide), if_neg (by decide),
    if_pos rfl]

theorem finish_loadValueReg : m'.registers loadValueReg = e.nextLoadValue := by
  rw [finish_apply h (by decide) (by decide) (by decide), if_neg (by decide), if_pos rfl]

/-- The load that was pending is done after the instruction's own writes. -/
theorem finish_gp {i : Fin 32} (hi : i ≠ 0) :
    m'.registers (gp i) =
      if i.val = (e.machine.registers loadReg).toNat then e.machine.registers loadValueReg
      else e.machine.registers (gp i) := by
  have hlt := i.isLt
  have hne : ∀ j : Fin 40, 32 ≤ j.val → gp i ≠ j := by
    rintro j hj rfl
    exact absurd hj (Nat.not_le.mpr hlt)
  have hzero : gp i ≠ 0 := by
    intro h0
    exact hi (Fin.ext (congrArg (fun j : Fin 40 => j.val) h0))
  rw [finish_apply h (hne _ (by decide)) (hne _ (by decide)) (hne _ (by decide)), if_neg hzero,
    if_neg (hne _ (by decide)), if_neg (hne _ (by decide))]
  rfl

end

theorem Machine.oneInstruction_loads {m m' : Machine} (h : m.oneInstruction = .ok m') :
    LoadsGeneral m'.registers := by
  obtain ⟨raw, m₁, e, -, he, hfinish⟩ := oneInstruction_eq_ok.mp h
  rw [LoadsGeneral, finish_loadReg hfinish]
  exact m₁.execute_loads _ e he

/-- A machine with these registers, and no page in its table. -/
def withRegisters (r : Registers) : Machine := ⟨r, fun _ => 0, [], 0⟩

end Nachos
