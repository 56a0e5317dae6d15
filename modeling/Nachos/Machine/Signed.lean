import Nachos.Framework.Words
import Nachos.Machine.Step

/-!
# Signed instructions (machine/mipssim.cc)

The comparisons with sign, the branches on a sign, the signed division and the
arithmetic shifts. The source reads the operands from an array of
`unsigned int`, so it compares, divides and shifts them as unsigned.

* `Machine.signed`: what these instructions are for;
* `execute_signed_iff`: the operands for which the source does that.
-/

namespace Nachos

open Nachos.Framework

/-- The instructions with signed operands. -/
def OpCode.isSigned : OpCode → Bool
  | slt | slti | bgtz | blez | div | sra | srav => true
  | _ => false

/-- What a signed instruction is to do, with its operands read as two's complement. -/
def Machine.signed (m : Machine) (instr : Instruction) : Executed :=
  let r := m.registers
  let rs := r (gp instr.rs)
  let rt := r (gp instr.rt)
  let pcAfter := r nextPCReg + 4
  let branch := r nextPCReg + indexToAddr instr.extra
  match instr.opCode with
  | .slt => m.writes (gp instr.rd) (if rs.toInt < rt.toInt then 1 else 0)
  | .slti => m.writes (gp instr.rt) (if rs.toInt < instr.extra.toInt then 1 else 0)
  | .bgtz => ⟨m, if 0 < rs.toInt then branch else pcAfter, 0, 0⟩
  | .blez => ⟨m, if rs.toInt ≤ 0 then branch else pcAfter, 0, 0⟩
  | .div =>
    let quotient := BitVec.ofInt 32 (rs.toInt.tdiv rt.toInt)
    let remainder := BitVec.ofInt 32 (rs.toInt.tmod rt.toInt)
    ⟨{ m with registers := (r.write loReg quotient).write hiReg remainder }, pcAfter, 0, 0⟩
  | .sra => m.writes (gp instr.rd) (rt.sshiftRight instr.extra.toNat)
  | .srav => m.writes (gp instr.rd) (rt.sshiftRight (rs.toNat % 32))
  | _ => ⟨m, pcAfter, 0, 0⟩

/-- The operands for which it makes no difference that the source reads them as
unsigned. -/
def SignsAgree (r : Registers) (instr : Instruction) : Prop :=
  let rs := r (gp instr.rs)
  let rt := r (gp instr.rt)
  match instr.opCode with
  | .slt => (0 ≤ rs.toInt ↔ 0 ≤ rt.toInt)
  | .slti => (0 ≤ rs.toInt ↔ 0 ≤ instr.extra.toInt)
  | .bgtz | .blez => 0 ≤ rs.toInt ∨ indexToAddr instr.extra = 4
  | .div => (0 ≤ rs.toInt ∧ 0 < rt.toInt) ∨ (rs.toInt < 0 ∧ rt.toInt = 1) ∨
      (0 ≤ rs.toInt ∧ rt.toInt < 0 ∧ rs.toInt < -rt.toInt) ∨ rs = rt
  | .sra => 0 ≤ rt.toInt ∨ instr.extra = 0
  | .srav => 0 ≤ rt.toInt ∨ rs.toNat % 32 = 0
  | _ => True

/-- The divisor is not 0, and the quotient fits. -/
def Divides (r : Registers) (instr : Instruction) : Prop :=
  r (gp instr.rt) ≠ 0 ∧ ¬ ((r (gp instr.rs)).toInt = -2 ^ 31 ∧ (r (gp instr.rt)).toInt = -1)

theorem Registers.write_inj {r : Registers} {i : Fin 40} {v v' : BitVec 32} :
    r.write i v = r.write i v' ↔ v = v' :=
  (Function.update_injective r i).eq_iff

theorem Registers.write_write_inj {r : Registers} {i j : Fin 40} (hij : i ≠ j)
    {v v' u u' : BitVec 32} :
    (r.write i v).write j u = (r.write i v').write j u' ↔ v = v' ∧ u = u' := by
  constructor
  · intro h
    have hi := congrFun h i
    rw [Registers.write_of_ne _ hij, Registers.write_of_ne _ hij, Registers.write_self,
      Registers.write_self] at hi
    rw [hi, Registers.write_inj] at h
    exact ⟨hi, h⟩
  · rintro ⟨rfl, rfl⟩
    rfl

theorem ite_eq_ite_iff {α : Type} {p q : Prop} [Decidable p] [Decidable q] {a b : α} :
    (if p then a else b) = (if q then a else b) ↔ (p ↔ q) ∨ a = b := by
  by_cases hp : p <;> by_cases hq : q <;> simp [hp, hq, eq_comm]

theorem msb_eq_false_iff_nonneg {w : Nat} {x : BitVec w} : x.msb = false ↔ 0 ≤ x.toInt := by
  have := x.isLt
  rcases sign_cases x with ⟨hm, hi, hn⟩ | ⟨hm, hi, hn⟩ <;> rw [hm, hi]
  · simp
  · simp only [Bool.true_eq_false, false_iff]
    omega

/-- Numbers of one sign compare as unsigned. -/
theorem lt_iff_nonneg_iff {w : Nat} {x y : BitVec w} :
    (x < y ↔ x.toInt < y.toInt) ↔ (0 ≤ x.toInt ↔ 0 ≤ y.toInt) := by
  rw [lt_iff_signed, ← msb_eq_false_iff_nonneg, ← msb_eq_false_iff_nonneg]
  cases x.msb <;> cases y.msb <;> simp

section
variable {m : Machine} {rs rt rd : Fin 32} {extra : BitVec 32}

/-- Two instructions that write one register do the same if they write the same value. -/
theorem writes_eq_iff {i : Fin 40} {v v' : BitVec 32} :
    (Except.ok (m.writes i v) : Except Fault Executed) = .ok (m.writes i v') ↔ v = v' := by
  simp only [Machine.writes, Except.ok.injEq, Executed.mk.injEq, Machine.mk.injEq,
    Registers.write_inj, and_true]

/-- The same for branches. -/
theorem branch_eq_iff {p q : Prop} [Decidable p] [Decidable q] {nextPC : BitVec 32} :
    (Except.ok ⟨m, if p then nextPC + indexToAddr extra else nextPC + 4, 0, 0⟩ : Except Fault Executed) =
      .ok ⟨m, if q then nextPC + indexToAddr extra else nextPC + 4, 0, 0⟩ ↔
    (p ↔ q) ∨ indexToAddr extra = 4 := by
  simp only [Except.ok.injEq, Executed.mk.injEq, and_true, true_and, ite_eq_ite_iff, BitVec.add_right_inj]

theorem execute_slt_iff :
    m.execute ⟨.slt, rs, rt, rd, extra⟩ = .ok (m.signed ⟨.slt, rs, rt, rd, extra⟩) ↔
      SignsAgree m.registers ⟨.slt, rs, rt, rd, extra⟩ := by
  refine writes_eq_iff.trans (ite_eq_ite_iff.trans ?_)
  rw [lt_iff_nonneg_iff, or_iff_left (by decide)]
  rfl

theorem execute_slti_iff :
    m.execute ⟨.slti, rs, rt, rd, extra⟩ = .ok (m.signed ⟨.slti, rs, rt, rd, extra⟩) ↔
      SignsAgree m.registers ⟨.slti, rs, rt, rd, extra⟩ := by
  refine writes_eq_iff.trans (ite_eq_ite_iff.trans ?_)
  rw [lt_iff_nonneg_iff, or_iff_left (by decide)]
  rfl

theorem execute_bgtz_iff :
    m.execute ⟨.bgtz, rs, rt, rd, extra⟩ = .ok (m.signed ⟨.bgtz, rs, rt, rd, extra⟩) ↔
      SignsAgree m.registers ⟨.bgtz, rs, rt, rd, extra⟩ := by
  refine branch_eq_iff.trans (or_congr ?_ Iff.rfl)
  have := lt_iff_nonneg_iff (x := 0) (y := m.registers (gp rs))
  simpa using this

theorem execute_blez_iff :
    m.execute ⟨.blez, rs, rt, rd, extra⟩ = .ok (m.signed ⟨.blez, rs, rt, rd, extra⟩) ↔
      SignsAgree m.registers ⟨.blez, rs, rt, rd, extra⟩ := by
  refine branch_eq_iff.trans (or_congr ?_ Iff.rfl)
  have := lt_iff_nonneg_iff (x := 0) (y := m.registers (gp rs))
  rw [← BitVec.not_lt, ← Int.not_lt, not_iff_not]
  simpa using this

theorem execute_div_iff (hrt : m.registers (gp rt) ≠ 0) :
    m.execute ⟨.div, rs, rt, rd, extra⟩ = .ok (m.signed ⟨.div, rs, rt, rd, extra⟩) ↔
      SignsAgree m.registers ⟨.div, rs, rt, rd, extra⟩ := by
  have hcode : m.execute ⟨.div, rs, rt, rd, extra⟩ = .ok ⟨{ m with
      registers := (m.registers.write loReg (m.registers (gp rs) / m.registers (gp rt))).write hiReg
        (m.registers (gp rs) % m.registers (gp rt)) }, m.registers nextPCReg + 4, 0, 0⟩ := if_neg hrt
  rw [hcode]
  refine Iff.trans ?_ (udiv_umod_iff_signed hrt)
  rw [← ofInt_tdiv, ← ofInt_tmod]
  simp only [Machine.signed, Except.ok.injEq, Executed.mk.injEq, Machine.mk.injEq, and_true]
  exact Registers.write_write_inj (by decide)

theorem execute_sra_iff (hsh : extra.toNat < 32) :
    m.execute ⟨.sra, rs, rt, rd, extra⟩ = .ok (m.signed ⟨.sra, rs, rt, rd, extra⟩) ↔
      SignsAgree m.registers ⟨.sra, rs, rt, rd, extra⟩ := by
  refine writes_eq_iff.trans ((ushiftRight_iff_signed hsh).trans ?_)
  rw [msb_eq_false_iff_nonneg, toNat_eq_zero_iff]
  rfl

theorem execute_srav_iff :
    m.execute ⟨.srav, rs, rt, rd, extra⟩ = .ok (m.signed ⟨.srav, rs, rt, rd, extra⟩) ↔
      SignsAgree m.registers ⟨.srav, rs, rt, rd, extra⟩ := by
  have hsh : (m.registers (gp rs) &&& 0x1f).toNat = (m.registers (gp rs)).toNat % 32 :=
    toNat_and_thirty_one _
  have hlt := Nat.mod_lt (m.registers (gp rs)).toNat (show 0 < 32 by decide)
  refine writes_eq_iff.trans ?_
  rw [BitVec.ushiftRight_eq', hsh, ushiftRight_iff_signed hlt, msb_eq_false_iff_nonneg]
  rfl

end

/-- For every state and every signed instruction, the source does what it is to do if and
only if its operands meet `SignsAgree`. -/
theorem signed_iff (m : Machine) (raw : BitVec 32) (hop : (decode raw).opCode.isSigned = true)
    (hdiv : (decode raw).opCode = .div → Divides m.registers (decode raw)) :
    m.execute (decode raw) = .ok (m.signed (decode raw)) ↔ SignsAgree m.registers (decode raw) := by
  have hsh : (decode raw).opCode = .sra → (decode raw).extra.toNat < 32 := by
    intro hsra
    rw [decode_shamt (by rw [hsra]; rfl), toNat_shamt]
    exact (shamt raw).isLt
  generalize decode raw = instr at *
  obtain ⟨op, rs, rt, rd, extra⟩ := instr
  cases op with
  | slt => exact execute_slt_iff
  | slti => exact execute_slti_iff
  | bgtz => exact execute_bgtz_iff
  | blez => exact execute_blez_iff
  | div => exact execute_div_iff (hdiv rfl).1
  | sra => exact execute_sra_iff (hsh rfl)
  | srav => exact execute_srav_iff
  | _ => cases hop

/-- `DIV r2, r3` with 7 and 2. -/
theorem signed_iff_div :
    let m := withRegisters fun i => if i = 2 then 7 else 2
    m.execute (decode 0x0043001a) = .ok (m.signed (decode 0x0043001a)) :=
  (signed_iff (withRegisters fun i => if i = 2 then 7 else 2) 0x0043001a (by decide)
    fun _ => ⟨by decide, by decide⟩).mpr (.inl ⟨by decide, by decide⟩)

/-- `SLT r1, r2, r3` with -1 and 0 leaves 0: the source compares 2 ^ 32 - 1 and 0. -/
theorem not_signed : ¬ ∀ (m : Machine) (raw : BitVec 32), (decode raw).opCode.isSigned = true →
    ((decode raw).opCode = .div → Divides m.registers (decode raw)) →
    m.execute (decode raw) = .ok (m.signed (decode raw)) := by
  intro h
  have hslt := h (withRegisters fun i => if i = 2 then -1 else 0) 0x0043082a (by decide)
    fun hdiv => absurd hdiv (by decide)
  have hsigns : SignsAgree _ ⟨.slt, 2, 3, 1, _⟩ := execute_slt_iff.mp hslt
  have hnonneg : (0 : Int) ≤ (-1 : BitVec 32).toInt := hsigns.mpr (by decide)
  exact absurd hnonneg (by decide)

end Nachos
