import Nachos.Machine.Signed
import Nachos.Machine.Step

/-!
# Logical instructions (machine/mipssim.cc)

The bitwise operations and the shifts, read off the fields of the instruction
word. Three of them are not what they should be: `OR` takes `rs` twice, and `SRL`
and `SRLV` shift an `int`.

* `logicalResult`: where a logical instruction writes, and what;
* `logical_iff`: the operands for which the source does that.
-/

namespace Nachos

open Nachos.Framework

/-- The bitwise operations, and the shifts that fill with zeros. -/
def OpCode.isLogical : OpCode → Bool
  | and | or | xor | nor | andi | ori | xori | lui | sll | sllv | srl | srlv => true
  | _ => false

/-- The register that a logical instruction is to write, and its value. -/
def logicalResult (r : Registers) (raw : BitVec 32) : Fin 32 × BitVec 32 :=
  let instr := decode raw
  let rs := r (gp instr.rs)
  let rt := r (gp instr.rt)
  let zeroExtended := (immediate raw).setWidth 32
  match instr.opCode with
  | .and => (instr.rd, rs &&& rt)
  | .or => (instr.rd, rs ||| rt)
  | .xor => (instr.rd, rs ^^^ rt)
  | .nor => (instr.rd, ~~~(rs ||| rt))
  | .andi => (instr.rt, rs &&& zeroExtended)
  | .ori => (instr.rt, rs ||| zeroExtended)
  | .xori => (instr.rt, rs ^^^ zeroExtended)
  | .lui => (instr.rt, immediate raw ++ (0 : BitVec 16))
  | .sll => (instr.rd, rt <<< (shamt raw).toNat)
  | .sllv => (instr.rd, rt <<< (rs.toNat % 32))
  | .srl => (instr.rd, rt >>> (shamt raw).toNat)
  | .srlv => (instr.rd, rt >>> (rs.toNat % 32))
  | _ => (instr.rd, 0)

/-- The instruction writes its result to its register and changes nothing else; and
r0 is 0 after it. -/
structure Logical (m : Machine) (raw : BitVec 32) : Prop where
  result : m.execute (decode raw) =
    .ok (m.writes (gp (logicalResult m.registers raw).1) (logicalResult m.registers raw).2)
  zero : ∀ e m', m.execute (decode raw) = .ok e → e.finish = .ok m' → m'.registers 0 = 0

/-- The operands for which the source computes the result. -/
def LogicalAgrees (r : Registers) (raw : BitVec 32) : Prop :=
  let instr := decode raw
  let rs := r (gp instr.rs)
  let rt := r (gp instr.rt)
  match instr.opCode with
  | .or => rs ||| rt = rs
  | .srl => rt.msb = false ∨ shamt raw = 0
  | .srlv => rt.msb = false ∨ rs.toNat % 32 = 0
  | _ => True

/-- The upper half is what `LUI` loads: the sign extension leaves with the shift. -/
theorem signExtend_shiftLeft (v : BitVec 16) : v.signExtend 32 <<< 16 = v ++ (0 : BitVec 16) := by
  ext i hi
  rw [BitVec.getElem_shiftLeft, BitVec.getElem_append]
  by_cases h16 : i < 16
  · simp [h16]
  · have hlt : i - 16 < 16 := by omega
    simp [h16, hlt, BitVec.getElem_signExtend]

section
variable {m : Machine} {raw : BitVec 32} (hop : (decode raw).opCode.isLogical = true)
include hop

theorem execute_logical_iff :
    m.execute (decode raw) =
        .ok (m.writes (gp (logicalResult m.registers raw).1) (logicalResult m.registers raw).2) ↔
      LogicalAgrees m.registers raw := by
  have himm := @decode_immediate raw
  have hsh := @decode_shamt raw
  unfold logicalResult LogicalAgrees
  generalize decode raw = instr at *
  generalize immediate raw = imm at *
  have hshamt := toNat_shamt raw
  generalize shamt raw = sh at *
  have hshlt := sh.isLt
  obtain ⟨op, rs, rt, rd, extra⟩ := instr
  -- the amount of `SLLV` and `SRLV`
  have hamount := toNat_and_thirty_one (m.registers (gp rs))
  have hamountlt := Nat.mod_lt (m.registers (gp rs)).toNat (show 0 < 32 by decide)
  cases op with
  | and | xor | nor => exact iff_of_true rfl trivial
  | or =>
    refine writes_eq_iff.trans ?_
    rw [BitVec.or_self]
    exact eq_comm
  | andi | ori | xori =>
    obtain rfl := himm rfl
    refine writes_eq_iff.trans (iff_of_true ?_ trivial)
    rw [signExtend_and_low]
  | lui =>
    obtain rfl := himm rfl
    exact writes_eq_iff.trans (iff_of_true (signExtend_shiftLeft imm) trivial)
  | sll =>
    obtain rfl := hsh rfl
    refine writes_eq_iff.trans (iff_of_true ?_ trivial)
    rw [BitVec.shiftLeft_eq', hshamt]
  | sllv =>
    refine writes_eq_iff.trans (iff_of_true ?_ trivial)
    rw [BitVec.shiftLeft_eq', hamount]
  | srl =>
    obtain rfl := hsh rfl
    refine writes_eq_iff.trans ?_
    rw [hshamt, eq_comm, ushiftRight_iff_signed hshlt, toNat_eq_zero_iff]
  | srlv =>
    refine writes_eq_iff.trans ?_
    rw [hamount, eq_comm]
    exact ushiftRight_iff_signed hamountlt
  | _ => cases hop

end

/-- For every state and every logical instruction, the source does what it is to do if and
only if its operands meet `LogicalAgrees`. -/
theorem logical_iff (m : Machine) (raw : BitVec 32)
    (hop : (decode raw).opCode.isLogical = true) :
    Logical m raw ↔ LogicalAgrees m.registers raw := by
  rw [← execute_logical_iff hop]
  exact ⟨Logical.result, fun h => ⟨h, fun _ _ _ hfinish => finish_zero hfinish⟩⟩

/-- `LUI r1, 0x8000`. -/
theorem logical_iff_lui : Logical (withRegisters fun _ => 0) 0x3c018000 :=
  (logical_iff (withRegisters fun _ => 0) 0x3c018000 (by decide)).mpr trivial

/-- `OR r1, r2, r3` with 0 and 1 leaves 0. -/
theorem not_logical : ¬ ∀ (m : Machine) (raw : BitVec 32), (decode raw).opCode.isLogical = true →
    Logical m raw := by
  intro h
  have hor := (h (withRegisters fun i => if i = 3 then 1 else 0) 0x00430825 (by decide)).result
  have hagrees : (0 : BitVec 32) ||| 1 = 0 := (execute_logical_iff (by decide)).mp hor
  exact absurd hagrees (by decide)

end Nachos
