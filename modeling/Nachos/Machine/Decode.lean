import Nachos.Machine.MipsSim

/-!
# Decoded instructions (machine/mipssim.cc, mipssim.h)

The fields of an instruction word, and what `decode` makes of them: an
instruction with an immediate gets it sign-extended in `extra`, a `SPECIAL` one
its shift amount.

* `decode_immediate`, `decode_shamt`: `extra`, by the operation.
-/

namespace Nachos

open Nachos.Framework

/-- The immediate of an instruction word. -/
def immediate (raw : BitVec 32) : BitVec 16 := raw.setWidth 16

/-- The shift amount of an instruction word. -/
def shamt (raw : BitVec 32) : BitVec 5 := (raw >>> 6).setWidth 5

namespace OpCode

/-- An operation of `specialTable`. -/
def isSpecial : OpCode → Bool
  | sll | srl | sra | sllv | srlv | srav | jr | jalr | syscall | mfhi | mthi | mflo | mtlo | mult
  | multu | div | divu | add | addu | sub | subu | and | or | xor | nor | slt | sltu => true
  | _ => false

/-- An operation with an immediate. -/
def hasImmediate : OpCode → Bool
  | bltz | bgez | bltzal | bgezal | beq | bne | blez | bgtz | addi | addiu | slti | sltiu | andi
  | ori | xori | lui | lb | lh | lwl | lw | lbu | lhu | lwr | sb | sh | swl | sw | swr => true
  | _ => false

end OpCode

/-! ## The tables -/

theorem opTable_format : ∀ p ∈ opTable,
    (p.2 = .r → p.1 = .special) ∧ (p.2 = .j → p.1 = .j ∨ p.1 = .jal) ∧
      (p.2 = .i → p.1 ≠ .special ∧ p.1.isSpecial = false ∧ p.1 ≠ .j ∧ p.1 ≠ .jal) := by decide

theorem specialTable_special : ∀ op ∈ specialTable, op.hasImmediate = false ∧
    op ≠ .special ∧ op ≠ .bcond := by decide

theorem getD_mem {α : Type} {l : List α} {i : Nat} {a : α} (ha : a ∈ l) : l.getD i a ∈ l := by
  rw [List.getD_eq_getElem?_getD]
  cases h : l[i]? with
  | none => exact ha
  | some b => exact List.mem_of_getElem? h

/-! ## Immediates and shift amounts -/

theorem getLsbD_low (i : Nat) (hi : i < 32) : (0xffff : BitVec 32).getLsbD i = decide (i < 16) := by
  revert i
  decide

theorem getLsbD_high (i : Nat) (hi : i < 32) : (0xffff0000 : BitVec 32).getLsbD i = decide (16 ≤ i) := by
  revert i
  decide

/-- The sign extension in `Decode`. -/
theorem signExtend_immediate (raw : BitVec 32) :
    (if raw &&& 0xffff &&& 0x8000 ≠ 0 then raw &&& 0xffff ||| 0xffff0000 else raw &&& 0xffff) =
      (immediate raw).signExtend 32 := by
  have hsign : raw &&& 0xffff &&& 0x8000 = if raw.getLsbD 15 then 0x8000 else 0 := by
    rw [BitVec.and_assoc]
    exact BitVec.and_twoPow raw 15
  have hmsb : (immediate raw).msb = raw.getLsbD 15 := by
    simp [immediate, BitVec.msb_eq_getLsbD_last]
  have hlow : ∀ i < 16, (immediate raw).getLsbD i = raw.getLsbD i := by
    intro i hi
    simp [immediate, hi]
  rw [hsign]
  ext i hi
  rw [BitVec.getElem_signExtend, hmsb, ← BitVec.getLsbD_eq_getElem]
  cases hb : raw.getLsbD 15 with
  | false =>
    rw [if_neg (by simp), BitVec.getLsbD_and, getLsbD_low i hi]
    by_cases h16 : i < 16 <;> simp [h16, ← BitVec.getLsbD_eq_getElem, hlow]
  | true =>
    rw [if_pos (by simp), BitVec.getLsbD_or, BitVec.getLsbD_and, getLsbD_low i hi, getLsbD_high i hi]
    by_cases h16 : i < 16
    · simp [h16, ← BitVec.getLsbD_eq_getElem, hlow]
    · simp [h16, Nat.not_lt.mp h16]

/-- The mask that makes an immediate unsigned again. -/
theorem signExtend_and_low (v : BitVec 16) : v.signExtend 32 &&& 0xffff = v.setWidth 32 := by
  ext i hi
  rw [BitVec.getElem_and, BitVec.getElem_signExtend, BitVec.getElem_setWidth, ← BitVec.getLsbD_eq_getElem,
    getLsbD_low i hi]
  by_cases h16 : i < 16
  · simp [h16]
  · simp [h16, BitVec.getLsbD_of_ge v i (Nat.not_lt.mp h16)]

theorem toNat_and_thirty_one (v : BitVec 32) : (v &&& 0x1f).toNat = v.toNat % 32 := by
  rw [BitVec.toNat_and]
  exact Nat.and_two_pow_sub_one_eq_mod v.toNat 5

theorem shamt_eq (raw : BitVec 32) : (raw >>> 6) &&& 0x1f = (shamt raw).setWidth 32 := by
  apply BitVec.eq_of_toNat_eq
  rw [toNat_and_thirty_one, shamt, BitVec.toNat_setWidth, BitVec.toNat_setWidth]
  omega

/-- How the tables lead to an operation: by `specialTable`, by the `rt` field of a
`BCOND`, or at once. -/
theorem decode_cases (raw : BitVec 32) :
    ((decode raw).opCode ∈ specialTable ∧ (decode raw).extra = (shamt raw).setWidth 32) ∨
    ((decode raw).opCode = .j ∨ (decode raw).opCode = .jal) ∨
    ((decode raw).opCode.isSpecial = false ∧ (decode raw).opCode ≠ .special ∧
      (decode raw).opCode ≠ .bcond ∧ (decode raw).extra = (immediate raw).signExtend 32) := by
  unfold decode
  have hmem : opTable.getD ((raw >>> 26) &&& 0x3f).toNat (.res, .i) ∈ opTable := getD_mem (by decide)
  generalize opTable.getD ((raw >>> 26) &&& 0x3f).toNat (.res, .i) = p at hmem
  obtain ⟨hr, hj, hi⟩ := opTable_format p hmem
  obtain ⟨op, format⟩ := p
  simp only
  cases format with
  | r =>
    obtain rfl := hr rfl
    exact .inl ⟨getD_mem (by decide), shamt_eq raw⟩
  | j =>
    rcases hj rfl with rfl | rfl
    · exact .inr (.inl (.inl rfl))
    · exact .inr (.inl (.inr rfl))
  | i =>
    refine .inr (.inr ?_)
    rw [← signExtend_immediate]
    obtain ⟨hsp, hs, -, -⟩ := hi rfl
    simp only at hsp hs
    cases op with
    | special => exact absurd rfl hsp
    | bcond =>
      simp only
      split_ifs <;> simp [OpCode.isSpecial]
    | _ => first
      | exact absurd hs (by decide)
      | exact ⟨rfl, OpCode.noConfusion, OpCode.noConfusion, rfl⟩

/-- An immediate is sign-extended. -/
theorem decode_immediate {raw : BitVec 32} (h : (decode raw).opCode.hasImmediate = true) :
    (decode raw).extra = (immediate raw).signExtend 32 := by
  rcases decode_cases raw with ⟨hop, -⟩ | hop | ⟨-, -, -, hextra⟩
  · rw [(specialTable_special _ hop).1] at h
    cases h
  · rcases hop with hop | hop <;> rw [hop] at h <;> cases h
  · exact hextra

/-- A shift amount has five bits. -/
theorem decode_shamt {raw : BitVec 32} (h : (decode raw).opCode.isSpecial = true) :
    (decode raw).extra = (shamt raw).setWidth 32 := by
  rcases decode_cases raw with ⟨-, hextra⟩ | hop | ⟨hop, -⟩
  · exact hextra
  · rcases hop with hop | hop <;> rw [hop] at h <;> cases h
  · rw [hop] at h
    cases h

theorem toNat_shamt (raw : BitVec 32) : ((shamt raw).setWidth 32).toNat = (shamt raw).toNat := by
  have := (shamt raw).isLt
  rw [BitVec.toNat_setWidth, Nat.mod_eq_of_lt (by omega)]

end Nachos
