import Nachos.Machine.Signed
import Mathlib.Tactic.Ring

/-!
# Integer arithmetic (machine/mipssim.cc)

Addition and subtraction with and without overflow, the multiplication `Mult`,
and the unsigned division.

* `Machine.arithmetic`: what these instructions are for, in exact arithmetic;
* `multLoop_spec`: the loop of `Mult` adds to `hi:lo` the product of what is left
  of `a` and `bHi:bLo`;
* `execute_arithmetic`: the source computes what the instructions are for.
-/

namespace Nachos

open Nachos.Framework

/-- The instructions of integer arithmetic. -/
def OpCode.isArithmetic : OpCode → Bool
  | add | addi | sub | addu | addiu | subu | mult | multu | divu => true
  | _ => false

/-- What an instruction leaves that writes `Hi` and `Lo`. -/
def Machine.writesHiLo (m : Machine) (hi lo : BitVec 32) : Executed :=
  ⟨{ m with registers := (m.registers.write hiReg hi).write loReg lo }, m.registers nextPCReg + 4, 0, 0⟩

/-- The value is written if it is a 32-bit integer, and an overflow otherwise. -/
def Machine.writesExact (m : Machine) (num : Fin 40) (value : Int) : Except Fault Executed :=
  if value < -2 ^ 31 ∨ 2 ^ 31 ≤ value then .error (.exception .overflow 0 m)
  else .ok (m.writes num (BitVec.ofInt 32 value))

/-- What an arithmetic instruction is to do, in exact arithmetic. -/
def Machine.arithmetic (m : Machine) (raw : BitVec 32) : Except Fault Executed :=
  let instr := decode raw
  let rs := m.registers (gp instr.rs)
  let rt := m.registers (gp instr.rt)
  match instr.opCode with
  | .add => m.writesExact (gp instr.rd) (rs.toInt + rt.toInt)
  | .addi => m.writesExact (gp instr.rt) (rs.toInt + (immediate raw).toInt)
  | .sub => m.writesExact (gp instr.rd) (rs.toInt - rt.toInt)
  | .addu => .ok (m.writes (gp instr.rd) (BitVec.ofInt 32 (rs.toNat + rt.toNat)))
  | .addiu => .ok (m.writes (gp instr.rt) (BitVec.ofInt 32 (rs.toNat + (immediate raw).toInt)))
  | .subu => .ok (m.writes (gp instr.rd) (BitVec.ofInt 32 (rs.toNat - rt.toNat)))
  | .mult =>
    let product := BitVec.ofInt 64 (rs.toInt * rt.toInt)
    .ok (m.writesHiLo (product.extractLsb' 32 32) (product.extractLsb' 0 32))
  | .multu =>
    let product := BitVec.ofNat 64 (rs.toNat * rt.toNat)
    .ok (m.writesHiLo (product.extractLsb' 32 32) (product.extractLsb' 0 32))
  | .divu =>
    if rt.toNat = 0 then .ok (m.writesHiLo 0 0)
    else .ok (m.writesHiLo (BitVec.ofNat 32 (rs.toNat % rt.toNat)) (BitVec.ofNat 32 (rs.toNat / rt.toNat)))
  | _ => .ok (m.writesHiLo 0 0)

/-! ## The sign bit -/

theorem and_signBit (x : BitVec 32) : x &&& signBit = if x.msb then signBit else 0 := by
  rw [BitVec.msb_eq_getLsbD_last]
  exact BitVec.and_twoPow x 31

theorem and_signBit_eq_zero {x : BitVec 32} : x &&& signBit = 0 ↔ x.msb = false := by
  rw [and_signBit]
  cases x.msb <;> decide

theorem xor_signBit_eq_zero {x y : BitVec 32} : (x ^^^ y) &&& signBit = 0 ↔ x.msb = y.msb := by
  rw [and_signBit_eq_zero, BitVec.msb_xor]
  cases x.msb <;> cases y.msb <;> decide

/-- The test for an overflow of `OP_ADD`. -/
theorem add_overflow {x y : BitVec 32} :
    (x ^^^ y) &&& signBit = 0 ∧ (y ^^^ (x + y)) &&& signBit ≠ 0 ↔
      x.toInt + y.toInt < -2 ^ 31 ∨ 2 ^ 31 ≤ x.toInt + y.toInt := by
  rw [Ne, xor_signBit_eq_zero, xor_signBit_eq_zero, add_overflow_iff]
  omega

/-- The test of `OP_SUB`. -/
theorem sub_overflow {x y : BitVec 32} :
    (x ^^^ y) &&& signBit ≠ 0 ∧ (x ^^^ (x - y)) &&& signBit ≠ 0 ↔
      x.toInt - y.toInt < -2 ^ 31 ∨ 2 ^ 31 ≤ x.toInt - y.toInt := by
  rw [Ne, Ne, xor_signBit_eq_zero, xor_signBit_eq_zero, sub_overflow_iff]
  omega

/-! ## Multiplication -/

/-- The shift fills with the sign, but not the bits that are left. -/
theorem toNat_sshiftRight_one_mod {n : Nat} (hn : n < 32) (a : BitVec 32) :
    (a.sshiftRight 1).toNat % 2 ^ n = a.toNat / 2 % 2 ^ n := by
  apply Nat.eq_of_testBit_eq
  intro i
  rw [Nat.testBit_mod_two_pow, Nat.testBit_mod_two_pow, Nat.testBit_div_two]
  by_cases hi : i < n
  · have h : 1 + i < 32 := by omega
    simp only [hi, decide_true, Bool.true_and]
    show (a.sshiftRight 1).getLsbD i = a.getLsbD (i + 1)
    rw [BitVec.getLsbD_sshiftRight, if_pos h, Nat.add_comm]
    simp only [Nat.not_le.mpr (show i < 32 by omega), decide_false, Bool.not_false, Bool.true_and]
  · simp only [hi, decide_false, Bool.false_and]

theorem and_one_eq_zero {a : BitVec 32} : a &&& 1 = 0 ↔ a.toNat % 2 = 0 := by
  rw [← toNat_eq_zero_iff, toNat_and_one]

/-- The last bit that is set: the loop ends early. -/
theorem eq_one_of_rest_eq_zero {a : BitVec 32} (hbit : a &&& 1 ≠ 0) (hrest : a &&& 0xfffffffe = 0) :
    a = 1 := by
  have hall : a &&& 1 = a := by
    calc a &&& 1 = a &&& 0xfffffffe ||| a &&& 1 := by rw [hrest]; exact BitVec.zero_or.symm
      _ = a &&& (0xfffffffe ||| 1) := BitVec.and_or_distrib_left.symm
      _ = a := BitVec.and_allOnes
  rw [Ne, and_one_eq_zero] at hbit
  apply BitVec.eq_of_toNat_eq
  rw [← hall, toNat_and_one]
  show a.toNat % 2 = 1
  omega

/-- A turn of the loop that adds: the carry goes into the high word. -/
theorem mult_add (bHi bLo hi lo : BitVec 32) :
    ((if lo + bLo < bLo then hi + 1 else hi) + bHi) ++ (lo + bLo) = (hi ++ lo) + (bHi ++ bLo) :=
  (append_add_append hi lo bHi bLo).symm

/-- `bHi:bLo` is doubled. -/
theorem mult_double (bHi bLo : BitVec 32) :
    (bHi <<< 1 ||| (if bLo &&& 0x80000000 ≠ 0 then (1 : BitVec 32) else 0)) ++ (bLo <<< 1) =
      (bHi ++ bLo) + (bHi ++ bLo) := by
  have hsign : (bLo &&& 0x80000000 ≠ 0) ↔ bLo.msb = true := by
    rw [Ne, show bLo &&& 0x80000000 = 0 ↔ bLo.msb = false from and_signBit_eq_zero, Bool.not_eq_false]
  rw [append_shiftLeft_one]
  simp only [hsign]
  rfl

/-- The loop of `Mult`: what is left of `a`, times `bHi:bLo`, is added to `hi:lo`. By
induction on the turns: each takes a bit off `a` and doubles `bHi:bLo`. -/
theorem multLoop_spec {n : Nat} (hn : n ≤ 32) (a bHi bLo hi lo : BitVec 32) :
    (multLoop n a bHi bLo hi lo).1 ++ (multLoop n a bHi bLo hi lo).2 =
      (hi ++ lo) + BitVec.ofNat 64 (a.toNat % 2 ^ n) * (bHi ++ bLo) := by
  induction n generalizing a bHi bLo hi lo with
  | zero =>
    show (hi ++ lo : BitVec 64) = _
    rw [Nat.pow_zero, Nat.mod_one, BitVec.zero_mul, BitVec.add_zero]
  | succ n ih =>
    have hbit : a.toNat % 2 ^ (n + 1) = a.toNat % 2 + 2 * (a.toNat / 2 % 2 ^ n) := by
      rw [Nat.pow_succ', Nat.mod_mul]
    have hdouble : ∀ (k : Nat) (x : BitVec 64),
        BitVec.ofNat 64 k * (x + x) = BitVec.ofNat 64 (2 * k) * x := by
      intro k x
      rw [Nat.two_mul, BitVec.ofNat_add, BitVec.mul_add, BitVec.add_mul]
    have hrest : ∀ hi lo, (multLoop n (a.sshiftRight 1)
          (bHi <<< 1 ||| (if bLo &&& 0x80000000 ≠ 0 then 1 else 0)) (bLo <<< 1) hi lo).1 ++
        (multLoop n (a.sshiftRight 1)
          (bHi <<< 1 ||| (if bLo &&& 0x80000000 ≠ 0 then 1 else 0)) (bLo <<< 1) hi lo).2 =
        (hi ++ lo) + BitVec.ofNat 64 (2 * (a.toNat / 2 % 2 ^ n)) * (bHi ++ bLo) := by
      intro hi lo
      rw [ih (by omega), mult_double, toNat_sshiftRight_one_mod (by omega), hdouble]
    unfold multLoop
    simp only
    split
    · rename_i hodd
      have hone : a.toNat % 2 = 1 := by
        rw [Ne, and_one_eq_zero] at hodd
        omega
      rw [hbit, hone, BitVec.ofNat_add]
      split
      · rename_i hlast
        obtain rfl := eq_one_of_rest_eq_zero hodd hlast
        rw [mult_add]
        have hnone : (1 : BitVec 32).toNat / 2 % 2 ^ n = 0 := by
          rw [show (1 : BitVec 32).toNat / 2 = 0 from rfl, Nat.zero_mod]
        rw [hnone, Nat.mul_zero, BitVec.add_zero, BitVec.one_mul]
      · rw [hrest, mult_add, BitVec.add_mul, BitVec.one_mul, BitVec.add_assoc]
    · rename_i heven
      rw [not_not, and_one_eq_zero] at heven
      rw [hrest, hbit, heven, Nat.zero_add]

/-- The loop from its start: it multiplies as unsigned. -/
theorem multLoop_start (a b : BitVec 32) :
    (multLoop 32 a 0 b 0 0).1 ++ (multLoop 32 a 0 b 0 0).2 =
      BitVec.ofNat 64 a.toNat * BitVec.ofNat 64 b.toNat := by
  have hb : (0 : BitVec 32) ++ b = BitVec.ofNat 64 b.toNat := by
    apply BitVec.eq_of_toNat_eq
    have := b.isLt
    rw [toNat_append_eq, BitVec.toNat_ofNat, Nat.mod_eq_of_lt (by omega)]
    exact (congrArg (· + b.toNat) (Nat.zero_mul _)).trans (Nat.zero_add _)
  have hzero : (0 : BitVec 32) ++ (0 : BitVec 32) = (0 : BitVec 64) := rfl
  rw [multLoop_spec (Nat.le_refl 32), Nat.mod_eq_of_lt a.isLt, hb, hzero]
  exact BitVec.zero_add _

/-- `Mult` without sign. -/
theorem mult_unsigned (a b : BitVec 32) :
    (mult a b false).1 ++ (mult a b false).2 = BitVec.ofNat 64 (a.toNat * b.toNat) := by
  rw [BitVec.ofNat_mul]
  unfold mult
  split
  · rename_i hzero
    rcases hzero with rfl | rfl
    · exact (BitVec.zero_mul).symm
    · exact (BitVec.mul_zero).symm
  · exact multLoop_start a b

/-- `Mult` with sign: the product of the absolute values, negated if the signs differ. -/
theorem mult_signed (a b : BitVec 32) :
    (mult a b true).1 ++ (mult a b true).2 = BitVec.ofInt 64 (a.toInt * b.toInt) := by
  have hneg : ∀ p : BitVec 32 × BitVec 32,
      (if ~~~p.2 + 1 = 0 then ~~~p.1 + 1 else ~~~p.1) ++ (~~~p.2 + 1) = -(p.1 ++ p.2) :=
    fun p => (neg_append (by decide) p.1 p.2).symm
  rw [BitVec.ofInt_mul]
  unfold mult
  split
  · rename_i hzero
    rcases hzero with rfl | rfl
    · exact (BitVec.zero_mul).symm
    · exact (BitVec.mul_zero).symm
  rw [ofInt_toInt_eq, ofInt_toInt_eq]
  cases a.msb <;> cases b.msb
  · exact multLoop_start a b
  · refine (hneg (multLoop 32 a 0 (-b) 0 0)).trans ?_
    rw [multLoop_start]
    exact (mul_neg _ _).symm
  · refine (hneg (multLoop 32 (-a) 0 b 0 0)).trans ?_
    rw [multLoop_start]
    exact (neg_mul _ _).symm
  · refine (multLoop_start (-a) (-b)).trans ?_
    exact (neg_mul_neg _ _).symm

/-! ## The instructions -/

theorem extract_hiLo {p : BitVec 32 × BitVec 32} {product : BitVec 64} (h : p.1 ++ p.2 = product) :
    product.extractLsb' 32 32 = p.1 ∧ product.extractLsb' 0 32 = p.2 := by
  rw [← h]
  exact ⟨BitVec.extractLsb'_append_eq_left, BitVec.extractLsb'_append_eq_right⟩

/-- A test for an overflow, and the value that is written if there is none. -/
theorem writesExact_eq {m : Machine} {num : Fin 40} {value : Int} {x : BitVec 32} {c : Prop}
    [Decidable c] (hc : c ↔ value < -2 ^ 31 ∨ 2 ^ 31 ≤ value) (hx : BitVec.ofInt 32 value = x) :
    (if c then .error (.exception .overflow 0 m) else .ok (m.writes num x)) =
      m.writesExact num value := by
  rw [Machine.writesExact, hx]
  exact if_congr hc rfl rfl

theorem ofInt_sub (x y : Int) : BitVec.ofInt 32 (x - y) = BitVec.ofInt 32 x - BitVec.ofInt 32 y := by
  rw [Int.sub_eq_add_neg, BitVec.ofInt_add, BitVec.ofInt_neg, BitVec.sub_eq_add_neg]

theorem ofInt_toNat (x : BitVec 32) : BitVec.ofInt 32 x.toNat = x := by
  rw [BitVec.ofInt_natCast, BitVec.ofNat_toNat, BitVec.setWidth_eq]

/-- For every state and every instruction of integer arithmetic: the source does what exact
arithmetic says. -/
theorem execute_arithmetic (m : Machine) (raw : BitVec 32)
    (hop : (decode raw).opCode.isArithmetic = true) :
    m.execute (decode raw) = m.arithmetic raw := by
  have himm := @decode_immediate raw
  unfold Machine.arithmetic
  generalize decode raw = instr at *
  generalize immediate raw = imm at *
  obtain ⟨op, rs, rt, rd, extra⟩ := instr
  cases op with
  | add =>
    refine writesExact_eq ?_ ?_
    · rw [BitVec.xor_comm (m.registers (gp rs)), BitVec.add_comm, Int.add_comm]
      exact add_overflow
    · rw [BitVec.ofInt_add, BitVec.ofInt_toInt, BitVec.ofInt_toInt]
  | addi =>
    obtain rfl := himm rfl
    rw [← BitVec.toInt_signExtend_of_le (x := imm) (show 16 ≤ 32 by decide)]
    refine writesExact_eq add_overflow ?_
    rw [BitVec.ofInt_add, BitVec.ofInt_toInt, BitVec.ofInt_toInt]
  | sub =>
    refine writesExact_eq sub_overflow ?_
    rw [ofInt_sub, BitVec.ofInt_toInt, BitVec.ofInt_toInt]
  | addu =>
    refine writes_eq_iff.mpr ?_
    rw [BitVec.ofInt_add, ofInt_toNat, ofInt_toNat]
  | addiu =>
    obtain rfl := himm rfl
    refine writes_eq_iff.mpr ?_
    rw [BitVec.ofInt_add, ofInt_toNat]
    rfl
  | subu =>
    refine writes_eq_iff.mpr ?_
    rw [ofInt_sub, ofInt_toNat, ofInt_toNat]
  | mult =>
    obtain ⟨hhi, hlo⟩ := extract_hiLo (mult_signed (m.registers (gp rs)) (m.registers (gp rt)))
    simp only [hhi, hlo]
    rfl
  | multu =>
    obtain ⟨hhi, hlo⟩ := extract_hiLo (mult_unsigned (m.registers (gp rs)) (m.registers (gp rt)))
    simp only [hhi, hlo]
    rfl
  | divu =>
    simp only [toNat_eq_zero_iff, ← BitVec.udiv_def, ← BitVec.umod_def, Machine.writesHiLo,
      Registers.write_comm (show hiReg ≠ loReg by decide)]
    rfl
  | _ => cases hop

/-- `ADD r1, r2, r3` with 2 ^ 31 - 1 twice. -/
theorem execute_arithmetic_overflow :
    let m := withRegisters fun _ => 0x7fffffff
    m.execute (decode 0x00430820) = .error (.exception .overflow 0 m) := by
  have harith : (withRegisters fun _ => 0x7fffffff).arithmetic 0x00430820 =
      (withRegisters fun _ => 0x7fffffff).writesExact 1 (2 ^ 31 - 1 + (2 ^ 31 - 1)) := rfl
  exact (execute_arithmetic _ 0x00430820 (by decide)).trans (harith.trans (if_pos (by decide)))

end Nachos
