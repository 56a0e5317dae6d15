import Mathlib.Data.BitVec
import Mathlib.Tactic.Common

/-!
# Machine words

A word of `w` bits stands for a number in two ways, unsigned (`toNat`) and in
two's complement (`toInt`), and two words `hi ++ lo` for one of `2 * w` bits.

* `lt_iff_signed`, `ushiftRight_iff_signed`, `udiv_umod_iff_signed`: when the unsigned
  operation gives what the signed one gives;
* `add_overflow_iff`, `sub_overflow_iff`: overflow, by the signs of the operands
  and of the result;
* `append_add_append`, `append_shiftLeft_one`, `neg_append`: arithmetic on a
  number in two words, word by word with a carry.
-/

namespace Nachos.Framework

variable {w : Nat} {x y : BitVec w}

/-! ## Signed and unsigned -/

/-- The sign of a word, and what it stands for. -/
theorem sign_cases (x : BitVec w) :
    (x.msb = false ∧ x.toInt = x.toNat ∧ 2 * x.toNat < 2 ^ w) ∨
    (x.msb = true ∧ x.toInt = x.toNat - (2 ^ w : Nat) ∧ 2 ^ w ≤ 2 * x.toNat) := by
  rw [BitVec.toInt_eq_toNat_cond]
  cases h : x.msb with
  | false =>
    rw [BitVec.msb_eq_false_iff_two_mul_lt] at h
    exact .inl ⟨rfl, if_pos h, h⟩
  | true =>
    rw [BitVec.msb_eq_true_iff_two_mul_ge] at h
    exact .inr ⟨rfl, if_neg (by omega), h⟩

/-- Comparing as unsigned is comparing as signed, for numbers of one sign only. -/
theorem lt_iff_signed : (x < y ↔ x.toInt < y.toInt) ↔ x.msb = y.msb := by
  have hx := x.isLt
  have hy := y.isLt
  rw [BitVec.lt_def]
  rcases sign_cases x with ⟨hxm, hxi, hxn⟩ | ⟨hxm, hxi, hxn⟩ <;>
    rcases sign_cases y with ⟨hym, hyi, hyn⟩ | ⟨hym, hyi, hyn⟩ <;>
    rw [hxm, hym, hxi, hyi]
  · simp
  · simp only [Bool.false_eq_true, iff_false]
    omega
  · simp only [Bool.true_eq_false, iff_false]
    omega
  · simp

theorem toNat_eq_zero_iff : x.toNat = 0 ↔ x = 0 := by
  rw [← BitVec.toNat_inj]
  rfl

/-- A shift to the right fills with the sign bit, if it is 0 or nothing is shifted. -/
theorem ushiftRight_iff_signed {n : Nat} (hn : n < w) :
    x >>> n = x.sshiftRight n ↔ x.msb = false ∨ n = 0 := by
  constructor
  · intro h
    by_contra hc
    obtain ⟨hm, h0⟩ := not_or.mp hc
    have hmsb := congrArg BitVec.msb h
    rw [BitVec.msb_sshiftRight, BitVec.msb_ushiftRight] at hmsb
    simp [hm, h0] at hmsb
  · rintro (hm | rfl)
    · exact (BitVec.sshiftRight_eq_of_msb_false hm).symm
    · simp

/-- Widening with sign, by the absolute value. -/
theorem ofInt_toInt_eq (v : Nat) (x : BitVec w) : BitVec.ofInt v x.toInt =
    if x.msb then -BitVec.ofNat v (-x).toNat else BitVec.ofNat v x.toNat := by
  rcases sign_cases x with ⟨hm, hi, -⟩ | ⟨hm, hi, hn⟩ <;> rw [hm, hi]
  · rw [if_neg Bool.false_ne_true, BitVec.ofInt_natCast]
  · have hneg : (x.toNat : Int) - (2 ^ w : Nat) = -((-x).toNat : Int) := by
      rw [BitVec.toNat_neg]
      have := x.isLt
      rw [Nat.mod_eq_of_lt (by omega)]
      omega
    rw [if_pos rfl, hneg, BitVec.ofInt_neg, BitVec.ofInt_natCast]

/-! ## Division -/

theorem ofInt_tdiv (x y : BitVec w) : BitVec.ofInt w (x.toInt.tdiv y.toInt) = x.sdiv y := by
  apply BitVec.eq_of_toInt_eq
  rw [BitVec.toInt_ofInt, BitVec.toInt_sdiv]

theorem ofInt_tmod (x y : BitVec w) : BitVec.ofInt w (x.toInt.tmod y.toInt) = x.srem y := by
  rw [← BitVec.toInt_srem, BitVec.ofInt_toInt]

theorem toNat_neg_cases (x : BitVec w) :
    (x.toNat = 0 ∧ (-x).toNat = 0) ∨ (x.toNat ≠ 0 ∧ (-x).toNat = 2 ^ w - x.toNat) := by
  have hx := x.isLt
  rw [BitVec.toNat_neg]
  by_cases h : x.toNat = 0
  · exact .inl ⟨h, by rw [h, Nat.sub_zero, Nat.mod_self]⟩
  · exact .inr ⟨h, Nat.mod_eq_of_lt (by omega)⟩

/-- Dividing as unsigned is dividing as signed, rounding to zero, in these cases only. -/
theorem udiv_umod_iff_signed (hy : y ≠ 0) :
    (x / y = x.sdiv y ∧ x % y = x.srem y) ↔
      (0 ≤ x.toInt ∧ 0 < y.toInt) ∨ (x.toInt < 0 ∧ y.toInt = 1) ∨
      (0 ≤ x.toInt ∧ y.toInt < 0 ∧ x.toInt < -y.toInt) ∨ x = y := by
  have hx := x.isLt
  have hy' := y.isLt
  rw [Ne, ← toNat_eq_zero_iff] at hy
  rw [BitVec.sdiv_eq, BitVec.srem_eq, ← BitVec.toNat_inj (x := x)]
  rcases sign_cases x with ⟨hxm, hxi, hxn⟩ | ⟨hxm, hxi, hxn⟩ <;>
    rcases sign_cases y with ⟨hym, hyi, hyn⟩ | ⟨hym, hyi, hyn⟩ <;>
    rw [hxm, hym, hxi, hyi]
  · simp only [BitVec.udiv_eq, and_self, true_iff]
    omega
  · -- the quotient is 0 as unsigned
    have hny := (toNat_neg_cases y).resolve_left fun h => hy h.1
    have hq := toNat_neg_cases (x.udiv (-y))
    simp only [← BitVec.toNat_inj, BitVec.udiv_eq, BitVec.toNat_udiv, BitVec.toNat_umod] at hq ⊢
    rw [hny.2] at hq ⊢
    rw [Nat.div_eq_of_lt (show x.toNat < y.toNat by omega),
      Nat.mod_eq_of_lt (show x.toNat < y.toNat by omega)]
    have hzero := Nat.div_eq_zero_iff (a := x.toNat) (b := 2 ^ w - y.toNat)
    have hle := Nat.div_le_self x.toNat (2 ^ w - y.toNat)
    constructor
    · rintro ⟨h, -⟩
      omega
    · intro h
      have hlt : x.toNat < 2 ^ w - y.toNat := by omega
      rw [Nat.mod_eq_of_lt hlt]
      omega
  · have hnx := (toNat_neg_cases x).resolve_left (by omega)
    have hq := toNat_neg_cases ((-x).udiv y)
    have hr := toNat_neg_cases (-x % y)
    simp only [← BitVec.toNat_inj, BitVec.udiv_eq, BitVec.toNat_udiv, BitVec.toNat_umod] at hq hr ⊢
    rw [hnx.2] at hq hr
    constructor
    · rintro ⟨h, -⟩
      refine .inr (.inl ⟨by omega, ?_⟩)
      by_contra hone
      have h2 : 2 ≤ y.toNat := by omega
      -- both quotients are too small for one to be minus the other
      have hX := Nat.div_le_div_left (a := x.toNat) h2 (by decide)
      have hA := Nat.div_le_div_left (a := 2 ^ w - x.toNat) h2 (by decide)
      have hpos := Nat.div_eq_zero_iff (a := x.toNat) (b := y.toNat)
      omega
    · intro h
      have hone : y.toNat = 1 := by omega
      simp only [hone, Nat.div_one, Nat.mod_one] at hq hr ⊢
      omega
  · have hnx := (toNat_neg_cases x).resolve_left (by omega)
    have hny := (toNat_neg_cases y).resolve_left (by omega)
    have hr := toNat_neg_cases (-x % -y)
    simp only [← BitVec.toNat_inj, BitVec.udiv_eq, BitVec.toNat_udiv, BitVec.toNat_umod] at hr ⊢
    rw [hnx.2, hny.2] at hr ⊢
    constructor
    · rintro ⟨h, -⟩
      -- the greater number as unsigned is the smaller one in absolute value
      rcases Nat.lt_trichotomy x.toNat y.toNat with hlt | heq | hgt
      · have hq := Nat.div_pos (show 2 ^ w - y.toNat ≤ 2 ^ w - x.toNat by omega) (by omega)
        rw [Nat.div_eq_of_lt hlt] at h
        omega
      · exact .inr (.inr (.inr heq))
      · have hq := Nat.div_pos (Nat.le_of_lt hgt) (by omega)
        rw [Nat.div_eq_of_lt (show 2 ^ w - x.toNat < 2 ^ w - y.toNat by omega)] at h
        omega
    · intro h
      have heq : x.toNat = y.toNat := by omega
      rw [heq, Nat.mod_self] at hr
      rw [heq, Nat.div_self (by omega), Nat.div_self (by omega), Nat.mod_self]
      omega

/-! ## Overflow -/

theorem toNat_add_cases (x y : BitVec w) :
    (x.toNat + y.toNat < 2 ^ w ∧ (x + y).toNat = x.toNat + y.toNat) ∨
    (2 ^ w ≤ x.toNat + y.toNat ∧ (x + y).toNat = x.toNat + y.toNat - 2 ^ w) := by
  have hx := x.isLt
  have hy := y.isLt
  rw [BitVec.toNat_add]
  rcases Nat.lt_or_ge (x.toNat + y.toNat) (2 ^ w) with h | h
  · exact .inl ⟨h, Nat.mod_eq_of_lt h⟩
  · exact .inr ⟨h, by rw [Nat.mod_eq_sub_mod h, Nat.mod_eq_of_lt (by omega)]⟩

/-- A sum of numbers of one sign overflows when it has the other sign, and no other sum
does. -/
theorem add_overflow_iff :
    (x.msb = y.msb ∧ y.msb ≠ (x + y).msb) ↔
      2 * (x.toInt + y.toInt) < -(2 ^ w : Nat) ∨ (2 ^ w : Nat) ≤ 2 * (x.toInt + y.toInt) := by
  have hx := x.isLt
  have hy := y.isLt
  have hadd := toNat_add_cases x y
  rcases sign_cases x with ⟨hxm, hxi, hxn⟩ | ⟨hxm, hxi, hxn⟩ <;>
    rcases sign_cases y with ⟨hym, hyi, hyn⟩ | ⟨hym, hyi, hyn⟩ <;>
    rcases sign_cases (x + y) with ⟨hsm, -, hsn⟩ | ⟨hsm, -, hsn⟩ <;>
    rw [hxm, hym, hsm, hxi, hyi] <;> simp only [reduceCtorEq, false_and, false_iff, ne_eq,
      not_true_eq_false, not_false_eq_true, true_iff, and_self, and_false] <;> omega

theorem toNat_sub_cases (x y : BitVec w) :
    (y.toNat ≤ x.toNat ∧ (x - y).toNat = x.toNat - y.toNat) ∨
    (x.toNat < y.toNat ∧ (x - y).toNat = x.toNat + 2 ^ w - y.toNat) := by
  have hx := x.isLt
  have hy := y.isLt
  rw [BitVec.toNat_sub]
  rcases Nat.lt_or_ge x.toNat y.toNat with h | h
  · exact .inr ⟨h, by rw [Nat.mod_eq_of_lt (by omega)]; omega⟩
  · exact .inl ⟨h, by rw [Nat.mod_eq_sub_mod (by omega), Nat.mod_eq_of_lt (by omega)]; omega⟩

/-- A difference of numbers of two signs overflows when it does not have the sign of the
first, and no other difference does. -/
theorem sub_overflow_iff :
    (x.msb ≠ y.msb ∧ x.msb ≠ (x - y).msb) ↔
      2 * (x.toInt - y.toInt) < -(2 ^ w : Nat) ∨ (2 ^ w : Nat) ≤ 2 * (x.toInt - y.toInt) := by
  have hx := x.isLt
  have hy := y.isLt
  have hsub := toNat_sub_cases x y
  rcases sign_cases x with ⟨hxm, hxi, hxn⟩ | ⟨hxm, hxi, hxn⟩ <;>
    rcases sign_cases y with ⟨hym, hyi, hyn⟩ | ⟨hym, hyi, hyn⟩ <;>
    rcases sign_cases (x - y) with ⟨hsm, -, hsn⟩ | ⟨hsm, -, hsn⟩ <;>
    rw [hxm, hym, hsm, hxi, hyi] <;> simp only [reduceCtorEq, false_and, false_iff, ne_eq,
      not_true_eq_false, not_false_eq_true, true_iff, and_self, and_false] <;> omega

/-! ## Numbers in two words -/

theorem toNat_append_eq (hi lo : BitVec w) : (hi ++ lo).toNat = hi.toNat * 2 ^ w + lo.toNat := by
  rw [BitVec.toNat_append, ← Nat.shiftLeft_add_eq_or_of_lt lo.isLt, Nat.shiftLeft_eq]

/-- What is left of a number in two words whose high one is too great. -/
theorem mul_add_mod_mul_self (a : Nat) {b n : Nat} (hb : b < n) :
    (a * n + b) % (n * n) = a % n * n + b := by
  have hn : 0 < n := by omega
  rw [Nat.mod_mul, Nat.mul_add_mod', Nat.mod_eq_of_lt hb, Nat.add_comm (a * n),
    Nat.add_mul_div_right _ _ hn, Nat.div_eq_of_lt hb, Nat.zero_add, Nat.mul_comm, Nat.add_comm]

/-- Adding, with the carry out of the low words. -/
theorem append_add_append (hi lo hi' lo' : BitVec w) :
    (hi ++ lo) + (hi' ++ lo') =
      ((if lo + lo' < lo' then hi + 1#w else hi) + hi') ++ (lo + lo') := by
  apply BitVec.eq_of_toNat_eq
  have hlt := (lo + lo').isLt
  have hlo := lo.isLt
  rw [BitVec.toNat_add, toNat_append_eq, toNat_append_eq, toNat_append_eq, Nat.pow_add]
  rcases toNat_add_cases lo lo' with ⟨hno, hsum⟩ | ⟨hcarry, hsum⟩
  · rw [if_neg (by rw [BitVec.lt_def]; omega), BitVec.toNat_add hi hi', ← mul_add_mod_mul_self _ hlt,
      hsum, Nat.add_mul]
    congr 1
    omega
  · have hhi : (hi + 1#w + hi').toNat = (hi.toNat + hi'.toNat + 1) % 2 ^ w := by
      rw [BitVec.add_assoc, BitVec.add_comm 1#w, ← BitVec.add_assoc, BitVec.toNat_add, BitVec.toNat_add,
        BitVec.toNat_ofNat, Nat.add_mod_mod, Nat.mod_add_mod]
    rw [if_pos (by rw [BitVec.lt_def]; omega), hhi, ← mul_add_mod_mul_self _ hlt, hsum, Nat.add_mul,
      Nat.add_mul, Nat.one_mul]
    congr 1
    omega

theorem shiftLeft_one_eq_add (x : BitVec w) : x <<< 1 = x + x := by
  apply BitVec.eq_of_toNat_eq
  rw [BitVec.toNat_shiftLeft, BitVec.toNat_add, Nat.shiftLeft_eq]
  congr 1
  omega

theorem add_self_or_one (x : BitVec w) : x + x ||| 1#w = x + 1#w + x := by
  have hand : (x <<< 1) &&& 1#w = 0#w := by
    ext i hi
    simp only [BitVec.getElem_and, BitVec.getElem_shiftLeft, BitVec.getElem_one, BitVec.getElem_zero]
    by_cases h : i = 0 <;> simp [h]
  rw [← shiftLeft_one_eq_add, ← BitVec.add_eq_or_of_and_eq_zero _ _ hand, shiftLeft_one_eq_add,
    BitVec.add_assoc, BitVec.add_assoc, BitVec.add_comm 1#w]

/-- Doubling, with the bit that leaves the low word. -/
theorem append_shiftLeft_one (hi lo : BitVec w) :
    (hi ++ lo) + (hi ++ lo) = (hi <<< 1 ||| if lo.msb then 1#w else 0#w) ++ (lo <<< 1) := by
  have hlo := lo.isLt
  have hsum := toNat_add_cases lo lo
  rw [append_add_append, shiftLeft_one_eq_add, shiftLeft_one_eq_add]
  rcases sign_cases lo with ⟨hm, -, hn⟩ | ⟨hm, -, hn⟩ <;> rw [hm]
  · rw [if_neg (by rw [BitVec.lt_def]; omega), if_neg Bool.false_ne_true, BitVec.or_zero]
  · rw [if_pos (by rw [BitVec.lt_def]; omega), if_pos rfl, add_self_or_one]

/-- The two's complement, with the carry out of the low word. -/
theorem neg_append (hw : 0 < w) (hi lo : BitVec w) :
    -(hi ++ lo) = (if ~~~lo + 1#w = 0#w then ~~~hi + 1#w else ~~~hi) ++ (~~~lo + 1#w) := by
  have hone : 1#(w + w) = 0#w ++ 1#w := by
    apply BitVec.eq_of_toNat_eq
    rw [BitVec.toNat_ofNat, toNat_append_eq, BitVec.toNat_ofNat, BitVec.toNat_ofNat, Nat.zero_mod,
      Nat.zero_mul, Nat.zero_add, Nat.mod_eq_of_lt (Nat.one_lt_two_pow (by omega)),
      Nat.mod_eq_of_lt (Nat.one_lt_two_pow (by omega))]
  have hlt : ~~~lo + 1#w < 1#w ↔ ~~~lo + 1#w = 0#w := by
    have := Nat.one_lt_two_pow (n := w) (by omega)
    rw [BitVec.lt_def, ← BitVec.toNat_inj, BitVec.toNat_ofNat, BitVec.toNat_ofNat, Nat.mod_eq_of_lt this,
      Nat.zero_mod, Nat.lt_one_iff]
  rw [BitVec.neg_eq_not_add, hone, BitVec.not_append, append_add_append, BitVec.add_zero]
  simp only [hlt]

end Nachos.Framework
