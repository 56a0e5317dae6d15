import Mathlib.Tactic.NormNum

/-!
# C integers

Values of the C types `int` and `unsigned int` are `Int` and `Nat` in range;
arithmetic is on `Int`, and `int32` and `uint32` bring a result back into
range, as two's complement wrap-around does.
-/

namespace Nachos.Framework

/-- The `int` that a result wraps around to. -/
def int32 (x : Int) : Int := x.bmod (2 ^ 32)

/-- The `unsigned int` that a result wraps around to. -/
def uint32 (x : Int) : Nat := (x % 2 ^ 32).toNat

/-- `INT_MAX`. -/
def intMax : Int := 2 ^ 31 - 1

/-- `divRoundUp`. -/
def divRoundUp (n s : Nat) : Nat := n / s + if n % s > 0 then 1 else 0

theorem int32_eq {x : Int} (h₁ : -2 ^ 31 ≤ x) (h₂ : x < 2 ^ 31) : int32 x = x := by
  simp only [int32, Int.bmod_def]
  omega

theorem divRoundUp_mul_le (n : Nat) {s : Nat} (hs : 0 < s) : n ≤ divRoundUp n s * s := by
  have := Nat.div_add_mod n s
  unfold divRoundUp
  split
  · have hlt := Nat.mod_lt n hs
    rw [Nat.add_mul, Nat.mul_comm (n / s)]
    omega
  · rw [Nat.add_zero, Nat.mul_comm]
    omega

theorem divRoundUp_eq (n : Nat) {s : Nat} (hs : 0 < s) : divRoundUp n s = (n + (s - 1)) / s := by
  have hlt := Nat.mod_lt n hs
  have hn : n + (s - 1) = s * (n / s) + (n % s + (s - 1)) := by
    have := Nat.div_add_mod n s
    omega
  rw [divRoundUp, hn, Nat.mul_add_div hs]
  congr 1
  by_cases hr : n % s > 0
  · rw [if_pos hr]
    exact (Nat.div_eq_of_lt_le (by omega) (by omega)).symm
  · rw [if_neg hr]
    exact (Nat.div_eq_of_lt (by omega)).symm

theorem divRoundUp_le (n s : Nat) : divRoundUp n s ≤ n / s + 1 := by
  unfold divRoundUp
  split <;> omega

end Nachos.Framework
