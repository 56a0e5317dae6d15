import Mathlib.Order.Bounds.Basic
import Mathlib.Tactic.Linarith
import Mathlib.Tactic.Ring

/-!
# A rotating device

A device that takes time `r` to pass each of `n` sectors, over and over: from `k * r` to
`(k + 1) * r` it passes the sector `k % n`.

* `roundUp_isLeast`: the next boundary between two sectors;
* `ahead_isLeast`: the next slot of a sector;
* `passed_isLeast`: when a sector has been passed completely.
-/

namespace Nachos.Framework

variable {r n t m s k x : Int}

/-- `t`, rounded up to a multiple of `r`. -/
def roundUp (r t : Int) : Int := t + if t % r > 0 then r - t % r else 0

/-- The slot of sector `s` that comes next, from slot `m` on. -/
def ahead (n m s : Int) : Int := m + (s - m) % n

theorem dvd_roundUp (hr : 0 < r) (t : Int) : r ∣ roundUp r t := by
  have hmod := Int.emod_nonneg t hr.ne'
  have hdiv := Int.mul_ediv_add_emod t r
  unfold roundUp
  split
  · refine ⟨t / r + 1, ?_⟩
    rw [mul_add, mul_one]
    omega
  · refine ⟨t / r, ?_⟩
    omega

theorem le_roundUp (hr : 0 < r) (t : Int) : t ≤ roundUp r t := by
  have hlt := Int.emod_lt_of_pos t hr
  unfold roundUp
  split <;> omega

theorem roundUp_lt (hr : 0 < r) (t : Int) : roundUp r t < t + r := by
  unfold roundUp
  split <;> omega

theorem roundUp_isLeast (hr : 0 < r) (t : Int) : IsLeast {x | r ∣ x ∧ t ≤ x} (roundUp r t) := by
  refine ⟨⟨dvd_roundUp hr t, le_roundUp hr t⟩, ?_⟩
  rintro x ⟨hdvd, hle⟩
  by_contra hlt
  -- two multiples that are less than `r` apart
  obtain ⟨c, hc⟩ := Int.dvd_sub (dvd_roundUp hr t) hdvd
  have hbound := roundUp_lt hr t
  have hpos : 0 < r * c := by omega
  have hc : 0 < c := (mul_pos_iff_of_pos_left hr).mp hpos
  have hge : r * 1 ≤ r * c := mul_le_mul_of_nonneg_left hc hr.le
  omega

theorem ahead_emod (n m s : Int) : ahead n m s % n = s % n := by
  rw [ahead, Int.add_emod, Int.emod_emod_of_dvd _ (dvd_refl n), ← Int.add_emod]
  congr 1
  omega

theorem le_ahead (hn : 0 < n) (m s : Int) : m ≤ ahead n m s := by
  have := Int.emod_nonneg (s - m) hn.ne'
  unfold ahead
  omega

theorem ahead_isLeast (hn : 0 < n) (m s : Int) :
    IsLeast {k | m ≤ k ∧ k % n = s % n} (ahead n m s) := by
  refine ⟨⟨le_ahead hn m s, ahead_emod n m s⟩, ?_⟩
  rintro k ⟨hle, hmod⟩
  -- `k` is in a slot of the same sector, at most as far from `m`
  have hsub : (s - m) % n = (k - m) % n := by
    rw [Int.sub_emod, ← hmod, ← Int.sub_emod]
  have hturns := mul_nonneg hn.le (Int.ediv_nonneg (show 0 ≤ k - m by omega) hn.le)
  have hdiv := Int.mul_ediv_add_emod (k - m) n
  unfold ahead
  omega

/-- The first time, from `t` on, at which sector `s` has been passed from one end to the other. -/
theorem passed_isLeast (hr : 0 < r) (hn : 0 < n) (t s : Int) :
    IsLeast {x | r ∣ x ∧ t + r ≤ x ∧ (x / r - 1) % n = s % n}
      ((ahead n (roundUp r t / r) s + 1) * r) := by
  have hround : roundUp r t / r * r = roundUp r t := Int.ediv_mul_cancel (dvd_roundUp hr t)
  have hahead := ahead_isLeast hn (roundUp r t / r) s
  refine ⟨⟨dvd_mul_left r _, ?_, ?_⟩, ?_⟩
  · have hmul := mul_le_mul_of_nonneg_right hahead.1.1 hr.le
    rw [hround] at hmul
    have := le_roundUp hr t
    linarith
  · rw [Int.mul_ediv_cancel _ hr.ne', add_sub_cancel_right]
    exact hahead.1.2
  · rintro x ⟨⟨c, rfl⟩, hle, hmod⟩
    rw [Int.mul_ediv_cancel_left _ hr.ne'] at hmod
    -- the slot before the boundary begins at or after `t`
    have hslot : r ∣ r * (c - 1) ∧ t ≤ r * (c - 1) := ⟨dvd_mul_right r _, by rw [mul_sub, mul_one]; omega⟩
    have hroundle := (roundUp_isLeast hr t).2 hslot
    have hm : roundUp r t / r ≤ c - 1 := by
      rw [← hround, mul_comm r] at hroundle
      exact le_of_mul_le_mul_right hroundle hr
    have hfirst : ahead n (roundUp r t / r) s ≤ c - 1 := hahead.2 ⟨hm, hmod⟩
    have hmul := mul_le_mul_of_nonneg_right hfirst hr.le
    linarith

end Nachos.Framework
