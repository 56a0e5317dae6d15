import Mathlib.Data.List.GetD
import Nachos.Framework.Bytes

/-!
# C strings

A C string in memory ends at its first NUL. `chars n m` is the string at `m`,
cut after `n` characters: what `strncmp` compares and `strncpy` copies.

* `strncmp_eq_zero`: equal for `strncmp` is equal `chars`;
* `chars_strncpy`: the copy has the same `chars`.
-/

namespace Nachos.Framework

/-- A string of characters, none of them NUL. -/
structure CString where
  chars : List (BitVec 8)
  ne_zero : ∀ c ∈ chars, c ≠ 0

/-- The bytes of the string, with the NUL at its end. -/
def CString.bytes (s : CString) : Bytes := fun i => s.chars.getD i 0

/-- The characters of the string at `m`, at most `n` of them. -/
def chars : Nat → Bytes → List (BitVec 8)
  | 0, _ => []
  | n + 1, m => if m 0 = 0 then [] else m 0 :: chars n fun i => m (i + 1)

/-- `strncmp(a, b, n)`. -/
def strncmp : Nat → Bytes → Bytes → Int
  | 0, _, _ => 0
  | n + 1, a, b =>
    if a 0 ≠ b 0 then (a 0).toNat - (b 0).toNat
    else if a 0 = 0 then 0
    else strncmp n (fun i => a (i + 1)) fun i => b (i + 1)

/-- `strncpy(&m[a], src, n)`: the characters, and NULs up to `n` bytes. -/
def strncpy (m : Bytes) (a : Nat) (src : Bytes) (n : Nat) : Bytes :=
  splice m a n fun i => (chars n src).getD i 0

theorem chars_congr {n : Nat} {m m' : Bytes} (h : ∀ i < n, m i = m' i) : chars n m = chars n m' := by
  induction n generalizing m m' with
  | zero => rfl
  | succ n ih =>
    rw [chars, chars, h 0 (by omega), ih fun i hi => h (i + 1) (by omega)]

theorem ne_zero_of_mem_chars {n : Nat} {m : Bytes} {c : BitVec 8} (h : c ∈ chars n m) : c ≠ 0 := by
  induction n generalizing m with
  | zero => cases h
  | succ n ih =>
    rw [chars] at h
    split at h
    · cases h
    · rename_i hm
      rcases List.mem_cons.mp h with rfl | h
      · exact hm
      · exact ih h

theorem length_chars_le (n : Nat) (m : Bytes) : (chars n m).length ≤ n := by
  induction n generalizing m with
  | zero => exact Nat.le_refl 0
  | succ n ih =>
    rw [chars]
    split
    · exact Nat.zero_le _
    · exact Nat.succ_le_succ (ih _)

theorem chars_getD {l : List (BitVec 8)} (h : ∀ c ∈ l, c ≠ 0) (n : Nat) :
    chars n (fun i => l.getD i 0) = l.take n := by
  induction n generalizing l with
  | zero => rw [List.take_zero]; rfl
  | succ n ih =>
    cases l with
    | nil => rfl
    | cons c l =>
      rw [chars, List.getD_cons_zero, if_neg (h c List.mem_cons_self), List.take_succ_cons]
      simp only [List.getD_cons_succ]
      rw [ih fun d hd => h d (List.mem_cons_of_mem c hd)]

theorem CString.chars_bytes (s : CString) (n : Nat) : Framework.chars n s.bytes = s.chars.take n :=
  chars_getD s.ne_zero n

/-- `strncmp` is zero on strings with the same characters. -/
theorem strncmp_eq_zero {n : Nat} {a b : Bytes} : strncmp n a b = 0 ↔ chars n a = chars n b := by
  induction n generalizing a b with
  | zero => exact ⟨fun _ => rfl, fun _ => rfl⟩
  | succ n ih =>
    rw [strncmp, chars, chars]
    by_cases hab : a 0 = b 0
    · rw [if_neg (not_not_intro hab), ← hab]
      by_cases h0 : a 0 = 0
      · simp [h0]
      · rw [if_neg h0, if_neg h0, if_neg h0, ih, List.cons_inj_right]
    · have hne : (a 0).toNat ≠ (b 0).toNat := fun h => hab (BitVec.eq_of_toNat_eq h)
      rw [if_pos hab]
      refine ⟨fun h => by omega, fun h => absurd ?_ hab⟩
      split at h <;> split at h
      · rename_i ha hb
        rw [ha, hb]
      · cases h
      · cases h
      · exact (List.cons.inj h).1

/-- The copy reads back as the string. -/
theorem chars_strncpy (m : Bytes) (a : Nat) (src : Bytes) (n : Nat) :
    chars n (fun i => strncpy m a src n (a + i)) = chars n src := by
  have hcopy : chars n (fun i => strncpy m a src n (a + i)) =
      chars n fun i => (chars n src).getD i 0 := chars_congr fun i hi => splice_apply_add hi
  rw [hcopy, chars_getD fun c => ne_zero_of_mem_chars, List.take_of_length_le (length_chars_le n src)]

end Nachos.Framework
