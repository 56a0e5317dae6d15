import Mathlib.Data.BitVec
import Mathlib.Data.List.Find
import Mathlib.Data.List.GetD
import Mathlib.Tactic.Common

/-!
# Byte stores

A store of bytes (a memory, a disk, a buffer) as a function of the address.
`splice` is the one way to write: `bcopy`, `bzero`, a block written to a disk
and the store of a word are splices. Words are little-endian.

* `splice_apply_of_mem`, `splice_apply_of_notMem`: what a splice holds;
* `scatter`: bytes written to any addresses, one by one; `eq_scatter`: what makes a
  store the result of it;
* `slice`: a range of the store, and how ranges join;
* `wordAt_splice`: a word reads back as written.
-/

namespace Nachos.Framework

/-- A store of bytes. -/
abbrev Bytes := Nat → BitVec 8

variable {m m' : Bytes} {a b n x : Nat} {src : Bytes}

/-- `m`, with the `n` bytes from `a` on taken from `src`. -/
def splice (m : Bytes) (a n : Nat) (src : Bytes) : Bytes :=
  fun x => if a ≤ x ∧ x < a + n then src (x - a) else m x

theorem splice_apply_of_mem (h₁ : a ≤ x) (h₂ : x < a + n) : splice m a n src x = src (x - a) :=
  if_pos ⟨h₁, h₂⟩

theorem splice_apply_of_notMem (h : ¬ (a ≤ x ∧ x < a + n)) : splice m a n src x = m x :=
  if_neg h

@[simp] theorem splice_zero : splice m a 0 src = m := by
  funext x
  exact splice_apply_of_notMem (by omega)

theorem splice_apply_add {i : Nat} (hi : i < n) : splice m a n src (a + i) = src i := by
  rw [splice_apply_of_mem (by omega) (by omega), Nat.add_sub_cancel_left]

theorem splice_congr {src' : Bytes} (h : ∀ i < n, src i = src' i) :
    splice m a n src = splice m a n src' := by
  funext x
  unfold splice
  split
  · rename_i hx
    exact h (x - a) (by omega)
  · rfl

/-- `m`, with the byte `i` of `src` at `addr i`, for the first `n` of them. -/
def scatter (m : Bytes) (n : Nat) (addr : Nat → Nat) (src : Bytes) : Bytes := fun x =>
  match (List.range n).find? fun i => addr i = x with
  | some i => src i
  | none => m x

section Scatter

variable {addr : Nat → Nat}

@[simp] theorem scatter_zero : scatter m 0 addr src = m := rfl

theorem scatter_apply_of_ne (h : ∀ i < n, addr i ≠ x) : scatter m n addr src x = m x := by
  have hnone : ((List.range n).find? fun i => addr i = x) = none :=
    List.find?_eq_none.mpr fun i hi => by simpa using h i (List.mem_range.mp hi)
  rw [scatter, hnone]

/-- A store is the result of scattering as soon as it has the bytes in place, and the others as they
were. -/
theorem eq_scatter (hin : ∀ i < n, m' (addr i) = src i) (hout : ∀ x, (∀ i < n, addr i ≠ x) → m' x = m x) :
    m' = scatter m n addr src := by
  funext x
  unfold scatter
  split
  next i hi =>
    have hx : addr i = x := by simpa using List.find?_some hi
    rw [← hx, hin i (List.mem_range.mp (List.mem_of_find?_eq_some hi))]
  next hnone =>
    refine hout x fun i hi => ?_
    simpa using List.find?_eq_none.mp hnone i (List.mem_range.mpr hi)

/-- Where no two bytes have the same address, each is found at its own. -/
theorem scatter_apply_addr (hinj : ∀ i < n, ∀ j < n, addr i = addr j → i = j) {i : Nat} (hi : i < n) :
    scatter m n addr src (addr i) = src i := by
  unfold scatter
  split
  next j hj =>
    have hsame : addr j = addr i := by simpa using List.find?_some hj
    rw [hinj j (List.mem_range.mp (List.mem_of_find?_eq_some hj)) i hi hsame]
  next hnone =>
    have hne := List.find?_eq_none.mp hnone i (List.mem_range.mpr hi)
    simp at hne

theorem scatter_congr {src' : Bytes} (h : ∀ i < n, src i = src' i) :
    scatter m n addr src = scatter m n addr src' := by
  funext x
  unfold scatter
  split
  next i hi => exact h i (List.mem_range.mp (List.mem_of_find?_eq_some hi))
  next => rfl

theorem scatter_congr_addr {addr' : Nat → Nat} (h : ∀ i < n, addr i = addr' i) :
    scatter m n addr src = scatter m n addr' src := by
  funext x
  have hfind : ((List.range n).find? fun i => addr i = x) = (List.range n).find? fun i => addr' i = x :=
    List.find?_congr fun i hi => by rw [h i (List.mem_range.mp hi)]
  rw [scatter, scatter, hfind]

/-- A splice puts each byte behind the one before. -/
theorem splice_eq_scatter : splice m a n src = scatter m n (a + ·) src := by
  refine eq_scatter (fun i hi => splice_apply_add hi) fun x hx => splice_apply_of_notMem fun hmem => ?_
  exact hx (x - a) (by omega) (by omega)

end Scatter

/-- The `n` bytes from `a` on, as a list. -/
def slice (m : Bytes) (a n : Nat) : List (BitVec 8) := (List.range n).map fun i => m (a + i)

/-- A store that starts with these bytes. -/
def ofList (l : List (BitVec 8)) : Bytes := fun i => l.getD i 0

@[simp] theorem length_slice : (slice m a n).length = n := by
  rw [slice, List.length_map, List.length_range]

@[simp] theorem slice_zero : slice m a 0 = [] := rfl

theorem slice_add (k : Nat) : slice m a (n + k) = slice m a n ++ slice m (a + n) k := by
  rw [slice, List.range_add, List.map_append, List.map_map]
  simp only [slice, Function.comp_def, Nat.add_assoc]

theorem slice_congr (h : ∀ i < n, m (a + i) = m' (b + i)) : slice m a n = slice m' b n :=
  List.map_congr_left fun i hi => h i (List.mem_range.mp hi)

theorem slice_splice : slice (splice m a n src) a n = slice src 0 n :=
  slice_congr fun i hi => by rw [splice_apply_add hi, Nat.zero_add]

theorem slice_ofList {l : List (BitVec 8)} (h : n ≤ l.length) : slice (ofList l) 0 n = l.take n := by
  refine List.ext_getElem (by rw [length_slice, List.length_take]; omega) fun i h₁ h₂ => ?_
  rw [length_slice] at h₁
  simp only [slice, ofList, List.getElem_map, List.getElem_range, List.getElem_take, Nat.zero_add]
  exact List.getD_eq_getElem _ _ (by omega)

/-- The number that the first `n` bytes stand for, the lowest first. -/
def littleEndian (src : Bytes) : Nat → Nat
  | 0 => 0
  | n + 1 => littleEndian src n + 2 ^ (8 * n) * (src n).toNat

theorem littleEndian_congr {src src' : Bytes} {n : Nat} (h : ∀ i < n, src i = src' i) :
    littleEndian src n = littleEndian src' n := by
  induction n with
  | zero => rfl
  | succ n ih =>
    rw [littleEndian, littleEndian, ih fun i hi => h i (by omega), h n (by omega)]

theorem littleEndian_lt (src : Bytes) (n : Nat) : littleEndian src n < 2 ^ (8 * n) := by
  induction n with
  | zero => exact Nat.zero_lt_one
  | succ n ih =>
    have hbyte := (src n).isLt
    have hle : 2 ^ (8 * n) * (src n).toNat ≤ 2 ^ (8 * n) * 255 := Nat.mul_le_mul_left _ (by omega)
    rw [littleEndian, Nat.mul_succ, Nat.pow_add]
    omega

/-- The little-endian word at `a`. -/
def wordAt (m : Bytes) (a : Nat) : BitVec 32 :=
  BitVec.ofNat 32 ((m a).toNat + 2 ^ 8 * (m (a + 1)).toNat + 2 ^ 16 * (m (a + 2)).toNat +
    2 ^ 24 * (m (a + 3)).toNat)

/-- The little-endian halfword at `a`. -/
def halfAt (m : Bytes) (a : Nat) : BitVec 16 :=
  BitVec.ofNat 16 ((m a).toNat + 2 ^ 8 * (m (a + 1)).toNat)

/-- The bytes of a word, the lowest first. -/
def bytesOf {w : Nat} (v : BitVec w) : Bytes := fun i => BitVec.ofNat 8 (v.toNat / 2 ^ (8 * i))

theorem wordAt_eq_littleEndian (m : Bytes) (a : Nat) :
    wordAt m a = BitVec.ofNat 32 (littleEndian (fun i => m (a + i)) 4) := by
  simp only [wordAt, littleEndian, Nat.mul_zero, Nat.pow_zero, Nat.one_mul, Nat.zero_add, Nat.add_zero]

theorem halfAt_eq_littleEndian (m : Bytes) (a : Nat) :
    halfAt m a = BitVec.ofNat 16 (littleEndian (fun i => m (a + i)) 2) := by
  simp only [halfAt, littleEndian, Nat.mul_zero, Nat.pow_zero, Nat.one_mul, Nat.zero_add, Nat.add_zero]

theorem wordAt_congr (h : ∀ i < 4, m (a + i) = m' (b + i)) : wordAt m a = wordAt m' b := by
  have h0 := h 0 (by omega)
  simp only [wordAt, h 1 (by omega), h 2 (by omega), h 3 (by omega), Nat.add_zero] at h0 ⊢
  rw [h0]

theorem wordAt_bytesOf (v : BitVec 32) : wordAt (bytesOf v) 0 = v := by
  apply BitVec.eq_of_toNat_eq
  have hv := v.isLt
  simp only [wordAt, bytesOf, BitVec.toNat_ofNat, Nat.zero_add, Nat.reduceMul, Nat.reducePow,
    Nat.mul_zero, Nat.pow_zero, Nat.div_one]
  omega

theorem wordAt_splice (m : Bytes) (a : Nat) (v : BitVec 32) :
    wordAt (splice m a 4 (bytesOf v)) a = v := by
  rw [← wordAt_bytesOf v, wordAt_congr (b := 0)]
  intro i hi
  rw [splice_apply_add hi, Nat.zero_add, wordAt_bytesOf]

end Nachos.Framework
