import Nachos.Framework.CInt
import Nachos.Framework.Stop
import Mathlib.Data.BitVec
import Mathlib.Data.Finset.Card
import Mathlib.Order.Interval.Finset.Nat

/-!
# `BitMap` (userprog/bitmap.cc)

An array of bits, stored in words. The abstract view is the set `marked` of the
bits that are set.

* `mark_eq`, `clear_eq`, `clear_spec`, `test_spec`: the three operations on one bit;
* `find_spec`: `Find` marks the least clear bit, or reports that there is none;
* `numClear_add_card`: what `NumClear` counts;
* `Allocated`: what many calls of `Find` have got.
-/

namespace Nachos

open Nachos.Framework

/-- `BitMap`: the number of bits and the words that hold them. -/
structure BitMap where
  numBits : Nat
  map : List (BitVec 32)
  length_map : map.length = divRoundUp numBits 32

namespace BitMap

/-- The bit `which` of the array: `map[which / BitsInWord] & (1 << (which % BitsInWord))`. -/
def bit (b : BitMap) (which : Nat) : Bool :=
  b.map.getD (which / 32) 0 &&& (1#32 <<< (which % 32)) ≠ 0

/-- The array with one word replaced. -/
def setWord (b : BitMap) (i : Nat) (w : BitVec 32) : BitMap :=
  ⟨b.numBits, b.map.set i w, by rw [List.length_set, b.length_map]⟩

def markBit (b : BitMap) (which : Nat) : BitMap :=
  b.setWord (which / 32) (b.map.getD (which / 32) 0 ||| (1#32 <<< (which % 32)))

def clearBit (b : BitMap) (which : Nat) : BitMap :=
  b.setWord (which / 32) (b.map.getD (which / 32) 0 &&& ~~~(1#32 <<< (which % 32)))

/-- `BitMap::BitMap`: the words are allocated with whatever they hold, `junk`,
and the bits cleared one by one. -/
def new (nitems : Nat) (junk : Nat → BitVec 32) : BitMap :=
  (List.range nitems).foldl clearBit
    ⟨nitems, (List.range (divRoundUp nitems 32)).map junk, by simp⟩

/-- `BitMap::Mark`. -/
def mark (b : BitMap) (which : Int) : Except Stop BitMap := do
  assert (0 ≤ which ∧ which < b.numBits)
  .ok (b.markBit which.toNat)

/-- `BitMap::Clear`. -/
def clear (b : BitMap) (which : Int) : Except Stop BitMap := do
  assert (0 ≤ which ∧ which < b.numBits)
  .ok (b.clearBit which.toNat)

/-- `BitMap::Test`. -/
def test (b : BitMap) (which : Int) : Except Stop Bool := do
  assert (0 ≤ which ∧ which < b.numBits)
  .ok (b.bit which.toNat)

/-- `BitMap::Find`: the loop tests the bits from 0 on. -/
def find (b : BitMap) : Int × BitMap :=
  match (List.range b.numBits).find? fun i => !b.bit i with
  | some i => (i, b.markBit i)
  | none => (-1, b)

/-- `BitMap::NumClear`. -/
def numClear (b : BitMap) : Nat := ((List.range b.numBits).filter fun i => !b.bit i).length

/-- The bits that are set. -/
def marked (b : BitMap) : Finset Nat := (Finset.range b.numBits).filter fun i => b.bit i

/-! ## Bits and words -/

theorem bit_eq (b : BitMap) (i : Nat) : b.bit i = (b.map.getD (i / 32) 0).getLsbD (i % 32) := by
  have h : i % 32 < 32 := Nat.mod_lt _ (by decide)
  unfold bit
  rw [show 1#32 <<< (i % 32) = BitVec.twoPow 32 (i % 32) from rfl, BitVec.and_twoPow]
  split
  · rename_i hb
    have hne : BitVec.twoPow 32 (i % 32) ≠ 0 := by
      intro h0
      have := congrArg (BitVec.getLsbD · (i % 32)) h0
      simp [h] at this
    rw [hb]
    exact decide_eq_true hne
  · rename_i hb
    rw [Bool.not_eq_true] at hb
    rw [hb]
    exact decide_eq_false fun h0 => h0 rfl

theorem bit_setWord (b : BitMap) {i : Nat} (hi : i / 32 < b.map.length) (w : BitVec 32) (j : Nat) :
    (b.setWord (i / 32) w).bit j = if j / 32 = i / 32 then w.getLsbD (j % 32) else b.bit j := by
  rw [bit_eq, bit_eq]
  simp only [setWord, List.getD_eq_getElem?_getD, List.getElem?_set]
  split
  · rename_i h
    rw [if_pos h.symm, Option.getD_some]
  · rename_i h
    rw [if_neg fun h' => h h'.symm]

theorem div_lt_length (b : BitMap) {i : Nat} (h : i < b.numBits) : i / 32 < b.map.length := by
  have := divRoundUp_mul_le b.numBits (s := 32) (by decide)
  rw [b.length_map]
  omega

theorem bit_markBit (b : BitMap) {i : Nat} (h : i < b.numBits) (j : Nat) :
    (b.markBit i).bit j = (b.bit j || decide (j = i)) := by
  rw [markBit, bit_setWord b (b.div_lt_length h)]
  split
  · rename_i hw
    rw [show 1#32 <<< (i % 32) = BitVec.twoPow 32 (i % 32) from rfl, BitVec.getLsbD_or,
      BitVec.getLsbD_twoPow, bit_eq, hw]
    simp only [Nat.mod_lt i (show 0 < 32 by decide), decide_true, Bool.true_and]
    congr 2
    simp only [eq_iff_iff]
    omega
  · rename_i hw
    rw [decide_eq_false (by rintro rfl; exact hw rfl), Bool.or_false]

theorem bit_clearBit (b : BitMap) {i : Nat} (h : i < b.numBits) (j : Nat) :
    (b.clearBit i).bit j = (b.bit j && decide (j ≠ i)) := by
  rw [clearBit, bit_setWord b (b.div_lt_length h)]
  split
  · rename_i hw
    rw [show 1#32 <<< (i % 32) = BitVec.twoPow 32 (i % 32) from rfl, BitVec.getLsbD_and,
      BitVec.getLsbD_not, BitVec.getLsbD_twoPow, bit_eq, hw]
    simp only [Nat.mod_lt i (show 0 < 32 by decide), Nat.mod_lt j (show 0 < 32 by decide),
      decide_true, Bool.true_and, ← decide_not]
    congr 2
    simp only [eq_iff_iff]
    omega
  · rename_i hw
    rw [decide_eq_true (by rintro rfl; exact hw rfl), Bool.and_true]

/-! ## The operations on the set of marked bits -/

@[simp] theorem numBits_markBit (b : BitMap) (i : Nat) : (b.markBit i).numBits = b.numBits := rfl

@[simp] theorem numBits_clearBit (b : BitMap) (i : Nat) : (b.clearBit i).numBits = b.numBits := rfl

theorem mem_marked {b : BitMap} {i : Nat} : i ∈ b.marked ↔ i < b.numBits ∧ b.bit i = true := by
  simp [marked]

theorem marked_markBit (b : BitMap) {i : Nat} (h : i < b.numBits) :
    (b.markBit i).marked = insert i b.marked := by
  ext j
  simp only [mem_marked, Finset.mem_insert, numBits_markBit, bit_markBit b h, Bool.or_eq_true,
    decide_eq_true_eq]
  constructor
  · rintro ⟨hj, hb | rfl⟩
    · exact .inr ⟨hj, hb⟩
    · exact .inl rfl
  · rintro (rfl | ⟨hj, hb⟩)
    · exact ⟨h, .inr rfl⟩
    · exact ⟨hj, .inl hb⟩

theorem marked_clearBit (b : BitMap) {i : Nat} (h : i < b.numBits) :
    (b.clearBit i).marked = b.marked.erase i := by
  ext j
  simp only [mem_marked, Finset.mem_erase, numBits_clearBit, bit_clearBit b h, Bool.and_eq_true,
    decide_eq_true_eq]
  tauto

theorem mark_eq {b : BitMap} {i : Nat} (hi : i < b.numBits) : b.mark i = .ok (b.markBit i) := by
  rw [mark, assert, if_pos ⟨by omega, by omega⟩]
  rfl

theorem clear_spec {b b' : BitMap} {which : Int} (h : b.clear which = .ok b') :
    ∃ i : Nat, which = i ∧ i < b.numBits ∧ b' = b.clearBit i := by
  obtain ⟨u, ha, h⟩ := bind_eq_ok.mp h
  have hr := assert_eq_ok.mp ha
  cases h
  exact ⟨which.toNat, by omega, by omega, rfl⟩

theorem clear_eq {b : BitMap} {i : Nat} (hi : i < b.numBits) : b.clear i = .ok (b.clearBit i) := by
  rw [clear, assert, if_pos ⟨by omega, by omega⟩]
  rfl

theorem test_spec {b : BitMap} {which : Int} {v : Bool} (h : b.test which = .ok v) :
    ∃ i : Nat, which = i ∧ i < b.numBits ∧ v = decide (i ∈ b.marked) := by
  obtain ⟨u, ha, h⟩ := bind_eq_ok.mp h
  have hr := assert_eq_ok.mp ha
  cases h
  refine ⟨which.toNat, by omega, by omega, ?_⟩
  rw [Bool.eq_iff_iff, decide_eq_true_eq, mem_marked]
  exact ⟨fun hb => ⟨by omega, hb⟩, fun hb => hb.2⟩

theorem test_eq {b : BitMap} {i : Nat} (hi : i < b.numBits) :
    b.test i = .ok (decide (i ∈ b.marked)) := by
  rw [test, assert, if_pos ⟨by omega, by omega⟩]
  show Except.ok (b.bit (i : Int).toNat) = _
  rw [Int.toNat_natCast]
  congr 1
  rw [Bool.eq_iff_iff, decide_eq_true_eq, mem_marked]
  exact ⟨fun hb => ⟨hi, hb⟩, fun hb => hb.2⟩

/-- `Find` marks the least clear bit, or leaves the map alone and returns -1
when every bit is set. -/
theorem find_spec (b : BitMap) :
    (∃ i : Nat, i < b.numBits ∧ i ∉ b.marked ∧ (∀ j < i, j ∈ b.marked) ∧
      b.find = (↑i, b.markBit i)) ∨
    (b.marked = Finset.range b.numBits ∧ b.find = (-1, b)) := by
  unfold find
  cases hf : (List.range b.numBits).find? fun i => !b.bit i with
  | some i =>
    obtain ⟨hi, as, bs, hab, has⟩ := List.find?_eq_some_iff_append.mp hf
    have hlt : i < b.numBits := List.mem_range.mp (List.mem_of_find?_eq_some hf)
    refine .inl ⟨i, hlt, fun hm => ?_, fun j hj => ?_, rfl⟩
    · simp [(mem_marked.mp hm).2] at hi
    · have hlen : as.length = i := by
        have := congrArg (·[as.length]?) hab
        simp only [List.getElem?_append_right (Nat.le_refl _), Nat.sub_self,
          List.getElem?_cons_zero] at this
        exact (List.getElem?_eq_some_iff.mp this).2 ▸ (by simp)
      have hm : j ∈ as := by
        have := congrArg (·[j]?) hab
        simp only [List.getElem?_append_left (show j < as.length by omega)] at this
        rw [List.getElem?_range (by omega)] at this
        exact List.mem_of_getElem? this.symm
      exact mem_marked.mpr ⟨by omega, by simpa using has j hm⟩
  | none =>
    refine .inr ⟨?_, rfl⟩
    ext j
    rw [mem_marked, Finset.mem_range]
    refine ⟨fun h => h.1, fun h => ⟨h, ?_⟩⟩
    simpa using List.find?_eq_none.mp hf j (List.mem_range.mpr h)

theorem marked_subset (b : BitMap) : b.marked ⊆ Finset.range b.numBits := Finset.filter_subset _ _

theorem numClear_add_card (b : BitMap) : b.numClear + b.marked.card = b.numBits := by
  have hf : (List.range b.numBits).toFinset = Finset.range b.numBits := by
    ext; simp
  have hclear : b.numClear = ((Finset.range b.numBits).filter fun i => ¬ b.bit i).card := by
    rw [numClear, ← List.toFinset_card_of_nodup (List.nodup_range.filter _)]
    congr 1
    ext i
    simp
  rw [hclear, marked, Nat.add_comm, Finset.card_filter_add_card_filter_not, Finset.card_range]

/-- While fewer bits are set than there are, `Find` finds one. -/
theorem find_of_numClear {b : BitMap} (h : 0 < b.numClear) :
    ∃ i : Nat, i < b.numBits ∧ i ∉ b.marked ∧ b.find = (↑i, b.markBit i) ∧
      (b.markBit i).numClear + 1 = b.numClear := by
  rcases b.find_spec with ⟨i, hi, hm, -, hf⟩ | ⟨hall, -⟩
  · refine ⟨i, hi, hm, hf, ?_⟩
    have h₁ := b.numClear_add_card
    have h₂ := (b.markBit i).numClear_add_card
    rw [b.marked_markBit hi, Finset.card_insert_of_notMem hm, numBits_markBit] at h₂
    omega
  · have := b.numClear_add_card
    rw [hall, Finset.card_range] at this
    omega

theorem marked_new (nitems : Nat) (junk : Nat → BitVec 32) :
    (new nitems junk).numBits = nitems ∧ (new nitems junk).marked = ∅ := by
  -- after `k` of the clears, no bit below `k` is set
  have key : ∀ (k : Nat) (b : BitMap), k ≤ b.numBits →
      ((List.range k).foldl clearBit b).numBits = b.numBits ∧
        ∀ j < k, ((List.range k).foldl clearBit b).bit j = false := by
    intro k b hk
    induction k with
    | zero => exact ⟨rfl, fun j hj => absurd hj (Nat.not_lt_zero j)⟩
    | succ k ih =>
      obtain ⟨hn, hb⟩ := ih (by omega)
      rw [List.range_succ, List.foldl_append, List.foldl_cons, List.foldl_nil]
      refine ⟨hn, fun j hj => ?_⟩
      rw [bit_clearBit _ (by omega)]
      by_cases hjk : j = k
      · rw [hjk, decide_eq_false (fun h => h rfl), Bool.and_false]
      · rw [hb j (by omega), Bool.false_and]
  obtain ⟨hn, hb⟩ := key nitems
    ⟨nitems, (List.range (divRoundUp nitems 32)).map junk, by simp⟩ (Nat.le_refl _)
  refine ⟨hn, ?_⟩
  ext j
  rw [mem_marked]
  refine ⟨fun ⟨hj, hbit⟩ => ?_, fun h => absurd h (Finset.notMem_empty j)⟩
  have hj' : j < nitems := by rw [new, hn] at hj; exact hj
  rw [new, hb j hj'] at hbit
  cases hbit

end BitMap

/-! ## Many bits -/

/-- Getting the numbers `fs` takes the bitmap from `b` to `b'`. -/
structure Allocated (b b' : BitMap) (fs : List Nat) : Prop where
  numBits : b'.numBits = b.numBits
  nodup : fs.Nodup
  free : ∀ f ∈ fs, f < b.numBits ∧ f ∉ b.marked
  marked : b'.marked = b.marked ∪ fs.toFinset

theorem Allocated.nil (b : BitMap) : Allocated b b [] :=
  ⟨rfl, List.nodup_nil, fun f hf => absurd hf List.not_mem_nil, by simp⟩

theorem Allocated.cons {b b' : BitMap} {f : Nat} {fs : List Nat} (hf : f < b.numBits)
    (hm : f ∉ b.marked) (h : Allocated (b.markBit f) b' fs) : Allocated b b' (f :: fs) := by
  have hmark := b.marked_markBit hf
  refine ⟨h.numBits, List.nodup_cons.mpr ⟨fun hin => ?_, h.nodup⟩, fun g hg => ?_, ?_⟩
  · exact (h.free f hin).2 (by rw [hmark]; exact Finset.mem_insert_self f _)
  · rcases List.mem_cons.mp hg with rfl | hg
    · exact ⟨hf, hm⟩
    · exact ⟨(h.free g hg).1, fun hgm => (h.free g hg).2 (by
        rw [hmark]; exact Finset.mem_insert_of_mem hgm)⟩
  · rw [h.marked, hmark, List.toFinset_cons, Finset.insert_union, Finset.union_insert]

end Nachos
