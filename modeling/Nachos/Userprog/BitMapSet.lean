import Nachos.Framework.Simulation
import Nachos.Framework.Traced
import Nachos.Userprog.BitMap
import Mathlib.Data.Nat.Find

/-!
# A `BitMap` is a finite set (userprog/bitmap.cc)

The calls of a `BitMap` again, with a report of each index into `map`.

* `findTraced_run`, `numClearTraced_run`: without the report the loops are `find` and
  `numClear`;
* `onSet`: the same calls of a set of numbers;
* `callTraced_spec`: a call of the bitmap answers as the call of the set does, and its
  indices are those of words of the map;
* `find_many`: what many calls of `Find` in a row return.
-/

namespace Nachos.BitMap

open Nachos.Framework Nachos.Framework.Traced

inductive Call
  | mark (which : Int)
  | clear (which : Int)
  | test (which : Int)
  | find
  | numClear

inductive Answer
  | void
  | bool (b : Bool)
  | int (n : Int)
  deriving DecidableEq, Repr

/-- The numbers in the call are in `[0, n)`. -/
def Call.InRange (n : Nat) : Call → Prop
  | .mark which => 0 ≤ which ∧ which < n
  | .clear which => 0 ≤ which ∧ which < n
  | .test which => 0 ≤ which ∧ which < n
  | .find => True
  | .numClear => True

/-! ## With a report -/

def markTraced (b : BitMap) (which : Int) : Traced Int Stop BitMap := do
  lift (assert (0 ≤ which ∧ which < b.numBits))
  report (which.tdiv 32)
  pure (b.markBit which.toNat)

def clearTraced (b : BitMap) (which : Int) : Traced Int Stop BitMap := do
  lift (assert (0 ≤ which ∧ which < b.numBits))
  report (which.tdiv 32)
  pure (b.clearBit which.toNat)

def testTraced (b : BitMap) (which : Int) : Traced Int Stop Bool := do
  lift (assert (0 ≤ which ∧ which < b.numBits))
  report (which.tdiv 32)
  pure (b.bit which.toNat)

/-- The loop of `Find`, from bit `i` on, with `n` bits to go. -/
def findTraced (b : BitMap) : Nat → Nat → Traced Int Stop (Int × BitMap)
  | 0, _ => pure (-1, b)
  | n + 1, i => do
    let t ← testTraced b i
    if t = false then do
      let b' ← markTraced b i
      pure ((i : Int), b')
    else findTraced b n (i + 1)

/-- The loop of `NumClear`, from bit `i` on, with `n` bits to go. -/
def numClearTraced (b : BitMap) : Nat → Nat → Nat → Traced Int Stop Nat
  | 0, _, count => pure count
  | n + 1, i, count => do
    let t ← testTraced b i
    numClearTraced b n (i + 1) (if t = false then count + 1 else count)

/-- The loop of the constructor, from bit `i` on, with `n` bits to go. -/
def clearAllTraced : Nat → Nat → BitMap → Traced Int Stop BitMap
  | 0, _, b => pure b
  | n + 1, i, b => do
    let b' ← clearTraced b i
    clearAllTraced n (i + 1) b'

theorem length_words (nitems : Nat) (junk : Nat → BitVec 32) :
    ((List.range (divRoundUp nitems 32)).map junk).length = divRoundUp nitems 32 := by
  rw [List.length_map, List.length_range]

def newTraced (nitems : Nat) (junk : Nat → BitVec 32) : Traced Int Stop BitMap :=
  clearAllTraced nitems 0 ⟨nitems, (List.range (divRoundUp nitems 32)).map junk, length_words nitems junk⟩

def callTraced (b : BitMap) : Call → Traced Int Stop (Answer × BitMap)
  | .mark which => do
    let b' ← markTraced b which
    pure (.void, b')
  | .clear which => do
    let b' ← clearTraced b which
    pure (.void, b')
  | .test which => do
    let t ← testTraced b which
    pure (.bool t, b)
  | .find => do
    let r ← findTraced b b.numBits 0
    pure (.int r.1, r.2)
  | .numClear => do
    let n ← numClearTraced b b.numBits 0 0
    pure (.int n, b)

/-- The calls one after the other. -/
def callsTraced : List Call → BitMap → Traced Int Stop (List Answer × BitMap)
  | [], b => pure ([], b)
  | c :: cs, b => do
    let r ← callTraced b c
    let rs ← callsTraced cs r.2
    pure (r.1 :: rs.1, rs.2)

/-- A new bitmap, and calls of it. -/
def sessionTraced (nitems : Nat) (junk : Nat → BitVec 32) (calls : List Call) :
    Traced Int Stop (List Answer × BitMap) := do
  let b ← newTraced nitems junk
  callsTraced calls b

/-! ## Without the report -/

variable {b : BitMap} {nitems : Nat} {junk : Nat → BitVec 32}

@[simp] theorem markTraced_run (b : BitMap) (which : Int) :
    (markTraced b which).run = b.mark which := by
  unfold markTraced mark
  simp only [run_bind, run_lift, run_report, run_pure, ok_bind]

@[simp] theorem clearTraced_run (b : BitMap) (which : Int) :
    (clearTraced b which).run = b.clear which := by
  unfold clearTraced clear
  simp only [run_bind, run_lift, run_report, run_pure, ok_bind]

@[simp] theorem testTraced_run (b : BitMap) (which : Int) :
    (testTraced b which).run = b.test which := by
  unfold testTraced test
  simp only [run_bind, run_lift, run_report, run_pure, ok_bind]

theorem test_natCast {i : Nat} (hi : i < b.numBits) : b.test i = .ok (b.bit i) := by
  rw [test, assert, if_pos ⟨by omega, by omega⟩]
  rfl

theorem findTraced_loop {n i : Nat} (h : i + n ≤ b.numBits) :
    (findTraced b n i).run = .ok (match (List.range' i n).find? fun j => !b.bit j with
      | some j => (↑j, b.markBit j)
      | none => (-1, b)) := by
  induction n generalizing i with
  | zero => rfl
  | succ n ih =>
    rw [findTraced, run_bind, testTraced_run, test_natCast (by omega), ok_bind, List.range'_succ,
      List.find?_cons]
    cases hb : b.bit i with
    | false =>
      simp only [if_true, Bool.not_false, run_bind, markTraced_run, mark_eq (show i < b.numBits by omega),
        ok_bind, run_pure]
    | true =>
      simp only [Bool.true_eq_false, if_false, Bool.not_true]
      exact ih (by omega)

theorem findTraced_run (b : BitMap) : (findTraced b b.numBits 0).run = .ok b.find := by
  have hloop := findTraced_loop (show 0 + b.numBits ≤ b.numBits by omega)
  rw [← List.range_eq_range'] at hloop
  exact hloop

theorem numClearTraced_loop {n i count : Nat} (h : i + n ≤ b.numBits) :
    (numClearTraced b n i count).run =
      .ok (count + ((List.range' i n).filter fun j => !b.bit j).length) := by
  induction n generalizing i count with
  | zero => rfl
  | succ n ih =>
    rw [numClearTraced, run_bind, testTraced_run, test_natCast (by omega), ok_bind, ih (by omega),
      List.range'_succ, List.filter_cons]
    cases hb : b.bit i with
    | false =>
      simp only [if_true, Bool.not_false, List.length_cons]
      congr 1
      omega
    | true => simp

theorem numClearTraced_run (b : BitMap) : (numClearTraced b b.numBits 0 0).run = .ok b.numClear := by
  rw [numClearTraced_loop (by omega), numClear, List.range_eq_range', Nat.zero_add]

theorem clearAllTraced_loop {n i : Nat} (h : i + n ≤ b.numBits) :
    (clearAllTraced n i b).run = .ok ((List.range' i n).foldl clearBit b) := by
  induction n generalizing i b with
  | zero => rfl
  | succ n ih =>
    rw [clearAllTraced, run_bind, clearTraced_run, clear_eq (by omega), ok_bind, List.range'_succ,
      List.foldl_cons]
    exact ih (by rw [numBits_clearBit]; omega)

theorem newTraced_run (nitems : Nat) (junk : Nat → BitVec 32) :
    (newTraced nitems junk).run = .ok (new nitems junk) := by
  rw [newTraced, clearAllTraced_loop (by simp), new, List.range_eq_range' (n := nitems)]

/-! ## The calls of a set -/

/-- The least number below `n` that is not in the set. -/
def least (n : Nat) (s : Finset Nat) : Option Nat :=
  if h : ∃ i, i < n ∧ i ∉ s then some (Nat.find h) else none

/-- What a call of a set of numbers below `n` returns, and the set after it. -/
def onSet (n : Nat) : Call → Finset Nat → Answer × Finset Nat
  | .mark which, s => (.void, insert which.toNat s)
  | .clear which, s => (.void, s.erase which.toNat)
  | .test which, s => (.bool (which.toNat ∈ s), s)
  | .find, s =>
    match least n s with
    | some i => (.int i, insert i s)
    | none => (.int (-1), s)
  | .numClear, s => (.int (n - s.card), s)

theorem least_eq_some {n i : Nat} {s : Finset Nat} (hi : i < n) (hm : i ∉ s) (hl : ∀ j < i, j ∈ s) :
    least n s = some i := by
  have h : ∃ i, i < n ∧ i ∉ s := ⟨i, hi, hm⟩
  rw [least, dif_pos h, Option.some.injEq, Nat.find_eq_iff]
  exact ⟨⟨hi, hm⟩, fun j hj hj' => hj'.2 (hl j hj)⟩

theorem least_eq_none {n : Nat} {s : Finset Nat} : least n s = none ↔ ∀ i < n, i ∈ s := by
  unfold least
  split
  · rename_i h
    obtain ⟨i, hi, hm⟩ := h
    refine ⟨fun h => (nomatch h), fun h => absurd (h i hi) hm⟩
  · rename_i h
    push Not at h
    exact ⟨fun _ => h, fun _ => rfl⟩

/-! ## The bitmap refines the set -/

/-- The bitmap has `n` bits, and `s` are those that are set. -/
structure Holds (n : Nat) (s : Finset Nat) (b : BitMap) : Prop where
  numBits : b.numBits = n
  marked : b.marked = s

/-- The index of a word of a map of `n` bits. -/
def IsWord (n : Nat) (i : Int) : Prop := 0 ≤ i ∧ i < divRoundUp n 32

theorem isWord_of_lt {n : Nat} {which : Int} (h : 0 ≤ which ∧ which < n) : IsWord n (which.tdiv 32) := by
  obtain ⟨i, rfl⟩ := Int.eq_ofNat_of_zero_le h.1
  have := divRoundUp_mul_le n (s := 32) (by decide)
  have hdiv : (i : Int).tdiv 32 = (i / 32 : Nat) := rfl
  rw [hdiv]
  unfold IsWord
  omega

/-- A word is used after the check of the bit. -/
theorem reports_checked {α : Type} {which : Int} {x : Traced Int Stop α}
    (hx : Reports (IsWord b.numBits) x) :
    Reports (IsWord b.numBits) (lift (assert (0 ≤ which ∧ which < b.numBits)) >>= fun _ =>
      report (which.tdiv 32) >>= fun _ => x) := by
  refine .bind (.lift _) fun _ ha => ?_
  rw [run_lift] at ha
  exact .bind (.report (isWord_of_lt (assert_eq_ok.mp ha))) fun _ _ => hx

theorem markTraced_reports (which : Int) : Reports (IsWord b.numBits) (markTraced b which) :=
  reports_checked (.pure _)

theorem clearTraced_reports (which : Int) : Reports (IsWord b.numBits) (clearTraced b which) :=
  reports_checked (.pure _)

theorem testTraced_reports (which : Int) : Reports (IsWord b.numBits) (testTraced b which) :=
  reports_checked (.pure _)

theorem findTraced_reports (n i : Nat) : Reports (IsWord b.numBits) (findTraced b n i) := by
  induction n generalizing i with
  | zero => exact .pure _
  | succ n ih =>
    exact .bind (testTraced_reports _) fun t _ =>
      .ite (fun _ => .bind (markTraced_reports _) fun _ _ => .pure _) fun _ => ih _

theorem numClearTraced_reports (n i count : Nat) :
    Reports (IsWord b.numBits) (numClearTraced b n i count) := by
  induction n generalizing i count with
  | zero => exact .pure _
  | succ n ih => exact .bind (testTraced_reports _) fun t _ => ih _ _

theorem clearAllTraced_reports (n i : Nat) : Reports (IsWord b.numBits) (clearAllTraced n i b) := by
  induction n generalizing i b with
  | zero => exact .pure _
  | succ n ih =>
    apply Reports.bind (clearTraced_reports _)
    intro b' hb'
    rw [clearTraced_run] at hb'
    obtain ⟨j, -, -, rfl⟩ := clear_spec hb'
    exact ih (i + 1)

theorem callTraced_reports (c : Call) : Reports (IsWord b.numBits) (callTraced b c) := by
  cases c with
  | mark which => exact .bind (markTraced_reports which) fun _ _ => .pure _
  | clear which => exact .bind (clearTraced_reports which) fun _ _ => .pure _
  | test which => exact .bind (testTraced_reports which) fun _ _ => .pure _
  | find => exact .bind (findTraced_reports _ _) fun _ _ => .pure _
  | numClear => exact .bind (numClearTraced_reports _ _ _) fun _ _ => .pure _

/-- A call of the bitmap answers as the call of the set. -/
theorem callTraced_spec {n : Nat} {s : Finset Nat} {c : Call} (h : Holds n s b) (hc : c.InRange n) :
    ∃ b', (callTraced b c).run = .ok ((onSet n c s).1, b') ∧ Holds n (onSet n c s).2 b' := by
  obtain ⟨rfl, rfl⟩ := h
  cases c with
  | mark which =>
    obtain ⟨i, rfl⟩ := Int.eq_ofNat_of_zero_le hc.1
    have hi : i < b.numBits := by have := hc.2; omega
    refine ⟨b.markBit i, ?_, rfl, b.marked_markBit hi⟩
    rw [callTraced, run_bind, markTraced_run, mark_eq hi, ok_bind, run_pure]
    rfl
  | clear which =>
    obtain ⟨i, rfl⟩ := Int.eq_ofNat_of_zero_le hc.1
    have hi : i < b.numBits := by have := hc.2; omega
    refine ⟨b.clearBit i, ?_, rfl, b.marked_clearBit hi⟩
    rw [callTraced, run_bind, clearTraced_run, clear_eq hi, ok_bind, run_pure]
    rfl
  | test which =>
    obtain ⟨i, rfl⟩ := Int.eq_ofNat_of_zero_le hc.1
    have hi : i < b.numBits := by have := hc.2; omega
    refine ⟨b, ?_, rfl, rfl⟩
    rw [callTraced, run_bind, testTraced_run, test_eq hi, ok_bind, run_pure]
    rfl
  | find =>
    rw [callTraced, run_bind, findTraced_run, ok_bind, run_pure]
    rcases b.find_spec with ⟨i, hi, hm, hl, hf⟩ | ⟨hall, hf⟩
    · rw [hf, onSet, least_eq_some hi hm hl]
      exact ⟨_, rfl, rfl, b.marked_markBit hi⟩
    · rw [hf, onSet, least_eq_none.mpr fun i hi => by rw [hall]; exact Finset.mem_range.mpr hi]
      exact ⟨b, rfl, rfl, rfl⟩
  | numClear =>
    refine ⟨b, ?_, rfl, rfl⟩
    have hn : ((b.numClear : Nat) : Int) = b.numBits - b.marked.card := by
      have := b.numClear_add_card
      omega
    rw [callTraced, run_bind, numClearTraced_run, ok_bind, run_pure, hn]
    rfl

theorem callsTraced_spec {n : Nat} {s : Finset Nat} {calls : List Call} (h : Holds n s b)
    (hc : ∀ c ∈ calls, c.InRange n) :
    ∃ b' s', (callsTraced calls b).run = .ok (results (onSet n) calls s, b') ∧ Holds n s' b' ∧
      Reports (IsWord n) (callsTraced calls b) := by
  induction calls generalizing b s with
  | nil => exact ⟨b, s, rfl, h, .pure _⟩
  | cons c cs ih =>
    obtain ⟨b₁, hrun, h₁⟩ := callTraced_spec h (hc c List.mem_cons_self)
    obtain ⟨b', s', hruns, h', hrep⟩ := ih h₁ fun d hd => hc d (List.mem_cons_of_mem c hd)
    refine ⟨b', s', ?_, h', ?_⟩
    · rw [callsTraced, run_bind, hrun, ok_bind, run_bind, hruns, ok_bind, run_pure]
      rfl
    · refine .bind (h.numBits ▸ callTraced_reports c) fun r hr => ?_
      rw [hrun] at hr
      cases hr
      exact .bind hrep fun _ _ => .pure _

/-! ## Many calls of `Find` -/

/-- While there are enough clear bits, each call of `Find` gets a new one. -/
theorem find_many {k : Nat} (hk : k ≤ b.numClear) :
    ∃ (fs : List Nat) (b' : BitMap), fs.length = k ∧ Allocated b b' fs ∧
      (callsTraced (List.replicate k .find) b).run = .ok (fs.map fun f => Answer.int f, b') := by
  induction k generalizing b with
  | zero => exact ⟨[], b, rfl, .nil b, rfl⟩
  | succ k ih =>
    obtain ⟨f, hf, hm, hfind, hleft⟩ := find_of_numClear (b := b) (by omega)
    obtain ⟨fs, b', hlen, hall, hrun⟩ := ih (b := b.markBit f) (by omega)
    refine ⟨f :: fs, b', by rw [List.length_cons, hlen], .cons hf hm hall, ?_⟩
    rw [List.replicate_succ, callsTraced, run_bind, callTraced, run_bind, findTraced_run, ok_bind, run_pure,
      ok_bind, hfind, run_bind, hrun, ok_bind, run_pure]
    rfl

/-- A bitmap answers every sequence of calls as a set of numbers does, uses only indices of
words of its map, and gives out as many bits as it counts clear ones. -/
theorem session_refines_set (nitems : Nat) (junk : Nat → BitVec 32) (calls : List Call)
    (h : ∀ c ∈ calls, c.InRange nitems) :
    ∃ b, (sessionTraced nitems junk calls).run = .ok (results (onSet nitems) calls ∅, b) ∧
      Reports (fun i : Int => 0 ≤ i ∧ i < b.map.length) (sessionTraced nitems junk calls) ∧
      ∀ k ≤ b.numClear, ∃ (fs : List Nat) (b' : BitMap), fs.length = k ∧ Allocated b b' fs ∧
        (callsTraced (List.replicate k .find) b).run = .ok (fs.map fun f => Answer.int f, b') := by
  obtain ⟨hn, hm⟩ := marked_new nitems junk
  obtain ⟨b, s, hrun, hb, hrep⟩ := callsTraced_spec ⟨hn, hm⟩ h
  refine ⟨b, ?_, ?_, fun k hk => find_many hk⟩
  · rw [sessionTraced, run_bind, newTraced_run, ok_bind, hrun]
  · rw [b.length_map, hb.numBits]
    refine .bind (clearAllTraced_reports nitems 0) fun b₀ hb₀ => ?_
    rw [newTraced_run] at hb₀
    cases hb₀
    exact hrep

theorem session_refines_set_example : ∃ b,
    (sessionTraced 40 (fun _ => 0) [.mark 0, .find, .find, .clear 1, .find, .numClear]).run =
      .ok (results (onSet 40) [.mark 0, .find, .find, .clear 1, .find, .numClear] ∅, b) ∧
      Reports (fun i : Int => 0 ≤ i ∧ i < b.map.length)
        (sessionTraced 40 (fun _ => 0) [.mark 0, .find, .find, .clear 1, .find, .numClear]) ∧
      ∀ k ≤ b.numClear, ∃ (fs : List Nat) (b' : BitMap), fs.length = k ∧ Allocated b b' fs ∧
        (callsTraced (List.replicate k .find) b).run = .ok (fs.map fun f => Answer.int f, b') :=
  session_refines_set 40 _ _ (by simp [Call.InRange])

end Nachos.BitMap
