import Mathlib.Algebra.Order.BigOperators.Group.Finset
import Mathlib.Data.Finset.Dedup
import Mathlib.Data.List.Nodup

/-!
# Who owns what

Resources of a type `ρ` (frames, sectors) are handed out to owners of a type
`ι`, and a set records which are in use. `Owned` says that the record is right
and that no resource is handed out twice.

* `Owned.take`, `Owned.release`: handing out free resources, giving all of an
  owner's resources back;
* `Owned.sum_length_le`, `Owned.sum_length_eq`: what the owners hold together, and
  what is in use.
-/

namespace Nachos.Framework

variable {ι ρ : Type*}

/-- The owners hold different resources, together exactly those in `used`. -/
structure Owned (holds : ι → List ρ) (used : Finset ρ) : Prop where
  nodup : ∀ i, (holds i).Nodup
  eq_of_mem : ∀ i j r, r ∈ holds i → r ∈ holds j → i = j
  mem_used : ∀ r, r ∈ used ↔ ∃ i, r ∈ holds i

variable {holds : ι → List ρ} {used : Finset ρ}

/-- Resources of different owners are different. -/
theorem Owned.notMem_of_ne (h : Owned holds used) {i j : ι} {r : ρ} (hr : r ∈ holds i) (hij : i ≠ j) :
    r ∉ holds j :=
  fun hr' => hij (h.eq_of_mem i j r hr hr')

theorem Owned.empty (h : ∀ i, holds i = []) : Owned holds (∅ : Finset ρ) := by
  refine ⟨fun i => ?_, fun i j r hr _ => ?_, fun r => ?_⟩
  · rw [h i]
    exact List.nodup_nil
  · rw [h i] at hr
    cases hr
  · simp [h]

variable [DecidableEq ρ]

/-- An owner with nothing gets resources that were free. -/
theorem Owned.take [DecidableEq ι] (h : Owned holds used) {i : ι} {rs : List ρ} (hi : holds i = [])
    (hnd : rs.Nodup) (hfree : ∀ r ∈ rs, r ∉ used) :
    Owned (Function.update holds i rs) (used ∪ rs.toFinset) := by
  have hne : ∀ {j r}, j ≠ i → r ∈ holds j → r ∉ rs := fun {j r} _ hr hin =>
    hfree r hin ((h.mem_used r).mpr ⟨j, hr⟩)
  refine ⟨fun j => ?_, fun j j' r hr hr' => ?_, fun r => ?_⟩
  · by_cases hj : j = i
    · rw [hj, Function.update_self]
      exact hnd
    · rw [Function.update_of_ne hj]
      exact h.nodup j
  · by_cases hj : j = i <;> by_cases hj' : j' = i
    · rw [hj, hj']
    · rw [hj, Function.update_self] at hr
      rw [Function.update_of_ne hj'] at hr'
      exact absurd hr (hne hj' hr')
    · rw [Function.update_of_ne hj] at hr
      rw [hj', Function.update_self] at hr'
      exact absurd hr' (hne hj hr)
    · rw [Function.update_of_ne hj] at hr
      rw [Function.update_of_ne hj'] at hr'
      exact h.eq_of_mem j j' r hr hr'
  · rw [Finset.mem_union, List.mem_toFinset, h.mem_used]
    constructor
    · rintro (⟨j, hj⟩ | hr)
      · refine ⟨j, ?_⟩
        rw [Function.update_of_ne (fun heq => by rw [heq, hi] at hj; cases hj)]
        exact hj
      · exact ⟨i, by rw [Function.update_self]; exact hr⟩
    · rintro ⟨j, hj⟩
      by_cases hji : j = i
      · rw [hji, Function.update_self] at hj
        exact .inr hj
      · rw [Function.update_of_ne hji] at hj
        exact .inl ⟨j, hj⟩

/-- An owner gives everything back. -/
theorem Owned.release [DecidableEq ι] (h : Owned holds used) (i : ι) :
    Owned (Function.update holds i []) (used \ (holds i).toFinset) := by
  have hlook : ∀ {j r}, r ∈ Function.update holds i [] j → j ≠ i ∧ r ∈ holds j := by
    intro j r hr
    by_cases hj : j = i
    · rw [hj, Function.update_self] at hr
      cases hr
    · rw [Function.update_of_ne hj] at hr
      exact ⟨hj, hr⟩
  refine ⟨fun j => ?_, fun j j' r hr hr' => ?_, fun r => ?_⟩
  · by_cases hj : j = i
    · rw [hj, Function.update_self]
      exact List.nodup_nil
    · rw [Function.update_of_ne hj]
      exact h.nodup j
  · exact h.eq_of_mem j j' r (hlook hr).2 (hlook hr').2
  · rw [Finset.mem_sdiff, List.mem_toFinset, h.mem_used]
    constructor
    · rintro ⟨⟨j, hj⟩, hr⟩
      have hji : j ≠ i := fun heq => hr (heq ▸ hj)
      exact ⟨j, by rw [Function.update_of_ne hji]; exact hj⟩
    · rintro ⟨j, hj⟩
      obtain ⟨hji, hj⟩ := hlook hj
      exact ⟨⟨j, hj⟩, fun hr => hji (h.eq_of_mem j i r hj hr)⟩

theorem Owned.toFinset_subset (h : Owned holds used) (i : ι) : (holds i).toFinset ⊆ used := by
  intro r hr
  exact (h.mem_used r).mpr ⟨i, List.mem_toFinset.mp hr⟩

theorem Owned.card_toFinset (h : Owned holds used) (i : ι) :
    (holds i).toFinset.card = (holds i).length :=
  List.toFinset_card_of_nodup (h.nodup i)

theorem Owned.sum_length (h : Owned holds used) (is : Finset ι) :
    ∑ i ∈ is, (holds i).length = (is.biUnion fun i => (holds i).toFinset).card := by
  have hdisj : (is : Set ι).PairwiseDisjoint fun i => (holds i).toFinset := by
    intro i _ j _ hij
    refine Finset.disjoint_left.mpr fun r hr hr' => hij ?_
    exact h.eq_of_mem i j r (List.mem_toFinset.mp hr) (List.mem_toFinset.mp hr')
  rw [Finset.card_biUnion hdisj]
  simp only [h.card_toFinset]

/-- What some of the owners hold together is at most what is in use. -/
theorem Owned.sum_length_le (h : Owned holds used) (is : Finset ι) :
    ∑ i ∈ is, (holds i).length ≤ used.card := by
  rw [h.sum_length]
  exact Finset.card_le_card (Finset.biUnion_subset.mpr fun i _ => h.toFinset_subset i)

/-- What all who hold anything hold together is what is in use. -/
theorem Owned.sum_length_eq (h : Owned holds used) {is : Finset ι} (hout : ∀ i, i ∉ is → holds i = []) :
    ∑ i ∈ is, (holds i).length = used.card := by
  refine Nat.le_antisymm (h.sum_length_le is) ?_
  rw [h.sum_length]
  refine Finset.card_le_card fun r hr => ?_
  obtain ⟨i, hi⟩ := (h.mem_used r).mp hr
  have his : i ∈ is := by
    by_contra hc
    rw [hout i hc] at hi
    cases hi
  exact Finset.mem_biUnion.mpr ⟨i, his, List.mem_toFinset.mpr hi⟩

end Nachos.Framework
