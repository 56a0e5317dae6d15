import Mathlib.Data.List.Basic

/-!
# Runs of a step function

A system is a step function `step : ι → σ → Option σ`: from a state, an input
(what the environment chooses: a call, a schedule, an interrupt) leads to the
next state, or stops the run. `run` drives it by a list of inputs.

* `run_invariant`: what every step keeps holds in every state reached;
* `run_invariant_along`: the same, when only the steps that meet a condition
  keep it, for the runs all of whose steps meet the condition (`Along`);
* `run_progress_along`: the same, with that the run is not stopped;
* `run_take`: the states on the way are the states of the prefixes.
-/

namespace Nachos.Framework

variable {σ ι : Type*} {step : ι → σ → Option σ}

/-- The state after the inputs, or `none` when a step stops the run. -/
def run (step : ι → σ → Option σ) : List ι → σ → Option σ
  | [], s => some s
  | i :: is, s => (step i s).bind (run step is)

@[simp] theorem run_nil (s : σ) : run step [] s = some s := rfl

theorem run_cons (i : ι) (is : List ι) (s : σ) :
    run step (i :: is) s = (step i s).bind (run step is) := rfl

theorem run_cons_eq_some {i : ι} {is : List ι} {s t : σ} :
    run step (i :: is) s = some t ↔ ∃ u, step i s = some u ∧ run step is u = some t := by
  simp only [run_cons, Option.bind_eq_some_iff]

theorem run_append (is js : List ι) (s : σ) :
    run step (is ++ js) s = (run step is s).bind (run step js) := by
  induction is generalizing s with
  | nil => rfl
  | cons i is ih =>
    simp only [List.cons_append, run_cons, Option.bind_assoc]
    congr 1; funext t; exact ih t

theorem run_snoc_eq_some {i : ι} {is : List ι} {s t : σ} :
    run step (is ++ [i]) s = some t ↔ ∃ u, run step is s = some u ∧ step i u = some t := by
  rw [run_append, Option.bind_eq_some_iff]
  simp only [run_cons_eq_some, run_nil, Option.some.injEq, exists_eq_right]

/-- The states on the way: a prefix of a run is a run. -/
theorem run_take {is : List ι} {s t : σ} (h : run step is s = some t) (n : Nat) :
    ∃ u, run step (is.take n) s = some u := by
  rw [← List.take_append_drop n is, run_append, Option.bind_eq_some_iff] at h
  exact h.imp fun _ hu => hu.1

/-- Every step of the run meets the condition `G` on its input and the state
before it. -/
def Along (step : ι → σ → Option σ) (G : ι → σ → Prop) : List ι → σ → Prop
  | [], _ => True
  | i :: is, s => G i s ∧ ∀ t, step i s = some t → Along step G is t

theorem along_cons {G : ι → σ → Prop} {i : ι} {is : List ι} {s : σ} :
    Along step G (i :: is) s ↔ G i s ∧ ∀ t, step i s = some t → Along step G is t := Iff.rfl

instance Along.decidable {G : ι → σ → Prop} [∀ i s, Decidable (G i s)] :
    ∀ (is : List ι) (s : σ), Decidable (Along step G is s)
  | [], _ => isTrue trivial
  | i :: is, s =>
    match h : step i s with
    | none => decidable_of_iff (G i s) (by rw [along_cons, h]; simp)
    | some t =>
      have : Decidable (Along step G is t) := Along.decidable is t
      decidable_of_iff (G i s ∧ Along step G is t) (by rw [along_cons, h]; simp)

/-- `Along`, step by step: the `n`-th input meets `G` in the state after the
first `n` inputs. -/
theorem along_iff {G : ι → σ → Prop} {is : List ι} {s : σ} : Along step G is s ↔
    ∀ n i u, is[n]? = some i → run step (is.take n) s = some u → G i u := by
  induction is generalizing s with
  | nil => exact ⟨fun _ n i u hi => by simp at hi, fun _ => trivial⟩
  | cons j is ih =>
    constructor
    · rintro ⟨hj, ha⟩ n i u hi hu
      cases n with
      | zero =>
        simp only [List.getElem?_cons_zero, Option.some.injEq, List.take_zero, run_nil] at hi hu
        exact hi ▸ hu ▸ hj
      | succ n =>
        rw [List.take_succ_cons] at hu
        obtain ⟨t, ht, hu⟩ := run_cons_eq_some.mp hu
        exact ih.mp (ha t ht) n i u (by simpa using hi) hu
    · intro h
      refine ⟨h 0 j s rfl rfl, fun t ht => ih.mpr fun n i u hi hu => ?_⟩
      refine h (n + 1) i u (by simpa using hi) ?_
      rw [List.take_succ_cons]
      exact run_cons_eq_some.mpr ⟨t, ht, hu⟩

theorem Along.take {G : ι → σ → Prop} {is : List ι} {s : σ} (h : Along step G is s) (n : Nat) :
    Along step G (is.take n) s := by
  refine along_iff.mpr fun m i u hi hu => ?_
  have hm : m < n := by
    by_contra hc
    rw [List.getElem?_eq_none (by rw [List.length_take]; omega)] at hi
    cases hi
  rw [List.getElem?_take_of_lt hm] at hi
  rw [List.take_take, Nat.min_eq_left (Nat.le_of_lt hm)] at hu
  exact along_iff.mp h m i u hi hu

theorem Along.of_forall {G : ι → σ → Prop} {is : List ι} (h : ∀ i ∈ is, ∀ s, G i s) (s : σ) :
    Along step G is s := by
  induction is generalizing s with
  | nil => exact trivial
  | cons i is ih =>
    exact ⟨h i List.mem_cons_self s, fun t _ => ih (fun j hj => h j (List.mem_cons_of_mem i hj)) t⟩

theorem Along.and {G H : ι → σ → Prop} {is : List ι} {s : σ} (hG : Along step G is s)
    (hH : Along step H is s) : Along step (fun i s => G i s ∧ H i s) is s := by
  induction is generalizing s with
  | nil => exact trivial
  | cons i is ih => exact ⟨⟨hG.1, hH.1⟩, fun t ht => ih (hG.2 t ht) (hH.2 t ht)⟩

theorem Along.mono {G H : ι → σ → Prop} {is : List ι} {s : σ} (hGH : ∀ i s, G i s → H i s)
    (h : Along step G is s) : Along step H is s := by
  induction is generalizing s with
  | nil => exact trivial
  | cons i is ih => exact ⟨hGH i s h.1, fun t ht => ih (h.2 t ht)⟩

/-- What the steps meeting `G` keep holds after a run of such steps. -/
theorem run_invariant_along {I : σ → Prop} {G : ι → σ → Prop}
    (hstep : ∀ i s t, I s → G i s → step i s = some t → I t) {is : List ι} {s t : σ}
    (hs : I s) (hg : Along step G is s) (h : run step is s = some t) : I t := by
  induction is generalizing s with
  | nil =>
    simp only [run_nil, Option.some.injEq] at h
    exact h ▸ hs
  | cons i is ih =>
    obtain ⟨u, hu, h⟩ := run_cons_eq_some.mp h
    exact ih (hstep i s u hs hg.1 hu) (hg.2 u hu) h

/-- When the steps meeting `G` never stop the run and keep `I`, neither does a run of
such steps. -/
theorem run_progress_along {I : σ → Prop} {G : ι → σ → Prop}
    (hstep : ∀ i s, I s → G i s → ∃ t, step i s = some t ∧ I t) {is : List ι} {s : σ}
    (hs : I s) (hg : Along step G is s) : ∃ t, run step is s = some t ∧ I t := by
  induction is generalizing s with
  | nil => exact ⟨s, rfl, hs⟩
  | cons i is ih =>
    obtain ⟨u, hu, hI⟩ := hstep i s hs hg.1
    obtain ⟨t, ht, hIt⟩ := ih hI (hg.2 u hu)
    exact ⟨t, run_cons_eq_some.mpr ⟨u, hu, ht⟩, hIt⟩

/-- What every step keeps holds after every run. -/
theorem run_invariant {I : σ → Prop} (hstep : ∀ i s t, I s → step i s = some t → I t)
    {is : List ι} {s t : σ} (hs : I s) (h : run step is s = some t) : I t := by
  refine run_invariant_along (G := fun _ _ => True) (fun i s t hs _ => hstep i s t hs) hs ?_ h
  clear hs h
  induction is generalizing s with
  | nil => exact trivial
  | cons i is ih => exact ⟨trivial, fun u _ => ih⟩

end Nachos.Framework
