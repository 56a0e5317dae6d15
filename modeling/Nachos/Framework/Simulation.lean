import Mathlib.Data.List.Forall2
import Nachos.Framework.Run

/-!
# Runs with results, and simulation

`trace` is a run that keeps what each step returned. An abstract system that
never stops is a function `spec : ι → τ → ρ' × τ`, and `results` are what it
returns.

* `trace_simulates`: if the two systems agree step by step, from related states
  to related states, then the results of every run agree;
* `run_simulates`: the same for runs without results, with the abstract state that the
  run ends in.
-/

namespace Nachos.Framework

variable {σ τ ι ρ ρ' : Type*} {step : ι → σ → Option (ρ × σ)} {spec : ι → τ → ρ' × τ}

/-- What the inputs return, one by one, and the state after them. -/
def trace (step : ι → σ → Option (ρ × σ)) : List ι → σ → Option (List ρ × σ)
  | [], s => some ([], s)
  | i :: is, s => (step i s).bind fun r => (trace step is r.2).map fun rs => (r.1 :: rs.1, rs.2)

/-- What the inputs return from the abstract system. -/
def results (spec : ι → τ → ρ' × τ) : List ι → τ → List ρ'
  | [], _ => []
  | i :: is, a => (spec i a).1 :: results spec is (spec i a).2

/-- The results agree along every run whose inputs meet `G` in the abstract state, and
the states after it are related. -/
theorem trace_simulates {R : σ → τ → Prop} {M : ρ → ρ' → Prop} {G : ι → τ → Prop}
    (hstep : ∀ i s a, R s a → G i a →
      ∃ r t, step i s = some (r, t) ∧ M r (spec i a).1 ∧ R t (spec i a).2)
    {is : List ι} {s : σ} {a : τ} (hR : R s a)
    (hG : Along (fun i a => some (spec i a).2) G is a) :
    ∃ rs t b, trace step is s = some (rs, t) ∧ List.Forall₂ M rs (results spec is a) ∧ R t b := by
  induction is generalizing s a with
  | nil => exact ⟨[], s, a, rfl, .nil, hR⟩
  | cons i is ih =>
    obtain ⟨r, t, ht, hM, hR'⟩ := hstep i s a hR hG.1
    obtain ⟨rs, u, b, hu, hMs, hRu⟩ := ih hR' (hG.2 _ rfl)
    exact ⟨r :: rs, u, b, by rw [trace, ht, Option.bind_some, hu, Option.map_some], .cons hM hMs, hRu⟩

/-- The states stay related along every run whose inputs meet `G` in the abstract state. -/
theorem run_simulates {step : ι → σ → Option σ} {next : ι → τ → τ} {R : σ → τ → Prop} {G : ι → τ → Prop}
    (hstep : ∀ i s a, R s a → G i a → ∃ t, step i s = some t ∧ R t (next i a))
    {is : List ι} {s : σ} {a : τ} (hR : R s a) (hG : Along (fun i a => some (next i a)) G is a) :
    ∃ t, run step is s = some t ∧ R t (is.foldl (fun a i => next i a) a) := by
  induction is generalizing s a with
  | nil => exact ⟨s, rfl, hR⟩
  | cons i is ih =>
    obtain ⟨t, ht, hR'⟩ := hstep i s a hR hG.1
    obtain ⟨u, hu, hRu⟩ := ih hR' (hG.2 _ rfl)
    exact ⟨u, run_cons_eq_some.mpr ⟨t, ht, hu⟩, hRu⟩

end Nachos.Framework
