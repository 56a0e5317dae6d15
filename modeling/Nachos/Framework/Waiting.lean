import Mathlib.Data.List.Basic
import Nachos.Framework.Run

/-!
# Waiting in a queue

The elements of a list wait to be served from its front. What is put behind an
element, and what leaves from before it, does not delay it (`idxOf_tail`,
`idxOf_erase_le`).

* `countAlong`: how many steps of a run meet a condition;
* `countAlong_le`: when each such step lowers a rank, and no step raises it, as long as
  `W` holds, there are no more of them than the rank was at the start;
* `ends_of_lt`: so after more of them `W` has ended, in some step for the first time;
* `run_component`: a part of the state that changes in these steps only, by so many steps of
  its own, goes as many times as far in a run, as long as it is there.
-/

namespace Nachos.Framework

/-! ## Positions -/

section Positions

variable {α : Type*} [DecidableEq α] {a b : α} {l l' : List α}

theorem idxOf_tail (h : a ≠ b) : l.idxOf a + 1 = (b :: l).idxOf a := by
  rw [List.idxOf_cons_ne _ (Ne.symm h)]

theorem idxOf_erase_le (h : a ≠ b) (ha : a ∈ l) : (l.erase b).idxOf a ≤ l.idxOf a := by
  induction l with
  | nil => exact absurd ha List.not_mem_nil
  | cons c l ih =>
    by_cases hcb : c = b
    · subst hcb
      rw [List.erase_cons_head, ← idxOf_tail h]
      omega
    · rw [List.erase_cons_tail (by simpa using hcb)]
      by_cases hca : c = a
      · subst hca
        rw [List.idxOf_cons_self]
        exact Nat.zero_le _
      · rw [List.idxOf_cons_ne _ hca, List.idxOf_cons_ne _ hca]
        have := ih ((List.mem_cons.mp ha).resolve_left (Ne.symm hca))
        omega

end Positions

/-! ## Counting -/

variable {σ ι : Type*} {step : ι → σ → Option σ}

/-- The number of steps that meet `P` in the state before them. -/
def countAlong (step : ι → σ → Option σ) (P : ι → σ → Bool) : List ι → σ → Nat
  | [], _ => 0
  | i :: is, s => (P i s).toNat + match step i s with
    | none => 0
    | some t => countAlong step P is t

theorem countAlong_cons {P : ι → σ → Bool} {i : ι} {is : List ι} {s t : σ} (h : step i s = some t) :
    countAlong step P (i :: is) s = (P i s).toNat + countAlong step P is t := by
  rw [countAlong, h]

variable {P : ι → σ → Bool} {W : σ → Prop} {rank : σ → Nat}

/-- As long as `W` holds, no more steps meet `P` than the rank was at the start. -/
theorem countAlong_le
    (hstep : ∀ i s t, step i s = some t → W s → W t → rank t + (P i s).toNat ≤ rank s)
    {is : List ι} {s t : σ} (h : run step is s = some t) (hW : ∀ n u, run step (is.take n) s = some u → W u) :
    rank t + countAlong step P is s ≤ rank s := by
  induction is generalizing s with
  | nil =>
    rw [run_nil, Option.some.injEq] at h
    rw [h]
    exact Nat.le_refl _
  | cons i is ih =>
    obtain ⟨u, hu, h⟩ := run_cons_eq_some.mp h
    have htail : ∀ n v, run step (is.take n) u = some v → W v := by
      intro n v hv
      apply hW (n + 1) v
      rw [List.take_succ_cons]
      exact run_cons_eq_some.mpr ⟨u, hu, hv⟩
    have hi := hstep i s u hu (hW 0 s rfl) (htail 0 u rfl)
    have hrest := ih h htail
    rw [countAlong_cons hu]
    omega

/-- What does not hold all along has ended in some step for the first time. -/
theorem ends_of_not {is : List ι} {s t : σ} (h : run step is s = some t) (hW : W s)
    (hnot : ¬ ∀ n u, run step (is.take n) s = some u → W u) :
    ∃ n i u v, run step (is.take n) s = some u ∧ is[n]? = some i ∧ step i u = some v ∧ ¬ W v ∧
      ∀ m w, m ≤ n → run step (is.take m) s = some w → W w := by
  induction is generalizing s with
  | nil =>
    refine absurd (fun n u hu => ?_) hnot
    rw [List.take_nil, run_nil, Option.some.injEq] at hu
    exact hu ▸ hW
  | cons i is ih =>
    obtain ⟨u, hu, h⟩ := run_cons_eq_some.mp h
    by_cases hWu : W u
    · have hnot' : ¬ ∀ n v, run step (is.take n) u = some v → W v := by
        intro hall
        refine hnot fun n v hv => ?_
        cases n with
        | zero => exact Option.some.inj hv ▸ hW
        | succ n =>
          rw [List.take_succ_cons] at hv
          obtain ⟨y, hy, hv⟩ := run_cons_eq_some.mp hv
          rw [hu] at hy
          obtain rfl := Option.some.inj hy
          exact hall n v hv
      obtain ⟨n, j, v, w, hv, hj, hw, hends, hall⟩ := ih h hWu hnot'
      refine ⟨n + 1, j, v, w, ?_, by rwa [List.getElem?_cons_succ], hw, hends, fun m x hm hx => ?_⟩
      · rw [List.take_succ_cons]
        exact run_cons_eq_some.mpr ⟨u, hu, hv⟩
      · cases m with
        | zero => exact Option.some.inj hx ▸ hW
        | succ m =>
          rw [List.take_succ_cons] at hx
          obtain ⟨y, hy, hx⟩ := run_cons_eq_some.mp hx
          rw [hu] at hy
          obtain rfl := Option.some.inj hy
          exact hall m x (by omega) hx
    · refine ⟨0, i, s, u, rfl, rfl, hu, hWu, fun m w hm hw => ?_⟩
      obtain rfl : m = 0 := by omega
      exact Option.some.inj hw ▸ hW

/-- So after more of them `W` has ended. -/
theorem ends_of_lt
    (hstep : ∀ i s t, step i s = some t → W s → W t → rank t + (P i s).toNat ≤ rank s)
    {is : List ι} {s t : σ} (h : run step is s = some t) (hW : W s)
    (hlt : rank s < countAlong step P is s) :
    ∃ n i u v, run step (is.take n) s = some u ∧ is[n]? = some i ∧ step i u = some v ∧ ¬ W v ∧
      ∀ m w, m ≤ n → run step (is.take m) s = some w → W w := by
  refine ends_of_not h hW fun hall => ?_
  have hle := countAlong_le hstep h hall
  omega

/-! ## Components -/

/-- A step that meets `P` is `c` steps of the component at most, the others leave it alone; and
once it is gone it does not come back. -/
theorem run_component {κ τ : Type*} {next : κ → τ → Option τ} {view : σ → Option τ} {I gone : σ → Prop}
    {G : ι → σ → Prop} {c : Nat} (hI : ∀ i s t, I s → step i s = some t → I t)
    (hgone : ∀ i s t, I s → gone s → step i s = some t → gone t)
    (hstep : ∀ i s t a, I s → G i s → step i s = some t → view s = some a →
      gone t ∨ ∃ b js, view t = some b ∧ js.length ≤ c * (P i s).toNat ∧ run next js a = some b)
    {is : List ι} {s t : σ} {a : τ} (hs : I s) (hG : Along step G is s) (h : run step is s = some t)
    (ha : view s = some a) :
    gone t ∨ ∃ b js, view t = some b ∧ js.length ≤ c * countAlong step P is s ∧ run next js a = some b := by
  induction is generalizing s a with
  | nil =>
    rw [run_nil, Option.some.injEq] at h
    exact .inr ⟨a, [], h ▸ ha, Nat.zero_le _, rfl⟩
  | cons i is ih =>
    obtain ⟨u, hu, h⟩ := run_cons_eq_some.mp h
    have hIu := hI i s u hs hu
    rcases hstep i s u a hs hG.1 hu ha with hgu | ⟨b, js, hb, hlen, hrun⟩
    · have hboth : I t ∧ gone t := run_invariant (I := fun v => I v ∧ gone v)
        (fun i v w hv hw => ⟨hI i v w hv.1 hw, hgone i v w hv.1 hv.2 hw⟩) ⟨hIu, hgu⟩ h
      exact .inl hboth.2
    · rcases ih hIu (hG.2 u hu) h hb with hgt | ⟨d, ks, hd, hlen', hrun'⟩
      · exact .inl hgt
      · refine .inr ⟨d, js ++ ks, hd, ?_, ?_⟩
        · rw [List.length_append, countAlong_cons hu, Nat.mul_add]
          exact Nat.add_le_add hlen hlen'
        · rw [run_append, hrun]
          exact hrun'

end Nachos.Framework
