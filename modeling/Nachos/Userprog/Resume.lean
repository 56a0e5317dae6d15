import Nachos.Userprog.Isolation

/-!
# Where a thread goes on

A thread that is preempted at a point goes on at that point with the registers
it had there, however long the others run in between.

* `At`: the thread is at a point; `At.step`: it stays there until it runs on;
* `Parked`: it is at a point with certain registers; `Parked.run`: over whole
  runs.
-/

namespace Nachos.Kernel

open Nachos.Framework

variable {env : Env} {k k' : Kernel} {t : Nat} {p : Point} {R : Registers}

/-- The run that goes on from `k`. -/
def runFrom (k : Kernel) (envs : List Env) : Option Kernel :=
  run (fun env k => (step env k).toOption) envs k

/-- Every step of that run meets the condition. -/
def Throughout (G : Env → Kernel → Prop) (k : Kernel) (envs : List Env) : Prop :=
  Along (fun env k => (step env k).toOption) G envs k

/-- The current thread is `t` and about to run a user instruction. -/
def AtUser (k : Kernel) (t : Nat) : Prop := k.currentThread = t ∧ k.control = .run .user

instance (k : Kernel) (t : Nat) : Decidable (AtUser k t) :=
  inferInstanceAs (Decidable (_ ∧ _))

/-- The thread `t` is at the point `p`: running, or ready and going to. -/
def At (k : Kernel) (t : Nat) (p : Point) : Prop :=
  (k.currentThread = t ∧ (k.control = .tick p ∨ k.control = .run p)) ∨
  (t ∈ k.readyList ∧ ∃ T, k.threads t = some T ∧ T.resume = some p)

/-- The thread has been finished or killed. -/
def Gone (k : Kernel) (t : Nat) : Prop :=
  t < k.nextId ∧ t ∉ k.currentThread :: k.readyList

/-! ## Threads that are gone -/

theorem Gone.fork (h : Gone k t) (ho : Owning k) (hf : k.fork env = .ok k') : Gone k' t := by
  have hlt := ho.linked.lt_nextId (ho.linked.threads_ne_none List.mem_cons_self)
  have hkeeps := fork_keeps hf hlt
  refine ⟨h.1.trans_le hkeeps.nextId, ?_⟩
  have htn : t ≠ k.nextId + 1 := by
    have := h.1
    omega
  rw [hkeeps.rest.1]
  rcases fork_processes hf with ⟨-, hr, -⟩ | ⟨cur, S, r, i, -, -, -, -, hr, -⟩
  · rw [hr]
    exact h.2
  · rw [hr, ← List.cons_append, List.mem_append, List.mem_singleton, not_or]
    exact ⟨h.2, htn⟩

theorem Gone.exit (h : Gone k t) (he : k.exit = .ok k') : Gone k' t := by
  obtain ⟨cur, k₁, n, rest, hcur, htear, hr, hd⟩ := exit_cases he
  obtain ⟨i, b, pcbs', -, -, -, -, rfl⟩ := tearDown_spec (process_spec hcur).2.2.2.2 htear
  have hr' : k.readyList = n :: rest := hr
  obtain ⟨r, pt, m, ths, d, c, rfl⟩ := hd.rest
  refine ⟨h.1, fun hin => h.2 (List.mem_cons_of_mem _ ?_)⟩
  rw [hr']
  exact hin

theorem Gone.kill (h : Gone k t) (hk : k.kill = .ok k') : Gone k' t := by
  obtain ⟨cur, -, rfl | ⟨-, he⟩ | ⟨p, pcb, T, s, S, k₁, -, -, hP, -, -, -, htear, rfl⟩⟩ := kill_cases hk
  · exact h
  · exact h.exit he
  · obtain ⟨i, b, pcbs', -, -, -, -, rfl⟩ := tearDown_spec hP htear
    refine ⟨h.1, fun hin => h.2 ?_⟩
    rcases List.mem_cons.mp hin with heq | hin
    · exact heq ▸ List.mem_cons_self
    · exact List.mem_cons_of_mem _ (List.mem_of_mem_erase hin)

theorem Gone.exec (h : Gone k t) (he : k.exec env = .ok k') : Gone k' t := by
  obtain ⟨cur, S, r, -, -, ⟨-, rfl⟩ | ⟨vm, mem, -, rfl⟩⟩ := exec_cases he
  · exact h
  · exact h

/-- A thread that is gone does not come back. -/
theorem Gone.step (h : Gone k t) (ho : Owning k) (hs : Kernel.step env k = .ok k') : Gone k' t :=
  (step_preserves (I := fun k => Owning k ∧ Gone k t)
    (fun hq h => ⟨hq.owning h.1, by rw [hq.nextId]; exact h.2.1, by rw [hq.perm.mem_iff]; exact h.2.2⟩)
    (fun h hf => ⟨h.1.fork hf, h.2.fork h.1 hf⟩) (fun h he => ⟨h.1.exec he, h.2.exec he⟩)
    (fun h he => ⟨h.1.exit he, h.2.exit he⟩) (fun h hk => ⟨h.1.kill hk, h.2.kill hk⟩)
    ⟨ho, h⟩ hs).2

theorem Gone.not_at (h : Gone k t) : ¬ At k t p := by
  rintro (⟨hcur, -⟩ | ⟨hin, -⟩)
  · exact h.2 (hcur ▸ List.mem_cons_self)
  · exact h.2 (List.mem_cons_of_mem _ hin)

/-! ## Threads at a point -/

/-- What `Thread::Yield` makes of the thread that calls it. -/
theorem yield_current (hl : Linked k) (h : k.yield p = .ok k') :
    (k.readyList = [] ∧ k' = { k with control := .tick p }) ∨
    (k.currentThread ∈ k'.readyList ∧ k'.currentThread ≠ k.currentThread ∧
      ∃ T, k'.threads k.currentThread = some T ∧ T.resume = some p ∧
        T.userRegisters = k.registers) := by
  rcases yield_spec h with hstays | ⟨n, rest, T, hr, hT, hd⟩
  · exact .inl hstays
  · obtain ⟨-, -, hne, -, -⟩ := hl.ready_thread hr
    have hspace := hl.spaceOf_ne_none (t := k.currentThread) List.mem_cons_self
    rw [Kernel.spaceOf, hT] at hspace
    have hold := hd.old { T with resume := some p } (Function.update_self _ _ _)
      (hl.not_doomed List.mem_cons_self) hspace
    obtain ⟨r, pt, m, ths, d, c, rfl⟩ := hd.rest
    refine .inr ⟨?_, hne, _, hold, rfl, rfl⟩
    exact List.mem_append_right _ (List.mem_singleton.mpr rfl)

/-- A tick: without an interrupt, with one when no other thread is ready, or with a switch. -/
theorem oneTick_cases (hl : Linked k) (hset : Settled k.registers) (h : k.oneTick env p = .ok k') :
    (env.timer = false ∧ k' = { k with control := .run p }) ∨
    (env.timer = true ∧ k.readyList = [] ∧ k' = { k with control := .tick p }) ∨
    (env.timer = true ∧ k.currentThread ∈ k'.readyList ∧ k'.currentThread ≠ k.currentThread ∧
      ∃ T, k'.threads k.currentThread = some T ∧ T.resume = some p ∧
        T.userRegisters = k.registers) := by
  unfold oneTick at h
  rw [hset.delayedLoad] at h
  split at h
  next htimer =>
    obtain ⟨hnil, rfl⟩ | hswitch := yield_current hl h
    · exact .inr (.inl ⟨htimer, hnil, rfl⟩)
    · exact .inr (.inr ⟨htimer, hswitch⟩)
  next htimer =>
    cases h
    exact .inl ⟨Bool.eq_false_of_not_eq_true htimer, rfl⟩

/-- A tick at a point leaves the thread there, with the registers after the
pending load. -/
theorem oneTick_current (hl : Linked k) (h : k.oneTick env p = .ok k') :
    At k' k.currentThread p ∧
      (p ≠ .threadRoot → Settled k.registers → k'.userState k.currentThread = some k.registers) := by
  unfold oneTick at h
  split at h
  · obtain ⟨r, hr, h⟩ := bind_eq_ok.mp h
    have h' : Kernel.yield { k with registers := r } p = .ok k' := h
    rcases yield_current ((Quiet.of_registers r _ _ k.control).linked hl) h' with
      ⟨-, rfl⟩ | ⟨hin, hne, T, hT, hres, hregs⟩
    · refine ⟨.inl ⟨rfl, .inl rfl⟩, fun hp hset => ?_⟩
      rw [hset.delayedLoad] at hr
      cases hr
      exact if_pos ⟨rfl, by simpa using hp, Control.noConfusion⟩
    · refine ⟨.inr ⟨hin, T, hT, hres⟩, fun hp hset => ?_⟩
      rw [hset.delayedLoad] at hr
      cases hr
      have hT' : k'.threads k.currentThread = some T := hT
      rw [userState_of_ne (Ne.symm hne), hT', Option.map_some, hregs]
  · cases h
    exact ⟨.inl ⟨rfl, .inr rfl⟩, fun hp _ => if_pos ⟨rfl, Control.noConfusion, by simpa using hp⟩⟩

/-- A ready thread, after a step of another one. -/
theorem At.of_undisturbed {T : Thread} (hu : Undisturbed k' t T) (hl : Linked k')
    (hres : T.resume = some p) : At k' t p ∨ Gone k' t := by
  by_cases hin : t ∈ k'.currentThread :: k'.readyList
  · rcases List.mem_cons.mp hin with heq | hin
    · rcases hu.resumed heq.symm with ⟨hnone, -⟩ | ⟨p', s, S, hp', hc, -⟩
      · rw [hres] at hnone
        cases hnone
      · rw [hres, Option.some.injEq] at hp'
        exact .inl (.inl ⟨heq.symm, .inl (hp' ▸ hc)⟩)
    · exact .inl (.inr ⟨hin, T, hu.thread, hres⟩)
  · exact .inr ⟨hl.lt_nextId (by rw [hu.thread]; exact Option.some_ne_none T), hin⟩

theorem At.step (h : At k t p) (ho : Owning k) (hrun : ¬ (k.currentThread = t ∧ k.control = .run p))
    (hs : Kernel.step env k = .ok k') : At k' t p ∨ Gone k' t := by
  rcases h with ⟨rfl, hc | hc⟩ | ⟨hin, T, hT, hres⟩
  · rw [Kernel.step, hc] at hs
    exact .inl (oneTick_current ho.linked hs).1
  · exact absurd ⟨rfl, hc⟩ hrun
  · exact At.of_undisturbed (ho.linked.step_other hs hT hin) (ho.step hs).linked hres

/-! ## Threads at a point with registers -/

/-- The thread is at the point `p`, and will go on there with the registers `R`. -/
structure Parked (k : Kernel) (t : Nat) (p : Point) (R : Registers) : Prop where
  point : At k t p
  registers : k.userState t = some R
  settled : Settled R

theorem Linked.ne_current (hl : Linked k) (h : t ∈ k.readyList) : t ≠ k.currentThread :=
  fun heq => (List.nodup_cons.mp hl.nodup).1 (heq ▸ h)

/-- A thread that runs at a point other than the start has its registers in the
machine. -/
theorem userState_current (hp : p ≠ .threadRoot)
    (hc : k.control = .tick p ∨ k.control = .run p) :
    k.userState k.currentThread = some k.registers := by
  refine if_pos ⟨rfl, ?_, ?_⟩
  · rcases hc with hc | hc <;> rw [hc] <;> simp [hp]
  · rcases hc with hc | hc <;> rw [hc] <;> simp [hp]

theorem Parked.step (h : Parked k t p R) (hp : p ≠ .threadRoot) (ho : Owning k)
    (hrun : ¬ (k.currentThread = t ∧ k.control = .run p)) (hs : Kernel.step env k = .ok k') :
    Parked k' t p R ∨ Gone k' t := by
  rcases h.point with ⟨rfl, hc | hc⟩ | ⟨hin, T, hT, hres⟩
  · have hregs := h.registers
    rw [userState_current hp (.inl hc), Option.some.injEq] at hregs
    rw [Kernel.step, hc] at hs
    obtain ⟨hat, hstate⟩ := oneTick_current ho.linked hs
    exact .inl ⟨hat, hregs ▸ hstate hp (hregs ▸ h.settled), h.settled⟩
  · exact absurd ⟨rfl, hc⟩ hrun
  · have hregs := h.registers
    rw [userState_of_ne (ho.linked.ne_current hin), hT, Option.map_some] at hregs
    have hu := ho.linked.step_other hs hT hin
    rcases At.of_undisturbed hu (ho.step hs).linked hres with hat | hgone
    · exact .inl ⟨hat, hu.userState.trans hregs, h.settled⟩
    · exact .inr hgone

/-- A thread on its way to a user instruction gets there with the registers it
has, whatever the others do meanwhile, unless it is killed. -/
theorem Parked.run {envs : List Env} (h : Parked k t .user R) (ho : Owning k)
    (hfirst : Throughout (fun _ k => ¬ AtUser k t) k envs) (hrun : k.runFrom envs = some k') :
    Parked k' t .user R ∨ Gone k' t := by
  refine (run_invariant_along (I := fun k => Owning k ∧ (Parked k t .user R ∨ Gone k t))
    (fun env k k' hk hG hs => ?_) ⟨ho, .inl h⟩ hfirst hrun).2
  have hs' := toOption_eq_some.mp hs
  refine ⟨hk.1.step hs', ?_⟩
  rcases hk.2 with hk' | hgone
  · exact hk'.step Point.noConfusion hk.1 hG hs'
  · exact .inr (hgone.step hk.1 hs')

theorem Parked.registers_of_atUser (h : Parked k t .user R ∨ Gone k t) (hu : AtUser k t) :
    k.registers = R := by
  rcases h with h | h
  · have hregs := h.registers
    rw [← hu.1, userState_current Point.noConfusion (.inr hu.2), Option.some.injEq] at hregs
    exact hregs
  · exact absurd (hu.1 ▸ List.mem_cons_self) h.2

end Nachos.Kernel
