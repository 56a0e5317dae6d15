import Nachos.Userprog.ProcessTree

/-!
# Processes, threads and address spaces

Every process has a thread that is running or ready, and that thread an address
space that leads back to the process.

* `Linked`: the invariant; `Linked.process_eq`: following the pointers from the
  thread of a process leads back to it;
* `Linked.step`: every step keeps it;
* `step_other`: what a step does to a thread that is not running.
-/

namespace Nachos.Kernel

open Nachos.Framework

variable {env : Env} {k k' : Kernel}

structure Linked (k : Kernel) : Prop where
  link : ∀ p P, k.pcbs p = some P →
    ∃ s S, k.spaceOf P.processThread = some s ∧ k.spaces s = some S ∧ S.pcb = some p
  /-- The threads of the processes are running or ready, and there are no others. -/
  runnable : ∀ t, t ∈ k.currentThread :: k.readyList ↔
    ∃ p P, k.pcbs p = some P ∧ P.processThread = t
  nodup : (k.currentThread :: k.readyList).Nodup
  /-- A thread to be destroyed does not run any more. -/
  doomed : ∀ t, k.threadToBeDestroyed = some t →
    t < k.nextId ∧ t ∉ k.currentThread :: k.readyList
  freshThreads : ∀ i, k.nextId ≤ i → k.threads i = none
  freshSpaces : ∀ i, k.nextId ≤ i → k.spaces i = none

theorem Linked.not_doomed (h : Linked k) {t : Nat} (ht : t ∈ k.currentThread :: k.readyList) :
    k.threadToBeDestroyed ≠ some t := fun hd => (h.doomed t hd).2 ht

theorem Linked.spaceOf_ne_none (h : Linked k) {t : Nat} (ht : t ∈ k.currentThread :: k.readyList) :
    k.spaceOf t ≠ none := by
  obtain ⟨p, P, hP, rfl⟩ := (h.runnable t).mp ht
  obtain ⟨s, S, hs, -, -⟩ := h.link p P hP
  rw [hs]
  exact Option.some_ne_none s

/-- Two processes with the same address space are the same. -/
theorem Linked.eq_of_space (h : Linked k) {p q s : Nat} {P Q : PCB} (hP : k.pcbs p = some P)
    (hQ : k.pcbs q = some Q) (hp : k.spaceOf P.processThread = some s)
    (hq : k.spaceOf Q.processThread = some s) : p = q := by
  obtain ⟨s₁, S₁, hs₁, hS₁, hp₁⟩ := h.link p P hP
  obtain ⟨s₂, S₂, hs₂, hS₂, hq₂⟩ := h.link q Q hQ
  rw [hp, Option.some.injEq] at hs₁
  rw [hq, Option.some.injEq] at hs₂
  subst hs₁ hs₂
  rw [hS₁, Option.some.injEq] at hS₂
  subst hS₂
  rw [hp₁, Option.some.injEq] at hq₂
  exact hq₂

/-- The process that the pointers from a live thread lead to is the one whose
thread it is. -/
theorem Linked.process_eq (h : Linked k) {t : Nat} {pr : Process}
    (ht : t ∈ k.currentThread :: k.readyList) (hp : k.process t = .ok pr) :
    pr.pcb.processThread = t := by
  obtain ⟨hT, hs, hS, hpcb, hP⟩ := process_spec hp
  obtain ⟨q, Q, hQ, hQt⟩ := (h.runnable t).mp ht
  obtain ⟨s, S, hs', hS', hq⟩ := h.link q Q hQ
  rw [hQt, spaceOf, hT, Option.bind_some, hs, Option.some.injEq] at hs'
  subst hs'
  rw [hS, Option.some.injEq] at hS'
  subst hS'
  rw [hpcb, Option.some.injEq] at hq
  subst hq
  rw [hP, Option.some.injEq] at hQ
  rw [hQ, hQt]

/-! ## Every step keeps it -/

/-- Nothing but the order of the threads, and things the invariant does not
speak of, has changed. -/
theorem Linked.congr (h : Linked k) (hp : k'.pcbs = k.pcbs)
    (hspace : ∀ t ∈ k.currentThread :: k.readyList, k'.spaceOf t = k.spaceOf t)
    (hpcb : ∀ s S, k.spaces s = some S → ∃ S', k'.spaces s = some S' ∧ S'.pcb = S.pcb)
    (hperm : (k'.currentThread :: k'.readyList).Perm (k.currentThread :: k.readyList))
    (hdoom : ∀ t, k'.threadToBeDestroyed = some t →
      t < k'.nextId ∧ t ∉ k.currentThread :: k.readyList)
    (hthreads : ∀ i, k'.nextId ≤ i → k'.threads i = none)
    (hspaces : ∀ i, k'.nextId ≤ i → k'.spaces i = none) : Linked k' where
  link p P hP := by
    rw [hp] at hP
    obtain ⟨s, S, hs, hS, hSp⟩ := h.link p P hP
    obtain ⟨S', hS', hpcb'⟩ := hpcb s S hS
    rw [hspace _ ((h.runnable _).mpr ⟨p, P, hP, rfl⟩)]
    exact ⟨s, S', hs, hS', hpcb'.trans hSp⟩
  runnable t := by rw [hperm.mem_iff, hp, h.runnable]
  nodup := hperm.nodup_iff.mpr h.nodup
  doomed t ht := by rw [hperm.mem_iff]; exact hdoom t ht
  freshThreads := hthreads
  freshSpaces := hspaces

theorem Quiet.linked (hq : Quiet k k') (h : Linked k) : Linked k' := by
  refine h.congr hq.pcbs (fun t ht => hq.spaceOf t (h.not_doomed ht)) (fun s S hS => ?_) hq.perm
    (fun t ht => ?_) (fun i hi => ?_) fun i hi => ?_
  · have hs := hq.spaces s
    rw [hS, Option.map_some] at hs
    obtain ⟨S', hS', hshape⟩ := Option.map_eq_some_iff.mp hs
    exact ⟨S', hS', congrArg Prod.fst hshape⟩
  · rcases hq.destroyed with hd | hd
    · rw [hq.nextId]
      exact h.doomed t (hd ▸ ht)
    · rw [hd] at ht
      cases ht
  · exact hq.fresh i (h.freshThreads i (hq.nextId ▸ hi))
  · have hs := hq.spaces i
    rw [h.freshSpaces i (hq.nextId ▸ hi), Option.map_none] at hs
    exact Option.map_eq_none_iff.mp hs

theorem Linked.lt_nextId (h : Linked k) {t : Nat} (ht : k.threads t ≠ none) : t < k.nextId := by
  by_contra hge
  exact ht (h.freshThreads t (Nat.le_of_not_lt hge))

theorem Linked.threads_ne_none (h : Linked k) {t : Nat}
    (ht : t ∈ k.currentThread :: k.readyList) : k.threads t ≠ none := by
  intro hn
  have := h.spaceOf_ne_none ht
  rw [Kernel.spaceOf, hn] at this
  exact this rfl

theorem Linked.fork (h : Linked k) (ht : ProcessTree k) (hf : k.fork env = .ok k') : Linked k' := by
  have hlt : ∀ {t}, t ∈ k.currentThread :: k.readyList → t < k.nextId :=
    fun ht => h.lt_nextId (h.threads_ne_none ht)
  have hkeeps := fork_keeps hf (hlt List.mem_cons_self)
  obtain ⟨hcur, -, -, hdest⟩ := hkeeps.rest
  have hspaces : ∀ {s S}, k.spaces s = some S → k'.spaces s = some S := by
    intro s S hS
    rw [hkeeps.spaces s, hS]
    by_contra hge
    rw [h.freshSpaces s (Nat.le_of_not_lt hge)] at hS
    cases hS
  have hfreshT : ∀ i, k'.nextId ≤ i → k'.threads i = none := fun i hi => by
    rw [hkeeps.freshThreads i hi, h.freshThreads i (hkeeps.nextId.trans hi)]
  have hfreshS : ∀ i, k'.nextId ≤ i → k'.spaces i = none := fun i hi => by
    rw [hkeeps.freshSpaces i hi, h.freshSpaces i (hkeeps.nextId.trans hi)]
  rcases fork_processes hf with ⟨hp, hr, -⟩ |
    ⟨cur, S, r, i, hpr, hp, -, -, hr, -, -, hS, hSp, hT, -, -⟩
  · refine h.congr hp (fun t ht => hkeeps.spaceOf (hlt ht)) (fun s S hS => ⟨S, hspaces hS, rfl⟩)
      (by rw [hcur, hr]) (fun t hd => ?_) hfreshT hfreshS
    obtain ⟨h₁, h₂⟩ := h.doomed t (hdest ▸ hd)
    exact ⟨h₁.trans_le hkeeps.nextId, h₂⟩
  · obtain ⟨-, -, -, -, hP⟩ := process_spec hpr
    have hadds : AddsChild cur.pcbId (k.nextId + 2) cur.pcb
        ⟨k.nextId + 1, i, some cur.pcbId, [], false, env.junkExitValue⟩ k.pcbs k'.pcbs :=
      ⟨hP, ht.fresh _ (Nat.le_add_right _ 2), hp⟩
    refine ⟨fun p P hP' => ?_, fun t => ?_, ?_, fun t hd => ?_, hfreshT, hfreshS⟩
    · rcases hadds.cases hP' with ⟨rfl, rfl⟩ | ⟨P₀, hP₀, rfl⟩
      · exact ⟨k.nextId, S, by rw [Kernel.spaceOf, hT]; rfl, hS, hSp⟩
      · obtain ⟨s, S', hs, hS', hpcb⟩ := h.link p P₀ hP₀
        rw [hkeeps.spaceOf (hlt ((h.runnable _).mpr ⟨p, P₀, hP₀, rfl⟩))]
        exact ⟨s, S', hs, hspaces hS', hpcb⟩
    · rw [hcur, hr, ← List.cons_append, List.mem_append, h.runnable, List.mem_singleton]
      constructor
      · rintro (⟨p, P₀, hP₀, hth⟩ | rfl)
        · obtain ⟨cs, d, hP'⟩ := ht.fork_pcbs hf hP₀
          exact ⟨p, _, hP', hth⟩
        · exact ⟨_, _, hadds.new_eq, rfl⟩
      · rintro ⟨p, P, hP', rfl⟩
        rcases hadds.cases hP' with ⟨-, rfl⟩ | ⟨P₀, hP₀, rfl⟩
        · exact .inr rfl
        · exact .inl ⟨p, P₀, hP₀, rfl⟩
    · rw [hcur, hr, ← List.cons_append]
      refine List.nodup_append.mpr ⟨h.nodup, List.nodup_singleton _, fun a ha b hb hab => ?_⟩
      have := hlt ha
      rw [List.mem_singleton] at hb
      omega
    · rw [hdest] at hd
      rw [hcur, hr, ← List.cons_append, List.mem_append, List.mem_singleton, not_or]
      obtain ⟨h₁, h₂⟩ := h.doomed t hd
      exact ⟨h₁.trans_le hkeeps.nextId, h₂, by omega⟩

/-- A process that ended: its thread and its address space are gone with it. -/
theorem Linked.removed (h : Linked k) {p s₀ : Nat} {pcb : PCB} {status : Option (BitVec 32)}
    (hP : k.pcbs p = some pcb) (hs₀ : k.spaceOf pcb.processThread = some s₀)
    (hp : Removes p pcb status k.pcbs k'.pcbs)
    (hspaces : k'.spaces = Function.update k.spaces s₀ none)
    (hspaceOf : ∀ t ∈ k.currentThread :: k.readyList, t ≠ pcb.processThread →
      k'.spaceOf t = k.spaceOf t)
    (hmem : ∀ t, t ∈ k'.currentThread :: k'.readyList ↔
      t ∈ k.currentThread :: k.readyList ∧ t ≠ pcb.processThread)
    (hnodup : (k'.currentThread :: k'.readyList).Nodup)
    (hdoom : ∀ t, k'.threadToBeDestroyed = some t →
      t < k'.nextId ∧ t ∉ k'.currentThread :: k'.readyList)
    (hthreads : ∀ i, k'.nextId ≤ i → k'.threads i = none) (hn : k'.nextId = k.nextId) :
    Linked k' := by
  -- another process has another thread and another address space
  have hother : ∀ {x X₀ s}, k.pcbs x = some X₀ → x ≠ p → k.spaceOf X₀.processThread = some s →
      X₀.processThread ≠ pcb.processThread ∧ s ≠ s₀ := by
    intro x X₀ s hX₀ hne hs
    refine ⟨fun heq => hne ?_, fun heq => hne ?_⟩
    · rw [heq] at hs
      exact h.eq_of_space hX₀ hP (heq ▸ hs) hs
    · exact h.eq_of_space hX₀ hP hs (heq ▸ hs₀)
  refine ⟨fun x X hX => ?_, fun t => ?_, hnodup, hdoom, hthreads, fun i hi => ?_⟩
  · obtain ⟨X₀, hX₀, hne, rfl⟩ := hp.survived hX
    obtain ⟨s, S, hs, hS, hSx⟩ := h.link x X₀ hX₀
    obtain ⟨h₁, h₂⟩ := hother hX₀ hne hs
    have hsame : k'.spaceOf X₀.processThread = k.spaceOf X₀.processThread :=
      hspaceOf _ ((h.runnable _).mpr ⟨x, X₀, hX₀, rfl⟩) h₁
    exact ⟨s, S, hsame.trans hs, by rw [hspaces, Function.update_of_ne h₂, hS], hSx⟩
  · rw [hmem, h.runnable]
    constructor
    · rintro ⟨⟨x, X₀, hX₀, rfl⟩, hne⟩
      have hxp : x ≠ p := fun heq => by
        rw [heq, hP] at hX₀
        cases hX₀
        exact hne rfl
      exact ⟨x, _, hp.survives hX₀ hxp, rfl⟩
    · rintro ⟨x, X, hX, rfl⟩
      obtain ⟨X₀, hX₀, hne, rfl⟩ := hp.survived hX
      obtain ⟨s, S, hs, -, -⟩ := h.link x X₀ hX₀
      exact ⟨⟨x, X₀, hX₀, rfl⟩, (hother hX₀ hne hs).1⟩
  · rw [hspaces]
    by_cases his : i = s₀
    · rw [his, Function.update_self]
    · rw [Function.update_of_ne his, h.freshSpaces i (hn ▸ hi)]

theorem Linked.exit (h : Linked k) (he : k.exit = .ok k') : Linked k' := by
  obtain ⟨cur, k₁, n, rest, hcur, htear, hr, hd⟩ := exit_cases he
  obtain ⟨hT, hs, hS, -, hP⟩ := process_spec hcur
  have hth := h.process_eq List.mem_cons_self hcur
  obtain ⟨i, b, pcbs', -, -, -, hpcbs, rfl⟩ := tearDown_spec hP htear
  have hr' : k.readyList = n :: rest := hr
  have hnd := h.nodup
  rw [hr'] at hnd
  have hdest := hd.destroyed
  have hspaceOf := hd.spaceOf
  have hfresh := hd.fresh
  obtain ⟨r, pt, m, ths, d, c, rfl⟩ := hd.rest
  refine h.removed hP (by rw [hth, Kernel.spaceOf, hT]; exact hs) hpcbs rfl
    (fun t _ hne => ?_) (fun t => ?_) ?_ (fun t ht => ?_) (fun i hi => ?_) rfl
  · exact hspaceOf t fun heq => hne (by rw [hth]; exact (Option.some.inj heq).symm)
  · show t ∈ n :: rest ↔ _
    rw [hr', hth, List.mem_cons (a := t) (b := k.currentThread)]
    constructor
    · intro ht
      exact ⟨.inr ht, fun heq => (List.nodup_cons.mp hnd).1 (heq ▸ ht)⟩
    · rintro ⟨ht | ht, hne⟩
      · exact absurd ht hne
      · exact ht
  · exact (List.nodup_cons.mp hnd).2
  · have hcurLt : k.currentThread < k.nextId := by
      refine h.lt_nextId ?_
      rw [hT]
      exact Option.some_ne_none _
    rcases hdest with hd' | hd'
    · have ht' : some k.currentThread = some t := hd'.symm.trans ht
      cases ht'
      exact ⟨hcurLt, (List.nodup_cons.mp hnd).1⟩
    · have ht' : none = some t := hd'.symm.trans ht
      cases ht'
  · exact hfresh i (h.freshThreads i hi)

theorem Linked.kill (h : Linked k) (ht : ProcessTree k) (hk : k.kill = .ok k') : Linked k' := by
  obtain ⟨cur, hcur, hcase⟩ := kill_cases hk
  rcases hcase with rfl | ⟨-, he⟩ | ⟨p, pcb, T, s, S, k₁, hg, hne, hP, hT, hs, hS, htear, rfl⟩
  · exact (Quiet.of_registers _ _ _ _).linked h
  · exact h.exit he
  · obtain ⟨-, -, -, -, hcP⟩ := process_spec hcur
    have hcth := h.process_eq List.mem_cons_self hcur
    obtain ⟨i, b, pcbs', -, -, -, hpcbs, rfl⟩ := tearDown_spec hP htear
    have hso : k.spaceOf pcb.processThread = some s := by
      rw [Kernel.spaceOf, hT]
      exact hs
    have hmem : pcb.processThread ∈ k.currentThread :: k.readyList :=
      (h.runnable _).mpr ⟨p, pcb, hP, rfl⟩
    -- the current process is not the one killed
    have hpc : pcb.processThread ≠ k.currentThread := by
      intro heq
      obtain ⟨s', S', hs', -, -⟩ := h.link _ _ hcP
      rw [hcth, ← heq] at hs'
      have hpq := h.eq_of_space hP hcP hs' (by rw [hcth, ← heq]; exact hs')
      rw [hpq, hcP] at hP
      cases hP
      exact hne (ht.processID_eq hg (hpq ▸ hcP)).symm
    have hin : pcb.processThread ∈ k.readyList := by
      rcases List.mem_cons.mp hmem with heq | hin
      · exact absurd heq hpc
      · exact hin
    have hnd := List.nodup_cons.mp h.nodup
    refine h.removed hP hso hpcbs rfl (fun t _ _ => rfl) (fun t => ?_) ?_ (fun t hd => ?_)
      h.freshThreads rfl
    · show t ∈ k.currentThread :: k.readyList.erase pcb.processThread ↔ _
      rw [List.mem_cons, hnd.2.mem_erase_iff, List.mem_cons]
      constructor
      · rintro (rfl | ⟨h₁, h₂⟩)
        · exact ⟨.inl rfl, hpc.symm⟩
        · exact ⟨.inr h₂, h₁⟩
      · rintro ⟨rfl | h₂, h₁⟩
        · exact .inl rfl
        · exact .inr ⟨h₁, h₂⟩
    · exact List.nodup_cons.mpr ⟨fun hm => hnd.1 (List.mem_of_mem_erase hm), hnd.2.erase _⟩
    · have hd' : some pcb.processThread = some t := hd
      cases hd'
      refine ⟨h.lt_nextId (by rw [hT]; exact Option.some_ne_none _), fun hm => ?_⟩
      rcases List.mem_cons.mp hm with heq | hm
      · exact hpc heq
      · exact (hnd.2.not_mem_erase) hm

theorem Linked.exec (h : Linked k) (he : k.exec env = .ok k') : Linked k' := by
  obtain ⟨cur, S, r, hcur, hr, hcase⟩ := exec_cases he
  obtain ⟨-, -, hS, -, -⟩ := process_spec hcur
  have hpcb := (AddrSpace.replace_spec hr).1
  have hset : Linked (k.setSpace cur.spaceId S) := by
    refine h.congr rfl (fun _ _ => rfl) (fun s S₀ hS₀ => ?_) (.refl _) h.doomed h.freshThreads
      fun i hi => ?_
    · by_cases hs : s = cur.spaceId
      · rw [hs, hS, Option.some.injEq] at hS₀
        exact ⟨S, by rw [hs]; exact Function.update_self _ _ _, by rw [hpcb, hS₀]⟩
      · exact ⟨S₀, (Function.update_of_ne hs _ _).trans hS₀, rfl⟩
    · have hi' : k.nextId ≤ i := hi
      refine (Function.update_of_ne (fun heq => ?_) _ _).trans (h.freshSpaces i hi')
      rw [← heq, h.freshSpaces i hi'] at hS
      cases hS
  rcases hcase with ⟨-, rfl⟩ | ⟨vm, mem, -, rfl⟩
  · exact (Quiet.of_registers _ _ _ _).linked hset
  · exact hset.congr rfl (fun _ _ => rfl) (fun s S hS => ⟨S, hS, rfl⟩) (.refl _) hset.doomed
      hset.freshThreads hset.freshSpaces

theorem Linked.step (h : Linked k) (ht : ProcessTree k) (hs : step env k = .ok k') : Linked k' :=
  (step_preserves (I := fun k => ProcessTree k ∧ Linked k)
    (fun hq h => ⟨h.1.congr hq.pcbs hq.pcbTable hq.pids hq.nextId.ge, hq.linked h.2⟩)
    (fun h hf => ⟨h.1.fork hf, h.2.fork h.1 hf⟩) (fun h he => ⟨h.1.exec he, h.2.exec he⟩)
    (fun h he => ⟨h.1.exit he, h.2.exit he⟩) (fun h hk => ⟨h.1.kill hk, h.2.kill h.1 hk⟩)
    ⟨ht, h⟩ hs).2

theorem Linked.start {b : Boot}
    (h : startProcess b.env (boot b.junk b.junkTable b.junkRegisters) b.filename = .ok k) :
    Linked k := by
  obtain ⟨file, S, hs⟩ := startProcess_spec h
  refine ⟨fun p P hP => ?_, fun t => ?_, ?_, fun t ht => ?_, fun i hi => ?_, fun i hi => ?_⟩
  · rw [hs.pcbs] at hP
    by_cases hp : p = 1
    · rw [hp, Function.update_self, Option.some.injEq] at hP
      subst hP
      exact ⟨2, _, by rw [Kernel.spaceOf, hs.threads, Function.update_self]; rfl, by
        rw [hs.spaces, Function.update_self], by rw [hp]⟩
    · rw [Function.update_of_ne hp] at hP
      cases hP
  · rw [hs.currentThread, hs.readyList, List.mem_singleton, hs.pcbs]
    constructor
    · rintro rfl
      exact ⟨1, _, Function.update_self _ _ _, rfl⟩
    · rintro ⟨p, P, hP, rfl⟩
      by_cases hp : p = 1
      · rw [hp, Function.update_self, Option.some.injEq] at hP
        rw [← hP]
      · rw [Function.update_of_ne hp] at hP
        cases hP
  · rw [hs.currentThread, hs.readyList]
    exact List.nodup_singleton 0
  · rw [hs.threadToBeDestroyed] at ht
    cases ht
  · rw [hs.nextId] at hi
    rw [hs.threads, Function.update_of_ne (by omega)]
  · rw [hs.nextId] at hi
    rw [hs.spaces, Function.update_of_ne (by omega)]

theorem Linked.run {b : Boot} {envs : List Env} (h : runs b envs = some k) : Linked k :=
  (runs_invariant (I := fun k => ProcessTree k ∧ Linked k) (G := fun _ => True)
    (fun _ hk => ⟨.start hk, .start hk⟩)
    (fun _ _ _ hk _ hs => ⟨hk.1.step hs, hk.2.step hk.1 hs⟩) (fun _ _ => trivial) h).2

/-! ## What happens to a thread that is not running -/

/-- The thread `t` is as it was, `T`, and if it runs now, it starts or goes on
where it left off, with its own registers and page table. -/
structure Undisturbed (k' : Kernel) (t : Nat) (T : Thread) : Prop where
  thread : k'.threads t = some T
  resumed : k'.currentThread = t → (T.resume = none ∧ k'.control = .tick .threadRoot) ∨
    ∃ p s S, T.resume = some p ∧ k'.control = .tick p ∧ k'.registers = T.userRegisters ∧
      T.space = some s ∧ k'.pageTable = some s ∧ k'.spaces s = some S ∧
      k'.pageTableSize = S.numPages

theorem Undisturbed.of_eq {t : Nat} {T : Thread} (hT : k.threads t = some T)
    (hne : t ≠ k.currentThread) (hthreads : k'.threads = k.threads)
    (hcur : k'.currentThread = k.currentThread) : Undisturbed k' t T :=
  ⟨hthreads ▸ hT, fun h => absurd (hcur ▸ h).symm hne⟩

theorem Dispatched.undisturbed {n t : Nat} {T : Thread} (h : Dispatched k n k')
    (hT : k.threads t = some T) (hne : t ≠ k.currentThread) (hspace : T.space ≠ none)
    (hd : k.threadToBeDestroyed ≠ some t) : Undisturbed k' t T := by
  have hthread := (h.other t hne hd).trans hT
  have hnext := h.next
  obtain ⟨r, pt, m, ths, d, c, rfl⟩ := h.rest
  refine ⟨hthread, fun hcur => ?_⟩
  have hcur' : n = t := hcur
  obtain ⟨s, hs⟩ := Option.ne_none_iff_exists'.mp hspace
  rcases hnext T s (hcur' ▸ hT) (hcur' ▸ hne) hs with hstart | ⟨p, S, hp, hc, hr, hpt, hS, hsize⟩
  · exact .inl hstart
  · exact .inr ⟨p, s, S, hp, hc, hr, hs, hpt, hS, hsize⟩

theorem yield_undisturbed {p : Point} {t : Nat} {T : Thread} (h : k.yield p = .ok k')
    (hT : k.threads t = some T) (hne : t ≠ k.currentThread) (hspace : T.space ≠ none)
    (hd : k.threadToBeDestroyed ≠ some t) : Undisturbed k' t T := by
  rcases yield_spec h with ⟨-, rfl⟩ | ⟨n, rest, T₀, -, -, hdisp⟩
  · exact .of_eq hT hne rfl rfl
  · exact hdisp.undisturbed ((Function.update_of_ne hne _ _).trans hT) hne hspace hd

theorem oneTick_undisturbed {p : Point} {t : Nat} {T : Thread} (h : k.oneTick env p = .ok k')
    (hT : k.threads t = some T) (hne : t ≠ k.currentThread) (hspace : T.space ≠ none)
    (hd : k.threadToBeDestroyed ≠ some t) : Undisturbed k' t T := by
  unfold oneTick at h
  split at h
  · obtain ⟨r, -, h⟩ := bind_eq_ok.mp h
    have h' : Kernel.yield { k with registers := r } p = .ok k' := h
    exact yield_undisturbed h' hT hne hspace hd
  · cases h
    exact .of_eq hT hne rfl rfl

theorem runPoint_undisturbed {p : Point} {t : Nat} {T : Thread} (hp : p ≠ .user)
    (h : k.runPoint env p = .ok k') (hT : k.threads t = some T) (hne : t ≠ k.currentThread)
    (hspace : T.space ≠ none) (hd : k.threadToBeDestroyed ≠ some t) : Undisturbed k' t T := by
  cases p with
  | user => exact absurd rfl hp
  | yieldTail =>
    cases h
    exact .of_eq hT hne rfl rfl
  | joinLoop pid c =>
    rcases joinLoop_cases h with ⟨x, -, hy⟩ | ⟨-, cur, -, rfl⟩
    · exact yield_undisturbed hy hT hne hspace hd
    · exact .of_eq hT hne rfl rfl
  | forkTail pid =>
    obtain ⟨T₀, -, h⟩ := bind_eq_ok.mp h
    cases h
    exact .of_eq hT hne rfl rfl
  | threadRoot =>
    obtain ⟨T₀, -, h⟩ := bind_eq_ok.mp h
    obtain ⟨s, -, h⟩ := bind_eq_ok.mp h
    obtain ⟨S, -, h⟩ := bind_eq_ok.mp h
    cases h
    exact .of_eq hT hne rfl rfl

theorem exec_threads (h : k.exec env = .ok k') :
    k'.threads = k.threads ∧ k'.currentThread = k.currentThread := by
  obtain ⟨cur, S, r, -, -, ⟨-, rfl⟩ | ⟨vm, mem, -, rfl⟩⟩ := exec_cases h
  · exact ⟨rfl, rfl⟩
  · exact ⟨rfl, rfl⟩

/-- A step does not disturb a thread that is ready. -/
theorem Linked.step_other (hl : Linked k) (hs : Kernel.step env k = .ok k') {t : Nat} {T : Thread}
    (hT : k.threads t = some T) (ht : t ∈ k.readyList) : Undisturbed k' t T := by
  have hmem : t ∈ k.currentThread :: k.readyList := List.mem_cons_of_mem _ ht
  have hne : t ≠ k.currentThread := fun heq => (List.nodup_cons.mp hl.nodup).1 (heq ▸ ht)
  have hspace : T.space ≠ none := by
    have := hl.spaceOf_ne_none hmem
    rw [Kernel.spaceOf, hT] at this
    exact this
  have hd := hl.not_doomed hmem
  rcases step_cases hs with ⟨p, -, h⟩ | ⟨p, hp, -, h⟩ | ⟨-, -, h⟩ | ⟨k₁, he, h⟩
  · exact oneTick_undisturbed h hT hne hspace hd
  · exact runPoint_undisturbed hp h hT hne hspace hd
  · obtain ⟨r, mem, spaces, c, rfl⟩ := h.rest
    exact .of_eq hT hne rfl rfl
  · obtain ⟨-, -, hrun, -⟩ := syscallEntry_spec he
    have hl₁ := hrun.quiet.linked hl
    obtain ⟨r, mem, spaces, c, rfl⟩ := hrun.rest
    have hlt := hl.lt_nextId (t := t) (by rw [hT]; exact Option.some_ne_none T)
    have hcurlt := hl.lt_nextId (hl.threads_ne_none List.mem_cons_self)
    have hexit : ∀ {k'}, Kernel.exit { k with
        registers := r, mainMemory := mem, spaces := spaces, control := c } = .ok k' →
        Undisturbed k' t T := by
      intro k' h
      obtain ⟨cur, k₂, n, rest, hcur, htear, -, hdisp⟩ := exit_cases h
      obtain ⟨i, b, pcbs', -, -, -, -, rfl⟩ := tearDown_spec (process_spec hcur).2.2.2.2 htear
      exact hdisp.undisturbed hT hne hspace fun heq => hne (Option.some.inj heq).symm
    rcases syscall_cases h with ⟨-, h⟩ | ⟨-, h⟩ | ⟨-, h⟩ | ⟨-, rfl⟩ |
        ⟨-, h⟩ | ⟨-, h⟩ | ⟨-, h⟩
    · exact hexit h
    · obtain ⟨h₁, h₂⟩ := exec_threads h
      exact .of_eq hT hne h₁ h₂
    · obtain ⟨cur, -, rfl | ⟨x, -, -, -, rfl⟩⟩ := join_cases h
      · exact .of_eq hT hne rfl rfl
      · exact .of_eq hT hne rfl rfl
    · exact .of_eq hT hne rfl rfl
    · have hkeeps := fork_keeps h hcurlt
      exact ⟨(hkeeps.threads t hlt hne).trans hT, fun hcur =>
        absurd (hcur.symm.trans hkeeps.rest.1) hne⟩
    · exact yield_undisturbed h hT hne hspace hd
    · obtain ⟨cur, -, rfl | ⟨-, hx⟩ | ⟨p, pcb, T', s, S, k₂, -, -, hP, -, -, -, htear, rfl⟩⟩ :=
        kill_cases h
      · exact .of_eq hT hne rfl rfl
      · exact hexit hx
      · obtain ⟨i, b, pcbs', -, -, -, -, rfl⟩ := tearDown_spec hP htear
        exact .of_eq hT hne rfl rfl

end Nachos.Kernel
