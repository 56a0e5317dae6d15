import Nachos.Userprog.Resume

/-!
# `Fork` under preemption

`fork` puts the registers of the child into the machine and calls
`Thread::Fork`, which turns interrupts on before `fork` can put the parent's own
back. A switch at that tick saves the child's registers for the parent. In the
same way a switch at the tick where a new thread turns interrupts on, before
`dummy` has loaded its registers, saves the registers of the thread that ran
before.

* `Returning`, `Newborn`: the parent and the child on their way to their next
  user instruction;
* `fork_seen`: without a switch at these two ticks both see what they should,
  whatever else happens.
-/

namespace Nachos.Kernel

open Nachos.Framework

variable {env : Env} {k k' : Kernel} {t : Nat} {R : Registers} {pid : Int}

/-- A timer interrupt in this step makes another thread run. -/
def Switches (env : Env) (k : Kernel) : Prop := env.timer = true ∧ k.readyList ≠ []

/-- No switch falls on the tick in `Thread::Fork` while the parent runs, nor on the
tick at the start of the child. -/
def Unbroken (parent child : Nat) (env : Env) (k : Kernel) : Prop :=
  (∀ pid, k.currentThread = parent → k.control = .tick (.forkTail pid) → ¬ Switches env k) ∧
  (k.currentThread = child → k.control = .tick .threadRoot → ¬ Switches env k)

/-- A tick without a switch. -/
theorem oneTick_of_not_switches {p : Point} (hn : ¬ Switches env k)
    (h : k.oneTick env p = .ok k') :
    k'.threads = k.threads ∧ k'.currentThread = k.currentThread ∧
      (k'.control = .tick p ∨ k'.control = .run p) := by
  unfold oneTick at h
  split at h
  · rename_i htimer
    obtain ⟨r, -, h⟩ := bind_eq_ok.mp h
    have hr : k.readyList = [] := by
      by_contra hne
      exact hn ⟨htimer, hne⟩
    rw [yield] at h
    simp only [hr] at h
    cases h
    exact ⟨rfl, rfl, .inl rfl⟩
  · cases h
    exact ⟨rfl, rfl, .inr rfl⟩

/-! ## The parent -/

/-- The parent is in `fork`, its own registers saved in its thread. -/
structure Returning (k : Kernel) (t : Nat) (pid : Int) (R : Registers) : Prop where
  current : k.currentThread = t
  control : k.control = .tick (.forkTail pid) ∨ k.control = .run (.forkTail pid)
  saved : ∃ T, k.threads t = some T ∧ T.userRegisters = R

/-- The registers with which the parent goes on. -/
def parentRegisters (R : Registers) (pid : Int) : Registers :=
  (R.write 2 (BitVec.ofInt 32 pid)).update

theorem settled_parentRegisters (h : Settled R) (pid : Int) : Settled (parentRegisters R pid) :=
  (h.write _ (by decide) (by decide) (by decide)).update

theorem Returning.step (h : Returning k t pid R) (hset : Settled R)
    (hn : ∀ pid, k.currentThread = t → k.control = .tick (.forkTail pid) → ¬ Switches env k)
    (hs : Kernel.step env k = .ok k') :
    Returning k' t pid R ∨ Parked k' t .user (parentRegisters R pid) := by
  obtain ⟨T, hT, hR⟩ := h.saved
  rcases h.control with hc | hc
  · rw [Kernel.step, hc] at hs
    obtain ⟨hth, hcur, hc'⟩ := oneTick_of_not_switches (hn pid h.current hc) hs
    exact .inl ⟨hcur.trans h.current, hc', T, by rw [hth, hT], hR⟩
  · rw [Kernel.step, hc] at hs
    obtain ⟨T', hT', hs⟩ := bind_eq_ok.mp hs
    rw [deref_eq_ok, h.current, hT, Option.some.injEq] at hT'
    subst hT'
    cases hs
    refine .inr ⟨.inl ⟨h.current, .inl rfl⟩, ?_, settled_parentRegisters hset pid⟩
    rw [← hR]
    exact if_pos ⟨h.current.symm, by simp [sysReturn], by simp [sysReturn]⟩

/-! ## The child -/

/-- The child has not run yet, and its registers are in its thread. -/
structure Newborn (k : Kernel) (t : Nat) (R : Registers) : Prop where
  saved : ∃ T, k.threads t = some T ∧ T.userRegisters = R ∧
    ((t ∈ k.readyList ∧ T.resume = none) ∨
      (k.currentThread = t ∧ (k.control = .tick .threadRoot ∨ k.control = .run .threadRoot)))

/-- The registers with which the child starts. -/
def childRegisters (R : Registers) : Registers :=
  ((R.write pcReg (R 4)).write nextPCReg (R 4 + 4)).write prevPCReg (R 4 - 4)

theorem settled_childRegisters (h : Settled R) : Settled (childRegisters R) :=
  ((h.write _ (by decide) (by decide) (by decide)).write _ (by decide) (by decide)
    (by decide)).write _ (by decide) (by decide) (by decide)

theorem Newborn.step (h : Newborn k t R) (hset : Settled R) (ho : Owning k)
    (hn : k.currentThread = t → k.control = .tick .threadRoot → ¬ Switches env k)
    (hs : Kernel.step env k = .ok k') :
    Newborn k' t R ∨ Parked k' t .user R ∨ Gone k' t := by
  obtain ⟨T, hT, hR, ⟨hin, hres⟩ | ⟨hcur, hc | hc⟩⟩ := h.saved
  · have hu := ho.linked.step_other hs hT hin
    by_cases hin' : t ∈ k'.currentThread :: k'.readyList
    · rcases List.mem_cons.mp hin' with heq | hin'
      · rcases hu.resumed heq.symm with ⟨-, hc⟩ | ⟨p, s, S, hp, -⟩
        · exact .inl ⟨T, hu.thread, hR, .inr ⟨heq.symm, .inl hc⟩⟩
        · rw [hres] at hp
          cases hp
      · exact .inl ⟨T, hu.thread, hR, .inl ⟨hin', hres⟩⟩
    · have hlt := (ho.step hs).linked.lt_nextId (t := t) (by
        rw [hu.thread]
        exact Option.some_ne_none T)
      exact .inr (.inr ⟨hlt, hin'⟩)
  · have hsw := hn hcur hc
    rw [Kernel.step, hc] at hs
    obtain ⟨hth, hcur', hc'⟩ := oneTick_of_not_switches hsw hs
    exact .inl ⟨T, by rw [hth, hT], hR, .inr ⟨hcur'.trans hcur, hc'⟩⟩
  · rw [Kernel.step, hc] at hs
    obtain ⟨T', hT', hs⟩ := bind_eq_ok.mp hs
    obtain ⟨s, -, hs⟩ := bind_eq_ok.mp hs
    obtain ⟨S, -, hs⟩ := bind_eq_ok.mp hs
    rw [deref_eq_ok, hcur, hT, Option.some.injEq] at hT'
    subst hT'
    cases hs
    refine .inr (.inl ⟨.inl ⟨hcur, .inr rfl⟩, ?_, hset⟩)
    rw [← hR]
    exact if_pos ⟨hcur.symm, Control.noConfusion, by simp⟩

/-! ## Both, over whole runs -/

theorem Returning.run {envs : List Env} {child : Nat} (h : Returning k t pid R) (hset : Settled R)
    (ho : Owning k) (hG : Throughout (Unbroken t child) k envs)
    (hfirst : Throughout (fun _ u => ¬ AtUser u t) k envs) (hrun : k.runFrom envs = some k') :
    Returning k' t pid R ∨ Parked k' t .user (parentRegisters R pid) ∨ Gone k' t := by
  refine (run_invariant_along (I := fun k => Owning k ∧ (Returning k t pid R ∨
    Parked k t .user (parentRegisters R pid) ∨ Gone k t)) (fun env k k' hk hG hs => ?_)
    ⟨ho, .inl h⟩ (Along.and hG hfirst) hrun).2
  have hs' := toOption_eq_some.mp hs
  refine ⟨hk.1.step hs', ?_⟩
  rcases hk.2 with hk' | hk' | hk'
  · rcases hk'.step hset hG.1.1 hs' with h' | h'
    · exact .inl h'
    · exact .inr (.inl h')
  · exact .inr (hk'.step Point.noConfusion hk.1 hG.2 hs')
  · exact .inr (.inr (hk'.step hk.1 hs'))

theorem Newborn.run {envs : List Env} {parent : Nat} (h : Newborn k t R) (hset : Settled R)
    (ho : Owning k) (hG : Throughout (Unbroken parent t) k envs)
    (hfirst : Throughout (fun _ u => ¬ AtUser u t) k envs) (hrun : k.runFrom envs = some k') :
    Owning k' ∧ (Newborn k' t R ∨ Parked k' t .user R ∨ Gone k' t) := by
  refine run_invariant_along (I := fun k => Owning k ∧ (Newborn k t R ∨
    Parked k t .user R ∨ Gone k t)) (fun env k k' hk hG hs => ?_)
    ⟨ho, .inl h⟩ (Along.and hG hfirst) hrun
  have hs' := toOption_eq_some.mp hs
  refine ⟨hk.1.step hs', ?_⟩
  rcases hk.2 with hk' | hk' | hk'
  · exact hk'.step hset hk.1 hG.1.2 hs'
  · exact .inr (hk'.step Point.noConfusion hk.1 hG.2 hs')
  · exact .inr (.inr (hk'.step hk.1 hs'))

/-- What the parent and the child of a `Fork` that was made with the registers
`R` should see, in the state `k'` reached from the state `k` in which `fork` has
just made the child. -/
structure ForkSeen (R : Registers) (pid : Int) (parent child : Nat) (k : Kernel) (envs : List Env)
    (k' : Kernel) : Prop where
  parent : Throughout (fun _ u => ¬ AtUser u parent) k envs → AtUser k' parent →
    k'.registers = parentRegisters R pid
  child : Throughout (fun _ u => ¬ AtUser u child) k envs → AtUser k' child →
    k'.registers = childRegisters R

/-- A `Fork` in a run: the system call is made in `k`, with the registers `R`, and
`k'` is the state after the step, in which the child `c` has the PID `pid`. -/
structure Forks (b : Boot) (envs : List Env) (env : Env) (R : Registers) (pid : Int) (c : PCB)
    (k k' : Kernel) : Prop where
  run : runs b envs = some k
  entry : ∃ k₁, k.syscallEntry = some k₁ ∧ (k₁.registers 2).toNat = 9 ∧ k₁.registers = R
  step : Kernel.step env k = .ok k'
  made : k'.control = .tick (.forkTail pid)
  child : ∃ p, k'.getProcess pid = .ok (some p) ∧ k'.pcbs p = some c

theorem Forks.spec {b : Boot} {envs : List Env} {c : PCB} (h : Forks b envs env R pid c k k') :
    Owning k' ∧ Settled R ∧ Returning k' k.currentThread pid R ∧
      Newborn k' c.processThread (childRegisters R) := by
  have ho : Owning k := .run h.run
  obtain ⟨k₁, he, hcode, rfl⟩ := h.entry
  obtain ⟨-, -, hu, hset⟩ := syscallEntry_spec he
  have ho₁ := hu.quiet.owning ho
  have hfork : k₁.fork env = .ok k' := by
    have hsys := step_of_syscallEntry env he
    rw [h.step, syscall, hcode] at hsys
    exact hsys.symm
  have hcur : k₁.currentThread = k.currentThread := by
    obtain ⟨r, mem, spaces, ctl, rfl⟩ := hu.rest
    rfl
  have hkeeps := fork_keeps hfork
    (ho₁.linked.lt_nextId (ho₁.linked.threads_ne_none List.mem_cons_self))
  have ho' := ho.step h.step
  refine ⟨ho', hset, ⟨hkeeps.rest.1.trans hcur, .inl h.made, ?_⟩, ?_⟩
  · obtain ⟨T, -, hT⟩ := hkeeps.current
    exact ⟨_, hcur ▸ hT, rfl⟩
  · rcases fork_processes hfork with ⟨-, -, hc, -⟩ |
      ⟨cur, S, r, i, -, hp, -, -, hr, hc, -, -, -, hT, -, hregs⟩
    · rw [h.made] at hc
      cases hc
    · -- the process with the PID is the one just made
      obtain ⟨p, hg, hP⟩ := h.child
      have hpid : pid = i := by
        rw [h.made] at hc
        cases hc
        rfl
      have hnew : k'.pcbs (k₁.nextId + 2) =
          some ⟨k₁.nextId + 1, i, some cur.pcbId, [], false, env.junkExitValue⟩ := by
        rw [hp, Function.update_self]
      obtain ⟨j, hj, -, hjt⟩ := ho'.tree.pid _ _ hnew
      obtain ⟨j', hj', -, hres⟩ := getProcess_spec hg
      have hjj : j = j' := by
        have : (i : Int) = j := hj
        omega
      subst hjj
      split at hres
      · rw [hjt, Option.some.injEq] at hres
        rw [hres, hnew, Option.some.injEq] at hP
        rw [← hP]
        exact ⟨_, hT, hregs, .inl ⟨by rw [hr]; exact List.mem_append_right _ List.mem_cons_self, rfl⟩⟩
      · cases hres

/-- Without a switch at the two ticks, the parent and the child of every `Fork`
see what they should, under any schedule. -/
theorem fork_seen {b : Boot} {envs envs' : List Env} {c : PCB} {k₂ : Kernel}
    (h : Forks b envs env R pid c k k₂)
    (hG : Throughout (Unbroken k.currentThread c.processThread) k₂ envs')
    (hrun : k₂.runFrom envs' = some k') :
    ForkSeen R pid k.currentThread c.processThread k₂ envs' k' := by
  obtain ⟨ho, hset, hparent, hchild⟩ := h.spec
  refine ⟨fun hfirst huser => ?_, fun hfirst huser => ?_⟩
  · rcases hparent.run hset ho hG hfirst hrun with h' | h'
    · rcases h'.control with hc | hc <;> rw [huser.2] at hc <;> cases hc
    · exact Parked.registers_of_atUser h' huser
  · obtain ⟨ho', h' | h'⟩ := hchild.run (settled_childRegisters hset) ho hG hfirst hrun
    · obtain ⟨T, hT, -, ⟨hin, -⟩ | ⟨-, hc | hc⟩⟩ := h'.saved
      · exact absurd huser.1.symm (ho'.linked.ne_current hin)
      · rw [huser.2] at hc
        cases hc
      · rw [huser.2] at hc
        cases hc
    · exact Parked.registers_of_atUser h' huser

/-! ## A program that forks -/

/-- `r2 := 9; syscall`, with `r4 = 0`. -/
def forkOnce : List (BitVec 32) := [0x24020009, 0x0000000c]

/-- The kernel at its system call, and after the step. -/
def forkOnceBefore : Kernel :=
  (runs (plainBoot forkOnce) ([false, false].map (plainEnv forkOnce))).get (by decide +kernel)

def forkOnceAfter : Kernel :=
  (step (plainEnv forkOnce false) forkOnceBefore).toOption.get (by decide +kernel)

def forkOnceRegisters : Registers :=
  (forkOnceBefore.syscallEntry.get (by decide +kernel)).registers

/-- The child: PCB number 5, thread 4. -/
def forkOnceChild : PCB := (forkOnceAfter.pcbs 5).get (by decide +kernel)

theorem forkOnce_forks : Forks (plainBoot forkOnce) ([false, false].map (plainEnv forkOnce))
    (plainEnv forkOnce false) forkOnceRegisters 1 forkOnceChild forkOnceBefore forkOnceAfter := by
  refine ⟨(Option.some_get _).symm, ⟨_, (Option.some_get _).symm, ?_, rfl⟩,
    toOption_eq_some.mp (Option.some_get _).symm, ?_, 5, ?_, (Option.some_get _).symm⟩
  · decide +kernel
  · decide +kernel
  · decide +kernel

/-- With a switch at the tick in `Thread::Fork`, and back to the parent after the
first instruction of the child, the parent goes on at address 4, not 8. -/
theorem forkOnce_preempted :
    ¬ ∀ b envs env envs' R pid c k k₂ k', Forks b envs env R pid c k k₂ →
      k₂.runFrom envs' = some k' →
      ForkSeen R pid k.currentThread c.processThread k₂ envs' k' := by
  intro hall
  let envs' := [true, false, false, false, true, false, false, false].map (plainEnv forkOnce)
  let k' := (forkOnceAfter.runFrom envs').get (by decide +kernel)
  have hseen := hall _ _ _ envs' _ _ _ _ _ k' forkOnce_forks (Option.some_get _).symm
  have hregs := hseen.parent (of_decide_eq_true (p := Along _ _ _ _) (by decide +kernel))
    (by decide +kernel)
  have hpc := congrFun hregs pcReg
  have hne : k'.registers pcReg ≠ parentRegisters forkOnceRegisters 1 pcReg := by decide +kernel
  exact hne hpc

/-- Without an interrupt the parent goes on at address 8, with the PID in `r2`. -/
theorem fork_seen_forkOnce :
    let envs' := [false, false, false].map (plainEnv forkOnce)
    ∃ k', forkOnceAfter.runFrom envs' = some k' ∧ AtUser k' forkOnceBefore.currentThread ∧
      Throughout (Unbroken forkOnceBefore.currentThread forkOnceChild.processThread)
        forkOnceAfter envs' ∧
      ForkSeen forkOnceRegisters 1 forkOnceBefore.currentThread forkOnceChild.processThread
        forkOnceAfter envs' k' := by
  intro envs'
  have hG : Throughout (Unbroken forkOnceBefore.currentThread forkOnceChild.processThread)
      forkOnceAfter envs' := by
    refine Along.of_forall (fun env henv k => ?_) _
    obtain ⟨timer, htimer, rfl⟩ := List.mem_map.mp henv
    have hfalse : timer = false := by simpa using htimer
    have hno : ¬ Switches (plainEnv forkOnce timer) k := by
      rintro ⟨ht, -⟩
      rw [hfalse] at ht
      cases ht
    exact ⟨fun _ _ _ => hno, fun _ _ => hno⟩
  let k' := (forkOnceAfter.runFrom envs').get (by decide +kernel)
  have hk' : forkOnceAfter.runFrom envs' = some k' := (Option.some_get _).symm
  have huser : AtUser k' forkOnceBefore.currentThread := by decide +kernel
  exact ⟨k', hk', huser, hG, fork_seen forkOnce_forks hG hk'⟩

end Nachos.Kernel
