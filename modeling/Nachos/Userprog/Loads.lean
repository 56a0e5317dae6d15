import Nachos.Machine.Exceptions
import Nachos.Userprog.Resume

/-!
# Delayed loads (machine/mipssim.cc, userprog/exception.cc)

The target of a pending load is the register field of an instruction, so it is
one of the 32 general registers, also after the registers were saved and
restored. Nothing in `DelayedLoad` checks it.

* `Loading`: the machine, and every thread that will go on with saved registers,
  have no other load pending; it holds after every run (`Loading.run`);
* `syscallEntry_registers`: so a trap changes no control register but the one of
  the bad address.
-/

namespace Nachos

open Nachos.Framework

theorem Settled.loadsGeneral {r : Registers} (h : Settled r) : LoadsGeneral r := by
  rw [LoadsGeneral, h.load]
  decide

theorem LoadsGeneral.update {r : Registers} (h : LoadsGeneral r) : LoadsGeneral r.update :=
  ((h.write _ (by decide)).write _ (by decide)).write _ (by decide)

namespace Kernel

variable {env : Env} {k k' : Kernel} {t : Nat} {p : Point}

/-! ## Changing threads -/

/-- The registers after `Scheduler::Run`: those of the thread that goes on, or those
that were there, for a thread that starts. -/
theorem dispatch_registers {n : Nat} (h : k.dispatch n = .ok k') :
    k'.registers = k.registers ∨
      ∃ N, k.threads n = some N ∧ k'.registers = N.userRegisters := by
  unfold dispatch at h
  obtain ⟨T, hT, h⟩ := bind_eq_ok.mp h
  rw [deref_eq_ok] at hT
  obtain ⟨N, hN, h⟩ := bind_eq_ok.mp h
  rw [deref_eq_ok] at hN
  generalize hk₁ : (if T.space.isSome then
    k.setThread k.currentThread { T with userRegisters := k.registers } else k) = k₁ at h hN
  have hregs : k₁.registers = k.registers := by
    rw [← hk₁]
    split <;> rfl
  -- the thread that goes on, with the registers just saved if it is the old one
  have hN' : N.userRegisters = k.registers ∨
      ∃ N₀, k.threads n = some N₀ ∧ N.userRegisters = N₀.userRegisters := by
    rw [← hk₁] at hN
    split at hN
    · by_cases hn : n = k.currentThread
      · subst hn
        have hsaved := (Function.update_self _ _ _).symm.trans hN
        exact .inl (congrArg Thread.userRegisters (Option.some.inj hsaved).symm)
      · exact .inr ⟨N, (Function.update_of_ne hn _ _).symm.trans hN, rfl⟩
    · exact .inr ⟨N, hN, rfl⟩
  dsimp only at h
  split at h
  · cases h
    exact .inl hregs
  · obtain ⟨k₂, hreap, h⟩ := bind_eq_ok.mp h
    obtain ⟨ths, rfl, -, -⟩ := reap_spec hreap
    split at h
    · cases h
      exact .inl hregs
    · obtain ⟨S, -, h⟩ := bind_eq_ok.mp h
      cases h
      rcases hN' with heq | ⟨N₀, hN₀, heq⟩
      · exact .inl heq
      · exact .inr ⟨N₀, hN₀, heq⟩

/-- The registers of the machine are the old ones, or those of a thread that was ready. -/
def FromReady (k : Kernel) (r : Registers) : Prop :=
  r = k.registers ∨ ∃ n N, n ∈ k.readyList ∧ k.threads n = some N ∧ r = N.userRegisters

theorem yield_registers (hl : Linked k) (h : k.yield p = .ok k') : FromReady k k'.registers := by
  unfold yield at h
  split at h
  · cases h
    exact .inl rfl
  · rename_i n rest hr
    obtain ⟨_, -, h⟩ := bind_eq_ok.mp h
    obtain ⟨T, -, h⟩ := bind_eq_ok.mp h
    obtain ⟨-, -, hne, -, -⟩ := hl.ready_thread hr
    rcases dispatch_registers h with heq | ⟨N, hN, heq⟩
    · exact .inl heq
    · refine .inr ⟨n, N, hr ▸ List.mem_cons_self, ?_, heq⟩
      exact (Function.update_of_ne hne _ _).symm.trans hN

theorem exit_registers (h : k.exit = .ok k') : FromReady k k'.registers := by
  unfold exit at h
  obtain ⟨cur, hcur, h⟩ := bind_eq_ok.mp h
  obtain ⟨k₁, htear, h⟩ := bind_eq_ok.mp h
  obtain ⟨i, b, pcbs', -, -, -, -, rfl⟩ := tearDown_spec (process_spec hcur).2.2.2.2 htear
  unfold finish at h
  split at h
  · cases h
  · rename_i n rest hr
    rcases dispatch_registers h with heq | ⟨N, hN, heq⟩
    · exact .inl heq
    · exact .inr ⟨n, N, (show k.readyList = n :: rest from hr) ▸ List.mem_cons_self, hN, heq⟩

/-! ## The loads of all threads -/

/-- The current thread is about to restore the registers saved in its `Thread`. -/
def Restores (k : Kernel) : Prop :=
  ∃ p, (k.control = .tick p ∨ k.control = .run p) ∧ (p = .threadRoot ∨ ∃ pid, p = .forkTail pid)

/-- The machine, and the threads that will go on with saved registers, have only
loads to general registers pending. -/
structure Loading (k : Kernel) : Prop where
  machine : LoadsGeneral k.registers
  saved : ∀ t T, k.threads t = some T → t ∈ k.readyList ∨ (t = k.currentThread ∧ Restores k) →
    LoadsGeneral T.userRegisters

theorem Loading.fromReady {r : Registers} (h : Loading k) (hr : FromReady k r) :
    LoadsGeneral r := by
  rcases hr with rfl | ⟨n, N, hn, hN, rfl⟩
  · exact h.machine
  · exact h.saved n N hN (.inl hn)

/-- The same of the registers saved, after a step, in the thread that made it. -/
def CurrentSaved (k k' : Kernel) : Prop :=
  ∀ T, k'.threads k.currentThread = some T →
    k.currentThread ∈ k'.readyList ∨ (k'.currentThread = k.currentThread ∧ Restores k') →
    LoadsGeneral T.userRegisters

theorem CurrentSaved.of_stays (hl : Linked k') (hcur : k'.currentThread = k.currentThread)
    (h : Restores k' → ∀ T, k'.threads k.currentThread = some T → LoadsGeneral T.userRegisters) :
    CurrentSaved k k' := by
  intro T hT hin
  rcases hin with hin | ⟨-, hrest⟩
  · exact absurd hcur.symm (hl.ne_current hin)
  · exact h hrest T hT

/-- What a step does to the loads: of the machine, of its own thread, and of a
thread that is new. -/
structure LoadsKept (k k' : Kernel) : Prop where
  machine : LoadsGeneral k'.registers
  current : CurrentSaved k k'
  fresh : ∀ t T, k.nextId ≤ t → t ∈ k'.currentThread :: k'.readyList → k'.threads t = some T →
    LoadsGeneral T.userRegisters

theorem LoadsKept.of_subset (ho : Owning k) (hmachine : LoadsGeneral k'.registers)
    (hcurrent : CurrentSaved k k')
    (hsub : k'.currentThread :: k'.readyList ⊆ k.currentThread :: k.readyList) :
    LoadsKept k k' := by
  refine ⟨hmachine, hcurrent, fun t T hge hin _ => ?_⟩
  have hlt := ho.linked.lt_nextId (ho.linked.threads_ne_none (hsub hin))
  omega

/-- It keeps the saved registers of all others. -/
theorem Loading.of_step (h : Loading k) (ho : Owning k) (hs : Kernel.step env k = .ok k')
    (hk : LoadsKept k k') : Loading k' := by
  refine ⟨hk.machine, fun t T hT hin => ?_⟩
  have hmem : t ∈ k'.currentThread :: k'.readyList := by
    rcases hin with hin | ⟨rfl, -⟩
    · exact List.mem_cons_of_mem _ hin
    · exact List.mem_cons_self
  rcases Nat.lt_or_ge t k.nextId with hlt | hge
  · by_cases hready : t ∈ k.readyList
    · obtain ⟨T₀, hT₀⟩ := Option.ne_none_iff_exists'.mp
        (ho.linked.threads_ne_none (List.mem_cons_of_mem _ hready))
      have hT' := (ho.linked.step_other hs hT₀ hready).thread
      rw [hT, Option.some.injEq] at hT'
      exact hT' ▸ h.saved t T₀ hT₀ (.inl hready)
    · have hcur : t = k.currentThread := by
        by_contra hne
        have hgone : Gone k t := ⟨hlt, by
          rw [List.mem_cons, not_or]
          exact ⟨hne, hready⟩⟩
        exact (hgone.step ho hs).2 hmem
      subst hcur
      exact hk.current T hT (hin.imp id fun hin => ⟨hin.1.symm, hin.2⟩)
  · exact hk.fresh t T hge hmem hT

theorem restores_tick (hc : k.control = .tick p) (h : Restores k) :
    p = .threadRoot ∨ ∃ pid, p = .forkTail pid := by
  obtain ⟨q, hq | hq, hp⟩ := h
  · rw [hc, Control.tick.injEq] at hq
    exact hq ▸ hp
  · rw [hc] at hq
    cases hq

theorem not_restores_user (hc : k.control = .tick .user ∨ k.control = .run .user) :
    ¬ Restores k := by
  rintro ⟨q, hq, rfl | ⟨pid, rfl⟩⟩ <;> rcases hc with hc | hc <;> rw [hc] at hq <;>
    rcases hq with hq | hq <;> cases hq

theorem Loading.yield (h : Loading k) (ho : Owning k)
    (hp : (p = .threadRoot ∨ ∃ pid, p = .forkTail pid) → Restores k) (hy : k.yield p = .ok k') :
    LoadsGeneral k'.registers ∧ CurrentSaved k k' := by
  refine ⟨h.fromReady (yield_registers ho.linked hy), ?_⟩
  rcases yield_current ho.linked hy with ⟨-, rfl⟩ | ⟨-, -, T, hT, -, hregs⟩
  · refine .of_stays ((yield_quiet hy).linked ho.linked) rfl fun hrest T hT => ?_
    exact h.saved _ T hT (.inr ⟨rfl, hp (restores_tick rfl hrest)⟩)
  · intro T' hT' _
    rw [hT, Option.some.injEq] at hT'
    rw [← hT', hregs]
    exact h.machine

theorem Loading.oneTick (h : Loading k) (ho : Owning k) (hc : k.control = .tick p)
    (ht : k.oneTick env p = .ok k') : LoadsGeneral k'.registers ∧ CurrentSaved k k' := by
  have hp : (p = .threadRoot ∨ ∃ pid, p = .forkTail pid) → Restores k := fun hp => ⟨p, .inl hc, hp⟩
  have hq := oneTick_quiet ht
  unfold Kernel.oneTick at ht
  split at ht
  · obtain ⟨r, hr, ht⟩ := bind_eq_ok.mp ht
    have hload : LoadsGeneral r := (Settled.of_delayedLoad hr).loadsGeneral
    exact Loading.yield (k := { k with registers := r }) ⟨hload, h.saved⟩
      ((Quiet.of_registers r _ _ k.control).owning ho) hp ht
  · cases ht
    refine ⟨h.machine, .of_stays (hq.linked ho.linked) rfl fun ⟨q, hq, hrest⟩ T hT => ?_⟩
    refine h.saved _ T hT (.inr ⟨rfl, hp ?_⟩)
    rcases hq with hq | hq
    · cases hq
    · cases hq
      exact hrest

theorem Loading.runPoint (h : Loading k) (ho : Owning k) (hp : p ≠ .user) (hc : k.control = .run p)
    (hr : k.runPoint env p = .ok k') : LoadsGeneral k'.registers ∧ CurrentSaved k k' := by
  have hl := (runPoint_quiet hp hr).linked ho.linked
  have hsaved : (p = .threadRoot ∨ ∃ pid, p = .forkTail pid) → ∀ T,
      k.threads k.currentThread = some T → LoadsGeneral T.userRegisters :=
    fun hp T hT => h.saved _ T hT (.inr ⟨rfl, p, .inr hc, hp⟩)
  have huser : k'.currentThread = k.currentThread →
      (k'.control = .tick .user ∨ k'.control = .run .user) → CurrentSaved k k' :=
    fun hcur hc' => .of_stays hl hcur fun hrest => absurd hrest (not_restores_user hc')
  cases p with
  | user => exact absurd rfl hp
  | yieldTail =>
    cases hr
    exact ⟨h.machine.update, huser rfl (.inl rfl)⟩
  | joinLoop pid c =>
    rcases joinLoop_cases hr with ⟨x, -, hy⟩ | ⟨-, cur, -, rfl⟩
    · exact h.yield ho (fun hp => by simp at hp) hy
    · exact ⟨(h.machine.write _ (by decide)).update, huser rfl (.inl rfl)⟩
  | forkTail pid =>
    obtain ⟨T, hT, hr⟩ := bind_eq_ok.mp hr
    rw [deref_eq_ok] at hT
    cases hr
    exact ⟨((hsaved (.inr ⟨pid, rfl⟩) T hT).write _ (by decide)).update, huser rfl (.inl rfl)⟩
  | threadRoot =>
    obtain ⟨T, hT, hr⟩ := bind_eq_ok.mp hr
    obtain ⟨s, -, hr⟩ := bind_eq_ok.mp hr
    obtain ⟨S, -, hr⟩ := bind_eq_ok.mp hr
    rw [deref_eq_ok] at hT
    cases hr
    exact ⟨hsaved (.inl rfl) T hT, huser rfl (.inr rfl)⟩

/-- A user instruction that goes through. -/
theorem userInstruction_loads (h : k.userInstruction env = .ok k') (hc : k.control = .run .user) :
    LoadsGeneral k'.registers ∨ ∃ e, k.syscallEntry = some e ∧ e.syscall env = .ok k' := by
  by_cases he : ∃ e, k.syscallEntry = some e
  · obtain ⟨e, he⟩ := he
    refine .inr ⟨e, he, ?_⟩
    rw [← step_of_syscallEntry env he, Kernel.step, hc]
    exact h
  · refine .inl ?_
    unfold userInstruction at h
    obtain ⟨_, -, h⟩ := bind_eq_ok.mp h
    obtain ⟨s, hs, h⟩ := bind_eq_ok.mp h
    obtain ⟨space, hspace, h⟩ := bind_eq_ok.mp h
    rw [deref_eq_ok] at hs hspace
    split at h
    · rename_i m hm
      cases h
      exact Machine.oneInstruction_loads hm
    · rename_i which badVAddr m hm
      unfold raiseException at h
      obtain ⟨r, hr, h⟩ := bind_eq_ok.mp h
      split at h
      · refine absurd ⟨{ k.setMachine s space m with registers := r }, ?_⟩ he
        have hr' : (m.registers.write badVAddrReg badVAddr).delayedLoad 0 0 = .ok r := hr
        simp only [syscallEntry, hc, hs, hspace, hm, hr']
      · cases h
    · cases h

/-! ## System calls -/

theorem CurrentSaved.of_user (hl : Linked k') (hcur : k'.currentThread = k.currentThread)
    (hc : k'.control = .tick .user ∨ k'.control = .run .user) : CurrentSaved k k' :=
  .of_stays hl hcur fun hrest => absurd hrest (not_restores_user hc)

theorem Loading.exit (h : Loading k) (ho : Owning k) (he : k.exit = .ok k') : LoadsKept k k' := by
  have hmachine := h.fromReady (exit_registers he)
  have hnodup := ho.linked.nodup
  obtain ⟨cur, k₁, n, rest, hcur, htear, hr, hd⟩ := exit_cases he
  obtain ⟨i, b, pcbs', -, -, -, -, rfl⟩ := tearDown_spec (process_spec hcur).2.2.2.2 htear
  have hr' : k.readyList = n :: rest := hr
  rw [hr'] at hnodup
  have hnot := (List.nodup_cons.mp hnodup).1
  obtain ⟨r, pt, m, ths, d, c, rfl⟩ := hd.rest
  refine .of_subset ho hmachine (fun T _ hin => ?_) ?_
  · rcases hin with hin | ⟨heq, -⟩
    · exact absurd (List.mem_cons_of_mem n hin) hnot
    · exact absurd (List.mem_cons.mpr (.inl heq.symm)) hnot
  · rw [hr']
    exact List.subset_cons_self _ _

theorem Loading.kill (h : Loading k) (ho : Owning k) (hk : k.kill = .ok k') : LoadsKept k k' := by
  have hl := (ho.kill hk).linked
  obtain ⟨cur, -, rfl | ⟨-, he⟩ | ⟨p, P, T, s, S, k₁, -, -, hP, -, -, -, htear, rfl⟩⟩ := kill_cases hk
  · exact .of_subset ho (h.machine.write _ (by decide)).update (.of_user hl rfl (.inl rfl))
      (List.Subset.refl _)
  · exact h.exit ho he
  · obtain ⟨i, b, pcbs', -, -, -, -, rfl⟩ := tearDown_spec hP htear
    exact .of_subset ho (h.machine.write _ (by decide)).update (.of_user hl rfl (.inl rfl))
      (List.cons_subset_cons _ List.erase_subset)

theorem Loading.exec (h : Loading k) (ho : Owning k) (he : k.exec env = .ok k') :
    LoadsKept k k' := by
  have hl := (ho.exec he).linked
  obtain ⟨cur, S, r, -, -, ⟨-, rfl⟩ | ⟨vm, mem, -, rfl⟩⟩ := exec_cases he
  · exact .of_subset ho (h.machine.write _ (by decide)).update (.of_user hl rfl (.inl rfl))
      (List.Subset.refl _)
  · exact .of_subset ho ((initRegisters_settled S.numPages).loadsGeneral.write _ (by decide)).update
      (.of_user hl rfl (.inl rfl)) (List.Subset.refl _)

theorem Loading.fork (h : Loading k) (ho : Owning k) (hf : k.fork env = .ok k') :
    LoadsKept k k' := by
  have hkeeps := fork_keeps hf (ho.linked.lt_nextId (ho.linked.threads_ne_none List.mem_cons_self))
  have hcurrent : CurrentSaved k k' := by
    intro T hT _
    obtain ⟨T₀, -, hT₀⟩ := hkeeps.current
    rw [hT, Option.some.injEq] at hT₀
    exact hT₀ ▸ h.machine
  rcases fork_processes hf with ⟨-, hr, -, cur, r, -, hregs, rfl⟩ |
    ⟨cur, S, r, i, -, -, -, -, hr, -, -, -, -, hT, hregs, rfl⟩
  · refine .of_subset ho ?_ hcurrent ?_
    · rw [hregs]
      exact (h.machine.write _ (by decide)).update
    · rw [hkeeps.rest.1, hr]
      exact List.Subset.refl _
  · -- the child has the registers that are in the machine now
    have hload : LoadsGeneral k'.registers := by
      rw [hregs]
      exact ((h.machine.write _ (by decide)).write _ (by decide)).write _ (by decide)
    refine ⟨hload, hcurrent, fun t T hge hin hTt => ?_⟩
    rw [hkeeps.rest.1, hr, ← List.cons_append, List.mem_append, List.mem_singleton] at hin
    rcases hin with hin | rfl
    · have hlt := ho.linked.lt_nextId (ho.linked.threads_ne_none hin)
      omega
    · rw [hT, Option.some.injEq] at hTt
      rw [← hTt]
      exact hregs ▸ hload

theorem Loading.syscall (h : Loading k) (ho : Owning k) (hs : k.syscall env = .ok k') :
    LoadsKept k k' := by
  have huser : LoadsKept k { k with control := .tick .user } :=
    .of_subset ho h.machine (.of_user ((Quiet.of_registers _ _ _ _).linked ho.linked) rfl (.inl rfl))
      (List.Subset.refl _)
  unfold Kernel.syscall at hs
  split at hs
  · exact h.exit ho hs
  · exact h.exec ho hs
  · have hl := (join_quiet hs).linked ho.linked
    obtain ⟨cur, -, rfl | ⟨c, -, -, -, rfl⟩⟩ := join_cases hs
    · exact .of_subset ho (h.machine.write _ (by decide)).update (.of_user hl rfl (.inl rfl))
        (List.Subset.refl _)
    · refine .of_subset ho h.machine (.of_stays hl rfl fun hrest => ?_) (List.Subset.refl _)
      obtain ⟨q, hq, rfl | ⟨pid, rfl⟩⟩ := hrest <;> rcases hq with hq | hq <;> cases hq
  · cases hs
    exact huser
  · cases hs
    exact huser
  · cases hs
    exact huser
  · cases hs
    exact huser
  · cases hs
    exact huser
  · exact h.fork ho hs
  · obtain ⟨hmachine, hcurrent⟩ := h.yield ho (fun hp => by simp at hp) hs
    exact .of_subset ho hmachine hcurrent (yield_quiet hs).perm.subset
  · exact h.kill ho hs
  · cases hs

/-! ## Over whole runs -/

theorem Loading.step (h : Loading k) (ho : Owning k) (hs : Kernel.step env k = .ok k') :
    Loading k' := by
  have hsyscall : ∀ e, k.syscallEntry = some e → e.syscall env = .ok k' → LoadsKept k k' := by
    intro e he hsys
    obtain ⟨-, hc, hu, hset⟩ := syscallEntry_spec he
    have hoe : Owning e := hu.quiet.owning ho
    obtain ⟨r, mem, spaces, c, rfl⟩ := hu.rest
    have hk := Loading.syscall ⟨hset.loadsGeneral, fun t T hT hin => h.saved t T hT ?_⟩ hoe hsys
    · exact ⟨hk.machine, hk.current, hk.fresh⟩
    · exact hin.imp id fun hin => absurd hin.2 (not_restores_user (.inr hc))
  refine h.of_step ho hs ?_
  rcases step_cases hs with ⟨p, hc, ht⟩ | ⟨p, hp, hc, hr⟩ | ⟨hc, hc', hu⟩ | ⟨e, he, hsys⟩
  · obtain ⟨hmachine, hcurrent⟩ := h.oneTick ho hc ht
    exact .of_subset ho hmachine hcurrent (oneTick_quiet ht).perm.subset
  · obtain ⟨hmachine, hcurrent⟩ := h.runPoint ho hp hc hr
    exact .of_subset ho hmachine hcurrent (runPoint_quiet hp hr).perm.subset
  · rw [Kernel.step, hc] at hs
    rcases userInstruction_loads hs hc with hmachine | ⟨e, he, hsys⟩
    · have hl := hu.quiet.linked ho.linked
      have hcur : k'.currentThread = k.currentThread := by
        obtain ⟨r, mem, spaces, c, rfl⟩ := hu.rest
        rfl
      exact .of_subset ho hmachine (.of_user hl hcur (.inl hc')) hu.quiet.perm.subset
    · exact hsyscall e he hsys
  · exact hsyscall e he hsys

theorem Loading.start {b : Boot}
    (h : startProcess b.env (boot b.junk b.junkTable b.junkRegisters) b.filename = .ok k) :
    Loading k := by
  obtain ⟨file, S, hs⟩ := startProcess_spec h
  refine ⟨?_, fun t T _ hin => ?_⟩
  · rw [hs.registers]
    exact (initRegisters_settled S.numPages).loadsGeneral
  · rcases hin with hin | ⟨-, hrest⟩
    · rw [hs.readyList] at hin
      cases hin
    · exact absurd hrest (not_restores_user (.inr hs.control))

theorem Loading.run {b : Boot} {envs : List Env} (h : runs b envs = some k) : Loading k :=
  (runs_invariant (I := fun k => Owning k ∧ Loading k) (G := fun _ => True)
    (fun _ hk => ⟨.start hk, .start hk⟩) (fun _ _ _ hk _ hs => ⟨hk.1.step hs, hk.2.step hk.1 hs⟩)
    (fun _ _ => trivial) h).2

/-! ## Traps -/

/-- The registers after the load that is pending in the machine. -/
theorem syscallEntry_registers {e : Kernel} (h : Loading k) (he : k.syscallEntry = some e) :
    ∃ r, k.registers.delayedLoad 0 0 = .ok r ∧ ∀ i : Fin 40, i ≠ badVAddrReg → e.registers i = r i := by
  unfold syscallEntry at he
  split at he
  · rename_i s hc hp
    split at he
    · cases he
    · rename_i space hs
      split at he
      · rename_i badVAddr m hi
        have hm := ((k.machine space).oneInstruction_sameMapping.exception _ _ _ hi).2
        split at he
        · rename_i r hr
          cases he
          have hlt : (k.registers loadReg).toNat < 40 := Nat.lt_trans h.machine (by decide)
          obtain ⟨r', hr'⟩ : ∃ r', k.registers.delayedLoad 0 0 = .ok r' := by
            rw [Registers.delayedLoad, dif_pos hlt]
            exact ⟨_, rfl⟩
          refine ⟨r', hr', fun i hi' => ?_⟩
          show r i = r' i
          rw [delayedLoad_apply hr, delayedLoad_apply hr', hm,
            Registers.write_of_ne _ (i := badVAddrReg) (j := loadReg) (by decide),
            Registers.write_of_ne _ (i := badVAddrReg) (j := loadValueReg) (by decide),
            Registers.write_of_ne _ hi']
          rfl
        · cases he
      · cases he
  · cases he

end Kernel

end Nachos
