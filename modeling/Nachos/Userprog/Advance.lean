import Nachos.Userprog.ForkPreempt
import Nachos.Userprog.Join
import Nachos.Userprog.Loads

/-!
# Where a system call returns to (userprog/exception.cc)

The handlers add four to the three program counters. That goes on behind the
system call if the instruction after it is the next one; in a delay slot it is
not. `Create`, `Open`, `Read`, `Write` and `Close` add nothing.

* `Heads`: a thread on its way from a system call back to user mode;
* `advances_iff`: a system call advances by one instruction exactly if it is not
  one of these five and the next instruction is the one the handler goes to.
-/

namespace Nachos.Kernel

open Nachos.Framework

variable {env : Env} {k k' e : Kernel} {t : Nat} {R : Registers} {pid : Int}

/-! ## On the way back -/

/-- The thread is in `fork`, with `R` as its saved registers, and if it has been
preempted there, with `R` in the machine when it goes on. -/
structure InFork (k : Kernel) (t : Nat) (pid : Int) (R : Registers) : Prop where
  point : At k t (.forkTail pid)
  saved : ∃ T, k.threads t = some T ∧ T.userRegisters = R
  machine : k.currentThread = t → k.control = .tick (.forkTail pid) → k.registers = R

/-- The thread is on its way from the system call that it made with the registers `R`
to the next user instruction, or is gone. -/
inductive Heads (k : Kernel) (t : Nat) (R : Registers) : Prop
  | user (v : BitVec 32) (h : Parked k t .user (R.write 2 v).update)
  | yieldTail (h : Parked k t .yieldTail R)
  | joinLoop (pid : Int) (c : Nat) (h : Parked k t (.joinLoop pid c) R)
  | forkTail (pid : Int) (h : InFork k t pid R)
  | gone (h : Gone k t)

theorem settled_sysReturn (h : Settled R) (v : BitVec 32) : Settled (R.write 2 v).update :=
  (h.write _ (by decide) (by decide) (by decide)).update

/-- A thread that the end of a system call leaves at the tick. -/
theorem Parked.of_tick {p : Point} (hcur : k.currentThread = t) (hc : k.control = .tick p)
    (hp : p ≠ .threadRoot) (hset : Settled k.registers) : Parked k t p k.registers := by
  subst hcur
  exact ⟨.inl ⟨rfl, .inl hc⟩, userState_current hp (.inl hc), hset⟩

theorem Parked.of_run {p : Point} (hcur : k.currentThread = t) (hc : k.control = .run p)
    (hp : p ≠ .threadRoot) (hset : Settled k.registers) : Parked k t p k.registers := by
  subst hcur
  exact ⟨.inl ⟨rfl, .inr hc⟩, userState_current hp (.inr hc), hset⟩

/-- A thread that calls `Thread::Yield`. -/
theorem Parked.of_yield {p : Point} (hl : Linked k) (hp : p ≠ .threadRoot)
    (hset : Settled k.registers) (hy : k.yield p = .ok k') :
    Parked k' k.currentThread p k.registers := by
  rcases yield_current hl hy with ⟨-, rfl⟩ | ⟨hin, hne, T, hT, hres, hregs⟩
  · exact .of_tick rfl rfl hp hset
  · refine ⟨.inr ⟨hin, T, hT, hres⟩, ?_, hset⟩
    rw [userState_of_ne hne.symm, hT, Option.map_some, hregs]

theorem At.not_atUser {p : Point} (h : At k t p) (hl : Linked k) (hp : p ≠ .user) :
    ¬ AtUser k t := by
  rintro ⟨hcur, hc⟩
  rcases h with ⟨-, hc' | hc'⟩ | ⟨hin, -⟩
  · rw [hc] at hc'
    cases hc'
  · rw [hc, Control.run.injEq] at hc'
    exact hp hc'.symm
  · exact hl.ne_current hin hcur.symm

theorem Heads.registers_of_atUser (h : Heads k t R) (hl : Linked k) (hu : AtUser k t) :
    ∃ v, k.registers = (R.write 2 v).update := by
  cases h with
  | user v h => exact ⟨v, Parked.registers_of_atUser (.inl h) hu⟩
  | yieldTail h => exact absurd hu (h.point.not_atUser hl Point.noConfusion)
  | joinLoop pid c h => exact absurd hu (h.point.not_atUser hl Point.noConfusion)
  | forkTail pid h => exact absurd hu (h.point.not_atUser hl Point.noConfusion)
  | gone h => exact absurd (hu.1 ▸ List.mem_cons_self) h.2

/-! ## One step on the way -/

theorem InFork.step (h : InFork k t pid R) (hset : Settled R) (ho : Owning k)
    (hs : Kernel.step env k = .ok k') : Heads k' t R := by
  obtain ⟨T, hT, hR⟩ := h.saved
  rcases h.point with ⟨rfl, hc | hc⟩ | ⟨hin, T', hT', hres⟩
  · have hregs := h.machine rfl hc
    rw [Kernel.step, hc] at hs
    change k.oneTick env (.forkTail pid) = .ok k' at hs
    have hat := (oneTick_current ho.linked hs).1
    rcases oneTick_cases ho.linked (hregs ▸ hset) hs with
      ⟨-, rfl⟩ | ⟨-, -, rfl⟩ | ⟨-, -, hne, U, hU, -, hURegs⟩
    · exact .forkTail pid ⟨hat, ⟨T, hT, hR⟩, fun _ hc' => by cases hc'⟩
    · exact .forkTail pid ⟨hat, ⟨T, hT, hR⟩, fun _ _ => hregs⟩
    · exact .forkTail pid ⟨hat, ⟨U, hU, hURegs.trans hregs⟩, fun hcur => absurd hcur hne⟩
  · rw [Kernel.step, hc] at hs
    obtain ⟨T', hT', hs⟩ := bind_eq_ok.mp hs
    rw [deref_eq_ok, hT, Option.some.injEq] at hT'
    subst hT' hR
    cases hs
    exact .user _ (.of_tick rfl rfl Point.noConfusion (settled_sysReturn hset _))
  · rw [hT, Option.some.injEq] at hT'
    subst hT'
    have hu := ho.linked.step_other hs hT hin
    rcases At.of_undisturbed hu (ho.step hs).linked hres with hat | hgone
    · refine .forkTail pid ⟨hat, ⟨T, hu.thread, hR⟩, fun hcur _ => ?_⟩
      rcases hu.resumed hcur with ⟨hnone, -⟩ | ⟨p, s, S, -, -, hregs, -⟩
      · rw [hres] at hnone
        cases hnone
      · rw [hregs, hR]
    · exact .gone hgone

theorem Heads.step (h : Heads k t R) (hset : Settled R) (ho : Owning k) (hn : ¬ AtUser k t)
    (hs : Kernel.step env k = .ok k') : Heads k' t R := by
  cases h with
  | user v h =>
    rcases h.step Point.noConfusion ho hn hs with h | h
    · exact .user v h
    · exact .gone h
  | yieldTail h =>
    by_cases hrun : k.currentThread = t ∧ k.control = .run .yieldTail
    · obtain ⟨rfl, hc⟩ := hrun
      have hregs := h.registers
      rw [userState_current Point.noConfusion (.inr hc), Option.some.injEq] at hregs
      rw [Kernel.step, hc] at hs
      cases hs
      -- `yield` leaves `r2` as it is
      refine .user (R 2) ?_
      rw [Registers.write_eq_self rfl, ← hregs]
      exact .of_tick rfl rfl Point.noConfusion (hregs ▸ hset.update)
    · rcases h.step Point.noConfusion ho hrun hs with h | h
      · exact .yieldTail h
      · exact .gone h
  | joinLoop pid c h =>
    by_cases hrun : k.currentThread = t ∧ k.control = .run (.joinLoop pid c)
    · obtain ⟨rfl, hc⟩ := hrun
      have hregs := h.registers
      rw [userState_current Point.noConfusion (.inr hc), Option.some.injEq] at hregs
      subst hregs
      rw [Kernel.step, hc] at hs
      rcases joinLoop_cases hs with ⟨x, -, hy⟩ | ⟨-, cur, -, rfl⟩
      · exact .joinLoop pid c (.of_yield ho.linked Point.noConfusion hset hy)
      · exact .user _ (.of_tick rfl rfl Point.noConfusion (settled_sysReturn hset _))
    · rcases h.step Point.noConfusion ho hrun hs with h | h
      · exact .joinLoop pid c h
      · exact .gone h
  | forkTail pid h => exact h.step hset ho hs
  | gone h => exact .gone (h.step ho hs)

theorem Heads.run {envs : List Env} (h : Heads k t R) (hset : Settled R) (ho : Owning k)
    (hfirst : Throughout (fun _ u => ¬ AtUser u t) k envs) (hrun : k.runFrom envs = some k') :
    Owning k' ∧ Heads k' t R := by
  refine run_invariant_along (I := fun k => Owning k ∧ Heads k t R) (fun env k k' hk hG hs => ?_)
    ⟨ho, h⟩ hfirst hrun
  have hs' := toOption_eq_some.mp hs
  exact ⟨hk.1.step hs', hk.2.step hset hk.1 hG hs'⟩

/-! ## The system calls -/

theorem exit_heads {cur : Process} (ho : Owning k) (hcur : k.process k.currentThread = .ok cur)
    (h : k.exit = .ok k') : Heads k' k.currentThread R := by
  have hgone := (exit_ends hcur h).gone ho (ho.exit h)
  rw [ho.linked.process_eq List.mem_cons_self hcur] at hgone
  exact .gone hgone

theorem kill_heads (ho : Owning k) (hset : Settled k.registers) (h : k.kill = .ok k') :
    Heads k' k.currentThread k.registers := by
  obtain ⟨cur, hcur, rfl | ⟨-, he⟩ | ⟨p, P, T, s, S, k₁, -, -, hP, -, -, -, htear, rfl⟩⟩ := kill_cases h
  · exact .user _ (.of_tick rfl rfl Point.noConfusion (settled_sysReturn hset _))
  · exact exit_heads ho hcur he
  · obtain ⟨i, b, pcbs', -, -, -, -, rfl⟩ := tearDown_spec hP htear
    exact .user _ (.of_tick rfl rfl Point.noConfusion (settled_sysReturn hset _))

theorem join_heads (hset : Settled k.registers) (h : k.join = .ok k') :
    Heads k' k.currentThread k.registers := by
  obtain ⟨cur, -, rfl | ⟨c, -, -, -, rfl⟩⟩ := join_cases h
  · exact .user _ (.of_tick rfl rfl Point.noConfusion (settled_sysReturn hset _))
  · exact .joinLoop _ c (.of_run rfl rfl Point.noConfusion hset)

/-- An `Exec` that returns -1. -/
theorem exec_heads (hset : Settled k.registers) (h : k.exec env = .ok k')
    (hret : k'.registers 2 ≠ 1) : Heads k' k.currentThread k.registers := by
  obtain ⟨cur, S, r, -, -, ⟨-, rfl⟩ | ⟨vm, mem, -, rfl⟩⟩ := exec_cases h
  · exact .user _ (.of_tick rfl rfl Point.noConfusion (settled_sysReturn hset _))
  · exact absurd rfl hret

/-- The system call is a `Fork` for which there are frames and a PID. -/
def Splits (e : Kernel) : Prop :=
  (e.registers 2).toNat = 9 ∧ ∃ cur, e.process e.currentThread = .ok cur ∧
    cur.space.numPages ≤ e.virtMem.numClear ∧ 0 < e.pids.numClear

/-- The state after it: the registers of the child are in the machine, those of the
parent in its thread, and a thread is ready. -/
structure Split (k k' : Kernel) : Prop where
  splits : Splits k
  current : k'.currentThread = k.currentThread
  control : ∃ pid, k'.control = .tick (.forkTail pid)
  registers : k'.registers = childRegisters k.registers
  ready : k'.readyList ≠ []
  saved : ∃ T, k'.threads k.currentThread = some T ∧ T.userRegisters = k.registers

theorem fork_heads (ho : Owning k) (hset : Settled k.registers) (hcode : (k.registers 2).toNat = 9)
    (h : k.fork env = .ok k') :
    (¬ Splits k ∧ Heads k' k.currentThread k.registers) ∨ Split k k' := by
  have hsaved := (fork_keeps h (ho.linked.lt_nextId (ho.linked.threads_ne_none List.mem_cons_self))).current
  obtain ⟨cur, hcur, ⟨hcopy, rfl⟩ | ⟨S, vm, mem, hcopy, ⟨hall, rfl⟩ | ⟨i, hi, hm, -, rfl⟩⟩⟩ :=
    fork_cases h
  · refine .inl ⟨?_, .user _ (.of_tick rfl rfl Point.noConfusion (settled_sysReturn hset _))⟩
    rintro ⟨-, cur', hcur', hroom, -⟩
    rw [hcur] at hcur'
    cases hcur'
    rw [AddrSpace.copy, if_neg (Nat.not_lt.mpr hroom)] at hcopy
    cases hcopy
  · refine .inl ⟨?_, .user _ (.of_tick rfl rfl Point.noConfusion (settled_sysReturn hset _))⟩
    rintro ⟨-, -, -, -, hpid⟩
    have := k.pids.numClear_add_card
    rw [hall, Finset.card_range] at this
    omega
  · obtain ⟨-, -, hS, -, -⟩ := process_spec hcur
    have hroom := (AddrSpace.copy_spec ho.frames.numBits (ho.frames.length _ _ hS) hcopy).1
    have hpid : 0 < k.pids.numClear := by
      by_contra hzero
      have hcard := k.pids.numClear_add_card
      have hfull := Finset.eq_of_subset_of_card_le k.pids.marked_subset
        (by rw [Finset.card_range]; omega)
      rw [hfull, Finset.mem_range] at hm
      exact hm hi
    obtain ⟨T, -, hT⟩ := hsaved
    exact .inr ⟨⟨hcode, cur, hcur, hroom, hpid⟩, rfl, ⟨i, rfl⟩, rfl,
      List.append_ne_nil_of_right_ne_nil _ (List.cons_ne_nil _ _), _, hT, rfl⟩

/-- Every system call but the five that do nothing. -/
theorem syscall_heads (ho : Owning k) (hset : Settled k.registers)
    (hcode : (k.registers 2).toNat ∉ [4, 5, 6, 7, 8])
    (hexec : (k.registers 2).toNat = 2 → k'.registers 2 ≠ 1) (h : k.syscall env = .ok k') :
    (¬ Splits k ∧ Heads k' k.currentThread k.registers) ∨ Split k k' := by
  have other : ∀ {n}, (k.registers 2).toNat = n → n ≠ 9 → ¬ Splits k := by
    rintro n rfl hn hs
    exact hn hs.1
  rcases syscall_cases h with ⟨hc, h⟩ | ⟨hc, h⟩ | ⟨hc, h⟩ | ⟨hc, -⟩ |
      ⟨hc, h⟩ | ⟨hc, h⟩ | ⟨hc, h⟩
  · obtain ⟨cur, hcur⟩ := ho.current_ok
    exact .inl ⟨other hc (by decide), exit_heads ho hcur h⟩
  · exact .inl ⟨other hc (by decide), exec_heads hset h (hexec hc)⟩
  · exact .inl ⟨other hc (by decide), join_heads hset h⟩
  · exact absurd hc hcode
  · exact fork_heads ho hset hc h
  · exact .inl ⟨other hc (by decide), .yieldTail (.of_yield ho.linked Point.noConfusion hset h)⟩
  · exact .inl ⟨other hc (by decide), kill_heads ho hset h⟩

/-- The first tick of the rest of the run comes with a timer interrupt. -/
def Interrupted (envs : List Env) : Prop := ∃ env ∈ envs.head?, env.timer = true

/-- The tick in `Thread::Fork`. An interrupt saves the registers of the child for the
parent. -/
theorem Split.step (h : Split k k') (ho' : Owning k') (hset : Settled k.registers) {u : Kernel}
    (hs : Kernel.step env k' = .ok u) :
    Heads u k.currentThread (if env.timer then childRegisters k.registers else k.registers) := by
  obtain ⟨pid, hc⟩ := h.control
  obtain ⟨T, hT, hregs⟩ := h.saved
  rw [Kernel.step, hc] at hs
  change k'.oneTick env (.forkTail pid) = .ok u at hs
  have hat := h.current ▸ (oneTick_current ho'.linked hs).1
  have hset' : Settled k'.registers := h.registers ▸ settled_childRegisters hset
  rcases oneTick_cases ho'.linked hset' hs with
    ⟨htimer, rfl⟩ | ⟨-, hnil, -⟩ | ⟨htimer, -, hne, U, hU, -, hURegs⟩
  · rw [htimer]
    exact .forkTail pid ⟨hat, ⟨T, hT, hregs⟩, fun _ hc' => by cases hc'⟩
  · exact absurd hnil h.ready
  · rw [htimer, if_pos rfl, ← h.registers]
    rw [h.current] at hne hU
    exact .forkTail pid ⟨hat, ⟨U, hU, hURegs⟩, fun hcur => absurd hcur hne⟩

/-! ## Advancing -/

/-- A system call in a run: the thread that runs in `k` traps with it, `e` is the state
in which the handler finds the kernel, and `k'` the first one after it in which the
thread is at a user instruction again. It is not an `Exec` that succeeds. -/
structure Returns (b : Boot) (envs : List Env) (env : Env) (envs' : List Env) (k e k' : Kernel) :
    Prop where
  run : runs b envs = some k
  entry : k.syscallEntry = some e
  back : ∃ k₁, Kernel.step env k = .ok k₁ ∧ ((e.registers 2).toNat = 2 → k₁.registers 2 ≠ 1) ∧
    Throughout (fun _ u => ¬ AtUser u k.currentThread) k₁ envs' ∧ k₁.runFrom envs' = some k'
  user : AtUser k' k.currentThread

/-- The program counters are one instruction on, and the general registers but `r2` are
as the pending load leaves them. -/
structure Advances (k k' : Kernel) : Prop where
  pc : k'.registers pcReg = k.registers nextPCReg
  nextPC : k'.registers nextPCReg = k.registers nextPCReg + 4
  general : ∃ r, k.registers.delayedLoad 0 0 = .ok r ∧
    ∀ i : Fin 40, i.val < 32 → i ≠ 2 → k'.registers i = r i

/-- The system call does something, and the handler goes to the next instruction: the one
behind the call, or, for a `Fork` that is interrupted, the one behind the address where
the child starts. -/
structure Straight (envs' : List Env) (k e : Kernel) : Prop where
  code : (e.registers 2).toNat ∉ [4, 5, 6, 7, 8]
  next : ¬ (Splits e ∧ Interrupted envs') → k.registers nextPCReg = k.registers pcReg + 4
  interrupted : Splits e → Interrupted envs' → k.registers nextPCReg = e.registers 4 + 4

theorem sysReturn_general (v : BitVec 32) {i : Fin 40} (hi : i.val < 32) (h2 : i ≠ 2) :
    (R.write 2 v).update i = R i := by
  have hne : ∀ j : Fin 40, 32 ≤ j.val → i ≠ j := by
    rintro j hj rfl
    omega
  rw [Registers.update, Registers.write_of_ne _ (hne _ (by decide)),
    Registers.write_of_ne _ (hne _ (by decide)), Registers.write_of_ne _ (hne _ (by decide)),
    Registers.write_of_ne _ h2]

theorem add_four_inj {x y : BitVec 32} : x + 4 = y + 4 ↔ x = y := BitVec.add_left_inj 4

/-- Coming back with the registers `R`. -/
theorem advances_of_registers {r : Registers} {v : BitVec 32}
    (hr : k.registers.delayedLoad 0 0 = .ok r) (hR : ∀ i : Fin 40, i.val < 32 → R i = r i)
    (h : k'.registers = (R.write 2 v).update) :
    Advances k k' ↔ R pcReg + 4 = k.registers nextPCReg ∧ R nextPCReg = k.registers nextPCReg := by
  have hpc : k'.registers pcReg = R pcReg + 4 := by
    rw [h]
    rfl
  have hnext : k'.registers nextPCReg = R nextPCReg + 4 := by
    rw [h]
    rfl
  constructor
  · intro ha
    exact ⟨hpc ▸ ha.pc, add_four_inj.mp (hnext ▸ ha.nextPC)⟩
  · rintro ⟨h₁, h₂⟩
    refine ⟨hpc.trans h₁, by rw [hnext, h₂], r, hr, fun i hi hi2 => ?_⟩
    rw [h, sysReturn_general v hi hi2, hR i hi]

/-- A thread that comes back from a system call, other than the five that do nothing, has
the registers of the call, or those of the child if it was interrupted in `Fork`. -/
theorem Returns.registers {b : Boot} {envs envs' : List Env} (h : Returns b envs env envs' k e k')
    (hcode : (e.registers 2).toNat ∉ [4, 5, 6, 7, 8]) :
    ∃ R v, k'.registers = (R.write 2 v).update ∧
      ((¬ (Splits e ∧ Interrupted envs') ∧ R = e.registers) ∨
        (Splits e ∧ Interrupted envs' ∧ R = childRegisters e.registers)) := by
  obtain ⟨k₁, hs, hexec, hfirst, hrun⟩ := h.back
  obtain ⟨-, -, hu, hset⟩ := syscallEntry_spec h.entry
  have ho : Owning k := .run h.run
  have ho₁ : Owning k₁ := ho.step hs
  have hcur : e.currentThread = k.currentThread := by
    obtain ⟨r, mem, spaces, c, rfl⟩ := hu.rest
    rfl
  -- from a state on the way, with registers `R`, the thread comes back with `R`
  have hback : ∀ {u : Kernel} {envs : List Env} {R : Registers}, Owning u → Settled R →
      Heads u k.currentThread R → Throughout (fun _ u => ¬ AtUser u k.currentThread) u envs →
      u.runFrom envs = some k' → ∃ v, k'.registers = (R.write 2 v).update := by
    intro u envs R hou hsetR hheads hfirst hrun
    obtain ⟨ho', hheads'⟩ := hheads.run hsetR hou hfirst hrun
    exact hheads'.registers_of_atUser ho'.linked h.user
  rcases syscall_heads (hu.quiet.owning ho) hset hcode hexec
    (step_of_syscallEntry env h.entry ▸ hs) with ⟨hsplits, hheads⟩ | hsplit
  · obtain ⟨v, hv⟩ := hback ho₁ hset (hcur ▸ hheads) hfirst hrun
    exact ⟨_, v, hv, .inl ⟨fun hs => hsplits hs.1, rfl⟩⟩
  · cases envs' with
    | nil =>
      -- the thread is still in `fork`
      cases hrun
      obtain ⟨pid, hc⟩ := hsplit.control
      rw [h.user.2] at hc
      cases hc
    | cons env₁ rest =>
      obtain ⟨u, hu₁, hrun⟩ := run_cons_eq_some.mp hrun
      have hstep := toOption_eq_some.mp hu₁
      have hheads := hsplit.step ho₁ hset hstep
      rw [hcur] at hheads
      have hrest := hfirst.2 u hu₁
      split at hheads
      · rename_i htimer
        obtain ⟨v, hv⟩ := hback (ho₁.step hstep) (settled_childRegisters hset) hheads hrest hrun
        exact ⟨_, v, hv, .inr ⟨hsplit.splits, ⟨env₁, rfl, htimer⟩, rfl⟩⟩
      · rename_i htimer
        obtain ⟨v, hv⟩ := hback (ho₁.step hstep) hset hheads hrest hrun
        refine ⟨_, v, hv, .inl ⟨?_, rfl⟩⟩
        rintro ⟨-, env', henv', htimer'⟩
        cases henv'
        exact htimer htimer'

/-- The five that do nothing leave the registers as they are. -/
theorem Returns.registers_of_nothing {b : Boot} {envs envs' : List Env}
    (h : Returns b envs env envs' k e k') (hcode : (e.registers 2).toNat ∈ [4, 5, 6, 7, 8]) :
    k'.registers = e.registers := by
  obtain ⟨k₁, hs, -, hfirst, hrun⟩ := h.back
  obtain ⟨-, -, hu, hset⟩ := syscallEntry_spec h.entry
  have ho : Owning k := .run h.run
  have hk₁ : k₁ = { e with control := .tick .user } := by
    rw [step_of_syscallEntry env h.entry, syscall] at hs
    simp only [List.mem_cons, List.not_mem_nil, or_false] at hcode
    rcases hcode with hc | hc | hc | hc | hc <;> rw [hc] at hs <;> cases hs <;> rfl
  have hcur : k₁.currentThread = k.currentThread := by
    obtain ⟨r, mem, spaces, c, rfl⟩ := hu.rest
    rw [hk₁]
  have hpark : Parked k₁ k.currentThread .user k₁.registers :=
    .of_tick hcur (by rw [hk₁]) Point.noConfusion (by rw [hk₁]; exact hset)
  rw [Parked.registers_of_atUser (hpark.run (ho.step hs) hfirst hrun) h.user, hk₁]

/-- A system call advances by one instruction exactly if it is `Straight`. -/
theorem advances_iff {b : Boot} {envs envs' : List Env} (h : Returns b envs env envs' k e k') :
    Advances k k' ↔ Straight envs' k e := by
  have hload : Loading k := .run h.run
  obtain ⟨r, hr, hregs⟩ := syscallEntry_registers hload h.entry
  have hpc : e.registers pcReg = k.registers pcReg := by
    rw [hregs _ (by decide), hload.machine.delayedLoad hr (by decide) (by decide) (by decide)]
  have hnext : e.registers nextPCReg = k.registers nextPCReg := by
    rw [hregs _ (by decide), hload.machine.delayedLoad hr (by decide) (by decide) (by decide)]
  have hgeneral : ∀ i : Fin 40, i.val < 32 → e.registers i = r i := by
    intro i hi
    refine hregs i ?_
    rintro rfl
    exact absurd hi (by decide)
  by_cases hcode : (e.registers 2).toNat ∈ [4, 5, 6, 7, 8]
  · refine ⟨fun ha => ?_, fun hs => absurd hcode hs.code⟩
    have hn := ha.nextPC
    rw [h.registers_of_nothing hcode, hnext] at hn
    exact absurd hn (by bv_omega)
  · obtain ⟨R, v, hk', ⟨hnot, rfl⟩ | ⟨hsplits, hint, rfl⟩⟩ := h.registers hcode
    · rw [advances_of_registers hr hgeneral hk', hpc, hnext]
      exact ⟨fun hn => ⟨hcode, fun _ => hn.1.symm, fun hs hi => absurd ⟨hs, hi⟩ hnot⟩,
        fun hs => ⟨(hs.next hnot).symm, rfl⟩⟩
    · have hchild : ∀ i : Fin 40, i.val < 32 → childRegisters e.registers i = r i := by
        intro i hi
        have hne : ∀ j : Fin 40, 32 ≤ j.val → i ≠ j := by
          rintro j hj rfl
          omega
        rw [childRegisters, Registers.write_of_ne _ (hne _ (by decide)),
          Registers.write_of_ne _ (hne _ (by decide)), Registers.write_of_ne _ (hne _ (by decide)),
          hgeneral i hi]
      rw [advances_of_registers hr hchild hk']
      constructor
      · rintro ⟨hn, -⟩
        exact ⟨hcode, fun hnot => absurd ⟨hsplits, hint⟩ hnot, fun _ _ => hn.symm⟩
      · intro hs
        exact ⟨(hs.interrupted hsplits hint).symm, (hs.interrupted hsplits hint).symm⟩

/-! ## A program that yields -/

/-- `r2 := 10; syscall`. -/
def yieldOnce : List (BitVec 32) := [0x2402000a, 0x0000000c]

/-- The same, with the system call in the delay slot of a jump to address 16. -/
def yieldInSlot : List (BitVec 32) := [0x2402000a, 0x08000004, 0x0000000c]

/-- A program that traps after `n` steps, and is back in user mode three steps later, all
without an interrupt. -/
theorem returns_of_calm {code : List (BitVec 32)} {n : Nat} {k e k₁ k' : Kernel}
    (hk : runs (plainBoot code) (List.replicate n (plainEnv code false)) = some k)
    (he : k.syscallEntry = some e) (hs : (Kernel.step (plainEnv code false) k).toOption = some k₁)
    (hk' : k₁.runFrom (List.replicate 3 (plainEnv code false)) = some k')
    (hfirst : Throughout (fun _ u => ¬ AtUser u k.currentThread) k₁
      (List.replicate 3 (plainEnv code false)))
    (hrest : (e.registers 2).toNat ≠ 2 ∧ AtUser k' k.currentThread) :
    Returns (plainBoot code) (List.replicate n (plainEnv code false)) (plainEnv code false)
      (List.replicate 3 (plainEnv code false)) k e k' :=
  ⟨hk, he, ⟨k₁, toOption_eq_some.mp hs, fun hc => absurd hc hrest.1, hfirst, hk'⟩, hrest.2⟩

theorem advances_iff_yieldOnce :
    ∃ k e k', Returns (plainBoot yieldOnce) (List.replicate 2 (plainEnv yieldOnce false))
        (plainEnv yieldOnce false) (List.replicate 3 (plainEnv yieldOnce false)) k e k' ∧
      Advances k k' := by
  let k := (runs (plainBoot yieldOnce) (List.replicate 2 (plainEnv yieldOnce false))).get
    (by decide +kernel)
  let e := k.syscallEntry.get (by decide +kernel)
  let k₁ := (Kernel.step (plainEnv yieldOnce false) k).toOption.get (by decide +kernel)
  let k' := (k₁.runFrom (List.replicate 3 (plainEnv yieldOnce false))).get (by decide +kernel)
  have h : Returns (plainBoot yieldOnce) (List.replicate 2 (plainEnv yieldOnce false))
      (plainEnv yieldOnce false) (List.replicate 3 (plainEnv yieldOnce false)) k e k' :=
    returns_of_calm (Option.some_get _).symm (Option.some_get _).symm (Option.some_get _).symm
      (Option.some_get _).symm (of_decide_eq_true (p := Along _ _ _ _) (by decide +kernel))
      (by decide +kernel)
  refine ⟨k, e, k', h, (advances_iff h).mpr ⟨by decide +kernel, fun _ => by decide +kernel, ?_⟩⟩
  rintro - ⟨env, henv, htimer⟩
  cases henv
  cases htimer

/-- In the delay slot, the handler goes to address 12 instead of the target of the jump. -/
theorem not_advances : ¬ ∀ b envs env envs' k e k', Returns b envs env envs' k e k' →
    Advances k k' := by
  intro hall
  let k := (runs (plainBoot yieldInSlot) (List.replicate 4 (plainEnv yieldInSlot false))).get
    (by decide +kernel)
  let e := k.syscallEntry.get (by decide +kernel)
  let k₁ := (Kernel.step (plainEnv yieldInSlot false) k).toOption.get (by decide +kernel)
  let k' := (k₁.runFrom (List.replicate 3 (plainEnv yieldInSlot false))).get (by decide +kernel)
  have h : Returns (plainBoot yieldInSlot) (List.replicate 4 (plainEnv yieldInSlot false))
      (plainEnv yieldInSlot false) (List.replicate 3 (plainEnv yieldInSlot false)) k e k' :=
    returns_of_calm (Option.some_get _).symm (Option.some_get _).symm (Option.some_get _).symm
      (Option.some_get _).symm (of_decide_eq_true (p := Along _ _ _ _) (by decide +kernel))
      (by decide +kernel)
  have hne : k'.registers pcReg ≠ k.registers nextPCReg := by decide +kernel
  exact hne (hall _ _ _ _ _ _ _ h).pc

end Nachos.Kernel
