import Nachos.Userprog.Kernel

/-!
# What the steps of the kernel do

The step function taken apart, once, for the invariants and the results about
runs.

* `step_cases`: a step is a tick, the code at a kernel point, a user
  instruction that completes, or a system call entered with `syscallEntry`;
* `dispatch_spec`, `yield_spec`, `finish_spec`: what a change of threads does;
* `tearDown_spec`: what ending a process does.
-/

namespace Nachos

open Nachos.Framework

/-! ## Registers -/

/-- No load is pending. -/
structure Settled (r : Registers) : Prop where
  zero : r 0 = 0
  load : r loadReg = 0
  value : r loadValueReg = 0

theorem Settled.of_delayedLoad {r r' : Registers} (h : r.delayedLoad 0 0 = .ok r') : Settled r' := by
  unfold Registers.delayedLoad at h
  split at h
  · cases h
    refine ⟨Registers.write_self _ _ _, ?_, ?_⟩
    · rw [Registers.write_of_ne _ (by decide), Registers.write_of_ne _ (by decide),
        Registers.write_self]
    · rw [Registers.write_of_ne _ (by decide), Registers.write_self]
  · cases h

theorem Registers.write_eq_self {r : Registers} {i : Fin 40} {v : BitVec 32} (h : r i = v) :
    r.write i v = r := by
  rw [Registers.write, ← h, Function.update_eq_self]

/-- With no load pending, an interrupt leaves the registers as they are. -/
theorem Settled.delayedLoad {r : Registers} (h : Settled r) : r.delayedLoad 0 0 = .ok r := by
  have h0 : (r loadReg).toNat = 0 := by rw [h.load]; rfl
  unfold Registers.delayedLoad
  rw [dif_pos (by omega)]
  have hz : (⟨(r loadReg).toNat, by omega⟩ : Fin 40) = 0 := Fin.ext h0
  rw [hz, Registers.write_eq_self (h.zero.trans h.value.symm), Registers.write_eq_self h.load,
    Registers.write_eq_self h.value, Registers.write_eq_self h.zero]

/-- Writing registers other than these three keeps it so. -/
theorem Settled.write {r : Registers} (h : Settled r) {i : Fin 40} (v : BitVec 32) (h0 : i ≠ 0)
    (h1 : i ≠ loadReg) (h2 : i ≠ loadValueReg) : Settled (r.write i v) :=
  ⟨by rw [Registers.write_of_ne _ h0.symm, h.zero], by rw [Registers.write_of_ne _ h1.symm, h.load],
    by rw [Registers.write_of_ne _ h2.symm, h.value]⟩

theorem Settled.update {r : Registers} (h : Settled r) : Settled r.update :=
  ((h.write _ (by decide) (by decide) (by decide)).write _ (by decide) (by decide)
    (by decide)).write _ (by decide) (by decide) (by decide)

theorem initRegisters_settled (numPages : Nat) : Settled (initRegisters numPages) :=
  ⟨rfl, rfl, rfl⟩

namespace Kernel

variable {env : Env} {k k' : Kernel}

/-! ## Entering the kernel -/

/-- The state in which `ExceptionHandler` finds the kernel, when the current
thread is at a user instruction that is a system call. -/
def syscallEntry (k : Kernel) : Option Kernel :=
  match k.control, k.pageTable with
  | .run .user, some s =>
    match k.spaces s with
    | none => none
    | some space =>
      match (k.machine space).oneInstruction with
      | .error (.exception .syscall badVAddr m) =>
        match (m.registers.write badVAddrReg badVAddr).delayedLoad 0 0 with
        | .ok r => some { k.setMachine s space m with registers := r }
        | .error _ => none
      | _ => none
  | _, _ => none

/-- What a user instruction does to the kernel, up to the tick or the handler:
it changes registers, and within the address space it runs in, use and dirty
bits and mapped bytes. -/
structure UserRun (k k₁ : Kernel) : Prop where
  rest : ∃ r mem spaces c, k₁ = { k with registers := r, mainMemory := mem, spaces := spaces, control := c }
  space : ∃ s S S', k.pageTable = some s ∧ k.spaces s = some S ∧
    k₁.spaces = Function.update k.spaces s (some S') ∧ S'.pcb = S.pcb ∧ S'.numPages = S.numPages ∧
    S'.pageTable.map TranslationEntry.mapping = S.pageTable.map TranslationEntry.mapping ∧
    ∀ x, ¬ Maps S.pageTable x → k₁.mainMemory x = k.mainMemory x

theorem setMachine_userRun {s : Nat} {space : AddrSpace} {m : Machine} (hp : k.pageTable = some s)
    (hs : k.spaces s = some space) (hm : SameMapping (k.machine space) m) (r : Registers)
    (c : Control) :
    UserRun k { k.setMachine s space m with registers := r, control := c } where
  rest := ⟨r, m.mainMemory, Function.update k.spaces s (some { space with pageTable := m.pageTable }),
    c, rfl⟩
  space := ⟨s, space, { space with pageTable := m.pageTable }, hp, hs, rfl, rfl, rfl, hm.table,
    hm.memory⟩

/-- Every system call is entered with no load pending. -/
theorem syscallEntry_spec {k₁ : Kernel} (h : k.syscallEntry = some k₁) :
    k.control = .run .user ∧ k₁.control = .run .user ∧ UserRun k k₁ ∧ Settled k₁.registers := by
  unfold syscallEntry at h
  split at h
  · rename_i s hc hp
    split at h
    · cases h
    · rename_i space hs
      split at h
      · rename_i badVAddr m hi
        split at h
        · rename_i r hr
          cases h
          have hm := ((k.machine space).oneInstruction_sameMapping.exception _ _ _ hi).1
          have := setMachine_userRun hp hs hm r k.control
          exact ⟨hc, hc, this, .of_delayedLoad hr⟩
        · cases h
      · cases h
  · cases h

/-- The four kinds of steps. -/
theorem step_cases (h : step env k = .ok k') :
    (∃ p, k.control = .tick p ∧ k.oneTick env p = .ok k') ∨
    (∃ p, p ≠ .user ∧ k.control = .run p ∧ k.runPoint env p = .ok k') ∨
    (k.control = .run .user ∧ k'.control = .tick .user ∧ UserRun k k') ∨
    (∃ k₁, k.syscallEntry = some k₁ ∧ k₁.syscall env = .ok k') := by
  unfold step at h
  cases hc : k.control with
  | tick p => rw [hc] at h; exact .inl ⟨p, rfl, h⟩
  | run p =>
    rw [hc] at h
    by_cases hp : p = .user
    · subst hp
      change k.userInstruction env = .ok k' at h
      unfold userInstruction at h
      obtain ⟨_, -, h⟩ := bind_eq_ok.mp h
      obtain ⟨s, hs, h⟩ := bind_eq_ok.mp h
      obtain ⟨space, hspace, h⟩ := bind_eq_ok.mp h
      rw [deref_eq_ok] at hs hspace
      have hkeeps := (k.machine space).oneInstruction_sameMapping
      split at h
      · rename_i m hm
        cases h
        exact .inr (.inr (.inl ⟨rfl, rfl, setMachine_userRun hs hspace (hkeeps.ok m hm) _ _⟩))
      · rename_i which badVAddr m hm
        unfold raiseException at h
        obtain ⟨r, hr, h⟩ := bind_eq_ok.mp h
        split at h
        · refine .inr (.inr (.inr ⟨{ k.setMachine s space m with registers := r }, ?_, h⟩))
          have hr' : (m.registers.write badVAddrReg badVAddr).delayedLoad 0 0 = .ok r := hr
          simp only [syscallEntry, hc, hs, hspace, hm, hr']
        · cases h
      · cases h
    · exact .inr (.inl ⟨p, hp, rfl, h⟩)

/-- A system call is the step from the state before the trap. -/
theorem step_of_syscallEntry (env : Env) {k₁ : Kernel} (h : k.syscallEntry = some k₁) :
    step env k = k₁.syscall env := by
  unfold syscallEntry at h
  split at h
  · rename_i s hc hp
    split at h
    · cases h
    · rename_i space hs
      split at h
      · rename_i badVAddr m hi
        split at h
        · rename_i r hr
          cases h
          have hr' : ((k.setMachine s space m).registers.write badVAddrReg badVAddr).delayedLoad 0 0 =
            .ok r := hr
          simp only [step, hc, runPoint, userInstruction, hp, ne_eq, reduceCtorEq, not_false_eq_true,
            assert, ite_true, deref, hs, hi, raiseException, hr', bind, Except.bind]
        · cases h
      · cases h
  · cases h

/-! ## Changing threads -/

/-- The address space of a thread. -/
def spaceOf (k : Kernel) (t : Nat) : Option Nat := (k.threads t).bind Thread.space

theorem spaceOf_setThread (k : Kernel) (t : Nat) (T : Thread) (x : Nat) :
    (k.setThread t T).spaceOf x = if x = t then T.space else k.spaceOf x := by
  unfold spaceOf setThread
  by_cases hx : x = t
  · rw [if_pos hx, hx]
    simp only [Function.update_self, Option.bind_some]
  · rw [if_neg hx]
    simp only [Function.update_of_ne hx]

/-- The result `k'` of `Scheduler::Run`. -/
structure Dispatched (k : Kernel) (nextThread : Nat) (k' : Kernel) : Prop where
  rest : ∃ r pt n ths d c, k' = { k with
    registers := r, pageTable := pt, pageTableSize := n, threads := ths, currentThread := nextThread,
    threadToBeDestroyed := d, control := c }
  destroyed : k'.threadToBeDestroyed = k.threadToBeDestroyed ∨ k'.threadToBeDestroyed = none
  /-- The registers of the thread that stops running are saved. -/
  old : ∀ T, k.threads k.currentThread = some T → k.threadToBeDestroyed ≠ some k.currentThread →
    T.space ≠ none → k'.threads k.currentThread = some { T with userRegisters := k.registers }
  other : ∀ t, t ≠ k.currentThread → k.threadToBeDestroyed ≠ some t → k'.threads t = k.threads t
  spaceOf : ∀ t, k.threadToBeDestroyed ≠ some t → k'.spaceOf t = k.spaceOf t
  fresh : ∀ t, k.threads t = none → k'.threads t = none
  /-- The thread that runs now starts, or goes on with its own registers and page table. -/
  next : ∀ N s, k.threads nextThread = some N → nextThread ≠ k.currentThread → N.space = some s →
    (N.resume = none ∧ k'.control = .tick .threadRoot) ∨
    ∃ p S, N.resume = some p ∧ k'.control = .tick p ∧ k'.registers = N.userRegisters ∧
      k'.pageTable = some s ∧ k.spaces s = some S ∧ k'.pageTableSize = S.numPages

theorem reap_spec (h : k.reap = .ok k') :
    ∃ ths, k' = { k with threads := ths, threadToBeDestroyed := none } ∧
      (∀ t, k.threadToBeDestroyed ≠ some t → ths t = k.threads t) ∧
      ∀ t, ths t = none ∨ ths t = k.threads t := by
  unfold reap at h
  split at h
  · rename_i hd
    cases h
    exact ⟨k.threads, by rw [← hd], fun _ _ => rfl, fun _ => .inr rfl⟩
  · rename_i d hd
    obtain ⟨_, -, h⟩ := bind_eq_ok.mp h
    obtain ⟨_, -, h⟩ := bind_eq_ok.mp h
    cases h
    refine ⟨_, rfl, fun t ht => ?_, fun t => ?_⟩
    · exact Function.update_of_ne (fun hne => ht (by rw [hd, hne])) _ _
    · by_cases htd : t = d
      · exact .inl (by rw [htd, Function.update_self])
      · exact .inr (Function.update_of_ne htd _ _)

/-- What of a thread decides where it goes on. -/
def Thread.place (T : Thread) : Option Nat × Option Point := (T.space, T.resume)

/-- The threads when `Scheduler::Run` has saved the registers of the old one, which is `T`. -/
structure Saves (k : Kernel) (T : Thread) (ths : Nat → Option Thread) : Prop where
  old : T.space ≠ none → ths k.currentThread = some { T with userRegisters := k.registers }
  other : ∀ t, t ≠ k.currentThread → ths t = k.threads t
  place : ∀ t, (ths t).map Thread.place = (k.threads t).map Thread.place

theorem saves_spec {T : Thread} (hT : k.threads k.currentThread = some T) :
    ∃ ths, (if T.space.isSome then k.setThread k.currentThread
      { T with userRegisters := k.registers } else k) = { k with threads := ths } ∧
      Saves k T ths := by
  by_cases hs : T.space.isSome
  · rw [if_pos hs]
    refine ⟨_, rfl, fun _ => Function.update_self _ _ _, fun t ht => Function.update_of_ne ht _ _,
      fun t => ?_⟩
    by_cases ht : t = k.currentThread
    · rw [ht, hT, Function.update_self]
      rfl
    · rw [Function.update_of_ne ht]
  · rw [if_neg hs]
    exact ⟨_, rfl, fun hs' => absurd (Option.isSome_iff_ne_none.mpr hs') hs, fun _ _ => rfl,
      fun _ => rfl⟩

section

variable {T : Thread} {ths : Nat → Option Thread} {t : Nat}

theorem Saves.fresh (h : Saves k T ths) (ht : k.threads t = none) : ths t = none := by
  have hplace := h.place t
  rw [ht, Option.map_none, Option.map_eq_none_iff] at hplace
  exact hplace

theorem Saves.spaceOf (h : Saves k T ths) : (ths t).bind Thread.space = k.spaceOf t := by
  have hspace (x : Option Thread) : x.bind Thread.space = (x.map Thread.place).bind Prod.fst := by
    cases x <;> rfl
  rw [hspace, h.place, ← hspace, Kernel.spaceOf]

end

theorem dispatch_spec {nextThread : Nat} (h : k.dispatch nextThread = .ok k') :
    Dispatched k nextThread k' := by
  unfold dispatch at h
  obtain ⟨T, hT, h⟩ := bind_eq_ok.mp h
  rw [deref_eq_ok] at hT
  obtain ⟨ths, hths, hsaves⟩ := saves_spec hT
  rw [hths] at h
  obtain ⟨N, hN, h⟩ := bind_eq_ok.mp h
  rw [deref_eq_ok] at hN
  have hnext : ∀ N', k.threads nextThread = some N' → nextThread ≠ k.currentThread → N' = N := by
    intro N' hN' hne
    have hN : ths nextThread = some N := hN
    rw [hsaves.other _ hne, hN'] at hN
    exact Option.some.inj hN
  have hold : ∀ T', k.threads k.currentThread = some T' → T'.space ≠ none →
      ths k.currentThread = some { T' with userRegisters := k.registers } := by
    intro T' hT' hs
    obtain rfl := Option.some.inj (hT.symm.trans hT')
    exact hsaves.old hs
  dsimp only at h
  split at h
  · rename_i hres
    cases h
    refine ⟨⟨_, _, _, ths, _, _, rfl⟩, .inl rfl, fun T' hT' _ => hold T' hT',
      fun t ht _ => hsaves.other t ht, fun t _ => hsaves.spaceOf, fun t => hsaves.fresh,
      fun N' s hN' hne _ => ?_⟩
    exact .inl ⟨hnext N' hN' hne ▸ hres, rfl⟩
  · rename_i p hres
    obtain ⟨k₂, hreap, h⟩ := bind_eq_ok.mp h
    obtain ⟨ths', rfl, hkeep, hgone⟩ := reap_spec hreap
    have hfresh : ∀ t, k.threads t = none → ths' t = none := fun t ht =>
      (hgone t).elim id fun hsame => hsame.trans (hsaves.fresh ht)
    have hspace : ∀ t, k.threadToBeDestroyed ≠ some t →
        (ths' t).bind Thread.space = k.spaceOf t := fun t hd =>
      (congrArg (Option.bind · Thread.space) (hkeep t hd)).trans hsaves.spaceOf
    split at h
    · rename_i hnone
      cases h
      refine ⟨⟨_, _, _, ths', _, _, rfl⟩, .inr rfl,
        fun T' hT' hd hs => (hkeep _ hd).trans (hold T' hT' hs),
        fun t ht hd => (hkeep t hd).trans (hsaves.other t ht), hspace, hfresh,
        fun N' s hN' hne hs => ?_⟩
      rw [hnext N' hN' hne, hnone] at hs
      cases hs
    · rename_i s hsome
      obtain ⟨S, hS, h⟩ := bind_eq_ok.mp h
      rw [deref_eq_ok] at hS
      cases h
      refine ⟨⟨_, _, _, ths', _, _, rfl⟩, .inr rfl,
        fun T' hT' hd hs => (hkeep _ hd).trans (hold T' hT' hs),
        fun t ht hd => (hkeep t hd).trans (hsaves.other t ht), hspace, hfresh,
        fun N' s' hN' hne hs => ?_⟩
      obtain rfl := hnext N' hN' hne
      rw [hs] at hsome
      cases hsome
      exact .inr ⟨p, S, hres, rfl, rfl, rfl, hS, rfl⟩

/-- `Thread::Yield` does nothing but tick when no other thread is ready; else
the thread goes to the end of the ready list and the first one runs. -/
theorem yield_spec {p : Point} (h : k.yield p = .ok k') :
    (k.readyList = [] ∧ k' = { k with control := .tick p }) ∨
    ∃ n rest T, k.readyList = n :: rest ∧ k.threads k.currentThread = some T ∧
      Dispatched ({ k with readyList := rest ++ [k.currentThread], lastDeleted := false }.setThread
        k.currentThread { T with resume := some p }) n k' := by
  unfold yield at h
  split at h
  · rename_i hr
    cases h
    exact .inl ⟨hr, rfl⟩
  · rename_i n rest hr
    obtain ⟨_, -, h⟩ := bind_eq_ok.mp h
    obtain ⟨T, hT, h⟩ := bind_eq_ok.mp h
    exact .inr ⟨n, rest, T, hr, deref_eq_ok.mp hT, dispatch_spec h⟩

theorem finish_spec (h : k.finish = .ok k') :
    ∃ n rest, k.readyList = n :: rest ∧ Dispatched
      { k with threadToBeDestroyed := some k.currentThread, readyList := rest } n k' := by
  unfold finish at h
  split at h
  · cases h
  · rename_i n rest hr
    exact ⟨n, rest, hr, dispatch_spec h⟩

/-! ## Steps that neither start nor end a process -/

/-- What decides where an address space leads: its process, its size, its
mapping. -/
def shape (S : AddrSpace) : Option Nat × Nat × List (BitVec 32 × Bool × Bool) :=
  (S.pcb, S.numPages, S.pageTable.map TranslationEntry.mapping)

/-- The step leaves the processes, the frames and the mappings alone: it changes
registers, memory, use and dirty bits, and who runs. -/
structure Quiet (k k' : Kernel) : Prop where
  pcbs : k'.pcbs = k.pcbs
  pcbTable : k'.pcbTable = k.pcbTable
  pids : k'.pids = k.pids
  virtMem : k'.virtMem = k.virtMem
  nextId : k'.nextId = k.nextId
  spaces : ∀ s, (k'.spaces s).map shape = (k.spaces s).map shape
  spaceOf : ∀ t, k.threadToBeDestroyed ≠ some t → k'.spaceOf t = k.spaceOf t
  fresh : ∀ t, k.threads t = none → k'.threads t = none
  perm : (k'.currentThread :: k'.readyList).Perm (k.currentThread :: k.readyList)
  destroyed : k'.threadToBeDestroyed = k.threadToBeDestroyed ∨ k'.threadToBeDestroyed = none

theorem Quiet.of_registers (r : Registers) (pt : Option Nat) (n : Nat) (c : Control) :
    Quiet k { k with registers := r, pageTable := pt, pageTableSize := n, control := c } :=
  ⟨rfl, rfl, rfl, rfl, rfl, fun _ => rfl, fun _ _ => rfl, fun _ h => h, .refl _, .inl rfl⟩

theorem UserRun.quiet (h : UserRun k k') : Quiet k k' := by
  obtain ⟨⟨r, mem, spaces, c, rfl⟩, s, S, S', -, hS, hset, hpcb, hnum, hmap, -⟩ := h
  refine ⟨rfl, rfl, rfl, rfl, rfl, fun s' => ?_, fun _ _ => rfl, fun _ h => h, .refl _, .inl rfl⟩
  have hset' : spaces = Function.update k.spaces s (some S') := hset
  subst hset'
  by_cases hs : s' = s
  · subst hs
    simp only [Function.update_self, hS, Option.map_some, shape, hpcb, hnum, hmap]
  · simp only [Function.update_of_ne hs]

theorem yield_quiet {p : Point} (h : k.yield p = .ok k') : Quiet k k' := by
  rcases yield_spec h with ⟨-, rfl⟩ | ⟨n, rest, T, hr, hT, hd⟩
  · exact .of_registers _ _ _ _
  · have hspace : ∀ t, (({ k with readyList := rest ++ [k.currentThread], lastDeleted := false }.setThread
        k.currentThread { T with resume := some p }).spaceOf t) = k.spaceOf t := by
      intro t
      rw [spaceOf_setThread]
      split
      · rename_i ht
        rw [ht, Kernel.spaceOf, hT, Option.bind_some]
      · rfl
    have hfresh : ∀ t, k.threads t = none → k'.threads t = none := by
      intro t ht
      have hne : t ≠ k.currentThread := fun heq => by rw [heq, hT] at ht; cases ht
      exact hd.fresh t ((Function.update_of_ne hne _ _).trans ht)
    have hspaceOf : ∀ t, k.threadToBeDestroyed ≠ some t → k'.spaceOf t = k.spaceOf t :=
      fun t ht => (hd.spaceOf t ht).trans (hspace t)
    have hdest := hd.destroyed
    obtain ⟨r, pt, m, ths, d, c, rfl⟩ := hd.rest
    refine ⟨rfl, rfl, rfl, rfl, rfl, fun _ => rfl, hspaceOf, hfresh, ?_, hdest⟩
    rw [hr]
    exact List.perm_append_singleton k.currentThread (n :: rest)

theorem oneTick_quiet {p : Point} (h : k.oneTick env p = .ok k') : Quiet k k' := by
  unfold oneTick at h
  split at h
  · obtain ⟨r, -, h⟩ := bind_eq_ok.mp h
    have hy := yield_quiet h
    exact ⟨hy.pcbs, hy.pcbTable, hy.pids, hy.virtMem, hy.nextId, hy.spaces, hy.spaceOf, hy.fresh,
      hy.perm, hy.destroyed⟩
  · cases h
    exact .of_registers _ _ _ _

/-- A round of the loop of `join` yields while the PID is in use, and else
returns the exit value. -/
theorem joinLoop_cases {pid : Int} {c : Nat} (h : k.joinLoop pid c = .ok k') :
    (∃ x, k.getProcess pid = .ok (some x) ∧ k.yield (.joinLoop pid c) = .ok k') ∨
    (k.getProcess pid = .ok none ∧ ∃ cur, k.process k.currentThread = .ok cur ∧
      k' = k.sysReturn cur.pcb.childExitValue) := by
  unfold joinLoop at h
  obtain ⟨r, hr, h⟩ := bind_eq_ok.mp h
  split at h
  · exact .inl ⟨_, hr, h⟩
  · obtain ⟨cur, hcur, h⟩ := bind_eq_ok.mp h
    cases h
    exact .inr ⟨hr, cur, hcur, rfl⟩

theorem joinLoop_quiet {pid : Int} {c : Nat} (h : k.joinLoop pid c = .ok k') : Quiet k k' := by
  rcases joinLoop_cases h with ⟨x, -, hy⟩ | ⟨-, cur, -, rfl⟩
  · exact yield_quiet hy
  · exact .of_registers _ _ _ _

theorem runPoint_quiet {p : Point} (hp : p ≠ .user) (h : k.runPoint env p = .ok k') :
    Quiet k k' := by
  cases p with
  | user => exact absurd rfl hp
  | yieldTail =>
    cases h
    exact .of_registers _ _ _ _
  | joinLoop pid c => exact joinLoop_quiet h
  | forkTail pid =>
    obtain ⟨T, -, h⟩ := bind_eq_ok.mp h
    cases h
    exact .of_registers _ _ _ _
  | threadRoot =>
    obtain ⟨T, -, h⟩ := bind_eq_ok.mp h
    obtain ⟨s, -, h⟩ := bind_eq_ok.mp h
    obtain ⟨S, -, h⟩ := bind_eq_ok.mp h
    cases h
    exact .of_registers _ _ _ _

/-- `join` returns -1 at once, or waits for a child. -/
theorem join_cases (h : k.join = .ok k') :
    ∃ cur, k.process k.currentThread = .ok cur ∧
      (k' = k.sysReturn (-1) ∨
        ∃ c, 0 ≤ (k.registers 4).toInt ∧ k.getProcess (k.registers 4).toInt = .ok (some c) ∧
          c ∈ cur.pcb.children ∧
          k' = { k with control := .run (.joinLoop (k.registers 4).toInt c) }) := by
  unfold join at h
  obtain ⟨cur, hcur, h⟩ := bind_eq_ok.mp h
  refine ⟨cur, hcur, ?_⟩
  simp only at h
  split at h
  · cases h
    exact .inl rfl
  rename_i hpid
  obtain ⟨r, hr, h⟩ := bind_eq_ok.mp h
  split at h
  · cases h
    exact .inl rfl
  split at h
  · rename_i hc
    cases h
    exact .inr ⟨_, Int.not_lt.mp hpid, hr, hc, rfl⟩
  · cases h
    exact .inl rfl

theorem join_quiet (h : k.join = .ok k') : Quiet k k' := by
  obtain ⟨cur, -, rfl | ⟨c, -, -, -, rfl⟩⟩ := join_cases h
  · exact .of_registers _ _ _ _
  · exact .of_registers _ _ _ _

/-- The system calls by their codes. Five of them do nothing and return to the user
program. -/
theorem syscall_cases (h : k.syscall env = .ok k') :
    (k.registers 2).toNat = 1 ∧ k.exit = .ok k' ∨
    (k.registers 2).toNat = 2 ∧ k.exec env = .ok k' ∨
    (k.registers 2).toNat = 3 ∧ k.join = .ok k' ∨
    (k.registers 2).toNat ∈ [4, 5, 6, 7, 8] ∧ k' = { k with control := .tick .user } ∨
    (k.registers 2).toNat = 9 ∧ k.fork env = .ok k' ∨
    (k.registers 2).toNat = 10 ∧ k.yield .yieldTail = .ok k' ∨
    (k.registers 2).toNat = 11 ∧ k.kill = .ok k' := by
  have idle : ∀ {n}, (k.registers 2).toNat = n → n ∈ [4, 5, 6, 7, 8] →
      .ok { k with control := .tick .user } = (.ok k' : Except Stop Kernel) →
      (k.registers 2).toNat ∈ [4, 5, 6, 7, 8] ∧ k' = { k with control := .tick .user } := by
    rintro n rfl hn h
    cases h
    exact ⟨hn, rfl⟩
  unfold syscall at h
  split at h
  next hc => exact .inl ⟨hc, h⟩
  next hc => exact .inr (.inl ⟨hc, h⟩)
  next hc => exact .inr (.inr (.inl ⟨hc, h⟩))
  next hc => exact .inr (.inr (.inr (.inl (idle hc (by decide) h))))
  next hc => exact .inr (.inr (.inr (.inl (idle hc (by decide) h))))
  next hc => exact .inr (.inr (.inr (.inl (idle hc (by decide) h))))
  next hc => exact .inr (.inr (.inr (.inl (idle hc (by decide) h))))
  next hc => exact .inr (.inr (.inr (.inl (idle hc (by decide) h))))
  next hc => exact .inr (.inr (.inr (.inr (.inl ⟨hc, h⟩))))
  next hc => exact .inr (.inr (.inr (.inr (.inr (.inl ⟨hc, h⟩)))))
  next hc => exact .inr (.inr (.inr (.inr (.inr (.inr ⟨hc, h⟩)))))
  next => cases h

/-- A property that the quiet steps and the four system calls that change the
processes keep is kept by every step. -/
theorem step_preserves {I : Kernel → Prop} (quiet : ∀ {k k'}, Quiet k k' → I k → I k')
    (fork : ∀ {k k'}, I k → k.fork env = .ok k' → I k')
    (exec : ∀ {k k'}, I k → k.exec env = .ok k' → I k')
    (exit : ∀ {k k'}, I k → k.exit = .ok k' → I k')
    (kill : ∀ {k k'}, I k → k.kill = .ok k' → I k')
    (hI : I k) (h : step env k = .ok k') : I k' := by
  rcases step_cases h with ⟨p, -, h⟩ | ⟨p, hp, -, h⟩ | ⟨-, -, h⟩ | ⟨k₁, he, h⟩
  · exact quiet (oneTick_quiet h) hI
  · exact quiet (runPoint_quiet hp h) hI
  · exact quiet h.quiet hI
  · replace hI := quiet (syscallEntry_spec he).2.2.1.quiet hI
    rcases syscall_cases h with ⟨-, h⟩ | ⟨-, h⟩ | ⟨-, h⟩ | ⟨-, rfl⟩ |
        ⟨-, h⟩ | ⟨-, h⟩ | ⟨-, h⟩
    · exact exit hI h
    · exact exec hI h
    · exact quiet (join_quiet h) hI
    · exact quiet (.of_registers _ _ _ _) hI
    · exact fork hI h
    · exact quiet (yield_quiet h) hI
    · exact kill hI h

/-- What holds at the start and is kept by every step, in environments that meet
`G`, holds after every run. -/
theorem runs_invariant {I : Kernel → Prop} {G : Env → Prop} {b : Boot} {envs : List Env}
    (hstart : ∀ k, startProcess b.env (boot b.junk b.junkTable b.junkRegisters) b.filename = .ok k →
      I k)
    (hstep : ∀ env k k', I k → G env → step env k = .ok k' → I k') (hG : ∀ env ∈ envs, G env)
    (hruns : runs b envs = some k) : I k := by
  obtain ⟨k₀, h₀, h⟩ := Option.bind_eq_some_iff.mp hruns
  clear hruns
  replace h₀ := hstart k₀ (toOption_eq_some.mp h₀)
  induction envs generalizing k₀ with
  | nil =>
    cases h
    exact h₀
  | cons env envs ih =>
    obtain ⟨k₁, hs, h⟩ := run_cons_eq_some.mp h
    exact ih (fun e he => hG e (List.mem_cons_of_mem _ he)) k₁ h
      (hstep env k₀ k₁ h₀ (hG env List.mem_cons_self) (toOption_eq_some.mp hs))

/-! ## The system calls that change the processes -/

theorem process_spec {t : Nat} {P : Process} (h : k.process t = .ok P) :
    k.threads t = some P.thread ∧ P.thread.space = some P.spaceId ∧
      k.spaces P.spaceId = some P.space ∧ P.space.pcb = some P.pcbId ∧
      k.pcbs P.pcbId = some P.pcb := by
  unfold process at h
  obtain ⟨T, hT, h⟩ := bind_eq_ok.mp h
  obtain ⟨s, hs, h⟩ := bind_eq_ok.mp h
  obtain ⟨S, hS, h⟩ := bind_eq_ok.mp h
  obtain ⟨p, hp, h⟩ := bind_eq_ok.mp h
  obtain ⟨pcb, hpcb, h⟩ := bind_eq_ok.mp h
  cases h
  rw [deref_eq_ok] at hT hs hS hp hpcb
  exact ⟨hT, hs, hS, hp, hpcb⟩

theorem getProcess_spec {pid : Int} {r : Option Nat} (h : k.getProcess pid = .ok r) :
    ∃ i : Nat, pid = i ∧ i < k.pids.numBits ∧ r = if i ∈ k.pids.marked then k.pcbTable i else none := by
  unfold getProcess at h
  obtain ⟨v, hv, h⟩ := bind_eq_ok.mp h
  obtain ⟨i, rfl, hi, rfl⟩ := BitMap.test_spec hv
  refine ⟨i, rfl, hi, ?_⟩
  by_cases hm : i ∈ k.pids.marked
  · rw [if_pos (decide_eq_true hm)] at h
    cases h
    rw [if_pos hm]
    rfl
  · rw [if_neg (by rw [decide_eq_true_eq]; exact hm)] at h
    cases h
    rw [if_neg hm]

/-- What the end of process `p`, with `pcb`, makes of another process `x`. -/
def survivor (p : Nat) (pcb : PCB) (status : Option (BitVec 32)) (x : Nat) (P : PCB) : PCB :=
  let isParent := p ∉ pcb.children ∧ pcb.parentProcess = some x
  { P with
    parentProcess := if x ∈ pcb.children then none else P.parentProcess
    children := if isParent then P.children.erase p else P.children
    lastDeleted := if isParent then P.lastDeleted || deletesLast P.children p else P.lastDeleted
    childExitValue := if isParent then status.getD P.childExitValue else P.childExitValue }

/-- The processes after the end of process `p`, with `pcb`. -/
def Removes (p : Nat) (pcb : PCB) (status : Option (BitVec 32)) (pcbs pcbs' : Nat → Option PCB) :
    Prop :=
  ∀ x, pcbs' x = if x = p then none else (pcbs x).map (survivor p pcb status x)

section

variable {p x : Nat} {pcb X : PCB} {status : Option (BitVec 32)} {pcbs pcbs' : Nat → Option PCB}

theorem Removes.survives (h : Removes p pcb status pcbs pcbs') (hX : pcbs x = some X) (hne : x ≠ p) :
    pcbs' x = some (survivor p pcb status x X) := by
  rw [h x, if_neg hne, hX, Option.map_some]

theorem Removes.survived (h : Removes p pcb status pcbs pcbs') (hX : pcbs' x = some X) :
    ∃ X₀, pcbs x = some X₀ ∧ x ≠ p ∧ X = survivor p pcb status x X₀ := by
  rw [h x] at hX
  split at hX
  · cases hX
  · rename_i hne
    obtain ⟨X₀, hX₀, rfl⟩ := Option.map_eq_some_iff.mp hX
    exact ⟨X₀, hX₀, hne, rfl⟩

end

theorem nullParent_foldlM {cs : List Nat} {pcbs pcbs' : Nat → Option PCB}
    (h : cs.foldlM nullParent pcbs = .ok pcbs') (x : Nat) :
    pcbs' x = (pcbs x).map fun P =>
      { P with parentProcess := if x ∈ cs then none else P.parentProcess } := by
  induction cs generalizing pcbs with
  | nil =>
    cases h
    simp
  | cons c cs ih =>
    rw [List.foldlM_cons] at h
    obtain ⟨pcbs₁, hc, h⟩ := bind_eq_ok.mp h
    obtain ⟨P, hP, hc⟩ := bind_eq_ok.mp hc
    rw [deref_eq_ok] at hP
    cases hc
    rw [ih h]
    by_cases hx : x = c
    · subst hx
      simp [hP]
    · simp [hx]

theorem leaveParent_spec {pcbs pcbs' : Nat → Option PCB} {p : Nat} {status : Option (BitVec 32)}
    {parent : Option Nat} (h : leaveParent pcbs p status parent = .ok pcbs') (x : Nat) :
    pcbs' x = (pcbs x).map fun P => { P with
      children := if parent = some x then P.children.erase p else P.children
      lastDeleted := if parent = some x then P.lastDeleted || deletesLast P.children p else P.lastDeleted
      childExitValue := if parent = some x then status.getD P.childExitValue
        else P.childExitValue } := by
  unfold leaveParent at h
  split at h
  · cases h
    simp
  · rename_i q
    obtain ⟨Q, hQ, h⟩ := bind_eq_ok.mp h
    rw [deref_eq_ok] at hQ
    cases h
    by_cases hx : x = q
    · subst hx
      simp [hQ]
    · have hne : ¬ some q = some x := fun heq => hx (Option.some.inj heq).symm
      simp [Function.update_of_ne hx, hne]

/-- The process is gone from the table of PCBs, the PID and the frames are free
again, and the other processes have forgotten it. -/
theorem tearDown_spec {pid : Int} {p s : Nat} {pcb : PCB} {space : AddrSpace} {status : Option (BitVec 32)}
    (hp : k.pcbs p = some pcb) (h : k.tearDown pid p pcb s space status = .ok k') :
    ∃ (i : Nat) (b : BitMap) (pcbs' : Nat → Option PCB), pid = i ∧ i < k.pids.numBits ∧
      releasePhysicalMemory space.pageTable k.virtMem = .ok b ∧
      Removes p pcb status k.pcbs pcbs' ∧
      k' = { k with
        pcbs := pcbs'
        pcbTable := Function.update k.pcbTable i none
        pids := k.pids.clearBit i
        virtMem := b
        spaces := Function.update k.spaces s none } := by
  unfold tearDown at h
  obtain ⟨pcbs₁, hfold, h⟩ := bind_eq_ok.mp h
  have hnull := nullParent_foldlM hfold
  obtain ⟨self, hself, h⟩ := bind_eq_ok.mp h
  rw [deref_eq_ok, hnull p, hp, Option.map_some, Option.some.injEq] at hself
  obtain ⟨pcbs₂, hparent, h⟩ := bind_eq_ok.mp h
  obtain ⟨b', hclear, h⟩ := bind_eq_ok.mp h
  obtain ⟨b, hrel, h⟩ := bind_eq_ok.mp h
  obtain ⟨i, hi, hlt, rfl⟩ := BitMap.clear_spec hclear
  cases h
  refine ⟨i, b, Function.update pcbs₂ p none, hi, hlt, hrel, fun x => ?_, by rw [hi]; rfl⟩
  by_cases hx : x = p
  · rw [hx, Function.update_self, if_pos rfl]
  rw [Function.update_of_ne hx, if_neg hx, leaveParent_spec hparent, hnull, Option.map_map, ← hself]
  have hiff : (if p ∈ pcb.children then none else pcb.parentProcess) = some x ↔
      p ∉ pcb.children ∧ pcb.parentProcess = some x := by
    split <;> simp_all
  congr 1
  funext P
  simp only [Function.comp_apply, survivor, hiff]

/-- The kernel in the middle of `fork`: the copy and the thread of the new
process are there. -/
def copied (env : Env) (k : Kernel) (cur : Process) (newSpace : AddrSpace) (virtMem : BitMap)
    (mainMemory : Bytes) (pids : BitMap) : Kernel :=
  { ((k.setThread k.currentThread { cur.thread with userRegisters := k.registers }).setSpace
      k.nextId newSpace).setThread (k.nextId + 1) ⟨env.junkRegisters, some k.nextId, none⟩ with
    virtMem, mainMemory, pids, nextId := k.nextId + 3 }

/-- `fork` finds no room, or no PID, or makes a process. -/
theorem fork_cases (h : k.fork env = .ok k') :
    ∃ cur, k.process k.currentThread = .ok cur ∧
      ((cur.space.copy k.virtMem k.mainMemory = none ∧
          k' = (k.setThread k.currentThread
            { cur.thread with userRegisters := k.registers }).sysReturn (-1)) ∨
        ∃ newSpace virtMem mainMemory,
          cur.space.copy k.virtMem k.mainMemory = some (newSpace, virtMem, mainMemory) ∧
          ((k.pids.marked = Finset.range k.pids.numBits ∧
              k' = (k.copied env cur newSpace virtMem mainMemory k.pids).sysReturn (-1)) ∨
            ∃ i : Nat, i < k.pids.numBits ∧ i ∉ k.pids.marked ∧ k.pids.find.1 = i ∧
              k' = (k.copied env cur newSpace virtMem mainMemory (k.pids.markBit i)).addProcess env
                cur newSpace k.nextId (k.nextId + 1) (k.nextId + 2) i)) := by
  unfold fork at h
  obtain ⟨cur, hcur, h⟩ := bind_eq_ok.mp h
  refine ⟨cur, hcur, ?_⟩
  simp only at h
  split at h
  · rename_i hcopy
    cases h
    exact .inl ⟨hcopy, rfl⟩
  · rename_i newSpace virtMem mainMemory hcopy
    refine .inr ⟨newSpace, virtMem, mainMemory, hcopy, ?_⟩
    rcases k.pids.find_spec with ⟨i, hi, hm, -, hfind⟩ | ⟨hall, hfind⟩
    · have hfind' : (k.setThread k.currentThread
          { cur.thread with userRegisters := k.registers }).pids.find = (↑i, k.pids.markBit i) := hfind
      rw [hfind'] at h
      simp only at h
      rw [if_neg (by omega)] at h
      obtain ⟨_, -, h⟩ := bind_eq_ok.mp h
      obtain ⟨_, -, h⟩ := bind_eq_ok.mp h
      cases h
      exact .inr ⟨i, hi, hm, by rw [hfind], rfl⟩
    · have hfind' : (k.setThread k.currentThread
          { cur.thread with userRegisters := k.registers }).pids.find = (-1, k.pids) := hfind
      rw [hfind'] at h
      simp only at h
      rw [if_pos (by decide)] at h
      cases h
      exact .inl ⟨hall, rfl⟩

/-- What `fork` leaves alone: everything that was there, but for the registers
saved in the current thread. -/
structure ForkKeeps (k k' : Kernel) : Prop where
  threads : ∀ t < k.nextId, t ≠ k.currentThread → k'.threads t = k.threads t
  current : ∃ T, k.threads k.currentThread = some T ∧
    k'.threads k.currentThread = some { T with userRegisters := k.registers }
  spaces : ∀ s < k.nextId, k'.spaces s = k.spaces s
  nextId : k.nextId ≤ k'.nextId
  freshThreads : ∀ i, k'.nextId ≤ i → k'.threads i = k.threads i
  freshSpaces : ∀ i, k'.nextId ≤ i → k'.spaces i = k.spaces i
  rest : k'.currentThread = k.currentThread ∧ k'.pageTable = k.pageTable ∧
    k'.pageTableSize = k.pageTableSize ∧ k'.threadToBeDestroyed = k.threadToBeDestroyed

theorem fork_keeps (h : k.fork env = .ok k') (hcur : k.currentThread < k.nextId) :
    ForkKeeps k k' := by
  obtain ⟨cur, hpr, hcase⟩ := fork_cases h
  have hT := (process_spec hpr).1
  rcases hcase with ⟨-, rfl⟩ | ⟨S, vm, mem, -, ⟨-, rfl⟩ | ⟨i, -, -, -, rfl⟩⟩
  · refine ⟨fun t _ hne => Function.update_of_ne hne _ _, ⟨cur.thread, hT, ?_⟩, fun _ _ => rfl,
      Nat.le_refl _, fun i hi => ?_, fun _ _ => rfl, rfl, rfl, rfl, rfl⟩
    · exact Function.update_self _ _ _
    · have hi' : k.nextId ≤ i := hi
      exact Function.update_of_ne (show i ≠ k.currentThread by omega) _ _
  · refine ⟨fun t ht hne => ?_, ⟨cur.thread, hT, ?_⟩, fun s hs => ?_, Nat.le_add_right _ 3,
      fun i hi => ?_, fun i hi => ?_, rfl, rfl, rfl, rfl⟩
    · exact (Function.update_of_ne (show t ≠ k.nextId + 1 by omega) _ _).trans
        (Function.update_of_ne hne _ _)
    · exact (Function.update_of_ne (show k.currentThread ≠ k.nextId + 1 by omega) _ _).trans
        (Function.update_self _ _ _)
    · exact Function.update_of_ne (show s ≠ k.nextId by omega) _ _
    · have hi' : k.nextId + 3 ≤ i := hi
      exact (Function.update_of_ne (show i ≠ k.nextId + 1 by omega) _ _).trans
        (Function.update_of_ne (show i ≠ k.currentThread by omega) _ _)
    · have hi' : k.nextId + 3 ≤ i := hi
      exact Function.update_of_ne (show i ≠ k.nextId by omega) _ _
  · refine ⟨fun t ht hne => ?_, ⟨cur.thread, hT, ?_⟩, fun s hs => ?_, Nat.le_add_right _ 3,
      fun i hi => ?_, fun i hi => ?_, rfl, rfl, rfl, rfl⟩
    · have h₁ : t ≠ k.nextId + 1 := by omega
      exact (Function.update_of_ne h₁ _ _).trans ((Function.update_of_ne h₁ _ _).trans
        (Function.update_of_ne hne _ _))
    · have h₁ : k.currentThread ≠ k.nextId + 1 := by omega
      exact (Function.update_of_ne h₁ _ _).trans ((Function.update_of_ne h₁ _ _).trans
        (Function.update_self _ _ _))
    · have h₁ : s ≠ k.nextId := by omega
      exact (Function.update_of_ne h₁ _ _).trans (Function.update_of_ne h₁ _ _)
    · have hi' : k.nextId + 3 ≤ i := hi
      have h₁ : i ≠ k.nextId + 1 := by omega
      exact (Function.update_of_ne h₁ _ _).trans ((Function.update_of_ne h₁ _ _).trans
        (Function.update_of_ne (show i ≠ k.currentThread by omega) _ _))
    · have hi' : k.nextId + 3 ≤ i := hi
      have h₁ : i ≠ k.nextId := by omega
      exact (Function.update_of_ne h₁ _ _).trans (Function.update_of_ne h₁ _ _)

theorem ForkKeeps.spaceOf (h : ForkKeeps k k') {t : Nat} (ht : t < k.nextId) :
    k'.spaceOf t = k.spaceOf t := by
  unfold Kernel.spaceOf
  by_cases hc : t = k.currentThread
  · obtain ⟨T, hT, hT'⟩ := h.current
    rw [hc, hT, hT', Option.bind_some, Option.bind_some]
  · rw [h.threads t ht hc]

/-- The processes after `fork`: as before, or with a child of the current one,
whose thread is the last of the ready list. -/
theorem fork_processes (h : k.fork env = .ok k') :
    (k'.pcbs = k.pcbs ∧ k'.readyList = k.readyList ∧ k'.control = .tick .user ∧
      ∃ cur r, k.process k.currentThread = .ok cur ∧
        k'.registers = (r : Registers).update ∧ r = k.registers.write 2 (-1)) ∨
    ∃ cur S r, ∃ i : Nat, k.process k.currentThread = .ok cur ∧
      k'.pcbs = Function.update (Function.update k.pcbs cur.pcbId
        (some { cur.pcb with children := cur.pcb.children ++ [k.nextId + 2], lastDeleted := false }))
        (k.nextId + 2) (some ⟨k.nextId + 1, i, some cur.pcbId, [], false, env.junkExitValue⟩) ∧
      i < k.pids.numBits ∧ i ∉ k.pids.marked ∧
      k'.readyList = k.readyList ++ [k.nextId + 1] ∧ k'.control = .tick (.forkTail i) ∧
      k'.nextId = k.nextId + 3 ∧
      k'.spaces k.nextId = some S ∧ S.pcb = some (k.nextId + 2) ∧
      k'.threads (k.nextId + 1) = some ⟨r, some k.nextId, none⟩ ∧ k'.registers = r ∧
      r = ((k.registers.write pcReg (k.registers 4)).write nextPCReg (k.registers 4 + 4)).write
        prevPCReg (k.registers 4 - 4) := by
  obtain ⟨cur, hpr, hcase⟩ := fork_cases h
  rcases hcase with ⟨-, rfl⟩ | ⟨S, vm, mem, -, ⟨-, rfl⟩ | ⟨i, hi, hm, -, rfl⟩⟩
  · exact .inl ⟨rfl, rfl, rfl, cur, _, hpr, rfl, rfl⟩
  · exact .inl ⟨rfl, rfl, rfl, cur, _, hpr, rfl, rfl⟩
  · exact .inr ⟨cur, _, _, i, hpr, rfl, hi, hm, rfl, rfl, rfl, Function.update_self _ _ _, rfl,
      Function.update_self _ _ _, rfl, rfl⟩

theorem exit_cases (h : k.exit = .ok k') :
    ∃ cur k₁ n rest, k.process k.currentThread = .ok cur ∧
      k.tearDown cur.pcb.processID cur.pcbId cur.pcb cur.spaceId cur.space (some (k.registers 4)) =
        .ok k₁ ∧
      k₁.readyList = n :: rest ∧ Dispatched
        { k₁ with threadToBeDestroyed := some k₁.currentThread, readyList := rest } n k' := by
  unfold exit at h
  obtain ⟨cur, hcur, h⟩ := bind_eq_ok.mp h
  obtain ⟨k₁, htear, h⟩ := bind_eq_ok.mp h
  obtain ⟨n, rest, hr, hd⟩ := finish_spec h
  exact ⟨cur, k₁, n, rest, hcur, htear, hr, hd⟩

/-- `kill` finds no such process, or the process itself, or another one. -/
theorem kill_cases (h : k.kill = .ok k') :
    ∃ cur, k.process k.currentThread = .ok cur ∧
      (k' = k.sysReturn (-1) ∨
        ((k.registers 4).toInt = cur.pcb.processID ∧ k.exit = .ok k') ∨
        ∃ p pcb T s S k₁, k.getProcess (k.registers 4).toInt = .ok (some p) ∧
          (k.registers 4).toInt ≠ cur.pcb.processID ∧ k.pcbs p = some pcb ∧
          k.threads pcb.processThread = some T ∧ T.space = some s ∧ k.spaces s = some S ∧
          k.tearDown (k.registers 4).toInt p pcb s S none = .ok k₁ ∧
          k' = ({ k₁ with
            readyList := k₁.readyList.erase pcb.processThread
            lastDeleted := k₁.lastDeleted || deletesLast k₁.readyList pcb.processThread
            threadToBeDestroyed := some pcb.processThread }).sysReturn 0) := by
  unfold kill at h
  obtain ⟨cur, hcur, h⟩ := bind_eq_ok.mp h
  refine ⟨cur, hcur, ?_⟩
  obtain ⟨r, hr, h⟩ := bind_eq_ok.mp h
  split at h
  · cases h
    exact .inl rfl
  · rename_i p
    split at h
    · rename_i heq
      exact .inr (.inl ⟨heq, h⟩)
    · rename_i hne
      obtain ⟨pcb, hpcb, h⟩ := bind_eq_ok.mp h
      obtain ⟨T, hT, h⟩ := bind_eq_ok.mp h
      obtain ⟨s, hs, h⟩ := bind_eq_ok.mp h
      obtain ⟨S, hS, h⟩ := bind_eq_ok.mp h
      obtain ⟨k₁, htear, h⟩ := bind_eq_ok.mp h
      cases h
      rw [deref_eq_ok] at hpcb hT hs hS
      exact .inr (.inr ⟨p, pcb, T, s, S, k₁, hr, hne, hpcb, hT, hs, hS, htear, rfl⟩)

theorem exec_cases (h : k.exec env = .ok k') :
    ∃ cur space r, k.process k.currentThread = .ok cur ∧
      cur.space.replace env (k.registers 4) k.virtMem k.mainMemory = .ok (space, r) ∧
      ((r = none ∧ k' = (k.setSpace cur.spaceId space).sysReturn (-1)) ∨
        ∃ virtMem mainMemory, r = some (virtMem, mainMemory) ∧
          k' = (restoreState { k.setSpace cur.spaceId space with
            virtMem, mainMemory, registers := initRegisters space.numPages }
              cur.spaceId space).sysReturn 1) := by
  unfold exec at h
  obtain ⟨cur, hcur, h⟩ := bind_eq_ok.mp h
  obtain ⟨⟨space, r⟩, hr, h⟩ := bind_eq_ok.mp h
  refine ⟨cur, space, r, hcur, hr, ?_⟩
  split at h
  · rename_i heq
    cases heq
    cases h
    exact .inl ⟨rfl, rfl⟩
  · rename_i heq
    cases heq
    cases h
    exact .inr ⟨_, _, rfl, rfl⟩

/-- The kernel at the first user instruction, with the address space `S` made
from the executable `file`. -/
structure Started (b : Boot) (file : List (BitVec 8)) (S : AddrSpace) (k : Kernel) : Prop where
  opened : b.env.files b.filename = some file
  space : AddrSpace.new file b.env.buffers (BitMap.new numPhysPages b.junk) (fun _ => 0) =
    .ok (S, k.virtMem, k.mainMemory)
  registers : k.registers = initRegisters S.numPages
  pageTable : k.pageTable = some 2
  pageTableSize : k.pageTableSize = S.numPages
  pids : k.pids = (BitMap.new numPids b.junk).markBit 0
  pcbTable : k.pcbTable = Function.update b.junkTable 0 (some 1)
  threads : k.threads = Function.update (fun _ => none) 0 (some ⟨b.junkRegisters, some 2, none⟩)
  spaces : k.spaces = Function.update (fun _ => none) 2 (some { S with pcb := some 1 })
  pcbs : k.pcbs = Function.update (fun _ => none) 1 (some ⟨0, 0, none, [], false, b.env.junkExitValue⟩)
  nextId : k.nextId = 3
  currentThread : k.currentThread = 0
  readyList : k.readyList = []
  threadToBeDestroyed : k.threadToBeDestroyed = none
  control : k.control = .run .user

theorem startProcess_spec {b : Boot}
    (h : startProcess b.env (boot b.junk b.junkTable b.junkRegisters) b.filename = .ok k) :
    ∃ file S, Started b file S k := by
  unfold startProcess at h
  split at h
  · cases h
  rename_i file hfile
  -- the first PID is 0
  have hfind : (boot b.junk b.junkTable b.junkRegisters).pids.find =
      (0, (BitMap.new numPids b.junk).markBit 0) := by
    obtain ⟨hn, hm⟩ := BitMap.marked_new numPids b.junk
    rcases (BitMap.new numPids b.junk).find_spec with ⟨i, -, -, hmin, hf⟩ | ⟨hall, -⟩
    · have hi : i = 0 := by
        by_contra hne
        have := hmin 0 (Nat.pos_of_ne_zero hne)
        rw [hm] at this
        exact Finset.notMem_empty 0 this
      rw [hi] at hf
      exact hf
    · rw [hm, hn] at hall
      exact absurd hall (by decide)
  rw [hfind] at h
  simp only at h
  rw [if_neg (by decide)] at h
  obtain ⟨⟨S, vm, mem⟩, hS, h⟩ := bind_eq_ok.mp h
  obtain ⟨T, hT, h⟩ := bind_eq_ok.mp h
  rw [deref_eq_ok] at hT
  have hT' : T = ⟨b.junkRegisters, none, none⟩ := by
    simp only [boot, Function.update_self, Option.some.injEq] at hT
    exact hT.symm
  subst hT'
  cases h
  exact ⟨file, S, hfile, hS, rfl, rfl, rfl, rfl, rfl, Function.update_idem _ _ _, rfl, rfl, rfl, rfl,
    rfl, rfl, rfl⟩

end Kernel

end Nachos
