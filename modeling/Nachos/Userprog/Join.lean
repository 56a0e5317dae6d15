import Nachos.Userprog.Progress
import Nachos.Userprog.Resume

/-!
# `Join`

`join` polls the process table for the PID of the child it waits for, and then
returns the one exit value its PCB has room for. Between the exit of the child
and the next poll, another child that exits overwrites the value, and a new
process that gets the PID keeps the loop going.

* `step_processes`: the ways in which a step changes the processes;
* `WaitsFor`: the child lives, and its parent waits; `Exited`: the child has
  exited and its parent has not polled since;
* `join_returns`: `Join` returns the exit status when neither of the two happens
  in that window.
-/

namespace Nachos.Kernel

open Nachos.Framework

variable {env : Env} {k k' : Kernel} {t a c : Nat} {pid : Int} {status : BitVec 32}

/-! ## How a step changes the processes -/

/-- The system call entered with `e` is `exit`: called as such, or for a process
that kills itself. -/
def Exits (e : Kernel) (cur : Process) : Prop :=
  (e.registers 2).toNat = 1 ∨
    ((e.registers 2).toNat = 11 ∧ (e.registers 4).toInt = cur.pcb.processID)

/-- The process has ended. -/
def Ended (k : Kernel) (c : Nat) : Prop := c < k.nextId ∧ k.pcbs c = none

/-- The process `p` ends in the step from `k` to `k'`. -/
structure Ends (k k' : Kernel) (p : Nat) (P : PCB) (status : Option (BitVec 32)) : Prop where
  pcb : k.pcbs p = some P
  pcbs : ∀ x, k'.pcbs x = if x = p then none else (k.pcbs x).map (survivor p P status x)
  pid : ∃ i : Nat, P.processID = i ∧ i < k.pids.numBits ∧ k'.pids = k.pids.clearBit i
  nextId : k'.nextId = k.nextId

theorem exit_ends {cur : Process} (hcur : k.process k.currentThread = .ok cur)
    (h : k.exit = .ok k') : Ends k k' cur.pcbId cur.pcb (some (k.registers 4)) := by
  obtain ⟨cur', k₁, n, rest, hcur', htear, -, hd⟩ := exit_cases h
  rw [hcur, Except.ok.injEq] at hcur'
  subst hcur'
  have hP := (process_spec hcur).2.2.2.2
  obtain ⟨i, b, pcbs', hi, hlt, -, hpcbs, rfl⟩ := tearDown_spec hP htear
  obtain ⟨r, pt, m, ths, d, ctl, rfl⟩ := hd.rest
  exact ⟨hP, hpcbs, ⟨i, hi, hlt, rfl⟩, rfl⟩

/-- A step leaves the processes alone, or makes one, or ends one: the current
process, which exits, or another one, which is killed. -/
theorem step_processes (ho : Owning k) (hs : Kernel.step env k = .ok k') :
    (k'.pcbs = k.pcbs ∧ k'.pids = k.pids) ∨
    (∃ e cur, ∃ i : Nat, k.syscallEntry = some e ∧ (e.registers 2).toNat = 9 ∧
      e.process e.currentThread = .ok cur ∧ cur.space.numPages ≤ e.virtMem.numClear ∧
      e.pids.find.1 = i ∧ i < k.pids.numBits ∧ k'.pids = k.pids.markBit i ∧
      ∀ x P, k.pcbs x = some P →
        ∃ cs d, k'.pcbs x = some { P with children := P.children ++ cs, lastDeleted := d }) ∨
    (∃ e cur, k.syscallEntry = some e ∧ e.process e.currentThread = .ok cur ∧ Exits e cur ∧
      cur.pcb.processThread = k.currentThread ∧
      Ends k k' cur.pcbId cur.pcb (some (e.registers 4))) ∨
    (∃ p P, k.control = .run .user ∧ P.processThread ≠ k.currentThread ∧ Ends k k' p P none) := by
  rcases step_cases hs with ⟨p, -, h⟩ | ⟨p, hp, -, h⟩ | ⟨-, -, h⟩ | ⟨e, he, h⟩
  · exact .inl ⟨(oneTick_quiet h).pcbs, (oneTick_quiet h).pids⟩
  · exact .inl ⟨(runPoint_quiet hp h).pcbs, (runPoint_quiet hp h).pids⟩
  · exact .inl ⟨h.quiet.pcbs, h.quiet.pids⟩
  · obtain ⟨hc, -, hu, -⟩ := syscallEntry_spec he
    have hoe := hu.quiet.owning ho
    have hpcbs : e.pcbs = k.pcbs := hu.quiet.pcbs
    have hpids : e.pids = k.pids := hu.quiet.pids
    have hcurT : e.currentThread = k.currentThread := by
      obtain ⟨r, mem, spaces, ctl, rfl⟩ := hu.rest
      rfl
    have hends : ∀ {p P st}, Ends e k' p P st → Ends k k' p P st := by
      intro p P st hE
      exact ⟨hpcbs ▸ hE.pcb, hpcbs ▸ hE.pcbs, hpids ▸ hE.pid, hE.nextId.trans hu.quiet.nextId⟩
    rcases syscall_cases h with ⟨hcode, h⟩ | ⟨-, h⟩ | ⟨-, h⟩ | ⟨-, rfl⟩ |
        ⟨hcode, h⟩ | ⟨-, h⟩ | ⟨hcode, h⟩
    · obtain ⟨cur, _, _, _, hcur, -⟩ := exit_cases h
      exact .inr (.inr (.inl ⟨e, cur, he, hcur, .inl hcode,
        (hoe.linked.process_eq List.mem_cons_self hcur).trans hcurT, hends (exit_ends hcur h)⟩))
    · obtain ⟨cur, S, r, -, -, ⟨-, rfl⟩ | ⟨vm, mem, -, rfl⟩⟩ := exec_cases h
      · exact .inl ⟨hpcbs, hpids⟩
      · exact .inl ⟨hpcbs, hpids⟩
    · exact .inl ⟨(join_quiet h).pcbs.trans hpcbs, (join_quiet h).pids.trans hpids⟩
    · exact .inl ⟨hpcbs, hpids⟩
    · obtain ⟨cur, hcur, ⟨-, rfl⟩ | ⟨S, vm, mem, hcopy, ⟨-, rfl⟩ | ⟨i, hi, -, hfind, rfl⟩⟩⟩ := fork_cases h
      · exact .inl ⟨hpcbs, hpids⟩
      · exact .inl ⟨hpcbs, hpids⟩
      · obtain ⟨-, -, hcS, -, -⟩ := process_spec hcur
        have hroom := (AddrSpace.copy_spec hoe.frames.numBits (hoe.frames.length _ _ hcS) hcopy).1
        exact .inr (.inl ⟨e, cur, i, he, hcode, hcur, hroom, hfind, hpids ▸ hi,
          congrArg (BitMap.markBit · i) hpids, fun x P hP => hoe.tree.fork_pcbs h (hpcbs ▸ hP)⟩)
    · exact .inl ⟨(yield_quiet h).pcbs.trans hpcbs, (yield_quiet h).pids.trans hpids⟩
    · obtain ⟨cur, hcur, rfl | ⟨hself, hx⟩ | ⟨p, pcb, T, s, S, k₁, hg, hne, hP, -, -, -, htear, rfl⟩⟩ :=
        kill_cases h
      · exact .inl ⟨hpcbs, hpids⟩
      · exact .inr (.inr (.inl ⟨e, cur, he, hcur, .inr ⟨hcode, hself⟩,
          (hoe.linked.process_eq List.mem_cons_self hcur).trans hcurT, hends (exit_ends hcur hx)⟩))
      · obtain ⟨i, b, pcbs', hi, hlt, -, hpcbs', rfl⟩ := tearDown_spec hP htear
        exact .inr (.inr (.inr ⟨p, pcb, hc, hcurT ▸ hoe.kill_ne hcur hg hne hP,
          hends ⟨hP, hpcbs', ⟨i, (hoe.tree.processID_eq hg hP).trans hi, hlt, rfl⟩, rfl⟩⟩))

/-! ## The parent and the process it waits for -/

/-- A process that ended takes its thread with it. -/
theorem Ends.gone {p : Nat} {P : PCB} {st : Option (BitVec 32)} (h : Ends k k' p P st)
    (ho : Owning k) (ho' : Owning k') : Gone k' P.processThread := by
  refine ⟨?_, fun hmem => ?_⟩
  · rw [h.nextId]
    exact ho.linked.lt_nextId (ho.linked.threads_ne_none
      ((ho.linked.runnable _).mpr ⟨p, P, h.pcb, rfl⟩))
  · obtain ⟨q, Q, hQ, hth⟩ := (ho'.linked.runnable _).mp hmem
    obtain ⟨Q₀, hQ₀, hne, rfl⟩ := Removes.survived h.pcbs hQ
    exact hne (ho.eq_of_thread hQ₀ h.pcb hth)

theorem Ends.not_at {p : Nat} {P : PCB} {st : Option (BitVec 32)} {pt : Point}
    (h : Ends k k' p P st) (ho : Owning k) (ho' : Owning k') : ¬ At k' P.processThread pt :=
  (h.gone ho ho').not_at

theorem Ends.ended {p : Nat} {P : PCB} {st : Option (BitVec 32)} (h : Ends k k' p P st)
    (ht : ProcessTree k) : Ended k' p := by
  refine ⟨?_, by rw [h.pcbs, if_pos rfl]⟩
  rw [h.nextId]
  by_contra hge
  have hP := h.pcb
  rw [ht.fresh p (Nat.le_of_not_lt hge)] at hP
  cases hP

/-- The thread `t` is about to test whether the PID is still in use. -/
def Polls (k : Kernel) (t : Nat) (pid : Int) (c : Nat) : Prop :=
  k.currentThread = t ∧ k.control = .run (.joinLoop pid c)

instance : Decidable (Polls k t pid c) := inferInstanceAs (Decidable (_ ∧ _))

/-- The thread `t` of process `a` waits for its child `c`, which has the PID `pid`. -/
structure WaitsFor (k : Kernel) (t a : Nat) (pid : Int) (c : Nat) : Prop where
  waits : At k t (.joinLoop pid c)
  waiter : ∃ A, k.pcbs a = some A ∧ A.processThread = t
  child : ∃ C, k.pcbs c = some C ∧ C.processID = pid ∧ C.parentProcess = some a

/-- The child has exited with `status`, and the parent has not polled since. -/
structure Exited (k : Kernel) (t a : Nat) (pid : Int) (c : Nat) (status : BitVec 32) : Prop where
  waits : At k t (.joinLoop pid c)
  waiter : ∃ A, k.pcbs a = some A ∧ A.processThread = t ∧ A.childExitValue = status
  free : ∃ i : Nat, pid = i ∧ i < k.pids.numBits ∧ i ∉ k.pids.marked

/-- While the child lives, a poll does not end the wait. -/
theorem WaitsFor.stays (h : WaitsFor k t a pid c) (ho : Owning k)
    (hs : Kernel.step env k = .ok k') : At k' t (.joinLoop pid c) ∨ Gone k' t := by
  by_cases hpoll : Polls k t pid c
  · obtain ⟨rfl, hc⟩ := hpoll
    rw [Kernel.step, hc] at hs
    obtain ⟨C, hC, hpid, -⟩ := h.child
    rcases joinLoop_cases hs with ⟨x, -, hy⟩ | ⟨hnone, -⟩
    · rcases yield_current ho.linked hy with ⟨-, rfl⟩ | ⟨hin, -, T, hT, hres, -⟩
      · exact .inl (.inl ⟨rfl, .inl rfl⟩)
      · exact .inl (.inr ⟨hin, T, hT, hres⟩)
    · rw [← hpid, ho.tree.getProcess_eq hC] at hnone
      cases hnone
  · exact h.waits.step ho hpoll hs

/-- Another process ends. -/
theorem WaitsFor.ends (h : WaitsFor k t a pid c) (ho : Owning k) (ho' : Owning k') {p : Nat} {P : PCB}
    {st : Option (BitVec 32)} (hE : Ends k k' p P st)
    (hat : At k' t (.joinLoop pid c) ∨ Gone k' t) (hcp : c ≠ p) :
    WaitsFor k' t a pid c ∨ Gone k' t := by
  rcases hat with hat | hgone
  · obtain ⟨A, hA, hAt⟩ := h.waiter
    obtain ⟨C, hC, hpid, hpar⟩ := h.child
    have hap : a ≠ p := fun heq => by
      rw [heq, hE.pcb, Option.some.injEq] at hA
      exact hE.not_at ho ho' (by rw [hA, hAt]; exact hat)
    have hcc : c ∉ P.children := fun hin => by
      obtain ⟨C', hC', hpar'⟩ := ho.tree.child p P c hE.pcb hin
      rw [hC, Option.some.injEq] at hC'
      rw [← hC', hpar, Option.some.injEq] at hpar'
      exact hap hpar'
    refine .inl ⟨hat, ⟨survivor p P st a A, ?_, hAt⟩, survivor p P st c C, ?_, hpid, ?_⟩
    · exact Removes.survives hE.pcbs hA hap
    · exact Removes.survives hE.pcbs hC hcp
    · rw [survivor, if_neg hcc, hpar]
  · exact .inr hgone

theorem WaitsFor.step (h : WaitsFor k t a pid c) (ho : Owning k) (hs : Kernel.step env k = .ok k') :
    WaitsFor k' t a pid c ∨ Gone k' t ∨ Ended k' c := by
  have hat := h.stays ho hs
  obtain ⟨A, hA, hAt⟩ := h.waiter
  obtain ⟨C, hC, hpid, hpar⟩ := h.child
  have hends : ∀ {p P st}, Ends k k' p P st →
      WaitsFor k' t a pid c ∨ Gone k' t ∨ Ended k' c := by
    intro p P st hE
    by_cases hcp : c = p
    · exact .inr (.inr (hcp ▸ hE.ended ho.tree))
    · rcases h.ends ho (ho.step hs) hE hat hcp with h' | h'
      · exact .inl h'
      · exact .inr (.inl h')
  rcases step_processes ho hs with ⟨hp, -⟩ | ⟨e, cur, i, -, -, -, -, -, -, -, hp⟩ |
    ⟨e, cur, -, -, -, -, hE⟩ | ⟨p, P, -, -, hE⟩
  · rcases hat with hat | hgone
    · exact .inl ⟨hat, ⟨A, by rw [hp, hA], hAt⟩, C, by rw [hp, hC], hpid, hpar⟩
    · exact .inr (.inl hgone)
  · rcases hat with hat | hgone
    · obtain ⟨as, _, hA'⟩ := hp a A hA
      obtain ⟨cs, _, hC'⟩ := hp c C hC
      exact .inl ⟨hat, ⟨_, hA', hAt⟩, _, hC', hpid, hpar⟩
    · exact .inr (.inl hgone)
  · exact hends hE
  · exact hends hE

/-- The exit of the child. -/
theorem WaitsFor.exited (h : WaitsFor k t a pid c) (ho : Owning k) (ho' : Owning k') {C : PCB}
    (hE : Ends k k' c C (some status)) (hat : At k' t (.joinLoop pid c) ∨ Gone k' t) :
    Exited k' t a pid c status ∨ Gone k' t := by
  rcases hat with hat | hgone
  · obtain ⟨A, hA, hAt⟩ := h.waiter
    obtain ⟨C', hC, hpid, hpar⟩ := h.child
    rw [hE.pcb, Option.some.injEq] at hC
    subst hC
    have hac : a ≠ c := fun heq => by
      rw [heq, hE.pcb, Option.some.injEq] at hA
      exact hE.not_at ho ho' (by rw [hA, hAt]; exact hat)
    have hcc : c ∉ C.children := fun hin => by
      obtain ⟨C', hC', hpar'⟩ := ho.tree.child c C c hE.pcb hin
      rw [hE.pcb, Option.some.injEq] at hC'
      rw [← hC', hpar, Option.some.injEq] at hpar'
      exact hac hpar'
    obtain ⟨i, hi, hlt, hpids⟩ := hE.pid
    refine .inl ⟨hat, ⟨survivor c C (some status) a A, ?_, hAt, ?_⟩, i, hpid ▸ hi, ?_, ?_⟩
    · exact Removes.survives hE.pcbs hA hac
    · exact if_pos ⟨hcc, hpar⟩
    · rw [hpids]
      exact hlt
    · rw [hpids, BitMap.marked_clearBit _ hlt]
      exact Finset.notMem_erase i _
  · exact .inr hgone

/-! ## Between the exit and the next poll -/

/-- The step is not the exit of a child of `a` with another status than `a` has
noted, nor a `Fork` that hands out `pid`. -/
def Undisturbing (a : Nat) (pid : Int) (_env : Env) (k : Kernel) : Prop :=
  ∀ e cur, k.syscallEntry = some e → e.process e.currentThread = .ok cur →
    (Exits e cur → cur.pcb.parentProcess = some a →
      ∀ A, k.pcbs a = some A → A.childExitValue = e.registers 4) ∧
    ((e.registers 2).toNat = 9 → e.pids.find.1 = pid → e.virtMem.numClear < cur.space.numPages)

theorem Exited.ends (h : Exited k t a pid c status) (ho : Owning k) (ho' : Owning k') {p : Nat}
    {P : PCB} {st : Option (BitVec 32)} (hE : Ends k k' p P st)
    (hat : At k' t (.joinLoop pid c) ∨ Gone k' t)
    (hst : P.parentProcess = some a → ∀ s, st = some s → s = status) :
    Exited k' t a pid c status ∨ Gone k' t := by
  rcases hat with hat | hgone
  · obtain ⟨A, hA, hAt, hval⟩ := h.waiter
    obtain ⟨i, hi, hlt, hm⟩ := h.free
    have hap : a ≠ p := fun heq => by
      rw [heq, hE.pcb, Option.some.injEq] at hA
      exact hE.not_at ho ho' (by rw [hA, hAt]; exact hat)
    obtain ⟨j, -, hj, hpids⟩ := hE.pid
    refine .inl ⟨hat, ⟨survivor p P st a A, ?_, hAt, ?_⟩, i, hi, ?_, ?_⟩
    · exact Removes.survives hE.pcbs hA hap
    · show (if _ then st.getD A.childExitValue else A.childExitValue) = status
      split
      · rename_i hpar
        cases st with
        | none => exact hval
        | some s => exact hst hpar.2 s rfl
      · exact hval
    · rw [hpids]
      exact hlt
    · rw [hpids, BitMap.marked_clearBit _ hj]
      exact fun hin => hm (Finset.mem_of_mem_erase hin)
  · exact .inr hgone

theorem Exited.step (h : Exited k t a pid c status) (ho : Owning k) (hG : Undisturbing a pid env k)
    (hpoll : ¬ Polls k t pid c)
    (hs : Kernel.step env k = .ok k') : Exited k' t a pid c status ∨ Gone k' t := by
  have hat := h.waits.step ho hpoll hs
  obtain ⟨A, hA, hAt, hval⟩ := h.waiter
  obtain ⟨i, hi, hlt, hm⟩ := h.free
  rcases step_processes ho hs with ⟨hp, hpids⟩ |
    ⟨e, cur, j, he, hcode, hcur, hroom, hfind, hj, hpids, hp⟩ |
    ⟨e, cur, he, hcur, hexit, -, hE⟩ | ⟨p, P, -, -, hE⟩
  · rcases hat with hat | hgone
    · exact .inl ⟨hat, ⟨A, by rw [hp, hA], hAt, hval⟩, i, hi, hpids ▸ hlt, hpids ▸ hm⟩
    · exact .inr hgone
  · rcases hat with hat | hgone
    · obtain ⟨as, _, hA'⟩ := hp a A hA
      have hij : i ≠ j := fun heq => by
        have := (hG e cur he hcur).2 hcode (by rw [hfind, hi, heq])
        omega
      refine .inl ⟨hat, ⟨_, hA', hAt, hval⟩, i, hi, hpids ▸ hlt, ?_⟩
      rw [hpids, BitMap.marked_markBit _ hj, Finset.mem_insert, not_or]
      exact ⟨hij, hm⟩
    · exact .inr hgone
  · refine h.ends ho (ho.step hs) hE hat fun hpar s hs' => ?_
    rw [← Option.some.inj hs', ← (hG e cur he hcur).1 hexit hpar A hA, hval]
  · exact h.ends ho (ho.step hs) hE hat fun _ s hs' => (by cases hs')

/-- The next poll ends the wait, with the exit status. -/
theorem Exited.poll (h : Exited k t a pid c status) (ho : Owning k) (hpoll : Polls k t pid c)
    (env : Env) :
    ∃ k', Kernel.step env k = .ok k' ∧ k'.currentThread = t ∧ k'.control = .tick .user ∧
      k'.registers 2 = status := by
  obtain ⟨A, hA, hAt, hval⟩ := h.waiter
  obtain ⟨i, rfl, hlt, hm⟩ := h.free
  obtain ⟨hcur, hc⟩ := hpoll
  obtain ⟨pr, hpr, hpcb⟩ := ho.process_ok hA
  rw [hAt, ← hcur] at hpr
  refine ⟨k.sysReturn pr.pcb.childExitValue, ?_, hcur, rfl, ?_⟩
  · rw [Kernel.step, hc]
    show k.joinLoop i c = _
    simp only [joinLoop, getProcess_of_notMem hlt hm, hpr, bind, Except.bind]
  · rw [hpcb, hval]
    rfl

/-! ## Over whole runs -/

theorem Ended.fork (h : Ended k c) (ho : Owning k) (hf : k.fork env = .ok k') : Ended k' c := by
  have hkeeps := fork_keeps hf (ho.linked.lt_nextId (ho.linked.threads_ne_none List.mem_cons_self))
  refine ⟨h.1.trans_le hkeeps.nextId, ?_⟩
  rcases fork_processes hf with ⟨hp, -⟩ | ⟨cur, S, r, i, hpr, hp, -⟩
  · rw [hp, h.2]
  · have hlt := h.1
    have hne : c ≠ cur.pcbId := fun heq => by
      have hP := (process_spec hpr).2.2.2.2
      rw [← heq, h.2] at hP
      cases hP
    rw [hp, Function.update_of_ne (by omega), Function.update_of_ne hne, h.2]

theorem Ended.exit (h : Ended k c) (he : k.exit = .ok k') : Ended k' c := by
  obtain ⟨cur, k₁, n, rest, hcur, htear, -, hd⟩ := exit_cases he
  obtain ⟨i, b, pcbs', -, -, -, hpcbs, rfl⟩ := tearDown_spec (process_spec hcur).2.2.2.2 htear
  obtain ⟨r, pt, m, ths, d, ctl, rfl⟩ := hd.rest
  refine ⟨h.1, ?_⟩
  show pcbs' c = none
  rw [hpcbs, h.2]
  split <;> rfl

theorem Ended.kill (h : Ended k c) (hk : k.kill = .ok k') : Ended k' c := by
  obtain ⟨cur, -, rfl | ⟨-, he⟩ | ⟨p, pcb, T, s, S, k₁, -, -, hP, -, -, -, htear, rfl⟩⟩ := kill_cases hk
  · exact h
  · exact h.exit he
  · obtain ⟨i, b, pcbs', -, -, -, hpcbs, rfl⟩ := tearDown_spec hP htear
    refine ⟨h.1, ?_⟩
    show pcbs' c = none
    rw [hpcbs, h.2]
    split <;> rfl

theorem Ended.exec (h : Ended k c) (he : k.exec env = .ok k') : Ended k' c := by
  obtain ⟨cur, S, r, -, -, ⟨-, rfl⟩ | ⟨vm, mem, -, rfl⟩⟩ := exec_cases he
  · exact h
  · exact h

theorem Ended.step (h : Ended k c) (ho : Owning k) (hs : Kernel.step env k = .ok k') : Ended k' c :=
  (step_preserves (I := fun k => Owning k ∧ Ended k c)
    (fun hq h => ⟨hq.owning h.1, by rw [hq.nextId]; exact h.2.1, by rw [hq.pcbs]; exact h.2.2⟩)
    (fun h hf => ⟨h.1.fork hf, h.2.fork h.1 hf⟩) (fun h he => ⟨h.1.exec he, h.2.exec he⟩)
    (fun h he => ⟨h.1.exit he, h.2.exit he⟩) (fun h hk => ⟨h.1.kill hk, h.2.kill hk⟩)
    ⟨ho, h⟩ hs).2

/-- The wait lasts as long as the child lives, unless the parent is killed. -/
theorem WaitsFor.run {envs : List Env} (h : WaitsFor k t a pid c) (ho : Owning k)
    (hrun : k.runFrom envs = some k') :
    Owning k' ∧ (WaitsFor k' t a pid c ∨ Gone k' t ∨ Ended k' c) := by
  refine run_invariant (I := fun k => Owning k ∧ (WaitsFor k t a pid c ∨ Gone k t ∨ Ended k c))
    (fun env k k' hk hs => ?_) ⟨ho, .inl h⟩ hrun
  have hs' := toOption_eq_some.mp hs
  refine ⟨hk.1.step hs', ?_⟩
  rcases hk.2 with hw | hgone | hended
  · exact hw.step hk.1 hs'
  · exact .inr (.inl (hgone.step hk.1 hs'))
  · exact .inr (.inr (hended.step hk.1 hs'))

theorem Exited.run {envs : List Env} (h : Exited k t a pid c status) (ho : Owning k)
    (hG : Throughout (Undisturbing a pid) k envs)
    (hfirst : Throughout (fun _ u => ¬ Polls u t pid c) k envs)
    (hrun : k.runFrom envs = some k') :
    Owning k' ∧ (Exited k' t a pid c status ∨ Gone k' t) := by
  refine run_invariant_along (I := fun k => Owning k ∧ (Exited k t a pid c status ∨ Gone k t))
    (fun env k k' hk hG hs => ?_) ⟨ho, .inl h⟩ (Along.and hG hfirst) hrun
  have hs' := toOption_eq_some.mp hs
  refine ⟨hk.1.step hs', ?_⟩
  rcases hk.2 with h' | h'
  · exact h'.step hk.1 hG.1 hG.2 hs'
  · exact .inr (h'.step hk.1 hs')

/-- A `Join` in a run: in `k`, the thread `t` of process `a` calls it with `pid`,
and in `k'` it has found that the process `c` with that PID is a child. -/
structure Joins (b : Boot) (envs : List Env) (env : Env) (k k' : Kernel) (t a : Nat) (pid : Int)
    (c : Nat) : Prop where
  run : runs b envs = some k
  step : Kernel.step env k = .ok k'
  thread : k.currentThread = t
  entry : ∃ e cur, k.syscallEntry = some e ∧ (e.registers 2).toNat = 3 ∧
    (e.registers 4).toInt = pid ∧ e.process e.currentThread = .ok cur ∧ cur.pcbId = a
  accepted : k'.control = .run (.joinLoop pid c)

/-- What `Join` should do from `k` on, in runs whose steps between the exit of the
child and the next poll meet `G`. -/
structure JoinCorrect (G : Env → Kernel → Prop) (k : Kernel) (t : Nat) (pid : Int) (c : Nat) :
    Prop where
  /-- It does not return while the child lives. -/
  waits : ∀ envs u, k.runFrom envs = some u → u.pcbs c ≠ none →
    At u t (.joinLoop pid c) ∨ Gone u t
  /-- Once the child has exited, the next poll returns its status. -/
  returns : ∀ envs₁ u₁ e cur env u₂ envs₂ u₃ env', k.runFrom envs₁ = some u₁ →
    u₁.syscallEntry = some e → (e.registers 2).toNat = 1 →
    e.process e.currentThread = .ok cur → cur.pcbId = c → step env u₁ = .ok u₂ →
    Throughout G u₂ envs₂ → Throughout (fun _ u => ¬ Polls u t pid c) u₂ envs₂ →
    u₂.runFrom envs₂ = some u₃ → Polls u₃ t pid c →
    ∃ u₄, step env' u₃ = .ok u₄ ∧ u₄.currentThread = t ∧ u₄.control = .tick .user ∧
      u₄.registers 2 = e.registers 4

theorem Joins.spec {b : Boot} {envs : List Env} (h : Joins b envs env k k' t a pid c) :
    Owning k' ∧ WaitsFor k' t a pid c := by
  have ho : Owning k := .run h.run
  have ho' := ho.step h.step
  obtain ⟨e, cur, he, hcode, hpid, hcur, rfl⟩ := h.entry
  obtain ⟨-, -, hu, -⟩ := syscallEntry_spec he
  have hoe := hu.quiet.owning ho
  have hcurT : e.currentThread = t := by
    obtain ⟨r, mem, spaces, ctl, rfl⟩ := hu.rest
    exact h.thread
  have hjoin : e.join = .ok k' := by
    have hsys := step_of_syscallEntry env he
    rw [h.step, syscall, hcode] at hsys
    exact hsys.symm
  have hacc := h.accepted
  obtain ⟨cur', hcur', rfl | ⟨x, -, hg, hin, rfl⟩⟩ := join_cases hjoin
  · cases hacc
  · rw [hcur, Except.ok.injEq] at hcur'
    subst hcur'
    have hxc : x = c := by
      cases hacc
      rfl
    subst hxc
    have hP := (process_spec hcur).2.2.2.2
    obtain ⟨C, hC, hpar⟩ := hoe.tree.child _ _ x hP hin
    refine ⟨ho', .inl ⟨hcurT, .inr hacc⟩, ⟨cur.pcb, hP, ?_⟩, C, hC, ?_, hpar⟩
    · rw [hoe.linked.process_eq List.mem_cons_self hcur, hcurT]
    · rw [← hpid]
      exact hoe.tree.processID_eq hg hC

/-- `Join` waits for the child, and returns its exit status if, between the exit
and the next poll, no other child of `a` exits with another status and no new
process gets the PID. -/
theorem join_returns {b : Boot} {envs : List Env} (h : Joins b envs env k k' t a pid c) :
    JoinCorrect (Undisturbing a pid) k' t pid c := by
  obtain ⟨ho, hwait⟩ := h.spec
  refine ⟨fun envs u hrun hlive => ?_, ?_⟩
  · obtain ⟨-, hw | hgone | hended⟩ := hwait.run ho hrun
    · exact .inl hw.waits
    · exact .inr hgone
    · exact absurd hended.2 hlive
  · intro envs₁ u₁ e cur env u₂ envs₂ u₃ env' hrun₁ he hcode hcur hc hexit hG hfirst hrun₂ hpoll
    obtain ⟨ho₁, hw⟩ := hwait.run ho hrun₁
    have ho₂ := ho₁.step hexit
    obtain ⟨-, -, hu, -⟩ := syscallEntry_spec he
    have hP : u₁.pcbs c = some cur.pcb := by
      rw [← hu.quiet.pcbs, ← hc]
      exact (process_spec hcur).2.2.2.2
    -- the parent has the status, or is gone
    have hexited : Exited u₂ t a pid c (e.registers 4) ∨ Gone u₂ t := by
      rcases hw with hw | hgone | hended
      · have hE : Ends e u₂ cur.pcbId cur.pcb (some (e.registers 4)) := by
          refine exit_ends hcur ?_
          have hsys := step_of_syscallEntry env he
          rw [hexit, syscall, hcode] at hsys
          exact hsys.symm
        have hE₁ : Ends u₁ u₂ c cur.pcb (some (e.registers 4)) :=
          ⟨hP, hu.quiet.pcbs ▸ hc ▸ hE.pcbs, hu.quiet.pids ▸ hE.pid,
            hE.nextId.trans hu.quiet.nextId⟩
        exact hw.exited ho₁ ho₂ hE₁ (hw.stays ho₁ hexit)
      · exact .inr (hgone.step ho₁ hexit)
      · rw [hended.2] at hP
        cases hP
    rcases hexited with hexited | hgone
    · obtain ⟨ho₃, h' | hgone⟩ := hexited.run ho₂ hG hfirst hrun₂
      · exact h'.poll ho₃ hpoll env'
      · exact absurd (hpoll.1 ▸ List.mem_cons_self) hgone.2
    · have hgone' := run_invariant (I := fun u => Owning u ∧ Gone u t)
        (fun _ _ _ hk hs => ⟨hk.1.step (toOption_eq_some.mp hs),
          hk.2.step hk.1 (toOption_eq_some.mp hs)⟩) ⟨ho₂, hgone⟩ hrun₂
      exact absurd (hpoll.1 ▸ List.mem_cons_self) hgone'.2.2

/-! ## A program with two children -/

/-- Forks two processes that exit with the addresses they start at, 36 and 44, and
joins the one with the PID `pid`. -/
def joinOne (pid : BitVec 32) : List (BitVec 32) :=
  [0x24040024, 0x24020009, 0x0000000c, 0x2404002c, 0x24020009, 0x0000000c,
    0x24040000 ||| pid, 0x24020003, 0x0000000c,
    0x24020001, 0x0000000c, 0x24020001, 0x0000000c]

def joinOneEnv (pid : BitVec 32) : Env := plainEnv (joinOne pid) false

/-- `n` steps without an interrupt. -/
def calm (pid : BitVec 32) (n : Nat) : List Env := List.replicate n (joinOneEnv pid)

theorem joinOne_joins (pid : BitVec 32) (c : Nat) (k k' e : Kernel) (cur : Process)
    (hk : runs (plainBoot (joinOne pid)) (calm pid 20) = some k)
    (hk' : (step (joinOneEnv pid) k).toOption = some k') (he : k.syscallEntry = some e)
    (hcur : (e.process e.currentThread).toOption = some cur)
    (hrest : k.currentThread = 0 ∧ (e.registers 2).toNat = 3 ∧ (e.registers 4).toInt = pid.toInt ∧
      cur.pcbId = 1 ∧ k'.control = .run (.joinLoop pid.toInt c)) :
    Joins (plainBoot (joinOne pid)) (calm pid 20) (joinOneEnv pid) k k' 0 1 pid.toInt c :=
  ⟨hk, toOption_eq_some.mp hk', hrest.1, ⟨e, cur, he, hrest.2.1, hrest.2.2.1,
    toOption_eq_some.mp hcur, hrest.2.2.2.1⟩, hrest.2.2.2.2⟩

/-- The two children exit one after the other before the parent polls, and `Join`
of the first returns the status of the second. -/
theorem joinOne_overwritten :
    ¬ ∀ b envs env k k' t a pid c, Joins b envs env k k' t a pid c →
      JoinCorrect (fun _ _ => True) k' t pid c := by
  intro hall
  have heval : ((runs (plainBoot (joinOne 1)) (calm 1 20)).any fun k =>
      (step (joinOneEnv 1) k).toOption.any fun k' => k.syscallEntry.any fun e =>
      (e.process e.currentThread).toOption.any fun cur =>
      (k.currentThread = 0 ∧ (e.registers 2).toNat = 3 ∧ (e.registers 4).toInt = 1 ∧
        cur.pcbId = 1 ∧ k'.control = .run (.joinLoop 1 5)) ∧
      (k'.runFrom (calm 1 5)).any fun u₁ => u₁.syscallEntry.any fun e₁ =>
      (e₁.process e₁.currentThread).toOption.any fun cur₁ =>
      (step (joinOneEnv 1) u₁).toOption.any fun u₂ => (u₂.runFrom (calm 1 6)).any fun u₃ =>
      (step (joinOneEnv 1) u₃).toOption.any fun u₄ =>
        (e₁.registers 2).toNat = 1 ∧ cur₁.pcbId = 5 ∧
          Along (fun env u => (step env u).toOption) (fun _ u => ¬ Polls u 0 1 5) (calm 1 6) u₂ ∧
          Polls u₃ 0 1 5 ∧ e₁.registers 4 = 36 ∧ u₄.registers 2 = 44) = true := by
    decide +kernel
  obtain ⟨k, hk, h⟩ := (Option.any_eq_true _ _).mp heval
  obtain ⟨k', hk', h⟩ := (Option.any_eq_true _ _).mp h
  obtain ⟨e, he, h⟩ := (Option.any_eq_true _ _).mp h
  obtain ⟨cur, hcur, h⟩ := (Option.any_eq_true _ _).mp h
  obtain ⟨hrest, h⟩ := of_decide_eq_true h
  have hjoins := joinOne_joins 1 5 k k' e cur hk hk' he hcur hrest
  obtain ⟨u₁, hu₁, h⟩ := (Option.any_eq_true _ _).mp h
  obtain ⟨e₁, he₁, h⟩ := (Option.any_eq_true _ _).mp h
  obtain ⟨cur₁, hcur₁, h⟩ := (Option.any_eq_true _ _).mp h
  obtain ⟨u₂, hu₂, h⟩ := (Option.any_eq_true _ _).mp h
  obtain ⟨u₃, hu₃, h⟩ := (Option.any_eq_true _ _).mp h
  obtain ⟨u₄, hu₄, h⟩ := (Option.any_eq_true _ _).mp h
  obtain ⟨hcode, hpcb, hfirst, hpoll, hstatus, hvalue⟩ := of_decide_eq_true h
  obtain ⟨u₄', hstep, -, -, hr2⟩ := (hall _ _ _ _ _ _ _ _ _ hjoins).returns (calm 1 5) u₁ e₁ cur₁
    (joinOneEnv 1) u₂ (calm 1 6) u₃ (joinOneEnv 1) hu₁ he₁ hcode (toOption_eq_some.mp hcur₁) hpcb
    (toOption_eq_some.mp hu₂) (Along.of_forall (fun _ _ _ => trivial) _) hfirst hu₃ hpoll
  -- the status that `Join` returns is that of the second child
  rw [toOption_eq_some.mp hu₄] at hstep
  cases hstep
  rw [hvalue, hstatus] at hr2
  exact absurd hr2 (by decide)

/-- `Join` of the second child: nothing happens between its exit and the poll. -/
theorem join_returns_joinOne :
    ∃ k k' e u₂ u₃ u₄, Joins (plainBoot (joinOne 2)) (calm 2 20) (joinOneEnv 2) k k' 0 1 2 8 ∧
      u₂.runFrom (calm 2 1) = some u₃ ∧ Throughout (Undisturbing 1 2) u₂ (calm 2 1) ∧
      Polls u₃ 0 2 8 ∧ step (joinOneEnv 2) u₃ = .ok u₄ ∧ u₄.registers 2 = e ∧ e = 44 := by
  have heval : ((runs (plainBoot (joinOne 2)) (calm 2 20)).any fun k =>
      (step (joinOneEnv 2) k).toOption.any fun k' => k.syscallEntry.any fun e =>
      (e.process e.currentThread).toOption.any fun cur =>
      (k.currentThread = 0 ∧ (e.registers 2).toNat = 3 ∧ (e.registers 4).toInt = 2 ∧
        cur.pcbId = 1 ∧ k'.control = .run (.joinLoop 2 8)) ∧
      (k'.runFrom (calm 2 10)).any fun u₁ => u₁.syscallEntry.any fun e₁ =>
      (e₁.process e₁.currentThread).toOption.any fun cur₁ =>
      (step (joinOneEnv 2) u₁).toOption.any fun u₂ => (u₂.runFrom (calm 2 1)).any fun u₃ =>
        (e₁.registers 2).toNat = 1 ∧ cur₁.pcbId = 8 ∧ u₂.syscallEntry.isNone = true ∧
          Along (fun env u => (step env u).toOption) (fun _ u => ¬ Polls u 0 2 8) (calm 2 1) u₂ ∧
          Polls u₃ 0 2 8 ∧ e₁.registers 4 = 44) = true := by
    decide +kernel
  obtain ⟨k, hk, h⟩ := (Option.any_eq_true _ _).mp heval
  obtain ⟨k', hk', h⟩ := (Option.any_eq_true _ _).mp h
  obtain ⟨e, he, h⟩ := (Option.any_eq_true _ _).mp h
  obtain ⟨cur, hcur, h⟩ := (Option.any_eq_true _ _).mp h
  obtain ⟨hrest, h⟩ := of_decide_eq_true h
  have hjoins := joinOne_joins 2 8 k k' e cur hk hk' he hcur hrest
  obtain ⟨u₁, hu₁, h⟩ := (Option.any_eq_true _ _).mp h
  obtain ⟨e₁, he₁, h⟩ := (Option.any_eq_true _ _).mp h
  obtain ⟨cur₁, hcur₁, h⟩ := (Option.any_eq_true _ _).mp h
  obtain ⟨u₂, hu₂, h⟩ := (Option.any_eq_true _ _).mp h
  obtain ⟨u₃, hu₃, h⟩ := (Option.any_eq_true _ _).mp h
  obtain ⟨hcode, hpcb, hquiet, hfirst, hpoll, hstatus⟩ := of_decide_eq_true h
  have hG : Throughout (Undisturbing 1 2) u₂ (calm 2 1) := by
    refine ⟨fun e cur he _ => ?_, fun _ _ => trivial⟩
    rw [Option.isNone_iff_eq_none.mp hquiet] at he
    cases he
  obtain ⟨u₄, hstep, -, -, hr2⟩ := (join_returns hjoins).returns (calm 2 10) u₁ e₁ cur₁
    (joinOneEnv 2) u₂ (calm 2 1) u₃ (joinOneEnv 2) hu₁ he₁ hcode (toOption_eq_some.mp hcur₁) hpcb
    (toOption_eq_some.mp hu₂) hG hfirst hu₃ hpoll
  exact ⟨k, k', e₁.registers 4, u₂, u₃, u₄, hjoins, hu₃, hG, hpoll, hstep, hr2, hstatus⟩

end Nachos.Kernel
