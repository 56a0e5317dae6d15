import Nachos.Userprog.Frames

/-!
# Isolation of processes

Whatever one process does, the registers, the mapping and the memory of every
other process stay as they are.

* `Mapped`: outside the start of a new thread, the machine translates with the
  page table of the current thread's own address space;
* `View`: what a process sees of the machine, and `viewOf` where the kernel has
  it at the moment;
* `Untouched`: what a step leaves alone of another process's address space;
* `isolated_run`: isolation, in every state reached.
-/

namespace Nachos

open Nachos.Framework

/-! ## Reading through equal mappings -/

/-- Translation depends on the mapping and the size of the table only. -/
theorem Machine.translate_congr {m m' : Machine} (hsize : m'.pageTableSize = m.pageTableSize)
    (htable : m'.pageTable.map TranslationEntry.mapping = m.pageTable.map TranslationEntry.mapping)
    (virtAddr : BitVec 32) (size : Nat) (writing : Bool) :
    (m'.translate virtAddr size writing).toOption.map Prod.fst =
      (m.translate virtAddr size writing).toOption.map Prod.fst := by
  have hentry : ∀ vpn : Nat, (m'.pageTable[vpn]?).map TranslationEntry.mapping =
      (m.pageTable[vpn]?).map TranslationEntry.mapping := by
    intro vpn
    rw [← List.getElem?_map, ← List.getElem?_map, htable]
  unfold translate
  simp only [hsize]
  split
  · rfl
  split
  · rfl
  have he := hentry (virtAddr.toNat / pageSize)
  cases hm : m.pageTable[virtAddr.toNat / pageSize]? with
  | none =>
    rw [hm, Option.map_none, Option.map_eq_none_iff] at he
    rw [he]
  | some e =>
    rw [hm, Option.map_some, Option.map_eq_some_iff] at he
    obtain ⟨e', he', hmap⟩ := he
    simp only [TranslationEntry.mapping, Prod.mk.injEq] at hmap
    rw [he']
    simp only [hmap.1, hmap.2.1, hmap.2.2]
    split
    · rfl
    split
    · rfl
    split
    · rfl
    split <;> rfl

/-- So do the bytes read, if the mapped memory is the same. -/
theorem Machine.readMem_congr {m m' : Machine} (hsize : m'.pageTableSize = m.pageTableSize)
    (htable : m'.pageTable.map TranslationEntry.mapping = m.pageTable.map TranslationEntry.mapping)
    (hmem : ∀ x, Maps m.pageTable x → m'.mainMemory x = m.mainMemory x) (addr : BitVec 32) :
    (m'.readMem addr 1).toOption.map Prod.fst = (m.readMem addr 1).toOption.map Prod.fst := by
  have ht := translate_congr hsize htable addr 1 false
  unfold readMem
  cases h : m.translate addr 1 false with
  | error f =>
    cases h' : m'.translate addr 1 false with
    | error f' => rfl
    | ok p' =>
      rw [h, h'] at ht
      cases ht
  | ok p =>
    cases h' : m'.translate addr 1 false with
    | error f' =>
      rw [h, h'] at ht
      cases ht
    | ok p' =>
      rw [h, h'] at ht
      have hpa : p'.1 = p.1 := Option.some.inj ht
      obtain ⟨-, hm, -, hmaps⟩ := translate_spec (show m.translate addr 1 false = .ok (p.1, p.2) from h) (.inl rfl)
      obtain ⟨-, hm', -, -⟩ := translate_spec (show m'.translate addr 1 false = .ok (p'.1, p'.2) from h') (.inl rfl)
      have hbyte : p'.2.mainMemory p'.1 = p.2.mainMemory p.1 := by
        rw [hm, hm', hpa]
        exact hmem _ (hmaps 0 (by decide))
      show some ((p'.2.mainMemory p'.1).signExtend 32) = some ((p.2.mainMemory p.1).signExtend 32)
      rw [hbyte]

theorem mem_frames_of_maps {t : List TranslationEntry} {x : Nat} (h : Maps t x) :
    x / pageSize ∈ frames t := by
  obtain ⟨e, he, -, hx⟩ := h
  exact List.mem_map.mpr ⟨e, he, hx⟩

namespace Kernel

variable {env : Env} {k k' : Kernel}

/-! ## The page table of the machine -/

/-- The machine translates with the page table of the current thread. -/
def OwnTable (k : Kernel) : Prop :=
  ∃ s S, k.spaceOf k.currentThread = some s ∧ k.spaces s = some S ∧ k.pageTable = some s ∧
    k.pageTableSize = S.numPages

/-- It does, except when a thread has just been dispatched for the first time. -/
def Mapped (k : Kernel) : Prop :=
  k.control ≠ .tick .threadRoot → k.control ≠ .run .threadRoot → OwnTable k

theorem OwnTable.congr (h : OwnTable k) (hcur : k'.currentThread = k.currentThread)
    (hspaceOf : k'.spaceOf k.currentThread = k.spaceOf k.currentThread)
    (hspaces : ∀ s S, k.spaceOf k.currentThread = some s → k.spaces s = some S →
      ∃ S', k'.spaces s = some S' ∧ S'.numPages = S.numPages)
    (htable : k'.pageTable = k.pageTable) (hsize : k'.pageTableSize = k.pageTableSize) :
    OwnTable k' := by
  obtain ⟨s, S, hs, hS, hpt, hn⟩ := h
  obtain ⟨S', hS', hnum⟩ := hspaces s S hs hS
  exact ⟨s, S', by rw [hcur, hspaceOf, hs], hS', by rw [htable, hpt], by rw [hsize, hn, hnum]⟩

theorem Undisturbed.mapped {t : Nat} {T : Thread} (h : Undisturbed k' t T)
    (hcur : k'.currentThread = t) : Mapped k' := by
  intro hc _
  rcases h.resumed hcur with ⟨-, hc'⟩ | ⟨p, s, S, -, -, -, hs, hpt, hS, hn⟩
  · exact absurd hc' hc
  · exact ⟨s, S, by rw [hcur, Kernel.spaceOf, h.thread]; exact hs, hS, hpt, hn⟩

theorem Linked.ready_thread (hl : Linked k) {n : Nat} {rest : List Nat}
    (hr : k.readyList = n :: rest) : ∃ T, k.threads n = some T ∧ n ≠ k.currentThread ∧
      T.space ≠ none ∧ k.threadToBeDestroyed ≠ some n := by
  have hmem : n ∈ k.currentThread :: k.readyList := by
    rw [hr]
    exact List.mem_cons_of_mem _ List.mem_cons_self
  obtain ⟨T, hT⟩ := Option.ne_none_iff_exists'.mp (hl.threads_ne_none hmem)
  have hspace := hl.spaceOf_ne_none hmem
  rw [Kernel.spaceOf, hT] at hspace
  refine ⟨T, hT, fun heq => (List.nodup_cons.mp hl.nodup).1 ?_, hspace, hl.not_doomed hmem⟩
  rw [hr, ← heq]
  exact List.mem_cons_self

theorem yield_mapped {p : Point} (hl : Linked k) (h : k.yield p = .ok k')
    (hown : p ≠ .threadRoot → OwnTable k) : Mapped k' := by
  rcases yield_spec h with ⟨-, rfl⟩ | ⟨n, rest, T₀, hr, -, hd⟩
  · intro hc _
    exact hown fun heq => hc (by rw [heq])
  · obtain ⟨T, hT, hne, hspace, hdoom⟩ := hl.ready_thread hr
    have hu := hd.undisturbed ((Function.update_of_ne hne _ _).trans hT) hne hspace hdoom
    obtain ⟨r, pt, m, ths, d, c, rfl⟩ := hd.rest
    exact hu.mapped rfl

theorem exit_mapped (hl : Linked k) (h : k.exit = .ok k') : Mapped k' := by
  obtain ⟨cur, k₁, n, rest, hcur, htear, hr, hd⟩ := exit_cases h
  obtain ⟨i, b, pcbs', -, -, -, -, rfl⟩ := tearDown_spec (process_spec hcur).2.2.2.2 htear
  obtain ⟨T, hT, hne, hspace, -⟩ := hl.ready_thread (show k.readyList = n :: rest from hr)
  have hu := hd.undisturbed hT hne hspace fun heq => hne (Option.some.inj heq).symm
  obtain ⟨r, pt, m, ths, d, c, rfl⟩ := hd.rest
  exact hu.mapped rfl

/-- The address space of the current thread is not the one of another process. -/
theorem Linked.space_ne (hl : Linked k) {p s s' : Nat} {P : PCB} (hP : k.pcbs p = some P)
    (hs : k.spaceOf P.processThread = some s) (hs' : k.spaceOf k.currentThread = some s')
    (hne : P.processThread ≠ k.currentThread) : s ≠ s' := by
  obtain ⟨q, Q, hQ, hQt⟩ := (hl.runnable k.currentThread).mp List.mem_cons_self
  intro heq
  have hpq := hl.eq_of_space hP hQ hs (by rw [hQt, hs', heq])
  rw [hpq, hQ, Option.some.injEq] at hP
  exact hne (by rw [← hP, hQt])

/-- The thread of a process to be killed is another one than the current. -/
theorem Owning.kill_ne (ho : Owning k) {cur : Process} {p : Nat} {pcb : PCB}
    (hcur : k.process k.currentThread = .ok cur)
    (hg : k.getProcess (k.registers 4).toInt = .ok (some p))
    (hne : (k.registers 4).toInt ≠ cur.pcb.processID) (hP : k.pcbs p = some pcb) :
    pcb.processThread ≠ k.currentThread := by
  intro heq
  have hcP := (process_spec hcur).2.2.2.2
  have hcth := ho.linked.process_eq List.mem_cons_self hcur
  obtain ⟨s, S, hs, -, -⟩ := ho.linked.link p pcb hP
  have hpq := ho.linked.eq_of_space hP hcP hs (by rw [hcth, ← heq]; exact hs)
  subst hpq
  rw [hP, Option.some.injEq] at hcP
  exact hne (by rw [← ho.tree.processID_eq hg hP, hcP])

theorem kill_mapped (ho : Owning k) (hown : OwnTable k) (h : k.kill = .ok k') : Mapped k' := by
  obtain ⟨cur, hcur, rfl | ⟨-, he⟩ | ⟨p, pcb, T, s, S, k₁, hg, hne, hP, hT, hs, hS, htear, rfl⟩⟩ :=
    kill_cases h
  · exact fun _ _ => hown
  · exact exit_mapped ho.linked he
  · have hth := ho.kill_ne hcur hg hne hP
    obtain ⟨i, b, pcbs', -, -, -, -, rfl⟩ := tearDown_spec hP htear
    refine fun _ _ => hown.congr rfl rfl (fun s' S' hs' hS' => ⟨S', ?_, rfl⟩) rfl rfl
    have hss := ho.linked.space_ne hP (show k.spaceOf pcb.processThread = some s by
      rw [Kernel.spaceOf, hT]; exact hs) hs' hth
    exact (Function.update_of_ne hss.symm _ _).trans hS'

theorem fork_mapped (hl : Linked k) (hown : OwnTable k) (h : k.fork env = .ok k') : Mapped k' := by
  have hlt := hl.lt_nextId (hl.threads_ne_none List.mem_cons_self)
  have hkeeps := fork_keeps h hlt
  obtain ⟨hcur, hpt, hn, -⟩ := hkeeps.rest
  refine fun _ _ => hown.congr hcur (hkeeps.spaceOf hlt) (fun s S hs hS => ⟨S, ?_, rfl⟩) hpt hn
  rw [hkeeps.spaces s, hS]
  by_contra hge
  rw [hl.freshSpaces s (Nat.le_of_not_lt hge)] at hS
  cases hS

theorem exec_mapped (hown : OwnTable k) (h : k.exec env = .ok k') : Mapped k' := by
  obtain ⟨cur, S, r, hcur, hr, hcase⟩ := exec_cases h
  obtain ⟨hT, hs, hS, -, -⟩ := process_spec hcur
  rcases hcase with ⟨rfl, rfl⟩ | ⟨vm, mem, -, rfl⟩
  · refine fun _ _ => hown.congr rfl rfl (fun s' S' hs' hS' => ?_) rfl rfl
    rw [Kernel.spaceOf, hT, Option.bind_some, hs, Option.some.injEq] at hs'
    subst hs'
    obtain ⟨-, ⟨-, hnum, -⟩ | ⟨_, _, _, _, _, hr', -⟩⟩ := AddrSpace.replace_spec hr
    · rw [hS, Option.some.injEq] at hS'
      exact ⟨S, Function.update_self _ _ _, by rw [hnum, hS']⟩
    · cases hr'
  · refine fun _ _ => ⟨cur.spaceId, S, ?_, Function.update_self _ _ _, rfl, rfl⟩
    show k.spaceOf k.currentThread = _
    rw [Kernel.spaceOf, hT]
    exact hs

theorem UserRun.ownTable {k₁ : Kernel} (h : UserRun k k₁) (hown : OwnTable k) : OwnTable k₁ := by
  have hq := h.quiet
  obtain ⟨r, mem, spaces, c, rfl⟩ := h.rest
  refine hown.congr rfl rfl (fun s S _ hS => ?_) rfl rfl
  have hs := hq.spaces s
  rw [hS, Option.map_some, Option.map_eq_some_iff] at hs
  obtain ⟨S', hS', hshape⟩ := hs
  exact ⟨S', hS', congrArg (fun x => x.2.1) hshape⟩

theorem Mapped.step (h : Mapped k) (ho : Owning k) (hs : Kernel.step env k = .ok k') :
    Mapped k' := by
  rcases step_cases hs with ⟨p, hc, hp⟩ | ⟨p, hne, hc, hp⟩ | ⟨hc, -, hu⟩ | ⟨k₁, he, hsys⟩
  · have hown : p ≠ .threadRoot → OwnTable k := fun hp' =>
      h (by rw [hc]; simpa using hp') (by rw [hc]; exact Control.noConfusion)
    unfold oneTick at hp
    split at hp
    · obtain ⟨r, -, hp⟩ := bind_eq_ok.mp hp
      have hp' : Kernel.yield { k with registers := r } p = .ok k' := hp
      exact yield_mapped ((Quiet.of_registers r _ _ k.control).linked ho.linked) hp' hown
    · cases hp
      exact fun _ hc' => hown fun heq => hc' (by rw [heq])
  · have hown : p ≠ .threadRoot → OwnTable k := fun hp' =>
      h (by rw [hc]; exact Control.noConfusion) (by rw [hc]; simpa using hp')
    cases p with
    | user => exact absurd rfl hne
    | yieldTail =>
      cases hp
      exact fun _ _ => hown Point.noConfusion
    | joinLoop pid c =>
      rcases joinLoop_cases hp with ⟨x, -, hy⟩ | ⟨-, cur, -, rfl⟩
      · exact yield_mapped ho.linked hy fun _ => hown Point.noConfusion
      · exact fun _ _ => hown Point.noConfusion
    | forkTail pid =>
      obtain ⟨T₀, -, hp⟩ := bind_eq_ok.mp hp
      cases hp
      exact fun _ _ => hown Point.noConfusion
    | threadRoot =>
      -- the new thread gets its page table before its first user instruction
      obtain ⟨T, hT, hp⟩ := bind_eq_ok.mp hp
      obtain ⟨s, hs', hp⟩ := bind_eq_ok.mp hp
      obtain ⟨S, hS, hp⟩ := bind_eq_ok.mp hp
      rw [deref_eq_ok] at hT hs' hS
      cases hp
      refine fun _ _ => ⟨s, S, ?_, hS, rfl, rfl⟩
      show k.spaceOf k.currentThread = _
      rw [Kernel.spaceOf, hT]
      exact hs'
  · exact fun _ _ => hu.ownTable (h (by rw [hc]; exact Control.noConfusion) (by rw [hc]; simp))
  · obtain ⟨hc, -, hu, -⟩ := syscallEntry_spec he
    have ho₁ := hu.quiet.owning ho
    have hown := hu.ownTable (h (by rw [hc]; exact Control.noConfusion) (by rw [hc]; simp))
    rcases syscall_cases hsys with ⟨-, hsys⟩ | ⟨-, hsys⟩ | ⟨-, hsys⟩ | ⟨-, rfl⟩ |
        ⟨-, hsys⟩ | ⟨-, hsys⟩ | ⟨-, hsys⟩
    · exact exit_mapped ho₁.linked hsys
    · exact exec_mapped hown hsys
    · obtain ⟨cur, -, rfl | ⟨x, -, -, -, rfl⟩⟩ := join_cases hsys
      · exact fun _ _ => hown
      · exact fun _ _ => hown
    · exact fun _ _ => hown
    · exact fork_mapped ho₁.linked hown hsys
    · exact yield_mapped ho₁.linked hsys fun _ => hown
    · exact kill_mapped ho₁ hown hsys

theorem Mapped.start {b : Boot}
    (h : startProcess b.env (boot b.junk b.junkTable b.junkRegisters) b.filename = .ok k) :
    Mapped k := by
  obtain ⟨file, S, hs⟩ := startProcess_spec h
  refine fun _ _ => ⟨2, { S with pcb := some 1 }, ?_, ?_, hs.pageTable, hs.pageTableSize⟩
  · rw [hs.currentThread, Kernel.spaceOf, hs.threads, Function.update_self]
    rfl
  · rw [hs.spaces, Function.update_self]

theorem Mapped.run {b : Boot} {envs : List Env} (h : runs b envs = some k) : Mapped k :=
  (runs_invariant (I := fun k => Owning k ∧ Mapped k) (G := fun _ => True)
    (fun _ hk => ⟨.start hk, .start hk⟩) (fun _ _ _ hk _ hs => ⟨hk.1.step hs, hk.2.step hk.1 hs⟩)
    (fun _ _ => trivial) h).2

/-! ## What a process sees -/

/-- The registers, the mapping and the memory of a process. -/
structure View where
  registers : Registers
  numPages : Nat
  mapping : List (BitVec 32 × Bool × Bool)
  /-- What reading the byte at a virtual address gives, if it translates. -/
  bytes : BitVec 32 → Option (BitVec 32)

/-- The user registers of a thread: they are in the machine while it runs, and in
the thread while it does not, or has not been given the machine yet. -/
def userState (k : Kernel) (t : Nat) : Option Registers :=
  if t = k.currentThread ∧ k.control ≠ .tick .threadRoot ∧ k.control ≠ .run .threadRoot
  then some k.registers else (k.threads t).map Thread.userRegisters

def viewOf (k : Kernel) (p : Nat) : Option View := do
  let P ← k.pcbs p
  let s ← k.spaceOf P.processThread
  let S ← k.spaces s
  let registers ← k.userState P.processThread
  return ⟨registers, S.numPages, S.pageTable.map TranslationEntry.mapping, fun a =>
    ((Machine.mk registers k.mainMemory S.pageTable S.numPages).readMem a 1).toOption.map Prod.fst⟩

theorem userState_of_ne {t : Nat} (h : t ≠ k.currentThread) :
    k.userState t = (k.threads t).map Thread.userRegisters := by
  rw [userState, if_neg fun hc => h hc.1]

/-- A thread that was not running keeps its registers, whether it runs now or
does not. -/
theorem Undisturbed.userState {t : Nat} {T : Thread} (h : Undisturbed k' t T) :
    k'.userState t = some T.userRegisters := by
  unfold Kernel.userState
  split
  · rename_i hc
    rcases h.resumed hc.1.symm with ⟨-, hroot⟩ | ⟨p, s, S, -, -, hr, -⟩
    · exact absurd hroot hc.2.1
    · rw [hr]
  · rw [h.thread, Option.map_some]

/-- What a step leaves alone of a process `q` that is not the current one. -/
structure Untouched (k k' : Kernel) (q : Nat) (Q : PCB) (s : Nat) (S : AddrSpace) : Prop where
  pcb : ∃ Q', k'.pcbs q = some Q' ∧ Q'.processThread = Q.processThread
  spaceOf : k'.spaceOf Q.processThread = some s
  space : ∃ S', k'.spaces s = some S' ∧ shape S' = shape S
  memory : ∀ x, x / pageSize ∈ frames S.pageTable → k'.mainMemory x = k.mainMemory x

theorem viewOf_eq {q s : Nat} {Q : PCB} {S : AddrSpace} {r : Registers} (hQ : k.pcbs q = some Q)
    (hs : k.spaceOf Q.processThread = some s) (hS : k.spaces s = some S)
    (hr : k.userState Q.processThread = some r) :
    k.viewOf q = some ⟨r, S.numPages, S.pageTable.map TranslationEntry.mapping, fun a =>
      ((Machine.mk r k.mainMemory S.pageTable S.numPages).readMem a 1).toOption.map Prod.fst⟩ := by
  simp only [viewOf, hQ, hs, hS, hr, Option.bind_eq_bind, Option.bind_some, Option.pure_def]

theorem Untouched.viewOf {q s : Nat} {Q : PCB} {S : AddrSpace} (h : Untouched k k' q Q s S)
    (hQ : k.pcbs q = some Q) (hs : k.spaceOf Q.processThread = some s) (hS : k.spaces s = some S)
    {r : Registers} (hr : k.userState Q.processThread = some r)
    (hr' : k'.userState Q.processThread = some r) : k'.viewOf q = k.viewOf q := by
  obtain ⟨Q', hQ', hth⟩ := h.pcb
  obtain ⟨S', hS', hshape⟩ := h.space
  simp only [shape, Prod.mk.injEq] at hshape
  rw [viewOf_eq hQ hs hS hr, viewOf_eq hQ' (hth ▸ h.spaceOf) hS' (hth ▸ hr')]
  congr 1
  rw [hshape.2.1, hshape.2.2]
  congr 1
  funext a
  apply Machine.readMem_congr
  · rfl
  · exact hshape.2.2
  · exact fun x hx => h.memory x (mem_frames_of_maps hx)

/-! ## Every step leaves the other processes alone -/

/-- Memory is written by user instructions and by the loops that fill new
frames; a change of threads does not touch it. -/
theorem yield_memory {p : Point} (h : k.yield p = .ok k') : k'.mainMemory = k.mainMemory := by
  rcases yield_spec h with ⟨-, rfl⟩ | ⟨n, rest, T₀, -, -, hd⟩
  · rfl
  · obtain ⟨r, pt, m, ths, d, c, rfl⟩ := hd.rest
    rfl

theorem oneTick_memory {p : Point} (h : k.oneTick env p = .ok k') :
    k'.mainMemory = k.mainMemory := by
  unfold oneTick at h
  split at h
  · obtain ⟨r, -, h⟩ := bind_eq_ok.mp h
    exact (yield_memory h).trans rfl
  · cases h
    rfl

theorem runPoint_memory {p : Point} (hp : p ≠ .user) (h : k.runPoint env p = .ok k') :
    k'.mainMemory = k.mainMemory := by
  cases p with
  | user => exact absurd rfl hp
  | yieldTail =>
    cases h
    rfl
  | joinLoop pid c =>
    rcases joinLoop_cases h with ⟨x, -, hy⟩ | ⟨-, cur, -, rfl⟩
    · exact yield_memory hy
    · rfl
  | forkTail pid =>
    obtain ⟨T₀, -, h⟩ := bind_eq_ok.mp h
    cases h
    rfl
  | threadRoot =>
    obtain ⟨T, -, h⟩ := bind_eq_ok.mp h
    obtain ⟨s, -, h⟩ := bind_eq_ok.mp h
    obtain ⟨S, -, h⟩ := bind_eq_ok.mp h
    cases h
    rfl

section
variable {q s : Nat} {Q : PCB} {S : AddrSpace} (ho : Owning k) (hQ : k.pcbs q = some Q)
  (hs : k.spaceOf Q.processThread = some s) (hS : k.spaces s = some S)
include ho hQ hs hS

theorem Quiet.untouched (hq : Quiet k k')
    (hmem : ∀ x, x / pageSize ∈ frames S.pageTable → k'.mainMemory x = k.mainMemory x) :
    Untouched k k' q Q s S := by
  have hth := (ho.linked.runnable Q.processThread).mpr ⟨q, Q, hQ, rfl⟩
  refine ⟨⟨Q, by rw [hq.pcbs, hQ], rfl⟩, ?_, ?_, hmem⟩
  · rw [hq.spaceOf _ (ho.linked.not_doomed hth), hs]
  · have := hq.spaces s
    rw [hS, Option.map_some, Option.map_eq_some_iff] at this
    exact this

/-- A user instruction writes to frames of its own address space. -/
theorem UserRun.untouched (hown : OwnTable k) (hne : Q.processThread ≠ k.currentThread)
    (hu : UserRun k k') : Untouched k k' q Q s S := by
  refine hu.quiet.untouched ho hQ hs hS fun x hx => ?_
  obtain ⟨s₀, S₀, S', hpt, hS₀, -, -, -, -, hmem⟩ := hu.space
  obtain ⟨s₁, S₁, hs₁, -, hpt', -⟩ := hown
  rw [hpt, Option.some.injEq] at hpt'
  subst hpt'
  refine hmem x fun hm => ho.linked.space_ne hQ hs hs₁ hne ?_
  refine ho.frames.owned.eq_of_mem s s₀ (x / pageSize) ?_ ?_
  · rw [framesOf_eq hS]
    exact hx
  · rw [framesOf_eq hS₀]
    exact mem_frames_of_maps hm

/-- `fork` writes to frames that were free. -/
theorem fork_untouched (hf : k.fork env = .ok k') : Untouched k k' q Q s S := by
  have hlt : ∀ {t}, t ∈ k.currentThread :: k.readyList → t < k.nextId :=
    fun ht => ho.linked.lt_nextId (ho.linked.threads_ne_none ht)
  have hkeeps := fork_keeps hf (hlt List.mem_cons_self)
  have hth := (ho.linked.runnable Q.processThread).mpr ⟨q, Q, hQ, rfl⟩
  obtain ⟨cs, d, hQ'⟩ := ho.tree.fork_pcbs hf hQ
  have hsn : s < k.nextId := by
    by_contra hge
    rw [ho.linked.freshSpaces s (Nat.le_of_not_lt hge)] at hS
    cases hS
  refine ⟨⟨_, hQ', rfl⟩, (hkeeps.spaceOf (hlt hth)).trans hs, ⟨S, (hkeeps.spaces s hsn).trans hS, rfl⟩,
    fun x hx => ?_⟩
  rcases fork_spaces hf with ⟨-, -, hmem, -⟩ | ⟨cur, S', pcb, hpr, hcopy, -, -⟩
  · rw [hmem]
  · obtain ⟨-, -, hcS, -, -⟩ := process_spec hpr
    obtain ⟨-, ha, -, -, hmem⟩ :=
      AddrSpace.copy_spec ho.frames.numBits (ho.frames.length _ _ hcS) hcopy
    refine hmem x fun hnew => (ha.free _ hnew).2 ((ho.frames.owned.mem_used _).mpr ⟨s, ?_⟩)
    rw [framesOf_eq hS]
    exact hx

/-- The end of another process. -/
theorem tearDown_untouched {pid : Int} {p s' : Nat} {pcb : PCB} {S' : AddrSpace} {status : Option (BitVec 32)}
    {k₁ : Kernel} (hP : k.pcbs p = some pcb) (hs' : k.spaceOf pcb.processThread = some s')
    (hne : q ≠ p) (ht : k.tearDown pid p pcb s' S' status = .ok k₁)
    (hpcbs : k'.pcbs = k₁.pcbs) (hspaces : k'.spaces = k₁.spaces)
    (hmem : k'.mainMemory = k₁.mainMemory)
    (hspaceOf : k'.spaceOf Q.processThread = k.spaceOf Q.processThread) :
    Untouched k k' q Q s S := by
  obtain ⟨i, b, pcbs', -, -, -, hpcbs', rfl⟩ := tearDown_spec hP ht
  refine ⟨⟨survivor p pcb status q Q, ?_, rfl⟩, hspaceOf.trans hs, ⟨S, ?_, rfl⟩,
    fun x _ => by rw [hmem]⟩
  · rw [hpcbs]
    exact hpcbs'.survives hQ hne
  · rw [hspaces]
    refine (Function.update_of_ne (fun heq => hne ?_) _ _).trans hS
    exact ho.linked.eq_of_space hQ hP hs (heq ▸ hs')

theorem exit_untouched (hne : Q.processThread ≠ k.currentThread) (he : k.exit = .ok k') :
    Untouched k k' q Q s S := by
  obtain ⟨cur, k₁, n, rest, hcur, htear, -, hd⟩ := exit_cases he
  obtain ⟨hT, hcs, -, -, hP⟩ := process_spec hcur
  have hcth := ho.linked.process_eq List.mem_cons_self hcur
  have hqp : q ≠ cur.pcbId := fun heq => by
    rw [heq, hP, Option.some.injEq] at hQ
    exact hne (by rw [← hQ, hcth])
  have hthreads : k₁.threads = k.threads ∧ k₁.currentThread = k.currentThread := by
    obtain ⟨i, b, pcbs', -, -, -, -, rfl⟩ := tearDown_spec hP htear
    exact ⟨rfl, rfl⟩
  have hspaceOf : k'.spaceOf Q.processThread = k.spaceOf Q.processThread := by
    refine (hd.spaceOf _ fun heq => hne ?_).trans ?_
    · rw [← hthreads.2]
      exact (Option.some.inj heq).symm
    · show (k₁.threads _).bind _ = _
      rw [hthreads.1]
      rfl
  obtain ⟨r, pt, m, ths, d, c, rfl⟩ := hd.rest
  exact tearDown_untouched ho hQ hs hS hP (by rw [hcth, Kernel.spaceOf, hT]; exact hcs) hqp htear
    rfl rfl rfl hspaceOf

theorem kill_untouched (hne : Q.processThread ≠ k.currentThread)
    (hq : k.getProcess (k.registers 4).toInt ≠ .ok (some q)) (hk : k.kill = .ok k') :
    Untouched k k' q Q s S := by
  obtain ⟨cur, -, rfl | ⟨-, he⟩ | ⟨p, pcb, T, s', S', k₁, hg, -, hP, hT, hs', -, htear, rfl⟩⟩ :=
    kill_cases hk
  · exact (Quiet.of_registers _ _ _ _).untouched ho hQ hs hS fun _ _ => rfl
  · exact exit_untouched ho hQ hs hS hne he
  · have hthreads : k₁.threads = k.threads := by
      obtain ⟨i, b, pcbs', -, -, -, -, rfl⟩ := tearDown_spec hP htear
      rfl
    refine tearDown_untouched ho hQ hs hS hP (by rw [Kernel.spaceOf, hT]; exact hs')
      (fun heq => hq (heq ▸ hg)) htear rfl rfl rfl ?_
    show (k₁.threads _).bind _ = _
    rw [hthreads]
    rfl

/-- An `Exec` that returns -1. -/
theorem exec_untouched (hne : Q.processThread ≠ k.currentThread) (he : k.exec env = .ok k')
    (hret : k'.registers 2 = -1) : Untouched k k' q Q s S := by
  obtain ⟨cur, S', r, hcur, hr, ⟨rfl, rfl⟩ | ⟨vm, mem, -, rfl⟩⟩ := exec_cases he
  · obtain ⟨hT, hcs, hcS, -, -⟩ := process_spec hcur
    refine ⟨⟨Q, hQ, rfl⟩, hs, ⟨S, (Function.update_of_ne ?_ _ _).trans hS, rfl⟩, fun _ _ => rfl⟩
    refine ho.linked.space_ne hQ hs ?_ hne
    rw [Kernel.spaceOf, hT]
    exact hcs
  · have h1 : ((initRegisters S'.numPages).write 2 1).update 2 = 1 := rfl
    have hret' : ((initRegisters S'.numPages).write 2 1).update 2 = -1 := hret
    rw [h1] at hret'
    exact absurd hret' (by decide)

end

/-- The step is not a `Kill` of process `q`, nor an `Exec` that succeeds. -/
def Spares (env : Env) (k : Kernel) (q : Nat) : Prop :=
  ∀ k₁, k.syscallEntry = some k₁ →
    ((k₁.registers 2).toNat = 11 → k₁.getProcess (k₁.registers 4).toInt ≠ .ok (some q)) ∧
    ((k₁.registers 2).toNat = 2 → ∀ k', k₁.exec env = .ok k' → k'.registers 2 = -1)

theorem step_untouched {q s : Nat} {Q : PCB} {S : AddrSpace} (ho : Owning k) (hm : Mapped k)
    (hQ : k.pcbs q = some Q) (hs : k.spaceOf Q.processThread = some s) (hS : k.spaces s = some S)
    (hne : Q.processThread ≠ k.currentThread) (hspares : Spares env k q)
    (h : Kernel.step env k = .ok k') : Untouched k k' q Q s S := by
  rcases step_cases h with ⟨p, -, h⟩ | ⟨p, hp, -, h⟩ | ⟨hc, -, h⟩ | ⟨k₁, he, h⟩
  · exact (oneTick_quiet h).untouched ho hQ hs hS fun _ _ => by rw [oneTick_memory h]
  · exact (runPoint_quiet hp h).untouched ho hQ hs hS fun _ _ => by rw [runPoint_memory hp h]
  · exact h.untouched ho hQ hs hS (hm (by rw [hc]; exact Control.noConfusion) (by rw [hc]; simp)) hne
  · obtain ⟨hc, -, hu, -⟩ := syscallEntry_spec he
    obtain ⟨hkill, hexec⟩ := hspares k₁ he
    have hown : OwnTable k := hm (by rw [hc]; exact Control.noConfusion) (by rw [hc]; simp)
    -- the trap, as far as the handler
    have hu₁ := hu.untouched ho hQ hs hS hown hne
    have ho₁ := hu.quiet.owning ho
    obtain ⟨S₁, hS₁, hshape⟩ := hu₁.space
    have hframes : frames S₁.pageTable = frames S.pageTable :=
      frames_congr (congrArg (fun x => x.2.2) hshape)
    have hQ₁ : k₁.pcbs q = some Q := by rw [hu.quiet.pcbs, hQ]
    have hne₁ : Q.processThread ≠ k₁.currentThread := by
      obtain ⟨r, mem, spaces, c, rfl⟩ := hu.rest
      exact hne
    -- then the system call
    have key : Untouched k₁ k' q Q s S₁ := by
      have hs₁ := hu₁.spaceOf
      rcases syscall_cases h with ⟨-, h⟩ | ⟨h2, h⟩ | ⟨-, h⟩ | ⟨-, rfl⟩ |
          ⟨-, h⟩ | ⟨-, h⟩ | ⟨h11, h⟩
      · exact exit_untouched ho₁ hQ₁ hs₁ hS₁ hne₁ h
      · exact exec_untouched ho₁ hQ₁ hs₁ hS₁ hne₁ h (hexec h2 k' h)
      · refine (join_quiet h).untouched ho₁ hQ₁ hs₁ hS₁ fun _ _ => ?_
        obtain ⟨cur, -, rfl | ⟨x, -, -, -, rfl⟩⟩ := join_cases h
        · rfl
        · rfl
      · exact (Quiet.of_registers _ _ _ _).untouched ho₁ hQ₁ hs₁ hS₁ fun _ _ => rfl
      · exact fork_untouched ho₁ hQ₁ hs₁ hS₁ h
      · exact (yield_quiet h).untouched ho₁ hQ₁ hs₁ hS₁ fun _ _ => by rw [yield_memory h]
      · exact kill_untouched ho₁ hQ₁ hs₁ hS₁ hne₁ (hkill h11) h
    obtain ⟨S₂, hS₂, hshape₂⟩ := key.space
    refine ⟨key.pcb, key.spaceOf, ⟨S₂, hS₂, hshape₂.trans hshape⟩, fun x hx => ?_⟩
    rw [key.memory x (hframes ▸ hx), hu₁.memory x hx]

/-- Isolation in the state `k`: whatever the current process does next, it
leaves the view of every other process `q` alone, unless it kills `q` or
replaces its own program; and user instructions run with the page table of their
own process. -/
structure Isolated (k : Kernel) : Prop where
  view : ∀ q, k.pcbs q ≠ none → k.viewOf q ≠ none
  step : ∀ env k' q Q, Kernel.step env k = .ok k' → k.pcbs q = some Q →
    Q.processThread ≠ k.currentThread → Spares env k q → k'.viewOf q = k.viewOf q
  own : k.control = .run .user → ∃ s S, k.spaceOf k.currentThread = some s ∧
    k.spaces s = some S ∧ k.pageTable = some s ∧ k.pageTableSize = S.numPages

theorem Isolated.of_mapped (ho : Owning k) (hm : Mapped k) : Isolated k := by
  refine ⟨fun q hq hv => ?_, fun env k' q Q hstep hQ hne hspares => ?_, fun hc => ?_⟩
  · obtain ⟨Q, hQ⟩ := Option.ne_none_iff_exists'.mp hq
    obtain ⟨s, S, hs, hS, -⟩ := ho.linked.link q Q hQ
    obtain ⟨T, hT⟩ := Option.ne_none_iff_exists'.mp
      (ho.linked.threads_ne_none ((ho.linked.runnable _).mpr ⟨q, Q, hQ, rfl⟩))
    have hr : ∃ r, k.userState Q.processThread = some r := by
      unfold userState
      split
      · exact ⟨_, rfl⟩
      · exact ⟨T.userRegisters, by rw [hT, Option.map_some]⟩
    obtain ⟨r, hr⟩ := hr
    rw [viewOf_eq hQ hs hS hr] at hv
    cases hv
  · obtain ⟨s, S, hs, hS, -⟩ := ho.linked.link q Q hQ
    have hmem := (ho.linked.runnable Q.processThread).mpr ⟨q, Q, hQ, rfl⟩
    obtain ⟨T, hT⟩ := Option.ne_none_iff_exists'.mp (ho.linked.threads_ne_none hmem)
    have hready : Q.processThread ∈ k.readyList := by
      rcases List.mem_cons.mp hmem with heq | hin
      · exact absurd heq hne
      · exact hin
    have hu := ho.linked.step_other hstep hT hready
    refine (step_untouched ho hm hQ hs hS hne hspares hstep).viewOf hQ hs hS ?_ hu.userState
    rw [userState_of_ne hne, hT, Option.map_some]
  · exact hm (by rw [hc]; exact Control.noConfusion) (by rw [hc]; simp)

/-- Isolation, in every state reached. -/
theorem isolated_run {b : Boot} {envs : List Env} (h : runs b envs = some k) : Isolated k :=
  .of_mapped (.run h) (.run h)

/-- A process forks (`r2 := 9; syscall`), the child starts and forks in turn. -/
theorem isolated_run_fork :
    let code : List (BitVec 32) := [0x24020009, 0x0000000c]
    ∃ k, runs (plainBoot code) ([false, false, false, true, false, false, false, false, false].map
        (plainEnv code)) = some k ∧ Isolated k := by
  intro code
  obtain ⟨k, hk⟩ := Option.isSome_iff_exists.mp (show (runs (plainBoot code)
    ([false, false, false, true, false, false, false, false, false].map
      (plainEnv code))).isSome = true by decide +kernel)
  exact ⟨k, hk, isolated_run hk⟩

end Kernel

end Nachos
