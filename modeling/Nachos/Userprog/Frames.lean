import Mathlib.Algebra.Group.Action.Defs
import Nachos.Framework.Ownership
import Nachos.Userprog.Linked

/-!
# Frames of main memory

No frame belongs to two address spaces, and the bitmap of the memory manager
marks the frames of the address spaces, through every way of getting frames and
giving them back.

* `FramesOwned`: the invariant, for all address spaces there are; it holds after
  every run, with any executables (`FramesOwned.run`);
* `NoLeak`: every address space belongs to a process. `Fork` would lose one if
  it found room in memory but no PID, which `NoLeak.card_pids` excludes: every
  process has 8 pages or more, so memory is full first;
* `frameOwnership_run`: what follows for the processes.
-/

namespace Nachos.Kernel

open Nachos.Framework

variable {env : Env} {k k' : Kernel}

/-- The frames of an address space. -/
def framesOf (k : Kernel) (s : Nat) : List Nat :=
  ((k.spaces s).map fun S => frames S.pageTable).getD []

theorem framesOf_eq {s : Nat} {S : AddrSpace} (h : k.spaces s = some S) :
    k.framesOf s = frames S.pageTable := by
  rw [framesOf, h]
  rfl

theorem framesOf_of_none {s : Nat} (h : k.spaces s = none) : k.framesOf s = [] := by
  rw [framesOf, h]
  rfl

theorem framesOf_update {s : Nat} {o : Option AddrSpace}
    (h : k'.spaces = Function.update k.spaces s o) :
    k'.framesOf = Function.update k.framesOf s ((o.map fun S => frames S.pageTable).getD []) := by
  funext s'
  by_cases hs : s' = s
  · simp only [framesOf, h, hs, Function.update_self]
  · simp only [framesOf, h, Function.update_of_ne hs]

structure FramesOwned (k : Kernel) : Prop where
  numBits : k.virtMem.numBits = numPhysPages
  length : ∀ s S, k.spaces s = some S → S.pageTable.length = S.numPages
  owned : Owned k.framesOf k.virtMem.marked

theorem FramesOwned.mem_lt (h : FramesOwned k) {s f : Nat} {S : AddrSpace}
    (hS : k.spaces s = some S) (hf : f ∈ frames S.pageTable) : f < numPhysPages := by
  have hm := (h.owned.mem_used f).mpr ⟨s, by rw [framesOf_eq hS]; exact hf⟩
  have := Finset.mem_range.mp (k.virtMem.marked_subset hm)
  rwa [h.numBits] at this

/-- The pages of an address space are frames in use. -/
theorem FramesOwned.numPages_le (h : FramesOwned k) {s : Nat} {S : AddrSpace}
    (hS : k.spaces s = some S) : S.numPages + k.virtMem.numClear ≤ numPhysPages := by
  have h₁ := Finset.card_le_card (h.owned.toFinset_subset s)
  rw [h.owned.card_toFinset, framesOf_eq hS, frames, List.length_map, h.length s S hS] at h₁
  have h₂ := k.virtMem.numClear_add_card
  rw [h.numBits] at h₂
  omega

/-- Giving back the frames of an address space makes as many frames free. -/
theorem FramesOwned.numClear_release (h : FramesOwned k) {s : Nat} {S : AddrSpace} {b : BitMap}
    (hS : k.spaces s = some S) (hn : b.numBits = k.virtMem.numBits)
    (hm : b.marked = k.virtMem.marked \ (frames S.pageTable).toFinset) :
    b.numClear = k.virtMem.numClear + S.numPages := by
  have hsub := h.owned.toFinset_subset s
  have hcard := h.owned.card_toFinset s
  rw [framesOf_eq hS] at hsub hcard
  rw [frames, List.length_map, h.length s S hS] at hcard
  have hc : b.marked.card = k.virtMem.marked.card - S.numPages := by
    rw [hm, Finset.card_sdiff_of_subset hsub]
    exact congrArg (k.virtMem.marked.card - ·) hcard
  have hle := Finset.card_le_card hsub
  have h₁ := k.virtMem.numClear_add_card
  have h₂ := b.numClear_add_card
  rw [hn] at h₂
  have hcard' : (frames S.pageTable).toFinset.card = S.numPages := hcard
  omega

/-- The check of `Exec`, made on the difference of two `unsigned int`s, lets
through only programs for which there is room once the old one is gone. In
particular it lets through none that needs fewer pages. -/
theorem FramesOwned.room (h : FramesOwned k) {s : Nat} {S : AddrSpace} {noffH : NoffHeader}
    {b : BitMap} (hS : k.spaces s = some S)
    (hcheck : (BitVec.ofNat 32 noffH.numPages - BitVec.ofNat 32 S.numPages).toNat ≤
      k.virtMem.numClear)
    (hn : b.numBits = k.virtMem.numBits)
    (hm : b.marked = k.virtMem.marked \ (frames S.pageTable).toFinset) :
    noffH.numPages ≤ b.numClear := by
  have h₁ := h.numClear_release hS hn hm
  have h₂ := h.numPages_le hS
  have h₃ := noffH.numPages_lt
  rw [BitVec.toNat_sub, BitVec.toNat_ofNat, BitVec.toNat_ofNat] at hcheck
  unfold numPhysPages at h₂
  omega

/-! ## Every step keeps it -/

theorem FramesOwned.congr (h : FramesOwned k) (hv : k'.virtMem = k.virtMem)
    (hs : ∀ s, (k'.spaces s).map shape = (k.spaces s).map shape) : FramesOwned k' := by
  have hlook : ∀ {s S'}, k'.spaces s = some S' → ∃ S, k.spaces s = some S ∧
      S'.numPages = S.numPages ∧ S'.pageTable.map TranslationEntry.mapping =
        S.pageTable.map TranslationEntry.mapping := by
    intro s S' hS'
    have hs := hs s
    rw [hS', Option.map_some, eq_comm, Option.map_eq_some_iff] at hs
    obtain ⟨S, hS, hshape⟩ := hs
    simp only [shape, Prod.mk.injEq] at hshape
    exact ⟨S, hS, hshape.2.1.symm, hshape.2.2.symm⟩
  have hframes : k'.framesOf = k.framesOf := by
    funext s
    cases hS' : k'.spaces s with
    | none =>
      have hs := hs s
      rw [hS', Option.map_none, eq_comm, Option.map_eq_none_iff] at hs
      rw [framesOf_of_none hS', framesOf_of_none hs]
    | some S' =>
      obtain ⟨S, hS, -, hmap⟩ := hlook hS'
      rw [framesOf_eq hS', framesOf_eq hS, frames_congr hmap]
  refine ⟨hv ▸ h.numBits, fun s S' hS' => ?_, by rw [hv, hframes]; exact h.owned⟩
  obtain ⟨S, hS, hnum, hmap⟩ := hlook hS'
  have hl : S'.pageTable.length = S.pageTable.length := by simpa using congrArg List.length hmap
  rw [hnum, ← h.length s S hS, hl]

/-- An address space with new frames. -/
theorem FramesOwned.allocate (h : FramesOwned k) {s : Nat} {S : AddrSpace}
    (hs : k.framesOf s = []) (ha : Allocated k.virtMem k'.virtMem (frames S.pageTable))
    (hl : S.pageTable.length = S.numPages)
    (hspaces : k'.spaces = Function.update k.spaces s (some S)) : FramesOwned k' := by
  refine ⟨ha.numBits.trans h.numBits, fun s' S' hS' => ?_, ?_⟩
  · rw [hspaces] at hS'
    by_cases hs' : s' = s
    · rw [hs', Function.update_self, Option.some.injEq] at hS'
      rw [← hS', hl]
    · rw [Function.update_of_ne hs'] at hS'
      exact h.length s' S' hS'
  · rw [framesOf_update hspaces, ha.marked]
    exact h.owned.take hs ha.nodup fun f hf => (ha.free f hf).2

/-- An address space whose frames are given back. -/
theorem FramesOwned.release (h : FramesOwned k) {s : Nat} {S : AddrSpace}
    (hS : k.spaces s = some S) (hn : k'.virtMem.numBits = k.virtMem.numBits)
    (hm : k'.virtMem.marked = k.virtMem.marked \ (frames S.pageTable).toFinset)
    (hspaces : k'.spaces = Function.update k.spaces s none) : FramesOwned k' := by
  refine ⟨hn.trans h.numBits, fun s' S' hS' => ?_, ?_⟩
  · rw [hspaces] at hS'
    by_cases hs' : s' = s
    · rw [hs', Function.update_self] at hS'
      cases hS'
    · rw [Function.update_of_ne hs'] at hS'
      exact h.length s' S' hS'
  · rw [framesOf_update hspaces, hm, ← framesOf_eq hS]
    exact h.owned.release s

/-- `fork` copies the current address space, into the space that `nextId`
numbers, or leaves the address spaces alone. -/
theorem fork_spaces (h : k.fork env = .ok k') :
    (k'.spaces = k.spaces ∧ k'.virtMem = k.virtMem ∧ k'.mainMemory = k.mainMemory ∧
      k'.pcbs = k.pcbs) ∨
    ∃ cur S pcb, k.process k.currentThread = .ok cur ∧
      cur.space.copy k.virtMem k.mainMemory = some (S, k'.virtMem, k'.mainMemory) ∧
      k'.spaces = Function.update k.spaces k.nextId (some { S with pcb := pcb }) ∧
      ((k.pids.marked = Finset.range k.pids.numBits ∧ k'.pcbs = k.pcbs) ∨
        ∃ P, k'.pcbs (k.nextId + 2) = some P ∧ k'.spaceOf P.processThread = some k.nextId) := by
  obtain ⟨cur, hpr, hcase⟩ := fork_cases h
  rcases hcase with ⟨-, rfl⟩ | ⟨S, vm, mem, hcopy, ⟨hall, rfl⟩ | ⟨i, -, -, -, rfl⟩⟩
  · exact .inl ⟨rfl, rfl, rfl, rfl⟩
  · exact .inr ⟨cur, S, S.pcb, hpr, hcopy, rfl, .inl ⟨hall, rfl⟩⟩
  · refine .inr ⟨cur, S, some (k.nextId + 2), hpr, hcopy, ?_, .inr ⟨_, Function.update_self _ _ _, ?_⟩⟩
    · exact Function.update_idem _ _ _
    · exact (spaceOf_setThread _ _ _ _).trans (if_pos rfl)

theorem FramesOwned.fork (h : FramesOwned k) (hl : Linked k) (hf : k.fork env = .ok k') :
    FramesOwned k' := by
  rcases fork_spaces hf with ⟨hs, hv, -, -⟩ | ⟨cur, S, pcb, hpr, hcopy, hs, -⟩
  · exact h.congr hv fun s => by rw [hs]
  · obtain ⟨-, -, hS, -, -⟩ := process_spec hpr
    obtain ⟨-, ha, hlen, -, -⟩ := AddrSpace.copy_spec h.numBits (h.length _ _ hS) hcopy
    exact h.allocate (S := { S with pcb := pcb })
      (framesOf_of_none (hl.freshSpaces _ (Nat.le_refl _))) ha hlen hs

theorem FramesOwned.tearDown (h : FramesOwned k) {pid : Int} {p s : Nat} {pcb : PCB} {S : AddrSpace}
    {status : Option (BitVec 32)} (hp : k.pcbs p = some pcb) (hS : k.spaces s = some S)
    (ht : k.tearDown pid p pcb s S status = .ok k') : FramesOwned k' := by
  obtain ⟨i, b, pcbs', -, -, hrel, -, rfl⟩ := tearDown_spec hp ht
  obtain ⟨hn, hm⟩ := releasePhysicalMemory_spec hrel
  exact h.release hS hn hm rfl

theorem FramesOwned.exit (h : FramesOwned k) (he : k.exit = .ok k') : FramesOwned k' := by
  obtain ⟨cur, k₁, n, rest, hcur, htear, -, hd⟩ := exit_cases he
  obtain ⟨-, -, hS, -, hP⟩ := process_spec hcur
  have h₁ := h.tearDown hP hS htear
  obtain ⟨r, pt, m, ths, d, c, rfl⟩ := hd.rest
  exact h₁.congr rfl fun _ => rfl

theorem FramesOwned.kill (h : FramesOwned k) (hk : k.kill = .ok k') : FramesOwned k' := by
  obtain ⟨cur, -, hcase⟩ := kill_cases hk
  rcases hcase with rfl | ⟨-, he⟩ | ⟨p, pcb, T, s, S, k₁, -, -, hP, -, -, hS, htear, rfl⟩
  · exact h.congr rfl fun _ => rfl
  · exact h.exit he
  · exact (h.tearDown hP hS htear).congr rfl fun _ => rfl

theorem FramesOwned.exec (h : FramesOwned k) (he : k.exec env = .ok k') : FramesOwned k' := by
  obtain ⟨cur, S, r, hcur, hr, hcase⟩ := exec_cases he
  obtain ⟨-, -, hS, -, -⟩ := process_spec hcur
  obtain ⟨hpcb, hrep⟩ := AddrSpace.replace_spec hr
  rcases hcase with ⟨rfl, rfl⟩ | ⟨vm, mem, rfl, rfl⟩
  · rcases hrep with ⟨-, hnum, hmap⟩ | ⟨_, _, _, _, _, hr, -⟩
    · refine h.congr rfl fun s => ?_
      show ((Function.update k.spaces cur.spaceId (some S)) s).map shape = (k.spaces s).map shape
      by_cases hs : s = cur.spaceId
      · rw [hs, Function.update_self, hS, Option.map_some, Option.map_some, shape, shape, hpcb,
          hnum, hmap]
      · rw [Function.update_of_ne hs]
    · cases hr
  · rcases hrep with ⟨hr, -⟩ | ⟨file, noffH, b₁, b₂, memory', hr, -, -, hnum, hcheck, hn, hm, hload⟩
    · cases hr
    · cases hr
      obtain ⟨ha, hlen⟩ := load_spec (hn.trans h.numBits) (h.room hS hcheck hn hm) hload
      -- the old frames go back first, then the new ones are taken
      have hrel : FramesOwned { k with
          virtMem := b₁, spaces := Function.update k.spaces cur.spaceId none } :=
        h.release hS hn hm rfl
      refine hrel.allocate (framesOf_of_none (Function.update_self _ _ _)) ha
        (hlen.trans hnum.symm) ?_
      exact (Function.update_idem _ _ _).symm

/-- Kept by every step, together with what it rests on. -/
structure Owning (k : Kernel) : Prop where
  tree : ProcessTree k
  linked : Linked k
  frames : FramesOwned k

theorem Quiet.framesOwned (hq : Quiet k k') (h : FramesOwned k) : FramesOwned k' :=
  h.congr hq.virtMem hq.spaces

theorem Quiet.owning (hq : Quiet k k') (h : Owning k) : Owning k' :=
  ⟨h.tree.congr hq.pcbs hq.pcbTable hq.pids hq.nextId.ge, hq.linked h.linked,
    hq.framesOwned h.frames⟩

theorem Owning.fork (h : Owning k) (hf : k.fork env = .ok k') : Owning k' :=
  ⟨h.tree.fork hf, h.linked.fork h.tree hf, h.frames.fork h.linked hf⟩

theorem Owning.exec (h : Owning k) (he : k.exec env = .ok k') : Owning k' :=
  ⟨h.tree.exec he, h.linked.exec he, h.frames.exec he⟩

theorem Owning.exit (h : Owning k) (he : k.exit = .ok k') : Owning k' :=
  ⟨h.tree.exit he, h.linked.exit he, h.frames.exit he⟩

theorem Owning.kill (h : Owning k) (hk : k.kill = .ok k') : Owning k' :=
  ⟨h.tree.kill hk, h.linked.kill h.tree hk, h.frames.kill hk⟩

theorem Owning.step (h : Owning k) (hs : Kernel.step env k = .ok k') : Owning k' :=
  step_preserves Quiet.owning Owning.fork Owning.exec Owning.exit Owning.kill h hs

theorem FramesOwned.start {b : Boot}
    (h : startProcess b.env (boot b.junk b.junkTable b.junkRegisters) b.filename = .ok k) :
    FramesOwned k := by
  obtain ⟨file, S, hs⟩ := startProcess_spec h
  obtain ⟨hn, hm⟩ := BitMap.marked_new numPhysPages b.junk
  obtain ⟨ha, hl, -⟩ := AddrSpace.new_spec hn hs.space
  have h₀ : FramesOwned (boot b.junk b.junkTable b.junkRegisters) :=
    ⟨hn, fun _ _ hS => (by cases hS), by
      show Owned _ (BitMap.new numPhysPages b.junk).marked
      rw [hm]
      exact .empty fun _ => rfl⟩
  exact h₀.allocate (S := { S with pcb := some 1 }) rfl ha hl hs.spaces

theorem Owning.start {b : Boot}
    (h : startProcess b.env (boot b.junk b.junkTable b.junkRegisters) b.filename = .ok k) :
    Owning k := ⟨.start h, .start h, .start h⟩

theorem Owning.run {b : Boot} {envs : List Env} (h : runs b envs = some k) : Owning k :=
  runs_invariant (G := fun _ => True) (fun _ hk => Owning.start hk)
    (fun _ _ _ hk _ hs => hk.step hs) (fun _ _ => trivial) h

/-! ## No frame leaks -/

structure NoLeak (k : Kernel) : Prop where
  live : ∀ s S, k.spaces s = some S → ∃ p P, k.pcbs p = some P ∧
    k.spaceOf P.processThread = some s
  pages : ∀ s S, k.spaces s = some S → 8 ≤ S.numPages

/-- The sizes of the segments of every executable there is are not negative, and
together with the stack the program is smaller than the address space. -/
def FilesFit (env : Env) : Prop :=
  ∀ name file noffH, env.files name = some file → readHeader file env.buffers.header = .ok noffH →
    0 ≤ noffH.code.size.toInt ∧ 0 ≤ noffH.initData.size.toInt ∧ 0 ≤ noffH.uninitData.size.toInt ∧
    noffH.code.size.toInt + noffH.initData.size.toInt + noffH.uninitData.size.toInt +
      userStackSize < 2 ^ 32

theorem FilesFit.numPages (h : FilesFit env) {name file : List (BitVec 8)} {noffH : NoffHeader}
    (hfile : env.files name = some file) (hh : readHeader file env.buffers.header = .ok noffH) :
    8 ≤ noffH.numPages := by
  obtain ⟨h₁, h₂, h₃, hsum⟩ := h name file noffH hfile hh
  exact noffH.le_numPages h₁ h₂ h₃ hsum

/-- Memory holds four processes at most, so there is always a PID left. -/
theorem NoLeak.card_pids (h : NoLeak k) (ho : Owning k) : k.pids.marked.card ≤ 4 := by
  -- the address space of the process with a PID
  have hex : ∀ i ∈ k.pids.marked, ∃ s p P S, k.pcbs p = some P ∧ P.processID = i ∧
      k.spaceOf P.processThread = some s ∧ k.spaces s = some S := by
    intro i hi
    obtain ⟨p, P, hP, hid⟩ := ho.tree.owner i hi
    obtain ⟨s, S, hs, hS, -⟩ := ho.linked.link p P hP
    exact ⟨s, p, P, S, hP, hid, hs, hS⟩
  choose! space hspace using hex
  have hinj : Set.InjOn space k.pids.marked := by
    intro i hi j hj hij
    obtain ⟨p, P, S, hP, hid, hs, -⟩ := hspace i hi
    obtain ⟨q, Q, S', hQ, hjd, hs', -⟩ := hspace j hj
    have hpq := ho.linked.eq_of_space hP hQ hs (hij ▸ hs')
    rw [hpq, hQ, Option.some.injEq] at hP
    rw [← hP, hjd] at hid
    exact (Int.ofNat.inj hid).symm
  have hlen : ∀ s ∈ k.pids.marked.image space, 8 ≤ (k.framesOf s).length := by
    intro s hs
    obtain ⟨i, hi, rfl⟩ := Finset.mem_image.mp hs
    obtain ⟨p, P, S, -, -, -, hS⟩ := hspace i hi
    rw [framesOf_eq hS, frames, List.length_map, ho.frames.length _ S hS]
    exact h.pages _ S hS
  have hsum := Finset.card_nsmul_le_sum _ _ 8 hlen
  have htotal := ho.frames.owned.sum_length_le (k.pids.marked.image space)
  have hall := k.virtMem.numClear_add_card
  rw [Finset.card_image_of_injOn hinj, smul_eq_mul] at hsum
  rw [ho.frames.numBits, numPhysPages] at hall
  omega

theorem Quiet.noLeak (hq : Quiet k k') (hl : Linked k) (h : NoLeak k) : NoLeak k' := by
  have hlook : ∀ {s S'}, k'.spaces s = some S' → ∃ S, k.spaces s = some S ∧
      S'.numPages = S.numPages := by
    intro s S' hS'
    have hs := hq.spaces s
    rw [hS', Option.map_some, eq_comm, Option.map_eq_some_iff] at hs
    obtain ⟨S, hS, hshape⟩ := hs
    simp only [shape, Prod.mk.injEq] at hshape
    exact ⟨S, hS, hshape.2.1.symm⟩
  refine ⟨fun s S' hS' => ?_, fun s S' hS' => ?_⟩
  · obtain ⟨S, hS, -⟩ := hlook hS'
    obtain ⟨p, P, hP, hs⟩ := h.live s S hS
    refine ⟨p, P, by rw [hq.pcbs, hP], ?_⟩
    rw [hq.spaceOf _ (hl.not_doomed ((hl.runnable _).mpr ⟨p, P, hP, rfl⟩)), hs]
  · obtain ⟨S, hS, hnum⟩ := hlook hS'
    exact hnum ▸ h.pages s S hS

theorem NoLeak.fork (h : NoLeak k) (ho : Owning k) (hf : k.fork env = .ok k') : NoLeak k' := by
  have hlt : ∀ {t}, t ∈ k.currentThread :: k.readyList → t < k.nextId :=
    fun ht => ho.linked.lt_nextId (ho.linked.threads_ne_none ht)
  have hkeeps := fork_keeps hf (hlt List.mem_cons_self)
  -- the processes that were there still have their address spaces
  have hold : ∀ {s S}, k.spaces s = some S → ∃ p P, k'.pcbs p = some P ∧
      k'.spaceOf P.processThread = some s := by
    intro s S hS
    obtain ⟨p, P, hP, hs⟩ := h.live s S hS
    obtain ⟨cs, d, hP'⟩ := ho.tree.fork_pcbs hf hP
    refine ⟨p, _, hP', ?_⟩
    rw [← hs]
    exact hkeeps.spaceOf (hlt ((ho.linked.runnable _).mpr ⟨p, P, hP, rfl⟩))
  rcases fork_spaces hf with ⟨hs, -, -, -⟩ | ⟨cur, S, pcb, hpr, hcopy, hs, hnew⟩
  · exact ⟨fun s S hS => hold (hs ▸ hS), fun s S hS => h.pages s S (hs ▸ hS)⟩
  · obtain ⟨-, -, hcS, -, -⟩ := process_spec hpr
    obtain ⟨-, -, -, hnum, -⟩ := AddrSpace.copy_spec ho.frames.numBits (ho.frames.length _ _ hcS) hcopy
    refine ⟨fun s S' hS' => ?_, fun s S' hS' => ?_⟩
    · rw [hs] at hS'
      by_cases hsn : s = k.nextId
      · rcases hnew with ⟨hall, -⟩ | ⟨P, hP, hsp⟩
        · -- there is a PID left
          have hcard := h.card_pids ho
          rw [hall, Finset.card_range, ho.tree.size] at hcard
          exact absurd hcard (by decide)
        · exact ⟨_, P, hP, hsn ▸ hsp⟩
      · rw [Function.update_of_ne hsn] at hS'
        exact hold hS'
    · rw [hs] at hS'
      by_cases hsn : s = k.nextId
      · rw [hsn, Function.update_self, Option.some.injEq] at hS'
        rw [← hS']
        exact hnum ▸ h.pages _ _ hcS
      · rw [Function.update_of_ne hsn] at hS'
        exact h.pages s S' hS'

/-- A process that ended, with its address space. -/
theorem NoLeak.removed (h : NoLeak k) (hl : Linked k) {p s₀ : Nat} {pcb : PCB}
    {status : Option (BitVec 32)} (hP : k.pcbs p = some pcb)
    (hs₀ : k.spaceOf pcb.processThread = some s₀)
    (hp : Removes p pcb status k.pcbs k'.pcbs)
    (hspaces : k'.spaces = Function.update k.spaces s₀ none)
    (hspaceOf : ∀ t ∈ k.currentThread :: k.readyList, t ≠ pcb.processThread →
      k'.spaceOf t = k.spaceOf t) : NoLeak k' := by
  have hlook : ∀ {s S}, k'.spaces s = some S → s ≠ s₀ ∧ k.spaces s = some S := by
    intro s S hS
    rw [hspaces] at hS
    by_cases hs : s = s₀
    · rw [hs, Function.update_self] at hS
      cases hS
    · rw [Function.update_of_ne hs] at hS
      exact ⟨hs, hS⟩
  refine ⟨fun s S hS => ?_, fun s S hS => h.pages s S (hlook hS).2⟩
  obtain ⟨hne, hS⟩ := hlook hS
  obtain ⟨x, X, hX, hs⟩ := h.live s S hS
  have hth : X.processThread ≠ pcb.processThread := fun heq => by
    rw [heq, hs₀, Option.some.injEq] at hs
    exact hne hs.symm
  have hxp : x ≠ p := fun heq => by
    rw [heq, hP, Option.some.injEq] at hX
    exact hth (by rw [hX])
  refine ⟨x, _, hp.survives hX hxp, ?_⟩
  rw [← hs]
  exact hspaceOf _ ((hl.runnable _).mpr ⟨x, X, hX, rfl⟩) hth

theorem NoLeak.exit (h : NoLeak k) (ho : Owning k) (he : k.exit = .ok k') : NoLeak k' := by
  obtain ⟨cur, k₁, n, rest, hcur, htear, -, hd⟩ := exit_cases he
  obtain ⟨hT, hs, -, -, hP⟩ := process_spec hcur
  have hth := ho.linked.process_eq List.mem_cons_self hcur
  obtain ⟨i, b, pcbs', -, -, -, hpcbs, rfl⟩ := tearDown_spec hP htear
  have hspaceOf := hd.spaceOf
  obtain ⟨r, pt, m, ths, d, c, rfl⟩ := hd.rest
  refine h.removed ho.linked hP (by rw [hth, Kernel.spaceOf, hT]; exact hs) hpcbs rfl
    fun t _ hne => hspaceOf t fun heq => hne ?_
  rw [hth]
  exact (Option.some.inj heq).symm

theorem NoLeak.kill (h : NoLeak k) (ho : Owning k) (hk : k.kill = .ok k') : NoLeak k' := by
  obtain ⟨cur, -, hcase⟩ := kill_cases hk
  rcases hcase with rfl | ⟨-, he⟩ | ⟨p, pcb, T, s, S, k₁, -, -, hP, hT, hs, -, htear, rfl⟩
  · exact (Quiet.of_registers _ _ _ _).noLeak ho.linked h
  · exact h.exit ho he
  · obtain ⟨i, b, pcbs', -, -, -, hpcbs, rfl⟩ := tearDown_spec hP htear
    exact h.removed ho.linked hP (by rw [Kernel.spaceOf, hT]; exact hs) hpcbs rfl fun _ _ _ => rfl

theorem NoLeak.exec (h : NoLeak k) (hfit : FilesFit env) (he : k.exec env = .ok k') :
    NoLeak k' := by
  obtain ⟨cur, S, r, hcur, hr, hcase⟩ := exec_cases he
  obtain ⟨-, -, hS, -, -⟩ := process_spec hcur
  have hpages : 8 ≤ S.numPages := by
    obtain ⟨-, ⟨-, hnum, -⟩ | ⟨file, noffH, _, _, _, -, hnamed, hh, hnum, -⟩⟩ :=
      AddrSpace.replace_spec hr
    · exact hnum ▸ h.pages _ _ hS
    · obtain ⟨name, hfile⟩ := AddrSpace.namedFile_spec hnamed
      exact hnum ▸ hfit.numPages hfile hh
  have hset : NoLeak (k.setSpace cur.spaceId S) := by
    refine ⟨fun s S' hS' => ?_, fun s S' hS' => ?_⟩
    · by_cases hs : s = cur.spaceId
      · exact h.live s cur.space (hs ▸ hS)
      · exact h.live s S' ((Function.update_of_ne hs _ _).symm.trans hS')
    · by_cases hs : s = cur.spaceId
      · have hS'' : (k.setSpace cur.spaceId S).spaces cur.spaceId = some S :=
          Function.update_self _ _ _
        rw [hs, hS'', Option.some.injEq] at hS'
        exact hS' ▸ hpages
      · exact h.pages s S' ((Function.update_of_ne hs _ _).symm.trans hS')
  rcases hcase with ⟨-, rfl⟩ | ⟨vm, mem, -, rfl⟩
  · exact ⟨hset.live, hset.pages⟩
  · exact ⟨hset.live, hset.pages⟩

theorem NoLeak.step (h : NoLeak k) (ho : Owning k) (hfit : FilesFit env)
    (hs : Kernel.step env k = .ok k') : NoLeak k' :=
  (step_preserves (I := fun k => Owning k ∧ NoLeak k)
    (fun hq h => ⟨hq.owning h.1, hq.noLeak h.1.linked h.2⟩)
    (fun h hf => ⟨h.1.fork hf, h.2.fork h.1 hf⟩) (fun h he => ⟨h.1.exec he, h.2.exec hfit he⟩)
    (fun h he => ⟨h.1.exit he, h.2.exit h.1 he⟩) (fun h hk => ⟨h.1.kill hk, h.2.kill h.1 hk⟩)
    ⟨ho, h⟩ hs).2

theorem NoLeak.start {b : Boot} (hfit : FilesFit b.env)
    (h : startProcess b.env (boot b.junk b.junkTable b.junkRegisters) b.filename = .ok k) :
    NoLeak k := by
  obtain ⟨file, S, hs⟩ := startProcess_spec h
  obtain ⟨-, -, noffH, hh, hnum⟩ :=
    AddrSpace.new_spec (BitMap.marked_new numPhysPages b.junk).1 hs.space
  have hlook : ∀ {s S'}, k.spaces s = some S' → s = 2 ∧ S' = { S with pcb := some 1 } := by
    intro s S' hS'
    rw [hs.spaces] at hS'
    by_cases hs2 : s = 2
    · rw [hs2, Function.update_self, Option.some.injEq] at hS'
      exact ⟨hs2, hS'.symm⟩
    · rw [Function.update_of_ne hs2] at hS'
      cases hS'
  refine ⟨fun s S' hS' => ?_, fun s S' hS' => ?_⟩
  · refine ⟨1, _, by rw [hs.pcbs, Function.update_self], ?_⟩
    rw [(hlook hS').1, Kernel.spaceOf, hs.threads, Function.update_self]
    rfl
  · rw [(hlook hS').2]
    exact hnum ▸ hfit.numPages hs.opened hh

theorem NoLeak.run {b : Boot} {envs : List Env} (hfit : ∀ env ∈ b.env :: envs, FilesFit env)
    (h : runs b envs = some k) : NoLeak k :=
  (runs_invariant (I := fun k => Owning k ∧ NoLeak k) (G := FilesFit)
    (fun _ hk => ⟨.start hk, .start (hfit _ List.mem_cons_self) hk⟩)
    (fun _ _ _ hk hG hs => ⟨hk.1.step hs, hk.2.step hk.1 hG hs⟩)
    (fun env henv => hfit env (List.mem_cons_of_mem _ henv)) h).2

/-! ## The frames of the processes -/

/-- The page table of a process. -/
def tableOf (k : Kernel) (p : Nat) : Option (List TranslationEntry) := do
  let P ← k.pcbs p
  let s ← k.spaceOf P.processThread
  let S ← k.spaces s
  return S.pageTable

/-- Frame ownership: every process has a page table, its frames are frames of
main memory, different pages have different frames in one process and in two,
and the bitmap marks the frames of the processes and no others. -/
structure FrameOwnership (k : Kernel) : Prop where
  table : ∀ p, k.pcbs p ≠ none → k.tableOf p ≠ none
  range : ∀ p t e, k.tableOf p = some t → e ∈ t → e.physicalPage.toNat < numPhysPages
  nodup : ∀ p t, k.tableOf p = some t → (t.map TranslationEntry.physicalPage).Nodup
  disjoint : ∀ p q t u e e', k.tableOf p = some t → k.tableOf q = some u → p ≠ q → e ∈ t → e' ∈ u →
    e.physicalPage ≠ e'.physicalPage
  marked : ∀ f, f ∈ k.virtMem.marked ↔ ∃ p t e, k.tableOf p = some t ∧ e ∈ t ∧
    e.physicalPage.toNat = f
  /-- The calls of `getPage` in `copy`, in a `Fork` that gets so far. -/
  copy : ∀ cur, k.process k.currentThread = .ok cur → cur.space.numPages ≤ k.virtMem.numClear →
    -1 ∉ getPages cur.space.pageTable.length k.virtMem
  /-- The calls of `getPage` in `InitializePageTable`, in an `Exec` that gets so far. -/
  replace : ∀ cur noffH virtMem, k.process k.currentThread = .ok cur →
    (BitVec.ofNat 32 (NoffHeader.numPages noffH) - BitVec.ofNat 32 cur.space.numPages).toNat ≤
      k.virtMem.numClear →
    releasePhysicalMemory cur.space.pageTable k.virtMem = .ok virtMem →
    -1 ∉ getPages noffH.numPages virtMem

theorem tableOf_eq_some {p : Nat} {t : List TranslationEntry} : k.tableOf p = some t ↔
    ∃ P s S, k.pcbs p = some P ∧ k.spaceOf P.processThread = some s ∧ k.spaces s = some S ∧
      S.pageTable = t := by
  simp only [tableOf, Option.bind_eq_bind, Option.bind_eq_some_iff, Option.pure_def,
    Option.some.injEq]
  constructor
  · rintro ⟨P, hP, s, hs, S, hS, ht⟩
    exact ⟨P, s, S, hP, hs, hS, ht⟩
  · rintro ⟨P, s, S, hP, hs, hS, ht⟩
    exact ⟨P, hP, s, hs, S, hS, ht⟩

theorem mem_frames {t : List TranslationEntry} {f : Nat} :
    f ∈ frames t ↔ ∃ e ∈ t, e.physicalPage.toNat = f := List.mem_map

theorem neg_one_notMem_getPages {n : Nat} {b : BitMap} (hb : b.numBits = numPhysPages)
    (h : n ≤ b.numClear) : -1 ∉ getPages n b := by
  intro hin
  have := (getPages_nonneg hb h _ hin).1
  omega

theorem FrameOwnership.of_noLeak (h : NoLeak k) (ho : Owning k) : FrameOwnership k := by
  refine ⟨fun p hp ht => ?_, fun p t e ht he => ?_, fun p t ht => ?_,
    fun p q t u e e' ht hu hne he he' heq => ?_, fun f => ?_, fun cur hcur hroom => ?_,
    fun cur noffH b hcur hcheck hrel => ?_⟩
  · obtain ⟨P, hP⟩ := Option.ne_none_iff_exists'.mp hp
    obtain ⟨s, S, hs, hS, -⟩ := ho.linked.link p P hP
    rw [tableOf_eq_some.mpr ⟨P, s, S, hP, hs, hS, rfl⟩] at ht
    cases ht
  · obtain ⟨P, s, S, -, -, hS, rfl⟩ := tableOf_eq_some.mp ht
    exact ho.frames.mem_lt hS (mem_frames.mpr ⟨e, he, rfl⟩)
  · obtain ⟨P, s, S, -, -, hS, rfl⟩ := tableOf_eq_some.mp ht
    have hnd := ho.frames.owned.nodup s
    rw [framesOf_eq hS] at hnd
    have hmap : frames S.pageTable = (S.pageTable.map TranslationEntry.physicalPage).map
        BitVec.toNat := by
      rw [List.map_map]
      rfl
    rw [hmap] at hnd
    exact hnd.of_map _
  · obtain ⟨P, s, S, hP, hs, hS, rfl⟩ := tableOf_eq_some.mp ht
    obtain ⟨Q, s', S', hQ, hs', hS', rfl⟩ := tableOf_eq_some.mp hu
    refine hne (ho.linked.eq_of_space hP hQ hs ?_)
    rw [ho.frames.owned.eq_of_mem s s' e.physicalPage.toNat
      (by rw [framesOf_eq hS]; exact mem_frames.mpr ⟨e, he, rfl⟩)
      (by rw [framesOf_eq hS', heq]; exact mem_frames.mpr ⟨e', he', rfl⟩), hs']
  · rw [ho.frames.owned.mem_used]
    constructor
    · rintro ⟨s, hs⟩
      cases hS : k.spaces s with
      | none =>
        rw [framesOf_of_none hS] at hs
        cases hs
      | some S =>
        obtain ⟨p, P, hP, hsp⟩ := h.live s S hS
        rw [framesOf_eq hS] at hs
        obtain ⟨e, he, hf⟩ := mem_frames.mp hs
        exact ⟨p, S.pageTable, e, tableOf_eq_some.mpr ⟨P, s, S, hP, hsp, hS, rfl⟩, he, hf⟩
    · rintro ⟨p, t, e, ht, he, hf⟩
      obtain ⟨P, s, S, -, -, hS, rfl⟩ := tableOf_eq_some.mp ht
      exact ⟨s, by rw [framesOf_eq hS]; exact mem_frames.mpr ⟨e, he, hf⟩⟩
  · obtain ⟨-, -, hS, -, -⟩ := process_spec hcur
    exact neg_one_notMem_getPages ho.frames.numBits (by rw [ho.frames.length _ _ hS]; exact hroom)
  · obtain ⟨-, -, hS, -, -⟩ := process_spec hcur
    obtain ⟨hn, hm⟩ := releasePhysicalMemory_spec hrel
    exact neg_one_notMem_getPages (hn.trans ho.frames.numBits) (ho.frames.room hS hcheck hn hm)

/-- After every run, whatever the processes did, frame ownership holds. -/
theorem frameOwnership_run {b : Boot} {envs : List Env}
    (hfit : ∀ env ∈ b.env :: envs, FilesFit env) (h : runs b envs = some k) : FrameOwnership k :=
  .of_noLeak (.run hfit h) (.run h)

/-- A process forks (`r2 := 9; syscall`), the child starts and forks in turn. -/
theorem frameOwnership_run_fork :
    let code : List (BitVec 32) := [0x24020009, 0x0000000c]
    let envs := [false, false, false, true, false, false, false, false, false].map (plainEnv code)
    (∀ env ∈ (plainBoot code).env :: envs, FilesFit env) ∧
      ∃ k, runs (plainBoot code) envs = some k ∧ FrameOwnership k := by
  intro code envs
  have hh : readHeader (noffImage code) (fun _ => 0) =
      .ok ⟨noffMagic, ⟨0, 40, 8⟩, ⟨0, 0, 0⟩, ⟨0, 0, 0⟩⟩ := by decide +kernel
  have hfit : ∀ timer, FilesFit (plainEnv code timer) := by
    intro timer name file noffH hfile hread
    cases hfile
    rw [show (plainEnv code timer).buffers.header = fun _ => 0 from rfl, hh] at hread
    cases hread
    decide
  have hall : ∀ env ∈ (plainBoot code).env :: envs, FilesFit env := by
    intro env henv
    rcases List.mem_cons.mp henv with rfl | henv
    · exact hfit false
    · obtain ⟨timer, -, rfl⟩ := List.mem_map.mp henv
      exact hfit timer
  obtain ⟨k, hk⟩ := Option.isSome_iff_exists.mp
    (show (runs (plainBoot code) envs).isSome = true by decide +kernel)
  exact ⟨hall, k, hk, frameOwnership_run hall hk⟩

end Nachos.Kernel
