import Nachos.Userprog.Progress

/-!
# When `Fork` fails (userprog/exception.cc, processmanager.cc)

`fork` copies the address space of the caller before it asks for a PID. When
there is no PID left, it returns -1 but keeps the copy.

* `FailsForRoom`, `FailsForPID`: the two ways to fail;
* `fork_no_trace_iff`: only the first leaves no trace, unless the caller has no
  pages.
-/

namespace Nachos.Kernel

open Nachos.Framework

variable {env : Env} {k k' : Kernel} {cur : Process}

/-- What the data types promise: as many bits as frames, as many entries as pages, and
objects that are new. -/
structure WellTyped (k : Kernel) : Prop where
  numBits : k.virtMem.numBits = numPhysPages
  length : ∀ s S, k.spaces s = some S → S.pageTable.length = S.numPages
  fresh : k.spaces k.nextId = none

theorem Owning.wellTyped (ho : Owning k) : WellTyped k :=
  ⟨ho.frames.numBits, ho.frames.length, ho.linked.freshSpaces k.nextId (Nat.le_refl _)⟩

/-- The call of `fork` in `k` ends in `k'`, and has set `r2` to -1. -/
structure ForkFails (env : Env) (k k' : Kernel) : Prop where
  fork : k.fork env = .ok k'
  returned : k'.control = .tick .user
  error : k'.registers 2 = -1

/-- All that the call could have acquired is as it was. -/
structure NoTrace (k k' : Kernel) : Prop where
  virtMem : k'.virtMem = k.virtMem
  pids : k'.pids = k.pids
  pcbTable : k'.pcbTable = k.pcbTable
  pcbs : k'.pcbs = k.pcbs
  readyList : k'.readyList = k.readyList
  spaces : ∀ s S, k.spaces s = some S → k'.spaces s = some S
  memory : ∀ s S x, k.spaces s = some S → x / pageSize ∈ frames S.pageTable →
    k'.mainMemory x = k.mainMemory x

/-- The two ways to fail: there is no room for the copy, or it is made and there is no PID. -/
theorem ForkFails.cases (h : ForkFails env k k') (hcur : k.process k.currentThread = .ok cur) :
    (cur.space.numPages > k.virtMem.numClear ∧
      k' = (k.setThread k.currentThread
        { cur.thread with userRegisters := k.registers }).sysReturn (-1)) ∨
    ∃ S virtMem memory, cur.space.copy k.virtMem k.mainMemory = some (S, virtMem, memory) ∧
      k' = (k.copied env cur S virtMem memory k.pids).sysReturn (-1) := by
  obtain ⟨cur', hcur', hcase⟩ := fork_cases h.fork
  rw [hcur] at hcur'
  cases hcur'
  rcases hcase with ⟨hcopy, rfl⟩ | ⟨S, vm, mem, hcopy, ⟨-, rfl⟩ | ⟨i, -, -, -, rfl⟩⟩
  · refine .inl ⟨?_, rfl⟩
    unfold AddrSpace.copy at hcopy
    split at hcopy
    next hroom => exact hroom
    next => cases hcopy
  · exact .inr ⟨S, vm, mem, hcopy, rfl⟩
  · -- a process was made
    have hret := h.returned
    cases hret

/-- With no page to copy, `copy` acquires nothing. -/
theorem copy_of_no_pages {space S : AddrSpace} {b vm : BitMap} {memory mem : Bytes}
    (hlen : space.pageTable.length = space.numPages) (hnum : space.numPages = 0)
    (h : space.copy b memory = some (S, vm, mem)) : vm = b ∧ mem = memory := by
  unfold AddrSpace.copy at h
  rw [if_neg (by omega), List.eq_nil_of_length_eq_zero (hlen.trans hnum)] at h
  cases h
  exact ⟨rfl, rfl⟩

/-- With one, a frame. -/
theorem copy_marks {space S : AddrSpace} {b vm : BitMap} {memory mem : Bytes}
    (hb : b.numBits = numPhysPages) (hlen : space.pageTable.length = space.numPages)
    (hnum : space.numPages ≠ 0) (h : space.copy b memory = some (S, vm, mem)) : vm ≠ b := by
  obtain ⟨-, ha, hlen', hnum', -⟩ := AddrSpace.copy_spec hb hlen h
  have hne : frames S.pageTable ≠ [] := by
    intro hnil
    have := congrArg List.length hnil
    rw [frames, List.length_map, hlen', hnum'] at this
    exact hnum this
  obtain ⟨f, hf⟩ := List.exists_mem_of_ne_nil _ hne
  rintro rfl
  refine (ha.free f hf).2 ?_
  rw [ha.marked]
  exact Finset.mem_union_right _ (List.mem_toFinset.mpr hf)

/-- A failed `Fork` leaves no trace exactly if it fails for lack of frames, or the caller has no
pages. -/
theorem fork_no_trace_iff (hk : WellTyped k) (hcur : k.process k.currentThread = .ok cur)
    (h : ForkFails env k k') :
    NoTrace k k' ↔ cur.space.numPages > k.virtMem.numClear ∨ cur.space.numPages = 0 := by
  obtain ⟨-, -, hS, -, -⟩ := process_spec hcur
  have hlen := hk.length _ _ hS
  rcases h.cases hcur with ⟨hroom, rfl⟩ | ⟨S, vm, mem, hcopy, rfl⟩
  · exact ⟨fun _ => .inl hroom, fun _ =>
      ⟨rfl, rfl, rfl, rfl, rfl, fun _ _ h => h, fun _ _ _ _ _ => rfl⟩⟩
  · constructor
    · intro htrace
      by_contra hnot
      exact copy_marks hk.numBits hlen (fun h => hnot (.inr h)) hcopy htrace.virtMem
    · intro hcase
      have hroom := (AddrSpace.copy_spec hk.numBits hlen hcopy).1
      obtain ⟨rfl, rfl⟩ := copy_of_no_pages hlen (by omega) hcopy
      refine ⟨rfl, rfl, rfl, rfl, rfl, fun s T hT => ?_, fun _ _ _ _ _ => rfl⟩
      refine (Function.update_of_ne ?_ _ _).trans hT
      rintro rfl
      rw [hk.fresh] at hT
      cases hT

/-- The first process at its first instruction, but with these bitmaps. -/
def startWith (virtMem pids : BitMap) : Option Kernel :=
  (start (plainBoot [0x0000000c])).map fun k => { k with virtMem, pids }

/-- All PIDs in use. -/
def allPids : BitMap := (List.range numPids).foldl BitMap.markBit (.new numPids fun _ => 0)

theorem startWith_fails (virtMem pids : BitMap) (hb : virtMem.numBits = numPhysPages)
    (h : ((startWith virtMem pids).bind fun k => (k.fork (plainEnv [0x0000000c] false)).toOption.map
      fun k' => (k'.control, k'.registers 2)) = some (.tick .user, -1)) :
    ∃ k k' cur, startWith virtMem pids = some k ∧ WellTyped k ∧
      k.process k.currentThread = .ok cur ∧ cur.space.numPages = 9 ∧
      ForkFails (plainEnv [0x0000000c] false) k k' := by
  obtain ⟨k, hk, h⟩ := Option.bind_eq_some_iff.mp h
  obtain ⟨k', hfork, hret⟩ := Option.map_eq_some_iff.mp h
  obtain ⟨k₀, hk₀, rfl⟩ := Option.map_eq_some_iff.mp hk
  have hrun : runs (plainBoot [0x0000000c]) [] = some k₀ := by
    rw [runs, hk₀]
    rfl
  have ho : Owning k₀ := .run hrun
  obtain ⟨cur, hcur⟩ := ho.current_ok
  refine ⟨_, k', cur, hk, ⟨hb, ho.frames.length, ho.wellTyped.fresh⟩, hcur, ?_,
    toOption_eq_some.mp hfork, (Prod.mk.inj hret).1, (Prod.mk.inj hret).2⟩
  have hpages : ((start (plainBoot [0x0000000c])).bind fun k =>
      (k.process k.currentThread).toOption.map fun cur => cur.space.numPages) = some 9 := by
    decide +kernel
  rw [hk₀, Option.bind_some, hcur] at hpages
  exact Option.some.inj hpages

/-- Without a free frame, nothing is acquired. -/
theorem fork_no_trace_full : ∃ k k' cur, startWith (flatMem 32) allPids = some k ∧
    k.process k.currentThread = .ok cur ∧ ForkFails (plainEnv [0x0000000c] false) k k' ∧
      NoTrace k k' := by
  obtain ⟨k, k', cur, hk, hwt, hcur, hnum, hfails⟩ :=
    startWith_fails (flatMem 32) allPids (by decide) (by decide +kernel)
  refine ⟨k, k', cur, hk, hcur, hfails, (fork_no_trace_iff hwt hcur hfails).mpr (.inl ?_)⟩
  obtain ⟨k₀, -, rfl⟩ := Option.map_eq_some_iff.mp hk
  rw [hnum]
  show (flatMem 32).numClear < 9
  decide +kernel

/-- With 23 free frames, but no PID, 9 frames are lost. -/
theorem not_fork_no_trace : ¬ ∀ env k k', WellTyped k → ForkFails env k k' → NoTrace k k' := by
  intro hall
  obtain ⟨k, k', cur, hk, hwt, hcur, hnum, hfails⟩ :=
    startWith_fails (flatMem 9) allPids (by decide) (by decide +kernel)
  have htrace := hall _ k k' hwt hfails
  obtain ⟨-, -, hS, -, -⟩ := process_spec hcur
  rcases hfails.cases hcur with ⟨hroom, -⟩ | ⟨S, vm, mem, hcopy, rfl⟩
  · obtain ⟨k₀, -, rfl⟩ := Option.map_eq_some_iff.mp hk
    have hclear : (flatMem 9).numClear = 23 := by decide +kernel
    rw [hnum, hclear] at hroom
    omega
  · exact copy_marks hwt.numBits (hwt.length _ _ hS) (by omega) hcopy htrace.virtMem

end Nachos.Kernel
