import Nachos.Framework.Simulation
import Nachos.Threads.Switch

/-!
# A processor for each thread (threads/switch.s, thread.cc, scheduler.cc)

The machine has one set of registers. The threads run as if each had its own:
`Procs` is a machine with a set of registers for each thread, where `SWITCH` is a
function that returns, with all registers as they were, and in between other
threads may run. Memory is shared; what a thread's own instructions must leave
alone is `guarded`.

* `run_processors`: every run of the machine is a run of `Procs`;
* `switch_returns`: a thread goes on behind its call of `SWITCH`, with its registers,
  whatever ran in between;
* `fork_runs`: what a new thread calls, from the stack and the object that
  `StackAllocate` set up.
-/

namespace Nachos.Threads.Switch

open Nachos.I386 Nachos.Framework

variable {T : Type*} [DecidableEq T]

/-! ## Where the threads are in memory -/

/-- The `Thread` object of a thread, and its stack. The main thread has the stack of the
process, and its `stack` is NULL. -/
structure Place where
  object : Word
  stack : Word
  size : Nat
  isMain : Bool
  deriving DecidableEq

def Place.stackBytes (p : Place) : Set Word := span p.stack p.size

/-- The fencepost. -/
def Place.fence (p : Place) : Set Word := {x | p.isMain = false ∧ x ∈ span p.stack 4}

/-- What the thread's memory allocations returned. -/
def Place.bytes (p : Place) : Set Word := context p.object ∪ p.stackBytes

/-- The addresses the linker chose. -/
structure Image extends Entries where
  code : Code
  SWITCH : Word
  eax_save : Word
  switch_end : Word
  placed : Placed code SWITCH (Switch.SWITCH eax_save) switch_end

/-- What a thread does: its own instructions put values in the registers and bytes in
memory; it calls `SWITCH`; it forks a thread; it deletes a thread that is finished, whose
memory then holds anything. -/
inductive Event (T : Type*)
  | own (reg : Regs) (eip : Word) (bytes : List (Word × BitVec 8))
  | switch (next : T)
  | fork (t : T) (p : Place) (func arg : Word)
  | delete (t : T) (garbage : Mem)

/-- The bytes are stored, one after the other. -/
def stores (m : Mem) (bytes : List (Word × BitVec 8)) : Mem :=
  bytes.foldl (fun m b => Function.update m b.1 b.2) m

/-- The bytes of `S` are replaced. -/
def replaced (m : Mem) (p : Place) (garbage : Mem) : Mem :=
  fun x => if x ∈ span p.object 36 ∨ x ∈ span p.stack p.size then garbage x else m x

/-! ## The machine -/

structure Machine (T : Type*) where
  cpu : State
  currentThread : T
  place : T → Option Place

namespace Machine

/-- One event on the machine. A call of `SWITCH` runs its instructions; the scheduler has
set `currentThread` before. -/
def step (k : Image) : Event T → Machine T → Option (Machine T)
  | .own reg eip bytes, s => some { s with cpu := ⟨reg, eip, stores s.cpu.mem bytes⟩ }
  | .switch next, s =>
    if s.cpu.eip = k.SWITCH then
      (steps k.code ((switchOps k.eax_save).length + 1) s.cpu).map fun c =>
        { s with cpu := c, currentThread := next }
    else none
  | .fork t p func arg, s =>
    some { s with
      cpu := { s.cpu with mem := StackAllocate k.toEntries p.object p.stack func arg s.cpu.mem }
      place := Function.update s.place t (some p) }
  | .delete t garbage, s => (s.place t).map fun p =>
    { s with
      cpu := { s.cpu with mem := replaced s.cpu.mem p garbage }
      place := Function.update s.place t none }

end Machine

/-! ## A processor for each thread -/

structure Procs (T : Type*) where
  reg : T → Regs
  eip : T → Word
  mem : Mem
  currentThread : T
  place : T → Option Place

namespace Procs

/-- The registers a thread starts with in `ThreadRoot`. -/
def born (k : Image) (p : Place) (func arg : Word) (m : Mem) : Regs :=
  Function.update (allocated k.toEntries p.object p.stack func arg m) .esp (stackTop p.stack + 4)

/-- The current thread's call of `SWITCH` has returned, as far as its own registers show. -/
def returns (a : Procs T) : Procs T :=
  let esp := a.reg a.currentThread .esp
  { a with
    reg := Function.update a.reg a.currentThread
      (Function.update (a.reg a.currentThread) .esp (esp + 4))
    eip := Function.update a.eip a.currentThread (a.mem.read esp) }

/-- The same events. Here `SWITCH` returns, and the thread that goes on finds its return
address in the word behind (the first argument of its call). -/
def step (k : Image) : Event T → Procs T → Procs T
  | .own reg eip bytes, a =>
    { a with
      reg := Function.update a.reg a.currentThread reg
      eip := Function.update a.eip a.currentThread eip
      mem := stores a.mem bytes }
  | .switch next, a =>
    { a.returns with
      mem := a.mem.write (a.returns.reg next .esp) (a.returns.eip next)
      currentThread := next }
  | .fork t p func arg, a =>
    { a with
      reg := Function.update a.reg t (born k p func arg a.mem)
      eip := Function.update a.eip t k.ThreadRoot
      mem := StackAllocate k.toEntries p.object p.stack func arg a.mem
      place := Function.update a.place t (some p) }
  | .delete t garbage, a =>
    { a with
      mem := match a.place t with
        | none => a.mem
        | some p => replaced a.mem p garbage
      place := Function.update a.place t none }

/-- What `SWITCH` keeps to itself: the objects of the threads and `_eax_save`. -/
def hidden (k : Image) (a : Procs T) : Set Word :=
  {x | x ∈ span k.eax_save 4 ∨ ∃ t p, a.place t = some p ∧ x ∈ context p.object}

/-- What a thread's own instructions must not write: also the return addresses of the
threads that do not run, and the fenceposts. -/
def guarded (k : Image) (a : Procs T) : Set Word :=
  {x | x ∈ a.hidden k ∨ ∃ t p, a.place t = some p ∧
    ((t ≠ a.currentThread ∧ x ∈ span (a.reg t .esp - 4) 4) ∨ x ∈ p.fence)}

/-- What the events are: a thread's own instructions stay off `guarded`; `SWITCH` is called
by the thread that runs, with itself and the thread that is to run, which may be itself
again; memory that is allocated is not in use. -/
def Allowed (k : Image) : Event T → Procs T → Prop
  | .own _ _ bytes, a => ∀ b ∈ bytes, b.1 ∉ a.guarded k
  | .switch next, a => a.eip a.currentThread = k.SWITCH ∧
    ∃ p q, a.place a.currentThread = some p ∧ a.place next = some q ∧
      frame (a.reg a.currentThread .esp) ⊆ p.stackBytes ∧
      Disjoint (frame (a.reg a.currentThread .esp)) p.fence ∧
      a.mem.read (a.reg a.currentThread .esp + 4) = p.object ∧
      a.mem.read (a.reg a.currentThread .esp + 8) = q.object
  | .fork t p _ _, a => a.place t = none ∧ p.isMain = false ∧ p.size = 4 * StackSize ∧
    Disjoint (context p.object) p.stackBytes ∧ Disjoint p.bytes (span k.eax_save 4) ∧
    ∀ u q, a.place u = some q → Disjoint p.bytes q.bytes
  | .delete t _, a => t ≠ a.currentThread ∧ a.place t ≠ none

end Procs

/-! ## The machine runs like the processors -/

/-- A thread that does not run: its registers are in its object, and its return address is on
its stack. -/
structure Suspended (m : Mem) (p : Place) (reg : Regs) (eip : Word) : Prop where
  regs : savedRegs m p.object = Function.update reg .esp (reg .esp - 4)
  pc : m.read (p.object + PC) = eip
  ret : m.read (reg .esp - 4) = eip
  stack : span (reg .esp - 4) 8 ⊆ p.stackBytes
  fence : Disjoint (span (reg .esp - 4) 8) p.fence

/-- The threads' memory does not overlap. -/
structure Apart (k : Image) (place : T → Option Place) : Prop where
  save : ∀ t p, place t = some p → Disjoint p.bytes (span k.eax_save 4)
  object : ∀ t p, place t = some p → Disjoint (context p.object) p.stackBytes
  ne : ∀ t u p q, place t = some p → place u = some q → t ≠ u → Disjoint p.bytes q.bytes
  size : ∀ t p, place t = some p → p.isMain = false → p.size = 4 * StackSize

structure Simulates (k : Image) (s : Machine T) (a : Procs T) : Prop where
  currentThread : a.currentThread = s.currentThread
  place : a.place = s.place
  reg : a.reg a.currentThread = s.cpu.reg
  eip : a.eip a.currentThread = s.cpu.eip
  mem : Mem.Agree (a.hidden k) s.cpu.mem a.mem
  live : a.place a.currentThread ≠ none
  suspended : ∀ t p, a.place t = some p → t ≠ a.currentThread →
    Suspended s.cpu.mem p (a.reg t) (a.eip t)
  apart : Apart k a.place
  fencepost : ∀ t p, a.place t = some p → p.isMain = false → CheckOverflow s.cpu.mem p.stack = true

section Stores

variable {m m' : Mem} {bytes : List (Word × BitVec 8)} {x : Word}

theorem stores_of_notMem (h : ∀ b ∈ bytes, b.1 ≠ x) : stores m bytes x = m x := by
  unfold stores
  induction bytes generalizing m with
  | nil => rfl
  | cons b bytes ih =>
    rw [List.foldl_cons, ih fun c hc => h c (List.mem_cons_of_mem b hc)]
    exact Function.update_of_ne (Ne.symm (h b List.mem_cons_self)) _ _

theorem stores_agree {S : Set Word} (h : Mem.Agree S m m') : Mem.Agree S (stores m bytes) (stores m' bytes) := by
  unfold stores
  induction bytes generalizing m m' with
  | nil => exact h
  | cons b bytes ih =>
    apply ih
    intro x hx
    show Function.update m b.1 b.2 x = Function.update m' b.1 b.2 x
    by_cases hb : x = b.1
    · rw [hb, Function.update_self, Function.update_self]
    · rw [Function.update_of_ne hb, Function.update_of_ne hb]
      exact h x hx

end Stores

theorem Suspended.congr {m m' : Mem} {p : Place} {reg : Regs} {eip : Word} (h : Suspended m p reg eip)
    (hc : ∀ x ∈ context p.object, m' x = m x) (hs : ∀ x ∈ span (reg .esp - 4) 4, m' x = m x) :
    Suspended m' p reg eip where
  regs := by
    rw [← h.regs]
    funext r
    exact Mem.read_congr fun x hx => hc x (context_offset _ _ hx)
  pc := by
    rw [← h.pc]
    exact Mem.read_congr fun x hx => hc x (context_PC _ hx)
  ret := by
    rw [← h.ret]
    exact Mem.read_congr hs
  stack := h.stack
  fence := h.fence

theorem Suspended.ret_mem_bytes {m : Mem} {p : Place} {reg : Regs} {eip : Word} (h : Suspended m p reg eip) :
    span (reg .esp - 4) 4 ⊆ p.bytes :=
  fun _ hx => .inr (h.stack (span_subset (n := 8) (by decide) hx))

/-- Nothing of a thread changes when its memory does not. -/
theorem Suspended.congr_bytes {m m' : Mem} {p : Place} {reg : Regs} {eip : Word}
    (h : Suspended m p reg eip) (hm : ∀ x ∈ p.bytes, m' x = m x) : Suspended m' p reg eip :=
  h.congr (fun x hx => hm x (.inl hx)) fun x hx => hm x (h.ret_mem_bytes hx)

theorem CheckOverflow_congr {m m' : Mem} {stack : Word} (h : ∀ x ∈ span stack 4, m' x = m x) :
    CheckOverflow m' stack = CheckOverflow m stack := by
  unfold CheckOverflow
  rw [Mem.read_congr h]

namespace Simulates

variable {k : Image} {s : Machine T} {a : Procs T}

theorem own (h : Simulates k s a) {reg : Regs} {eip : Word} {bytes : List (Word × BitVec 8)}
    (hg : Procs.Allowed k (.own reg eip bytes) a) :
    Simulates k { s with cpu := ⟨reg, eip, stores s.cpu.mem bytes⟩ } (a.step k (.own reg eip bytes)) := by
  have hkeep : ∀ x, x ∈ a.guarded k → stores s.cpu.mem bytes x = s.cpu.mem x := fun x hx =>
    stores_of_notMem fun b hb hbx => hg b hb (hbx ▸ hx)
  refine ⟨h.currentThread, h.place, Function.update_self .., Function.update_self .., stores_agree h.mem,
    h.live, fun t p hp ht => ?_, h.apart, fun t p hp hmain => ?_⟩
  · have hreg : (a.step k (.own reg eip bytes)).reg t = a.reg t := Function.update_of_ne ht ..
    have heip : (a.step k (.own reg eip bytes)).eip t = a.eip t := Function.update_of_ne ht ..
    rw [hreg, heip]
    apply (h.suspended t p hp ht).congr
    · exact fun x hx => hkeep x (.inl (.inr ⟨t, p, hp, hx⟩))
    · exact fun x hx => hkeep x (.inr ⟨t, p, hp, .inl ⟨ht, hx⟩⟩)
  · rw [← h.fencepost t p hp hmain]
    apply CheckOverflow_congr
    exact fun x hx => hkeep x (.inr ⟨t, p, hp, .inr ⟨hmain, hx⟩⟩)

theorem stack_disjoint_hidden (h : Simulates k s a) {t : T} {p : Place} (hp : a.place t = some p) :
    Disjoint p.stackBytes (a.hidden k) := by
  rw [Set.disjoint_left]
  rintro x hx (he | ⟨u, q, hq, hc⟩)
  · exact Set.disjoint_left.mp (h.apart.save t p hp) (.inr hx) he
  · by_cases htu : t = u
    · subst htu
      have hpq : p = q := Option.some.inj (hp.symm.trans hq)
      subst hpq
      exact Set.disjoint_left.mp (h.apart.object t p hp) hc hx
    · exact Set.disjoint_left.mp (h.apart.ne t u p q hp hq htu) (.inr hx) (.inl hc)

omit [DecidableEq T] in
theorem hidden_of_context {t : T} {p : Place} (hp : a.place t = some p) : context p.object ⊆ a.hidden k :=
  fun _ hx => .inr ⟨t, p, hp, hx⟩

omit [DecidableEq T] in
theorem hidden_of_save : span k.eax_save 4 ⊆ a.hidden k := fun _ hx => .inl hx

/-- The top of the stack of a thread that does not run, where `SWITCH` writes. -/
theorem slot_subset (reg : Regs) : span (reg .esp) 4 ⊆ span (reg .esp - 4) 8 := by
  have h : span (reg .esp - 4 + 4) 4 ⊆ span (reg .esp - 4) 8 := span_add_subset (by decide)
  rwa [show reg .esp - 4 + 4 = reg .esp by bv_omega] at h

/-- When the registers of the thread that runs are saved, all threads are in the state in which a
thread does not run. -/
theorem saved_suspended (h : Simulates k s a) {p : Place} (hp : a.place a.currentThread = some p)
    (hframe : frame (a.reg a.currentThread .esp) ⊆ p.stackBytes)
    (hfence : Disjoint (frame (a.reg a.currentThread .esp)) p.fence) {t : T} {r : Place} (hr : a.place t = some r) :
    Suspended (saved k.eax_save p.object s.cpu) r (a.returns.reg t) (a.returns.eip t) := by
  by_cases ht : t = a.currentThread
  · subst ht
    have hrp : r = p := Option.some.inj (hr.symm.trans hp)
    subst hrp
    have hesp : a.reg a.currentThread .esp + 4 - 4 = a.reg a.currentThread .esp := by bv_omega
    have hfr : Disjoint (frame (a.reg a.currentThread .esp)) (a.hidden k) :=
      (h.stack_disjoint_hidden hp).mono_left hframe
    have hret : span (a.reg a.currentThread .esp) 4 ⊆ frame (a.reg a.currentThread .esp) :=
      span_subset (by decide)
    have hread : s.cpu.mem.read (s.cpu.reg .esp) = a.mem.read (a.reg a.currentThread .esp) := by
      rw [← h.reg]
      exact h.mem.read (hfr.mono_left hret)
    show Suspended _ r (Function.update a.reg a.currentThread _ a.currentThread)
      (Function.update a.eip a.currentThread _ a.currentThread)
    rw [Function.update_self, Function.update_self]
    refine ⟨?_, saved_read_PC.trans hread, ?_, ?_, ?_⟩
    · rw [Function.update_self, hesp, Function.update_idem, Function.update_eq_self, h.reg]
      funext reg
      exact saved_read_offset reg
    · rw [Function.update_self, hesp, ← hread, ← h.reg]
      rw [h.reg] at hfr hret ⊢
      exact saved_read_of_disjoint ((hfr.mono_left hret).mono_right (hidden_of_context hp))
        ((hfr.mono_left hret).mono_right hidden_of_save)
    · rw [Function.update_self, hesp]
      exact fun x hx => hframe (span_subset (by decide) hx)
    · rw [Function.update_self, hesp]
      exact hfence.mono_left (span_subset (by decide))
  · have hreg : a.returns.reg t = a.reg t := Function.update_of_ne ht ..
    have heip : a.returns.eip t = a.eip t := Function.update_of_ne ht ..
    rw [hreg, heip]
    apply (h.suspended t r hr ht).congr_bytes
    intro x hx
    apply saved_of_notMem
    · exact fun hc => Set.disjoint_left.mp (h.apart.ne t _ r p hr hp ht) hx (.inl hc)
    · exact fun he => Set.disjoint_left.mp (h.apart.save t r hr) hx he

/-- The instructions of `SWITCH`, from the thread that runs to `next`. -/
theorem steps_switch (h : Simulates k s a) {next : T} {p q : Place}
    (heip : a.eip a.currentThread = k.SWITCH)
    (hp : a.place a.currentThread = some p) (hq : a.place next = some q)
    (hframe : frame (a.reg a.currentThread .esp) ⊆ p.stackBytes)
    (hfence : Disjoint (frame (a.reg a.currentThread .esp)) p.fence)
    (harg : a.mem.read (a.reg a.currentThread .esp + 4) = p.object)
    (harg' : a.mem.read (a.reg a.currentThread .esp + 8) = q.object) :
    ∃ c v, steps k.code ((switchOps k.eax_save).length + 1) s.cpu = some c ∧ c.reg = a.returns.reg next ∧
      c.eip = a.returns.eip next ∧ c.mem = ((saved k.eax_save p.object s.cpu).write k.eax_save v).write
        (a.returns.reg next .esp) (a.returns.eip next) := by
  have hsaved := h.saved_suspended hp hframe hfence hq
  have hstackq := h.stack_disjoint_hidden hq
  have hfr : Disjoint (frame (s.cpu.reg .esp)) (a.hidden k) := by
    rw [← h.reg]
    exact (h.stack_disjoint_hidden hp).mono_left hframe
  rw [h.reg] at harg harg'
  -- the objects are somewhere else than `_eax_save`
  have hsave : ∀ t r, a.place t = some r → Disjoint (span k.eax_save 4) (context r.object) :=
    fun t r hr => ((h.apart.save t r hr).mono_left fun _ hx => .inl hx).symm
  have hargs : ∀ d : Word, d.toNat + 4 ≤ 12 →
      s.cpu.mem.read (s.cpu.reg .esp + d) = a.mem.read (s.cpu.reg .esp + d) :=
    fun d hd => h.mem.read (hfr.mono_left (frame_add _ hd))
  generalize a.returns.reg next = reg at hsaved ⊢
  generalize a.returns.eip next = eip at hsaved ⊢
  have hslotq : span (reg .esp) 4 ⊆ q.stackBytes := fun x hx => hsaved.stack (slot_subset _ hx)
  have hesp : savedRegs (saved k.eax_save p.object s.cpu) q.object .esp + 4 = reg .esp := by
    rw [hsaved.regs, Function.update_self]
    bv_omega
  have hexec := execs_SWITCH (hfr.mono_right hidden_of_save) (hfr.mono_right (hidden_of_context hp))
    (hsave _ p hp) (hsave _ q hq)
    (by rw [hesp]; exact hstackq.mono hslotq hidden_of_save)
    ((hargs 4 (by decide)).trans harg) ((hargs 8 (by decide)).trans harg')
  rw [hesp, hsaved.pc, hsaved.regs] at hexec
  have hcode : Placed k.code s.cpu.eip (SWITCH k.eax_save) k.switch_end := by
    rw [← h.eip, heip]
    exact k.placed
  refine ⟨_, Function.update reg .esp (reg .esp - 4) .eax, steps_SWITCH hcode, ?_⟩
  rw [hexec]
  refine ⟨?_, ?_, rfl⟩
  · show Function.update (Function.update reg .esp (reg .esp - 4)) .esp
      (Function.update reg .esp (reg .esp - 4) .esp + 4) = reg
    rw [Function.update_idem, Function.update_self, show reg .esp - 4 + 4 = reg .esp by bv_omega,
      Function.update_eq_self]
  · -- the word at the top of the stack of `next` is not the one that `ret` takes
    show Mem.read _ (Function.update reg .esp (reg .esp - 4) .esp) = eip
    rw [Function.update_self, Mem.read_write_of_disjoint, Mem.read_write_of_disjoint, hsaved.ret]
    · exact (hstackq.mono (fun x hx => hsaved.stack (span_subset (by decide) hx)) hidden_of_save)
    · have hd := disjoint_span_add (a := reg .esp - 4) (d := 0) (e := 4) (by decide)
      rwa [show reg .esp - 4 + 0 = reg .esp - 4 by bv_omega,
        show reg .esp - 4 + 4 = reg .esp by bv_omega] at hd

omit [DecidableEq T] in
theorem fence_subset (h : Simulates k s a) {t : T} {p : Place} (hp : a.place t = some p)
    (hmain : p.isMain = false) : span p.stack 4 ⊆ p.stackBytes := by
  apply span_subset
  rw [h.apart.size t p hp hmain]
  decide

theorem switch (h : Simulates k s a) {next : T} (hg : Procs.Allowed k (.switch next) a) :
    ∃ t, s.step k (.switch next) = some t ∧ Simulates k t (a.step k (.switch next)) := by
  obtain ⟨heip, p, q, hp, hq, hframe, hfence, harg, harg'⟩ := hg
  obtain ⟨c, v, hc, hreg, hceip, hmem⟩ := h.steps_switch heip hp hq hframe hfence harg harg'
  have hsaved := h.saved_suspended hp hframe hfence hq
  have hslotq : span (a.returns.reg next .esp) 4 ⊆ q.bytes := fun x hx => .inr (hsaved.stack (slot_subset _ hx))
  -- outside what `SWITCH` keeps to itself, the word at the top of `next`'s stack is all that changes
  have hagree : Mem.Agree (span k.eax_save 4) c.mem
      ((saved k.eax_save p.object s.cpu).write (a.returns.reg next .esp) (a.returns.eip next)) := by
    rw [hmem]
    apply Mem.Agree.write
    exact fun x hx => Mem.write_of_notMem hx
  have hsavedmem : Mem.Agree (a.hidden k) (saved k.eax_save p.object s.cpu) s.cpu.mem := fun x hx =>
    saved_of_notMem (fun hc => hx (hidden_of_context hp hc)) fun he => hx (hidden_of_save he)
  refine ⟨{ s with cpu := c, currentThread := next }, ?_, rfl, h.place, hreg.symm, hceip.symm, ?_, ?_, ?_,
    h.apart, ?_⟩
  · show (if s.cpu.eip = k.SWITCH then _ else _) = _
    rw [if_pos (h.eip.symm.trans heip), hc]
    rfl
  · intro x hx
    refine (hagree x fun he => hx (hidden_of_save he)).trans ?_
    exact (hsavedmem.write _ _ x hx).trans (h.mem.write _ _ x hx)
  · show a.place next ≠ none
    rw [hq]
    exact nofun
  · intro t r hr ht
    have hr : a.place t = some r := hr
    have ht : t ≠ next := ht
    apply (h.saved_suspended hp hframe hfence hr).congr_bytes
    intro x hx
    rw [hagree x (Set.disjoint_left.mp (h.apart.save t r hr) hx), Mem.write_of_notMem]
    exact fun hslot => Set.disjoint_left.mp (h.apart.ne t next r q hr hq ht) hx (hslotq hslot)
  · intro t r hr hmain
    have hr : a.place t = some r := hr
    rw [← h.fencepost t r hr hmain]
    apply CheckOverflow_congr
    intro x hx
    have hhidden : x ∉ a.hidden k := Set.disjoint_left.mp (h.stack_disjoint_hidden hr) (h.fence_subset hr hmain hx)
    rw [hagree x fun he => hhidden (hidden_of_save he), Mem.write_of_notMem, hsavedmem x hhidden]
    intro hslot
    by_cases ht : t = next
    · subst ht
      have hrq : r = q := Option.some.inj (hr.symm.trans hq)
      subst hrq
      exact Set.disjoint_left.mp hsaved.fence (slot_subset _ hslot) ⟨hmain, hx⟩
    · exact Set.disjoint_left.mp (h.apart.ne t next r q hr hq ht) (.inr (h.fence_subset hr hmain hx))
        (hslotq hslot)

/-- A new thread does not run yet, and would go on in `ThreadRoot`. -/
theorem suspended_born {p : Place} {func arg : Word} {m m' : Mem} (hsize : p.size = 4 * StackSize)
    (hobject : Disjoint (context p.object) p.stackBytes) (hm : ∀ x ∈ context p.object, m x = m' x) :
    Suspended (StackAllocate k.toEntries p.object p.stack func arg m) p
      (Procs.born k p func arg m') k.ThreadRoot := by
  have hdisj : Disjoint (context p.object) (span p.stack (4 * StackSize)) := by
    rw [← hsize]
    exact hobject
  have hesp : Procs.born k p func arg m' .esp - 4 = stackTop p.stack := by
    show stackTop p.stack + 4 - 4 = _
    bv_omega
  refine ⟨?_, StackAllocate_read_PC hdisj, ?_, ?_, ?_⟩
  · rw [hesp, StackAllocate_savedRegs hdisj, Procs.born, Function.update_idem]
    funext r
    have hr : m.read (p.object + offset r) = m'.read (p.object + offset r) :=
      Mem.read_congr fun x hx => hm x (context_offset _ _ hx)
    cases r <;> first | rfl | exact hr
  · rw [hesp, StackAllocate_read_stackTop hdisj]
  · rw [hesp]
    have h := @stackTop_subset p.stack 8 0 (by decide)
    rw [show stackTop p.stack + BitVec.ofNat 32 0 = stackTop p.stack by bv_omega] at h
    unfold Place.stackBytes
    rwa [hsize]
  · rw [hesp]
    exact stackTop_disjoint.mono_right fun x hx => hx.2

theorem fork (h : Simulates k s a) {t : T} {p : Place} {func arg : Word}
    (hg : Procs.Allowed k (.fork t p func arg) a) :
    ∃ u, s.step k (.fork t p func arg) = some u ∧ Simulates k u (a.step k (.fork t p func arg)) := by
  obtain ⟨hfresh, hmain, hsize, hobject, hsave, hapart⟩ := hg
  have hcur : a.currentThread ≠ t := fun hc => h.live (hc ▸ hfresh)
  have hbytes : ∀ x, x ∉ p.bytes →
      StackAllocate k.toEntries p.object p.stack func arg s.cpu.mem x = s.cpu.mem x := fun x hx =>
    StackAllocate_of_notMem (fun hc => hx (.inl hc)) fun hs => hx (.inr (by
      unfold Place.stackBytes
      rwa [hsize]))
  -- the new object was not in use
  have hnew : ∀ x ∈ context p.object, s.cpu.mem x = a.mem x := by
    intro x hx
    apply h.mem
    rintro (he | ⟨u, q, hq, hc⟩)
    · exact Set.disjoint_left.mp hsave (.inl hx) he
    · exact Set.disjoint_left.mp (hapart u q hq) (.inl hx) (.inl hc)
  have hplace : ∀ u q, Function.update a.place t (some p) u = some q →
      (u = t ∧ q = p) ∨ (u ≠ t ∧ a.place u = some q) := by
    intro u q hq
    by_cases hu : u = t
    · subst hu
      rw [Function.update_self] at hq
      exact .inl ⟨rfl, (Option.some.inj hq).symm⟩
    · rw [Function.update_of_ne hu] at hq
      exact .inr ⟨hu, hq⟩
  refine ⟨_, rfl, h.currentThread, ?_, ?_, ?_, ?_, ?_, ?_, ?_, ?_⟩
  · show Function.update a.place t _ = Function.update s.place t _
    rw [h.place]
  · exact (Function.update_of_ne hcur ..).trans h.reg
  · exact (Function.update_of_ne hcur ..).trans h.eip
  · apply StackAllocate_agree
    intro x hx
    apply h.mem
    rintro (he | ⟨u, q, hq, hc⟩)
    · exact hx (.inl he)
    · have hu : u ≠ t := fun hu => by
        rw [hu, hfresh] at hq
        cases hq
      exact hx (.inr ⟨u, q, (Function.update_of_ne hu ..).trans hq, hc⟩)
  · show Function.update a.place t _ a.currentThread ≠ none
    rw [Function.update_of_ne hcur]
    exact h.live
  · intro u q hq hu
    show Suspended _ q (Function.update a.reg t _ u) (Function.update a.eip t _ u)
    obtain ⟨rfl, rfl⟩ | ⟨hut, hq⟩ := hplace u q hq
    · rw [Function.update_self, Function.update_self]
      exact suspended_born hsize hobject hnew
    · rw [Function.update_of_ne hut, Function.update_of_ne hut]
      apply (h.suspended u q hq hu).congr_bytes
      exact fun x hx => hbytes x fun hp => Set.disjoint_left.mp (hapart u q hq) hp hx
  · refine ⟨fun u q hq => ?_, fun u q hq => ?_, fun u v q r hq hr huv => ?_, fun u q hq hm => ?_⟩
    · obtain ⟨rfl, rfl⟩ | ⟨-, hq⟩ := hplace u q hq
      · exact hsave
      · exact h.apart.save u q hq
    · obtain ⟨rfl, rfl⟩ | ⟨-, hq⟩ := hplace u q hq
      · exact hobject
      · exact h.apart.object u q hq
    · obtain ⟨rfl, rfl⟩ | ⟨-, hq'⟩ := hplace u q hq
      · obtain ⟨rfl, rfl⟩ | ⟨-, hr'⟩ := hplace v r hr
        · exact absurd rfl huv
        · exact hapart v r hr'
      · obtain ⟨rfl, rfl⟩ | ⟨-, hr'⟩ := hplace v r hr
        · exact (hapart u q hq').symm
        · exact h.apart.ne u v q r hq' hr' huv
    · obtain ⟨rfl, rfl⟩ | ⟨-, hq⟩ := hplace u q hq
      · exact hsize
      · exact h.apart.size u q hq hm
  · intro u q hq hm
    obtain ⟨rfl, rfl⟩ | ⟨hut, hq⟩ := hplace u q hq
    · apply StackAllocate_CheckOverflow
      rw [← hsize]
      exact hobject
    · rw [← h.fencepost u q hq hm]
      apply CheckOverflow_congr
      exact fun x hx => hbytes x fun hp =>
        Set.disjoint_left.mp (hapart u q hq) hp (.inr (h.fence_subset hq hm hx))

theorem delete (h : Simulates k s a) {t : T} {garbage : Mem} (hg : Procs.Allowed k (.delete t garbage) a) :
    ∃ u, s.step k (.delete t garbage) = some u ∧ Simulates k u (a.step k (.delete t garbage)) := by
  obtain ⟨hcur, hlive⟩ := hg
  obtain ⟨p, hp⟩ := Option.ne_none_iff_exists'.mp hlive
  have hbytes : ∀ (m : Mem) x, x ∉ p.bytes → replaced m p garbage x = m x :=
    fun m x hx => if_neg hx
  have hplace : ∀ u q, Function.update a.place t none u = some q → u ≠ t ∧ a.place u = some q := by
    intro u q hq
    by_cases hu : u = t
    · rw [hu, Function.update_self] at hq
      cases hq
    · rw [Function.update_of_ne hu] at hq
      exact ⟨hu, hq⟩
  have hmem : (a.step k (.delete t garbage)).mem = replaced a.mem p garbage := by
    show (match a.place t with | none => a.mem | some p => replaced a.mem p garbage) = _
    rw [hp]
  refine ⟨{ s with
      cpu := { s.cpu with mem := replaced s.cpu.mem p garbage }
      place := Function.update s.place t none }, ?_, h.currentThread, ?_, h.reg, h.eip, ?_, ?_, ?_, ?_, ?_⟩
  · show (s.place t).map _ = _
    rw [← h.place, hp]
    rfl
  · show Function.update a.place t _ = Function.update s.place t _
    rw [h.place]
  · rw [hmem]
    intro x hx
    by_cases hxp : x ∈ p.bytes
    · exact (if_pos hxp).trans (if_pos hxp).symm
    · show replaced s.cpu.mem p garbage x = replaced a.mem p garbage x
      rw [hbytes _ x hxp, hbytes _ x hxp]
      apply h.mem
      rintro (he | ⟨u, q, hq, hc⟩)
      · exact hx (.inl he)
      · have hu : u ≠ t := by
          rintro rfl
          rw [hp] at hq
          exact hxp (.inl (Option.some.inj hq ▸ hc))
        exact hx (.inr ⟨u, q, (Function.update_of_ne hu ..).trans hq, hc⟩)
  · show Function.update a.place t none a.currentThread ≠ none
    rw [Function.update_of_ne (Ne.symm hcur)]
    exact h.live
  · intro u q hq hu
    obtain ⟨hut, hq⟩ := hplace u q hq
    apply (h.suspended u q hq hu).congr_bytes
    exact fun x hx => hbytes _ x fun hxp => Set.disjoint_left.mp (h.apart.ne u t q p hq hp hut) hx hxp
  · exact ⟨fun u q hq => h.apart.save u q (hplace u q hq).2, fun u q hq => h.apart.object u q (hplace u q hq).2,
      fun u v q r hq hr => h.apart.ne u v q r (hplace u q hq).2 (hplace v r hr).2,
      fun u q hq => h.apart.size u q (hplace u q hq).2⟩
  · intro u q hq hm
    obtain ⟨hut, hq⟩ := hplace u q hq
    rw [← h.fencepost u q hq hm]
    apply CheckOverflow_congr
    exact fun x hx => hbytes _ x fun hxp =>
      Set.disjoint_left.mp (h.apart.ne u t q p hq hp hut) (.inr (h.fence_subset hq hm hx)) hxp

/-- One event: what the threads' own code, `SWITCH`, `StackAllocate` and `~Thread` do on the machine is
what they do on the processors. -/
theorem step (h : Simulates k s a) {e : Event T} (hg : Procs.Allowed k e a) :
    ∃ t, s.step k e = some t ∧ Simulates k t (a.step k e) := by
  cases e with
  | own reg eip bytes => exact ⟨_, rfl, h.own hg⟩
  | switch next => exact h.switch hg
  | fork t p func arg => exact h.fork hg
  | delete t garbage => exact h.delete hg

end Simulates

/-- The events are what `Allowed` says, from one to the next. -/
abbrev Runs (k : Image) (es : List (Event T)) (a : Procs T) : Prop :=
  Along (fun e a => some (Procs.step k e a)) (Procs.Allowed k) es a

/-- Every run of the machine, in which threads switch with the instructions of `SWITCH`, is a
run of the machine with a processor for each thread. -/
theorem run_processors {k : Image} {s : Machine T} {a : Procs T} (h : Simulates k s a) {es : List (Event T)}
    (hes : Runs k es a) :
    ∃ t, run (Machine.step k) es s = some t ∧ Simulates k t (es.foldl (fun a e => a.step k e) a) :=
  run_simulates (fun _ _ _ h hg => h.step hg) h hes

/-- The start: one thread. -/
theorem Simulates.start (k : Image) (cpu : State) (t : T) {p : Place} (hmain : p.isMain = true)
    (hsave : Disjoint p.bytes (span k.eax_save 4)) (hobject : Disjoint (context p.object) p.stackBytes) :
    Simulates k ⟨cpu, t, Function.update (fun _ => none) t (some p)⟩
      ⟨fun _ => cpu.reg, fun _ => cpu.eip, cpu.mem, t, Function.update (fun _ => none) t (some p)⟩ := by
  have hplace : ∀ u q, Function.update (fun _ => none) t (some p) u = some q → u = t ∧ q = p := by
    intro u q hq
    by_cases hu : u = t
    · rw [hu, Function.update_self] at hq
      exact ⟨hu, (Option.some.inj hq).symm⟩
    · rw [Function.update_of_ne hu] at hq
      cases hq
  refine ⟨rfl, rfl, rfl, rfl, fun _ _ => rfl, ?_, fun u q hq hu => absurd (hplace u q hq).1 hu, ?_, ?_⟩
  · show Function.update (fun _ => none) t (some p) t ≠ none
    rw [Function.update_self]
    exact nofun
  · refine ⟨fun u q hq => ?_, fun u q hq => ?_, fun u v q r hq hr huv => ?_, fun u q hq hm => ?_⟩
    · exact (hplace u q hq).2 ▸ hsave
    · exact (hplace u q hq).2 ▸ hobject
    · exact absurd ((hplace u q hq).1.trans (hplace v r hr).1.symm) huv
    · rw [(hplace u q hq).2, hmain] at hm
      cases hm
  · intro u q hq hm
    rw [(hplace u q hq).2, hmain] at hm
    cases hm

/-- The two routines in a code, four bytes for an instruction. -/
def demoCode (eax_save : Word) : Code := fun a =>
  let i := (if 0x2000 ≤ a then ThreadRoot[(a - 0x2000).toNat / 4]?
    else (SWITCH eax_save)[(a - 0x1000).toNat / 4]?)
  i.map fun i => (i, a + 4)

theorem demoCode_SWITCH : Placed (demoCode 0x3000) 0x1000 (SWITCH 0x3000) 0x106c := by decide +kernel

theorem demoCode_ThreadRoot : Placed (demoCode 0x3000) 0x2000 ThreadRoot 0x2024 := by decide +kernel

def demoImage : Image where
  ThreadRoot := 0x2000
  InterruptEnable := 0x4000
  ThreadFinish := 0x5000
  code := demoCode 0x3000
  SWITCH := 0x1000
  eax_save := 0x3000
  switch_end := 0x106c
  placed := demoCode_SWITCH

def mainPlace : Place := ⟨0x8000, 0x10000, 0x1000, true⟩

def childPlace : Place := ⟨0x9000, 0x20000, 4 * StackSize, false⟩

/-- The frame of a call of `SWITCH` on either stack. -/
def demoMem : Mem :=
  (((((Mem.write (fun _ => 0) 0x10800 0x6000).write 0x10804 0x8000).write 0x10808 0x9000).write
    0x20800 0x7000).write 0x20804 0x9000).write 0x20808 0x8000

/-- The main thread at a call of `SWITCH`. -/
def demoMachine : Machine Nat :=
  ⟨⟨Function.update (fun r => offset r) .esp 0x10800, 0x1000, demoMem⟩, 0,
    Function.update (fun _ => none) 0 (some mainPlace)⟩

def demoProcs : Procs Nat :=
  ⟨fun _ => demoMachine.cpu.reg, fun _ => demoMachine.cpu.eip, demoMachine.cpu.mem, 0, demoMachine.place⟩

theorem demo_simulates : Simulates demoImage demoMachine demoProcs := by
  apply Simulates.start
  · rfl
  · apply Disjoint.union_left <;> exact disjoint_span (by decide) (by decide)
  · exact disjoint_span (by decide) (by decide)

theorem demo_fork : Procs.Allowed demoImage (.fork 1 childPlace 0x6000 7) demoProcs := by
  refine ⟨rfl, rfl, rfl, disjoint_span (by decide) (by decide), ?_, fun u q hq => ?_⟩
  · apply Disjoint.union_left <;> exact disjoint_span (by decide) (by decide)
  · have hq : Function.update (fun _ => none) 0 (some mainPlace) u = some q := hq
    by_cases hu : u = 0
    · rw [hu, Function.update_self] at hq
      obtain rfl := Option.some.inj hq
      apply Disjoint.union_left <;> apply Disjoint.union_right <;>
        exact disjoint_span (by decide) (by decide)
    · rw [Function.update_of_ne hu] at hq
      cases hq

theorem demo_switch :
    Procs.Allowed demoImage (.switch 1) (demoProcs.step demoImage (.fork 1 childPlace 0x6000 7)) := by
  refine ⟨rfl, mainPlace, childPlace, rfl, rfl, ?_, ?_, by decide +kernel, by decide +kernel⟩
  · have h : span (0x10000 + 0x800 : Word) 12 ⊆ span 0x10000 0x1000 := span_add_subset (by decide)
    exact h
  · rw [Set.disjoint_left]
    exact fun x _ hx => Bool.noConfusion hx.1

theorem run_processors_demo :
    ∃ t, run (Machine.step demoImage) [.fork 1 childPlace 0x6000 7, .switch 1] demoMachine = some t ∧
      Simulates demoImage t ([Event.fork 1 childPlace 0x6000 7, .switch 1].foldl
        (fun a e => a.step demoImage e) demoProcs) :=
  run_processors demo_simulates
    ⟨demo_fork, fun _ h => Option.some.inj h ▸ ⟨demo_switch, fun _ _ => trivial⟩⟩

/-! ## A thread that does not run -/

/-- Neither a switch to `t` nor its end. -/
def Spares (t : T) : Event T → Prop
  | .switch next => next ≠ t
  | .delete u _ => u ≠ t
  | _ => True

/-- `t` does not run, and would go on with these registers. -/
structure Waits (t : T) (reg : Regs) (eip : Word) (a : Procs T) : Prop where
  ne : t ≠ a.currentThread
  live : a.place t ≠ none
  reg : a.reg t = reg
  eip : a.eip t = eip

theorem Waits.step {k : Image} {t : T} {reg : Regs} {eip : Word} {a : Procs T} (h : Waits t reg eip a)
    {e : Event T} (he : Spares t e) (hg : Procs.Allowed k e a) : Waits t reg eip (a.step k e) := by
  cases e with
  | own r v bytes =>
    refine ⟨h.ne, h.live, ?_, ?_⟩
    · exact (Function.update_of_ne h.ne ..).trans h.reg
    · exact (Function.update_of_ne h.ne ..).trans h.eip
  | switch next =>
    refine ⟨Ne.symm he, h.live, ?_, ?_⟩
    · exact (Function.update_of_ne h.ne ..).trans h.reg
    · exact (Function.update_of_ne h.ne ..).trans h.eip
  | fork u p func arg =>
    -- a thread that lives is not forked again
    have hu : t ≠ u := fun hu => h.live (hu ▸ hg.1)
    refine ⟨h.ne, ?_, ?_, ?_⟩
    · show Function.update a.place u (some p) t ≠ none
      rw [Function.update_of_ne hu]
      exact h.live
    · exact (Function.update_of_ne hu ..).trans h.reg
    · exact (Function.update_of_ne hu ..).trans h.eip
  | delete u garbage =>
    refine ⟨h.ne, ?_, h.reg, h.eip⟩
    show Function.update a.place u none t ≠ none
    rw [Function.update_of_ne (Ne.symm he)]
    exact h.live

theorem Waits.run {k : Image} {t : T} {reg : Regs} {eip : Word} {a : Procs T} (h : Waits t reg eip a)
    {es : List (Event T)} (he : ∀ e ∈ es, Spares t e) (hes : Runs k es a) :
    Waits t reg eip (es.foldl (fun a e => a.step k e) a) := by
  induction es generalizing a with
  | nil => exact h
  | cons e es ih =>
    apply ih (h.step (he e List.mem_cons_self) hes.1)
    · exact fun e' he' => he e' (List.mem_cons_of_mem e he')
    · exact hes.2 _ rfl

/-- After events that spare `t`, a switch to `t` goes on as `t` would. -/
theorem Waits.resumes {k : Image} {t : T} {reg : Regs} {eip : Word} {s : Machine T} {a : Procs T}
    (h : Simulates k s a) (ht : Waits t reg eip a) {es : List (Event T)} (he : ∀ e ∈ es, Spares t e)
    (hes : Runs k (es ++ [.switch t]) a) :
    ∃ s', Framework.run (Machine.step k) (es ++ [.switch t]) s = some s' ∧ s'.currentThread = t ∧
      s'.cpu.reg = reg ∧ s'.cpu.eip = eip := by
  obtain ⟨s', hs', hsim⟩ := run_processors h hes
  have hfirst : Runs k es a := by
    have := hes.take es.length
    rwa [List.take_left] at this
  have hw := ht.run he hfirst
  rw [List.foldl_append] at hsim
  refine ⟨s', hs', hsim.currentThread.symm, ?_, ?_⟩
  · exact hsim.reg.symm.trans ((Function.update_of_ne hw.ne ..).trans hw.reg)
  · exact hsim.eip.symm.trans ((Function.update_of_ne hw.ne ..).trans hw.eip)

/-- From a call of `SWITCH` by `t` to the first switch to `t`, which may be that call itself. -/
inductive Away (t : T) : List (Event T) → Prop
  | itself : Away t [.switch t]
  | others {next : T} {es : List (Event T)} (hne : next ≠ t) (hspares : ∀ e ∈ es, Spares t e) :
    Away t (.switch next :: (es ++ [.switch t]))

/-- A thread that calls `SWITCH` is, when it or another thread switches to it after any number of
events, where it was called, with all registers as they were. -/
theorem switch_returns {k : Image} {s : Machine T} {a : Procs T} (h : Simulates k s a) {es : List (Event T)}
    (haway : Away s.currentThread es) (hes : Runs k es a) :
    ∃ s', run (Machine.step k) es s = some s' ∧ s'.currentThread = s.currentThread ∧
      s'.cpu.reg = Function.update s.cpu.reg .esp (s.cpu.reg .esp + 4) ∧
      s'.cpu.eip = s.cpu.mem.read (s.cpu.reg .esp) := by
  -- what the current thread goes on with
  have hreturns {next : T} (hg : Procs.Allowed k (.switch next) a) :
      a.returns.reg s.currentThread = Function.update s.cpu.reg .esp (s.cpu.reg .esp + 4) ∧
        a.returns.eip s.currentThread = s.cpu.mem.read (s.cpu.reg .esp) := by
    obtain ⟨-, p, q, hp, hq, hframe, -, -, -⟩ := hg
    have hmem : s.cpu.mem.read (s.cpu.reg .esp) = a.mem.read (a.reg a.currentThread .esp) := by
      rw [← h.reg]
      apply h.mem.read
      exact (h.stack_disjoint_hidden hp).mono_left fun x hx => hframe (span_subset (by decide) hx)
    rw [hmem, ← h.currentThread, ← h.reg]
    exact ⟨Function.update_self .., Function.update_self ..⟩
  cases haway with
  | itself =>
    obtain ⟨hreg, heip⟩ := hreturns hes.1
    obtain ⟨u, hu, hsim⟩ := h.step hes.1
    refine ⟨u, run_cons_eq_some.mpr ⟨u, hu, rfl⟩, hsim.currentThread.symm, ?_, ?_⟩
    · exact hsim.reg.symm.trans hreg
    · exact hsim.eip.symm.trans heip
  | @others next es hne hspares =>
    obtain ⟨hreg, heip⟩ := hreturns hes.1
    obtain ⟨u, hu, hsim⟩ := h.step hes.1
    have hw : Waits s.currentThread (Function.update s.cpu.reg .esp (s.cpu.reg .esp + 4))
        (s.cpu.mem.read (s.cpu.reg .esp)) (a.step k (.switch next)) := by
      refine ⟨Ne.symm hne, ?_, hreg, heip⟩
      show a.place s.currentThread ≠ none
      rw [← h.currentThread]
      exact h.live
    obtain ⟨s', hs', hcur, hreg, heip⟩ := hw.resumes hsim hspares (hes.2 _ rfl)
    exact ⟨s', run_cons_eq_some.mpr ⟨u, hu, hs'⟩, hcur, hreg, heip⟩

/-- Both threads of `demoMachine`, after the fork. -/
def demoForked : Machine Nat :=
  ⟨{ demoMachine.cpu with
    mem := StackAllocate demoImage.toEntries childPlace.object childPlace.stack 0x6000 7 demoMem }, 0,
    Function.update demoMachine.place 1 (some childPlace)⟩

theorem demo_forked_simulates :
    Simulates demoImage demoForked (demoProcs.step demoImage (.fork 1 childPlace 0x6000 7)) := by
  obtain ⟨u, hu, h⟩ := demo_simulates.fork demo_fork
  rwa [show u = demoForked from (Option.some.inj hu).symm] at h

theorem switch_returns_demo : ∃ s', run (Machine.step demoImage)
      [.switch 1, .own (Function.update (fun _ => 5) .esp 0x20800) 0x1000 [], .switch 0] demoForked = some s' ∧
    s'.currentThread = 0 ∧ s'.cpu.reg = Function.update demoMachine.cpu.reg .esp 0x10804 ∧
    s'.cpu.eip = 0x6000 := by
  have hback : Procs.Allowed demoImage (.switch 0) (((demoProcs.step demoImage (.fork 1 childPlace 0x6000 7)).step
      demoImage (.switch 1)).step demoImage (.own (Function.update (fun _ => 5) .esp 0x20800) 0x1000 [])) := by
    refine ⟨rfl, childPlace, mainPlace, rfl, rfl, ?_, ?_, by decide +kernel, by decide +kernel⟩
    · have h : span (0x20000 + 0x800 : Word) 12 ⊆ span 0x20000 (4 * StackSize) := span_add_subset (by decide)
      exact h
    · have h : Disjoint (span (0x20800 : Word) 12) (span 0x20000 4) := disjoint_span (by decide) (by decide)
      exact h.mono_right fun x hx => hx.2
  have haway : Away (0 : Nat)
      (.switch 1 :: ([.own (Function.update (fun _ => 5) .esp 0x20800) 0x1000 []] ++ [.switch 0])) := by
    refine .others (by decide) fun e he => ?_
    rw [List.mem_singleton.mp he]
    exact trivial
  obtain ⟨s', hs', hcur, hreg, heip⟩ := @switch_returns Nat _ demoImage demoForked _ demo_forked_simulates _ haway
    ⟨demo_switch, fun _ h => Option.some.inj h ▸ ⟨fun b hb => absurd hb List.not_mem_nil,
      fun _ h => Option.some.inj h ▸ ⟨hback, fun _ _ => trivial⟩⟩⟩
  refine ⟨s', hs', hcur, hreg, heip.trans ?_⟩
  decide +kernel

/-! ## A new thread -/

/-- A C function that was entered in `s` has returned: to its caller, with the stack pointer
and the registers that a function keeps, and with the words `kept` of the caller's frame. -/
structure Returned (kept : Set Word) (s s' : State) : Prop where
  eip : s'.eip = s.mem.read (s.reg .esp)
  esp : s'.reg .esp = s.reg .esp + 4
  reg : ∀ r, r = .ebx ∨ r = .esi ∨ r = .edi ∨ r = .ebp → s'.reg r = s.reg r
  mem : ∀ x ∈ kept, s'.mem x = s.mem x

/-- `s` is the entry of the function at `f`, whose first argument is `arg`. -/
def Enters (f arg : Word) (s : State) : Prop := s.eip = f ∧ s.mem.read (s.reg .esp + 4) = arg

theorem push_disjoint (esp : Word) : Disjoint (span esp 4) (span (esp - 4) 4) := by
  have h := disjoint_span_add (a := esp - 4) (d := 4) (e := 0) (by decide)
  rwa [show esp - 4 + 4 = esp by bv_omega, show esp - 4 + 0 = esp - 4 by bv_omega] at h

/-- `ThreadRoot` calls the start-up function; when that has returned, the thread's function with
its argument, which is still on the stack; and when that has returned, the last function. -/
theorem ThreadRoot_calls {code : Code} {z : Word} {s : State} (hcode : Placed code s.eip ThreadRoot z) :
    ∃ n s1, steps code n s = some s1 ∧ s1.eip = s.reg StartupPC ∧
      ∀ s2, Returned (span (s1.reg .esp + 4) 4) s1 s2 →
        ∃ s3, steps code 1 s2 = some s3 ∧ Enters (s.reg InitialPC) (s.reg InitialArg) s3 ∧
          ∀ s4, Returned ∅ s3 s4 →
            ∃ s5, steps code 1 s4 = some s5 ∧ s5.eip = s.reg WhenDonePC := by
  obtain ⟨b, hrun, hcode⟩ := @run_ops_then code [.push .ebp, .move .esp .ebp, .push InitialArg]
    (.call StartupPC) _ s z hcode
  refine ⟨_, _, hrun, rfl, fun s2 h2 => ?_⟩
  -- the argument was put on the stack, and then the return address
  have hesp : s2.reg .esp = s.reg .esp - 4 - 4 := by
    rw [h2.esp]
    show s.reg .esp - 4 - 4 - 4 + 4 = _
    bv_omega
  have hpc : s2.eip = b := h2.eip.trans (Mem.read_write ..)
  have harg : s2.mem.read (s.reg .esp - 4 - 4) = s.reg .edx := by
    have hspan : s.reg .esp - 4 - 4 = s.reg .esp - 4 - 4 - 4 + 4 := by bv_omega
    have hkept : s2.mem.read (s.reg .esp - 4 - 4) =
        (((s.mem.write (s.reg .esp - 4) (s.reg .ebp)).write (s.reg .esp - 4 - 4) (s.reg .edx)).write
          (s.reg .esp - 4 - 4 - 4) b).read (s.reg .esp - 4 - 4) := by
      apply Mem.read_congr
      intro x hx
      apply h2.mem
      rw [hspan] at hx
      exact hx
    rw [hkept, Mem.read_write_of_disjoint, Mem.read_write]
    exact push_disjoint _
  have hesi : s2.reg .esi = s.reg .esi := h2.reg .esi (by decide)
  have hedi : s2.reg .edi = s.reg .edi := h2.reg .edi (by decide)
  clear hrun h2
  rw [← hpc] at hcode
  obtain ⟨c, hrun, hcode⟩ := step_placed hcode
  refine ⟨_, by show (step code s2).bind _ = _; rw [hrun]; rfl, ⟨hesi, ?_⟩, fun s4 h4 => ?_⟩
  · show (s2.mem.write (s2.reg .esp - 4) c).read (s2.reg .esp - 4 + 4) = _
    rw [show s2.reg .esp - 4 + 4 = s2.reg .esp by bv_omega, Mem.read_write_of_disjoint (push_disjoint _), hesp]
    exact harg
  · have hpc4 : s4.eip = c := h4.eip.trans (Mem.read_write ..)
    rw [← hpc4] at hcode
    obtain ⟨d, hrun4, -⟩ := step_placed hcode
    refine ⟨_, by show (step code s4).bind _ = _; rw [hrun4]; rfl, ?_⟩
    exact (h4.reg .edi (by decide)).trans hedi

/-- A forked thread, when it is first switched to, is in `ThreadRoot`, with the functions and
the argument in the registers that `ThreadRoot` expects. It calls `InterruptEnable`, then the
function it was forked for, with the argument, then `ThreadFinish`. -/
theorem fork_runs {k : Image} {s : Machine T} {a : Procs T} (h : Simulates k s a) {z : Word}
    (hroot : Placed k.code k.ThreadRoot ThreadRoot z) {t : T} {p : Place} {func arg : Word}
    {es : List (Event T)} (he : ∀ e ∈ es, Spares t e)
    (hes : Runs k (.fork t p func arg :: (es ++ [.switch t])) a) :
    ∃ s', run (Machine.step k) (.fork t p func arg :: (es ++ [.switch t])) s = some s' ∧
      s'.currentThread = t ∧ s'.cpu.eip = k.ThreadRoot ∧
      ∃ n s1, steps k.code n s'.cpu = some s1 ∧ s1.eip = k.InterruptEnable ∧
        ∀ s2, Returned (span (s1.reg .esp + 4) 4) s1 s2 →
          ∃ s3, steps k.code 1 s2 = some s3 ∧ Enters func arg s3 ∧
            ∀ s4, Returned ∅ s3 s4 → ∃ s5, steps k.code 1 s4 = some s5 ∧ s5.eip = k.ThreadFinish := by
  obtain ⟨u, hu, hsim⟩ := h.step hes.1
  have hfresh := hes.1.1
  have hw : Waits t (Procs.born k p func arg a.mem) k.ThreadRoot (a.step k (.fork t p func arg)) := by
    refine ⟨fun hc => h.live ?_, ?_, Function.update_self .., Function.update_self ..⟩
    · have hc : t = a.currentThread := hc
      rw [← hc, hfresh]
    · show Function.update a.place t (some p) t ≠ none
      rw [Function.update_self]
      exact nofun
  obtain ⟨s', hs', hcur, hreg, heip⟩ := hw.resumes hsim he (hes.2 _ rfl)
  refine ⟨s', run_cons_eq_some.mpr ⟨u, hu, hs'⟩, hcur, heip, ?_⟩
  have hcalls := ThreadRoot_calls (s := s'.cpu) (by rw [heip]; exact hroot)
  rw [hreg] at hcalls
  exact hcalls

theorem fork_runs_demo : ∃ s',
    run (Machine.step demoImage) [.fork 1 childPlace 0x6000 7, .switch 1] demoMachine = some s' ∧
    s'.currentThread = 1 ∧ s'.cpu.eip = 0x2000 ∧
    ∃ n s1, steps demoImage.code n s'.cpu = some s1 ∧ s1.eip = 0x4000 ∧
      ∀ s2, Returned (span (s1.reg .esp + 4) 4) s1 s2 →
        ∃ s3, steps demoImage.code 1 s2 = some s3 ∧ Enters 0x6000 7 s3 ∧
          ∀ s4, Returned ∅ s3 s4 → ∃ s5, steps demoImage.code 1 s4 = some s5 ∧ s5.eip = 0x5000 :=
  @fork_runs Nat _ demoImage demoMachine demoProcs demo_simulates 0x2024 demoCode_ThreadRoot 1 childPlace
    0x6000 7 [] (fun _ he => absurd he List.not_mem_nil)
    ⟨demo_fork, fun _ h => Option.some.inj h ▸ ⟨demo_switch, fun _ _ => trivial⟩⟩

end Nachos.Threads.Switch
