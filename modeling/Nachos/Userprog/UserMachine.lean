import Nachos.Framework.Waiting
import Nachos.Machine.Flat
import Nachos.Userprog.Confined
import Nachos.Userprog.ForkPreempt
import Nachos.Userprog.Join

/-!
# A machine for each process (userprog, machine)

There is one register file and one main memory, and processes take turns with
them. Each of them runs as if it had a machine for itself, with its pages in
order from address 0 on, where a system call is a jump out that comes back with a
result.

* `UserMachine`: such a machine, and `UserMachine.step` what can happen to it;
* `userMachine`: the one that a process has in a state of the kernel;
* `step_other`, `step_own`: what a step of the kernel does to it;
* `runs_userMachine`: a run of the kernel is a run of the machine of each process.
-/

namespace Nachos

open Nachos.Framework

/-! ## The machine -/

/-- A machine that runs one program, and the number of the system call it is in. -/
structure UserMachine where
  machine : Machine
  call : Option Nat

namespace UserMachine

inductive Event
  | instruction
  /-- A timer interrupt: the pending load is done. -/
  | interrupt
  /-- The instruction is a system call. -/
  | trap
  /-- `Create`, `Open`, `Read`, `Write` and `Close` go back to the instruction. -/
  | ignore
  /-- `Yield` goes on behind it. -/
  | proceed
  | reply (value : BitVec 32)
  /-- `Exec` puts another program in place. -/
  | replace (memory : Bytes) (table : List TranslationEntry) (numPages : Nat)

/-- What can happen. Use and dirty bits are not seen. -/
def step : Event → UserMachine → Option UserMachine
  | .instruction, ⟨m, none⟩ =>
    match m.oneInstruction with
    | .ok m => some ⟨m.flat, none⟩
    | .error _ => none
  | .interrupt, ⟨m, call⟩ =>
    match m.registers.delayedLoad 0 0 with
    | .ok r => some ⟨{ m with registers := r }, call⟩
    | .error _ => none
  | .trap, ⟨m, none⟩ =>
    match m.oneInstruction with
    | .error (.exception .syscall badVAddr m) =>
      match (m.registers.write badVAddrReg badVAddr).delayedLoad 0 0 with
      | .ok r => some ⟨{ m.flat with registers := r }, some (r 2).toNat⟩
      | .error _ => none
    | _ => none
  | .ignore, ⟨m, some call⟩ => if call ∈ [4, 5, 6, 7, 8] then some ⟨m, none⟩ else none
  | .proceed, ⟨m, some call⟩ =>
    if call = 10 then some ⟨{ m with registers := m.registers.update }, none⟩ else none
  | .reply value, ⟨m, some call⟩ =>
    if call ∈ [2, 3, 9, 11] then some ⟨{ m with registers := (m.registers.write 2 value).update }, none⟩
    else none
  | .replace memory table numPages, ⟨_, some call⟩ =>
    if call = 2 then some ⟨⟨((initRegisters numPages).write 2 1).update, memory, table, numPages⟩, none⟩
    else none
  | _, _ => none

end UserMachine

/-! ## The machine of a process -/

def Control.point : Control → Point
  | .tick p | .run p => p

/-- The system call that a point of the kernel is in. -/
def Point.call : Point → Option Nat
  | .joinLoop _ _ => some 3
  | .forkTail _ => some 9
  | .yieldTail => some 10
  | .user | .threadRoot => none

/-- The registers of the process are in its `Thread` there, also while it runs. -/
def Point.saved : Point → Bool
  | .forkTail _ | .threadRoot => true
  | _ => false

namespace Kernel

variable {env : Env} {k k' e : Kernel} {q s : Nat} {Q : PCB} {S : AddrSpace} {p : Point} {r : Registers}

/-- The user registers of a thread, and where it is. -/
def localOf (k : Kernel) (t : Nat) : Option (Registers × Point) :=
  (k.threads t).map fun T =>
    if t = k.currentThread
    then (if k.control.point.saved then T.userRegisters else k.registers, k.control.point)
    else (T.userRegisters, T.resume.getD .threadRoot)

/-- The machine that process `q` has. -/
def userMachine (k : Kernel) (q : Nat) : Option UserMachine := do
  let Q ← k.pcbs q
  let s ← k.spaceOf Q.processThread
  let S ← k.spaces s
  let (r, p) ← k.localOf Q.processThread
  return ⟨(Machine.mk r k.mainMemory S.pageTable S.numPages).flat, p.call⟩

theorem userMachine_eq (hQ : k.pcbs q = some Q) (hs : k.spaceOf Q.processThread = some s)
    (hS : k.spaces s = some S) (hl : k.localOf Q.processThread = some (r, p)) :
    k.userMachine q = some ⟨(Machine.mk r k.mainMemory S.pageTable S.numPages).flat, p.call⟩ := by
  simp only [userMachine, hQ, hs, hS, hl, Option.bind_eq_bind, Option.bind_some, Option.pure_def]

theorem userMachine_cases {P : UserMachine} (h : k.userMachine q = some P) :
    ∃ Q s S r p, k.pcbs q = some Q ∧ k.spaceOf Q.processThread = some s ∧ k.spaces s = some S ∧
      k.localOf Q.processThread = some (r, p) ∧
      P = ⟨(Machine.mk r k.mainMemory S.pageTable S.numPages).flat, p.call⟩ := by
  obtain ⟨Q, hQ, h⟩ := Option.bind_eq_some_iff.mp h
  obtain ⟨s, hs, h⟩ := Option.bind_eq_some_iff.mp h
  obtain ⟨S, hS, h⟩ := Option.bind_eq_some_iff.mp h
  obtain ⟨⟨r, p⟩, hl, h⟩ := Option.bind_eq_some_iff.mp h
  exact ⟨Q, s, S, r, p, hQ, hs, hS, hl, (Option.some.inj h).symm⟩

theorem userMachine_eq_none (h : k.pcbs q = none) : k.userMachine q = none := by
  rw [userMachine, h]
  rfl

/-! ## What a step leaves alone -/

/-- The flat machine depends on the mapping and the memory mapped. -/
theorem flat_congr {m m' : Machine} (hr : m'.registers = m.registers) (hn : m'.pageTableSize = m.pageTableSize)
    (ht : m'.pageTable.map TranslationEntry.mapping = m.pageTable.map TranslationEntry.mapping)
    (hmem : ∀ x, Maps m.pageTable x → m'.mainMemory x = m.mainMemory x) : m'.flat = m.flat := by
  have hentry : ∀ i : Nat, (m'.pageTable[i]?).map TranslationEntry.mapping =
      (m.pageTable[i]?).map TranslationEntry.mapping := by
    intro i
    rw [← List.getElem?_map, ht, List.getElem?_map]
  have htable : m'.pageTable.mapIdx TranslationEntry.flat = m.pageTable.mapIdx TranslationEntry.flat := by
    apply List.ext_getElem?
    intro i
    rw [List.getElem?_mapIdx, List.getElem?_mapIdx]
    have hi := congrArg (Option.map fun x : BitVec 32 × Bool × Bool =>
      TranslationEntry.mk (BitVec.ofNat 32 i) (BitVec.ofNat 32 i) x.2.1 x.2.2 false false) (hentry i)
    rw [Option.map_map, Option.map_map] at hi
    exact hi
  have hmemory : m'.validMemory = m.validMemory := by
    funext x
    have hi := hentry (x / pageSize)
    unfold Machine.validMemory
    cases he : m.pageTable[x / pageSize]? with
    | none =>
      rw [he, Option.map_none, Option.map_eq_none_iff] at hi
      rw [hi]
    | some d =>
      rw [he, Option.map_some, Option.map_eq_some_iff] at hi
      obtain ⟨d', hd', heq⟩ := hi
      simp only [TranslationEntry.mapping, Prod.mk.injEq] at heq
      rw [hd']
      dsimp only
      rw [heq.2.1, show d'.physAddr x = d.physAddr x by rw [TranslationEntry.physAddr, heq.1]; rfl]
      by_cases hv : d.valid = true
      · rw [if_pos hv, if_pos hv]
        apply hmem
        refine ⟨d, List.mem_of_getElem? he, hv, ?_⟩
        exact (frame_add_div (Nat.mod_lt x (by decide))).symm
      · rw [if_neg hv, if_neg hv]
  unfold Machine.flat
  rw [hr, hmemory, htable, hn]

/-- A step that leaves the process and its frames alone changes its registers and where it is, at
most. -/
theorem Untouched.userMachine (h : Untouched k k' q Q s S) (hl : k'.localOf Q.processThread = some (r, p)) :
    k'.userMachine q = some ⟨(Machine.mk r k.mainMemory S.pageTable S.numPages).flat, p.call⟩ := by
  obtain ⟨Q', hQ', hth⟩ := h.pcb
  obtain ⟨S', hS', hshape⟩ := h.space
  simp only [shape, Prod.mk.injEq] at hshape
  rw [userMachine_eq hQ' (hth ▸ h.spaceOf) hS' (hth ▸ hl)]
  congr 2
  exact flat_congr rfl hshape.2.1 hshape.2.2 fun x hx => h.memory x (mem_frames_of_maps hx)

theorem Undisturbed.localOf {t : Nat} {T : Thread} (h : Undisturbed k' t T) :
    k'.localOf t = some (T.userRegisters, T.resume.getD .threadRoot) := by
  rw [Kernel.localOf, h.thread, Option.map_some]
  by_cases hcur : t = k'.currentThread
  · rw [if_pos hcur]
    rcases h.resumed hcur.symm with ⟨hres, hc⟩ | ⟨p, s, S, hres, hc, hr, -⟩
    · rw [hc, hres]
      rfl
    · rw [hc, hres, hr]
      show some (if p.saved then _ else _, p) = _
      rw [ite_self]
      rfl
  · rw [if_neg hcur]

/-! ## Steps of other processes -/

/-- A process that another one kills is gone. -/
theorem kill_removes (ho : Owning k) (hQ : k.pcbs q = some Q) (hne : Q.processThread ≠ k.currentThread)
    (hg : k.getProcess (k.registers 4).toInt = .ok (some q)) (hk : k.kill = .ok k') : k'.pcbs q = none := by
  unfold kill at hk
  obtain ⟨cur, hcur, hk⟩ := bind_eq_ok.mp hk
  obtain ⟨-, -, -, -, hP⟩ := process_spec hcur
  dsimp only at hk
  rw [hg, ok_bind] at hk
  dsimp only at hk
  split at hk
  next hself =>
    rw [hself, ho.tree.getProcess_eq hP, Except.ok.injEq, Option.some.injEq] at hg
    rw [← hg, hP, Option.some.injEq] at hQ
    exact absurd (hQ ▸ ho.linked.process_eq List.mem_cons_self hcur) hne
  next =>
    rw [hQ, deref_some, ok_bind] at hk
    obtain ⟨T, -, hk⟩ := bind_eq_ok.mp hk
    obtain ⟨s, -, hk⟩ := bind_eq_ok.mp hk
    obtain ⟨S, -, hk⟩ := bind_eq_ok.mp hk
    obtain ⟨k₁, htear, hk⟩ := bind_eq_ok.mp hk
    cases hk
    obtain ⟨i, b, pcbs', -, -, -, hremoves, rfl⟩ := tearDown_spec hQ htear
    exact (hremoves q).trans (if_pos rfl)

/-- A step of another process, that does not execute a file that is not confined. -/
theorem step_other (ho : Owning k) (hm : Mapped k) {P P' : UserMachine} (hQ : k.pcbs q = some Q)
    (hne : Q.processThread ≠ k.currentThread)
    (hconf : ∀ e, k.syscallEntry = some e → (e.registers 2).toNat = 2 → ExecConfined env e)
    (h : Kernel.step env k = .ok k') (hP : k.userMachine q = some P) (hP' : k'.userMachine q = some P') :
    P' = P := by
  obtain ⟨Q₀, s, S, r, p, hQ₀, hs, hS, hl, rfl⟩ := userMachine_cases hP
  obtain rfl := Option.some.inj (hQ.symm.trans hQ₀)
  have hspares : SparesConfined env k q := by
    refine fun e he => ⟨fun hcode hg => ?_, hconf e he⟩
    obtain ⟨-, -, hu, -⟩ := syscallEntry_spec he
    rw [step_of_syscallEntry env he, syscall, hcode] at h
    have hne' : Q.processThread ≠ e.currentThread := by
      obtain ⟨r, mem, spaces, c, rfl⟩ := hu.rest
      exact hne
    have hgone := kill_removes (hu.quiet.owning ho) (by rw [hu.quiet.pcbs, hQ]) hne' hg h
    rw [userMachine_eq_none hgone] at hP'
    cases hP'
  have hmem := (ho.linked.runnable Q.processThread).mpr ⟨q, Q, hQ, rfl⟩
  have hready : Q.processThread ∈ k.readyList := (List.mem_cons.mp hmem).resolve_left hne
  obtain ⟨T, hT⟩ := Option.ne_none_iff_exists'.mp (ho.linked.threads_ne_none hmem)
  have hlocal : k.localOf Q.processThread = some (T.userRegisters, T.resume.getD .threadRoot) := by
    rw [Kernel.localOf, hT, Option.map_some, if_neg hne]
  have hu := step_untouched_confined ho hm hQ hs hS hne hspares h
  have hsame := hu.userMachine (ho.linked.step_other h hT hready).localOf
  rw [hP', Option.some.injEq] at hsame
  rw [hl, Option.some.injEq] at hlocal
  rw [hsame]
  cases hlocal
  rfl

/-! ## Steps of the process itself -/

theorem localOf_current {T : Thread} (hT : k.threads k.currentThread = some T) :
    k.localOf k.currentThread =
      some (if k.control.point.saved then T.userRegisters else k.registers, k.control.point) := by
  rw [localOf, hT, Option.map_some, if_pos rfl]

theorem localOf_running {t : Nat} (ht : k.currentThread = t) (hT : k.threads t ≠ none)
    (hp : k.control.point.saved = false) : k.localOf t = some (k.registers, k.control.point) := by
  obtain ⟨T, hT⟩ := Option.ne_none_iff_exists'.mp hT
  subst ht
  rw [localOf_current hT, hp]
  rfl

theorem localOf_ready {t : Nat} {T : Thread} (hT : k.threads t = some T) (hne : t ≠ k.currentThread) :
    k.localOf t = some (T.userRegisters, T.resume.getD .threadRoot) := by
  rw [localOf, hT, Option.map_some, if_neg hne]

/-- After `Thread::Yield` the thread is at the point given, with its registers. -/
theorem yield_localOf (hl : Linked k) (hp : p.saved = false) (h : k.yield p = .ok k') :
    k'.localOf k.currentThread = some (k.registers, p) := by
  rcases yield_current hl h with ⟨-, rfl⟩ | ⟨-, hne, T, hT, hres, hregs⟩
  · obtain ⟨T, hT⟩ := Option.ne_none_iff_exists'.mp (hl.threads_ne_none List.mem_cons_self)
    have hlocal := localOf_current (k := { k with control := .tick p }) hT
    rw [show Control.point (.tick p) = p from rfl, hp] at hlocal
    exact hlocal
  · rw [localOf_ready hT hne.symm, hres, hregs]
    rfl

/-- The tick leaves the process as it is, or does its pending load. -/
theorem oneTick_localOf (hl : Linked k) (hc : k.control = .tick p)
    (hcalm : p.saved = true → ¬ Switches env k) (h : k.oneTick env p = .ok k') :
    k'.localOf k.currentThread = k.localOf k.currentThread ∨
      p.saved = false ∧ ∃ r, k.registers.delayedLoad 0 0 = .ok r ∧
        k'.localOf k.currentThread = some (r, p) := by
  obtain ⟨T, hT⟩ := Option.ne_none_iff_exists'.mp (hl.threads_ne_none List.mem_cons_self)
  have hlocal := localOf_current hT
  unfold oneTick at h
  split at h
  next htimer =>
    obtain ⟨r, hr, h⟩ := bind_eq_ok.mp h
    cases hp : p.saved with
    | false =>
      have hl' : Linked { k with registers := r } := (Quiet.of_registers r _ _ k.control).linked hl
      exact .inr ⟨rfl, r, hr, yield_localOf (k := { k with registers := r }) hl' hp h⟩
    | true =>
      have hnil : k.readyList = [] := by
        by_contra hne
        exact hcalm hp ⟨htimer, hne⟩
      unfold yield at h
      simp only [hnil] at h
      cases h
      refine .inl ?_
      have hlocal' := localOf_current (k := { k with registers := r, control := .tick p }) hT
      rw [hc, show Control.point (.tick p) = p from rfl, hp] at hlocal
      rw [show Control.point (.tick p) = p from rfl, hp] at hlocal'
      exact hlocal'.trans hlocal.symm
  next =>
    cases h
    refine .inl ?_
    rw [hlocal, localOf_current (k := { k with control := .run p }) hT, hc]
    rfl

/-- `n` events at most lead from the one machine to the other. -/
def Does (n : Nat) (P P' : UserMachine) : Prop :=
  ∃ es, es.length ≤ n ∧ Framework.run UserMachine.step es P = some P'

theorem Does.refl (n : Nat) (P : UserMachine) : Does n P P := ⟨[], Nat.zero_le n, rfl⟩

theorem Does.one {n : Nat} {P P' : UserMachine} (ev : UserMachine.Event) (h : UserMachine.step ev P = some P') :
    Does (n + 1) P P' := ⟨[ev], Nat.le_add_left 1 n, run_cons_eq_some.mpr ⟨P', h, rfl⟩⟩

theorem Does.trans {n n' : Nat} {P P' P'' : UserMachine} (h : Does n P P') (h' : Does n' P' P'') :
    Does (n + n') P P'' := by
  obtain ⟨es, hlen, hes⟩ := h
  obtain ⟨es', hlen', hes'⟩ := h'
  refine ⟨es ++ es', ?_, ?_⟩
  · rw [List.length_append]
    exact Nat.add_le_add hlen hlen'
  · rw [run_append, hes]
    exact hes'

theorem Does.mono {n n' : Nat} {P P' : UserMachine} (h : Does n P P') (hn : n ≤ n') : Does n' P P' :=
  ⟨h.choose, h.choose_spec.1.trans hn, h.choose_spec.2⟩

section

variable (ho : Owning k) (hQ : k.pcbs q = some Q) (hcur : Q.processThread = k.currentThread)
  (hs : k.spaceOf Q.processThread = some s) (hS : k.spaces s = some S)
  (hl : k.localOf Q.processThread = some (r, p))
include ho hQ hcur hs hS hl

theorem tick_userMachine {P' : UserMachine} {p' : Point} (hc : k.control = .tick p')
    (hcalm : p'.saved = true → ¬ Switches env k) (h : k.oneTick env p' = .ok k')
    (hP' : k'.userMachine q = some P') :
    Does 1 ⟨(Machine.mk r k.mainMemory S.pageTable S.numPages).flat, p.call⟩ P' := by
  have hu : Untouched k k' q Q s S :=
    (oneTick_quiet h).untouched ho hQ hs hS fun _ _ => by rw [oneTick_memory h]
  rcases oneTick_localOf ho.linked hc hcalm h with hsame | ⟨hp, r', hr', hlocal⟩
  · rw [← hcur, hl] at hsame
    rw [hu.userMachine hsame, Option.some.injEq] at hP'
    exact hP' ▸ Does.refl _ _
  · rw [← hcur] at hlocal
    rw [hu.userMachine hlocal, Option.some.injEq] at hP'
    obtain ⟨T, hT⟩ := Option.ne_none_iff_exists'.mp (ho.linked.threads_ne_none List.mem_cons_self)
    have hlk := localOf_current hT
    rw [← hcur, hl, hc, show Control.point (.tick p') = p' from rfl, hp] at hlk
    cases hlk
    refine Does.one .interrupt ?_
    rw [← hP']
    show (match k.registers.delayedLoad 0 0 with | .ok r => _ | .error _ => _) = _
    rw [hr']
    rfl

theorem runPoint_userMachine {P' : UserMachine} {p' : Point} (hp' : p' ≠ .user) (hc : k.control = .run p')
    (h : k.runPoint env p' = .ok k') (hP' : k'.userMachine q = some P') :
    Does 1 ⟨(Machine.mk r k.mainMemory S.pageTable S.numPages).flat, p.call⟩ P' := by
  have hu : Untouched k k' q Q s S :=
    (runPoint_quiet hp' h).untouched ho hQ hs hS fun _ _ => by rw [runPoint_memory hp' h]
  obtain ⟨T, hT⟩ := Option.ne_none_iff_exists'.mp (ho.linked.threads_ne_none List.mem_cons_self)
  have hlk := localOf_current hT
  rw [← hcur, hl, hc, show Control.point (.run p') = p' from rfl] at hlk
  -- where the thread is afterwards, and what that is for its machine
  suffices hgoal : ∀ r₁ p₁, k'.localOf k.currentThread = some (r₁, p₁) →
      Does 1 ⟨(Machine.mk r k.mainMemory S.pageTable S.numPages).flat, p.call⟩
        ⟨(Machine.mk r₁ k.mainMemory S.pageTable S.numPages).flat, p₁.call⟩ by
    obtain ⟨r₁, p₁, hl₁⟩ : ∃ r₁ p₁, k'.localOf k.currentThread = some (r₁, p₁) := by
      obtain ⟨Q', s', S', r₁, p₁, hQ', -, -, hl', -⟩ := userMachine_cases hP'
      obtain ⟨Q'', hQ'', hth⟩ := hu.pcb
      rw [hQ'', Option.some.injEq] at hQ'
      subst hQ'
      rw [hth, hcur] at hl'
      exact ⟨r₁, p₁, hl'⟩
    have := hgoal r₁ p₁ hl₁
    rw [← hcur] at hl₁
    rw [hu.userMachine hl₁, Option.some.injEq] at hP'
    exact hP' ▸ this
  intro r₁ p₁ hl₁
  cases p' with
  | user => exact absurd rfl hp'
  | yieldTail =>
    cases h
    cases (localOf_current (k := { k with registers := k.registers.update, control := .tick .user }) hT).symm.trans hl₁
    cases hlk
    exact Does.one .proceed rfl
  | joinLoop pid c =>
    cases hlk
    rcases joinLoop_cases h with ⟨x, -, hy⟩ | ⟨-, cur, -, rfl⟩
    · rw [yield_localOf ho.linked rfl hy] at hl₁
      cases hl₁
      exact Does.refl _ _
    · cases (localOf_current (k := k.sysReturn cur.pcb.childExitValue) hT).symm.trans hl₁
      exact Does.one (.reply cur.pcb.childExitValue) rfl
  | forkTail pid =>
    cases hlk
    obtain ⟨T', hT', h⟩ := bind_eq_ok.mp h
    rw [deref_eq_ok, hT, Option.some.injEq] at hT'
    subst hT'
    cases h
    cases (localOf_current (k := (k.restoreUserState T).sysReturn (BitVec.ofInt 32 pid)) hT).symm.trans hl₁
    exact Does.one (.reply (BitVec.ofInt 32 pid)) rfl
  | threadRoot =>
    cases hlk
    obtain ⟨T', hT', h⟩ := bind_eq_ok.mp h
    rw [deref_eq_ok, hT, Option.some.injEq] at hT'
    subst hT'
    obtain ⟨s', -, h⟩ := bind_eq_ok.mp h
    obtain ⟨S', -, h⟩ := bind_eq_ok.mp h
    cases h
    cases (localOf_current (k := { (k.restoreUserState T).restoreState s' S' with control := .run .user }) hT).symm.trans hl₁
    exact Does.refl _ _

end

/-! ## System calls -/

/-- A system call that comes back at once, with a result. -/
theorem reply_userMachine {e : Kernel} {S : AddrSpace} {P' : UserMachine} {v : BitVec 32} (hcall : (e.registers 2).toNat ∈ [2, 3, 9, 11])
    (hu : Untouched e k' q Q s S)
    (hl : k'.localOf Q.processThread = some ((e.registers.write 2 v).update, .user))
    (hP' : k'.userMachine q = some P') :
    Does 1 ⟨(Machine.mk e.registers e.mainMemory S.pageTable S.numPages).flat, some (e.registers 2).toNat⟩ P' := by
  rw [hu.userMachine hl, Option.some.injEq] at hP'
  subst hP'
  exact Does.one (.reply v) (if_pos hcall)

/-- A process that ends is gone. -/
theorem exit_removes (ho : Owning e) (hQ : e.pcbs q = some Q) (hcur : Q.processThread = e.currentThread)
    (h : e.exit = .ok k') : k'.pcbs q = none := by
  obtain ⟨cur, k₁, n, rest, hpr, htear, -, hd⟩ := exit_cases h
  obtain ⟨-, -, -, -, hP⟩ := process_spec hpr
  have hpq : cur.pcbId = q :=
    ho.eq_of_thread hP hQ ((ho.linked.process_eq List.mem_cons_self hpr).trans hcur.symm)
  obtain ⟨i, b, pcbs', -, -, -, hremoves, rfl⟩ := tearDown_spec hP htear
  obtain ⟨r, pt, m, ths, d, c, rfl⟩ := hd.rest
  exact (hremoves q).trans (if_pos hpq.symm)

section

variable {e : Kernel} {S : AddrSpace} (ho : Owning e) (hQ : e.pcbs q = some Q)
  (hcur : Q.processThread = e.currentThread) (hs : e.spaceOf Q.processThread = some s)
  (hS : e.spaces s = some S)
include ho hQ hcur hs hS

theorem exec_userMachine {P' : UserMachine} (hcall : (e.registers 2).toNat = 2) (h : e.exec env = .ok k')
    (hP' : k'.userMachine q = some P') :
    Does 1 ⟨(Machine.mk e.registers e.mainMemory S.pageTable S.numPages).flat, some (e.registers 2).toNat⟩ P' := by
  have hthreads : e.threads Q.processThread ≠ none :=
    hcur ▸ ho.linked.threads_ne_none List.mem_cons_self
  obtain ⟨cur, S', r, hpr, hr, hcase⟩ := exec_cases h
  obtain ⟨hT, hcs, hcS, -, -⟩ := process_spec hpr
  have hsame : s = cur.spaceId := by
    rw [hcur, Kernel.spaceOf, hT, Option.bind_some, hcs, Option.some.injEq] at hs
    exact hs.symm
  rw [← hsame, hS, Option.some.injEq] at hcS
  subst hcS
  rcases hcase with ⟨rfl, rfl⟩ | ⟨vm, mem, rfl, rfl⟩
  · obtain ⟨hpcb, ⟨-, hnum, hmap⟩ | ⟨_, _, _, _, _, hr', -⟩⟩ := AddrSpace.replace_spec hr
    · have hspace : ((e.setSpace cur.spaceId S').sysReturn (-1)).spaces s = some S' := by
        rw [hsame]
        exact Function.update_self _ _ _
      have hshape : shape S' = shape cur.space := by rw [shape, shape, hpcb, hnum, hmap]
      have hlocal : ((e.setSpace cur.spaceId S').sysReturn (-1)).localOf Q.processThread =
          some ((e.registers.write 2 (-1)).update, .user) := localOf_running hcur.symm hthreads rfl
      have hu : Untouched e ((e.setSpace cur.spaceId S').sysReturn (-1)) q Q s cur.space :=
        ⟨⟨Q, hQ, rfl⟩, hs, ⟨S', hspace, hshape⟩, fun _ _ => rfl⟩
      exact reply_userMachine (by rw [hcall]; decide) hu hlocal hP'
    · cases hr'
  · generalize hk : sysReturn _ 1 = k' at hP'
    have hspace : k'.spaces s = some S' := by
      rw [← hk, hsame]
      exact Function.update_self _ _ _
    have hlocal : k'.localOf Q.processThread =
        some (((initRegisters S'.numPages).write 2 1).update, .user) := by
      subst hk
      exact localOf_running hcur.symm hthreads rfl
    have hmem : k'.mainMemory = mem := by rw [← hk]; rfl
    rw [userMachine_eq (Q := Q) (by rw [← hk]; exact hQ) (by rw [← hk]; exact hs) hspace hlocal] at hP'
    rw [← Option.some.inj hP', hcall]
    exact Does.one (.replace _ _ _) rfl

theorem join_userMachine {P' : UserMachine} (hcall : (e.registers 2).toNat = 3) (h : e.join = .ok k')
    (hP' : k'.userMachine q = some P') :
    Does 1 ⟨(Machine.mk e.registers e.mainMemory S.pageTable S.numPages).flat, some (e.registers 2).toNat⟩ P' := by
  have hthreads : e.threads Q.processThread ≠ none :=
    hcur ▸ ho.linked.threads_ne_none List.mem_cons_self
  have hq := join_quiet h
  obtain ⟨cur, -, rfl | ⟨c, -, -, -, rfl⟩⟩ := join_cases h
  · have hu := hq.untouched ho hQ hs hS fun _ _ => rfl
    exact reply_userMachine (by rw [hcall]; decide) hu
      (localOf_running hcur.symm hthreads rfl) hP'
  · have hu := hq.untouched ho hQ hs hS fun _ _ => rfl
    rw [hu.userMachine (localOf_running hcur.symm hthreads rfl), Option.some.injEq] at hP'
    rw [← hP', hcall]
    exact Does.refl _ _

theorem fork_userMachine {P' : UserMachine} (hcall : (e.registers 2).toNat = 9) (h : e.fork env = .ok k')
    (hP' : k'.userMachine q = some P') :
    Does 1 ⟨(Machine.mk e.registers e.mainMemory S.pageTable S.numPages).flat, some (e.registers 2).toNat⟩ P' := by
  have hkeeps := fork_keeps h (ho.linked.lt_nextId (ho.linked.threads_ne_none List.mem_cons_self))
  have hu := fork_untouched ho hQ hs hS h
  obtain ⟨T, -, hT⟩ := hkeeps.current
  have hlocal := localOf_current (k := k') (hkeeps.rest.1 ▸ hT)
  rw [hkeeps.rest.1, ← hcur] at hlocal
  rcases fork_processes h with ⟨-, -, hc, cur, r, -, hregs, rfl⟩ | ⟨cur, S', r, i, -, -, -, -, -, hc, -⟩
  · rw [hc, hregs] at hlocal
    exact reply_userMachine (by rw [hcall]; decide) hu hlocal hP'
  · -- the registers of the child are in the machine, those of the parent in its thread
    rw [hc] at hlocal
    rw [hu.userMachine hlocal, Option.some.injEq] at hP'
    rw [← hP', hcall]
    exact Does.refl _ _

theorem kill_userMachine {P' : UserMachine} (hcall : (e.registers 2).toNat = 11) (h : e.kill = .ok k')
    (hP' : k'.userMachine q = some P') :
    Does 1 ⟨(Machine.mk e.registers e.mainMemory S.pageTable S.numPages).flat, some (e.registers 2).toNat⟩ P' := by
  have hthreads : e.threads Q.processThread ≠ none :=
    hcur ▸ ho.linked.threads_ne_none List.mem_cons_self
  have hin : (e.registers 2).toNat ∈ [2, 3, 9, 11] := by
    rw [hcall]
    decide
  obtain ⟨cur, hpr, rfl | ⟨-, he⟩ | ⟨p, pcb, T, s', S', k₁, hg, hne, hP, hT, hs', -, htear, rfl⟩⟩ := kill_cases h
  · have hu : Untouched e (e.sysReturn (-1)) q Q s S :=
      (Quiet.of_registers _ _ _ _).untouched ho hQ hs hS fun _ _ => rfl
    exact reply_userMachine hin hu (localOf_running hcur.symm hthreads rfl) hP'
  · rw [userMachine_eq_none (exit_removes ho hQ hcur he)] at hP'
    cases hP'
  · have hth := ho.kill_ne hpr hg hne hP
    have hqp : q ≠ p := by
      rintro rfl
      rw [hQ, Option.some.injEq] at hP
      exact hth (hP ▸ hcur)
    have hrest : k₁.threads = e.threads ∧ k₁.currentThread = e.currentThread ∧ k₁.registers = e.registers := by
      obtain ⟨i, b, pcbs', -, -, -, -, rfl⟩ := tearDown_spec hP htear
      exact ⟨rfl, rfl, rfl⟩
    obtain ⟨hths, hc, hregs⟩ := hrest
    generalize hk : sysReturn _ 0 = k' at hP'
    have hspaceOf : k'.spaceOf Q.processThread = e.spaceOf Q.processThread := by
      rw [← hk, Kernel.spaceOf, Kernel.spaceOf, ← hths]
      rfl
    have hlocal : k'.localOf Q.processThread = some ((e.registers.write 2 0).update, .user) := by
      subst hk
      rw [← hregs]
      exact localOf_running (hc.trans hcur.symm) (fun hnone => hthreads (hths ▸ hnone)) rfl
    have hu : Untouched e k' q Q s S :=
      tearDown_untouched ho hQ hs hS hP (by rw [Kernel.spaceOf, hT]; exact hs') hqp htear
        (by rw [← hk]; rfl) (by rw [← hk]; rfl) (by rw [← hk]; rfl) hspaceOf
    exact reply_userMachine hin hu hlocal hP'

/-- What a system call does to the machine of the process that makes it. -/
theorem syscall_userMachine {P' : UserMachine} (h : e.syscall env = .ok k') (hP' : k'.userMachine q = some P') :
    Does 1 ⟨(Machine.mk e.registers e.mainMemory S.pageTable S.numPages).flat, some (e.registers 2).toNat⟩ P' := by
  rcases syscall_cases h with ⟨-, h⟩ | ⟨hcall, h⟩ | ⟨hcall, h⟩ | ⟨hcall, rfl⟩ | ⟨hcall, h⟩ | ⟨hcall, h⟩ |
    ⟨hcall, h⟩
  · rw [userMachine_eq_none (exit_removes ho hQ hcur h)] at hP'
    cases hP'
  · exact exec_userMachine ho hQ hcur hs hS hcall h hP'
  · exact join_userMachine ho hQ hcur hs hS hcall h hP'
  · have hu : Untouched e { e with control := .tick .user } q Q s S :=
      (Quiet.of_registers _ _ _ _).untouched ho hQ hs hS fun _ _ => rfl
    have hthreads := ho.linked.threads_ne_none List.mem_cons_self
    rw [hu.userMachine (localOf_running hcur.symm (hcur ▸ hthreads) rfl), Option.some.injEq] at hP'
    rw [← hP']
    exact Does.one .ignore (if_pos hcall)
  · exact fork_userMachine ho hQ hcur hs hS hcall h hP'
  · have hu := (yield_quiet h).untouched ho hQ hs hS fun _ _ => by rw [yield_memory h]
    have hlocal := yield_localOf ho.linked rfl h
    rw [hu.userMachine (hcur ▸ hlocal), Option.some.injEq] at hP'
    rw [← hP', hcall]
    exact Does.refl _ _
  · exact kill_userMachine ho hQ hcur hs hS hcall h hP'

end

/-! ## User instructions -/

/-- The pages of an address space are in different frames. -/
theorem fits (ho : Owning k) {S : AddrSpace} (hS : k.spaces s = some S) (r : Registers) (memory : Bytes) :
    (Machine.mk r memory S.pageTable S.numPages).Fits := by
  refine ⟨⟨ho.frames.length s S hS, fun e he _ => ?_, fun i j e e' hi hj _ _ heq => ?_⟩, ?_⟩
  · exact ho.frames.mem_lt hS (List.mem_map_of_mem he)
  · have hnodup := ho.frames.owned.nodup s
    rw [framesOf_eq hS] at hnodup
    have hlt : i < (frames S.pageTable).length := by
      rw [frames, List.length_map]
      exact (List.getElem?_eq_some_iff.mp hi).1
    have hget : (frames S.pageTable)[i]? = (frames S.pageTable)[j]? := by
      unfold frames
      rw [List.getElem?_map, List.getElem?_map, hi, hj, Option.map_some, Option.map_some, heq]
    exact List.getElem?_inj hlt hnodup |>.mp hget
  · exact (Nat.le_add_right _ _).trans (ho.frames.numPages_le hS)

/-- A user instruction is done, or it is a system call. -/
theorem userInstruction_cases {S : AddrSpace} (hpt : k.pageTable = some s) (hS : k.spaces s = some S)
    (h : k.userInstruction env = .ok k') :
    (∃ m, (k.machine S).oneInstruction = .ok m ∧ k' = { k.setMachine s S m with control := .tick .user }) ∨
    ∃ badVAddr m r, (k.machine S).oneInstruction = .error (.exception .syscall badVAddr m) ∧
      (m.registers.write badVAddrReg badVAddr).delayedLoad 0 0 = .ok r ∧
      Kernel.syscall env { k.setMachine s S m with registers := r } = .ok k' := by
  unfold userInstruction at h
  obtain ⟨_, -, h⟩ := bind_eq_ok.mp h
  rw [hpt, deref_some, ok_bind, hS, deref_some, ok_bind] at h
  split at h
  next m hm =>
    cases h
    exact .inl ⟨m, hm, rfl⟩
  next which badVAddr m hm =>
    obtain ⟨r, hr, h⟩ := bind_eq_ok.mp h
    split at h
    next => exact .inr ⟨badVAddr, m, r, hm, hr, h⟩
    next => cases h
  next => cases h

theorem userInstruction_userMachine {S : AddrSpace} (ho : Owning k) (hQ : k.pcbs q = some Q)
    (hcur : Q.processThread = k.currentThread) (hs : k.spaceOf Q.processThread = some s)
    (hS : k.spaces s = some S) (hown : OwnTable k) {P' : UserMachine}
    (h : k.userInstruction env = .ok k') (hP' : k'.userMachine q = some P') :
    Does 2 ⟨(k.machine S).flat, none⟩ P' := by
  obtain ⟨s₁, S₁, hs₁, hS₁, hpt, hsize⟩ := hown
  rw [← hcur, hs, Option.some.injEq] at hs₁
  subst hs₁
  rw [hS, Option.some.injEq] at hS₁
  subst hS₁
  have hthreads : k.threads Q.processThread ≠ none := hcur ▸ ho.linked.threads_ne_none List.mem_cons_self
  have hfits : (k.machine S).Fits := by
    have := fits ho hS k.registers k.mainMemory
    rwa [← hsize] at this
  have halike := oneInstruction_alike (flatOf_flat (k.machine S)) hfits
  have hkeeps := (k.machine S).oneInstruction_sameMapping
  rcases userInstruction_cases hpt hS h with ⟨m, hm, rfl⟩ | ⟨badVAddr, m, r, hm, hr, h⟩
  · -- the instruction of the flat machine
    have hsame := hkeeps.ok m hm
    rw [hm] at halike
    cases hf : (k.machine S).flat.oneInstruction with
    | error fault =>
      rw [hf] at halike
      exact halike.elim
    | ok f =>
      rw [hf] at halike
      have hflat : f.flat = m.flat := FlatOf.flat_eq halike (hfits.of_sameMapping hsame)
      have hlocal : ({ k.setMachine s S m with control := .tick .user } : Kernel).localOf Q.processThread =
          some (m.registers, .user) := localOf_running hcur.symm hthreads rfl
      have hspace : ({ k.setMachine s S m with control := .tick .user } : Kernel).spaces s =
          some { S with pageTable := m.pageTable } := Function.update_self _ _ _
      rw [userMachine_eq (k := { k.setMachine s S m with control := .tick .user }) hQ hs hspace hlocal] at hP'
      have hm' : Machine.mk m.registers m.mainMemory m.pageTable S.numPages = m := by
        rw [← hsize, ← show m.pageTableSize = k.pageTableSize from hsame.size]
      rw [← Option.some.inj hP']
      refine Does.one .instruction ?_
      show (match (k.machine S).flat.oneInstruction with | .ok m => _ | .error _ => _) = _
      rw [hf]
      show some (UserMachine.mk f.flat none) = some ⟨(Machine.mk m.registers m.mainMemory m.pageTable S.numPages).flat, none⟩
      rw [hm', hflat]
  · have hsame := (hkeeps.exception _ _ _ hm).1
    rw [hm] at halike
    cases hf : (k.machine S).flat.oneInstruction with
    | ok f =>
      rw [hf] at halike
      exact halike.elim
    | error fault =>
      rw [hf] at halike
      cases fault with
      | stop s' => exact halike.elim
      | exception which' badVAddr' f =>
        obtain ⟨rfl, rfl, hff⟩ := halike
        have hflat : f.flat = m.flat := hff.flat_eq (hfits.of_sameMapping hsame)
        have hu := setMachine_userRun hpt hS hsame r k.control
        have htrap : Does 1 ⟨(k.machine S).flat, none⟩
            ⟨(Machine.mk r m.mainMemory m.pageTable S.numPages).flat, some (r 2).toNat⟩ := by
          refine Does.one .trap ?_
          show (match (k.machine S).flat.oneInstruction with | .error (.exception .syscall _ _) => _ | _ => _) = _
          rw [hf]
          show (match (f.registers.write badVAddrReg badVAddr').delayedLoad 0 0 with | .ok r => _ | .error _ => _) = _
          rw [hff.registers, hr]
          show some (UserMachine.mk { f.flat with registers := r } _) = _
          rw [hflat, ← hsize, ← show m.pageTableSize = k.pageTableSize from hsame.size]
          rfl
        exact htrap.trans (syscall_userMachine (e := { k.setMachine s S m with registers := r })
          (S := { S with pageTable := m.pageTable }) (hu.quiet.owning ho) hQ hcur hs
          (Function.update_self _ _ _) h hP')

/-- A step of the process itself. Its registers must not be in its `Thread` when another
one is dispatched. -/
theorem step_own (ho : Owning k) (hm : Mapped k) {P P' : UserMachine} (hQ : k.pcbs q = some Q)
    (hcur : Q.processThread = k.currentThread)
    (hcalm : ∀ p, k.control = .tick p → p.saved = true → ¬ Switches env k)
    (h : Kernel.step env k = .ok k') (hP : k.userMachine q = some P) (hP' : k'.userMachine q = some P') :
    Does 2 P P' := by
  obtain ⟨Q₀, s, S, r, p, hQ₀, hs, hS, hl, rfl⟩ := userMachine_cases hP
  obtain rfl := Option.some.inj (hQ.symm.trans hQ₀)
  unfold Kernel.step at h
  cases hc : k.control with
  | tick p' =>
    rw [hc] at h
    exact (tick_userMachine ho hQ hcur hs hS hl hc (hcalm p' hc) h hP').mono (by decide)
  | run p' =>
    rw [hc] at h
    by_cases hp' : p' = .user
    · subst hp'
      have hown : OwnTable k := hm (by rw [hc]; exact Control.noConfusion) (by rw [hc]; simp)
      have hlocal := localOf_running hcur.symm (hcur ▸ ho.linked.threads_ne_none List.mem_cons_self)
        (show k.control.point.saved = false by rw [hc]; rfl)
      rw [hl, hc] at hlocal
      cases hlocal
      obtain ⟨s₁, S₁, hs₁, hS₁, hpt, hsize⟩ := id hown
      rw [← hcur, hs, Option.some.injEq] at hs₁
      subst hs₁
      rw [hS, Option.some.injEq] at hS₁
      subst hS₁
      have hdoes := userInstruction_userMachine ho hQ hcur hs hS hown h hP'
      rwa [Kernel.machine, hsize] at hdoes
    · exact (runPoint_userMachine ho hQ hcur hs hS hl hp' hc h hP').mono (by decide)

/-! ## Runs -/

/-- The process runs. -/
def Running (k : Kernel) (q : Nat) : Prop := (k.pcbs q).map PCB.processThread = some k.currentThread

instance (k : Kernel) (q : Nat) : Decidable (Running k q) := inferInstanceAs (Decidable (_ = _))

/-- The step neither switches from the process while its registers are in its `Thread` and the
machine has others, nor executes, for another process, a file that is not confined. -/
structure SparesMachine (q : Nat) (env : Env) (k : Kernel) : Prop where
  own : Running k q → ∀ p, k.control = .tick p → p.saved = true → ¬ Switches env k
  other : ¬ Running k q → ∀ e, k.syscallEntry = some e → (e.registers 2).toNat = 2 → ExecConfined env e

/-- Without a timer interrupt at these points, and without `Exec`. -/
theorem SparesMachine.of_calm (htimer : k.control.point.saved = true → env.timer = false)
    (hexec : k.syscallEntry.all (fun e => (e.registers 2).toNat ≠ 2) = true) : SparesMachine q env k where
  own _ p hc hp hsw := by
    have hno := htimer (by rw [hc]; exact hp)
    rw [hsw.1] at hno
    cases hno
  other _ e he hcode := by
    rw [he, Option.all_some, hcode] at hexec
    exact absurd hexec (by decide)

/-- Every process has a machine. -/
theorem exists_userMachine (ho : Owning k) (hQ : k.pcbs q = some Q) : ∃ P, k.userMachine q = some P := by
  obtain ⟨s, S, hs, hS, -⟩ := ho.linked.link q Q hQ
  obtain ⟨T, hT⟩ := Option.ne_none_iff_exists'.mp
    (ho.linked.threads_ne_none ((ho.linked.runnable _).mpr ⟨q, Q, hQ, rfl⟩))
  obtain ⟨⟨r, p⟩, hl⟩ : ∃ rp, k.localOf Q.processThread = some rp := by
    rw [localOf, hT]
    exact ⟨_, rfl⟩
  exact ⟨_, userMachine_eq hQ hs hS hl⟩

/-- A process that is there no more has ended. -/
theorem ended_of_step (ho : Owning k) (h : Kernel.step env k = .ok k') (hQ : k.pcbs q = some Q)
    (hnone : k'.pcbs q = none) : Ended k' q := by
  have hends : ∀ p P st, Ends k k' p P st → Ended k' q := by
    intro p P st hE
    by_cases hqp : q = p
    · exact hqp ▸ hE.ended ho.tree
    · rw [hE.pcbs, if_neg hqp, hQ] at hnone
      cases hnone
  rcases step_processes ho h with ⟨hpcbs, -⟩ | ⟨_, _, _, -, -, -, -, -, -, -, hkeeps⟩ | ⟨_, _, -, -, -, -, hE⟩ |
    ⟨_, _, -, -, hE⟩
  · rw [hpcbs, hQ] at hnone
    cases hnone
  · obtain ⟨cs, _, hsome⟩ := hkeeps q Q hQ
    rw [hsome] at hnone
    cases hnone
  · exact hends _ _ _ hE
  · exact hends _ _ _ hE

theorem step_userMachine (ho : Owning k) (hm : Mapped k) {P : UserMachine} (hspares : SparesMachine q env k)
    (h : Kernel.step env k = .ok k') (hP : k.userMachine q = some P) :
    Ended k' q ∨ ∃ P' es, k'.userMachine q = some P' ∧ es.length ≤ 2 * (decide (Running k q)).toNat ∧
      Framework.run UserMachine.step es P = some P' := by
  obtain ⟨Q, s, S, r, p, hQ, hs, hS, -, -⟩ := userMachine_cases hP
  cases hQ' : k'.pcbs q with
  | none => exact .inl (ended_of_step ho h hQ hQ')
  | some Q' =>
    obtain ⟨P', hP'⟩ := exists_userMachine (ho.step h) hQ'
    refine .inr ?_
    by_cases hcur : Q.processThread = k.currentThread
    · have hrun : Running k q := by rw [Running, hQ, Option.map_some, hcur]
      obtain ⟨es, hlen, hes⟩ := step_own ho hm hQ hcur (hspares.own hrun) h hP hP'
      rw [decide_eq_true hrun]
      exact ⟨P', es, hP', hlen, hes⟩
    · have hrun : ¬ Running k q := by
        rw [Running, hQ, Option.map_some, Option.some.injEq]
        exact hcur
      have hsame := step_other ho hm hQ hcur (hspares.other hrun) h hP hP'
      exact ⟨P', [], hP', Nat.zero_le _, congrArg some hsame.symm⟩

/-- Along a run the machine of a process goes on by itself: by two events at most in every step
that the process makes, and by none in the steps of others. -/
theorem runs_userMachine {b : Boot} {envs envs' : List Env} (hruns : runs b envs = some k)
    (h : runFrom k envs' = some k') (hspares : Throughout (SparesMachine q) k envs')
    (hq : k.pcbs q ≠ none) (hq' : k'.pcbs q ≠ none) :
    ∃ P P' es, k.userMachine q = some P ∧ k'.userMachine q = some P' ∧
      es.length ≤ 2 * countAlong (fun env k => (Kernel.step env k).toOption) (fun _ k => Running k q) envs' k ∧
      Framework.run UserMachine.step es P = some P' := by
  obtain ⟨Q, hQ⟩ := Option.ne_none_iff_exists'.mp hq
  obtain ⟨P, hP⟩ := exists_userMachine (.run hruns) hQ
  have hI : ∀ (env : Env) (k k' : Kernel), Owning k ∧ Mapped k → (Kernel.step env k).toOption = some k' →
      Owning k' ∧ Mapped k' := fun _ _ _ hk hs =>
    ⟨hk.1.step (toOption_eq_some.mp hs), hk.2.step hk.1 (toOption_eq_some.mp hs)⟩
  have hended : ∀ (env : Env) (k k' : Kernel), Owning k ∧ Mapped k → Ended k q →
      (Kernel.step env k).toOption = some k' → Ended k' q :=
    fun _ _ _ hk hend hs => hend.step hk.1 (toOption_eq_some.mp hs)
  have hstep : ∀ (env : Env) (k k' : Kernel) (P : UserMachine), Owning k ∧ Mapped k → SparesMachine q env k →
      (Kernel.step env k).toOption = some k' → k.userMachine q = some P →
      Ended k' q ∨ ∃ P' es, k'.userMachine q = some P' ∧ es.length ≤ 2 * (decide (Running k q)).toNat ∧
        Framework.run UserMachine.step es P = some P' :=
    fun _ _ _ _ hk hG hs hP => step_userMachine hk.1 hk.2 hG (toOption_eq_some.mp hs) hP
  rcases run_component hI hended hstep ⟨.run hruns, .run hruns⟩ hspares h hP with
    hend | ⟨P', es, hP', hlen, hes⟩
  · exact absurd hend.2 hq'
  · exact ⟨P, P', es, hP, hP', hlen, hes⟩

/-- The first process forks; a timer interrupt lets its child run, which goes back to address 0,
and another one ends its turn. -/
theorem runs_userMachine_fork :
    let code : List (BitVec 32) := [0x24020009, 0x0000000c]
    let envs := [false, false, false, false, false, true, false, false, false, true, false, false].map
      (plainEnv code)
    ∃ k k' P P' es, runs (plainBoot code) [] = some k ∧ runFrom k envs = some k' ∧ k.userMachine 1 = some P ∧
      k'.userMachine 1 = some P' ∧
      es.length ≤ 2 * countAlong (fun env k => (Kernel.step env k).toOption) (fun _ k => Running k 1) envs k ∧
      Framework.run UserMachine.step es P = some P' := by
  intro code envs
  have heval : (runs (plainBoot code) []).any (fun k => (k.pcbs 1).isSome ∧
      Along (fun env k => (Kernel.step env k).toOption) (fun env k =>
        (k.control.point.saved = true → env.timer = false) ∧
          k.syscallEntry.all fun e => (e.registers 2).toNat ≠ 2) envs k ∧
      (runFrom k envs).any fun k' => (k'.pcbs 1).isSome) = true := by
    decide +kernel
  obtain ⟨k, hk, heval⟩ := (Option.any_eq_true _ _).mp heval
  obtain ⟨hq, hcalm, heval⟩ := of_decide_eq_true heval
  obtain ⟨k', hk', hq'⟩ := (Option.any_eq_true _ _).mp heval
  have hspares : Throughout (SparesMachine 1) k envs := hcalm.mono fun env k h => .of_calm h.1 h.2
  obtain ⟨P, P', es, hrun⟩ := runs_userMachine hk hk' hspares (Option.isSome_iff_ne_none.mp hq)
    (Option.isSome_iff_ne_none.mp hq')
  exact ⟨k, k', P, P', es, hk, hk', hrun⟩

end Kernel

end Nachos
