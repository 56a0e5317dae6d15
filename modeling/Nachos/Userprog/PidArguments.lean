import Nachos.Userprog.Progress
import Nachos.Userprog.Resume

/-!
# The PIDs that `Kill` and `Join` are given (userprog/exception.cc, processmanager.cc)

A user program passes any 32-bit value. `join` turns away the negative ones;
both hand the rest to `ProcessManager::getProcess`, which asks `BitMap::Test`, and
that asserts that it is an index.

* `kill_validates`, `join_validates`: an index is handled as it should be, also in
  the loop of `join`;
* `pid_arguments_iff`: any other value is not, but for the negative ones of `Join`.
-/

namespace Nachos.Kernel

open Nachos.Framework

variable {env : Env} {k e k' : Kernel}

/-! ## What the calls are to do -/

/-- The step trips an assertion, or uses memory that is not there. The last element of the ready list,
which a `Kill` may have deleted, is none of what the calls are to check. -/
def Trips (env : Env) (k : Kernel) : Prop := ∃ s, step env k = .error s ∧ s ≠ .halt ∧ s ≠ .freed

/-- The call entered with `e` returns -1 and leaves the rest as it was. -/
structure ReturnsError (e k' : Kernel) : Prop where
  registers : k'.registers = (e.registers.write 2 (-1)).update
  pids : k'.pids = e.pids
  pcbTable : k'.pcbTable = e.pcbTable
  pcbs : k'.pcbs = e.pcbs
  virtMem : k'.virtMem = e.virtMem
  readyList : k'.readyList = e.readyList
  memory : k'.mainMemory = e.mainMemory

/-- A live process has the PID. -/
def IsPid (e : Kernel) (pid : Int) : Prop := ∃ p P, e.pcbs p = some P ∧ P.processID = pid

/-- A live child of the caller has it. -/
def IsChildPid (e : Kernel) (pid : Int) : Prop :=
  ∃ cur c C, e.process e.currentThread = .ok cur ∧ c ∈ cur.pcb.children ∧ e.pcbs c = some C ∧
    C.processID = pid

/-- `Kill`, called in `k` and entered with `e`, checks its argument. -/
def KillValidates (env : Env) (k e : Kernel) : Prop :=
  ¬ Trips env k ∧ (¬ IsPid e (e.registers 4).toInt → ∃ k', step env k = .ok k' ∧ ReturnsError e k')

/-- `Join` does; it ends when its loop does. -/
def JoinValidates (env : Env) (k e : Kernel) : Prop :=
  ¬ Trips env k ∧
    (∀ k₁ envs k₂ env' c, step env k = .ok k₁ → k₁.runFrom envs = some k₂ →
      k₂.currentThread = k.currentThread → k₂.control = .run (.joinLoop (e.registers 4).toInt c) →
      ¬ Trips env' k₂) ∧
    (¬ IsChildPid e (e.registers 4).toInt → ∃ k', step env k = .ok k' ∧ ReturnsError e k')

theorem sysReturn_error (e : Kernel) : ReturnsError e (e.sysReturn (-1)) :=
  ⟨rfl, rfl, rfl, rfl, rfl, rfl, rfl⟩

/-! ## The calls -/

theorem kill_isOk (ho : Owning e) (h₀ : 0 ≤ (e.registers 4).toInt)
    (h₁ : (e.registers 4).toInt < numPids) : e.kill = .error .halt ∨ ∃ k', e.kill = .ok k' := by
  obtain ⟨cur, hcur⟩ := ho.current_ok
  rw [kill, hcur, ok_bind]
  dsimp only
  rcases ho.getProcess_isOk h₀ h₁ with ⟨hg, -⟩ | ⟨p, P, hg, hP, hid⟩
  · rw [hg, ok_bind]
    exact .inr ⟨_, rfl⟩
  · rw [hg, ok_bind]
    dsimp only
    by_cases hself : (e.registers 4).toInt = cur.pcb.processID
    · rw [if_pos hself]
      exact ho.exit_isOk
    · obtain ⟨s, S, hs, hS, -⟩ := ho.linked.link p P hP
      obtain ⟨T, hT, hTs⟩ := Option.bind_eq_some_iff.mp hs
      obtain ⟨k₁, htear⟩ := ho.tearDown_isOk hP hS none
      rw [← hid] at hself ⊢
      rw [if_neg hself, hP, deref_some, ok_bind, hT, deref_some, ok_bind, hTs, deref_some, ok_bind, hS,
        deref_some, ok_bind, htear, ok_bind]
      exact .inr ⟨_, rfl⟩

theorem kill_refuses (ho : Owning e) (h₀ : 0 ≤ (e.registers 4).toInt)
    (h₁ : (e.registers 4).toInt < numPids) (hnone : ¬ IsPid e (e.registers 4).toInt) :
    e.kill = .ok (e.sysReturn (-1)) := by
  obtain ⟨cur, hcur⟩ := ho.current_ok
  rcases ho.getProcess_isOk h₀ h₁ with ⟨hg, -⟩ | ⟨p, P, -, hP, hid⟩
  · rw [kill, hcur, ok_bind]
    dsimp only
    rw [hg, ok_bind]
  · exact absurd ⟨p, P, hP, hid⟩ hnone

theorem kill_trips (ho : Owning e)
    (h : ¬ (0 ≤ (e.registers 4).toInt ∧ (e.registers 4).toInt < numPids)) :
    e.kill = .error .assertion := by
  obtain ⟨cur, hcur⟩ := ho.current_ok
  rw [kill, hcur, ok_bind]
  dsimp only
  rw [ho.getProcess_trips h]
  rfl

theorem join_refuses (ho : Owning e) (h₁ : (e.registers 4).toInt < numPids)
    (hnone : ¬ IsChildPid e (e.registers 4).toInt) : e.join = .ok (e.sysReturn (-1)) := by
  obtain ⟨cur, hcur⟩ := ho.current_ok
  rw [join, hcur, ok_bind]
  dsimp only
  by_cases hneg : (e.registers 4).toInt < 0
  · rw [if_pos hneg]
  · rw [if_neg hneg]
    rcases ho.getProcess_isOk (Int.not_lt.mp hneg) h₁ with ⟨hg, -⟩ | ⟨p, P, hg, hP, hid⟩
    · rw [hg, ok_bind]
    · rw [hg, ok_bind]
      dsimp only
      rw [if_neg fun hc => hnone ⟨cur, p, P, hcur, hc, hP, hid⟩]

theorem join_isOk (ho : Owning e) (h₁ : (e.registers 4).toInt < numPids) : ∃ k', e.join = .ok k' := by
  by_cases hchild : IsChildPid e (e.registers 4).toInt
  · obtain ⟨cur, c, C, hcur, hc, hC, hid⟩ := hchild
    rw [join, hcur, ok_bind]
    dsimp only
    split
    · exact ⟨_, rfl⟩
    · rw [← hid, ho.tree.getProcess_eq hC, ok_bind]
      dsimp only
      rw [if_pos hc]
      exact ⟨_, rfl⟩
  · exact ⟨_, join_refuses ho h₁ hchild⟩

theorem join_trips (ho : Owning e) (h : ¬ (e.registers 4).toInt < numPids) :
    e.join = .error .assertion := by
  have hpos : ¬ (e.registers 4).toInt < 0 := by
    unfold numPids at h
    omega
  obtain ⟨cur, hcur⟩ := ho.current_ok
  rw [join, hcur, ok_bind]
  dsimp only
  rw [if_neg hpos, ho.getProcess_trips fun hlt => h hlt.2]
  rfl

theorem Steady.runFrom {envs : List Env} (h : Steady k) (ho : Owning k)
    (hrun : k.runFrom envs = some k') : Owning k' ∧ Steady k' :=
  run_invariant (I := fun k => Owning k ∧ Steady k) (fun _ _ _ hk hs =>
    ⟨hk.1.step (toOption_eq_some.mp hs), hk.2.step hk.1 (toOption_eq_some.mp hs)⟩) ⟨ho, h⟩ hrun

/-- Once round the loop of `join`. -/
theorem joinLoop_isOk (ho : Owning k) (hs : Steady k) {pid : Int} {c : Nat}
    (hc : k.control = .run (.joinLoop pid c)) (env : Env) : ¬ Trips env k := by
  obtain ⟨h₀, h₁⟩ := hs.control _ (.inr hc)
  have hstep : step env k = k.joinLoop pid c := by
    rw [step, hc]
    rfl
  rintro ⟨s, herr, -, hne⟩
  rw [hstep, joinLoop] at herr
  rcases ho.getProcess_isOk h₀ h₁ with ⟨hg, -⟩ | ⟨p, P, hg, -, -⟩
  · obtain ⟨cur, hcur⟩ := ho.current_ok
    rw [hg, ok_bind] at herr
    dsimp only at herr
    rw [hcur, ok_bind] at herr
    cases herr
  · rw [hg, ok_bind] at herr
    dsimp only at herr
    by_cases hlast : k.YieldsToFreed
    · rw [yield_freed hlast] at herr
      cases herr
      exact hne rfl
    · obtain ⟨k', hy⟩ := hs.yield_isOk ho.linked hlast (.joinLoop pid c)
      rw [hy] at herr
      cases herr

/-! ## Which values they check -/

theorem not_trips_of_eq {x : Except Stop Kernel} (hstep : step env k = x)
    (hx : x = .error .halt ∨ ∃ k', x = .ok k') : ¬ Trips env k := by
  rintro ⟨s, herr, hne, -⟩
  rw [hstep] at herr
  rcases hx with hx | ⟨k', hx⟩ <;> rw [hx] at herr <;> cases herr
  exact hne rfl

theorem kill_validates (ho : Owning e) (hstep : step env k = e.kill)
    (h₀ : 0 ≤ (e.registers 4).toInt) (h₁ : (e.registers 4).toInt < numPids) : KillValidates env k e :=
  ⟨not_trips_of_eq hstep (kill_isOk ho h₀ h₁), fun hnone =>
    ⟨_, hstep.trans (kill_refuses ho h₀ h₁ hnone), sysReturn_error e⟩⟩

theorem join_validates {b : Boot} {envs : List Env} (hrun : runs b envs = some k) (ho : Owning e)
    (hstep : step env k = e.join) (h₁ : (e.registers 4).toInt < numPids) : JoinValidates env k e := by
  refine ⟨not_trips_of_eq hstep (.inr (join_isOk ho h₁)), fun k₁ envs' k₂ env' c hs hrun' _ hc => ?_,
    fun hnone => ⟨_, hstep.trans (join_refuses ho h₁ hnone), sysReturn_error e⟩⟩
  have hok : Owning k := .run hrun
  have hsteady : Steady k := .run hrun
  obtain ⟨hok₂, hsteady₂⟩ := (hsteady.step hok hs).runFrom (hok.step hs) hrun'
  exact joinLoop_isOk hok₂ hsteady₂ hc env'

/-- In every reachable state, `Kill` checks its argument exactly if it is an index of the process
table, and `Join` exactly if it is not beyond the end of it. -/
theorem pid_arguments_iff {b : Boot} {envs : List Env} (hrun : runs b envs = some k)
    (he : k.syscallEntry = some e) (env : Env) :
    ((e.registers 2).toNat = 11 → (KillValidates env k e ↔
      0 ≤ (e.registers 4).toInt ∧ (e.registers 4).toInt < numPids)) ∧
    ((e.registers 2).toNat = 3 → (JoinValidates env k e ↔ (e.registers 4).toInt < numPids)) := by
  have ho : Owning e := (syscallEntry_spec he).2.2.1.quiet.owning (.run hrun)
  refine ⟨fun hcode => ?_, fun hcode => ?_⟩
  · have hstep : step env k = e.kill := by
      rw [step_of_syscallEntry env he, syscall, hcode]
      rfl
    refine ⟨fun h => ?_, fun h => kill_validates ho hstep h.1 h.2⟩
    by_contra hout
    exact h.1 ⟨.assertion, hstep.trans (kill_trips ho hout), (by decide), by decide⟩
  · have hstep : step env k = e.join := by
      rw [step_of_syscallEntry env he, syscall, hcode]
      rfl
    refine ⟨fun h => ?_, fun h => join_validates hrun ho hstep h⟩
    by_contra hout
    exact h.1 ⟨.assertion, hstep.trans (join_trips ho hout), (by decide), by decide⟩

/-- `r2 := 11; r4 := pid; syscall`. -/
def killPid (pid : BitVec 16) : List (BitVec 32) :=
  [0x2402000b, 0x2404#16 ++ pid, 0x0000000c]

/-- The state in which the program calls `Kill`, and the entry. -/
def killEntry (pid : BitVec 16) : Option (Kernel × Kernel) :=
  (runs (plainBoot (killPid pid))
    ([false, false, false, false].map (plainEnv (killPid pid)))).bind fun k =>
      k.syscallEntry.map fun e => (k, e)

theorem killEntry_spec (pid : BitVec 16) (v : Int) (h : (killEntry pid).map (fun s =>
      ((s.2.registers 2).toNat, (s.2.registers 4).toInt)) = some (11, v)) :
    ∃ k e, runs (plainBoot (killPid pid))
        ([false, false, false, false].map (plainEnv (killPid pid))) = some k ∧
      k.syscallEntry = some e ∧ (e.registers 2).toNat = 11 ∧ (e.registers 4).toInt = v := by
  obtain ⟨⟨k, e⟩, he, hregs⟩ := Option.map_eq_some_iff.mp h
  obtain ⟨k', hk, he⟩ := Option.bind_eq_some_iff.mp he
  obtain ⟨e', he, heq⟩ := Option.map_eq_some_iff.mp he
  cases heq
  exact ⟨k, e, hk, he, (Prod.mk.inj hregs).1, (Prod.mk.inj hregs).2⟩

theorem kill_validates_five : ∃ k e,
    runs (plainBoot (killPid 5)) ([false, false, false, false].map (plainEnv (killPid 5))) = some k ∧
      k.syscallEntry = some e ∧ KillValidates (plainEnv (killPid 5) false) k e := by
  obtain ⟨k, e, hrun, he, hcode, harg⟩ := killEntry_spec 5 5 (by decide +kernel)
  refine ⟨k, e, hrun, he, ((pid_arguments_iff hrun he _).1 hcode).mpr ?_⟩
  rw [harg]
  decide

/-- `Kill(10)` trips the assertion. -/
theorem not_pid_arguments : ¬ ∀ b envs env k e, runs b envs = some k → k.syscallEntry = some e →
    ((e.registers 2).toNat = 11 → KillValidates env k e) ∧
      ((e.registers 2).toNat = 3 → JoinValidates env k e) := by
  intro hall
  obtain ⟨k, e, hrun, he, hcode, harg⟩ := killEntry_spec 10 10 (by decide +kernel)
  have ho : Owning e := (syscallEntry_spec he).2.2.1.quiet.owning (.run hrun)
  have hkill := (hall _ _ (plainEnv (killPid 10) false) k e hrun he).1 hcode
  refine hkill.1 ⟨.assertion, ?_, by decide, by decide⟩
  rw [step_of_syscallEntry _ he, syscall, hcode]
  exact kill_trips ho (by rw [harg]; decide)

end Nachos.Kernel
