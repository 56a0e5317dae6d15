import Nachos.Userprog.Resume

/-!
# `Exec` and `StartProcess`

Both load a program and set the registers for its first instruction. But the end
of the system call moves on the program counters of a program that has not
started yet.

* `registers_after_exec`: the registers at the first user instruction after a
  successful `Exec`;
* `exec_start_differ`: they are never those after `StartProcess`.
-/

namespace Nachos.Kernel

open Nachos.Framework

variable {env : Env} {k k' : Kernel}

/-- The file that `Exec` opens, if there is one under the name it reads. -/
def execFile (env : Env) (k : Kernel) : Except Stop (Option (List (BitVec 8))) := do
  let cur ← k.process k.currentThread
  let (name, _) ← readFileName cur.space.numPages k.mainMemory 128 (k.registers 4).toInt
    cur.space.pageTable
  .ok (env.files ((name ++ env.junkName).takeWhile (· ≠ 0)))

/-- In a run, the step in `env` is an `Exec` of `file` that succeeds, and `k'` the
state in which the process runs its first user instruction after it. -/
def FirstAfterExec (b : Boot) (envs : List Env) (env : Env) (envs' : List Env)
    (file : List (BitVec 8)) (k' : Kernel) : Prop :=
  ∃ k k₁ k₂, runs b envs = some k ∧ k.syscallEntry = some k₁ ∧ (k₁.registers 2).toNat = 2 ∧
    k₁.execFile env = .ok (some file) ∧ step env k = .ok k₂ ∧ k₂.registers 2 = 1 ∧
    Throughout (fun _ u => ¬ AtUser u k.currentThread) k₂ envs' ∧ k₂.runFrom envs' = some k' ∧
    AtUser k' k.currentThread

/-- `k` is the state in which the process made by `StartProcess` from `file` runs
its first user instruction. -/
def FirstAfterStart (b : Boot) (file : List (BitVec 8)) (k : Kernel) : Prop :=
  b.env.files b.filename = some file ∧ start b = some k

/-- What the current process sees. -/
def currentView (k : Kernel) : Option View :=
  (k.process k.currentThread).toOption.bind fun cur => k.viewOf cur.pcbId

/-- The two states are the same to the process, as they should be: it is at the
first instruction, with the stack at the end of its memory. Only `r2` may
differ. -/
structure StartsAlike (k k₀ : Kernel) : Prop where
  pc : k.registers pcReg = 0
  nextPC : k.registers nextPCReg = 4
  stack : ∃ v, k.currentView = some v ∧
    k.registers stackReg = BitVec.ofNat 32 (v.numPages * pageSize - 16)
  registers : ∀ i, i ≠ 2 → k.registers i = k₀.registers i
  memory : ∃ v v₀, k.currentView = some v ∧ k₀.currentView = some v₀ ∧ v.numPages = v₀.numPages ∧
    v.bytes = v₀.bytes

/-- The registers that a successful `Exec` leaves. -/
theorem exec_registers (h : k.exec env = .ok k') (hret : k'.registers 2 = 1) :
    k'.currentThread = k.currentThread ∧ k'.control = .tick .user ∧
      ∃ n, k'.registers = ((initRegisters n).write 2 1).update := by
  obtain ⟨cur, S, r, -, -, ⟨-, rfl⟩ | ⟨vm, mem, -, rfl⟩⟩ := exec_cases h
  · have h2 : ((k.registers.write 2 (-1)).update) 2 = 1 := hret
    have h2' : ((k.registers.write 2 (-1)).update) 2 = -1 := rfl
    rw [h2'] at h2
    exact absurd h2 (by decide)
  · exact ⟨rfl, rfl, S.numPages, rfl⟩

/-- They are those of the first user instruction after it: the program starts at
its second instruction. -/
theorem registers_after_exec {b : Boot} {envs envs' : List Env} {file : List (BitVec 8)}
    (h : FirstAfterExec b envs env envs' file k') :
    ∃ n, k'.registers = ((initRegisters n).write 2 1).update := by
  obtain ⟨k, k₁, k₂, hrun, he, hcode, -, hstep, hret, hfirst, hrun', huser⟩ := h
  have ho : Owning k := .run hrun
  have hexec : k₁.exec env = .ok k₂ := by
    have hsys := step_of_syscallEntry env he
    rw [hstep, syscall, hcode] at hsys
    exact hsys.symm
  obtain ⟨-, -, hu, -⟩ := syscallEntry_spec he
  have hcur : k₁.currentThread = k.currentThread := by
    obtain ⟨r, mem, spaces, c, rfl⟩ := hu.rest
    rfl
  obtain ⟨hcur₂, hc₂, n, hregs⟩ := exec_registers hexec hret
  rw [hcur] at hcur₂
  have hset : Settled k₂.registers := by
    rw [hregs]
    exact ((initRegisters_settled n).write 1 (by decide) (by decide) (by decide)).update
  have hpark : Parked k₂ k.currentThread .user k₂.registers := by
    refine ⟨.inl ⟨hcur₂, .inl hc₂⟩, ?_, hset⟩
    rw [← hcur₂, userState_current Point.noConfusion (.inl hc₂)]
  refine ⟨n, ?_⟩
  rw [← hregs]
  exact Parked.registers_of_atUser (hpark.run (ho.step hstep) hfirst hrun') huser

theorem pc_after_exec {b : Boot} {envs envs' : List Env} {file : List (BitVec 8)}
    (h : FirstAfterExec b envs env envs' file k') : k'.registers pcReg = 4 := by
  obtain ⟨n, hregs⟩ := registers_after_exec h
  rw [hregs]
  rfl

/-- No process ever starts after an `Exec` as `StartProcess` would have started
it. -/
theorem exec_start_differ {b b₀ : Boot} {envs envs' : List Env} {file : List (BitVec 8)}
    {k₀ : Kernel} (h : FirstAfterExec b envs env envs' file k')
    (_h₀ : FirstAfterStart b₀ file k₀) : ¬ StartsAlike k' k₀ := by
  intro halike
  have hpc := halike.pc
  rw [pc_after_exec h] at hpc
  exact absurd hpc (by decide)

/-! ## A program that executes itself -/

/-- `r2 := 2; syscall`, with `r4 = 0`. -/
def execSelf : List (BitVec 32) := [0x24020002, 0x0000000c]

theorem execSelf_start :
    ∃ k₀, FirstAfterStart (plainBoot execSelf) (noffImage execSelf) k₀ := by
  obtain ⟨k₀, hk₀⟩ := Option.isSome_iff_exists.mp
    (show (start (plainBoot execSelf)).isSome = true by decide +kernel)
  exact ⟨k₀, rfl, hk₀⟩

theorem execSelf_first : ∃ k', FirstAfterExec (plainBoot execSelf)
    ([false, false].map (plainEnv execSelf)) (plainEnv execSelf false)
    ([false].map (plainEnv execSelf)) (noffImage execSelf) k' := by
  let k := (runs (plainBoot execSelf) ([false, false].map (plainEnv execSelf))).get
    (by decide +kernel)
  let k₁ := k.syscallEntry.get (by decide +kernel)
  let k₂ := (step (plainEnv execSelf false) k).toOption.get (by decide +kernel)
  let k' := (k₂.runFrom ([false].map (plainEnv execSelf))).get (by decide +kernel)
  refine ⟨k', k, k₁, k₂, (Option.some_get _).symm, (Option.some_get _).symm, ?_, ?_, ?_, ?_, ?_,
    (Option.some_get _).symm, ?_⟩
  · decide +kernel
  · decide +kernel
  · exact toOption_eq_some.mp (Option.some_get _).symm
  · decide +kernel
  · exact of_decide_eq_true (p := Along _ _ _ _) (by decide +kernel)
  · decide +kernel

/-- After `Exec` it goes on at address 4. -/
theorem execSelf_starts_late :
    ¬ ∀ b envs env envs' b₀ file k' k₀, FirstAfterExec b envs env envs' file k' →
      FirstAfterStart b₀ file k₀ → StartsAlike k' k₀ := by
  intro hall
  obtain ⟨k', hk'⟩ := execSelf_first
  obtain ⟨k₀, hk₀⟩ := execSelf_start
  have hpc := (hall _ _ _ _ _ _ _ _ hk' hk₀).pc
  rw [pc_after_exec hk'] at hpc
  exact absurd hpc (by decide)

theorem exec_start_differ_execSelf :
    ∃ k' k₀, FirstAfterExec (plainBoot execSelf) ([false, false].map (plainEnv execSelf))
        (plainEnv execSelf false) ([false].map (plainEnv execSelf)) (noffImage execSelf) k' ∧
      FirstAfterStart (plainBoot execSelf) (noffImage execSelf) k₀ ∧ ¬ StartsAlike k' k₀ := by
  obtain ⟨k', hk'⟩ := execSelf_first
  obtain ⟨k₀, hk₀⟩ := execSelf_start
  exact ⟨k', k₀, hk', hk₀, exec_start_differ hk' hk₀⟩

end Nachos.Kernel
