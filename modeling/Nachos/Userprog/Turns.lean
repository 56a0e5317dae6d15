import Nachos.Framework.Waiting
import Nachos.Userprog.Join

/-!
# Turns of the processes (userprog, threads/scheduler.cc)

A process that is ready waits on the ready list of the scheduler. Whatever the others do
meanwhile, the timer brings it to the front.

* `ReadyStep`: what a step does to the ready list, `step_ready`; a tick with a timer
  interrupt moves everyone up;
* `timer_turns`: the process is dispatched, or killed, before there are more timer
  interrupts than threads before it on the list.
-/

namespace Nachos.Kernel

open Nachos.Framework

variable {env : Env} {k k' : Kernel} {t cur : Nat} {l l' : List Nat}

/-! ## The ready list -/

/-- What a step does to the ready list, when the thread `cur` runs. -/
inductive ReadyStep (l : List Nat) (cur : Nat) : List Nat → Prop
  | same : ReadyStep l cur l
  /-- `Thread::Yield`. -/
  | rotate (n : Nat) (rest : List Nat) : l = n :: rest → ReadyStep l cur (rest ++ [cur])
  /-- `Thread::Finish`. -/
  | next (n : Nat) (rest : List Nat) : l = n :: rest → ReadyStep l cur rest
  /-- `Thread::Fork`. -/
  | add (x : Nat) : ReadyStep l cur (l ++ [x])
  /-- `Scheduler::Remove`. -/
  | remove (x : Nat) : ReadyStep l cur (l.erase x)

theorem yield_ready {p : Point} (h : k.yield p = .ok k') :
    (k.readyList = [] ∧ k'.readyList = []) ∨
    ∃ n rest, k.readyList = n :: rest ∧ k'.readyList = rest ++ [k.currentThread] := by
  rcases yield_spec h with ⟨hr, rfl⟩ | ⟨n, rest, T, hr, -, hd⟩
  · exact .inl ⟨hr, hr⟩
  · obtain ⟨r, pt, m, ths, d, c, rfl⟩ := hd.rest
    exact .inr ⟨n, rest, hr, rfl⟩

theorem yield_readyStep {p : Point} (h : k.yield p = .ok k') :
    ReadyStep k.readyList k.currentThread k'.readyList := by
  rcases yield_ready h with ⟨hr, hr'⟩ | ⟨n, rest, hr, hr'⟩
  · rw [hr', ← hr]
    exact .same
  · rw [hr']
    exact .rotate n rest hr

theorem exit_readyStep (h : k.exit = .ok k') : ReadyStep k.readyList k.currentThread k'.readyList := by
  obtain ⟨cur, k₁, n, rest, hcur, htear, hr, hd⟩ := exit_cases h
  obtain ⟨i, b, pcbs', -, -, -, -, rfl⟩ := tearDown_spec (process_spec hcur).2.2.2.2 htear
  obtain ⟨r, pt, m, ths, d, c, rfl⟩ := hd.rest
  exact .next n rest hr

theorem syscall_readyStep (h : k.syscall env = .ok k') :
    ReadyStep k.readyList k.currentThread k'.readyList := by
  rcases syscall_cases h with ⟨-, h⟩ | ⟨-, h⟩ | ⟨-, h⟩ | ⟨-, rfl⟩ | ⟨-, h⟩ | ⟨-, h⟩ | ⟨-, h⟩
  · exact exit_readyStep h
  · obtain ⟨cur, S, r, -, -, ⟨-, rfl⟩ | ⟨vm, mem, -, rfl⟩⟩ := exec_cases h
    · exact .same
    · exact .same
  · obtain ⟨cur, -, rfl | ⟨c, -, -, -, rfl⟩⟩ := join_cases h
    · exact .same
    · exact .same
  · exact .same
  · rcases fork_processes h with ⟨-, hr, -⟩ | ⟨cur, S, r, i, -, -, -, -, hr, -⟩
    · rw [hr]
      exact .same
    · rw [hr]
      exact .add _
  · exact yield_readyStep h
  · obtain ⟨cur, -, rfl | ⟨-, he⟩ | ⟨p, pcb, T, s, S, k₁, -, -, hP, -, -, -, htear, rfl⟩⟩ := kill_cases h
    · exact .same
    · exact exit_readyStep he
    · obtain ⟨i, b, pcbs', -, -, -, -, rfl⟩ := tearDown_spec hP htear
      exact .remove _

/-- A timer interrupt in this step. -/
def timerTick (env : Env) (k : Kernel) : Bool :=
  env.timer && match k.control with
    | .tick _ => true
    | .run _ => false

/-- What a step does to the ready list. With a timer interrupt it is a `Yield`. -/
theorem step_ready (h : step env k = .ok k') :
    ReadyStep k.readyList k.currentThread k'.readyList ∧
      (timerTick env k = true → k.readyList = [] ∨
        ∃ n rest, k.readyList = n :: rest ∧ k'.readyList = rest ++ [k.currentThread]) := by
  have hrun : ∀ p, k.control = .run p → timerTick env k = false := by
    intro p hc
    rw [timerTick, hc, Bool.and_false]
  rcases step_cases h with ⟨p, hc, h⟩ | ⟨p, hp, hc, h⟩ | ⟨hc, -, hu⟩ | ⟨e, he, h⟩
  · unfold oneTick at h
    split at h
    next htimer =>
      obtain ⟨r, -, h⟩ := bind_eq_ok.mp h
      refine ⟨yield_readyStep (k := { k with registers := r }) h, fun _ => ?_⟩
      exact (yield_ready (k := { k with registers := r }) h).imp_left And.left
    next htimer =>
      cases h
      refine ⟨.same, fun hticks => absurd ?_ htimer⟩
      exact (Bool.and_eq_true_iff.mp hticks).1
  · refine ⟨?_, fun hticks => absurd hticks (by rw [hrun p hc]; decide)⟩
    cases p with
    | user => exact absurd rfl hp
    | yieldTail =>
      cases h
      exact .same
    | joinLoop pid c =>
      rcases joinLoop_cases h with ⟨x, -, hy⟩ | ⟨-, cur, -, rfl⟩
      · exact yield_readyStep hy
      · exact .same
    | forkTail pid =>
      obtain ⟨T, -, h⟩ := bind_eq_ok.mp h
      cases h
      exact .same
    | threadRoot =>
      obtain ⟨T, -, h⟩ := bind_eq_ok.mp h
      obtain ⟨s, -, h⟩ := bind_eq_ok.mp h
      obtain ⟨S, -, h⟩ := bind_eq_ok.mp h
      cases h
      exact .same
  · refine ⟨?_, fun hticks => absurd hticks (by rw [hrun _ hc]; decide)⟩
    obtain ⟨r, mem, spaces, c, rfl⟩ := hu.rest
    exact .same
  · obtain ⟨hc, -, hu, -⟩ := syscallEntry_spec he
    refine ⟨?_, fun hticks => absurd hticks (by rw [hrun _ hc]; decide)⟩
    have hready := syscall_readyStep h
    obtain ⟨r, mem, spaces, c, rfl⟩ := hu.rest
    exact hready

/-! ## Places on the list -/

theorem idxOf_rotate {n : Nat} {rest : List Nat} (hcur : t ≠ cur) (hn : t ≠ n) (ht : t ∈ rest ++ [cur]) :
    (rest ++ [cur]).idxOf t + 1 = (n :: rest).idxOf t := by
  have hin : t ∈ rest := by
    rcases List.mem_append.mp ht with hin | hin
    · exact hin
    · exact absurd (List.mem_singleton.mp hin) hcur
  rw [List.idxOf_append_of_mem hin, idxOf_tail hn]

/-- No step puts others before a thread that stays on the list. -/
theorem ReadyStep.idxOf_le (h : ReadyStep l cur l') (hnodup : (cur :: l).Nodup) (ht : t ∈ l) (ht' : t ∈ l') :
    l'.idxOf t ≤ l.idxOf t := by
  have hcur : t ≠ cur := fun heq => (List.nodup_cons.mp hnodup).1 (heq ▸ ht)
  have htail : ∀ n rest, l = n :: rest → t ∈ rest → t ≠ n := by
    rintro n rest rfl hin rfl
    exact (List.nodup_cons.mp (List.nodup_cons.mp hnodup).2).1 hin
  cases h with
  | same => exact Nat.le_refl _
  | rotate n rest hl =>
    have hin : t ∈ rest := by
      rcases List.mem_append.mp ht' with hin | hin
      · exact hin
      · exact absurd (List.mem_singleton.mp hin) hcur
    have := idxOf_rotate hcur (htail n rest hl hin) ht'
    rw [hl]
    omega
  | next n _ hl =>
    rw [hl, ← idxOf_tail (htail n l' hl ht')]
    exact Nat.le_succ _
  | add x => rw [List.idxOf_append_of_mem ht]
  | remove x =>
    have hx : t ≠ x := by
      rintro rfl
      exact List.Nodup.not_mem_erase (List.nodup_cons.mp hnodup).2 ht'
    exact idxOf_erase_le hx ht

/-- The thread comes a place forward with every timer interrupt. -/
theorem step_idxOf (hl : Linked k) (h : step env k = .ok k') (ht : t ∈ k.readyList) (ht' : t ∈ k'.readyList) :
    k'.readyList.idxOf t + (timerTick env k).toNat ≤ k.readyList.idxOf t := by
  obtain ⟨hready, hticks⟩ := step_ready h
  cases htimer : timerTick env k with
  | false => exact hready.idxOf_le hl.nodup ht ht'
  | true =>
    rcases hticks htimer with hnil | ⟨n, rest, hr, hr'⟩
    · rw [hnil] at ht
      exact absurd ht List.not_mem_nil
    · have hcur : t ≠ k.currentThread := hl.ne_current ht
      have hn : t ≠ n := by
        have hnodup := (List.nodup_cons.mp hl.nodup).2
        rintro rfl
        rw [hr] at hnodup
        rw [hr'] at ht'
        rcases List.mem_append.mp ht' with hin | hin
        · exact (List.nodup_cons.mp hnodup).1 hin
        · exact hcur (List.mem_singleton.mp hin)
      rw [hr'] at ht' ⊢
      rw [hr]
      exact Nat.le_of_eq (idxOf_rotate hcur hn ht')

/-! ## Runs -/

/-- A thread that is not ready any more runs or is gone. -/
theorem turn_of_step (ho : Owning k) (h : step env k = .ok k') (ht : t ∈ k.readyList) (ht' : t ∉ k'.readyList) :
    k'.currentThread = t ∨ Gone k' t := by
  obtain ⟨T, hT⟩ := Option.ne_none_iff_exists'.mp (ho.linked.threads_ne_none (List.mem_cons_of_mem _ ht))
  have hthread : k'.threads t ≠ none := by
    rw [(ho.linked.step_other h hT ht).thread]
    exact Option.some_ne_none T
  by_cases hcur : k'.currentThread = t
  · exact .inl hcur
  · refine .inr ⟨(ho.step h).linked.lt_nextId hthread, fun hin => ?_⟩
    rcases List.mem_cons.mp hin with heq | hin
    · exact hcur heq.symm
    · exact ht' hin

/-- A thread that is ready runs, or is killed, before there are more timer interrupts than
threads before it on the ready list. -/
theorem timer_turns {b : Boot} {envs envs' : List Env} (hruns : runs b envs = some k)
    (h : runFrom k envs' = some k') (ht : t ∈ k.readyList)
    (htimer : k.readyList.idxOf t < countAlong (fun env k => (step env k).toOption) timerTick envs' k) :
    ∃ n env u v, runFrom k (envs'.take n) = some u ∧ envs'[n]? = some env ∧ step env u = .ok v ∧
      (∀ m w, m ≤ n → runFrom k (envs'.take m) = some w → t ∈ w.readyList) ∧
      (v.currentThread = t ∨ Gone v t) := by
  have hrank : ∀ (env : Env) (k k' : Kernel), (step env k).toOption = some k' → Owning k ∧ t ∈ k.readyList →
      Owning k' ∧ t ∈ k'.readyList → k'.readyList.idxOf t + (timerTick env k).toNat ≤ k.readyList.idxOf t :=
    fun _ _ _ hs hw hw' => step_idxOf hw.1.linked (toOption_eq_some.mp hs) hw.2 hw'.2
  obtain ⟨n, env, u, v, hu, henv, hs, hends, hall⟩ := ends_of_lt hrank h ⟨.run hruns, ht⟩ htimer
  have hs := toOption_eq_some.mp hs
  obtain ⟨ho, hready⟩ := hall n u (Nat.le_refl n) hu
  refine ⟨n, env, u, v, hu, henv, hs, fun m w hm hw => (hall m w hm hw).2, ?_⟩
  exact turn_of_step ho hs hready fun hin => hends ⟨ho.step hs, hin⟩

/-- The first process forks, and its child is dispatched at the next timer interrupt. -/
theorem timer_turns_fork :
    let code : List (BitVec 32) := [0x24020009, 0x0000000c]
    let envs := [false, true].map (plainEnv code)
    ∃ k n env u v, runs (plainBoot code) ([false, false, false, false].map (plainEnv code)) = some k ∧
      k.readyList = [4] ∧ runFrom k (envs.take n) = some u ∧ envs[n]? = some env ∧ step env u = .ok v ∧
      (∀ m w, m ≤ n → runFrom k (envs.take m) = some w → 4 ∈ w.readyList) ∧
      (v.currentThread = 4 ∨ Gone v 4) := by
  intro code envs
  have heval : (runs (plainBoot code) ([false, false, false, false].map (plainEnv code))).any (fun k =>
      k.readyList = [4] ∧ (runFrom k envs).isSome ∧
        k.readyList.idxOf 4 < countAlong (fun env k => (step env k).toOption) timerTick envs k) = true := by
    decide +kernel
  obtain ⟨k, hk, heval⟩ := (Option.any_eq_true _ _).mp heval
  obtain ⟨hready, hrun, htimer⟩ := of_decide_eq_true heval
  obtain ⟨k', hk'⟩ := Option.isSome_iff_exists.mp hrun
  obtain ⟨n, env, u, v, hturn⟩ := timer_turns hk hk' (by rw [hready]; decide) htimer
  exact ⟨k, n, env, u, v, hk, hready, hturn⟩

end Nachos.Kernel
