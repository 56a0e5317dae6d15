import Nachos.Threads.LockCondition

/-!
# `SynchList` (threads/synchlist.cc)

Threads that call `SynchList::Append` and `SynchList::Remove` on one list, each
as its script says, in any interleaving. An item is a pointer other than
`NULL`; the list is the sequence that `List` represents.

* `Covered`: while a consumer sleeps on `listEmpty`, the items in the list are
  no more than the consumers that were signalled and have not tested `IsEmpty`
  again;
* `synchList_fifo`: no item is lost, duplicated or reordered.
-/

namespace Nachos.Threads

open Nachos.Framework

/-- A call of a method of `SynchList`. -/
inductive ListCall (α : Type)
  | append (item : α)
  | remove
deriving DecidableEq, Repr

/-- The data of `class SynchList`. `appended` and `removed` are not in the code: the items ever put
on the list and taken off it, in order. -/
structure SynchListMem (α : Type) where
  list : List α
  appended : List α
  removed : List α
deriving DecidableEq, Repr

namespace SynchList

/-- Where a thread is. -/
inductive Loc (α : Type)
  /-- The main thread, which forks a thread for each script. -/
  | main (scripts : List (List (ListCall α)))
  /-- Between two calls. -/
  | idle (calls : List (ListCall α))
  /-- `Append`, after `lock->Acquire()`. -/
  | append (item : α) (calls : List (ListCall α))
  /-- `Append`, after `listEmpty->Signal(lock)`. -/
  | signalled (calls : List (ListCall α))
  /-- `Remove`, after `lock->Acquire()`: the test of the loop. -/
  | test (calls : List (ListCall α))
  /-- `Remove`, after `listEmpty->Wait(lock)`: the test of the loop. -/
  | retest (calls : List (ListCall α))
deriving DecidableEq, Repr

variable {α : Type}

/-- The loop of `Remove` from its test, and what follows it up to `lock->Release()`; `none` when
`ASSERT(item != NULL)` fails. -/
def removeLoop (calls : List (ListCall α)) (m : SynchListMem α) :
    Option (SynchListMem α × Instr Empty Unit Unit (Loc α) × Loc α) :=
  if m.list.isEmpty then some (m, .wait () (), .retest calls)
  else match m.list with
  | [] => none
  | item :: rest =>
    some ({ m with list := rest, removed := m.removed ++ [item] }, .release (), .idle calls)

/-- The threads; the lock is `lock` and the condition `listEmpty`. -/
def program (α : Type) : Program Empty Unit Unit (SynchListMem α) (Loc α) Empty where
  code _ loc m := match loc with
    | .main [] => some (m, .finish, .main [])
    | .main (calls :: scripts) => some (m, .fork (.idle calls), .main scripts)
    | .idle [] => some (m, .finish, .idle [])
    | .idle (.append item :: calls) => some (m, .acquire (), .append item calls)
    | .idle (.remove :: calls) => some (m, .acquire (), .test calls)
    | .append item calls =>
      some ({ m with list := m.list ++ [item], appended := m.appended ++ [item] },
        .signal () (), .signalled calls)
    | .signalled calls => some (m, .release (), .idle calls)
    | .test calls => removeLoop calls m
    | .retest calls => removeLoop calls m
  handler e := e.elim

/-- A new list, and the main thread. -/
def start (scripts : List (List (ListCall α))) :
    Core Empty Unit Unit (SynchListMem α) (Loc α) :=
  .new (fun x => x.elim) ⟨[], [], []⟩ (.main scripts)

/-- A consumer that was signalled and has not tested `IsEmpty` again. -/
def isSignalled (s : Core Empty Unit Unit (SynchListMem α) (Loc α)) (t : ThreadId) : Bool :=
  match s.pc t with
  | .inWait _ _ _ => t ∉ (s.cond ()).queue
  | .inAcquire _ (.retest _) => true
  | .user (.retest _) => true
  | _ => false

variable {s u : Core Empty Unit Unit (SynchListMem α) (Loc α)} {t : ThreadId}

/-- The items in the list are no more than some consumers that were signalled. -/
def Covered (s : Core Empty Unit Unit (SynchListMem α) (Loc α)) : Prop :=
  (s.cond ()).queue ≠ [] → ∃ ts : List ThreadId, ts.Nodup ∧ (∀ t ∈ ts, isSignalled s t = true) ∧
    s.mem.list.length ≤ ts.length

/-- What the list keeps to. -/
structure Invariant (s : Core Empty Unit Unit (SynchListMem α) (Loc α)) : Prop where
  queued : s.Queued
  waits : ∀ t c k next, s.pc t = .inWait c k next → ∃ calls, next = .retest calls
  fifo : s.mem.appended = s.mem.removed ++ s.mem.list
  covered : Covered s

theorem isSignalled_congr (hpc : u.pc t = s.pc t)
    (hqueue : t ∈ (u.cond ()).queue ↔ t ∈ (s.cond ()).queue) :
    isSignalled u t = isSignalled s t := by
  simp only [isSignalled, hpc, hqueue]

theorem pc_ne_finished_of_isSignalled (h : isSignalled s t = true) : s.pc t ≠ .finished :=
  fun hpc => by simp [isSignalled, hpc] at h

/-- A step that leaves the list and the condition alone, and `t` signalled if it was. -/
theorem Covered.keep (h : Covered s) (hlist : u.mem.list = s.mem.list)
    (hcond : (u.cond ()).queue = (s.cond ()).queue)
    (hpc : ∀ t', t' ≠ t → s.pc t' ≠ .finished → u.pc t' = s.pc t')
    (ht : isSignalled s t = true → isSignalled u t = true) : Covered u := by
  intro hqueue
  obtain ⟨ts, hnodup, hts, hlen⟩ := h (hcond ▸ hqueue)
  refine ⟨ts, hnodup, fun t' ht' => ?_, hlist ▸ hlen⟩
  by_cases hne : t' = t
  · exact hne ▸ ht (hne ▸ hts t' ht')
  · rw [isSignalled_congr (hpc t' hne (pc_ne_finished_of_isSignalled (hts t' ht'))) (by rw [hcond])]
    exact hts t' ht'

/-- `Append`: an item more, and a consumer more that is signalled, if any sleeps. -/
theorem Covered.append {item : α} (hs : s.Queued) (h : Covered s)
    (hlist : u.mem.list = s.mem.list ++ [item])
    (hcond : (u.cond ()).queue = (s.cond ()).queue.tail)
    (hpc : ∀ t', t' ≠ t → s.pc t' ≠ .finished → u.pc t' = s.pc t') (hawake : s.asleep t = false)
    (ht : isSignalled s t = false) : Covered u := by
  intro hqueue
  obtain ⟨w, rest, hw⟩ : ∃ w rest, (s.cond ()).queue = w :: rest := by
    cases hq : (s.cond ()).queue with
    | nil => simp [hcond, hq] at hqueue
    | cons w rest => exact ⟨w, rest, rfl⟩
  have hcond : (u.cond ()).queue = rest := by rw [hcond, hw]; rfl
  have hnodup : (s.cond ()).queue.Nodup := hs.nodup (.cond ())
  obtain ⟨hwrest, -⟩ := List.nodup_cons.mp (hw ▸ hnodup)
  have hmem : w ∈ s.queue (.cond ()) := by simp [hw]
  have hwaits := hs.waits _ _ hmem
  obtain ⟨c, k, next, hin⟩ : ∃ c k next, s.pc w = .inWait c k next := by
    cases hpcw : s.pc w with
    | inWait c k next => exact ⟨c, k, next, rfl⟩
    | user _ => simp [hpcw, PC.waitsOn] at hwaits
    | inP _ _ => simp [hpcw, PC.waitsOn] at hwaits
    | inAcquire _ _ => simp [hpcw, PC.waitsOn] at hwaits
    | finished => simp [hpcw, PC.waitsOn] at hwaits
  obtain ⟨ts, hnodup, hts, hlen⟩ := h (by simp [hw])
  have hwts : w ∉ ts := fun hwt => by simpa [isSignalled, hin, hw] using hts w hwt
  refine ⟨w :: ts, List.nodup_cons.mpr ⟨hwts, hnodup⟩, fun t' ht' => ?_, by simpa [hlist] using hlen⟩
  obtain rfl | ht' := List.mem_cons.mp ht'
  · have hne : t' ≠ t := fun he => hs.not_mem hawake _ (he ▸ hmem)
    simp [isSignalled, (hpc t' hne (by simp [hin])).trans hin, hcond, hwrest]
  · have hne : t' ≠ t := fun he => by simp [← he, hts t' ht'] at ht
    have hnot : t' ≠ w := fun he => hwts (he ▸ ht')
    rw [isSignalled_congr (hpc t' hne (pc_ne_finished_of_isSignalled (hts t' ht')))
      (by simp [hcond, hw, hnot])]
    exact hts t' ht'

/-- `Remove`: an item less, and at most the consumer `t` less that is signalled. -/
theorem Covered.remove {item : α} (h : Covered s) (hlist : s.mem.list = item :: u.mem.list)
    (hcond : (u.cond ()).queue = (s.cond ()).queue)
    (hpc : ∀ t', t' ≠ t → s.pc t' ≠ .finished → u.pc t' = s.pc t') : Covered u := by
  intro hqueue
  obtain ⟨ts, hnodup, hts, hlen⟩ := h (hcond ▸ hqueue)
  refine ⟨ts.erase t, hnodup.erase t, fun t' ht' => ?_, ?_⟩
  · have hne : t' ≠ t := fun he => (hnodup.mem_erase_iff.mp ht').1 he
    have ht' := List.mem_of_mem_erase ht'
    rw [isSignalled_congr (hpc t' hne (pc_ne_finished_of_isSignalled (hts t' ht'))) (by rw [hcond])]
    exact hts t' ht'
  · rw [hlist, List.length_cons] at hlen
    have := List.le_length_erase (a := t) (l := ts)
    omega

/-! ## Runs -/

theorem removeLoop_eq (calls : List (ListCall α)) (m : SynchListMem α) :
    removeLoop calls m = match m.list with
      | [] => some (m, .wait () (), .retest calls)
      | item :: rest =>
        some ({ m with list := rest, removed := m.removed ++ [item] }, .release (), .idle calls) := by
  unfold removeLoop
  cases m.list <;> rfl

section Call

variable {i : Instr Empty Unit Unit (Loc α)} {m : SynchListMem α} {next : Loc α}

/-- A call keeps the invariant when it keeps what is in the list. -/
theorem Invariant.call (hs : Invariant s) (hbegins : Core.Begins (program α) t s i m next)
    (hawake : s.asleep t = false)
    (hwaits : ∀ c k next', (Core.call t i next { s with mem := m }).2.pc t = .inWait c k next' →
      ∃ calls, next' = .retest calls)
    (hfifo : m.appended = m.removed ++ m.list)
    (hcov : Covered (Core.call t i next { s with mem := m }).2) :
    Invariant (Core.call t i next { s with mem := m }).2 where
  queued := Core.call_queued (hs.queued.withMem m) hawake hbegins.pc_ne_finished
  waits t' c k next' hpc := by
    by_cases hne : t' = t
    · exact hwaits c k next' (hne ▸ hpc)
    · obtain hsame | ⟨start, -, -, hstart⟩ := Core.call_pc (hs.queued.withMem m) i next hne
      · exact hs.waits t' c k next' (hsame ▸ hpc)
      · simp [hstart] at hpc
  fifo := by rw [Core.call_mem]; exact hfifo
  covered := hcov

/-- A call that does not touch the list or the condition. -/
theorem Covered.call (hs : Invariant s)
    (hcond : (Core.call t i next { s with mem := m }).2.cond = s.cond) (hlist : m.list = s.mem.list)
    (ht : isSignalled s t = true →
      isSignalled (Core.call t i next { s with mem := m }).2 t = true) :
    Covered (Core.call t i next { s with mem := m }).2 :=
  hs.covered.keep (by rw [Core.call_mem]; exact hlist) (by rw [hcond])
    (fun _ hne hborn => Core.call_pc_of_ne (hs.queued.withMem m) i next hne hborn) ht

end Call

theorem Invariant.acquire {next : Loc α} {m : SynchListMem α} (hs : Invariant s)
    (hbegins : Core.Begins (program α) t s (.acquire ()) m next) (hm : m = s.mem)
    (hawake : s.asleep t = false) (ht : isSignalled s t = true → ∃ calls, next = .retest calls) :
    Invariant (Core.call t (.acquire ()) next { s with mem := m }).2 := by
  have hpc := Core.testAcquire_pc { s with mem := m } t () next
  refine hs.call hbegins hawake (fun c k next' h => ?_) (hm ▸ hs.fifo)
    (.call hs (Core.testAcquire_cond _ _ _ _) (by rw [hm]) fun h => ?_)
  · obtain hpc | hpc := hpc <;> simp [Core.call, hpc] at h
  · obtain ⟨calls, rfl⟩ := ht h
    obtain hpc | hpc := hpc <;> simp [isSignalled, Core.call, hpc]

/-- `Remove` from the test of its loop. -/
theorem Invariant.removeLoop {calls : List (ListCall α)} {i : Instr Empty Unit Unit (Loc α)}
    {m : SynchListMem α} {next : Loc α} (hs : Invariant s)
    (hbegins : Core.Begins (program α) t s i m next)
    (hcode : SynchList.removeLoop calls s.mem = some (m, i, next)) (hawake : s.asleep t = false) :
    Invariant (Core.call t i next { s with mem := m }).2 := by
  rw [removeLoop_eq] at hcode
  cases hlist : s.mem.list with
  | nil =>
    simp only [hlist, Option.some.injEq, Prod.mk.injEq] at hcode
    obtain ⟨rfl, rfl, rfl⟩ := hcode
    refine hs.call hbegins hawake (fun c k next' h => ?_) hs.fifo fun _ => ?_
    · simp only [Core.call, Core.setPC_pc, Function.update_self, PC.inWait.injEq] at h
      exact ⟨calls, h.2.2.symm⟩
    · exact ⟨[], List.nodup_nil, by simp, by simp [Core.call_mem, hlist]⟩
  | cons item rest =>
    simp only [hlist, Option.some.injEq, Prod.mk.injEq] at hcode
    obtain ⟨rfl, rfl, rfl⟩ := hcode
    refine hs.call hbegins hawake (fun c k next' h => ?_) ?_ ?_
    · simp [Core.call] at h
    · simp [hs.fifo, hlist]
    · exact hs.covered.remove (by rw [Core.call_mem]; exact hlist) rfl fun _ hne hborn =>
        Core.call_pc_of_ne (hs.queued.withMem _) _ _ hne hborn

theorem Invariant.step {e : Effect} (hs : Invariant s) (h : s.step (program α) t = some (e, u)) :
    Invariant u := by
  obtain ⟨hawake, i, m, next, hbegins, heq⟩ := Core.step_eq_some h
  rw [show u = (Core.call t i next { s with mem := m }).2 from congrArg Prod.snd heq]
  have hbegins' := hbegins
  cases hbegins with
  | @inP x _ _ => exact x.elim
  | inAcquire hpc =>
    refine hs.acquire hbegins' rfl hawake fun hsig => ?_
    cases next <;> simp [isSignalled, hpc] at hsig
    exact ⟨_, rfl⟩
  | inWait hpc => exact hs.acquire hbegins' rfl hawake fun _ => hs.waits t _ _ _ hpc
  | @user loc _ _ _ hpc hcode =>
    have hnot (hloc : ∀ calls, loc ≠ .retest calls) : isSignalled s t = false := by
      cases loc <;> simp_all [isSignalled]
    -- a call that leaves the list and the condition alone, outside the loop of `Remove`
    have hkeep (hloc : ∀ calls, loc ≠ .retest calls) (hm : m = s.mem)
        (hcond : (Core.call t i next { s with mem := m }).2.cond = s.cond)
        (hw : ∀ c k next', (Core.call t i next { s with mem := m }).2.pc t ≠ .inWait c k next') :
        Invariant (Core.call t i next { s with mem := m }).2 :=
      hs.call hbegins' hawake (fun c k next' h => absurd h (hw c k next')) (hm ▸ hs.fifo)
        (.call hs hcond (by rw [hm]) fun h => by simp [hnot hloc] at h)
    cases loc with
    | main scripts =>
      cases scripts with
      | nil =>
        simp only [program, Option.some.injEq, Prod.mk.injEq] at hcode
        obtain ⟨rfl, rfl, rfl⟩ := hcode
        exact hkeep (by simp) rfl rfl (by simp [Core.call])
      | cons calls scripts =>
        simp only [program, Option.some.injEq, Prod.mk.injEq] at hcode
        obtain ⟨rfl, rfl, rfl⟩ := hcode
        refine hkeep (by simp) rfl rfl ?_
        have hne : t ≠ s.numThreads := fun he =>
          hbegins'.pc_ne_finished (hs.queued.unborn t he.ge)
        simp [Core.call, hne]
    | idle calls =>
      cases calls with
      | nil =>
        simp only [program, Option.some.injEq, Prod.mk.injEq] at hcode
        obtain ⟨rfl, rfl, rfl⟩ := hcode
        exact hkeep (by simp) rfl rfl (by simp [Core.call])
      | cons call calls =>
        cases call with
        | append item =>
          simp only [program, Option.some.injEq, Prod.mk.injEq] at hcode
          obtain ⟨rfl, rfl, rfl⟩ := hcode
          exact hs.acquire hbegins' rfl hawake fun h => by simp [hnot] at h
        | remove =>
          simp only [program, Option.some.injEq, Prod.mk.injEq] at hcode
          obtain ⟨rfl, rfl, rfl⟩ := hcode
          exact hs.acquire hbegins' rfl hawake fun h => by simp [hnot] at h
    | append item calls =>
      simp only [program, Option.some.injEq, Prod.mk.injEq] at hcode
      obtain ⟨rfl, rfl, rfl⟩ := hcode
      refine hs.call hbegins' hawake (by simp [Core.call]) (by simp [hs.fifo]) ?_
      exact hs.covered.append hs.queued (by rw [Core.call_mem]) (by simp [Core.call, Condition.signal])
        (fun _ hne hborn => Core.call_pc_of_ne (hs.queued.withMem _) _ _ hne hborn) hawake
        (hnot (by simp))
    | signalled calls =>
      simp only [program, Option.some.injEq, Prod.mk.injEq] at hcode
      obtain ⟨rfl, rfl, rfl⟩ := hcode
      exact hkeep (by simp) rfl rfl (by simp [Core.call])
    | test calls => exact hs.removeLoop hbegins' hcode hawake
    | retest calls => exact hs.removeLoop hbegins' hcode hawake

theorem Invariant.next {v : Move Empty} (hs : Invariant s) (h : s.next (program α) v = some u) :
    Invariant u := by
  cases v with
  | thread t =>
    obtain ⟨⟨e, u'⟩, hstep, rfl⟩ := Option.map_eq_some_iff.mp h
    exact hs.step hstep
  | interrupt e => exact e.elim

theorem start_invariant (scripts : List (List (ListCall α))) : Invariant (start scripts) where
  queued := Core.new_queued _ _ _
  waits t c k next hpc := by
    by_cases ht : t = 0 <;> simp [start, Core.new, ht] at hpc
  fifo := rfl
  covered hqueue := absurd rfl hqueue

/-- The consumers that were signalled and have not tested `IsEmpty` again. -/
def signalled (s : Core Empty Unit Unit (SynchListMem α) (Loc α)) : List ThreadId :=
  (List.range s.numThreads).filter (isSignalled s ·)

theorem Invariant.length_le (hs : Invariant s) (hqueue : (s.cond ()).queue ≠ []) :
    s.mem.list.length ≤ (signalled s).length := by
  obtain ⟨ts, hnodup, hts, hlen⟩ := hs.covered hqueue
  refine hlen.trans (hnodup.subperm fun t ht => ?_).length_le
  refine List.mem_filter.mpr ⟨List.mem_range.mpr ?_, hts t ht⟩
  by_contra hle
  exact pc_ne_finished_of_isSignalled (hts t ht) (hs.queued.unborn t (Nat.not_lt.mp hle))

/-- In every interleaving of threads that call `Append` and `Remove`: the items removed are, in
order, a prefix of those appended, and the list holds the others; no assertion fails; and while a
consumer sleeps on `listEmpty`, the items in the list are no more than the consumers that were
signalled and have not tested `IsEmpty` again. -/
theorem synchList_fifo {scripts : List (List (ListCall α))} {ms : List (Move Empty)}
    (h : run (Core.next (program α)) ms (start scripts) = some s) :
    s.mem.removed <+: s.mem.appended ∧ s.mem.appended = s.mem.removed ++ s.mem.list ∧
    (∀ t loc, s.pc t = .user loc → ((program α).code t loc s.mem).isSome) ∧
    ((s.cond ()).queue ≠ [] → s.mem.list.length ≤ (signalled s).length) := by
  have hs : Invariant s :=
    run_invariant (fun _ _ _ hs hstep => hs.next hstep) (start_invariant scripts) h
  refine ⟨⟨_, hs.fifo.symm⟩, hs.fifo, fun t loc _ => ?_, hs.length_le⟩
  have hloop (calls : List (ListCall α)) : (SynchList.removeLoop calls s.mem).isSome := by
    rw [removeLoop_eq]
    cases s.mem.list <;> rfl
  cases loc with
  | main scripts => cases scripts <;> rfl
  | idle calls =>
    cases calls with
    | nil => rfl
    | cons call calls => cases call <;> rfl
  | append item calls => rfl
  | signalled calls => rfl
  | test calls => exact hloop calls
  | retest calls => exact hloop calls

/-- Two consumers sleep, a producer signals one of them, and a third consumer takes the item before
that one has the lock again. -/
theorem synchList_fifo_barging : ∃ s, run (Core.next (program Nat))
    ([0, 0, 0, 0, 1, 1, 2, 2, 3, 3, 4, 3, 4, 4, 1].map .thread)
    (start [[.remove], [.remove], [.append 5, .append 6], [.remove]]) = some s ∧
    s.mem.removed = [5] ∧ (s.cond ()).queue = [2] ∧ signalled s = [1] ∧
    s.mem.removed <+: s.mem.appended ∧ s.mem.list.length ≤ (signalled s).length := by
  have heval : ((run (Core.next (program Nat))
      ([0, 0, 0, 0, 1, 1, 2, 2, 3, 3, 4, 3, 4, 4, 1].map .thread)
      (start [[.remove], [.remove], [.append 5, .append 6], [.remove]])).any fun s =>
        s.mem.removed = [5] ∧ (s.cond ()).queue = [2] ∧ signalled s = [1]) = true := by
    decide +kernel
  obtain ⟨s, hs, hstate⟩ := (Option.any_eq_true _ _).mp heval
  obtain ⟨hremoved, hqueue, hsignalled⟩ := of_decide_eq_true hstate
  have hfifo := synchList_fifo hs
  exact ⟨s, hs, hremoved, hqueue, hsignalled, hfifo.1, hfifo.2.2.2 (by simp [hqueue])⟩

end SynchList

end Nachos.Threads
