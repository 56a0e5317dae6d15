import Nachos.Threads.Conservation

/-!
# Locks exclude, conditions wake in order (threads/synch.cc)

* `call_exclusive`: at most one thread is inside a lock, and it is the holder;
* `call_retested`: while a lock is free and threads sleep on it, one that was
  woken up has still to test it again;
* `call_inOrder`: a condition wakes threads up in the order in which they began
  to wait;
* `lock_condition_correct`: what holds in every state of a run, and of the step
  after it.
-/

namespace Nachos.Threads

open Nachos.Framework Nachos.Machine

variable {S L C σ Loc Ev : Type} [DecidableEq S] [DecidableEq L] [DecidableEq C]
variable {p : Program S L C σ Loc Ev} {s u : Core S L C σ Loc} {t : ThreadId}

/-- Nobody is inside, or the holder alone. -/
def Lock.Exclusive (k : Lock) : Prop :=
  k.inside = [] ∨ ∃ t, k.inside = [t] ∧ k.free = false ∧ k.holder = some t

/-- The threads woken up and those that wait are, in this order, those that have waited. -/
def Condition.InOrder (x : Condition) : Prop := x.waited = x.woken ++ x.queue

theorem Lock.Exclusive.release {k : Lock} (h : k.Exclusive) (t : ThreadId) :
    (k.release t).2.Exclusive := by
  unfold Lock.release
  dsimp only
  split
  next ht =>
    refine .inl ?_
    obtain h | ⟨t', h, -, hholder⟩ := h
    · simp [h]
    · obtain rfl : t = t' := Option.some.inj (ht.symm.trans hholder)
      simp [h]
  next ht =>
    obtain h | ⟨t', h, hfree, hholder⟩ := h
    · exact .inl (by simp [h])
    · have hne : t' ≠ t := fun he => ht (he ▸ hholder)
      exact .inr ⟨t', by simp [h, hne], hfree, hholder⟩

theorem Lock.Exclusive.acquire {k : Lock} (h : k.Exclusive) (hfree : k.free = true) (t : ThreadId) :
    Lock.Exclusive { k with free := false, holder := some t, inside := k.inside ++ [t] } := by
  obtain h | ⟨t', -, hnot, -⟩ := h
  · exact .inr ⟨t, by simp [h], rfl, rfl⟩
  · simp [hfree] at hnot

namespace Core

theorem forall_update {ι α : Type} [DecidableEq ι] {P : α → Prop} {f : ι → α} {i : ι} {v : α}
    (h : ∀ j, P (f j)) (hv : P v) (j : ι) : P (Function.update f i v j) := by
  by_cases hj : j = i
  · simpa [hj] using hv
  · simpa [hj] using h j

theorem call_exclusive (h : ∀ k, (s.lock k).Exclusive) (i : Instr S L C Loc) (next : Loc) (k : L) :
    ((call t i next s).2.lock k).Exclusive := by
  cases i with
  | P x =>
    by_cases hx : (s.sem x).value = 0
    · simpa [call, testP_of_zero s t hx] using h k
    · simpa [call, testP_of_ne_zero s t hx] using h k
  | acquire k' =>
    cases hfree : (s.lock k').free with
    | true =>
      simp only [call, testAcquire_of_free s t hfree]
      exact forall_update h ((h k').acquire hfree t) k
    | false =>
      simp only [call, testAcquire_of_not_free s t hfree]
      refine forall_update h ?_ k
      exact h k'
  | release k' => exact forall_update h ((h k').release t) k
  | wait c k' => exact forall_update h ((h k').release t) k
  | V _ => exact h k
  | signal _ _ => exact h k
  | broadcast _ _ => exact h k
  | fork _ => exact h k
  | yield => exact h k
  | setLevel _ => exact h k
  | finish => exact h k

theorem call_inOrder (h : ∀ c, (s.cond c).InOrder) (i : Instr S L C Loc) (next : Loc) (c : C) :
    ((call t i next s).2.cond c).InOrder := by
  cases i with
  | P x =>
    by_cases hx : (s.sem x).value = 0
    · simpa [call, testP_of_zero s t hx] using h c
    · simpa [call, testP_of_ne_zero s t hx] using h c
  | acquire k' =>
    cases hfree : (s.lock k').free with
    | true => simpa [call, testAcquire_of_free s t hfree] using h c
    | false => simpa [call, testAcquire_of_not_free s t hfree] using h c
  | wait c' k' =>
    refine forall_update h ?_ c
    have := h c'
    simp only [Condition.InOrder] at this ⊢
    rw [this, List.append_assoc]
  | signal c' k' =>
    refine forall_update h ?_ c
    have := h c'
    simp only [Condition.InOrder, Condition.signal] at this ⊢
    rw [this, List.append_assoc, ← head?_toList_append_tail]
  | broadcast c' k' =>
    refine forall_update h ?_ c
    have := h c'
    simp only [Condition.InOrder, Condition.broadcast] at this ⊢
    rw [this, List.append_nil]
  | V _ => exact h c
  | release _ => exact h c
  | fork _ => exact h c
  | yield => exact h c
  | setLevel _ => exact h c
  | finish => exact h c

/-- While the lock is free and threads sleep on it, one that was taken off the queue has still to
test `free` again. -/
def Retested (k : L) (s : Core S L C σ Loc) : Prop :=
  (s.lock k).free = true → (s.lock k).queue ≠ [] →
    ∃ t next, s.pc t = .inAcquire k next ∧ t ∉ (s.lock k).queue

/-- The threads that do not move are where they were. -/
theorem call_pc_of_ne (hs : s.Queued) (i : Instr S L C Loc) (next : Loc) {t' : ThreadId}
    (hne : t' ≠ t) (hborn : s.pc t' ≠ .finished) : (call t i next s).2.pc t' = s.pc t' := by
  obtain h | ⟨start, -, rfl, -⟩ := call_pc hs i next hne
  · exact h
  · exact absurd (hs.unborn _ le_rfl) hborn

omit [DecidableEq S] [DecidableEq L] [DecidableEq C] in
/-- A move that leaves the lock alone. -/
theorem Retested.keep {k : L} (h : s.Retested k) (hlock : u.lock k = s.lock k)
    (hpc : ∀ t next, s.pc t = .inAcquire k next → u.pc t = s.pc t) : u.Retested k := by
  intro hfree hqueue
  rw [hlock] at hfree hqueue ⊢
  obtain ⟨t, next, hin, hnot⟩ := h hfree hqueue
  exact ⟨t, next, (hpc t next hin).trans hin, hnot⟩

omit [DecidableEq S] [DecidableEq C] in
theorem call_retested_release (hs : s.Queued) (h : ∀ k, s.Retested k)
    {k' : L} (hlock : u.lock = Function.update s.lock k' ((s.lock k').release t).2)
    (hpc : ∀ t', t' ≠ t → s.pc t' ≠ .finished → u.pc t' = s.pc t') {loc : Loc}
    (ht : s.pc t = .user loc) (k : L) : u.Retested k := by
  have hpc' : ∀ t' next, s.pc t' = .inAcquire k next → u.pc t' = s.pc t' := fun t' next hin =>
    hpc t' (fun he => by simp [he ▸ ht] at hin) (by simp [hin])
  by_cases hk : k = k'
  · subst hk
    have hlock : u.lock k = ((s.lock k).release t).2 := by rw [hlock, Function.update_self]
    intro hfree hqueue
    rw [hlock, Lock.release_queue] at hqueue ⊢
    obtain ⟨w, rest, hw⟩ : ∃ w rest, (s.lock k).queue = w :: rest := by
      cases hq : (s.lock k).queue with
      | nil => simp [hq] at hqueue
      | cons w rest => exact ⟨w, rest, rfl⟩
    by_cases hholder : (s.lock k).holder = some t
    · -- the first thread of the queue is woken up
      have hmem : w ∈ s.queue (.lock k) := by simp [hw]
      have hwaits := hs.waits _ _ hmem
      obtain ⟨next, hin⟩ : ∃ next, s.pc w = .inAcquire k next := by
        cases hpcw : s.pc w with
        | inAcquire k'' next =>
          rw [hpcw] at hwaits
          exact ⟨next, by simpa [PC.waitsOn] using hwaits⟩
        | user _ => simp [hpcw, PC.waitsOn] at hwaits
        | inP _ _ => simp [hpcw, PC.waitsOn] at hwaits
        | inWait _ _ _ => simp [hpcw, PC.waitsOn] at hwaits
        | finished => simp [hpcw, PC.waitsOn] at hwaits
      refine ⟨w, next, (hpc' w next hin).trans hin, ?_⟩
      have hnodup : (w :: rest).Nodup := hw ▸ hs.nodup (.lock k)
      simpa [hw] using (List.nodup_cons.mp hnodup).1
    · have hfree : (s.lock k).free = true := by
        rw [hlock] at hfree
        simpa [Lock.release, hholder] using hfree
      obtain ⟨t', next, hin, hnot⟩ := h k hfree (by simp [hw])
      exact ⟨t', next, (hpc' t' next hin).trans hin, fun hm => hnot (List.mem_of_mem_tail hm)⟩
  · refine (h k).keep ?_ hpc'
    rw [hlock, Function.update_of_ne hk]

/-- Every step keeps it: a lock becomes free only where its holder wakes the first thread of the
queue up, and that thread is the one until it tests `free` again. -/
theorem step_retested {e : Effect} (hs : s.Queued) (h : ∀ k, s.Retested k)
    (hstep : s.step p t = some (e, u)) (k : L) : u.Retested k := by
  obtain ⟨-, i, m, next, hbegins, heq⟩ := step_eq_some hstep
  have hu : u = (call t i next { s with mem := m }).2 := congrArg Prod.snd heq
  have hpc : ∀ t', t' ≠ t → s.pc t' ≠ .finished → u.pc t' = s.pc t' := fun t' hne hborn =>
    hu ▸ call_pc_of_ne (hs.withMem m) i next hne hborn
  have hkeep (hi : i ≠ .acquire k) (hlock : u.lock k = s.lock k) : u.Retested k := by
    refine (h k).keep hlock fun t' next' hin => hpc t' (fun he => ?_) (by simp [hin])
    subst he
    cases hbegins with
    | user hpc _ => simp [hpc] at hin
    | inP hpc => simp [hpc] at hin
    | inWait hpc => simp [hpc] at hin
    | inAcquire hpc =>
      simp only [hpc, PC.inAcquire.injEq] at hin
      exact hi (by rw [hin.1])
  have huser {j : Instr S L C Loc} (hj : j = i) (hnot : ∀ x, j ≠ .P x) (hnot' : ∀ k, j ≠ .acquire k) :
      ∃ loc, s.pc t = .user loc := by
    cases hbegins with
    | user hpc _ => exact ⟨_, hpc⟩
    | inP _ => exact absurd hj (hnot _)
    | inAcquire _ => exact absurd hj (hnot' _)
    | inWait _ => exact absurd hj (hnot' _)
  cases i with
  | P x =>
    refine hkeep (by simp) ?_
    by_cases hx : (s.sem x).value = 0
    · simp [hu, call, testP_of_zero { s with mem := m } t hx]
    · simp [hu, call, testP_of_ne_zero { s with mem := m } t hx]
  | acquire k' =>
    by_cases hk : k = k'
    · -- the lock is not free after the test, whatever its outcome
      subst hk
      intro hfree
      cases hf : (s.lock k).free with
      | true => simp [hu, call, testAcquire_of_free { s with mem := m } t hf] at hfree
      | false => simp [hu, call, testAcquire_of_not_free { s with mem := m } t hf, hf] at hfree
    · refine hkeep (by simpa [eq_comm] using hk) ?_
      cases hf : (s.lock k').free with
      | true => simp [hu, call, testAcquire_of_free { s with mem := m } t hf, hk]
      | false => simp [hu, call, testAcquire_of_not_free { s with mem := m } t hf, hk]
  | release k' =>
    obtain ⟨loc, hloc⟩ := huser rfl (by simp) (by simp)
    exact call_retested_release hs h (by rw [hu]; rfl) hpc hloc k
  | wait c k' =>
    obtain ⟨loc, hloc⟩ := huser rfl (by simp) (by simp)
    exact call_retested_release hs h (by rw [hu]; rfl) hpc hloc k
  | V _ => exact hkeep (by simp) (by rw [hu]; rfl)
  | signal _ _ => exact hkeep (by simp) (by rw [hu]; rfl)
  | broadcast _ _ => exact hkeep (by simp) (by rw [hu]; rfl)
  | fork _ => exact hkeep (by simp) (by rw [hu]; rfl)
  | yield => exact hkeep (by simp) (by rw [hu]; rfl)
  | setLevel _ => exact hkeep (by simp) (by rw [hu]; rfl)
  | finish => exact hkeep (by simp) (by rw [hu]; rfl)

/-- The invariants of the locks and conditions. -/
structure Synchronized (s : Core S L C σ Loc) : Prop where
  queued : s.Queued
  exclusive : ∀ k, (s.lock k).Exclusive
  retested : ∀ k, s.Retested k
  inOrder : ∀ c, (s.cond c).InOrder

theorem step_synchronized {e : Effect} (h : s.Synchronized) (hstep : s.step p t = some (e, u)) :
    u.Synchronized := by
  refine ⟨step_queued h.queued hstep, ?_, step_retested h.queued h.retested hstep, ?_⟩
  all_goals
    obtain ⟨-, i, m, next, -, heq⟩ := step_eq_some hstep
    rw [show u = (call t i next { s with mem := m }).2 from congrArg Prod.snd heq]
  · exact call_exclusive (s := { s with mem := m }) h.exclusive i next
  · exact call_inOrder (s := { s with mem := m }) h.inOrder i next

omit [DecidableEq L] [DecidableEq C] in
/-- An interrupt handler uses semaphores only. -/
theorem interrupt_frame {ev : Ev} {ts : List ThreadId} (h : s.interrupt p ev = some (ts, u)) :
    u.lock = s.lock ∧ u.cond = s.cond ∧ u.pc = s.pc := by
  have hsig (xs : List S) (v : Core S L C σ Loc) : (signalAll xs v).2.lock = v.lock ∧
      (signalAll xs v).2.cond = v.cond ∧ (signalAll xs v).2.pc = v.pc := by
    induction xs generalizing v with
    | nil => exact ⟨rfl, rfl, rfl⟩
    | cons x xs ih => exact ih _
  obtain ⟨m, xs, -, heq⟩ := interrupt_eq_some h
  rw [show u = (signalAll xs { s with mem := m }).2 from congrArg Prod.snd heq]
  exact hsig xs _

theorem next_synchronized {v : Move Ev} (h : s.Synchronized) (hstep : s.next p v = some u) :
    u.Synchronized := by
  cases v with
  | thread t =>
    obtain ⟨⟨e, u'⟩, hthread, rfl⟩ := Option.map_eq_some_iff.mp hstep
    exact step_synchronized h hthread
  | interrupt ev =>
    obtain ⟨⟨ts, u'⟩, hint, rfl⟩ := Option.map_eq_some_iff.mp hstep
    obtain ⟨hlock, hcond, hpc⟩ := interrupt_frame hint
    refine ⟨interrupt_queued h.queued hint, fun k => hlock ▸ h.exclusive k, fun k => ?_,
      fun c => hcond ▸ h.inOrder c⟩
    exact (h.retested k).keep (congrFun hlock k) fun t next _ => congrFun hpc t

omit [DecidableEq S] [DecidableEq L] [DecidableEq C] in
theorem new_synchronized (initialValue : S → Int) (mem : σ) (main : Loc) :
    (new initialValue mem main : Core S L C σ Loc).Synchronized where
  queued := new_queued initialValue mem main
  exclusive _ := .inl rfl
  retested _ _ hqueue := absurd rfl hqueue
  inOrder _ := rfl

/-- `Acquire` and `Wait` return with the lock. -/
theorem step_returns {e : Effect} {k : L} {next' : Loc} (hs : ∀ k, (s.lock k).Exclusive)
    (hstep : s.step p t = some (e, u))
    (hpc : (∃ c next, s.pc t = .inWait c k next) ∨ (∃ next, s.pc t = .inAcquire k next) ∨
      s.nextCall p t = some (.acquire k))
    (hret : u.pc t = .user next') :
    (u.lock k).free = false ∧ (u.lock k).holder = some t ∧ (u.lock k).inside = [t] := by
  obtain ⟨-, i, m, next, hbegins, heq⟩ := step_eq_some hstep
  obtain rfl : i = .acquire k := by
    cases hbegins with
    | user hu hcode => simpa [hu, nextCall, hcode] using hpc
    | inP hu => simp [hu, nextCall] at hpc
    | inAcquire hu => simpa [hu, nextCall] using hpc
    | inWait hu => simpa [hu, nextCall] using hpc
  have hu : u = (call t (.acquire k) next { s with mem := m }).2 := congrArg Prod.snd heq
  cases hf : (s.lock k).free with
  | true =>
    have hex := (hs k).acquire hf t
    simp only [hu, call, testAcquire_of_free { s with mem := m } t hf, setPC_lock, setLock_lock,
      Function.update_self, true_and]
    obtain h | ⟨t', h, -, ht'⟩ := hex
    · simp at h
    · obtain rfl : t = t' := Option.some.inj ht'
      exact h
  | false => simp [hu, call, testAcquire_of_not_free { s with mem := m } t hf] at hret

end Core

namespace System

variable {s u : System S L C σ Loc}

/-- The lock that the caller has to hold. -/
def needs : Instr S L C Loc → Option L
  | .release k => some k
  | .wait _ k => some k
  | .signal _ k => some k
  | .broadcast _ k => some k
  | _ => none

/-- The call that the current thread is about to make is one that it may make: it holds the lock. -/
def CallsAsHolder (p : Program S L C σ Loc Ev) (s : System S L C σ Loc) : Prop :=
  ((s.nextCall p).bind needs).all fun k =>
    (s.core.lock k).free == false && (s.core.lock k).holder == some s.sched.currentThread

instance (p : Program S L C σ Loc Ev) (s : System S L C σ Loc) : Decidable (s.CallsAsHolder p) :=
  inferInstanceAs (Decidable (_ = true))

omit [DecidableEq S] [DecidableEq L] [DecidableEq C] in
theorem CallsAsHolder.releases (h : s.CallsAsHolder p) : s.ReleasesAsHolder p := by
  unfold CallsAsHolder at h
  unfold ReleasesAsHolder
  cases hcall : s.nextCall p with
  | none => rfl
  | some i =>
    rw [hcall] at h
    cases i <;> simp_all [needs, Core.releases]

omit [DecidableEq L] [DecidableEq C] in
theorem handle_frame {es : List Ev} (h : s.handle p es = some u) :
    u.core.lock = s.core.lock ∧ u.core.cond = s.core.cond ∧ u.core.pc = s.core.pc := by
  induction es generalizing s with
  | nil => rw [← Option.some.inj h]; exact ⟨rfl, rfl, rfl⟩
  | cons e es ih =>
    obtain ⟨⟨ts, core⟩, hint, h⟩ := Option.bind_eq_some_iff.mp h
    obtain ⟨hlock, hcond, hpc⟩ := ih h
    obtain ⟨hlock', hcond', hpc'⟩ := Core.interrupt_frame hint
    exact ⟨hlock.trans hlock', hcond.trans hcond', hpc.trans hpc'⟩

/-- A step leaves the threads where they are, or is a step of the current thread. -/
theorem step_core_cases {i : Input Ev} (h : s.step p i = some u) :
    u.core.pc = s.core.pc ∨ ∃ e, s.core.step p s.sched.currentThread = some (e, u.core) := by
  unfold step at h
  split at h
  · exact .inr (userStep_core h)
  · exact .inr (resumeStep_core h)
  · exact .inl (by simp [← Option.some.inj h])
  · obtain ⟨v, hv, rfl⟩ := Option.map_eq_some_iff.mp h
    exact .inl (by simpa using (handle_frame hv).2.2)
  · exact .inl (by simp [← Option.some.inj h])
  · unfold sleepStep at h
    split at h
    · exact .inl (handle_frame h).2.2
    · exact .inl (by simp [← Option.some.inj h])

/-- A call that is made: the state after its critical section. -/
theorem step_call {i : Input Ev} {j : Instr S L C Loc} (hcall : s.nextCall p = some j)
    (h : s.step p i = some u) : ∃ m next e,
      (e, u.core) = Core.call s.sched.currentThread j next { s.core with mem := m } ∧
      u.sched.currentThread = s.sched.currentThread ∧
      u.sched.readyList = s.sched.readyList ++ e.ready := by
  unfold nextCall at hcall
  split at hcall
  next hf =>
    rw [step, hf] at h
    obtain ⟨⟨e, core⟩, hstep, rfl⟩ := Option.map_eq_some_iff.mp h
    obtain ⟨-, i', m, next, hbegins, heq⟩ := Core.step_eq_some hstep
    obtain rfl : i' = j := by
      cases hbegins with
      | user hu hcode => simpa [Core.nextCall, hu, hcode] using hcall
      | inP hu => simp [Core.nextCall, hu] at hcall
      | inAcquire hu => simp [Core.nextCall, hu] at hcall
      | inWait hu => simp [Core.nextCall, hu] at hcall
    refine ⟨m, next, e, by simpa using heq, ?_⟩
    cases e.after <;> simp [leaveCall, Scheduler.readyAll_eq, Scheduler.setStatus]
  · cases hcall

omit [DecidableEq S] [DecidableEq L] [DecidableEq C] in
/-- The thread that has still to test a lock again is ready, or runs. -/
theorem Conserved.retesting {k : L} {next : Loc} (hs : s.Conserved) (hpc : s.core.pc t = .inAcquire k next)
    (hnot : t ∉ (s.core.lock k).queue) : t = s.sched.currentThread ∨ t ∈ s.sched.readyList := by
  have hawake : s.core.asleep t = false := by
    simp [Core.asleep, hpc, PC.waitsOn, hnot]
  obtain hr | hsl := hs.mode
  · by_cases ht : t = s.sched.currentThread
    · exact .inl ht
    · obtain hl | ⟨ha, -⟩ := hr.placed.others t (by simpa using ht) (by simp [hpc])
      · exact .inr hl
      · simp [hawake] at ha
  · obtain hl | ⟨ha, -⟩ := hsl.placed.others t (by simp) (by simp [hpc])
    · exact .inr hl
    · simp [hawake] at ha

/-- In every run in which `Release`, `Wait`, `Signal` and `Broadcast` are called by the thread that
holds the lock: at most one thread is inside a lock, and it is the holder; while a lock is free and
threads sleep on it, a thread that was taken off the queue, and is ready or runs, has still to test
`free` again; a condition has woken threads up in the order in which they waited. In the step
after it, a thread that calls `Wait` frees the lock and is on the queue of the condition while it
is still the current thread; `Signal` makes the longest-waiting thread ready, and `Broadcast` all of
them; and a thread leaves `Acquire` or `Wait` with the lock. -/
theorem lock_condition_correct (p : Program S L C σ Loc Ev) (initialValue : S → Int) (mem : σ)
    (main : Loc) {is : List (Input Ev)}
    (h : Framework.run (step p) is (start (Core.new initialValue mem main) 0) = some s)
    (hholder : Along (step p) (fun _ s => s.CallsAsHolder p) is
      (start (Core.new initialValue mem main) 0)) :
    (∀ k, (s.core.lock k).inside = [] ∨ ∃ t, (s.core.lock k).inside = [t] ∧
      (s.core.lock k).free = false ∧ (s.core.lock k).holder = some t) ∧
    (∀ k, (s.core.lock k).free = true → (s.core.lock k).queue ≠ [] →
      ∃ t next, s.core.pc t = .inAcquire k next ∧ t ∉ (s.core.lock k).queue ∧
        (t = s.sched.currentThread ∨ t ∈ s.sched.readyList)) ∧
    (∀ c, (s.core.cond c).waited = (s.core.cond c).woken ++ (s.core.cond c).queue) ∧
    (∀ i u, s.step p i = some u → s.CallsAsHolder p →
      (∀ c k, s.nextCall p = some (.wait c k) → (u.core.lock k).free = true ∧
        (u.core.cond c).queue = (s.core.cond c).queue ++ [s.sched.currentThread] ∧
        u.sched.currentThread = s.sched.currentThread) ∧
      (∀ c k, s.nextCall p = some (.signal c k) →
        (s.core.cond c).queue = (s.core.cond c).queue.head?.toList ++ (u.core.cond c).queue ∧
        u.sched.readyList = s.sched.readyList ++ (s.core.cond c).queue.head?.toList) ∧
      (∀ c k, s.nextCall p = some (.broadcast c k) → (u.core.cond c).queue = [] ∧
        u.sched.readyList = s.sched.readyList ++ (s.core.cond c).queue) ∧
      (∀ t k next, ((∃ c next, s.core.pc t = .inWait c k next) ∨
          ∃ next, s.core.pc t = .inAcquire k next) → u.core.pc t = .user next →
        (u.core.lock k).free = false ∧ (u.core.lock k).holder = some t ∧
        (u.core.lock k).inside = [t])) := by
  have hs : s.Conserved :=
    run_invariant_along (fun _ _ _ hs hg hstep => hs.step hg.releases hstep)
      (start_conserved initialValue mem main) hholder h
  obtain ⟨ms, hms⟩ := run_core h
  have hsync : s.core.Synchronized := run_invariant (fun _ _ _ hs hstep =>
    Core.next_synchronized hs hstep) (Core.new_synchronized initialValue mem main) hms
  refine ⟨hsync.exclusive, fun k hfree hqueue => ?_, hsync.inOrder, fun i u hstep hcalls =>
    ⟨fun c k hcall => ?_, fun c k hcall => ?_, fun c k hcall => ?_, fun t k next hpc hret => ?_⟩⟩
  · obtain ⟨t, next, hpc, hnot⟩ := hsync.retested k hfree hqueue
    exact ⟨t, next, hpc, hnot, hs.retesting hpc hnot⟩
  · obtain ⟨m, next, e, heq, hcurrent, -⟩ := step_call hcall hstep
    have hu : u.core = _ := congrArg Prod.snd heq
    have hholds : (s.core.lock k).holder = some s.sched.currentThread := by
      simp only [CallsAsHolder, hcall, needs, Option.bind_some, Option.all_some, Bool.and_eq_true,
        beq_iff_eq] at hcalls
      exact hcalls.2
    refine ⟨?_, ?_, hcurrent⟩
    · simp [hu, Core.call, Lock.release, hholds]
    · simp [hu, Core.call]
  · obtain ⟨m, next, e, heq, -, hready⟩ := step_call hcall hstep
    obtain ⟨rfl, hu⟩ := Prod.mk.inj heq
    refine ⟨?_, hready⟩
    simpa [hu, Core.call, Condition.signal] using Core.head?_toList_append_tail _
  · obtain ⟨m, next, e, heq, -, hready⟩ := step_call hcall hstep
    obtain ⟨rfl, hu⟩ := Prod.mk.inj heq
    exact ⟨by simp [hu, Condition.broadcast], hready⟩
  · obtain hsame | ⟨e, hthread⟩ := step_core_cases hstep
    · obtain ⟨c, next', hpc⟩ | ⟨next', hpc⟩ := hpc <;> simp [hsame, hpc] at hret
    · by_cases ht : t = s.sched.currentThread
      · subst ht
        exact Core.step_returns hsync.exclusive hthread (hpc.imp_right .inl) hret
      · obtain ⟨-, i', m, next', -, heq⟩ := Core.step_eq_some hthread
        have hborn : s.core.pc t ≠ .finished := by
          obtain ⟨c, next', hpc⟩ | ⟨next', hpc⟩ := hpc <;> simp [hpc]
        rw [show u.core = _ from congrArg Prod.snd heq, Core.call_pc_of_ne (hs.queued.withMem m) i' next' ht hborn] at hret
        obtain ⟨c, next', hpc⟩ | ⟨next', hpc⟩ := hpc <;> simp [hpc] at hret

theorem lock_condition_correct_pingPong : ∃ s, Framework.run (step pingPong)
    (List.replicate 20 ⟨[], false⟩) (start (Core.new (fun _ => 0) () 0) 0) = some s ∧
    (s.core.cond ()).woken = [0] ∧
    (s.core.cond ()).waited = (s.core.cond ()).woken ++ (s.core.cond ()).queue := by
  have heval : Along (step pingPong) (fun _ s => s.CallsAsHolder pingPong)
        (List.replicate 20 ⟨[], false⟩) (start (Core.new (fun _ => 0) () 0) 0) ∧
      ((Framework.run (step pingPong) (List.replicate 20 ⟨[], false⟩)
        (start (Core.new (fun _ => 0) () 0) 0)).any fun s => (s.core.cond ()).woken = [0]) = true := by
    decide +kernel
  obtain ⟨s, hs, hwoken⟩ := (Option.any_eq_true _ _).mp heval.2
  exact ⟨s, hs, of_decide_eq_true hwoken,
    (lock_condition_correct pingPong _ _ _ hs heval.1).2.2.1 ()⟩

end System

end Nachos.Threads
