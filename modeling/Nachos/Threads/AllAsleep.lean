import Nachos.Threads.Sections

/-!
# When all threads sleep (threads/synch.cc)

What is left of a wakeup that is not lost: a permit, or a free lock, has been seen by all
who sleep for it.

* `interrupt_retried`: an interrupt keeps `Retried`, as a step does;
* `AllAsleep.sem_queue`, `AllAsleep.lock_queue`: when all threads sleep, none sleeps on a
  semaphore that has a permit, nor on a lock whose section is no place to sleep in;
* `length_le_count`, `count_le_length`: the threads on a queue, counted by where they are.
-/

namespace Nachos.Threads.Core

open Nachos.Framework

variable {S L C σ Loc Ev : Type} [DecidableEq S] [DecidableEq L] [DecidableEq C]
variable {p : Program S L C σ Loc Ev} {s u : Core S L C σ Loc} {t : ThreadId} {x : S} {k : L}

/-! ## Interrupts and semaphores -/

omit [DecidableEq L] [DecidableEq C] in
/-- `V` takes the first thread off the queue, which has still to test for the permit. -/
theorem V_retried (hs : s.Queued) (x : S) : (s.setSem x (s.sem x).V.2).Retried x := by
  intro _ hqueue
  have hsem : ((s.setSem x (s.sem x).V.2).sem x).queue = (s.sem x).queue.tail := by
    rw [setSem_sem, Function.update_self]
    rfl
  rw [hsem] at hqueue ⊢
  cases hq : (s.sem x).queue with
  | nil =>
    rw [hq] at hqueue
    exact absurd rfl hqueue
  | cons w rest =>
    obtain ⟨next, hpc⟩ := pc_of_mem_sem_queue hs (t := w) (by rw [hq]; exact List.mem_cons_self)
    have hnodup : (s.sem x).queue.Nodup := hs.nodup (.sem x)
    rw [hq] at hnodup
    exact ⟨w, next, hpc, (List.nodup_cons.mp hnodup).1⟩

omit [DecidableEq S] [DecidableEq L] [DecidableEq C] in
theorem Retried.congr (h : s.Retried x) (hsem : u.sem x = s.sem x) (hpc : u.pc = s.pc) : u.Retried x := by
  unfold Retried
  rw [hsem, hpc]
  exact h

theorem V_queued (hs : s.Queued) (x : S) : (s.setSem x (s.sem x).V.2).Queued :=
  signalAll_queued [x] hs

theorem signalAll_retried (xs : List S) (hs : s.Queued) (h : s.Retried x) :
    (signalAll xs s).2.Retried x := by
  induction xs generalizing s with
  | nil => exact h
  | cons y xs ih =>
    refine ih (V_queued hs y) ?_
    by_cases hy : x = y
    · subst hy
      exact V_retried hs x
    · refine h.congr ?_ rfl
      rw [setSem_sem, Function.update_of_ne hy]

/-- Every interrupt keeps it. -/
theorem interrupt_retried {ev : Ev} {ts : List ThreadId} (hs : s.Queued) (h : s.Retried x)
    (hint : s.interrupt p ev = some (ts, u)) : u.Retried x := by
  obtain ⟨m, xs, -, heq⟩ := interrupt_eq_some hint
  rw [show u = (signalAll xs { s with mem := m }).2 from congrArg Prod.snd heq]
  exact signalAll_retried xs (hs.withMem m) h

/-- Every move keeps it, as long as there is one permit at most. -/
theorem next_retried {v : Move Ev} (hs : s.Queued) (hpos : 0 ≤ (s.sem x).value)
    (hle : (s.sem x).value ≤ 1) (h : s.Retried x) (hnext : s.next p v = some u) : u.Retried x := by
  cases v with
  | thread t =>
    obtain ⟨⟨e, u'⟩, hstep, rfl⟩ := Option.map_eq_some_iff.mp hnext
    exact step_retried hs hpos hle h hstep
  | interrupt ev =>
    obtain ⟨⟨ts, u'⟩, hint, rfl⟩ := Option.map_eq_some_iff.mp hnext
    exact interrupt_retried hs h hint

omit [DecidableEq L] [DecidableEq C] in
/-- An interrupt moves no thread. -/
theorem interrupt_countAt {ev : Ev} {ts : List ThreadId} (f : Loc → Bool)
    (hint : s.interrupt p ev = some (ts, u)) : u.countAt f = s.countAt f := by
  obtain ⟨m, xs, -, heq⟩ := interrupt_eq_some hint
  obtain ⟨-, hpc, hnum, -, -⟩ := signalAll_frame xs { s with mem := m }
  rw [← show u = (signalAll xs { s with mem := m }).2 from congrArg Prod.snd heq] at hpc hnum
  have hpc : u.pc = s.pc := hpc
  unfold countAt totalAt
  exact total_congr_pc hpc hnum

/-! ## All threads asleep -/

/-- All threads that have not finished sleep. -/
def AllAsleep (s : Core S L C σ Loc) : Prop := ∀ t, s.pc t ≠ .finished → s.asleep t = true

section

omit [DecidableEq S] [DecidableEq L] [DecidableEq C]

theorem asleep_iff {w : WaitQueue S L C} (hw : (s.pc t).waitsOn = some w) :
    s.asleep t = true ↔ t ∈ s.queue w := by
  unfold asleep
  rw [hw]
  exact decide_eq_true_iff

theorem asleep_of_inP {next : Loc} (hpc : s.pc t = .inP x next) :
    s.asleep t = true ↔ t ∈ (s.sem x).queue := asleep_iff (w := .sem x) (by rw [hpc]; rfl)

theorem asleep_of_inAcquire {next : Loc} (hpc : s.pc t = .inAcquire k next) :
    s.asleep t = true ↔ t ∈ (s.lock k).queue := asleep_iff (w := .lock k) (by rw [hpc]; rfl)

theorem asleep_of_inWait {c : C} {next : Loc} (hpc : s.pc t = .inWait c k next) :
    s.asleep t = true ↔ t ∈ (s.cond c).queue := asleep_iff (w := .cond c) (by rw [hpc]; rfl)

theorem asleep_of_user {loc : Loc} (hpc : s.pc t = .user loc) : s.asleep t = false := by
  simp [asleep, hpc, PC.waitsOn]

end

namespace AllAsleep

section

omit [DecidableEq S] [DecidableEq L] [DecidableEq C]

theorem not_user (h : s.AllAsleep) (loc : Loc) : s.pc t ≠ .user loc := by
  intro hpc
  have hasleep := h t (by simp [hpc])
  rw [asleep_of_user hpc] at hasleep
  cases hasleep

/-- Nobody sleeps on a semaphore that has its permit. -/
theorem sem_queue (h : s.AllAsleep) (hretried : s.Retried x) (hone : (s.sem x).value = 1) :
    (s.sem x).queue = [] := by
  by_contra hqueue
  obtain ⟨t, next, hpc, hnot⟩ := hretried hone hqueue
  exact hnot ((asleep_of_inP hpc).mp (h t (by simp [hpc])))

end

omit [DecidableEq C] in
/-- Nobody sleeps on a lock, when nobody sleeps inside of its section. -/
theorem lock_queue {inside : Loc → Bool} {lost : σ → Nat} (h : s.AllAsleep) (hretested : s.Retested k)
    (hguarded : Guarded (.lock k) inside lost s) (hlost : lost s.mem = 0)
    (hawake : ∀ t, (s.pc t).within (.lock k) inside = true → s.asleep t = false) :
    (s.lock k).queue = [] := by
  by_contra hqueue
  cases hfree : (s.lock k).free with
  | true =>
    obtain ⟨t, next, hpc, hnot⟩ := hretested hfree hqueue
    exact hnot ((asleep_of_inAcquire hpc).mp (h t (by simp [hpc])))
  | false =>
    obtain ⟨t, ht⟩ := hguarded.exists_within (by simp [hfree]) hlost
    have hborn : s.pc t ≠ .finished := fun hpc => by
      rw [hpc, within_finished] at ht
      cases ht
    have hasleep := h t hborn
    rw [hawake t ht] at hasleep
    cases hasleep

end AllAsleep

/-! ## Queues and counts -/

variable {f : PC S L C Loc → Bool}

section

omit [DecidableEq S] [DecidableEq L] [DecidableEq C]

theorem count_eq_card (f : PC S L C Loc → Bool) (s : Core S L C σ Loc) :
    s.count f = ((Finset.range s.numThreads).filter fun t => f (s.pc t) = true).card := by
  rw [count_eq, Finset.card_filter]
  refine Finset.sum_congr rfl fun t _ => ?_
  cases f (s.pc t) <;> rfl

/-- No more threads are on a list, none of them twice, than there are where they are. -/
theorem length_le_count (hs : s.Queued) (hf : f .finished = false) {ts : List ThreadId} (hnodup : ts.Nodup)
    (hts : ∀ t ∈ ts, f (s.pc t) = true) : ts.length ≤ s.count f := by
  rw [count_eq_card, ← List.toFinset_card_of_nodup hnodup]
  refine Finset.card_le_card fun t ht => ?_
  have ht := hts t (List.mem_toFinset.mp ht)
  rw [Finset.mem_filter, Finset.mem_range]
  exact ⟨lt_numThreads hs (ne_finished hf ht), ht⟩

theorem count_le_length {ts : List ThreadId} (hts : ∀ t, f (s.pc t) = true → t ∈ ts) :
    s.count f ≤ ts.length := by
  rw [count_eq_card]
  refine (Finset.card_le_card fun t ht => ?_).trans (List.toFinset_card_le ts)
  rw [Finset.mem_filter] at ht
  exact List.mem_toFinset.mpr (hts t ht.2)

theorem count_eq_zero (h : ∀ t, f (s.pc t) = false) : s.count f = 0 := by
  rw [count_eq_card, Finset.card_eq_zero, Finset.filter_eq_empty_iff]
  exact fun t _ => by simp [h t]

theorem count_le_count {g : PC S L C Loc → Bool} (h : ∀ t, f (s.pc t) = true → g (s.pc t) = true) :
    s.count f ≤ s.count g := by
  rw [count_eq_card, count_eq_card]
  refine Finset.card_le_card fun t ht => ?_
  rw [Finset.mem_filter] at ht ⊢
  exact ⟨ht.1, h t ht.2⟩

end

end Nachos.Threads.Core
