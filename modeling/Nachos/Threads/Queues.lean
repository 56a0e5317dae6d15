import Nachos.Threads.Synch

/-!
# The wait queues

`Queued` says that a thread on the queue of an object is where it would be
after going to sleep there, so that no thread is on two queues, and on none
twice. Every move of an interleaving keeps it (`next_queued`).

`step_eq_some` says once what a step of a thread is: a call, begun now or
before a `Sleep`. The later modules get their invariants from it.
-/

namespace Nachos.Threads

open Nachos.Framework

variable {S L C σ Loc Ev : Type}
variable {p : Program S L C σ Loc Ev} {s u : Core S L C σ Loc} {t : ThreadId}

namespace Core

section Fields

variable (s) (x : S) (k : L) (c : C) (vs : Semaphore) (vk : Lock) (vc : Condition) (q : PC S L C Loc)

section

variable [DecidableEq S]

@[simp] theorem setSem_sem : (s.setSem x vs).sem = Function.update s.sem x vs := rfl
@[simp] theorem setSem_lock : (s.setSem x vs).lock = s.lock := rfl
@[simp] theorem setSem_cond : (s.setSem x vs).cond = s.cond := rfl
@[simp] theorem setSem_mem : (s.setSem x vs).mem = s.mem := rfl
@[simp] theorem setSem_pc : (s.setSem x vs).pc = s.pc := rfl
@[simp] theorem setSem_numThreads : (s.setSem x vs).numThreads = s.numThreads := rfl

end

section

variable [DecidableEq L]

@[simp] theorem setLock_sem : (s.setLock k vk).sem = s.sem := rfl
@[simp] theorem setLock_lock : (s.setLock k vk).lock = Function.update s.lock k vk := rfl
@[simp] theorem setLock_cond : (s.setLock k vk).cond = s.cond := rfl
@[simp] theorem setLock_mem : (s.setLock k vk).mem = s.mem := rfl
@[simp] theorem setLock_pc : (s.setLock k vk).pc = s.pc := rfl
@[simp] theorem setLock_numThreads : (s.setLock k vk).numThreads = s.numThreads := rfl

end

section

variable [DecidableEq C]

@[simp] theorem setCond_sem : (s.setCond c vc).sem = s.sem := rfl
@[simp] theorem setCond_lock : (s.setCond c vc).lock = s.lock := rfl
@[simp] theorem setCond_cond : (s.setCond c vc).cond = Function.update s.cond c vc := rfl
@[simp] theorem setCond_mem : (s.setCond c vc).mem = s.mem := rfl
@[simp] theorem setCond_pc : (s.setCond c vc).pc = s.pc := rfl
@[simp] theorem setCond_numThreads : (s.setCond c vc).numThreads = s.numThreads := rfl

end

@[simp] theorem setPC_sem : (s.setPC t q).sem = s.sem := rfl
@[simp] theorem setPC_lock : (s.setPC t q).lock = s.lock := rfl
@[simp] theorem setPC_cond : (s.setPC t q).cond = s.cond := rfl
@[simp] theorem setPC_mem : (s.setPC t q).mem = s.mem := rfl
@[simp] theorem setPC_pc : (s.setPC t q).pc = Function.update s.pc t q := rfl
@[simp] theorem setPC_numThreads : (s.setPC t q).numThreads = s.numThreads := rfl

end Fields

variable [DecidableEq S] [DecidableEq L] [DecidableEq C]

/-! ## What a step does -/

/-- Where a step of `t` begins: in its own code with a call to make, or after a `Sleep`. `m` is the
memory when the call is made, and `next` where it returns to. -/
inductive Begins (p : Program S L C σ Loc Ev) (t : ThreadId) (s : Core S L C σ Loc) :
    Instr S L C Loc → σ → Loc → Prop
  | user {loc m i next} (hpc : s.pc t = .user loc) (hcode : p.code t loc s.mem = some (m, i, next)) :
    Begins p t s i m next
  | inP {x next} (hpc : s.pc t = .inP x next) : Begins p t s (.P x) s.mem next
  | inAcquire {k next} (hpc : s.pc t = .inAcquire k next) : Begins p t s (.acquire k) s.mem next
  | inWait {x k next} (hpc : s.pc t = .inWait x k next) : Begins p t s (.acquire k) s.mem next

/-- A step is a call, begun now or before a `Sleep`. -/
theorem step_eq_some {e : Effect} (h : s.step p t = some (e, u)) :
    s.asleep t = false ∧
      ∃ i m next, Begins p t s i m next ∧ (e, u) = call t i next { s with mem := m } := by
  unfold step at h
  split at h
  · cases h
  next hs =>
    refine ⟨by simpa using hs, ?_⟩
    cases hpc : s.pc t with
    | user loc =>
      rw [hpc] at h
      obtain ⟨⟨m, i, next⟩, hcode, h⟩ := Option.map_eq_some_iff.mp h
      exact ⟨i, m, next, .user hpc hcode, h.symm⟩
    | inP x next =>
      rw [hpc] at h
      exact ⟨.P x, s.mem, next, .inP hpc, (Option.some.inj h).symm⟩
    | inAcquire k next =>
      rw [hpc] at h
      exact ⟨.acquire k, s.mem, next, .inAcquire hpc, (Option.some.inj h).symm⟩
    | inWait x k next =>
      rw [hpc] at h
      exact ⟨.acquire k, s.mem, next, .inWait hpc, (Option.some.inj h).symm⟩
    | finished =>
      rw [hpc] at h
      cases h

/-- A step of a thread that is in its own code, before a `Sleep` of `P`, or at its end. -/
theorem next_user {loc : Loc} (hpc : s.pc t = .user loc) :
    s.next p (.thread t) = (p.code t loc s.mem).map fun r =>
      (call t r.2.1 r.2.2 { s with mem := r.1 }).2 := by
  have hawake : s.asleep t = false := by simp [asleep, hpc, PC.waitsOn]
  show (s.step p t).map Prod.snd = _
  rw [step, hawake, hpc]
  exact Option.map_map ..

theorem next_inP {x : S} {next : Loc} (hpc : s.pc t = .inP x next) :
    s.next p (.thread t) = if t ∈ (s.sem x).queue then none else some (s.testP t x next).2 := by
  have hasleep : s.asleep t = true ↔ t ∈ (s.sem x).queue := by
    rw [asleep, hpc]
    exact decide_eq_true_iff
  show (s.step p t).map Prod.snd = _
  rw [step]
  by_cases hmem : t ∈ (s.sem x).queue
  · rw [if_pos hmem, if_pos (hasleep.mpr hmem)]
    rfl
  · rw [if_neg hmem, if_neg fun h => hmem (hasleep.mp h), hpc]
    rfl

theorem next_finished (hpc : s.pc t = .finished) : s.next p (.thread t) = none := by
  have hawake : s.asleep t = false := by simp [asleep, hpc, PC.waitsOn]
  show (s.step p t).map Prod.snd = _
  rw [step, hawake, hpc]
  rfl

omit [DecidableEq S] [DecidableEq L] [DecidableEq C] in
theorem Begins.pc_ne_finished {i : Instr S L C Loc} {m : σ} {next : Loc}
    (h : Begins p t s i m next) : s.pc t ≠ .finished := by
  cases h <;> simp [*]

/-! ## The queues -/

section

omit [DecidableEq S] [DecidableEq L] [DecidableEq C]

@[simp] theorem queue_sem (x : S) : s.queue (.sem x) = (s.sem x).queue := rfl
@[simp] theorem queue_lock (k : L) : s.queue (.lock k) = (s.lock k).queue := rfl
@[simp] theorem queue_cond (c : C) : s.queue (.cond c) = (s.cond c).queue := rfl

end

@[simp] theorem setSem_queue (x : S) (v : Semaphore) :
    (s.setSem x v).queue = Function.update s.queue (.sem x) v.queue := by
  funext w
  cases w with
  | sem y => by_cases h : y = x <;> simp [queue, h, Function.update_of_ne]
  | lock k => rfl
  | cond c => rfl

@[simp] theorem setLock_queue (k : L) (v : Lock) :
    (s.setLock k v).queue = Function.update s.queue (.lock k) v.queue := by
  funext w
  cases w with
  | sem x => rfl
  | lock y => by_cases h : y = k <;> simp [queue, h, Function.update_of_ne]
  | cond c => rfl

@[simp] theorem setCond_queue (c : C) (v : Condition) :
    (s.setCond c v).queue = Function.update s.queue (.cond c) v.queue := by
  funext w
  cases w with
  | sem x => rfl
  | lock k => rfl
  | cond y => by_cases h : y = c <;> simp [queue, h, Function.update_of_ne]

section

omit [DecidableEq S] [DecidableEq L] [DecidableEq C]

@[simp] theorem setPC_queue (q : PC S L C Loc) : (s.setPC t q).queue = s.queue := rfl

/-- A thread on a queue has gone to sleep there: it is on no other, and on none twice. -/
structure Queued (s : Core S L C σ Loc) : Prop where
  waits : ∀ w t, t ∈ s.queue w → (s.pc t).waitsOn = some w
  nodup : ∀ w, (s.queue w).Nodup
  unborn : ∀ t, s.numThreads ≤ t → s.pc t = .finished

theorem Queued.asleep_iff (hs : s.Queued) : s.asleep t = true ↔ ∃ w, t ∈ s.queue w := by
  constructor
  · intro h
    unfold asleep at h
    split at h
    next w _ => exact ⟨w, by simpa using h⟩
    · cases h
  · rintro ⟨w, hw⟩
    simp [asleep, hs.waits w t hw, hw]

theorem Queued.not_mem (hs : s.Queued) (h : s.asleep t = false) (w : WaitQueue S L C) :
    t ∉ s.queue w := fun hw => by simp [hs.asleep_iff.mpr ⟨w, hw⟩] at h

end

/-- `t` goes to `q`, and to sleep there if `q` is such a place; the queues lose `out`, among which
are the threads that are made ready. -/
structure Serves (t : ThreadId) (e : Effect) (q : PC S L C Loc)
    (out : WaitQueue S L C → List ThreadId) (s u : Core S L C σ Loc) : Prop where
  pc : u.pc = Function.update s.pc t q
  numThreads : u.numThreads = s.numThreads
  queue : ∀ w, ∃ rest, s.queue w = out w ++ rest ∧
    u.queue w = rest ++ if q.waitsOn = some w then [t] else []
  ready : e.ready.Nodup ∧ ∀ t' ∈ e.ready, ∃ w, t' ∈ out w
  after : match e.after with
    | .sleeps => ∃ w, q.waitsOn = some w
    | .finishes => q = .finished
    | _ => ∃ loc, q = .user loc

variable {e : Effect} {q : PC S L C Loc} {out : WaitQueue S L C → List ThreadId}

theorem Serves.mem_queue (h : Serves t e q out s u) (hs : s.Queued) {t' : ThreadId}
    {w : WaitQueue S L C} :
    t' ∈ u.queue w ↔ (t' ∈ s.queue w ∧ t' ∉ out w) ∨ (t' = t ∧ q.waitsOn = some w) := by
  obtain ⟨rest, hold, hnew⟩ := h.queue w
  have hnodup := hold ▸ hs.nodup w
  have hmem : t' ∈ rest ↔ t' ∈ s.queue w ∧ t' ∉ out w := by
    rw [hold, List.mem_append]
    exact ⟨fun hr => ⟨.inr hr, fun ho => (List.nodup_append.mp hnodup).2.2 t' ho t' hr rfl⟩,
      fun hr => hr.1.resolve_left hr.2⟩
  rw [hnew, List.mem_append, hmem]
  by_cases hq : q.waitsOn = some w <;> simp [hq]

/-- A thread that is not asleep moves, and the queues are kept. -/
theorem Serves.queued (h : Serves t e q out s u) (hs : s.Queued) (hawake : s.asleep t = false)
    (hborn : s.pc t ≠ .finished) : u.Queued where
  waits w t' ht' := by
    obtain ⟨hold, -⟩ | ⟨rfl, hq⟩ := (h.mem_queue hs).mp ht'
    · rw [h.pc, Function.update_of_ne (ne_of_mem_of_not_mem hold (hs.not_mem hawake w))]
      exact hs.waits w t' hold
    · rw [h.pc, Function.update_self]
      exact hq
  nodup w := by
    obtain ⟨rest, hold, hnew⟩ := h.queue w
    have hrest : rest.Nodup := (List.nodup_append.mp (hold ▸ hs.nodup w)).2.1
    have ht : t ∉ rest := fun ht => hs.not_mem hawake w (hold ▸ List.mem_append_right _ ht)
    rw [hnew]
    split
    · exact List.nodup_append.mpr ⟨hrest, List.nodup_singleton t, by
        simpa [eq_comm] using fun a ha => ne_of_mem_of_not_mem ha ht⟩
    · simpa using hrest
  unborn t' ht' := by
    have hne : t' ≠ t := fun he => hborn (he ▸ hs.unborn t' (h.numThreads ▸ ht'))
    rw [h.pc, Function.update_of_ne hne]
    exact hs.unborn t' (h.numThreads ▸ ht')

section

omit [DecidableEq S] [DecidableEq L] [DecidableEq C]

/-- A thread that was not in use is on no queue. -/
theorem Queued.fork (hs : s.Queued) (start : Loc) :
    Queued { s.setPC s.numThreads (.user start) with numThreads := s.numThreads + 1 } where
  waits w t ht := by
    have hpc := hs.waits w t ht
    have hne : t ≠ s.numThreads := fun h => by simp [h, hs.unborn _ (le_refl _), PC.waitsOn] at hpc
    exact (congrArg PC.waitsOn (Function.update_of_ne hne _ _)).trans hpc
  nodup := hs.nodup
  unborn t ht := by
    have hlt : s.numThreads < t := ht
    exact (Function.update_of_ne hlt.ne' _ _).trans (hs.unborn t hlt.le)

/-- Forgetting what the memory holds. -/
theorem Queued.withMem (hs : s.Queued) (m : σ) : Queued { s with mem := m } := ⟨hs.1, hs.2, hs.3⟩

end

section Cases

variable (s t)

section

omit [DecidableEq L] [DecidableEq C]

theorem testP_of_zero {x : S} (h : (s.sem x).value = 0) (next : Loc) : s.testP t x next =
    (⟨[], .sleeps⟩, (s.setSem x { s.sem x with queue := (s.sem x).queue ++ [t] }).setPC t
      (.inP x next)) := by
  simp [testP, h]

theorem testP_of_ne_zero {x : S} (h : (s.sem x).value ≠ 0) (next : Loc) : s.testP t x next =
    (⟨[], .returns⟩, (s.setSem x { s.sem x with value := int32 ((s.sem x).value - 1) }).setPC t
      (.user next)) := by
  simp [testP, h]

end

section

omit [DecidableEq S] [DecidableEq C]

theorem testAcquire_of_free {k : L} (h : (s.lock k).free = true) (next : Loc) :
    s.testAcquire t k next = (⟨[], .returns⟩, (s.setLock k { s.lock k with
      free := false, holder := some t, inside := (s.lock k).inside ++ [t] }).setPC t (.user next)) := by
  simp [testAcquire, h]

theorem testAcquire_of_not_free {k : L} (h : (s.lock k).free = false) (next : Loc) :
    s.testAcquire t k next = (⟨[], .sleeps⟩, (s.setLock k { s.lock k with
      queue := (s.lock k).queue ++ [t] }).setPC t (.inAcquire k next)) := by
  simp [testAcquire, h]

end

end Cases

/-- `t` goes on with its code, and `o` is taken off `w`. -/
theorem serves_take (w : WaitQueue S L C) (o rest : List ThreadId) {loc : Loc}
    (hpc : u.pc = Function.update s.pc t (.user loc)) (hnum : u.numThreads = s.numThreads)
    (hold : s.queue w = o ++ rest) (hnew : u.queue = Function.update s.queue w rest)
    (hready : e.ready.Nodup ∧ ∀ t' ∈ e.ready, t' ∈ o) (hafter : e.after = .returns) :
    Serves t e (.user loc) (Function.update (fun _ => []) w o) s u where
  pc := hpc
  numThreads := hnum
  queue w' := by
    by_cases hw : w' = w
    · subst hw
      exact ⟨rest, by simp [hold], by simp [hnew, PC.waitsOn]⟩
    · exact ⟨s.queue w', by simp [hw], by simp [hnew, PC.waitsOn, hw]⟩
  ready := ⟨hready.1, fun t' ht' => ⟨w, by simpa using hready.2 t' ht'⟩⟩
  after := by simp [hafter]

/-- `t` goes to sleep at the end of `w`. -/
theorem serves_sleep (w : WaitQueue S L C) (hpc : u.pc = Function.update s.pc t q)
    (hnum : u.numThreads = s.numThreads) (hq : q.waitsOn = some w)
    (hnew : u.queue = Function.update s.queue w (s.queue w ++ [t])) :
    Serves t ⟨[], .sleeps⟩ q (fun _ => []) s u where
  pc := hpc
  numThreads := hnum
  queue w' := by
    refine ⟨s.queue w', rfl, ?_⟩
    by_cases hw : w' = w
    · subst hw
      simp [hnew, hq]
    · simp [hnew, hq, hw, Ne.symm hw]
  ready := ⟨List.nodup_nil, by simp⟩
  after := ⟨w, hq⟩

/-- `t` leaves the queues alone. -/
theorem serves_stay (hq : q.waitsOn = none) (hready : e.ready = [])
    (hafter : match e.after with
      | .sleeps => ∃ w, q.waitsOn = some w
      | .finishes => q = .finished
      | _ => ∃ loc, q = .user loc) :
    Serves t e q (fun _ => []) s (s.setPC t q) where
  pc := rfl
  numThreads := rfl
  queue w := ⟨s.queue w, rfl, by simp [hq]⟩
  ready := by simp [hready]
  after := hafter

theorem head?_toList_append_tail (l : List ThreadId) : l = l.head?.toList ++ l.tail := by
  cases l <;> rfl

theorem head?_toList_nodup (l : List ThreadId) : l.head?.toList.Nodup := by
  cases l <;> simp

theorem Lock.release_ready (t : ThreadId) (k : Lock) :
    (k.release t).1.Nodup ∧ ∀ t' ∈ (k.release t).1, t' ∈ k.queue.head?.toList := by
  unfold Lock.release
  split
  · exact ⟨head?_toList_nodup _, fun _ h => h⟩
  · exact ⟨List.nodup_nil, by simp⟩

theorem wait_serves (c : C) (k : L) (next : Loc) :
    Serves t (call t (.wait c k) next s).1 (.inWait c k next)
      (Function.update (fun _ => []) (.lock k) (s.lock k).queue.head?.toList) s
      (call t (.wait c k) next s).2 where
  pc := rfl
  numThreads := rfl
  queue w := by
    have hqueue : (call t (.wait c k) next s).2.queue =
        Function.update (Function.update s.queue (.lock k) (s.lock k).queue.tail) (.cond c)
          ((s.cond c).queue ++ [t]) := by
      simp [call, Lock.release_queue]
    by_cases hk : w = .lock k
    · subst hk
      exact ⟨(s.lock k).queue.tail, by simpa using head?_toList_append_tail (s.lock k).queue,
        by rw [hqueue]; simp [PC.waitsOn]⟩
    · refine ⟨s.queue w, by simp [hk], ?_⟩
      by_cases hc : w = .cond c
      · subst hc
        rw [hqueue, Function.update_self]
        simp [PC.waitsOn]
      · simp [hqueue, PC.waitsOn, hk, hc, Ne.symm hc]
  ready := ⟨(Lock.release_ready t _).1, fun t' ht' =>
    ⟨.lock k, by simpa using (Lock.release_ready t _).2 t' ht'⟩⟩
  after := ⟨_, rfl⟩

/-- The lock that a call releases. -/
def releases : Instr S L C Loc → Option L
  | .release k => some k
  | .wait _ k => some k
  | _ => none

theorem mem_of_mem_update {w w' : WaitQueue S L C} {o : List ThreadId} {t' : ThreadId}
    (h : t' ∈ Function.update (fun _ => []) w o w') : t' ∈ o := by
  by_cases hw : w' = w
  · simpa [hw] using h
  · simp [hw] at h

theorem Lock.release_of_holder {k : Lock} (h : k.holder = some t) :
    (k.release t).1 = k.queue.head?.toList := by
  simp [Lock.release, h]

/-- What a call other than `Fork` does. The threads it takes off a queue it makes ready, if it does
not release a lock of another thread. -/
theorem call_serves (hs : s.Queued) {i : Instr S L C Loc} (t : ThreadId) (next : Loc)
    (hi : ∀ start, i ≠ .fork start) :
    ∃ q out, Serves t (call t i next s).1 q out s (call t i next s).2 ∧
      ((∀ k, releases i = some k → (s.lock k).holder = some t) →
        ∀ w, ∀ t' ∈ out w, t' ∈ (call t i next s).1.ready) := by
  cases i with
  | P x =>
    by_cases h : (s.sem x).value = 0
    · simp only [call, testP_of_zero s t h]
      exact ⟨_, _, serves_sleep (.sem x) rfl rfl rfl (by simp), fun _ _ _ h => h⟩
    · simp only [call, testP_of_ne_zero s t h]
      exact ⟨_, _, serves_take (.sem x) [] _ rfl rfl rfl (by simp) (by simp) rfl,
        fun _ _ _ h => mem_of_mem_update h⟩
  | V x =>
    exact ⟨_, _, serves_take (.sem x) _ _ rfl rfl (head?_toList_append_tail _)
      (by simp [call, Semaphore.V]) ⟨head?_toList_nodup _, fun _ h => h⟩ rfl,
      fun _ _ _ h => mem_of_mem_update h⟩
  | acquire k =>
    cases h : (s.lock k).free with
    | true =>
      simp only [call, testAcquire_of_free s t h]
      exact ⟨_, _, serves_take (.lock k) [] _ rfl rfl rfl (by simp) (by simp) rfl,
        fun _ _ _ h => mem_of_mem_update h⟩
    | false =>
      simp only [call, testAcquire_of_not_free s t h]
      exact ⟨_, _, serves_sleep (.lock k) rfl rfl rfl (by simp), fun _ _ _ h => h⟩
  | release k =>
    refine ⟨_, _, serves_take (.lock k) _ _ rfl rfl (head?_toList_append_tail _)
      (by simp [call, Lock.release_queue]) (Lock.release_ready t _) rfl, fun hk w t' ht' => ?_⟩
    show t' ∈ ((s.lock k).release t).1
    rw [Lock.release_of_holder (hk k rfl)]
    exact mem_of_mem_update ht'
  | wait c k =>
    refine ⟨_, _, wait_serves c k next, fun hk w t' ht' => ?_⟩
    show t' ∈ ((s.lock k).release t).1
    rw [Lock.release_of_holder (hk k rfl)]
    exact mem_of_mem_update ht'
  | signal c k =>
    exact ⟨_, _, serves_take (.cond c) _ _ rfl rfl (head?_toList_append_tail _)
      (by simp [call, Condition.signal]) ⟨head?_toList_nodup _, fun _ h => h⟩ rfl,
      fun _ _ _ h => mem_of_mem_update h⟩
  | broadcast c k =>
    exact ⟨_, _, serves_take (.cond c) _ _ rfl rfl (List.append_nil _).symm
      (by simp [call, Condition.broadcast]) ⟨hs.nodup (.cond c), fun _ h => h⟩ rfl,
      fun _ _ _ h => mem_of_mem_update h⟩
  | fork start => exact absurd rfl (hi start)
  | yield => exact ⟨_, _, serves_stay rfl rfl ⟨next, rfl⟩, fun _ _ _ h => h⟩
  | setLevel now => exact ⟨_, _, serves_stay rfl rfl ⟨next, rfl⟩, fun _ _ _ h => h⟩
  | finish => exact ⟨_, _, serves_stay rfl rfl rfl, fun _ _ _ h => h⟩

theorem call_queued {i : Instr S L C Loc} {next : Loc} (hs : s.Queued) (hawake : s.asleep t = false)
    (hborn : s.pc t ≠ .finished) : (call t i next s).2.Queued := by
  by_cases hi : ∃ start, i = .fork start
  · obtain ⟨start, rfl⟩ := hi
    have hstay : Serves t ⟨[], .returns⟩ (.user next) (fun _ => []) s (s.setPC t (.user next)) :=
      serves_stay rfl rfl ⟨next, rfl⟩
    exact (hstay.queued hs hawake hborn).fork start
  · obtain ⟨q, out, h, -⟩ := call_serves hs t next fun start h => hi ⟨start, h⟩
    exact h.queued hs hawake hborn

theorem numThreads_le_of_step (hs : s.Queued) (h : s.step p t = some (e, u)) :
    s.numThreads ≤ u.numThreads := by
  obtain ⟨-, i, m, next, -, heq⟩ := step_eq_some h
  rw [show u = (call t i next { s with mem := m }).2 from congrArg Prod.snd heq]
  by_cases hi : ∃ start, i = .fork start
  · obtain ⟨start, rfl⟩ := hi
    exact Nat.le_succ _
  · obtain ⟨q, out, h, -⟩ := call_serves (hs.withMem m) t next fun start h => hi ⟨start, h⟩
    exact h.numThreads.ge

section

omit [DecidableEq S] [DecidableEq C]

@[simp] theorem testAcquire_mem (s : Core S L C σ Loc) (t : ThreadId) (k : L) (next : Loc) :
    (s.testAcquire t k next).2.mem = s.mem := by
  cases h : (s.lock k).free with
  | true => simp [testAcquire_of_free s t h]
  | false => simp [testAcquire_of_not_free s t h]

@[simp] theorem testAcquire_cond (s : Core S L C σ Loc) (t : ThreadId) (k : L) (next : Loc) :
    (s.testAcquire t k next).2.cond = s.cond := by
  cases h : (s.lock k).free with
  | true => simp [testAcquire_of_free s t h]
  | false => simp [testAcquire_of_not_free s t h]

@[simp] theorem testAcquire_sem (s : Core S L C σ Loc) (t : ThreadId) (k : L) (next : Loc) :
    (s.testAcquire t k next).2.sem = s.sem := by
  cases h : (s.lock k).free with
  | true => simp [testAcquire_of_free s t h]
  | false => simp [testAcquire_of_not_free s t h]

theorem testAcquire_pc (s : Core S L C σ Loc) (t : ThreadId) (k : L) (next : Loc) :
    (s.testAcquire t k next).2.pc = Function.update s.pc t (.user next) ∨
      (s.testAcquire t k next).2.pc = Function.update s.pc t (.inAcquire k next) := by
  cases h : (s.lock k).free with
  | true => simp [testAcquire_of_free s t h]
  | false => simp [testAcquire_of_not_free s t h]

end

omit [DecidableEq L] [DecidableEq C] in
@[simp] theorem testP_mem (s : Core S L C σ Loc) (t : ThreadId) (x : S) (next : Loc) :
    (s.testP t x next).2.mem = s.mem := by
  by_cases h : (s.sem x).value = 0
  · simp [testP_of_zero s t h]
  · simp [testP_of_ne_zero s t h]

/-- The code between two calls is all that changes the memory. -/
@[simp] theorem call_mem (i : Instr S L C Loc) (next : Loc) (s : Core S L C σ Loc) :
    (call t i next s).2.mem = s.mem := by
  cases i with
  | P x => exact testP_mem s t x next
  | acquire k => exact testAcquire_mem s t k next
  | V _ | release _ | wait _ _ | signal _ _ | broadcast _ _ | fork _ | yield | setLevel _ | finish =>
    rfl

/-- The threads that do not move are where they were, and a new one begins. -/
theorem call_pc (hs : s.Queued) (i : Instr S L C Loc) (next : Loc) {t' : ThreadId} (hne : t' ≠ t) :
    (call t i next s).2.pc t' = s.pc t' ∨ ∃ start, i = .fork start ∧ t' = s.numThreads ∧
      (call t i next s).2.pc t' = .user start := by
  by_cases hi : ∃ start, i = .fork start
  · obtain ⟨start, rfl⟩ := hi
    by_cases hnum : t' = s.numThreads
    · exact .inr ⟨start, rfl, hnum, by simp [call, hnum]⟩
    · exact .inl (by simp [call, hne, hnum])
  · obtain ⟨q, out, h, -⟩ := call_serves hs t next fun start h => hi ⟨start, h⟩
    exact .inl (by rw [h.pc, Function.update_of_ne hne])

/-- A thread that goes on after a `Sleep` ends its loop or sleeps again. -/
theorem after_of_resume (h : s.step p t = some (e, u)) (hpc : ∀ loc, s.pc t ≠ .user loc) :
    e.after = .returns ∨ e.after = .sleeps := by
  have htestP (x : S) (next : Loc) (v : Core S L C σ Loc) :
      (v.testP t x next).1.after = .returns ∨ (v.testP t x next).1.after = .sleeps := by
    by_cases h : (v.sem x).value = 0
    · simp [testP_of_zero v t h]
    · simp [testP_of_ne_zero v t h]
  have htest (k : L) (next : Loc) (v : Core S L C σ Loc) :
      (v.testAcquire t k next).1.after = .returns ∨ (v.testAcquire t k next).1.after = .sleeps := by
    cases h : (v.lock k).free with
    | true => simp [testAcquire_of_free v t h]
    | false => simp [testAcquire_of_not_free v t h]
  obtain ⟨-, i, m, next, hbegins, heq⟩ := step_eq_some h
  rw [show e = (call t i next { s with mem := m }).1 from congrArg Prod.fst heq]
  cases hbegins with
  | user hu _ => exact absurd hu (hpc _)
  | inP _ => exact htestP _ _ _
  | inAcquire _ => exact htest _ _ _
  | inWait _ => exact htest _ _ _

theorem step_queued (hs : s.Queued) (h : s.step p t = some (e, u)) : u.Queued := by
  obtain ⟨hawake, i, m, next, hbegins, heq⟩ := step_eq_some h
  rw [show u = (call t i next { s with mem := m }).2 from congrArg Prod.snd heq]
  exact call_queued (hs.withMem m) hawake hbegins.pc_ne_finished

theorem signalAll_queued (xs : List S) (hs : s.Queued) : (signalAll xs s).2.Queued := by
  induction xs generalizing s with
  | nil => exact hs
  | cons x xs ih =>
    have hsub : ∀ w, ((s.setSem x (s.sem x).V.2).queue w).Sublist (s.queue w) := fun w => by
      by_cases hw : w = .sem x
      · subst hw
        simpa [Semaphore.V] using List.tail_sublist _
      · simp [Function.update_of_ne hw]
    exact ih ⟨fun w t ht => hs.waits w t ((hsub w).subset ht), fun w => (hsub w).nodup (hs.nodup w),
      hs.unborn⟩

omit [DecidableEq L] [DecidableEq C] in
theorem interrupt_eq_some {ev : Ev} {ts : List ThreadId} (h : s.interrupt p ev = some (ts, u)) :
    ∃ m xs, p.handler ev s.mem = some (m, xs) ∧ (ts, u) = signalAll xs { s with mem := m } := by
  obtain ⟨⟨m, xs⟩, hh, hsig⟩ := Option.map_eq_some_iff.mp h
  exact ⟨m, xs, hh, hsig.symm⟩

theorem interrupt_queued {ev : Ev} {ts : List ThreadId} (hs : s.Queued)
    (h : s.interrupt p ev = some (ts, u)) : u.Queued := by
  obtain ⟨m, xs, -, heq⟩ := interrupt_eq_some h
  rw [show u = (signalAll xs { s with mem := m }).2 from congrArg Prod.snd heq]
  exact signalAll_queued xs (hs.withMem m)

/-- Every move of an interleaving keeps the queues. -/
theorem next_queued {v : Move Ev} (hs : s.Queued) (h : s.next p v = some u) : u.Queued := by
  cases v with
  | thread t =>
    obtain ⟨⟨e, u'⟩, hstep, rfl⟩ := Option.map_eq_some_iff.mp h
    exact step_queued hs hstep
  | interrupt e =>
    obtain ⟨⟨ts, u'⟩, hint, rfl⟩ := Option.map_eq_some_iff.mp h
    exact interrupt_queued hs hint

omit [DecidableEq S] [DecidableEq L] [DecidableEq C] in
theorem new_queued (initialValue : S → Int) (mem : σ) (main : Loc) :
    (new initialValue mem main : Core S L C σ Loc).Queued where
  waits w t ht := by cases w <;> cases ht
  nodup w := by cases w <;> exact List.nodup_nil
  unborn t ht := by
    have h0 : t ≠ 0 := fun h => absurd ht (by simp [new, h])
    simp [new, h0]

/-! ## Who is asleep after a step -/

/-- The call that `t` makes next from its own code. -/
def nextCall (p : Program S L C σ Loc Ev) (t : ThreadId) (s : Core S L C σ Loc) :
    Option (Instr S L C Loc) :=
  match s.pc t with
  | .user loc => (p.code t loc s.mem).map fun r => r.2.1
  | _ => none

/-- If the next call of `t` releases a lock, `t` is its holder. -/
def ReleasesAsHolder (p : Program S L C σ Loc Ev) (t : ThreadId) (s : Core S L C σ Loc) : Prop :=
  ((s.nextCall p t).bind releases).all fun k => (s.lock k).holder == some t

instance (p : Program S L C σ Loc Ev) (t : ThreadId) (s : Core S L C σ Loc) :
    Decidable (s.ReleasesAsHolder p t) := inferInstanceAs (Decidable (_ = true))

/-- The threads `ready` wake up, and the others but `t` stay as they are. -/
structure Wakes (t : ThreadId) (ready : List ThreadId) (s u : Core S L C σ Loc) : Prop where
  nodup : ready.Nodup
  woken : ∀ t' ∈ ready, t' ≠ t ∧ (s.asleep t' = true ∨ s.numThreads = t') ∧
    u.asleep t' = false ∧ u.pc t' ≠ .finished
  others : ∀ t', t' ≠ t → t' ∉ ready → u.pc t' = s.pc t' ∧ u.asleep t' = s.asleep t'

/-- Where a step leaves the thread that makes it. -/
def Leaves (t : ThreadId) (after : After) (u : Core S L C σ Loc) : Prop :=
  match after with
  | .sleeps => u.asleep t = true
  | .finishes => u.pc t = .finished
  | _ => u.asleep t = false ∧ u.pc t ≠ .finished

omit [DecidableEq S] [DecidableEq L] [DecidableEq C] in
theorem pc_ne_finished_of_asleep (h : s.asleep t = true) : s.pc t ≠ .finished := fun hpc => by
  simp [asleep, hpc, PC.waitsOn] at h

theorem Serves.asleep_iff (h : Serves t e q out s u) (hs : s.Queued) (hu : u.Queued) {t' : ThreadId}
    (hne : t' ≠ t) : u.asleep t' = true ↔ s.asleep t' = true ∧ ∀ w, t' ∉ out w := by
  rw [hu.asleep_iff, hs.asleep_iff]
  constructor
  · rintro ⟨w, hw⟩
    obtain ⟨hw, hout⟩ | ⟨rfl, -⟩ := (h.mem_queue hs).mp hw
    · refine ⟨⟨w, hw⟩, fun w' hw' => ?_⟩
      obtain ⟨rest, hold, -⟩ := h.queue w'
      have hmem : t' ∈ s.queue w' := hold ▸ List.mem_append_left _ hw'
      have heq : w' = w := Option.some.inj ((hs.waits w' t' hmem).symm.trans (hs.waits w t' hw))
      exact hout (heq ▸ hw')
    · exact absurd rfl hne
  · rintro ⟨⟨w, hw⟩, hout⟩
    exact ⟨w, (h.mem_queue hs).mpr (.inl ⟨hw, hout w⟩)⟩

theorem Serves.wakes (h : Serves t e q out s u) (hs : s.Queued) (hawake : s.asleep t = false)
    (hborn : s.pc t ≠ .finished) (hready : ∀ w, ∀ t' ∈ out w, t' ∈ e.ready) :
    Wakes t e.ready s u ∧ Leaves t e.after u := by
  have hu := h.queued hs hawake hborn
  have hpc {t' : ThreadId} (hne : t' ≠ t) : u.pc t' = s.pc t' := by
    rw [h.pc, Function.update_of_ne hne]
  refine ⟨⟨h.ready.1, fun t' ht' => ?_, fun t' hne ht' => ⟨hpc hne, ?_⟩⟩, ?_⟩
  · obtain ⟨w, hw⟩ := h.ready.2 t' ht'
    obtain ⟨rest, hold, -⟩ := h.queue w
    have hmem : t' ∈ s.queue w := hold ▸ List.mem_append_left _ hw
    have hne : t' ≠ t := ne_of_mem_of_not_mem hmem (hs.not_mem hawake w)
    have hasleep : s.asleep t' = true := hs.asleep_iff.mpr ⟨w, hmem⟩
    refine ⟨hne, .inl hasleep, ?_, hpc hne ▸ pc_ne_finished_of_asleep hasleep⟩
    exact Bool.eq_false_iff.mpr fun hu' => ((h.asleep_iff hs hu hne).mp hu').2 w hw
  · refine Bool.eq_iff_iff.mpr ((h.asleep_iff hs hu hne).trans ?_)
    exact ⟨And.left, fun ha => ⟨ha, fun w hw => ht' (hready w t' hw)⟩⟩
  · have hafter := h.after
    have hq : u.pc t = q := by rw [h.pc, Function.update_self]
    have huser (hloc : ∃ loc, q = .user loc) : u.asleep t = false ∧ u.pc t ≠ .finished := by
      obtain ⟨loc, rfl⟩ := hloc
      simp [asleep, hq, PC.waitsOn]
    cases heq : e.after with
    | sleeps =>
      rw [heq] at hafter
      obtain ⟨w, hw⟩ := hafter
      exact hu.asleep_iff.mpr ⟨w, (h.mem_queue hs).mpr (.inr ⟨rfl, hw⟩)⟩
    | finishes =>
      rw [heq] at hafter
      exact hq.trans hafter
    | returns => exact huser (by simpa [heq] using hafter)
    | yields => exact huser (by simpa [heq] using hafter)
    | setsLevel now => exact huser (by simpa [heq] using hafter)

theorem call_wakes {i : Instr S L C Loc} (next : Loc) (hs : s.Queued) (hawake : s.asleep t = false)
    (hborn : s.pc t ≠ .finished) (hk : ∀ k, releases i = some k → (s.lock k).holder = some t) :
    Wakes t (call t i next s).1.ready s (call t i next s).2 ∧
      Leaves t (call t i next s).1.after (call t i next s).2 := by
  by_cases hi : ∃ start, i = .fork start
  · obtain ⟨start, rfl⟩ := hi
    have hne : t ≠ s.numThreads := fun h => hborn (hs.unborn t h.ge)
    have hqueue : (call t (.fork start) next s).2.queue = s.queue := rfl
    have hpc : (call t (.fork start) next s).2.pc =
        Function.update (Function.update s.pc t (.user next)) s.numThreads (.user start) := rfl
    refine ⟨⟨List.nodup_singleton _, fun t' ht' => ?_, fun t' ht ht' => ?_⟩, ?_⟩
    · obtain rfl := List.mem_singleton.mp ht'
      exact ⟨hne.symm, .inr rfl, by simp [asleep, hpc, PC.waitsOn], by simp [hpc]⟩
    · have ht' : t' ≠ s.numThreads := fun h => ht' (List.mem_singleton.mpr h)
      simp [asleep, hpc, hqueue, ht, ht']
    · simp [Leaves, call, asleep, hne, PC.waitsOn]
  · obtain ⟨q, out, h, hout⟩ := call_serves hs t next fun start h => hi ⟨start, h⟩
    exact h.wakes hs hawake hborn (hout hk)

/-- What a step does, to the thread that makes it and to the others. -/
theorem step_wakes (hs : s.Queued) (hholder : s.ReleasesAsHolder p t)
    (h : s.step p t = some (e, u)) : Wakes t e.ready s u ∧ Leaves t e.after u := by
  obtain ⟨hawake, i, m, next, hbegins, heq⟩ := step_eq_some h
  obtain ⟨rfl, rfl⟩ := Prod.mk.inj heq
  have hk : ∀ k, releases i = some k → (s.lock k).holder = some t := fun k hk => by
    cases hbegins with
    | user hpc hcode => simpa [ReleasesAsHolder, nextCall, hpc, hcode, hk] using hholder
    | inP _ => cases hk
    | inAcquire _ => cases hk
    | inWait _ => cases hk
  obtain ⟨⟨h₁, h₂, h₃⟩, hleaves⟩ :=
    call_wakes next (hs.withMem m) hawake hbegins.pc_ne_finished hk
  exact ⟨⟨h₁, h₂, h₃⟩, hleaves⟩

/-- An interrupt wakes threads and does nothing else to them. -/
structure Interrupts (ready : List ThreadId) (s u : Core S L C σ Loc) : Prop where
  nodup : ready.Nodup
  pc : u.pc = s.pc
  numThreads : u.numThreads = s.numThreads
  woken : ∀ t ∈ ready, s.asleep t = true
  asleep : ∀ t, u.asleep t = true ↔ s.asleep t = true ∧ t ∉ ready

theorem V_interrupts (hs : s.Queued) (x : S) :
    Interrupts (s.sem x).V.1 s (s.setSem x (s.sem x).V.2) := by
  have hu : (s.setSem x (s.sem x).V.2).Queued := signalAll_queued [x] hs
  have hold : s.queue (.sem x) = (s.sem x).V.1 ++ (s.sem x).queue.tail :=
    head?_toList_append_tail _
  have hnodup := hold ▸ hs.nodup (.sem x)
  have hmem : ∀ t ∈ (s.sem x).V.1, t ∈ s.queue (.sem x) := fun t ht =>
    hold ▸ List.mem_append_left _ ht
  refine ⟨head?_toList_nodup _, rfl, rfl, fun t ht => hs.asleep_iff.mpr ⟨_, hmem t ht⟩, fun t => ?_⟩
  rw [hu.asleep_iff, hs.asleep_iff]
  constructor
  · rintro ⟨w, hw⟩
    by_cases hx : w = .sem x
    · subst hx
      have hw : t ∈ (s.sem x).queue.tail := by simpa [Semaphore.V] using hw
      exact ⟨⟨.sem x, List.mem_of_mem_tail hw⟩, fun ht => (List.nodup_append.mp hnodup).2.2 t ht t hw rfl⟩
    · have hw : t ∈ s.queue w := by simpa [hx] using hw
      refine ⟨⟨w, hw⟩, fun ht => hx ?_⟩
      exact Option.some.inj ((hs.waits w t hw).symm.trans (hs.waits _ t (hmem t ht)))
  · rintro ⟨⟨w, hw⟩, ht⟩
    refine ⟨w, ?_⟩
    by_cases hx : w = .sem x
    · subst hx
      rw [hold, List.mem_append] at hw
      simpa [Semaphore.V] using hw.resolve_left ht
    · simpa [hx] using hw

theorem signalAll_interrupts (xs : List S) (hs : s.Queued) :
    Interrupts (signalAll xs s).1 s (signalAll xs s).2 := by
  induction xs generalizing s with
  | nil => exact ⟨List.nodup_nil, rfl, rfl, by simp [signalAll], by simp [signalAll]⟩
  | cons x xs ih =>
    have hV := V_interrupts hs x
    have hI := ih (s := s.setSem x (s.sem x).V.2) (signalAll_queued [x] hs)
    refine ⟨?_, hI.pc.trans hV.pc, hI.numThreads.trans hV.numThreads, fun t ht => ?_, fun t => ?_⟩
    · refine List.nodup_append.mpr ⟨hV.nodup, hI.nodup, fun a ha b hb hab => ?_⟩
      exact ((hV.asleep a).mp (hab ▸ hI.woken b hb)).2 ha
    · obtain ht | ht := List.mem_append.mp ht
      · exact hV.woken t ht
      · exact ((hV.asleep t).mp (hI.woken t ht)).1
    · show (signalAll xs (s.setSem x (s.sem x).V.2)).2.asleep t = true ↔ _
      rw [hI.asleep t, hV.asleep t, and_assoc, ← not_or, ← List.mem_append]
      rfl

theorem interrupt_wakes {ev : Ev} {ts : List ThreadId} (hs : s.Queued)
    (h : s.interrupt p ev = some (ts, u)) : Interrupts ts s u := by
  obtain ⟨m, xs, -, heq⟩ := interrupt_eq_some h
  obtain ⟨rfl, rfl⟩ := Prod.mk.inj heq
  obtain ⟨h₁, h₂, h₃, h₄, h₅⟩ := signalAll_interrupts xs (hs.withMem m)
  exact ⟨h₁, h₂, h₃, h₄, h₅⟩

end Core

end Nachos.Threads
