import Nachos.Threads.Elevator

/-!
# When the elevator deadlocks (threads/elevator.cc)

`Manager` leaves its loop with `c` taken, when it finds that as many requests
were fulfilled as were made. Whoever calls `ArrivingGoingFromTo` after that
sleeps for ever, as in `not_elevator_deadlock_free`. That is the only deadlock
there is:

* `Live`: who is still to come, as `id`, `count` and the threads tell;
* `elevator_deadlock_free`: as long as `Manager` does not leave its loop before
  the last call of `ArrivingGoingFromTo` has got past `c->P()`, a thread that
  has not finished is awake.
-/

namespace Nachos.Threads.Elevator

open Nachos.Framework

variable {junk : Queue → Int → Int} {s u : Core Sem Unit Unit Building Loc} {t : ThreadId}
variable {b b' : Building} {loc : Loc} {x : Stage} {y z : Option Stage}

/-- Some thread has not finished, and all that have not are asleep. -/
def Deadlocked (s : Core Sem Unit Unit Building Loc) : Prop :=
  (∃ t, s.pc t ≠ .finished) ∧ ∀ t, s.pc t ≠ .finished → s.asleep t = true

/-- A call of `ArrivingGoingFromTo` has still to get past `c->P()`. -/
def Loc.calling : Loc → Bool
  | .caller a requests => match a with
    | .generateID _ _ => true
    | _ => !requests.isEmpty
  | _ => false

/-- If `Manager` is to leave its loop, the main thread has made all of its calls. -/
def LeavesLast : Move Empty → Core Sem Unit Unit Building Loc → Prop
  | .thread t, s => s.pc t = .user (.manager .test) → s.mem.id = s.mem.count →
    ∀ t' < s.numThreads, (s.pc t').place.any Loc.calling = false
  | .interrupt _, _ => True

instance (v : Move Empty) (s : Core Sem Unit Unit Building Loc) : Decidable (LeavesLast v s) :=
  match v with
  | .thread t => inferInstanceAs (Decidable (s.pc t = .user (.manager .test) →
      s.mem.id = s.mem.count → ∀ t' < s.numThreads, (s.pc t').place.any Loc.calling = false))
  | .interrupt _ => inferInstanceAs (Decidable True)

/-! ## The invariant -/

def Stage.isManager : Stage → Bool
  | .manages => true
  | _ => false

/-- The request has got its `id`, and is not counted yet. -/
def Stage.isPending : Stage → Bool
  | .forks _ _ | .waits _ _ | .stays _ | .enters _ | .leaves _ | .counts _ => true
  | _ => false

def Stage.isCalling : Stage → Bool
  | .setup n | .calls n | .forks _ n => n ≠ 0
  | _ => false

theorem Loc.stage_isCalling (loc : Loc) : loc.stage.isCalling = loc.calling := by
  cases loc with
  | caller a requests => cases a <;> cases requests <;> rfl
  | manager a => cases a <;> rfl
  | person p a => cases a <;> rfl

/-- Who is still to come. -/
structure Live (s : Core Sem Unit Unit Building Loc) : Prop where
  sound : Sound s
  c : s.Retried .c
  q : s.Retried .q
  manager : numAt Stage.isSetup s + numAt Stage.isManager s + s.mem.exits = 1
  pending : s.mem.id = s.mem.count + numAt Stage.isPending s
  closed : s.mem.exits ≠ 0 → numAt Stage.isPending s = 0 ∧ numAt Stage.isCalling s = 0

theorem Does.manager (h : Does t loc b x b' y z) :
    weight Stage.isSetup y + weight Stage.isSetup z + weight Stage.isManager y +
      weight Stage.isManager z + b'.exits = x.isSetup.toNat + x.isManager.toNat + b.exits := by
  cases h <;> simp [Stage.isSetup, Stage.isManager, Building.ride, Nat.add_comm]

theorem Does.pending (h : Does t loc b x b' y z) :
    b'.id - b'.count + (x.isPending.toNat : Int) = b.id - b.count +
      (weight Stage.isPending y : Int) + (weight Stage.isPending z : Int) := by
  cases h <;> simp [Stage.isPending, Building.ride] <;> omega

theorem Does.closed (h : Does t loc b x b' y z) (hpending : x.isPending = false)
    (hcalling : x.isCalling = false) :
    weight Stage.isPending y + weight Stage.isPending z = 0 ∧
      weight Stage.isCalling y + weight Stage.isCalling z = 0 := by
  cases h <;> simp_all [Stage.isPending, Stage.isCalling]

theorem Does.exits_cases (h : Does t loc b x b' y z) :
    b'.exits = b.exits ∨ (loc = .manager .test ∧ b.id = b.count) := by
  cases h <;> first | exact .inl rfl | exact .inr ⟨‹_›, ‹_›⟩

theorem Stepped.closed (hs : Live s) (h : Stepped t loc y z s u)
    (hlast : LeavesLast (.thread t) s) (hexits : u.mem.exits ≠ 0) :
    numAt Stage.isPending u = 0 ∧ numAt Stage.isCalling u = 0 := by
  -- also when the manager leaves its loop in this very step
  have hnone : numAt Stage.isPending s = 0 ∧ numAt Stage.isCalling s = 0 := by
    obtain hsame | ⟨rfl, hid⟩ := h.does.exits_cases
    · exact hs.closed (hsame ▸ hexits)
    · have hpending := hs.pending
      refine ⟨by omega, ?_⟩
      by_contra hne
      obtain ⟨t', loc', hplace, hcalling⟩ := Core.exists_of_countAt_pos (Nat.pos_of_ne_zero hne)
      have hlt := Core.lt_numThreads hs.sound.queued (t := t') fun hpc => by
        simp [hpc, PC.place] at hplace
      have hfalse := hlast h.pc hid t' hlt
      rw [hplace, Option.any_some, ← Loc.stage_isCalling, hcalling] at hfalse
      cases hfalse
  have hpending := h.num Stage.isPending
  have hcalling := h.num Stage.isCalling
  obtain ⟨hpending', hcalling'⟩ := h.does.closed (by
    by_contra hne
    exact (numAt_pos hs.sound.queued h.stage (by simpa using hne)).ne' hnone.1) (by
    by_contra hne
    exact (numAt_pos hs.sound.queued h.stage (by simpa using hne)).ne' hnone.2)
  omega

theorem next_live {v : Move Empty} (hs : Live s) (hlast : LeavesLast v s)
    (h : s.next (program junk) v = some u) : Live u := by
  have hretried {x : Sem} (hpos : 0 ≤ (s.sem x).value) (hle : (s.sem x).value ≤ 1)
      (hx : s.Retried x) : u.Retried x := by
    cases v with
    | interrupt e => exact e.elim
    | thread t =>
      obtain ⟨⟨e, u'⟩, hstep, rfl⟩ := Option.map_eq_some_iff.mp h
      exact Core.step_retried hs.sound.queued hpos hle hx hstep
  have hc := hretried hs.sound.c.permits hs.sound.c.permits_le_one hs.c
  have hq := hretried hs.sound.q.permits hs.sound.q.permits_le_one hs.q
  have hmanager := hs.manager
  have hpending := hs.pending
  obtain ⟨hmem, -, hnum, -⟩ | ⟨t, loc, y, z, rfl, hstep⟩ := next_stepped hs.sound h
  · refine ⟨next_sound hs.sound h, hc, hq, ?_, ?_, ?_⟩
    · rw [hmem, hnum, hnum]; exact hs.manager
    · rw [hmem, hnum]; exact hs.pending
    · rw [hmem, hnum, hnum]; exact hs.closed
  · refine ⟨next_sound hs.sound h, hc, hq, ?_, ?_, hstep.closed hs hlast⟩
    · have hdoes := hstep.does.manager
      have hsetup' := hstep.num Stage.isSetup
      have hmanager' := hstep.num Stage.isManager
      omega
    · have hdoes := hstep.does.pending
      have hpending' := hstep.num Stage.isPending
      omega

theorem start_live {numFloors : Int} (hfloors : 0 < numFloors) (requests : List (Int × Int)) :
    Live (start numFloors requests) := by
  have hnum (f : Stage → Bool) :
      numAt f (start numFloors requests) = (f (.setup requests.length)).toNat :=
    Core.new_totalAt _ _ _ _
  refine ⟨start_sound hfloors requests, fun _ h => absurd rfl h, fun _ h => absurd rfl h, ?_, ?_,
    fun h => absurd rfl h⟩
  · rw [hnum, hnum]; rfl
  · rw [hnum]; rfl

/-! ## Deadlocks -/

theorem Deadlocked.asleep (h : Deadlocked s) (hpc : s.pc t ≠ .finished) : s.asleep t = true := h.2 t hpc

theorem ne_finished_of_within {g : Guard Sem Unit} {inside : Loc → Bool}
    (h : (s.pc t).within g inside = true) : s.pc t ≠ .finished := fun hpc => by
  simp [hpc, PC.within, PC.place] at h

/-- In a deadlock nobody sleeps on a semaphore, as long as none of its permits is lost, and nobody
sleeps inside of its section. -/
theorem Deadlocked.sem_queue (h : Deadlocked s) {x : Sem} {inside : Loc → Bool} {lost : Building → Nat}
    (hguarded : Guarded (.sem x) inside lost s) (hretried : s.Retried x) (hlost : lost s.mem = 0)
    (hawake : ∀ t, (s.pc t).within (.sem x) inside = true → s.asleep t = false) :
    (s.sem x).queue = [] := by
  by_contra hqueue
  by_cases hone : (s.sem x).value = 1
  · obtain ⟨t, next, hpc, hnot⟩ := hretried hone hqueue
    have hasleep := h.asleep (t := t) (by simp [hpc])
    simp [Core.asleep, hpc, PC.waitsOn, hnot] at hasleep
  · obtain ⟨t, ht⟩ := hguarded.exists_within hone hlost
    have hasleep := h.asleep (ne_finished_of_within ht)
    simp [hawake t ht] at hasleep

theorem outside_of_insideC (h : insideC loc = true) : insideQ loc = false := by
  cases loc with
  | caller a _ => cases a <;> first | rfl | cases h
  | manager a => cases a <;> first | rfl | cases h
  | person _ a => cases a <;> first | rfl | cases h

theorem outside_of_entersQ (h : entersQ loc = true) : insideC loc = false := by
  cases loc with
  | caller a _ => cases a <;> first | rfl | cases h
  | manager a => cases a <;> first | rfl | cases h
  | person _ a => cases a <;> first | rfl | cases h

theorem outside_of_entersE (h : entersE loc = true) : insideQ loc = false ∧ insideC loc = false := by
  cases loc with
  | caller a _ => cases a <;> first | exact ⟨rfl, rfl⟩ | cases h
  | manager a => cases a <;> first | exact ⟨rfl, rfl⟩ | cases h
  | person _ a => cases a <;> first | exact ⟨rfl, rfl⟩ | cases h

/-- Nobody sleeps inside of the section of a semaphore, if no other call that sleeps is made
there. -/
theorem Sound.awake {x : Sem} {inside : Loc → Bool} (hs : Sound s)
    (hsem : ∀ x' next, x' ≠ x → At (.inP x' next) = true → inside next = false)
    (hlock : ∀ next, entersE next = true → inside next = false)
    (h : (s.pc t).within (.sem x) inside = true) : s.asleep t = false := by
  have hat := hs.at_ t
  cases hpc : s.pc t with
  | user _ | finished => simp [Core.asleep, hpc, PC.waitsOn]
  | inP x' next =>
    rw [hpc] at hat h
    by_cases hx : x' = x
    · simp [PC.within, PC.takes, hx] at h
    · simp [PC.within, PC.place, hsem x' next hx hat] at h
  | inAcquire k next =>
    rw [hpc] at hat h
    simp [PC.within, PC.place, hlock next hat] at h
  | inWait _ k next =>
    rw [hpc] at hat h
    simp [PC.within, PC.place, hlock next (entersE_of_wakesUp hat)] at h

/-- Nobody sleeps between `q->P()` and `q->V()`. -/
theorem Sound.awake_q (hs : Sound s) (h : (s.pc t).within (.sem .q) insideQ = true) :
    s.asleep t = false := by
  refine hs.awake (fun x next hne hat => ?_) (fun _ h => (outside_of_entersE h).1) h
  cases x with
  | c => exact outside_of_insideC hat
  | q => exact absurd rfl hne

/-- Nobody sleeps between `c->P()` and `c->V()`. -/
theorem Sound.awake_c (hs : Sound s) (h : (s.pc t).within (.sem .c) insideC = true) :
    s.asleep t = false := by
  refine hs.awake (fun x next hne hat => ?_) (fun _ h => (outside_of_entersE h).2) h
  cases x with
  | c => exact absurd rfl hne
  | q => exact outside_of_entersQ hat

theorem stage_of_insideC (h : insideC loc = true) : loc.stage.isCalling = true ∨
    loc.stage.isManager = true ∨ loc.stage.isPending = true := by
  cases loc with
  | caller a _ => cases a <;> first | exact .inl rfl | cases h
  | manager a => cases a <;> first | exact .inr (.inl rfl) | cases h
  | person _ a => cases a <;> first | exact .inr (.inr rfl) | cases h

/-- After the manager has left its loop nobody comes to `c->P()` any more. -/
theorem Live.c_queue (hs : Live s) (hexits : s.mem.exits ≠ 0) : (s.sem .c).queue = [] := by
  by_contra hqueue
  obtain ⟨t, ht⟩ := List.exists_mem_of_ne_nil _ hqueue
  obtain ⟨next, hpc⟩ := Core.pc_of_mem_sem_queue hs.sound.queued ht
  have hat : At (s.pc t) = true := hs.sound.at_ t
  rw [hpc] at hat
  have hstage : stageOf s t = some next.stage := by rw [stageOf, hpc]; rfl
  obtain ⟨hpending, hcalling⟩ := hs.closed hexits
  have hmanager := hs.manager
  obtain h | h | h := stage_of_insideC hat
  · exact (numAt_pos hs.sound.queued hstage h).ne' hcalling
  · have := numAt_pos hs.sound.queued hstage h
    omega
  · exact (numAt_pos hs.sound.queued hstage h).ne' hpending

/-- Where the threads sleep in a deadlock. -/
theorem Deadlocked.inWait (h : Deadlocked s) (hs : Live s) (hpc : s.pc t ≠ .finished) :
    ∃ next, s.pc t = .inWait () () next ∧ wakesUp next = true := by
  have hq : (s.sem .q).queue = [] :=
    h.sem_queue hs.sound.q hs.q rfl fun t => hs.sound.awake_q
  have hc : (s.sem .c).queue = [] := by
    by_cases hexits : s.mem.exits = 0
    · exact h.sem_queue hs.sound.c hs.c hexits fun t => hs.sound.awake_c
    · exact hs.c_queue hexits
  have hsem (x : Sem) : (s.sem x).queue = [] := by cases x <;> assumption
  have he : (s.lock ()).queue = [] := by
    by_contra hqueue
    cases hfree : (s.lock ()).free with
    | true =>
      obtain ⟨t, next, hpc, hnot⟩ := hs.sound.synchronized.retested () hfree hqueue
      have hasleep := h.asleep (t := t) (by simp [hpc])
      simp [Core.asleep, hpc, PC.waitsOn, hnot] at hasleep
    | false =>
      obtain ⟨t, ht⟩ := hs.sound.e.exists_within (by simp [hfree]) rfl
      have hasleep := h.asleep (ne_finished_of_within ht)
      cases hpc : s.pc t with
      | inP x next => simp [Core.asleep, hpc, PC.waitsOn, hsem] at hasleep
      | inAcquire k next => simp [hpc, PC.within, PC.takes] at ht
      | inWait x k next => simp [hpc, PC.within, PC.takes] at ht
      | user _ | finished => simp [Core.asleep, hpc, PC.waitsOn] at hasleep
  have hasleep := h.asleep hpc
  have hat := hs.sound.at_ t
  cases hpc : s.pc t with
  | inP x next => simp [Core.asleep, hpc, PC.waitsOn, hsem] at hasleep
  | inAcquire k next => simp [Core.asleep, hpc, PC.waitsOn, he] at hasleep
  | user _ | finished => simp [Core.asleep, hpc, PC.waitsOn] at hasleep
  | inWait x k next =>
    rw [hpc] at hat
    exact ⟨next, rfl, hat⟩

theorem stage_of_wakesUp (h : wakesUp loc = true) : loc.stage.isPending = true ∧
    loc.stage.isSetup = false ∧ loc.stage.isManager = false := by
  unfold wakesUp at h
  split at h
  · exact ⟨rfl, rfl, rfl⟩
  · cases h

/-- People who wait have not been counted, so that the manager has not left its loop, and is not
waiting with them. -/
theorem Live.not_deadlocked (hs : Live s) : ¬ Deadlocked s := by
  intro h
  have hstage {t : ThreadId} {x : Stage} (hx : stageOf s t = some x) : x.isPending = true ∧
      x.isSetup = false ∧ x.isManager = false := by
    obtain ⟨loc, hplace, rfl⟩ := Option.map_eq_some_iff.mp hx
    have hpc : s.pc t ≠ .finished := fun hpc => by simp [hpc, PC.place] at hplace
    obtain ⟨next, hpc, hwakes⟩ := h.inWait hs hpc
    rw [hpc] at hplace
    obtain rfl := Option.some.inj hplace
    exact stage_of_wakesUp hwakes
  have hnone {f : Stage → Bool} (hf : ∀ t x, stageOf s t = some x → f x = false) : numAt f s = 0 := by
    by_contra hne
    obtain ⟨t, x, hx, hf'⟩ := exists_of_numAt_pos (Nat.pos_of_ne_zero hne)
    rw [hf t x hx] at hf'
    cases hf'
  obtain ⟨t, ht⟩ := h.1
  obtain ⟨next, hpc, hwakes⟩ := h.inWait hs ht
  have hpending := numAt_pos hs.sound.queued (s := s) (t := t) (x := next.stage)
    (by rw [stageOf, hpc]; rfl) (stage_of_wakesUp hwakes).1
  have hexits : s.mem.exits = 0 := by
    by_contra hexits
    exact hpending.ne' (hs.closed hexits).1
  have hmanager := hs.manager
  rw [hnone fun t x hx => (hstage hx).2.1, hnone fun t x hx => (hstage hx).2.2, hexits] at hmanager
  cases hmanager

/-! ## The result -/

/-- In every interleaving in which `Manager` leaves its loop only when the last call of
`ArrivingGoingFromTo` has got past `c->P()`: as long as some thread has not finished, some thread is
awake. -/
theorem elevator_deadlock_free {numFloors : Int} {requests : List (Int × Int)}
    {ms : List (Move Empty)} (hfloors : 0 < numFloors)
    (hlast : Along (Core.next (program junk)) LeavesLast ms (start numFloors requests))
    (h : run (Core.next (program junk)) ms (start numFloors requests) = some s) :
    ¬ Deadlocked s := by
  have hs : Live s := run_invariant_along (fun _ _ _ hs hlast hstep => next_live hs hlast hstep)
    (start_live hfloors requests) hlast h
  exact hs.not_deadlocked

/-- Somebody goes from floor 1 to floor 2, and the manager leaves its loop after that. -/
theorem elevator_deadlock_free_ride :
    Along (Core.next (program fun _ _ => 0)) LeavesLast (ride.take 68) (start 2 [(1, 2)]) ∧
    ∃ s, run (Core.next (program fun _ _ => 0)) (ride.take 68) (start 2 [(1, 2)]) = some s ∧
      s.pc 1 = .user (.manager .exited) ∧ ¬ Deadlocked s := by
  have halong : Along (Core.next (program fun _ _ => 0)) LeavesLast (ride.take 68)
      (start 2 [(1, 2)]) := by
    decide +kernel
  have heval : ((run (Core.next (program fun _ _ => 0)) (ride.take 68) (start 2 [(1, 2)])).any
      fun s => s.pc 1 = .user (.manager .exited)) = true := by
    decide +kernel
  obtain ⟨s, hs, hpc⟩ := (Option.any_eq_true _ _).mp heval
  exact ⟨halong, s, hs, of_decide_eq_true hpc, elevator_deadlock_free (by decide) halong hs⟩

/-- The manager runs before the main thread calls `ArrivingGoingFromTo`, finds `id` and `count` both
0, and leaves its loop with `c` taken, on which the main thread then sleeps. -/
theorem not_elevator_deadlock_free : ∃ s, run (Core.next (program fun _ _ => 0))
    ((List.replicate 5 0 ++ List.replicate 9 1 ++ [0]).map .thread) (start 2 [(1, 2)]) = some s ∧
    Deadlocked s := by
  have heval : ((run (Core.next (program fun _ _ => 0))
      ((List.replicate 5 0 ++ List.replicate 9 1 ++ [0]).map .thread) (start 2 [(1, 2)])).any fun s =>
        s.numThreads = 2 ∧ s.pc 0 = .inP .c (.caller (.generateID 1 2) []) ∧
          s.asleep 0 = true ∧ s.pc 1 = .finished) = true := by
    decide +kernel
  obtain ⟨s, hs, hstate⟩ := (Option.any_eq_true _ _).mp heval
  obtain ⟨hnum, hpc, hasleep, hfinished⟩ := of_decide_eq_true hstate
  have hsound : Sound s := run_invariant (fun _ _ _ hs hstep => next_sound hs hstep)
    (start_sound (by decide) _) hs
  refine ⟨s, hs, ⟨0, by simp [hpc]⟩, fun t ht => ?_⟩
  have hlt := Core.lt_numThreads hsound.queued ht
  rw [hnum] at hlt
  obtain rfl | rfl := Nat.le_one_iff_eq_zero_or_eq_one.mp (Nat.le_of_lt_succ hlt)
  · exact hasleep
  · exact absurd hfinished ht

end Nachos.Threads.Elevator
