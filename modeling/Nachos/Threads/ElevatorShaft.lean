import Nachos.Threads.ElevatorCounters

/-!
# The elevator stays in the building (threads/elevator.cc)

In a building with two or more floors the manager turns at both ends. With one floor, floor 1 is
the ground floor only, and the manager goes up from it.

* `Loc.Inside`: where the elevator is, in a building of any height;
* `Loc.Asks`: the floors that the main thread and the people have are floors of the building;
* `next_inShaft`: a step, unless the manager begins a second round with one floor;
* `elevator_in_shaft`: every run of such steps.
-/

namespace Nachos.Threads.Elevator

open Nachos.Framework

variable {junk : Queue → Int → Int} {s u : Core Sem Unit Unit Building Loc} {t : ThreadId}
variable {b b' : Building} {loc next : Loc} {i : Instr Sem Unit Unit Loc} {numFloors : Int}

/-- A floor of the building. -/
def IsFloor (numFloors floor : Int) : Prop := 1 ≤ floor ∧ floor ≤ numFloors

instance (numFloors floor : Int) : Decidable (IsFloor numFloors floor) :=
  inferInstanceAs (Decidable (_ ∧ _))

/-! ## Where the elevator is -/

/-- `ManagerHelper` has been called; with two floors or more, for a way that does not lead out. -/
structure Building.Serves (numFloors : Int) (inQueue outQueue : Queue) (b : Building) : Prop where
  onFloor : b.OnFloor numFloors
  helps : 2 ≤ numFloors → b.Helps numFloors inQueue outQueue

def Manager.Inside (numFloors : Int) : Manager → Building → Prop
  | .start, b | .started, b | .loop, b => b.OnFloor numFloors
  | .look i o, b => b.Serves numFloors i o
  | .looked i o floor _, b | .doors i o floor _, b | .locked i o floor, b | .lookAgain i o floor, b
  | .broadcasted i o floor _, b | .unlock i o floor _, b | .yielding i o floor _, b =>
    b.Serves numFloors i o ∧ floor = b.currentFloor
  | .move, b => ∃ i o, b.Serves numFloors i o
  | .test, b => 2 ≤ numFloors → b.OnFloor numFloors
  | .exited, _ => True

def Loc.Inside (numFloors : Int) : Loc → Building → Prop
  | .caller a requests, b => (Loc.caller a requests).Stands numFloors b
  | .manager a, b => a.Inside numFloors b
  | .person _ _, _ => True

theorem Building.Serves.frame {inQueue outQueue : Queue} (h : b.Serves numFloors inQueue outQueue)
    (hsame : b.StaysPut b') : b'.Serves numFloors inQueue outQueue :=
  ⟨h.onFloor.frame hsame, fun htwo => (h.helps htwo).frame hsame⟩

theorem inside_steering : Steering (Loc.Inside numFloors) where
  frame := by
    intro loc b b' h hsame
    cases loc with
    | caller a requests =>
      have h : (Loc.caller a requests).Stands numFloors b := h
      exact h.frame hsame
    | manager a =>
      cases a with
      | start | started | loop => exact Building.OnFloor.frame h hsame
      | look _ _ => exact Building.Serves.frame h hsame
      | move =>
        obtain ⟨i, o, h⟩ := h
        exact ⟨i, o, h.frame hsame⟩
      | test => exact fun htwo => (h htwo).frame hsame
      | exited => trivial
      | _ => exact ⟨h.1.frame hsame, h.2.trans hsame.currentFloor.symm⟩
    | person p a => trivial
  idle := by
    intro loc hsteers b
    cases loc with
    | caller a requests => exact .of_not_steers hsteers b
    | manager a =>
      cases a with
      | exited => trivial
      | _ => cases hsteers
    | person p a => trivial

theorem direction_onFloor (h : b.OnFloor numFloors) : (direction b).1.OnFloor numFloors := by
  obtain heq | ⟨movingUp, heq⟩ := direction_cases b
  · rw [heq]
    exact h
  · rw [heq]
    exact ⟨h.floors, h.ge, h.le, h.size⟩

/-- The manager, if it leaves its loop after one round in a building with one floor. -/
theorem manager_inside {a : Manager} (hround : a = .test → 2 ≤ numFloors ∨ b.id = b.count)
    (h : managerCode b a = some (b', i, next)) (hinside : a.Inside numFloors b) :
    next.Inside numFloors b' ∧ Core.forked i = none := by
  cases a with
  | start | started => cases h; exact ⟨hinside, rfl⟩
  | loop =>
    cases h
    exact ⟨⟨direction_onFloor hinside, fun htwo => direction_helps htwo hinside⟩, rfl⟩
  | look i o =>
    obtain ⟨w, -, heq⟩ := Option.map_eq_some_iff.mp h
    cases heq; exact ⟨⟨hinside, rfl⟩, rfl⟩
  | lookAgain i o floor =>
    obtain ⟨w, -, heq⟩ := Option.map_eq_some_iff.mp h
    cases heq; exact ⟨hinside, rfl⟩
  | doors i o floor w =>
    cases w with
    | true => cases h; exact ⟨hinside, rfl⟩
    | false => cases h; exact ⟨⟨i, o, hinside.1⟩, rfl⟩
  | looked _ _ _ _ | locked _ _ _ | broadcasted _ _ _ _ | unlock _ _ _ _ | yielding _ _ _ _ =>
    cases h; exact ⟨hinside, rfl⟩
  | move =>
    cases h
    obtain ⟨i, o, hserves⟩ := hinside
    exact ⟨fun htwo => (hserves.helps htwo).moves, rfl⟩
  | test =>
    rw [managerCode] at h
    split at h
    next => cases h; exact ⟨trivial, rfl⟩
    next hne =>
      cases h
      obtain htwo | heq := hround rfl
      · exact ⟨hinside htwo, rfl⟩
      · exact absurd heq hne
  | exited => cases h; exact ⟨trivial, rfl⟩

theorem caller_inside {a : Caller} {requests : List (Int × Int)}
    (hcode : callerCode junk requests b a = (b', i, next)) (h : next.Stands numFloors b' ∧
      ∀ start, Core.forked i = some start → start.Stands numFloors b') :
    next.Inside numFloors b' ∧ ∀ start, Core.forked i = some start → start.Inside numFloors b' := by
  have harriving (hcode : arrivingGoingFromTo requests b = (b', i, next)) :
      next.Inside numFloors b' ∧ ∀ start, Core.forked i = some start → start.Inside numFloors b' := by
    cases requests <;> (cases hcode; exact ⟨trivial, fun _ h => by cases h⟩)
  cases a with
  | elevator n =>
    simp only [callerCode] at hcode
    split at hcode
    next => exact harriving hcode
    next => cases hcode; exact ⟨h.1, fun _ h => by cases h⟩
  | arriving => exact harriving hcode
  | forkManager => cases hcode; exact ⟨h.1, fun _ hi => by cases hi; exact h.2 _ rfl⟩
  | forkPerson p => cases hcode; exact ⟨h.1, fun _ hi => by cases hi; trivial⟩
  | _ => cases hcode; exact ⟨h.1, fun _ h => by cases h⟩

theorem code_inside (hfloors : 0 < numFloors)
    (hround : loc = .manager .test → 2 ≤ numFloors ∨ b.id = b.count)
    (h : (program junk).code t loc b = some (b', i, next)) (hinside : loc.Inside numFloors b) :
    next.Inside numFloors b' ∧ ∀ start, Core.forked i = some start → start.Inside numFloors b' := by
  cases loc with
  | caller a requests =>
    have hcode := Option.some.inj h
    exact caller_inside hcode (caller_stands hfloors hcode hinside)
  | manager a =>
    obtain ⟨hnext, hforked⟩ := manager_inside (fun ha => hround (by rw [ha])) h hinside
    exact ⟨hnext, fun _ h => by rw [hforked] at h; cases h⟩
  | person p a =>
    obtain ⟨⟨a', rfl⟩, hforked, -⟩ := person_next h
    exact ⟨trivial, fun _ h => by rw [hforked] at h; cases h⟩

/-! ## What the people ask for -/

def PersonThread.Asks (numFloors : Int) (p : PersonThread) : Prop :=
  IsFloor numFloors p.atFloor ∧ IsFloor numFloors p.toFloor

def Loc.Asks (numFloors : Int) : Loc → Prop
  | .caller a requests =>
    (∀ r ∈ requests, IsFloor numFloors r.1 ∧ IsFloor numFloors r.2) ∧ match a with
      | .generateID atFloor toFloor => IsFloor numFloors atFloor ∧ IsFloor numFloors toFloor
      | .forkPerson p => p.Asks numFloors
      | _ => True
  | .manager _ => True
  | .person p _ => p.Asks numFloors

theorem code_asks (h : (program junk).code t loc b = some (b', i, next)) (hasks : loc.Asks numFloors) :
    next.Asks numFloors ∧ ∀ start, i = .fork start → start.Asks numFloors := by
  cases loc with
  | caller a requests =>
    have h := Option.some.inj h
    obtain ⟨hrequests, ha⟩ := hasks
    have harriving (h : arrivingGoingFromTo requests b = (b', i, next)) :
        next.Asks numFloors ∧ ∀ start, i = .fork start → start.Asks numFloors := by
      cases requests with
      | nil => cases h; exact ⟨⟨hrequests, trivial⟩, fun _ h => by cases h⟩
      | cons r rest =>
        cases h
        exact ⟨⟨fun r' hr' => hrequests r' (List.mem_cons_of_mem r hr'),
          hrequests r List.mem_cons_self⟩, fun _ h => by cases h⟩
    cases a with
    | elevator n =>
      simp only [callerCode] at h
      split at h
      next => exact harriving h
      next => cases h; exact ⟨⟨hrequests, trivial⟩, fun _ h => by cases h⟩
    | arriving => exact harriving h
    | generateID atFloor toFloor => cases h; exact ⟨⟨hrequests, ha⟩, fun _ h => by cases h⟩
    | forkPerson p => cases h; exact ⟨⟨hrequests, trivial⟩, fun _ h => by cases h; exact ha⟩
    | forkManager => cases h; exact ⟨⟨hrequests, trivial⟩, fun _ h => by cases h; trivial⟩
    | _ => cases h; exact ⟨⟨hrequests, trivial⟩, fun _ h => by cases h⟩
  | manager a =>
    have hnext : ∃ a', next = .manager a' ∧ Core.forked i = none := by
      cases a with
      | look _ _ | lookAgain _ _ _ =>
        obtain ⟨w, -, heq⟩ := Option.map_eq_some_iff.mp h
        cases heq; exact ⟨_, rfl, rfl⟩
      | doors _ _ _ w => cases w <;> (cases h; exact ⟨_, rfl, rfl⟩)
      | test =>
        simp only [program, managerCode] at h
        split at h <;> (cases h; exact ⟨_, rfl, rfl⟩)
      | _ => cases h; exact ⟨_, rfl, rfl⟩
    obtain ⟨a', rfl, hforked⟩ := hnext
    exact ⟨trivial, fun start hi => by rw [hi] at hforked; cases hforked⟩
  | person p a =>
    obtain ⟨⟨a', rfl⟩, hforked, -⟩ := person_next h
    exact ⟨hasks, fun start hi => by rw [hi] at hforked; cases hforked⟩

/-- The arrays are allocated by `Elevator` only. -/
theorem code_size (h : (program junk).code t loc b = some (b', i, next))
    (hsetup : loc.stage.isSetup = false) : b'.size = b.size := by
  cases hsteers : loc.stage.steers with
  | false => exact (code_steers h hsteers).size
  | true =>
    cases loc with
    | caller a requests =>
      cases a with
      | arriving | generateID _ _ | forkPerson _ => cases hsteers
      | _ => cases hsetup
    | manager a =>
      cases a with
      | loop =>
        cases h
        obtain heq | ⟨movingUp, heq⟩ := direction_cases b <;> rw [heq]
      | look _ _ | lookAgain _ _ _ =>
        obtain ⟨w, -, heq⟩ := Option.map_eq_some_iff.mp h
        cases heq; rfl
      | doors _ _ _ w => cases w <;> (cases h; rfl)
      | test =>
        simp only [program, managerCode] at h
        split at h <;> (cases h; rfl)
      | _ => cases h; rfl
    | person p a => cases a <;> cases hsteers

/-! ## Runs -/

structure InShaft (numFloors : Int) (s : Core Sem Unit Unit Building Loc) : Prop where
  invariant : Invariant s
  steering : numAt Stage.steers s ≤ 1
  inside : ∀ t loc, (s.pc t).place = some loc → loc.Inside numFloors s.mem
  built : numAt Stage.isSetup s = 0 → s.mem.size = numFloors + 1
  asks : ∀ t loc, (s.pc t).place = some loc → loc.Asks numFloors

/-- The manager does not begin a second round in a building with one floor. -/
def LeavesInTime (numFloors : Int) : Move Empty → Core Sem Unit Unit Building Loc → Prop
  | .thread t, s => s.pc t = .user (.manager .test) → 2 ≤ numFloors ∨ s.mem.id = s.mem.count
  | .interrupt _, _ => True

instance (numFloors : Int) : ∀ v s, Decidable (LeavesInTime numFloors v s)
  | .thread _, _ => inferInstanceAs (Decidable (_ → _))
  | .interrupt _, _ => isTrue trivial

/-- When the main thread leaves `Elevator`, the arrays are there. -/
theorem InShaft.built_moves (hfloors : 0 < numFloors) (hs : InShaft numFloors s)
    (hcode : (program junk).code t loc s.mem = some (u.mem, i, next))
    (hmoves : Core.Moves t loc i next s u) (hnone : numAt Stage.isSetup u = 0) :
    u.mem.size = numFloors + 1 := by
  have hplace : (s.pc t).place = some loc := by rw [hmoves.pc]; rfl
  have htotal := hmoves.total fun loc => (loc.stage.isSetup).toNat
  change numAt Stage.isSetup u + _ = numAt Stage.isSetup s + _ + _ at htotal
  cases hsetup : loc.stage.isSetup with
  | false =>
    rw [code_size hcode hsetup]
    apply hs.built
    rw [hsetup, Bool.toNat_false] at htotal
    omega
  | true =>
    have hpos : 0 < numAt Stage.isSetup s :=
      numAt_pos hs.invariant.sound.queued (x := loc.stage) (by rw [stageOf, hplace]; rfl) hsetup
    have hinside := hs.inside t loc hplace
    rw [hsetup, Bool.toNat_true] at htotal
    cases loc with
    | manager a => cases a <;> cases hsetup
    | person p a => cases a <;> cases hsetup
    | caller a requests =>
      have hcode := Option.some.inj hcode
      -- it has to be the fork of the manager
      have hnext : i.goesOn = true → next.stage.isSetup = false := by
        intro hgoes
        rw [if_pos hgoes] at htotal
        cases hn : next.stage.isSetup with
        | false => rfl
        | true =>
          rw [hn, Bool.toNat_true] at htotal
          omega
      cases a with
      | elevator n =>
        have hn : n = numFloors := hinside
        simp only [callerCode, if_neg (show ¬ n ≤ 0 by omega)] at hcode
        have hrest := congrArg Prod.snd hcode
        cases hrest
        cases hnext rfl
      | acquired _ | released _ | allocate _ =>
        have hrest := congrArg Prod.snd hcode
        cases hrest
        cases hnext rfl
      | forkManager =>
        have hfloor : s.mem.OnFloor numFloors := hinside
        have hmem : s.mem = u.mem := congrArg Prod.fst hcode
        rw [← hmem]
        exact hfloor.size
      | arriving | generateID _ _ | forkPerson _ => cases hsetup

theorem next_inShaft {v : Move Empty} (hfloors : 0 < numFloors) (hs : InShaft numFloors s)
    (hround : LeavesInTime numFloors v s) (h : s.next (program junk) v = some u) :
    InShaft numFloors u := by
  have hinvariant := next_invariant hs.invariant h
  have hsteering := next_steering hs.invariant.sound hs.steering h
  cases v with
  | interrupt e => exact e.elim
  | thread t =>
    obtain ⟨⟨e, u'⟩, hstep, rfl⟩ := Option.map_eq_some_iff.mp h
    obtain ⟨hmem, hplace, htotal⟩ | ⟨loc, b, i, next, hcode, rfl, hmoves⟩ :=
      Core.step_moves hs.invariant.sound.queued hstep
    · refine ⟨hinvariant, hsteering, fun t' loc h => ?_, fun hnone => ?_, fun t' loc h => ?_⟩
      · rw [hmem]
        exact hs.inside t' loc (hplace t' ▸ h)
      · rw [hmem]
        apply hs.built
        rw [← hnone]
        exact (htotal _).symm
      · exact hs.asks t' loc (hplace t' ▸ h)
    · have hplace : (s.pc t).place = some loc := by rw [hmoves.pc]; rfl
      obtain ⟨hnext, hforks⟩ := code_asks hcode (hs.asks t loc hplace)
      refine ⟨hinvariant, hsteering, fun t' loc' h' => ?_, hs.built_moves hfloors hcode hmoves,
        hmoves.forall_place hs.asks hnext hforks⟩
      refine inside_steering.moves hs.invariant.sound.queued hs.steering hs.inside hcode
        (code_inside hfloors (fun hloc => hround ?_) hcode (hs.inside t loc hplace)) hmoves h'
      rw [hmoves.pc, hloc]

theorem start_inShaft (hfloors : 0 < numFloors) {requests : List (Int × Int)}
    (hrequests : ∀ r ∈ requests, IsFloor numFloors r.1 ∧ IsFloor numFloors r.2) :
    InShaft numFloors (start numFloors requests) := by
  have honly : ∀ t loc, ((start numFloors requests).pc t).place = some loc →
      loc = .caller (.elevator numFloors) requests := by
    intro t loc h
    by_cases ht : t = 0
    · subst ht
      exact (Option.some.inj h).symm
    · simp [start, Core.new, ht, PC.place] at h
  refine ⟨start_invariant hfloors requests, (Core.new_totalAt _ _ _ _).le, fun t loc h => ?_,
    fun hnone => ?_, fun t loc h => ?_⟩
  · rw [honly t loc h]
    exact rfl
  · have hone : numAt Stage.isSetup (start numFloors requests) = 1 := Core.new_totalAt _ _ _ _
    omega
  · rw [honly t loc h]
    exact ⟨hrequests, trivial⟩

/-! ## The elements of the arrays -/

theorem Building.read_isSome {k : Queue} {floor : Int} (hsize : b.size = numFloors + 1)
    (hfloor : IsFloor numFloors floor) : (b.read k floor).isSome = true := by
  obtain ⟨hge, hle⟩ := hfloor
  unfold Building.read
  rw [if_pos (by omega)]
  rfl

theorem Building.add_isSome {k : Queue} {floor d : Int} (hsize : b.size = numFloors + 1)
    (hfloor : IsFloor numFloors floor) :
    ∃ b', b.add k floor d = some b' ∧ b'.size = numFloors + 1 := by
  obtain ⟨v, hv⟩ := Option.isSome_iff_exists.mp (b.read_isSome (k := k) hsize hfloor)
  refine ⟨{ b with queue := Function.update b.queue k (Function.update (b.queue k) floor (v + d)) },
    ?_, hsize⟩
  rw [Building.add, hv]
  rfl

theorem manager_isSome {a : Manager} (h : a.Inside numFloors b) : (managerCode b a).isSome = true := by
  cases a with
  | look i o =>
    rw [managerCode, h.onFloor.wanted_eq]
    rfl
  | lookAgain i o floor =>
    rw [managerCode, h.2, h.1.onFloor.wanted_eq]
    rfl
  | doors i o floor w => cases w <;> rfl
  | test =>
    rw [managerCode]
    split <;> rfl
  | _ => rfl

theorem person_isSome {p : PersonThread} {a : Person} (hsize : b.size = numFloors + 1)
    (hasks : p.Asks numFloors) : (personCode t p b a).isSome = true := by
  cases a with
  | press | same =>
    obtain ⟨b', hadd, -⟩ := b.add_isSome hsize hasks.1
    rw [personCode, hadd]
    rfl
  | leave =>
    obtain ⟨b', hadd, -⟩ := b.add_isSome hsize hasks.2
    rw [personCode, hadd]
    rfl
  | enter =>
    obtain ⟨b', hadd, hsize'⟩ := b.add_isSome hsize hasks.2
    obtain ⟨b'', hadd', -⟩ := b'.add_isSome hsize' hasks.1
    rw [personCode, hadd]
    show (Option.bind (b'.add _ _ _) _).isSome = true
    rw [hadd']
    rfl
  | awake isIn =>
    rw [personCode]
    split <;> rfl
  | _ => rfl

/-- The places of `ManagerHelper`. -/
def Manager.helping : Manager → Bool
  | .start | .started | .loop | .test | .exited => false
  | _ => true

theorem Manager.Inside.isFloor {a : Manager} (ha : a.helping = true) (h : a.Inside numFloors b) :
    IsFloor numFloors b.currentFloor := by
  have hfloor : b.OnFloor numFloors := by
    cases a with
    | look i o => exact h.onFloor
    | move =>
      obtain ⟨i, o, h⟩ := h
      exact h.onFloor
    | start | started | loop | test | exited => cases ha
    | _ => exact h.1.onFloor
  exact ⟨hfloor.ge, hfloor.le⟩

/-- The elevator is on a floor of the building while the manager is in `ManagerHelper`, and no thread
is about to use an element that an array does not have. -/
structure InBuilding (junk : Queue → Int → Int) (numFloors : Int)
    (s : Core Sem Unit Unit Building Loc) : Prop where
  floor : ∀ t a, (s.pc t).place = some (.manager a) → a.helping = true →
    IsFloor numFloors s.mem.currentFloor
  index : ∀ t loc, s.pc t = .user loc → ((program junk).code t loc s.mem).isSome = true

theorem InShaft.inBuilding (hs : InShaft numFloors s) : InBuilding junk numFloors s where
  floor t a hplace ha := (hs.inside t _ hplace : a.Inside numFloors s.mem).isFloor ha
  index t loc hpc := by
    have hplace : (s.pc t).place = some loc := by rw [hpc]; rfl
    cases loc with
    | caller a requests => rfl
    | manager a => exact manager_isSome (hs.inside t _ hplace)
    | person p a =>
      refine person_isSome (hs.built ?_) (hs.asks t _ hplace)
      by_contra hne
      -- there are no people while the main thread is in `Elevator`
      have hperson : (Loc.person p a).stage.isPerson = true := by cases a <;> rfl
      have hnone := hs.invariant.opening (Nat.pos_of_ne_zero hne)
      exact (Core.countAt_pos hs.invariant.sound.queued hplace hperson).ne' hnone

/-- In every interleaving, as long as the manager does not begin a second round in a building with one
floor: the elevator is in the building whenever `ManagerHelper` uses its floor, and every index is one
of the array. -/
theorem elevator_in_building {requests : List (Int × Int)} {ms : List (Move Empty)}
    (hfloors : 0 < numFloors)
    (hrequests : ∀ r ∈ requests, IsFloor numFloors r.1 ∧ IsFloor numFloors r.2)
    (hround : Along (Core.next (program junk)) (LeavesInTime numFloors) ms (start numFloors requests))
    (h : run (Core.next (program junk)) ms (start numFloors requests) = some s) :
    InBuilding junk numFloors s := by
  have hs : InShaft numFloors s :=
    run_invariant_along (fun _ _ _ hs hg hstep => next_inShaft hfloors hs hg hstep)
      (start_inShaft hfloors hrequests) hround h
  exact hs.inBuilding

/-- With two floors nothing is asked of the run. -/
theorem elevator_in_building_ride : ∃ s,
    run (Core.next (program fun _ _ => 0)) ride (start 2 [(1, 2)]) = some s ∧
    InBuilding (fun _ _ => 0) 2 s := by
  have heval : (run (Core.next (program fun _ _ => 0)) ride (start 2 [(1, 2)])).isSome = true := by
    decide +kernel
  obtain ⟨s, hs⟩ := Option.isSome_iff_exists.mp heval
  refine ⟨s, hs, elevator_in_building (by decide) (by decide) ?_ hs⟩
  refine Along.of_forall (fun v _ s => ?_) _
  cases v with
  | thread t => exact fun _ => .inl (by decide)
  | interrupt e => trivial

/-- With one floor, and somebody who goes from floor 1 to floor 1: the manager comes round, and uses
element 2 of an array of two. -/
theorem not_elevator_in_building : ∃ s,
    run (Core.next (program fun _ _ => 0)) (List.replicate 7 (.thread 0) ++ List.replicate 9 (.thread 1))
      (start 1 [(1, 1)]) = some s ∧
    ¬ InBuilding (fun _ _ => 0) 1 s := by
  have heval : ((run (Core.next (program fun _ _ => 0))
      (List.replicate 7 (.thread 0) ++ List.replicate 9 (.thread 1)) (start 1 [(1, 1)])).any fun s =>
        s.pc 1 = .user (.manager (.look .up .upTo)) ∧ s.mem.currentFloor = 2) = true := by
    decide +kernel
  obtain ⟨s, hs, hstate⟩ := (Option.any_eq_true _ _).mp heval
  obtain ⟨hpc, hfloor⟩ := of_decide_eq_true hstate
  refine ⟨s, hs, fun h => ?_⟩
  have hisFloor := h.floor 1 _ (congrArg PC.place hpc) rfl
  rw [hfloor] at hisFloor
  exact absurd hisFloor (by decide)

end Nachos.Threads.Elevator
