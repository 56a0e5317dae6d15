import Nachos.Threads.ElevatorShaft

/-!
# The sweep of the elevator (threads/elevator.cc)

The manager goes up and down, and calls `ManagerHelper` once on each floor that it comes to. Which
arrays it passes is decided in the branches of its loop; which arrays a person uses is decided in
`Person`.

* `sweep`: the elevator at each call, round after round;
* `run_calls`: the calls of every run are those of the sweep, in its order;
* `sweep_up`, `sweep_down`: the floors that the sweep comes to, and the way it goes there;
* `manager_serves_iff`: all requests are served, but the one from the top floor to itself.
-/

namespace Nachos.Threads.Elevator

open Nachos.Framework

variable {junk : Queue → Int → Int} {s u : Core Sem Unit Unit Building Loc} {t : ThreadId}
variable {b b' : Building} {loc next : Loc} {i : Instr Sem Unit Unit Loc} {numFloors : Int}

/-! ## Rounds -/

/-- A call of `ManagerHelper`: where the elevator is, and the arrays. -/
structure HelperCall where
  currentFloor : Int
  movingUp : Bool
  inQueue : Queue
  outQueue : Queue
deriving DecidableEq, Repr

/-- The call that `Manager` makes from the head of its loop. -/
def Building.helperCall (b : Building) : HelperCall :=
  ⟨(direction b).1.currentFloor, (direction b).1.movingUp, (direction b).2.1, (direction b).2.2⟩

/-- The last lines of `ManagerHelper`. -/
def Building.moved (b : Building) : Building :=
  { b with currentFloor := if b.movingUp then b.currentFloor + 1 else b.currentFloor - 1 }

/-- The elevator when `Elevator` returns. -/
def opened (numFloors : Int) : Building :=
  { (start numFloors []).mem with
    numFloors := numFloors
    currentFloor := 1
    size := numFloors + 1 }

/-- The elevator at the head of the loop of `Manager`, after `n` rounds. -/
def sweep (numFloors : Int) : Nat → Building
  | 0 => opened numFloors
  | n + 1 => (direction (sweep numFloors n)).1.moved

theorem direction_numFloors (b : Building) : (direction b).1.numFloors = b.numFloors := by
  obtain heq | ⟨movingUp, heq⟩ := direction_cases b <;> rw [heq]

theorem sweep_numFloors (n : Nat) : (sweep numFloors n).numFloors = numFloors := by
  induction n with
  | zero => rfl
  | succ n ih => exact (direction_numFloors _).trans ih

/-! ## The calls of a run -/

def called (s : Core Sem Unit Unit Building Loc) : Move Empty → List HelperCall
  | .thread t => if s.pc t = .user (.manager .loop) then [s.mem.helperCall] else []
  | .interrupt _ => []

/-- The calls of `ManagerHelper` in a run. -/
def calls (junk : Queue → Int → Int) :
    List (Move Empty) → Core Sem Unit Unit Building Loc → List HelperCall
  | [], _ => []
  | v :: vs, s => called s v ++ ((s.next (program junk) v).map (calls junk vs)).getD []

/-- Where the elevator is after `n` calls. -/
def Manager.Sweeps (numFloors : Int) (n : Nat) : Manager → Building → Prop
  | .start, b | .started, b | .loop, b | .test, b => (sweep numFloors n).StaysPut b
  | .exited, _ => True
  | _, b => ∃ m, n = m + 1 ∧ (direction (sweep numFloors m)).1.StaysPut b

def Loc.Sweeps (numFloors : Int) (n : Nat) : Loc → Building → Prop
  | .caller a _, b => match a with
    | .elevator m | .acquired m => n = 0 ∧ m = numFloors ∧ b.movingUp = true
    | .released m | .allocate m =>
      n = 0 ∧ m = numFloors ∧ b.movingUp = true ∧ b.numFloors = numFloors ∧ b.currentFloor = 1
    | .forkManager => n = 0 ∧ (opened numFloors).StaysPut b
    | _ => True
  | .manager a, b => a.Sweeps numFloors n b
  | .person _ _, _ => True

theorem Building.StaysPut.trans {b'' : Building} (h : b.StaysPut b') (h' : b'.StaysPut b'') :
    b.StaysPut b'' :=
  ⟨h'.currentFloor.trans h.currentFloor, h'.movingUp.trans h.movingUp,
    h'.numFloors.trans h.numFloors, h'.size.trans h.size⟩

theorem Building.StaysPut.moved (h : b.StaysPut b') : b.moved.StaysPut b'.moved := by
  refine ⟨?_, h.movingUp, h.numFloors, h.size⟩
  show (if b'.movingUp then _ else _) = if b.movingUp then _ else _
  rw [h.movingUp, h.currentFloor]

/-- The branch that the manager takes depends on where the elevator is only. -/
theorem Building.StaysPut.direction (h : b.StaysPut b') :
    (direction b).1.StaysPut (direction b').1 ∧ b'.helperCall = b.helperCall := by
  obtain ⟨hfloor, hup, hfloors, hsize⟩ := h
  unfold Building.helperCall Elevator.direction
  rw [hfloor, hup, hfloors]
  split
  next => exact ⟨⟨rfl, rfl, rfl, hsize⟩, rfl⟩
  next =>
    split
    next => exact ⟨⟨rfl, rfl, rfl, hsize⟩, rfl⟩
    next =>
      split
      next => exact ⟨⟨hfloor, hup, hfloors, hsize⟩, by rw [hfloor, hup]⟩
      next => exact ⟨⟨hfloor, hup, hfloors, hsize⟩, by rw [hfloor, hup]⟩

theorem sweeps_steering (n : Nat) : Steering (Loc.Sweeps numFloors n) where
  frame := by
    intro loc b b' h hsame
    cases loc with
    | caller a requests =>
      cases a with
      | elevator m | acquired m => exact ⟨h.1, h.2.1, hsame.movingUp.trans h.2.2⟩
      | released m | allocate m =>
        obtain ⟨hn, hm, hup, hfloors, hfloor⟩ := h
        exact ⟨hn, hm, hsame.movingUp.trans hup, hsame.numFloors.trans hfloors,
          hsame.currentFloor.trans hfloor⟩
      | forkManager => exact ⟨h.1, h.2.trans hsame⟩
      | arriving | generateID _ _ | forkPerson _ => trivial
    | manager a =>
      cases a with
      | start | started | loop | test => exact Building.StaysPut.trans h hsame
      | exited => trivial
      | _ =>
        obtain ⟨m, hn, h⟩ := h
        exact ⟨m, hn, h.trans hsame⟩
    | person p a => trivial
  idle := by
    intro loc hsteers b
    cases loc with
    | caller a requests =>
      cases a with
      | arriving | generateID _ _ | forkPerson _ => trivial
      | _ => cases hsteers
    | manager a =>
      cases a with
      | exited => trivial
      | _ => cases hsteers
    | person p a => trivial

/-- The number of calls after a step from a place. -/
def Loc.callsAfter (n : Nat) (loc : Loc) : Nat := if loc = .manager .loop then n + 1 else n

theorem manager_sweeps {n : Nat} {a : Manager} (h : managerCode b a = some (b', i, next))
    (hsweeps : a.Sweeps numFloors n b) :
    next.Sweeps numFloors ((Loc.manager a).callsAfter n) b' ∧ Core.forked i = none := by
  cases a with
  | start | started => cases h; exact ⟨hsweeps, rfl⟩
  | loop =>
    cases h
    exact ⟨⟨n, rfl, (Building.StaysPut.direction hsweeps).1⟩, rfl⟩
  | look _ _ | lookAgain _ _ _ =>
    obtain ⟨w, -, heq⟩ := Option.map_eq_some_iff.mp h
    cases heq; exact ⟨hsweeps, rfl⟩
  | doors _ _ _ w => cases w <;> (cases h; exact ⟨hsweeps, rfl⟩)
  | looked _ _ _ _ | locked _ _ _ | broadcasted _ _ _ _ | unlock _ _ _ _ | yielding _ _ _ _ =>
    cases h; exact ⟨hsweeps, rfl⟩
  | move =>
    cases h
    obtain ⟨m, rfl, hstays⟩ := hsweeps
    exact ⟨hstays.moved, rfl⟩
  | test =>
    rw [managerCode] at h
    split at h <;> cases h
    · exact ⟨trivial, rfl⟩
    · exact ⟨hsweeps, rfl⟩
  | exited => cases h; exact ⟨trivial, rfl⟩

theorem caller_sweeps {n : Nat} {a : Caller} {requests : List (Int × Int)} (hfloors : 0 < numFloors)
    (h : callerCode junk requests b a = (b', i, next))
    (hsweeps : (Loc.caller a requests).Sweeps numFloors n b) : next.Sweeps numFloors n b' ∧
      ∀ start, Core.forked i = some start → start.Sweeps numFloors n b' := by
  have harriving (h : arrivingGoingFromTo requests b = (b', i, next)) :
      next.Sweeps numFloors n b' ∧
        ∀ start, Core.forked i = some start → start.Sweeps numFloors n b' := by
    cases requests <;> (cases h; exact ⟨trivial, fun _ h => by cases h⟩)
  cases a with
  | elevator m =>
    obtain ⟨hn, rfl, hup⟩ := hsweeps
    simp only [callerCode, if_neg (show ¬ m ≤ 0 by omega)] at h
    cases h
    exact ⟨⟨hn, rfl, hup⟩, fun _ h => by cases h⟩
  | acquired m =>
    cases h
    obtain ⟨hn, rfl, hup⟩ := hsweeps
    exact ⟨⟨hn, rfl, hup, rfl, rfl⟩, fun _ h => by cases h⟩
  | released m => cases h; exact ⟨hsweeps, fun _ h => by cases h⟩
  | allocate m =>
    cases h
    obtain ⟨hn, rfl, hup, hm, hfloor⟩ := hsweeps
    exact ⟨⟨hn, ⟨hfloor, hup, hm, rfl⟩⟩, fun _ h => by cases h⟩
  | forkManager =>
    cases h
    obtain ⟨rfl, hstays⟩ := hsweeps
    exact ⟨trivial, fun _ h => by cases h; exact hstays⟩
  | arriving => exact harriving h
  | generateID _ _ => cases h; exact ⟨trivial, fun _ h => by cases h⟩
  | forkPerson p => cases h; exact ⟨trivial, fun _ h => by cases h; trivial⟩

theorem code_sweeps {n : Nat} (hfloors : 0 < numFloors)
    (h : (program junk).code t loc b = some (b', i, next)) (hsweeps : loc.Sweeps numFloors n b) :
    next.Sweeps numFloors (loc.callsAfter n) b' ∧
      ∀ start, Core.forked i = some start → start.Sweeps numFloors (loc.callsAfter n) b' := by
  cases loc with
  | caller a requests => exact caller_sweeps hfloors (Option.some.inj h) hsweeps
  | manager a =>
    obtain ⟨hnext, hforked⟩ := manager_sweeps h hsweeps
    exact ⟨hnext, fun _ h => by rw [hforked] at h; cases h⟩
  | person p a =>
    obtain ⟨⟨a', rfl⟩, hforked, -⟩ := person_next h
    exact ⟨trivial, fun _ h => by rw [hforked] at h; cases h⟩

/-- After `n` calls. -/
structure Swept (numFloors : Int) (n : Nat) (s : Core Sem Unit Unit Building Loc) : Prop where
  invariant : Invariant s
  steering : numAt Stage.steers s ≤ 1
  sweeps : ∀ t loc, (s.pc t).place = some loc → loc.Sweeps numFloors n s.mem

/-- A step makes the next call of the sweep, or none. -/
theorem next_swept {n : Nat} {v : Move Empty} (hfloors : 0 < numFloors) (hs : Swept numFloors n s)
    (h : s.next (program junk) v = some u) : ∃ k, Swept numFloors (n + k) u ∧
      called s v = (List.range' n k).map fun j => (sweep numFloors j).helperCall := by
  have hinvariant := next_invariant hs.invariant h
  have hsteering := next_steering hs.invariant.sound hs.steering h
  cases v with
  | interrupt e => exact e.elim
  | thread t =>
    obtain ⟨⟨e, u'⟩, hstep, rfl⟩ := Option.map_eq_some_iff.mp h
    by_cases hu : ∃ loc, s.pc t = .user loc
    · obtain ⟨loc, hpc⟩ := hu
      obtain ⟨b, i, next, hcode, rfl, hmoves, -⟩ :=
        Core.step_user hs.invariant.sound.queued hpc hstep
      have hplace : (s.pc t).place = some loc := by rw [hpc]; rfl
      have hsweeps := hs.sweeps t loc hplace
      have hnext := code_sweeps hfloors hcode hsweeps
      by_cases hloop : loc = .manager .loop
      · subst hloop
        refine ⟨1, ⟨hinvariant, hsteering, fun t' loc' hplace' => ?_⟩, ?_⟩
        · exact (sweeps_steering (n + 1)).hands hs.invariant.sound.queued hs.steering rfl hnext
            hmoves hplace'
        · rw [called, if_pos hpc]
          exact congrArg (fun call => [call]) (Building.StaysPut.direction hsweeps).2
      · have hafter : loc.callsAfter n = n := if_neg hloop
        rw [hafter] at hnext
        refine ⟨0, ⟨hinvariant, hsteering, fun t' loc' hplace' => ?_⟩, ?_⟩
        · exact (sweeps_steering n).moves hs.invariant.sound.queued hs.steering hs.sweeps hcode hnext
            hmoves hplace'
        · have hne : s.pc t ≠ .user (.manager .loop) := by
            rw [hpc]
            exact fun h => hloop (PC.user.inj h)
          exact if_neg hne
    · obtain ⟨hmem, hplace, -⟩ :=
        Core.step_resumes hs.invariant.sound.queued (fun loc h => hu ⟨loc, h⟩) hstep
      refine ⟨0, ⟨hinvariant, hsteering, fun t' loc h => ?_⟩, if_neg fun h => hu ⟨_, h⟩⟩
      rw [hmem]
      exact hs.sweeps t' loc (hplace t' ▸ h)

theorem Swept.calls {ms : List (Move Empty)} {n : Nat} (hfloors : 0 < numFloors)
    (hs : Swept numFloors n s) (h : run (Core.next (program junk)) ms s = some u) :
    ∃ k, calls junk ms s = (List.range' n k).map fun j => (sweep numFloors j).helperCall := by
  induction ms generalizing s n with
  | nil => exact ⟨0, rfl⟩
  | cons v vs ih =>
    obtain ⟨s', hnext, hrun⟩ := run_cons_eq_some.mp h
    obtain ⟨k, hs', hcalled⟩ := next_swept hfloors hs hnext
    obtain ⟨k', hcalls⟩ := ih hs' hrun
    refine ⟨k + k', ?_⟩
    have hhere : Elevator.calls junk (v :: vs) s = called s v ++ Elevator.calls junk vs s' := by
      rw [Elevator.calls, hnext]
      rfl
    rw [hhere, hcalled, hcalls, ← List.map_append, List.range'_append_1]

theorem start_swept (hfloors : 0 < numFloors) (requests : List (Int × Int)) :
    Swept numFloors 0 (start numFloors requests) := by
  refine ⟨start_invariant hfloors requests, (Core.new_totalAt _ _ _ _).le, fun t loc h => ?_⟩
  by_cases ht : t = 0
  · subst ht
    cases h
    exact ⟨rfl, rfl, rfl⟩
  · simp [start, Core.new, ht, PC.place] at h

/-- In every interleaving the manager makes the calls of the sweep, from its beginning and in its
order. -/
theorem run_calls {requests : List (Int × Int)} {ms : List (Move Empty)} (hfloors : 0 < numFloors)
    (h : run (Core.next (program junk)) ms (start numFloors requests) = some s) :
    ∃ k, calls junk ms (start numFloors requests) =
      (List.range k).map fun n => (sweep numFloors n).helperCall := by
  obtain ⟨k, hcalls⟩ := (start_swept hfloors requests).calls hfloors h
  exact ⟨k, by rw [hcalls, List.range_eq_range']⟩

/-! ## The floors of the sweep -/

theorem helperCall_ground (hground : b.currentFloor = 1) : b.helperCall = ⟨1, true, .up, .downTo⟩ := by
  rw [Building.helperCall, direction, if_pos hground]
  exact congrArg (HelperCall.mk · _ _ _) hground

theorem helperCall_top (hground : b.currentFloor ≠ 1) (htop : b.currentFloor = b.numFloors) :
    b.helperCall = ⟨b.numFloors, false, .down, .upTo⟩ := by
  rw [Building.helperCall, direction, if_neg hground, if_pos htop]
  exact congrArg (HelperCall.mk · _ _ _) htop

theorem helperCall_between (hground : b.currentFloor ≠ 1) (htop : b.currentFloor ≠ b.numFloors) :
    b.helperCall = if b.movingUp then ⟨b.currentFloor, true, .up, .upTo⟩
      else ⟨b.currentFloor, false, .down, .downTo⟩ := by
  rw [Building.helperCall, direction, if_neg hground, if_neg htop]
  cases hup : b.movingUp with
  | true => exact congrArg (HelperCall.mk b.currentFloor · _ _) hup
  | false => exact congrArg (HelperCall.mk b.currentFloor · _ _) hup

theorem sweep_succ_currentFloor (n : Nat) : (sweep numFloors (n + 1)).currentFloor =
    (sweep numFloors n).helperCall.currentFloor +
      if (sweep numFloors n).helperCall.movingUp then 1 else -1 := by
  show (if (sweep numFloors n).helperCall.movingUp then _ else _) = _
  split
  next => rfl
  next => rfl

theorem sweep_succ_movingUp (n : Nat) :
    (sweep numFloors (n + 1)).movingUp = (sweep numFloors n).helperCall.movingUp := rfl

/-- Below the top floor the elevator goes on, if it goes up. -/
theorem helperCall_of_movingUp (hup : b.movingUp = true) (htop : b.currentFloor ≠ b.numFloors) :
    b.helperCall = ⟨b.currentFloor, true, .up, if b.currentFloor = 1 then .downTo else .upTo⟩ := by
  by_cases hground : b.currentFloor = 1
  · rw [helperCall_ground hground, if_pos hground, hground]
  · rw [helperCall_between hground htop, if_pos hup, if_neg hground]

theorem sweep_up {k : Nat} (hk : (k : Int) < numFloors) :
    (sweep numFloors k).currentFloor = k + 1 ∧ (sweep numFloors k).movingUp = true := by
  induction k with
  | zero => exact ⟨rfl, rfl⟩
  | succ k ih =>
    obtain ⟨hfloor, hup⟩ := ih (by omega)
    have htop : (sweep numFloors k).currentFloor ≠ (sweep numFloors k).numFloors := by
      rw [sweep_numFloors, hfloor]
      omega
    rw [sweep_succ_currentFloor, sweep_succ_movingUp, helperCall_of_movingUp hup htop]
    refine ⟨?_, rfl⟩
    show (sweep numFloors k).currentFloor + 1 = _
    omega

/-- After the top floor. -/
theorem sweep_down {top j : Nat} (hj : j < top) :
    (sweep (top + 1) (top + 1 + j)).currentFloor = top - j ∧
      (sweep (top + 1) (top + 1 + j)).movingUp = false := by
  induction j with
  | zero =>
    obtain ⟨hfloor, -⟩ := sweep_up (show (top : Int) < top + 1 by omega)
    have hcall := helperCall_top (b := sweep (top + 1) top) (by omega)
      (by rw [sweep_numFloors, hfloor])
    rw [Nat.add_zero, sweep_succ_currentFloor, sweep_succ_movingUp, hcall, sweep_numFloors]
    refine ⟨?_, rfl⟩
    show (top : Int) + 1 + -1 = top - 0
    omega
  | succ j ih =>
    obtain ⟨hfloor, hdown⟩ := ih (by omega)
    have hcall := helperCall_between (b := sweep (top + 1) (top + 1 + j)) (by omega)
      (by rw [sweep_numFloors, hfloor]; omega)
    rw [hdown] at hcall
    rw [← Nat.add_assoc, sweep_succ_currentFloor, sweep_succ_movingUp, hcall]
    refine ⟨?_, rfl⟩
    show (sweep (top + 1) (top + 1 + j)).currentFloor + -1 = _
    omega

/-- Each floor but the top one is come to on the way up. -/
theorem exists_call_up {floor : Int} (hfloor : IsFloor numFloors floor) (hlt : floor < numFloors) :
    ∃ n, (sweep numFloors n).helperCall =
      ⟨floor, true, .up, if floor = 1 then .downTo else .upTo⟩ := by
  obtain ⟨k, rfl⟩ : ∃ k : Nat, floor = k + 1 := ⟨(floor - 1).toNat, by have := hfloor.1; omega⟩
  obtain ⟨hcurrent, hup⟩ := sweep_up (show (k : Int) < numFloors by omega)
  refine ⟨k, ?_⟩
  rw [helperCall_of_movingUp hup (by rw [sweep_numFloors]; omega), hcurrent]

theorem exists_call_top (htwo : 2 ≤ numFloors) :
    ∃ n, (sweep numFloors n).helperCall = ⟨numFloors, false, .down, .upTo⟩ := by
  obtain ⟨top, rfl⟩ : ∃ top : Nat, numFloors = top + 1 := ⟨(numFloors - 1).toNat, by omega⟩
  obtain ⟨hcurrent, -⟩ := sweep_up (show (top : Int) < top + 1 by omega)
  refine ⟨top, ?_⟩
  rw [helperCall_top (by omega) (by rw [sweep_numFloors, hcurrent]), sweep_numFloors]

/-- Each floor between the ground floor and the top one is come to on the way down. -/
theorem exists_call_down {floor : Int} (hgt : 1 < floor) (hlt : floor < numFloors) :
    ∃ n, (sweep numFloors n).helperCall = ⟨floor, false, .down, .downTo⟩ := by
  obtain ⟨top, rfl⟩ : ∃ top : Nat, numFloors = top + 1 := ⟨(numFloors - 1).toNat, by omega⟩
  obtain ⟨j, rfl⟩ : ∃ j : Nat, floor = top - j := ⟨(top - floor).toNat, by omega⟩
  obtain ⟨hcurrent, hdown⟩ := sweep_down (show j < top by omega)
  refine ⟨top + 1 + j, ?_⟩
  rw [helperCall_between (by omega) (by rw [sweep_numFloors]; omega), hdown, hcurrent]
  rfl

/-! ## Requests -/

/-- A person who waits can board in the call: `ManagerHelper` is on its floor and looks at its button,
so it opens the doors, and the person gets in (or has been served) when it is woken up. -/
structure PersonThread.BoardsAt (p : PersonThread) (b : Building) : Prop where
  floor : b.helperCall.currentFloor = p.atFloor
  called : b.helperCall.inQueue = p.button
  stops : ∀ b', (direction b).1.StaysPut b' → 0 < b'.queue p.button p.atFloor →
    b'.numPeopleIn < 5 →
    b'.wanted b.helperCall.inQueue b.helperCall.outQueue b'.currentFloor = some true
  ready : ∀ b', (direction b).1.StaysPut b' → b'.numPeopleIn < 5 →
    branch p false b' = some (if p.atFloor = p.toFloor then .same else .enter)

/-- A person in the elevator can get out in the call. -/
structure PersonThread.AlightsAt (p : PersonThread) (b : Building) : Prop where
  floor : b.helperCall.currentFloor = p.toFloor
  passed : b.helperCall.outQueue = p.target

theorem sweep_onFloor (htwo : 2 ≤ numFloors) (n : Nat) : (sweep numFloors n).OnFloor numFloors := by
  induction n with
  | zero => exact ⟨rfl, Int.le_refl 1, by show (1 : Int) ≤ numFloors; omega, rfl⟩
  | succ n ih => exact (direction_helps htwo ih).moves

theorem boardsAt_of_call {p : PersonThread} {o : Queue} {n : Nat} (htwo : 2 ≤ numFloors)
    (hcall : (sweep numFloors n).helperCall = ⟨p.atFloor, p.goingUp, p.button, o⟩) :
    p.BoardsAt (sweep numFloors n) := by
  have hfloor : (direction (sweep numFloors n)).1.currentFloor = p.atFloor :=
    congrArg HelperCall.currentFloor hcall
  have hup : (direction (sweep numFloors n)).1.movingUp = p.goingUp :=
    congrArg HelperCall.movingUp hcall
  refine ⟨hfloor, congrArg HelperCall.inQueue hcall, fun b' hstays hqueue hcapacity => ?_,
    fun b' hstays hcapacity => ?_⟩
  · have honFloor := (direction_onFloor (sweep_onFloor htwo n)).frame hstays
    rw [honFloor.wanted_eq, hstays.currentFloor, hfloor, hcall]
    simp [hqueue, hcapacity]
  · have hfloor' : b'.currentFloor = p.atFloor := hstays.currentFloor.trans hfloor
    have hup' : b'.movingUp = p.goingUp := hstays.movingUp.trans hup
    unfold branch
    by_cases hsame : p.atFloor = p.toFloor
    · simp [hfloor', hsame]
    · cases hgoes : p.goingUp <;> simp [hfloor', hup', hcapacity, hgoes, hsame]

/-- On the top floor the manager does not look at the button for going up. -/
theorem not_boardsAt_top {p : PersonThread} (htwo : 2 ≤ numFloors) (hat : p.atFloor = numFloors)
    (hto : p.toFloor = numFloors) (n : Nat) : ¬ p.BoardsAt (sweep numFloors n) := by
  intro h
  have hbutton : p.button = .up := button_of_eq (hat.trans hto.symm)
  have hfloor : (sweep numFloors n).currentFloor = numFloors := by
    have hhere := h.floor
    rw [hat] at hhere
    obtain heq | ⟨movingUp, heq⟩ := direction_cases (sweep numFloors n)
    · rwa [Building.helperCall, heq] at hhere
    · rwa [Building.helperCall, heq] at hhere
  have hcalled := h.called
  rw [helperCall_top (by omega) (by rw [sweep_numFloors, hfloor]), hbutton] at hcalled
  cases hcalled

theorem exists_boardsAt {p : PersonThread} (htwo : 2 ≤ numFloors) (hat : IsFloor numFloors p.atFloor)
    (hto : IsFloor numFloors p.toFloor) (h : ¬ (p.atFloor = numFloors ∧ p.toFloor = numFloors)) :
    ∃ n, p.BoardsAt (sweep numFloors n) := by
  obtain ⟨hatge, hatle⟩ := hat
  obtain ⟨htoge, htole⟩ := hto
  cases hgoes : p.goingUp with
  | true =>
    have hle : p.atFloor ≤ p.toFloor := of_decide_eq_true hgoes
    have hbutton : p.button = .up := if_pos hgoes
    obtain ⟨n, hcall⟩ := exists_call_up ⟨hatge, hatle⟩ (show p.atFloor < numFloors by omega)
    exact ⟨n, boardsAt_of_call htwo (by rw [hgoes, hbutton, hcall])⟩
  | false =>
    have hlt : ¬ p.atFloor ≤ p.toFloor := of_decide_eq_false hgoes
    have hbutton : p.button = .down := if_neg (by rw [hgoes]; decide)
    by_cases htop : p.atFloor = numFloors
    · obtain ⟨n, hcall⟩ := exists_call_top htwo
      exact ⟨n, boardsAt_of_call htwo (by rw [hgoes, hbutton, htop, hcall])⟩
    · obtain ⟨n, hcall⟩ := exists_call_down (show 1 < p.atFloor by omega)
        (show p.atFloor < numFloors by omega)
      exact ⟨n, boardsAt_of_call htwo (by rw [hgoes, hbutton, hcall])⟩

theorem exists_alightsAt {p : PersonThread} (htwo : 2 ≤ numFloors)
    (hat : IsFloor numFloors p.atFloor) (hto : IsFloor numFloors p.toFloor)
    (hne : p.atFloor ≠ p.toFloor) : ∃ n, p.AlightsAt (sweep numFloors n) := by
  obtain ⟨hatge, hatle⟩ := hat
  obtain ⟨htoge, htole⟩ := hto
  cases hgoes : p.goingUp with
  | true =>
    have hle : p.atFloor ≤ p.toFloor := of_decide_eq_true hgoes
    have htarget : p.target = .upTo := if_pos hgoes
    by_cases htop : p.toFloor = numFloors
    · obtain ⟨n, hcall⟩ := exists_call_top htwo
      exact ⟨n, by rw [hcall, htop], by rw [hcall, htarget]⟩
    · obtain ⟨n, hcall⟩ := exists_call_up ⟨htoge, htole⟩ (show p.toFloor < numFloors by omega)
      rw [if_neg (by omega)] at hcall
      exact ⟨n, by rw [hcall], by rw [hcall, htarget]⟩
  | false =>
    have hlt : ¬ p.atFloor ≤ p.toFloor := of_decide_eq_false hgoes
    have htarget : p.target = .downTo := if_neg (by rw [hgoes]; decide)
    by_cases hground : p.toFloor = 1
    · obtain ⟨n, hcall⟩ := exists_call_up ⟨htoge, htole⟩ (show p.toFloor < numFloors by omega)
      rw [if_pos hground] at hcall
      exact ⟨n, by rw [hcall], by rw [hcall, htarget]⟩
    · obtain ⟨n, hcall⟩ := exists_call_down (show 1 < p.toFloor by omega)
        (show p.toFloor < numFloors by omega)
      exact ⟨n, by rw [hcall], by rw [hcall, htarget]⟩

/-- The sweep has a call in which a person who makes the request can board, and one in which it can get
out, unless the request is from the top floor to the top floor. -/
theorem manager_serves_iff (p : PersonThread) (htwo : 2 ≤ numFloors)
    (hat : IsFloor numFloors p.atFloor) (hto : IsFloor numFloors p.toFloor) :
    ((∃ n, p.BoardsAt (sweep numFloors n)) ∧
      (p.atFloor ≠ p.toFloor → ∃ n, p.AlightsAt (sweep numFloors n))) ↔
    ¬ (p.atFloor = numFloors ∧ p.toFloor = numFloors) := by
  constructor
  · rintro ⟨⟨n, hboards⟩, -⟩ ⟨htop, htop'⟩
    exact not_boardsAt_top htwo htop htop' n hboards
  · intro h
    exact ⟨exists_boardsAt htwo hat hto h, exists_alightsAt htwo hat hto⟩

/-- From floor 2 of three to floor 1, which is on the way down. -/
theorem manager_serves_iff_down : (∃ n, (⟨1, 2, 1⟩ : PersonThread).BoardsAt (sweep 3 n)) ∧
    ∃ n, (⟨1, 2, 1⟩ : PersonThread).AlightsAt (sweep 3 n) := by
  have hserves := (manager_serves_iff ⟨1, 2, 1⟩ (show (2 : Int) ≤ 3 by decide) (by decide)
    (by decide)).mpr (by decide)
  exact ⟨hserves.1, hserves.2 (by decide)⟩

/-- From floor 2 of two to floor 2. -/
theorem not_manager_serves : IsFloor 2 2 ∧
    ¬ ∃ n, (⟨1, 2, 2⟩ : PersonThread).BoardsAt (sweep 2 n) := by
  refine ⟨by decide, fun ⟨n, hboards⟩ => ?_⟩
  exact not_boardsAt_top (by decide) rfl rfl n hboards

end Nachos.Threads.Elevator
