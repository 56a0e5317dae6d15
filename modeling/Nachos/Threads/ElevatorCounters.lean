import Nachos.Threads.Elevator

/-!
# What the elevator counts (threads/elevator.cc)

The arrays `upQueue`, `upToQueue`, `downQueue` and `downToQueue` count people:
those who have pressed a button on a floor and wait there, and those who are on
their way to a floor. They count on from what `new int[size]` leaves in them.

* `Loc.countsIn`: the people that an element of an array is there to count;
* `code_counters`: what a step does to an element, it does to their number;
* `Loc.Stands`: where the elevator is while `Manager` and `ManagerHelper` run;
* `elevator_counters_iff`: the arrays tell how many people there are, and the
  doors open for somebody only, just if all of the memory that `new` returns is
  zero on the floors of the building.
-/

namespace Nachos.Threads.Elevator

open Nachos.Framework

variable {junk : Queue → Int → Int} {s u : Core Sem Unit Unit Building Loc} {t : ThreadId}
variable {b b' : Building} {loc next : Loc} {i : Instr Sem Unit Unit Loc} {numFloors : Int}

/-! ## People -/

/-- The person has pressed the button on its floor, and has still to board, or to be served there. -/
def Person.waiting : Person → Bool
  | .loop isIn | .locked isIn | .awake isIn => !isIn
  | .same | .enter => true
  | _ => false

/-- The person has pressed the button in the elevator, and has still to leave. -/
def Person.riding : Person → Bool
  | .loop isIn | .locked isIn | .awake isIn => isIn
  | .entered | .leave => true
  | _ => false

/-- The thread is one of the people that an element of an array counts. -/
def Loc.countsIn (k : Queue) (floor : Int) : Loc → Bool
  | .person p a => match k with
    | .up => p.goingUp && p.atFloor == floor && a.waiting
    | .down => !p.goingUp && p.atFloor == floor && a.waiting
    | .upTo => p.goingUp && p.toFloor == floor && a.riding
    | .downTo => !p.goingUp && p.toFloor == floor && a.riding
  | _ => false

/-- The array of the button on a floor. -/
def PersonThread.button (p : PersonThread) : Queue := if p.goingUp then .up else .down

/-- The array of the button in the elevator. -/
def PersonThread.target (p : PersonThread) : Queue := if p.goingUp then .upTo else .downTo

theorem countsIn_waiting {p : PersonThread} {a : Person} (ha : a.waiting = true)
    (hr : a.riding = false) (k : Queue) (floor : Int) :
    (((Loc.person p a).countsIn k floor).toNat : Int) =
      if k = p.button ∧ floor = p.atFloor then 1 else 0 := by
  by_cases hfloor : floor = p.atFloor
  · cases k <;> cases hup : p.goingUp <;>
      simp [Loc.countsIn, PersonThread.button, hup, ha, hr, hfloor]
  · have hne : p.atFloor ≠ floor := fun h => hfloor h.symm
    cases k <;> simp [Loc.countsIn, hr, hfloor, hne]

theorem countsIn_riding {p : PersonThread} {a : Person} (ha : a.riding = true)
    (hw : a.waiting = false) (k : Queue) (floor : Int) :
    (((Loc.person p a).countsIn k floor).toNat : Int) =
      if k = p.target ∧ floor = p.toFloor then 1 else 0 := by
  by_cases hfloor : floor = p.toFloor
  · cases k <;> cases hup : p.goingUp <;>
      simp [Loc.countsIn, PersonThread.target, hup, ha, hw, hfloor]
  · have hne : p.toFloor ≠ floor := fun h => hfloor h.symm
    cases k <;> simp [Loc.countsIn, hw, hfloor, hne]

theorem countsIn_neither {p : PersonThread} {a : Person} (hr : a.riding = false)
    (hw : a.waiting = false) (k : Queue) (floor : Int) :
    (Loc.person p a).countsIn k floor = false := by
  cases k <;> simp [Loc.countsIn, hw, hr]

/-! ## What a step does to the arrays -/

theorem Building.add_queue {k : Queue} {floor d : Int} (h : b.add k floor d = some b') :
    b'.size = b.size ∧ ∀ k' f, b'.queue k' f =
      b.queue k' f + if k' = k ∧ f = floor then d else 0 := by
  obtain ⟨v, hread, rfl⟩ := Option.map_eq_some_iff.mp h
  refine ⟨rfl, fun k' f => ?_⟩
  rw [Building.read, Option.ite_none_right_eq_some] at hread
  obtain ⟨-, hv⟩ := hread
  cases hv
  by_cases hk : k' = k
  · subst hk
    by_cases hf : f = floor
    · simp [hf]
    · simp [hf]
  · simp [hk]

/-- How a step changes the elements of the arrays and the number of people that they count. -/
def Counts (loc : Loc) (b b' : Building) (i : Instr Sem Unit Unit Loc) (next : Loc) : Prop :=
  b'.size = b.size ∧ ∀ k f, b'.queue k f + ((loc.countsIn k f).toNat : Int) =
    b.queue k f + ((if i.goesOn then (next.countsIn k f).toNat else 0 : Nat) : Int) +
      (((Core.forked i).elim 0 fun start => (start.countsIn k f).toNat : Nat) : Int)

/-- A step that leaves the arrays as they are, and the people where they are counted. -/
theorem Counts.of_eq (hsize : b'.size = b.size) (hqueue : b'.queue = b.queue)
    (hforked : ∀ k f, ((Core.forked i).elim 0 fun start => (start.countsIn k f).toNat) = 0)
    (h : ∀ k f, (if i.goesOn then (next.countsIn k f).toNat else 0) = (loc.countsIn k f).toNat) :
    Counts loc b b' i next := by
  refine ⟨hsize, fun k f => ?_⟩
  rw [hqueue, hforked, h]
  simp

/-- A step that leaves a person where it is counted. -/
theorem Counts.goesOn {p : PersonThread} {a a' : Person} (hsize : b'.size = b.size)
    (hqueue : b'.queue = b.queue) (hgoes : i.goesOn = true) (hforked : Core.forked i = none)
    (hwaiting : a'.waiting = a.waiting) (hriding : a'.riding = a.riding) :
    Counts (.person p a) b b' i (.person p a') := by
  refine .of_eq hsize hqueue (fun k f => by rw [hforked]; rfl) fun k f => ?_
  rw [if_pos hgoes]
  cases k <;> simp only [Loc.countsIn, hwaiting, hriding]

/-- A person that changes the arrays, and gives `q` back. -/
theorem Counts.gives {p : PersonThread} {a a' : Person} (hsize : b'.size = b.size)
    (h : ∀ k f, b'.queue k f + (((Loc.person p a).countsIn k f).toNat : Int) =
      b.queue k f + (((Loc.person p a').countsIn k f).toNat : Int)) :
    Counts (.person p a) b b' (.V .q) (.person p a') :=
  ⟨hsize, fun k f => (h k f).trans (Int.add_zero _).symm⟩

theorem manager_counts {a : Manager} (h : managerCode b a = some (b', i, next)) :
    Counts (.manager a) b b' i next := by
  cases a with
  | look _ _ | lookAgain _ _ _ =>
    obtain ⟨w, -, heq⟩ := Option.map_eq_some_iff.mp h
    cases heq; exact .of_eq rfl rfl (fun _ _ => rfl) fun _ _ => rfl
  | loop =>
    cases h
    obtain heq | ⟨movingUp, heq⟩ := direction_cases b <;> rw [heq] <;>
      exact .of_eq rfl rfl (fun _ _ => rfl) fun _ _ => rfl
  | doors _ _ _ w => cases w <;> (cases h; exact .of_eq rfl rfl (fun _ _ => rfl) fun _ _ => rfl)
  | test =>
    rw [managerCode] at h
    split at h <;> (cases h; exact .of_eq rfl rfl (fun _ _ => rfl) fun _ _ => rfl)
  | _ => cases h; exact .of_eq rfl rfl (fun _ _ => rfl) fun _ _ => rfl

theorem button_of_eq {p : PersonThread} (h : p.atFloor = p.toFloor) : p.button = .up := by
  simp [PersonThread.button, PersonThread.goingUp, h]

theorem person_counts {p : PersonThread} {a : Person} (h : personCode t p b a = some (b', i, next))
    (hfits : Fits (Loc.person p a).stage b) : Counts (.person p a) b b' i next := by
  cases a with
  | press =>
    obtain ⟨b₁, hadd, heq⟩ := Option.map_eq_some_iff.mp h
    cases heq
    obtain ⟨hsize, hqueue⟩ := Building.add_queue hadd
    refine .gives hsize fun k f => ?_
    rw [hqueue, countsIn_neither rfl rfl, countsIn_waiting rfl rfl]
    exact Int.add_zero _
  | awake isIn =>
    rw [personCode] at h
    split at h
    next a hbranch =>
      cases h
      obtain ⟨rfl, hsame, -⟩ | ⟨rfl, rfl, -⟩ | ⟨rfl, rfl, -⟩ := branch_eq_some hbranch
      · cases isIn with
        | true => exact absurd hsame hfits
        | false => exact .goesOn rfl rfl rfl rfl rfl rfl
      · exact .goesOn rfl rfl rfl rfl rfl rfl
      · exact .goesOn rfl rfl rfl rfl rfl rfl
    next => cases h; exact .goesOn rfl rfl rfl rfl rfl rfl
  | same =>
    obtain ⟨b₁, hadd, heq⟩ := Option.map_eq_some_iff.mp h
    cases heq
    obtain ⟨hsize, hqueue⟩ := Building.add_queue hadd
    refine .gives hsize fun k f => ?_
    rw [hqueue, countsIn_waiting rfl rfl, button_of_eq hfits.2, countsIn_neither rfl rfl]
    split <;> simp
  | enter =>
    obtain ⟨b₁, hadd, h⟩ := Option.bind_eq_some_iff.mp h
    obtain ⟨b₂, hadd', heq⟩ := Option.bind_eq_some_iff.mp h
    cases heq
    obtain ⟨hsize, hqueue⟩ := Building.add_queue hadd
    obtain ⟨hsize', hqueue'⟩ := Building.add_queue hadd'
    refine .gives (hsize'.trans hsize) fun k f => ?_
    rw [hqueue', hqueue, countsIn_waiting rfl rfl, countsIn_riding rfl rfl]
    show _ + (if k = p.target ∧ f = p.toFloor then 1 else 0) +
      (if k = p.button ∧ f = p.atFloor then -1 else 0) + _ = _
    by_cases hbutton : k = p.button ∧ f = p.atFloor
    · rw [if_pos hbutton, if_pos hbutton, Int.neg_add_cancel_right]
    · rw [if_neg hbutton, if_neg hbutton, Int.add_zero, Int.add_zero]
  | leave =>
    obtain ⟨b₁, hadd, heq⟩ := Option.map_eq_some_iff.mp h
    cases heq
    obtain ⟨hsize, hqueue⟩ := Building.add_queue hadd
    refine .gives hsize fun k f => ?_
    rw [hqueue, countsIn_riding rfl rfl, countsIn_neither rfl rfl]
    show _ + (if k = p.target ∧ f = p.toFloor then -1 else 0) + _ = _
    split <;> simp
  | done =>
    cases h
    refine .of_eq rfl rfl (fun _ _ => rfl) fun k f => ?_
    rw [countsIn_neither rfl rfl]
    rfl
  | _ => cases h; exact .goesOn rfl rfl rfl rfl rfl rfl

/-- Every step counts, but for the one that allocates the arrays. -/
theorem code_counters (h : (program junk).code t loc b = some (b', i, next))
    (hfits : Fits loc.stage b) :
    (loc.stage.isSetup = true ∧ b'.queue = junk ∧ Core.forked i = none ∧
      ∃ requests, next = .caller .forkManager requests) ∨ Counts loc b b' i next := by
  cases loc with
  | caller a requests =>
    have h := Option.some.inj h
    have harriving (h : arrivingGoingFromTo requests b = (b', i, next)) :
        Counts (.caller a requests) b b' i next := by
      cases requests <;> (cases h; exact .of_eq rfl rfl (fun _ _ => rfl) fun _ _ => rfl)
    cases a with
    | elevator n =>
      simp only [callerCode] at h
      split at h
      next => exact .inr (harriving h)
      next => cases h; exact .inr (.of_eq rfl rfl (fun _ _ => rfl) fun _ _ => rfl)
    | allocate n => cases h; exact .inl ⟨rfl, rfl, rfl, requests, rfl⟩
    | arriving => exact .inr (harriving h)
    | forkPerson p =>
      cases h
      refine .inr (.of_eq rfl rfl (fun k f => ?_) fun _ _ => rfl)
      show ((Loc.person p .start).countsIn k f).toNat = 0
      rw [countsIn_neither rfl rfl]
      rfl
    | _ => cases h; exact .inr (.of_eq rfl rfl (fun _ _ => rfl) fun _ _ => rfl)
  | manager a => exact .inr (manager_counts h)
  | person p a => exact .inr (person_counts h hfits)

/-! ## Where the elevator is -/

/-- The elevator is on a floor of the building, and the arrays have an element for each. -/
structure Building.OnFloor (numFloors : Int) (b : Building) : Prop where
  floors : b.numFloors = numFloors
  ge : 1 ≤ b.currentFloor
  le : b.currentFloor ≤ numFloors
  size : b.size = numFloors + 1

/-- `ManagerHelper` has been called with the arrays for the way the elevator goes, which does not
lead out of the building. -/
structure Building.Helps (numFloors : Int) (inQueue outQueue : Queue) (b : Building) : Prop
    extends b.OnFloor numFloors where
  button : inQueue = if b.movingUp then .up else .down
  target : outQueue = .upTo ∨ outQueue = .downTo
  bottom : b.currentFloor = 1 → b.movingUp = true
  top : b.currentFloor = numFloors → b.movingUp = false

def Manager.Stands (numFloors : Int) : Manager → Building → Prop
  | .start, b | .started, b | .loop, b | .test, b => b.OnFloor numFloors
  | .look i o, b => b.Helps numFloors i o
  | .looked i o floor _, b | .doors i o floor _, b | .locked i o floor, b | .lookAgain i o floor, b
  | .broadcasted i o floor _, b | .unlock i o floor _, b | .yielding i o floor _, b =>
    b.Helps numFloors i o ∧ floor = b.currentFloor
  | .move, b => ∃ i o, b.Helps numFloors i o
  | .exited, _ => True

/-- What holds of the elevator while the main thread sets it up, and while the manager has it. -/
def Loc.Stands (numFloors : Int) : Loc → Building → Prop
  | .caller a _, b => match a with
    | .elevator n | .acquired n => n = numFloors
    | .released n | .allocate n => n = numFloors ∧ b.numFloors = numFloors ∧ b.currentFloor = 1
    | .forkManager => b.OnFloor numFloors
    | _ => True
  | .manager a, b => a.Stands numFloors b
  | .person _ _, _ => True

/-- The main thread in `Elevator`, or the manager. -/
def Stage.steers : Stage → Bool
  | .setup _ | .manages => true
  | _ => false

theorem Does.steers {x : Stage} {y z : Option Stage} (h : Does t loc b x b' y z) :
    weight Stage.steers y + weight Stage.steers z ≤ x.steers.toNat := by
  cases h <;> simp [Stage.steers]

theorem direction_helps (htwo : 2 ≤ numFloors) (h : b.OnFloor numFloors) :
    (direction b).1.Helps numFloors (direction b).2.1 (direction b).2.2 := by
  have hfloors := h.floors
  unfold direction
  split
  next hbottom =>
    refine ⟨⟨h.floors, h.ge, h.le, h.size⟩, rfl, .inr rfl, fun _ => rfl, fun htop => ?_⟩
    have htop : b.currentFloor = numFloors := htop
    omega
  next hbottom =>
    split
    next =>
      exact ⟨⟨h.floors, h.ge, h.le, h.size⟩, rfl, .inl rfl, fun h => absurd h hbottom,
        fun _ => rfl⟩
    next htop =>
      rw [hfloors] at htop
      split
      next hup =>
        exact ⟨h, by rw [if_pos hup], .inl rfl, fun h => absurd h hbottom, fun h => absurd h htop⟩
      next hup =>
        exact ⟨h, by rw [if_neg hup], .inr rfl, fun h => absurd h hbottom, fun h => absurd h htop⟩

/-- The elevator goes to a floor of the building. -/
theorem Building.Helps.moves {inQueue outQueue : Queue} (h : b.Helps numFloors inQueue outQueue) :
    { b with currentFloor := if b.movingUp then b.currentFloor + 1 else b.currentFloor - 1
      }.OnFloor numFloors := by
  have hge := h.ge
  have hle := h.le
  refine ⟨h.floors, ?_, ?_, h.size⟩
  · show 1 ≤ if b.movingUp then b.currentFloor + 1 else b.currentFloor - 1
    split
    · omega
    · have hbottom : b.currentFloor ≠ 1 := fun heq => absurd (h.bottom heq) ‹_›
      omega
  · show (if b.movingUp then b.currentFloor + 1 else b.currentFloor - 1) ≤ numFloors
    split
    next hup =>
      have htop : b.currentFloor ≠ numFloors := fun heq => by
        rw [h.top heq] at hup
        cases hup
      omega
    next => omega

theorem manager_stands {a : Manager} (htwo : 2 ≤ numFloors)
    (h : managerCode b a = some (b', i, next)) (hstands : a.Stands numFloors b) :
    next.Stands numFloors b' ∧ Core.forked i = none := by
  cases a with
  | start | started => cases h; exact ⟨hstands, rfl⟩
  | loop => cases h; exact ⟨direction_helps htwo hstands, rfl⟩
  | look i o =>
    obtain ⟨w, -, heq⟩ := Option.map_eq_some_iff.mp h
    cases heq; exact ⟨⟨hstands, rfl⟩, rfl⟩
  | lookAgain i o floor =>
    obtain ⟨w, -, heq⟩ := Option.map_eq_some_iff.mp h
    cases heq; exact ⟨hstands, rfl⟩
  | doors i o floor w =>
    cases w with
    | true => cases h; exact ⟨hstands, rfl⟩
    | false => cases h; exact ⟨⟨i, o, hstands.1⟩, rfl⟩
  | looked _ _ _ _ | locked _ _ _ | broadcasted _ _ _ _ | unlock _ _ _ _ | yielding _ _ _ _ =>
    cases h; exact ⟨hstands, rfl⟩
  | move =>
    cases h
    obtain ⟨i, o, hhelps⟩ := hstands
    exact ⟨hhelps.moves, rfl⟩
  | test =>
    rw [managerCode] at h
    split at h
    next => cases h; exact ⟨trivial, rfl⟩
    next => cases h; exact ⟨hstands, rfl⟩
  | exited => cases h; exact ⟨trivial, rfl⟩

/-- The elevator is where it was, and goes the same way. -/
structure Building.StaysPut (b b' : Building) : Prop where
  currentFloor : b'.currentFloor = b.currentFloor
  movingUp : b'.movingUp = b.movingUp
  numFloors : b'.numFloors = b.numFloors
  size : b'.size = b.size

theorem person_next {p : PersonThread} {a : Person} (h : personCode t p b a = some (b', i, next)) :
    (∃ a', next = .person p a') ∧ Core.forked i = none ∧
      b.StaysPut b' := by
  cases a with
  | press | same | leave =>
    obtain ⟨b₁, hadd, heq⟩ := Option.map_eq_some_iff.mp h
    obtain ⟨queue, rfl⟩ := Building.add_eq_some hadd
    cases heq; exact ⟨⟨_, rfl⟩, rfl, ⟨rfl, rfl, rfl, rfl⟩⟩
  | enter =>
    obtain ⟨b₁, hadd, h⟩ := Option.bind_eq_some_iff.mp h
    obtain ⟨b₂, hadd', heq⟩ := Option.bind_eq_some_iff.mp h
    obtain ⟨queue, rfl⟩ := Building.add_eq_some hadd
    obtain ⟨queue', rfl⟩ := Building.add_eq_some hadd'
    cases heq; exact ⟨⟨_, rfl⟩, rfl, ⟨rfl, rfl, rfl, rfl⟩⟩
  | awake isIn =>
    rw [personCode] at h
    split at h <;> (cases h; exact ⟨⟨_, rfl⟩, rfl, ⟨rfl, rfl, rfl, rfl⟩⟩)
  | _ => cases h; exact ⟨⟨_, rfl⟩, rfl, ⟨rfl, rfl, rfl, rfl⟩⟩

/-- The main thread leaves the elevator as the place it goes to asks for. -/
theorem caller_stands {a : Caller} {requests : List (Int × Int)} (hfloors : 0 < numFloors)
    (h : callerCode junk requests b a = (b', i, next))
    (hstands : (Loc.caller a requests).Stands numFloors b) : next.Stands numFloors b' ∧
      ∀ start, Core.forked i = some start → start.Stands numFloors b' := by
  have harriving (h : arrivingGoingFromTo requests b = (b', i, next)) :
      next.Stands numFloors b' ∧
        ∀ start, Core.forked i = some start → start.Stands numFloors b' := by
    cases requests <;> (cases h; exact ⟨trivial, fun _ h => by cases h⟩)
  cases a with
  | elevator n =>
    simp only [callerCode] at h
    split at h
    next => exact harriving h
    next => cases h; exact ⟨hstands, fun _ h => by cases h⟩
  | acquired n => cases h; exact ⟨⟨hstands, hstands, rfl⟩, fun _ h => by cases h⟩
  | released n => cases h; exact ⟨hstands, fun _ h => by cases h⟩
  | allocate n =>
    cases h
    obtain ⟨rfl, hnum, hfloor⟩ := hstands
    refine ⟨⟨hnum, ?_, ?_, rfl⟩, fun _ h => by cases h⟩
    · exact hfloor.ge
    · show b.currentFloor ≤ n
      omega
  | forkManager => cases h; exact ⟨trivial, fun _ h => by cases h; exact hstands⟩
  | arriving => exact harriving h
  | generateID _ _ => cases h; exact ⟨trivial, fun _ h => by cases h⟩
  | forkPerson p => cases h; exact ⟨trivial, fun _ h => by cases h; trivial⟩

/-- Each thread leaves the elevator as the place it goes to asks for. -/
theorem code_stands (htwo : 2 ≤ numFloors) (h : (program junk).code t loc b = some (b', i, next))
    (hstands : loc.Stands numFloors b) : next.Stands numFloors b' ∧
      ∀ start, Core.forked i = some start → start.Stands numFloors b' := by
  cases loc with
  | caller a requests => exact caller_stands (by omega) (Option.some.inj h) hstands
  | manager a =>
    obtain ⟨hnext, hforked⟩ := manager_stands htwo h hstands
    exact ⟨hnext, fun _ h => by rw [hforked] at h; cases h⟩
  | person p a =>
    obtain ⟨⟨a', rfl⟩, hforked, -⟩ := person_next h
    exact ⟨trivial, fun _ h => by rw [hforked] at h; cases h⟩

/-- Other threads leave the elevator where it is. -/
theorem code_steers (h : (program junk).code t loc b = some (b', i, next))
    (hloc : loc.stage.steers = false) :
    b.StaysPut b' := by
  cases loc with
  | caller a requests =>
    have h := Option.some.inj h
    cases a with
    | elevator _ | acquired _ | released _ | allocate _ | forkManager => cases hloc
    | arriving => cases requests <;> (cases h; exact ⟨rfl, rfl, rfl, rfl⟩)
    | generateID _ _ | forkPerson _ => cases h; exact ⟨rfl, rfl, rfl, rfl⟩
  | manager a =>
    cases a with
    | exited => cases h; exact ⟨rfl, rfl, rfl, rfl⟩
    | _ => cases hloc
  | person p a => exact (person_next h).2.2

theorem Building.OnFloor.frame (h : b.OnFloor numFloors) (hsame : b.StaysPut b') :
    b'.OnFloor numFloors :=
  ⟨hsame.numFloors.trans h.floors, hsame.currentFloor ▸ h.ge, hsame.currentFloor ▸ h.le,
    hsame.size.trans h.size⟩

theorem Building.Helps.frame {inQueue outQueue : Queue} (h : b.Helps numFloors inQueue outQueue)
    (hsame : b.StaysPut b') : b'.Helps numFloors inQueue outQueue := by
  refine ⟨h.toOnFloor.frame hsame, ?_, h.target, ?_, ?_⟩
  · rw [hsame.movingUp]
    exact h.button
  · rw [hsame.movingUp, hsame.currentFloor]
    exact h.bottom
  · rw [hsame.movingUp, hsame.currentFloor]
    exact h.top

theorem Loc.Stands.frame (h : loc.Stands numFloors b) (hsame : b.StaysPut b') :
    loc.Stands numFloors b' := by
  cases loc with
  | caller a requests =>
    cases a with
    | elevator _ | acquired _ => exact h
    | released _ | allocate _ =>
      exact ⟨h.1, hsame.numFloors.trans h.2.1, hsame.currentFloor.trans h.2.2⟩
    | forkManager => exact Building.OnFloor.frame h hsame
    | arriving | generateID _ _ | forkPerson _ => trivial
  | manager a =>
    cases a with
    | start | started | loop | test => exact Building.OnFloor.frame h hsame
    | look _ _ => exact Building.Helps.frame h hsame
    | move =>
      obtain ⟨i, o, h⟩ := h
      exact ⟨i, o, h.frame hsame⟩
    | exited => trivial
    | _ => exact ⟨h.1.frame hsame, h.2.trans hsame.currentFloor.symm⟩
  | person p a => trivial

theorem Loc.Stands.of_not_steers (h : loc.stage.steers = false) (b : Building) :
    loc.Stands numFloors b := by
  cases loc with
  | caller a requests =>
    cases a with
    | arriving | generateID _ _ | forkPerson _ => trivial
    | _ => cases h
  | manager a =>
    cases a with
    | exited => trivial
    | _ => cases h
  | person p a => trivial

/-- A property of the elevator at the places of the threads that steer it: other threads do not
matter to it. -/
structure Steering (holds : Loc → Building → Prop) : Prop where
  frame : ∀ {loc : Loc} {b b' : Building}, holds loc b → b.StaysPut b' → holds loc b'
  idle : ∀ {loc : Loc}, loc.stage.steers = false → ∀ b, holds loc b

theorem stands_steering : Steering (Loc.Stands numFloors) :=
  ⟨fun h hsame => h.frame hsame, fun h b => .of_not_steers h b⟩

/-- When the thread that steers moves, all that counts is where it goes to. -/
theorem Steering.hands {holds : Loc → Building → Prop} (hsteering : Steering holds) (hs : s.Queued)
    (hone : numAt Stage.steers s ≤ 1) (hsteers : loc.stage.steers = true)
    (hnext : holds next u.mem ∧ ∀ start, Core.forked i = some start → holds start u.mem)
    (hmoves : Core.Moves t loc i next s u) {t' : ThreadId} {loc' : Loc}
    (hplace' : (u.pc t').place = some loc') : holds loc' u.mem := by
  have hplace : (s.pc t).place = some loc := by rw [hmoves.pc]; rfl
  obtain ⟨hne, hsame⟩ | ⟨-, -, rfl⟩ | ⟨-, rfl, -⟩ := hmoves.place_cases hplace'
  · cases hsteers' : loc'.stage.steers with
    | false => exact hsteering.idle hsteers' u.mem
    | true => exact absurd (Core.eq_of_countAt_le_one hs hone hplace hsteers hsame hsteers') hne
  · exact hnext.1
  · exact hnext.2 loc' rfl

/-- At most one thread steers, so what holds where a thread goes to holds at all places. -/
theorem Steering.moves {holds : Loc → Building → Prop} (hsteering : Steering holds) (hs : s.Queued)
    (hone : numAt Stage.steers s ≤ 1) (hholds : ∀ t loc, (s.pc t).place = some loc → holds loc s.mem)
    (hcode : (program junk).code t loc s.mem = some (u.mem, i, next))
    (hnext : holds next u.mem ∧ ∀ start, Core.forked i = some start → holds start u.mem)
    (hmoves : Core.Moves t loc i next s u) {t' : ThreadId} {loc' : Loc}
    (hplace' : (u.pc t').place = some loc') : holds loc' u.mem := by
  cases hsteers : loc.stage.steers with
  | true => exact hsteering.hands hs hone hsteers hnext hmoves hplace'
  | false =>
    obtain ⟨-, hsame⟩ | ⟨-, -, rfl⟩ | ⟨-, rfl, -⟩ := hmoves.place_cases hplace'
    · exact hsteering.frame (hholds t' loc' hsame) (code_steers hcode hsteers)
    · exact hnext.1
    · exact hnext.2 loc' rfl

/-! ## The invariant -/

structure Counted (numFloors : Int) (junk : Queue → Int → Int)
    (s : Core Sem Unit Unit Building Loc) : Prop where
  invariant : Invariant s
  steering : numAt Stage.steers s ≤ 1
  stands : ∀ t loc, (s.pc t).place = some loc → loc.Stands numFloors s.mem
  counters : 0 < s.mem.size →
    ∀ k f, s.mem.queue k f = junk k f + (s.countAt (Loc.countsIn k f) : Int)

/-- The main thread and the manager do not steer both. -/
theorem next_steering {v : Move Empty} (hs : Sound s) (hsteering : numAt Stage.steers s ≤ 1)
    (h : s.next (program junk) v = some u) : numAt Stage.steers u ≤ 1 := by
  obtain ⟨-, -, hnum, -⟩ | ⟨t, loc, y, z, rfl, hstep⟩ := next_stepped hs h
  · rw [hnum]
    exact hsteering
  · have := hstep.num Stage.steers
    have := hstep.does.steers
    omega

theorem Counted.stands_moves (htwo : 2 ≤ numFloors) (hs : Counted numFloors junk s)
    (hcode : (program junk).code t loc s.mem = some (u.mem, i, next))
    (hmoves : Core.Moves t loc i next s u) {t' : ThreadId} {loc' : Loc}
    (hplace' : (u.pc t').place = some loc') : loc'.Stands numFloors u.mem := by
  have hplace : (s.pc t).place = some loc := by rw [hmoves.pc]; rfl
  exact stands_steering.moves hs.invariant.sound.queued hs.steering hs.stands hcode
    (code_stands htwo hcode (hs.stands t loc hplace)) hmoves hplace'

theorem isPerson_of_countsIn {k : Queue} {f : Int} (h : loc.countsIn k f = true) :
    loc.stage.isPerson = true := by
  cases loc with
  | person p a => cases a <;> rfl
  | caller _ _ | manager _ => cases h

theorem Counted.counters_moves (hs : Counted numFloors junk s)
    (hcode : (program junk).code t loc s.mem = some (u.mem, i, next))
    (hmoves : Core.Moves t loc i next s u) (hsize : 0 < u.mem.size) (k : Queue) (f : Int) :
    u.mem.queue k f = junk k f + (u.countAt (Loc.countsIn k f) : Int) := by
  have hplace : (s.pc t).place = some loc := by rw [hmoves.pc]; rfl
  have hstage : stageOf s t = some loc.stage := by rw [stageOf, hplace]; rfl
  have htotal := hmoves.total fun loc => (loc.countsIn k f).toNat
  obtain ⟨hsetup, hqueue, hforked, requests, rfl⟩ | ⟨hsame, hcounts⟩ :=
    code_counters hcode (hs.invariant.fits t _ hstage)
  · -- nobody is there yet when the arrays are allocated
    have hnone := hs.invariant.opening (numAt_pos hs.invariant.sound.queued hstage hsetup)
    have hold : s.countAt (Loc.countsIn k f) = 0 := by
      by_contra hne
      obtain ⟨t', loc', hplace', hcounts⟩ := Core.exists_of_countAt_pos (Nat.pos_of_ne_zero hne)
      exact (Core.countAt_pos hs.invariant.sound.queued hplace' (isPerson_of_countsIn hcounts)).ne'
        hnone
    have hnew : u.countAt (Loc.countsIn k f) = 0 := by
      have hcaller : (if i.goesOn then
          (Loc.countsIn k f (.caller .forkManager requests)).toNat else 0) = 0 := ite_self 0
      rw [hcaller, hforked, Option.elim_none] at htotal
      unfold Core.countAt at hold ⊢
      omega
    rw [hqueue, hnew]
    exact (Int.add_zero _).symm
  · have hold := hs.counters (hsame ▸ hsize) k f
    have hnew := hcounts k f
    unfold Core.countAt at hold ⊢
    omega

theorem next_counted {v : Move Empty} (htwo : 2 ≤ numFloors) (hs : Counted numFloors junk s)
    (h : s.next (program junk) v = some u) : Counted numFloors junk u := by
  have hinvariant := next_invariant hs.invariant h
  have hsteering := next_steering hs.invariant.sound hs.steering h
  cases v with
  | interrupt e => exact e.elim
  | thread t =>
    obtain ⟨⟨e, u'⟩, hstep, rfl⟩ := Option.map_eq_some_iff.mp h
    obtain ⟨hmem, hplace, htotal⟩ | ⟨loc, b, i, next, hcode, rfl, hmoves⟩ :=
      Core.step_moves hs.invariant.sound.queued hstep
    · refine ⟨hinvariant, hsteering, fun t' loc h => ?_, ?_⟩
      · rw [hmem]
        exact hs.stands t' loc (hplace t' ▸ h)
      · intro hsize k f
        rw [hmem, hs.counters (hmem ▸ hsize)]
        unfold Core.countAt
        rw [htotal]
    · exact ⟨hinvariant, hsteering, fun _ _ => hs.stands_moves htwo hcode hmoves,
        hs.counters_moves hcode hmoves⟩

theorem start_counted (htwo : 2 ≤ numFloors) (requests : List (Int × Int)) :
    Counted numFloors junk (start numFloors requests) := by
  refine ⟨start_invariant (by omega) requests, ?_, fun t loc h => ?_, fun h => by cases h⟩
  · exact (Core.new_totalAt _ _ _ _).le
  · by_cases ht : t = 0
    · subst ht
      cases h
      exact rfl
    · simp [start, Core.new, ht, PC.place] at h

/-! ## The result -/

/-- A person that waits at a floor or in the elevator, and will take a branch when it finds the
elevator as it is now. -/
def CanAct (s : Core Sem Unit Unit Building Loc) : Prop :=
  ∃ t p a isIn, (s.pc t).place = some (.person p a) ∧
    (a = .loop isIn ∨ a = .locked isIn ∨ a = .awake isIn) ∧ (branch p isIn s.mem).isSome = true

/-- The arrays count the people, as long as nobody is about to change them. -/
def CountersAgree (numFloors : Int) (s : Core Sem Unit Unit Building Loc) : Prop :=
  0 < s.mem.size → 0 < (s.sem .q).value → ∀ k floor, 1 ≤ floor → floor ≤ numFloors →
    s.mem.queue k floor = (s.countAt (Loc.countsIn k floor) : Int)

/-- When `ManagerHelper` computes `getIn || getOut`, before its loop and again in each round, the
elements are there, and it finds that somebody wants to get in or out only if somebody can. -/
def DoorsOpenForPeople (s : Core Sem Unit Unit Building Loc) : Prop :=
  ∀ t i o floor,
    (s.pc t = .user (.manager (.look i o)) ∧ floor = s.mem.currentFloor) ∨
      s.pc t = .user (.manager (.lookAgain i o floor)) →
    ∃ wanted, s.mem.wanted i o floor = some wanted ∧ (wanted = true → CanAct s)

theorem branch_of_waiting {p : PersonThread} (hfloor : b.currentFloor = p.atFloor)
    (hup : b.movingUp = p.goingUp) (hcapacity : b.numPeopleIn < 5) :
    (branch p false b).isSome = true := by
  unfold branch
  cases hgoes : p.goingUp <;> by_cases hsame : p.atFloor = p.toFloor <;>
    simp [hfloor, hup, hcapacity, hgoes, hsame]

theorem branch_of_riding {p : PersonThread} (hfloor : b.currentFloor = p.toFloor) :
    (branch p true b).isSome = true := by
  unfold branch
  by_cases hsame : p.atFloor = p.toFloor <;> simp [hfloor, hsame]

/-- While the manager has `e`, the people that are counted wait. -/
theorem Counted.waits {a : Manager} (hs : Counted numFloors junk s) (hpc : s.pc t = .user (.manager a))
    (he : insideE (.manager a) = true) {t' : ThreadId} {k : Queue} {floor : Int}
    (hplace : (s.pc t').place = some loc) (hcounts : loc.countsIn k floor = true) :
    ∃ p a' isIn, loc = .person p a' ∧ (a' = .loop isIn ∨ a' = .locked isIn ∨ a' = .awake isIn) := by
  have hnot : loc.stage.acts = false := by
    by_contra hacts
    have hwithin : (s.pc t).within (.lock ()) insideE = true := by rw [hpc, Core.within_user, he]
    have heq := hs.invariant.sound.e.eq_of_within hs.invariant.sound.queued hwithin
      (within_of_acts (hs.invariant.sound.at_ t') hplace (Bool.eq_true_of_not_eq_false hacts))
    rw [heq, hpc] at hplace
    cases hplace
    cases hcounts
  cases loc with
  | caller _ _ | manager _ => cases hcounts
  | person p a' =>
    cases a' with
    | loop isIn => exact ⟨p, _, isIn, rfl, .inl rfl⟩
    | locked isIn => exact ⟨p, _, isIn, rfl, .inr (.inl rfl)⟩
    | awake isIn => exact ⟨p, _, isIn, rfl, .inr (.inr rfl)⟩
    | same | enter | leave | entered => cases hnot
    | _ => cases (countsIn_neither rfl rfl k floor).symm.trans hcounts

theorem waiting_of_countsIn {p : PersonThread} {a : Person} {movingUp : Bool} {floor : Int}
    (h : (Loc.person p a).countsIn (if movingUp then .up else .down) floor = true) :
    p.goingUp = movingUp ∧ p.atFloor = floor ∧ a.waiting = true := by
  cases movingUp <;> simpa [Loc.countsIn, and_assoc] using h

theorem riding_of_countsIn {p : PersonThread} {a : Person} {k : Queue} {floor : Int}
    (hk : k = .upTo ∨ k = .downTo) (h : (Loc.person p a).countsIn k floor = true) :
    p.toFloor = floor ∧ a.riding = true := by
  obtain rfl | rfl := hk <;> simp [Loc.countsIn, and_assoc] at h <;> exact h.2

theorem Counted.exists_person {k : Queue} {floor : Int} (hs : Counted numFloors junk s)
    (hsize : 0 < s.mem.size) (hjunk : junk k floor = 0) (hpos : 0 < s.mem.queue k floor) :
    ∃ t loc, (s.pc t).place = some loc ∧ loc.countsIn k floor = true := by
  rw [hs.counters hsize, hjunk, Int.zero_add] at hpos
  exact Core.exists_of_countAt_pos (Int.natCast_pos.mp hpos)

/-- The doors are opened for somebody who can get in or out. -/
theorem Counted.canAct {a : Manager} {inQueue outQueue : Queue} (hs : Counted numFloors junk s)
    (hpc : s.pc t = .user (.manager a)) (he : insideE (.manager a) = true)
    (htwo : 2 ≤ numFloors) (hhelps : s.mem.Helps numFloors inQueue outQueue)
    (hjunk : ∀ k, junk k s.mem.currentFloor = 0)
    (h : (0 < s.mem.queue inQueue s.mem.currentFloor ∧ s.mem.numPeopleIn < 5) ∨
      0 < s.mem.queue outQueue s.mem.currentFloor) : CanAct s := by
  have hsize : 0 < s.mem.size := by
    have := hhelps.size
    omega
  obtain ⟨hpos, hcapacity⟩ | hpos := h
  · obtain ⟨t', loc, hplace, hcounts⟩ := hs.exists_person hsize (hjunk _) hpos
    obtain ⟨p, a', isIn, rfl, ha'⟩ := hs.waits hpc he hplace hcounts
    rw [hhelps.button] at hcounts
    obtain ⟨hup, hfloor, hwaiting⟩ := waiting_of_countsIn hcounts
    refine ⟨t', p, a', isIn, hplace, ha', ?_⟩
    obtain rfl : isIn = false := by
      obtain rfl | rfl | rfl := ha' <;> exact Bool.not_eq_true' isIn ▸ hwaiting
    exact branch_of_waiting hfloor.symm hup.symm hcapacity
  · obtain ⟨t', loc, hplace, hcounts⟩ := hs.exists_person hsize (hjunk _) hpos
    obtain ⟨p, a', isIn, rfl, ha'⟩ := hs.waits hpc he hplace hcounts
    obtain ⟨hfloor, hriding⟩ := riding_of_countsIn hhelps.target hcounts
    refine ⟨t', p, a', isIn, hplace, ha', ?_⟩
    obtain rfl : isIn = true := by
      obtain rfl | rfl | rfl := ha' <;> exact hriding
    exact branch_of_riding hfloor.symm

theorem Building.OnFloor.wanted_eq (h : b.OnFloor numFloors) (inQueue outQueue : Queue) :
    b.wanted inQueue outQueue b.currentFloor =
      some (decide (b.queue inQueue b.currentFloor > 0) && decide (b.numPeopleIn < 5) ||
        decide (b.queue outQueue b.currentFloor > 0)) := by
  have hread (k : Queue) : b.read k b.currentFloor = some (b.queue k b.currentFloor) := by
    have hge := h.ge
    have hle := h.le
    have hsize := h.size
    exact if_pos (by omega)
  unfold Building.wanted
  rw [hread, hread]
  rfl

theorem Counted.agree (hs : Counted numFloors junk s)
    (hjunk : ∀ k floor, 1 ≤ floor → floor ≤ numFloors → junk k floor = 0) :
    CountersAgree numFloors s := by
  intro hsize _ k floor hge hle
  rw [hs.counters hsize, hjunk k floor hge hle, Int.zero_add]

theorem Counted.doors (htwo : 2 ≤ numFloors) (hs : Counted numFloors junk s)
    (hjunk : ∀ k floor, 1 ≤ floor → floor ≤ numFloors → junk k floor = 0) :
    DoorsOpenForPeople s := by
  intro t inQueue outQueue floor hlooks
  obtain ⟨a, hpc, he, hhelps, rfl⟩ : ∃ a, s.pc t = .user (.manager a) ∧ insideE (.manager a) = true ∧
      s.mem.Helps numFloors inQueue outQueue ∧ floor = s.mem.currentFloor := by
    obtain ⟨hpc, hfloor⟩ | hpc := hlooks
    · exact ⟨_, hpc, rfl, hs.stands t _ (congrArg PC.place hpc), hfloor⟩
    · exact ⟨_, hpc, rfl, hs.stands t _ (congrArg PC.place hpc)⟩
  refine ⟨_, hhelps.wanted_eq inQueue outQueue, fun hwanted => ?_⟩
  refine hs.canAct hpc he htwo hhelps (fun k => hjunk k _ hhelps.ge hhelps.le) ?_
  simpa using hwanted

/-- The main thread comes to allocate the arrays. -/
theorem run_allocates (junk : Queue → Int → Int) (htwo : 2 ≤ numFloors)
    (requests : List (Int × Int)) :
    ∃ ms s, run (Core.next (program junk)) ms (start numFloors requests) = some s ∧
      0 < s.mem.size ∧ 0 < (s.sem .q).value := by
  have helevator : (program junk).code 0 (.caller (.elevator numFloors) requests)
      (start numFloors requests).mem =
        some (_, .acquire (), .caller (.acquired numFloors) requests) :=
    congrArg some (if_neg (by omega))
  have hnext := Core.next_of_user (p := program junk) rfl helevator
  refine ⟨List.replicate 4 (.thread 0), _, run_cons_eq_some.mpr ⟨_, hnext, rfl⟩, ?_, Int.one_pos⟩
  show 0 < numFloors + 1
  omega

/-- In every interleaving, whenever `q` is free, the arrays count the people on every floor, and the
doors are opened for somebody who can get in or out only, just if `new int[size]` happens to return
zeros for the floors of the building. -/
theorem elevator_counters_iff (junk : Queue → Int → Int) (htwo : 2 ≤ numFloors)
    (requests : List (Int × Int)) :
    (∀ ms s, run (Core.next (program junk)) ms (start numFloors requests) = some s →
      CountersAgree numFloors s ∧ DoorsOpenForPeople s) ↔
    ∀ k floor, 1 ≤ floor → floor ≤ numFloors → junk k floor = 0 := by
  have hcounted {ms : List (Move Empty)} {s : Core Sem Unit Unit Building Loc}
      (h : run (Core.next (program junk)) ms (start numFloors requests) = some s) :
      Counted numFloors junk s :=
    run_invariant (fun _ _ _ hs hstep => next_counted htwo hs hstep) (start_counted htwo requests) h
  constructor
  · intro hall k floor hge hle
    obtain ⟨ms, s, h, hsize, hfree⟩ := run_allocates junk htwo requests
    have hagree := (hall ms s h).1 hsize hfree k floor hge hle
    have hcounters := (hcounted h).counters hsize k floor
    omega
  · intro hjunk ms s h
    exact ⟨(hcounted h).agree hjunk, (hcounted h).doors htwo hjunk⟩

/-- With zeros, one person is counted when it has just boarded for floor 2. -/
theorem elevator_counters_iff_boarded : ∃ s,
    run (Core.next (program fun _ _ => 0)) (ride.take 27) (start 2 [(1, 2)]) = some s ∧
    s.mem.queue .upTo 2 = 1 ∧ CountersAgree 2 s ∧ DoorsOpenForPeople s := by
  have heval : ((run (Core.next (program fun _ _ => 0)) (ride.take 27) (start 2 [(1, 2)])).any fun s =>
      s.mem.queue .upTo 2 = 1) = true := by
    decide +kernel
  obtain ⟨s, hs, hqueue⟩ := (Option.any_eq_true _ _).mp heval
  have hall := (elevator_counters_iff (fun _ _ => 0) (by decide : (2 : Int) ≤ 2) [(1, 2)]).mpr
    fun _ _ _ _ => rfl
  exact ⟨s, hs, of_decide_eq_true hqueue, hall _ s hs⟩

/-- With ones, the arrays count people before there are any, and the manager opens the doors for
nobody. -/
theorem not_elevator_counters :
    (∃ s, run (Core.next (program fun _ _ => 1)) (List.replicate 4 (.thread 0))
      (start 2 [(1, 2)]) = some s ∧ ¬ CountersAgree 2 s) ∧
    ∃ s, run (Core.next (program fun _ _ => 1))
      (List.replicate 5 (.thread 0) ++ List.replicate 3 (.thread 1)) (start 2 [(1, 2)]) = some s ∧
      ¬ DoorsOpenForPeople s := by
  constructor
  · have heval : ((run (Core.next (program fun _ _ => 1)) (List.replicate 4 (.thread 0))
        (start 2 [(1, 2)])).any fun s => 0 < s.mem.size ∧ 0 < (s.sem .q).value ∧
          s.mem.queue .up 1 ≠ s.countAt (Loc.countsIn .up 1)) = true := by
      decide +kernel
    obtain ⟨s, hs, hstate⟩ := (Option.any_eq_true _ _).mp heval
    obtain ⟨hsize, hfree, hne⟩ := of_decide_eq_true hstate
    exact ⟨s, hs, fun h => hne (h hsize hfree .up 1 (by decide) (by decide))⟩
  · have heval : ((run (Core.next (program fun _ _ => 1))
        (List.replicate 5 (.thread 0) ++ List.replicate 3 (.thread 1)) (start 2 [(1, 2)])).any fun s =>
          s.pc 1 = .user (.manager (.look .up .downTo)) ∧
          s.mem.wanted .up .downTo s.mem.currentFloor = some true ∧
          numAt Stage.isPerson s = 0) = true := by
      decide +kernel
    obtain ⟨s, hs, hstate⟩ := (Option.any_eq_true _ _).mp heval
    obtain ⟨hpc, hwanted, hnone⟩ := of_decide_eq_true hstate
    have hsound : Sound s := run_invariant (fun _ _ _ hs hstep => next_sound hs hstep)
      (start_sound (by decide) _) hs
    refine ⟨s, hs, fun h => ?_⟩
    obtain ⟨w, hw, hopens⟩ := h 1 .up .downTo _ (.inl ⟨hpc, rfl⟩)
    obtain rfl : w = true := Option.some.inj (hw.symm.trans hwanted)
    obtain ⟨t, p, a, isIn, hplace, -⟩ := hopens rfl
    have hperson : (Loc.person p a).stage.isPerson = true := by cases a <;> rfl
    exact (Core.countAt_pos hsound.queued hplace hperson).ne' hnone

end Nachos.Threads.Elevator
