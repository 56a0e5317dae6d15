import Nachos.Threads.Sections

/-!
# The elevator (threads/elevator.cc)

A main thread that calls `Elevator` once, and then `ArrivingGoingFromTo` for
each request, the thread that runs `Manager`, and the threads that run
`Person`, in any interleaving. The delay loop is left out, and of what is
printed only when a person gets in and out (`rides`); `id` and `count` do not
overflow.

* `Invariant`: what holds between two steps, above all of a person that is
  about to get in or out, while the lock `e` keeps the elevator where it is;
* `elevator_occupancy`: `numPeopleIn` is the number of people in the elevator,
  at most five; people get in and out where they asked to, and only once.
-/

namespace Nachos.Threads.Elevator

open Nachos.Framework

/-- The semaphores `c` and `q`. The lock is `e`, and the condition `cv`. -/
inductive Sem
  | c
  | q
deriving DecidableEq, Repr

/-- The arrays `upQueue`, `upToQueue`, `downQueue` and `downToQueue`. -/
inductive Queue
  | up
  | upTo
  | down
  | downTo
deriving DecidableEq, Repr

/-- `struct PersonThread`. -/
structure PersonThread where
  id : Int
  atFloor : Int
  toFloor : Int
deriving DecidableEq, Repr

def PersonThread.goingUp (p : PersonThread) : Bool := p.toFloor ≥ p.atFloor

/-- That a person got in or out, with the floor the elevator was on, and `movingUp`. -/
inductive Ride
  | gotIn (p : PersonThread) (floor : Int) (movingUp : Bool)
  | gotOut (p : PersonThread) (floor : Int)
deriving DecidableEq, Repr

/-- The variables of elevator.cc: those of `eThread`, and the arrays, which all have `size`
elements. `rides` and `exits` are not in the code: the rides of each thread so far, and how often
`Manager` has left its loop, each time with `c` taken. -/
structure Building where
  id : Int
  count : Int
  numFloors : Int
  currentFloor : Int
  numPeopleIn : Int
  movingUp : Bool
  size : Int
  queue : Queue → Int → Int
  rides : ThreadId → List Ride
  exits : Nat

namespace Building

/-- An element of an array; `none` when it has no such element. -/
def read (k : Queue) (floor : Int) (b : Building) : Option Int :=
  if 0 ≤ floor ∧ floor < b.size then some (b.queue k floor) else none

/-- `queue[floor] += d`. -/
def add (k : Queue) (floor d : Int) (b : Building) : Option Building :=
  (b.read k floor).map fun v =>
    { b with queue := Function.update b.queue k (Function.update (b.queue k) floor (v + d)) }

/-- `getIn || getOut`. -/
def wanted (inQueue outQueue : Queue) (floor : Int) (b : Building) : Option Bool := do
  let getIn := (← b.read inQueue floor) > 0 && b.numPeopleIn < 5
  let getOut := (← b.read outQueue floor) > 0
  return getIn || getOut

def ride (t : ThreadId) (rs : List Ride) (b : Building) : Building :=
  { b with rides := Function.update b.rides t (b.rides t ++ rs) }

end Building

/-- Where the main thread is. -/
inductive Caller
  /-- Calls `Elevator(numFloors)`. -/
  | elevator (numFloors : Int)
  /-- Has acquired `e`. -/
  | acquired (numFloors : Int)
  /-- Has released `e`. -/
  | released (numFloors : Int)
  /-- Has called `q->P()`. -/
  | allocate (numFloors : Int)
  /-- Forks `Manager`. -/
  | forkManager
  /-- Between two calls of `ArrivingGoingFromTo`. -/
  | arriving
  /-- Has called `c->P()`. -/
  | generateID (atFloor toFloor : Int)
  /-- Forks `Person`. -/
  | forkPerson (p : PersonThread)
deriving DecidableEq, Repr

/-- Where `Manager` is. From `looked` on it is in `ManagerHelper`. -/
inductive Manager
  | start
  | started
  /-- At the head of the loop, with `e`. -/
  | loop
  /-- Has called `q->P()`. -/
  | look (inQueue outQueue : Queue)
  | looked (inQueue outQueue : Queue) (floor : Int) (wanted : Bool)
  /-- At the head of the loop of `ManagerHelper`. -/
  | doors (inQueue outQueue : Queue) (floor : Int) (wanted : Bool)
  | locked (inQueue outQueue : Queue) (floor : Int)
  | lookAgain (inQueue outQueue : Queue) (floor : Int)
  | broadcasted (inQueue outQueue : Queue) (floor : Int) (wanted : Bool)
  | unlock (inQueue outQueue : Queue) (floor : Int) (wanted : Bool)
  | yielding (inQueue outQueue : Queue) (floor : Int) (wanted : Bool)
  /-- Past the loop of `ManagerHelper`. -/
  | move
  /-- Has called `c->P()`. -/
  | test
  | exited
deriving DecidableEq, Repr

/-- Where a person is, with the local variable `in` while it changes. -/
inductive Person
  | start
  /-- Has called `q->P()`. -/
  | press
  /-- At the head of the loop. -/
  | loop (isIn : Bool)
  /-- Has acquired `e`. -/
  | locked (isIn : Bool)
  /-- Past `cv->Wait(e)`. -/
  | awake (isIn : Bool)
  /-- Has called `q->P()`, in each of the three branches. -/
  | same
  | enter
  | leave
  /-- Has called `q->V()`, in each of the three branches. -/
  | stayed
  | entered
  | left
  /-- Has called `c->P()`. -/
  | counting
  | counted
  | done
deriving DecidableEq, Repr

/-- Where a thread is. The main thread has the requests with it that it has still to make. -/
inductive Loc
  | caller (a : Caller) (requests : List (Int × Int))
  | manager (a : Manager)
  | person (p : PersonThread) (a : Person)
deriving DecidableEq, Repr

/-- What a thread does next, and where that leaves it. -/
abbrev Code := Building × Instr Sem Unit Unit Loc × Loc

/-- `ArrivingGoingFromTo` for the first request, if there is one. -/
def arrivingGoingFromTo (requests : List (Int × Int)) (b : Building) : Code :=
  match requests with
  | [] => (b, .finish, .caller .arriving [])
  | (atFloor, toFloor) :: rest => (b, .P .c, .caller (.generateID atFloor toFloor) rest)

/-- `Elevator`, and then `ArrivingGoingFromTo`. `new int[size]` leaves `junk` in the arrays. -/
def callerCode (junk : Queue → Int → Int) (requests : List (Int × Int)) (b : Building) :
    Caller → Code
  | .elevator numFloors =>
    if numFloors ≤ 0 then arrivingGoingFromTo requests b
    else (b, .acquire (), .caller (.acquired numFloors) requests)
  | .acquired numFloors =>
    ({ b with numFloors := numFloors, currentFloor := 1, numPeopleIn := 0 }, .release (),
      .caller (.released numFloors) requests)
  | .released numFloors => (b, .P .q, .caller (.allocate numFloors) requests)
  | .allocate numFloors =>
    ({ b with size := numFloors + 1, queue := junk }, .V .q, .caller .forkManager requests)
  | .forkManager => (b, .fork (.manager .start), .caller .arriving requests)
  | .arriving => arrivingGoingFromTo requests b
  | .generateID atFloor toFloor =>
    ({ b with id := b.id + 1 }, .V .c, .caller (.forkPerson ⟨b.id + 1, atFloor, toFloor⟩) requests)
  | .forkPerson p => (b, .fork (.person p .start), .caller .arriving requests)

/-- The branches of the loop of `Manager`: `movingUp`, and the arguments of `ManagerHelper`. -/
def direction (b : Building) : Building × Queue × Queue :=
  if b.currentFloor = 1 then ({ b with movingUp := true }, .up, .downTo)
  else if b.currentFloor = b.numFloors then ({ b with movingUp := false }, .down, .upTo)
  else if b.movingUp then (b, .up, .upTo)
  else (b, .down, .downTo)

/-- `Manager` and `ManagerHelper`. -/
def managerCode (b : Building) : Manager → Option Code
  | .start => some (b, .yield, .manager .started)
  | .started => some (b, .acquire (), .manager .loop)
  | .loop =>
    let r := direction b
    some (r.1, .P .q, .manager (.look r.2.1 r.2.2))
  | .look i o => (b.wanted i o b.currentFloor).map fun w =>
    (b, .release (), .manager (.looked i o b.currentFloor w))
  | .looked i o floor w => some (b, .V .q, .manager (.doors i o floor w))
  | .doors i o floor true => some (b, .acquire (), .manager (.locked i o floor))
  | .doors _ _ _ false => some (b, .acquire (), .manager .move)
  | .locked i o floor => some (b, .P .q, .manager (.lookAgain i o floor))
  | .lookAgain i o floor => (b.wanted i o floor).map fun w =>
    (b, .broadcast () (), .manager (.broadcasted i o floor w))
  | .broadcasted i o floor w => some (b, .V .q, .manager (.unlock i o floor w))
  | .unlock i o floor w => some (b, .release (), .manager (.yielding i o floor w))
  | .yielding i o floor w => some (b, .yield, .manager (.doors i o floor w))
  | .move =>
    some ({ b with currentFloor := if b.movingUp then b.currentFloor + 1 else b.currentFloor - 1 },
      .P .c, .manager .test)
  | .test =>
    -- `break` leaves `c` taken
    if b.id = b.count then some ({ b with exits := b.exits + 1 }, .release (), .manager .exited)
    else some (b, .V .c, .manager .loop)
  | .exited => some (b, .finish, .manager .exited)

/-- The branch that a person takes after `cv->Wait(e)`. -/
def branch (p : PersonThread) (isIn : Bool) (b : Building) : Option Person :=
  let readyEnter := b.currentFloor = p.atFloor
  let readyLeave := b.currentFloor = p.toFloor
  let capacity := b.numPeopleIn < 5
  let direction := (p.goingUp && b.movingUp) || (!p.goingUp && !b.movingUp)
  if p.atFloor = p.toFloor ∧ readyEnter then some .same
  else if !isIn ∧ readyEnter ∧ direction ∧ capacity then some .enter
  else if isIn ∧ readyLeave then some .leave
  else none

/-- `Person`. -/
def personCode (t : ThreadId) (p : PersonThread) (b : Building) : Person → Option Code
  | .start => some (b, .P .q, .person p .press)
  | .press => (b.add (if p.goingUp then .up else .down) p.atFloor 1).map fun b' =>
    (b', .V .q, .person p (.loop false))
  | .loop isIn => some (b, .acquire (), .person p (.locked isIn))
  | .locked isIn => some (b, .wait () (), .person p (.awake isIn))
  | .awake isIn => match branch p isIn b with
    | some a => some (b, .P .q, .person p a)
    | none => some (b, .release (), .person p (.loop isIn))
  | .same => (b.add .up p.atFloor (-1)).map fun b' => (b', .V .q, .person p .stayed)
  | .stayed =>
    some (b.ride t [.gotIn p b.currentFloor b.movingUp, .gotOut p b.currentFloor], .P .c,
      .person p .counting)
  | .enter => do
    let b' ← b.add (if p.goingUp then .upTo else .downTo) p.toFloor 1
    let b'' ← b'.add (if p.goingUp then .up else .down) p.atFloor (-1)
    return (b'', .V .q, .person p .entered)
  | .entered =>
    some ({ b.ride t [.gotIn p b.currentFloor b.movingUp] with numPeopleIn := b.numPeopleIn + 1 },
      .release (), .person p (.loop true))
  | .leave => (b.add (if p.goingUp then .upTo else .downTo) p.toFloor (-1)).map fun b' =>
    (b', .V .q, .person p .left)
  | .left =>
    some ({ b.ride t [.gotOut p b.currentFloor] with numPeopleIn := b.numPeopleIn - 1 }, .P .c,
      .person p .counting)
  | .counting => some ({ b with count := b.count + 1 }, .V .c, .person p .counted)
  | .counted => some (b, .release (), .person p .done)
  | .done => some (b, .finish, .person p .done)

/-- All of the threads; the elevator has no interrupts of its own. -/
def program (junk : Queue → Int → Int) : Program Sem Unit Unit Building Loc Empty where
  code t loc b := match loc with
    | .caller a requests => some (callerCode junk requests b a)
    | .manager a => managerCode b a
    | .person p a => personCode t p b a
  handler e _ := e.elim

/-- The variables as they are at first, and the main thread, which is about to call `Elevator`. -/
def start (numFloors : Int) (requests : List (Int × Int)) : Core Sem Unit Unit Building Loc :=
  .new (fun _ => 1) ⟨0, 0, 0, 0, 0, true, 0, fun _ _ => 0, fun _ => [], 0⟩
    (.caller (.elevator numFloors) requests)

/-! ## Sections -/

/-- The places between `e->Acquire()` and `e->Release()` or `cv->Wait(e)`. -/
def insideE : Loc → Bool
  | .caller a _ => match a with
    | .acquired _ => true
    | _ => false
  | .manager a => match a with
    | .loop | .look _ _ | .locked _ _ _ | .lookAgain _ _ _ | .broadcasted _ _ _ _
    | .unlock _ _ _ _ | .move | .test => true
    | _ => false
  | .person _ a => match a with
    | .locked _ | .awake _ | .same | .enter | .leave | .stayed | .entered | .left | .counting
    | .counted => true
    | _ => false

/-- The places between `q->P()` and `q->V()`. -/
def insideQ : Loc → Bool
  | .caller a _ => match a with
    | .allocate _ => true
    | _ => false
  | .manager a => match a with
    | .look _ _ | .looked _ _ _ _ | .lookAgain _ _ _ | .broadcasted _ _ _ _ => true
    | _ => false
  | .person _ a => match a with
    | .press | .same | .enter | .leave => true
    | _ => false

/-- The places between `c->P()` and `c->V()`. -/
def insideC : Loc → Bool
  | .caller a _ => match a with
    | .generateID _ _ => true
    | _ => false
  | .manager a => match a with
    | .test => true
    | _ => false
  | .person _ a => match a with
    | .counting => true
    | _ => false

/-- The places that `e->Acquire()` returns to. -/
def entersE : Loc → Bool
  | .caller a _ => match a with
    | .acquired _ => true
    | _ => false
  | .manager a => match a with
    | .loop | .locked _ _ _ | .move => true
    | _ => false
  | .person _ a => match a with
    | .locked _ | .awake _ => true
    | _ => false

/-- The places that `q->P()` returns to. -/
def entersQ : Loc → Bool
  | .caller a _ => match a with
    | .allocate _ => true
    | _ => false
  | .manager a => match a with
    | .look _ _ | .lookAgain _ _ _ => true
    | _ => false
  | .person _ a => match a with
    | .press | .same | .enter | .leave => true
    | _ => false

/-- The places that `cv->Wait(e)` returns to. -/
def wakesUp : Loc → Bool
  | .person _ (.awake _) => true
  | _ => false

/-- `Elevator` is called with floors. -/
def proper : Loc → Bool
  | .caller (.elevator numFloors) _ => 0 < numFloors
  | _ => true

/-- Where a thread can be, if `Elevator` is called with floors. -/
def At : PC Sem Unit Unit Loc → Bool
  | .inP .c next => insideC next
  | .inP .q next => entersQ next
  | .inAcquire _ next => entersE next
  | .inWait _ _ next => wakesUp next
  | .user loc => proper loc
  | .finished => true

/-- Where a call can return to, and where it can begin a thread. -/
def returnsTo (next : Loc) : Instr Sem Unit Unit Loc → Bool
  | .P .c => insideC next
  | .P .q => entersQ next
  | .acquire _ => entersE next
  | .wait _ _ => wakesUp next
  | .fork start => proper start && proper next
  | _ => proper next

variable {junk : Queue → Int → Int} {s u : Core Sem Unit Unit Building Loc} {t : ThreadId}
variable {b b' : Building} {loc next : Loc} {i : Instr Sem Unit Unit Loc}

/-- What holds of a call from `loc`, before which the code has changed `b` to `b'`. -/
structure Obeys (loc : Loc) (b b' : Building) (i : Instr Sem Unit Unit Loc) (next : Loc) : Prop where
  e : i.keepsTo (.lock ()) insideE loc next = true
  q : i.keepsTo (.sem .q) insideQ loc next = true
  c : i.KeepsTo (.sem .c) insideC loc b.exits next b'.exits
  returns : returnsTo next i = true

theorem Obeys.of_test (he : i.keepsTo (.lock ()) insideE loc next = true)
    (hq : i.keepsTo (.sem .q) insideQ loc next = true)
    (hc : i.keepsTo (.sem .c) insideC loc next = true) (hexits : b'.exits = b.exits)
    (hreturns : returnsTo next i = true) : Obeys loc b b' i next :=
  ⟨he, hq, .of_test hc hexits, hreturns⟩

theorem Building.add_eq_some {k : Queue} {floor d : Int} (h : b.add k floor d = some b') :
    ∃ queue, b' = { b with queue := queue } := by
  obtain ⟨v, -, rfl⟩ := Option.map_eq_some_iff.mp h
  exact ⟨_, rfl⟩

theorem branch_eq_some {p : PersonThread} {isIn : Bool} {a : Person}
    (h : branch p isIn b = some a) :
    (a = .same ∧ p.atFloor = p.toFloor ∧ b.currentFloor = p.atFloor) ∨
    (a = .enter ∧ isIn = false ∧ p.atFloor ≠ p.toFloor ∧ b.currentFloor = p.atFloor ∧
      b.movingUp = p.goingUp ∧ b.numPeopleIn < 5) ∨
    (a = .leave ∧ isIn = true ∧ b.currentFloor = p.toFloor) := by
  unfold branch at h
  dsimp only at h
  split at h
  next hsame => exact .inl ⟨(Option.some.inj h).symm, hsame⟩
  next hsame =>
    split at h
    next henter =>
      obtain ⟨hin, hready, hdirection, hcapacity⟩ := henter
      refine .inr (.inl ⟨(Option.some.inj h).symm, by simpa using hin, fun heq => hsame ⟨heq, hready⟩,
        hready, ?_, hcapacity⟩)
      cases hup : p.goingUp <;> simpa [hup] using hdirection
    next =>
      split at h
      next hleave => exact .inr (.inr ⟨(Option.some.inj h).symm, hleave⟩)
      next => cases h

theorem arriving_obeys {a : Caller} {requests : List (Int × Int)}
    (ha : a = .arriving ∨ ∃ numFloors, a = .elevator numFloors)
    (h : arrivingGoingFromTo requests b = (b', i, next)) :
    Obeys (.caller a requests) b b' i next := by
  cases requests with
  | nil => cases h; obtain rfl | ⟨n, rfl⟩ := ha <;> exact .of_test rfl rfl rfl rfl rfl
  | cons r rest => cases h; obtain rfl | ⟨n, rfl⟩ := ha <;> exact .of_test rfl rfl rfl rfl rfl

/-- `Manager` leaves its loop with `c` taken. -/
theorem exit_obeys : Obeys (.manager .test) b { b with exits := b.exits + 1 } (.release ())
    (.manager .exited) := by
  refine ⟨rfl, rfl, ⟨nofun, nofun, fun _ _ => ⟨nofun, ?_⟩, nofun⟩, rfl⟩
  show 0 + (b.exits + 1) = 1 + b.exits
  omega

/-! ## What a step does -/

/-- What a thread is up to. `n` counts the calls of `ArrivingGoingFromTo` still to get past
`c->P()`. -/
inductive Stage
  | setup (n : Nat)
  | calls (n : Nat)
  | forks (p : PersonThread) (n : Nat)
  | manages
  | retired
  | waits (p : PersonThread) (isIn : Bool)
  | stays (p : PersonThread)
  | enters (p : PersonThread)
  | leaves (p : PersonThread)
  | counts (p : PersonThread)
  | counted (p : PersonThread)
deriving DecidableEq, Repr

def Loc.stage : Loc → Stage
  | .caller a requests => match a with
    | .elevator _ | .acquired _ | .released _ | .allocate _ | .forkManager => .setup requests.length
    | .arriving => .calls requests.length
    | .generateID _ _ => .calls (requests.length + 1)
    | .forkPerson p => .forks p requests.length
  | .manager a => match a with
    | .exited => .retired
    | _ => .manages
  | .person p a => match a with
    | .start | .press => .waits p false
    | .loop isIn | .locked isIn | .awake isIn => .waits p isIn
    | .same | .stayed => .stays p
    | .enter | .entered => .enters p
    | .leave | .left => .leaves p
    | .counting => .counts p
    | .counted | .done => .counted p

/-- What the code of thread `t` at `loc` does to `b` in one step, and the stages before and after it:
of `t`, and of the thread that it forks. -/
inductive Does (t : ThreadId) (loc : Loc) (b : Building) :
    Stage → Building → Option Stage → Option Stage → Prop
  | goesOn (x : Stage) (size : Int) (queue : Queue → Int → Int) :
    Does t loc b x { b with size := size, queue := queue } (some x) none
  | opens (n : Nat) (numFloors : Int) (he : insideE loc = true) :
    Does t loc b (.setup n) { b with numFloors := numFloors, currentFloor := 1, numPeopleIn := 0 }
      (some (.setup n)) none
  | forksManager (n : Nat) : Does t loc b (.setup n) b (some (.calls n)) (some .manages)
  | generates (n : Nat) (atFloor toFloor : Int) :
    Does t loc b (.calls (n + 1)) { b with id := b.id + 1 }
      (some (.forks ⟨b.id + 1, atFloor, toFloor⟩ n)) none
  | forksPerson (p : PersonThread) (n : Nat) :
    Does t loc b (.forks p n) b (some (.calls n)) (some (.waits p false))
  | returns : Does t loc b (.calls 0) b none none
  | turns (movingUp : Bool) (he : insideE loc = true) :
    Does t loc b .manages { b with movingUp := movingUp } (some .manages) none
  | moves (currentFloor : Int) (he : insideE loc = true) :
    Does t loc b .manages { b with currentFloor := currentFloor } (some .manages) none
  | exits (hloc : loc = .manager .test) (h : b.id = b.count) :
    Does t loc b .manages { b with exits := b.exits + 1 } (some .retired) none
  | ends : Does t loc b .retired b none none
  | stays (p : PersonThread) (isIn : Bool) (hsame : p.atFloor = p.toFloor)
      (hready : b.currentFloor = p.atFloor) :
    Does t loc b (.waits p isIn) b (some (.stays p)) none
  | stayed (p : PersonThread) :
    Does t loc b (.stays p)
      (b.ride t [.gotIn p b.currentFloor b.movingUp, .gotOut p b.currentFloor])
      (some (.counts p)) none
  | enters (p : PersonThread) (hsame : p.atFloor ≠ p.toFloor) (hready : b.currentFloor = p.atFloor)
      (hdirection : b.movingUp = p.goingUp) (hcapacity : b.numPeopleIn < 5) :
    Does t loc b (.waits p false) b (some (.enters p)) none
  | gotIn (p : PersonThread) (he : insideE loc = true) :
    Does t loc b (.enters p)
      { b.ride t [.gotIn p b.currentFloor b.movingUp] with numPeopleIn := b.numPeopleIn + 1 }
      (some (.waits p true)) none
  | leaves (p : PersonThread) (hready : b.currentFloor = p.toFloor) :
    Does t loc b (.waits p true) b (some (.leaves p)) none
  | gotOut (p : PersonThread) (he : insideE loc = true) :
    Does t loc b (.leaves p)
      { b.ride t [.gotOut p b.currentFloor] with numPeopleIn := b.numPeopleIn - 1 }
      (some (.counts p)) none
  | counts (p : PersonThread) :
    Does t loc b (.counts p) { b with count := b.count + 1 } (some (.counted p)) none
  | finishes (p : PersonThread) : Does t loc b (.counted p) b none none

theorem direction_cases (b : Building) : (direction b).1 = b ∨
    ∃ movingUp, (direction b).1 = { b with movingUp := movingUp } := by
  unfold direction
  split
  · exact .inr ⟨_, rfl⟩
  · split
    · exact .inr ⟨_, rfl⟩
    · split <;> exact .inl rfl

/-- All that a step of the code does: to the locks and semaphores, and to the elevator. -/
theorem code_spec (h : (program junk).code t loc b = some (b', i, next)) :
    Obeys loc b b' i next ∧ (proper loc = true →
      Does t loc b loc.stage b' (if i.goesOn then some next.stage else none)
        ((Core.forked i).map Loc.stage)) := by
  cases loc with
  | caller a requests =>
    have h := Option.some.inj h
    cases a with
    | elevator n =>
      simp only [callerCode] at h
      split at h
      next hn =>
        exact ⟨arriving_obeys (.inr ⟨n, rfl⟩) h, fun hloc => absurd hn (not_le.mpr (of_decide_eq_true hloc))⟩
      next => cases h; exact ⟨.of_test rfl rfl rfl rfl rfl, fun _ => .goesOn _ _ _⟩
    | acquired n => cases h; exact ⟨.of_test rfl rfl rfl rfl rfl, fun _ => .opens _ _ rfl⟩
    | released _ | allocate _ => cases h; exact ⟨.of_test rfl rfl rfl rfl rfl, fun _ => .goesOn _ _ _⟩
    | forkManager => cases h; exact ⟨.of_test rfl rfl rfl rfl rfl, fun _ => .forksManager _⟩
    | arriving =>
      refine ⟨arriving_obeys (.inl rfl) h, fun _ => ?_⟩
      cases requests with
      | nil => cases h; exact .returns
      | cons r rest => cases h; exact .goesOn _ _ _
    | generateID _ _ => cases h; exact ⟨.of_test rfl rfl rfl rfl rfl, fun _ => .generates _ _ _⟩
    | forkPerson p => cases h; exact ⟨.of_test rfl rfl rfl rfl rfl, fun _ => .forksPerson _ _⟩
  | manager a =>
    cases a with
    | loop =>
      cases h
      obtain heq | ⟨movingUp, heq⟩ := direction_cases b
      · rw [heq]; exact ⟨.of_test rfl rfl rfl rfl rfl, fun _ => .goesOn _ _ _⟩
      · rw [heq]; exact ⟨.of_test rfl rfl rfl rfl rfl, fun _ => .turns _ rfl⟩
    | look _ _ | lookAgain _ _ _ =>
      obtain ⟨w, -, heq⟩ := Option.map_eq_some_iff.mp h
      cases heq; exact ⟨.of_test rfl rfl rfl rfl rfl, fun _ => .goesOn _ _ _⟩
    | doors _ _ _ w =>
      cases w <;> (cases h; exact ⟨.of_test rfl rfl rfl rfl rfl, fun _ => .goesOn _ _ _⟩)
    | move => cases h; exact ⟨.of_test rfl rfl rfl rfl rfl, fun _ => .moves _ rfl⟩
    | test =>
      by_cases hid : b.id = b.count
      · simp only [program, managerCode, if_pos hid] at h
        cases h; exact ⟨exit_obeys, fun _ => .exits rfl hid⟩
      · simp only [program, managerCode, if_neg hid] at h
        cases h; exact ⟨.of_test rfl rfl rfl rfl rfl, fun _ => .goesOn _ _ _⟩
    | exited => cases h; exact ⟨.of_test rfl rfl rfl rfl rfl, fun _ => .ends⟩
    | start | started | looked _ _ _ _ | locked _ _ _ | broadcasted _ _ _ _ | unlock _ _ _ _
    | yielding _ _ _ _ => cases h; exact ⟨.of_test rfl rfl rfl rfl rfl, fun _ => .goesOn _ _ _⟩
  | person p a =>
    cases a with
    | press | same | leave =>
      obtain ⟨b₁, hadd, heq⟩ := Option.map_eq_some_iff.mp h
      obtain ⟨queue, rfl⟩ := Building.add_eq_some hadd
      cases heq; exact ⟨.of_test rfl rfl rfl rfl rfl, fun _ => .goesOn _ _ _⟩
    | enter =>
      obtain ⟨b₁, hadd, h⟩ := Option.bind_eq_some_iff.mp h
      obtain ⟨b₂, hadd', heq⟩ := Option.bind_eq_some_iff.mp h
      obtain ⟨queue, rfl⟩ := Building.add_eq_some hadd
      obtain ⟨queue', rfl⟩ := Building.add_eq_some hadd'
      cases heq; exact ⟨.of_test rfl rfl rfl rfl rfl, fun _ => .goesOn _ _ _⟩
    | awake isIn =>
      simp only [program, personCode] at h
      split at h
      next a hbranch =>
        cases h
        obtain ⟨rfl, hsame, hready⟩ | ⟨rfl, rfl, hsame, hready, hdirection, hcapacity⟩ |
          ⟨rfl, rfl, hready⟩ := branch_eq_some hbranch
        · exact ⟨.of_test rfl rfl rfl rfl rfl, fun _ => .stays p isIn hsame hready⟩
        · exact ⟨.of_test rfl rfl rfl rfl rfl, fun _ => .enters p hsame hready hdirection hcapacity⟩
        · exact ⟨.of_test rfl rfl rfl rfl rfl, fun _ => .leaves p hready⟩
      next => cases h; exact ⟨.of_test rfl rfl rfl rfl rfl, fun _ => .goesOn _ _ _⟩
    | stayed => cases h; exact ⟨.of_test rfl rfl rfl rfl rfl, fun _ => .stayed p⟩
    | entered => cases h; exact ⟨.of_test rfl rfl rfl rfl rfl, fun _ => .gotIn p rfl⟩
    | left => cases h; exact ⟨.of_test rfl rfl rfl rfl rfl, fun _ => .gotOut p rfl⟩
    | counting => cases h; exact ⟨.of_test rfl rfl rfl rfl rfl, fun _ => .counts p⟩
    | done => cases h; exact ⟨.of_test rfl rfl rfl rfl rfl, fun _ => .finishes p⟩
    | start | loop _ | locked _ | counted =>
      cases h; exact ⟨.of_test rfl rfl rfl rfl rfl, fun _ => .goesOn _ _ _⟩

/-! ## Runs -/

theorem section_e : Section (program junk) (.lock ()) insideE (fun _ => 0) :=
  ⟨fun h => .of_test (code_spec h).1.e rfl, fun {e} => e.elim⟩

theorem section_q : Section (program junk) (.sem .q) insideQ (fun _ => 0) :=
  ⟨fun h => .of_test (code_spec h).1.q rfl, fun {e} => e.elim⟩

theorem section_c : Section (program junk) (.sem .c) insideC Building.exits :=
  ⟨fun h => (code_spec h).1.c, fun {e} => e.elim⟩

theorem proper_of_enters (h : insideC loc = true ∨ entersQ loc = true ∨ entersE loc = true) :
    proper loc = true := by
  cases loc with
  | caller a requests =>
    cases a with
    | elevator n => obtain h | h | h := h <;> cases h
    | _ => rfl
  | manager _ | person _ _ => rfl

theorem entersE_of_wakesUp (h : wakesUp loc = true) : entersE loc = true := by
  unfold wakesUp at h
  split at h
  · rfl
  · cases h

theorem places : Places (program junk) fun q => At q = true where
  code := by
    intro t loc b b' i next q _ hcode hlands
    have hreturns := (code_spec hcode).1.returns
    cases hlands with
    | inP x => cases x <;> exact hreturns
    | inAcquire _ | inWait _ _ => exact hreturns
    | finished => rfl
    | start _ => exact (Bool.and_eq_true _ _ ▸ hreturns : _ ∧ _).1
    | user hgoes hwaits =>
      cases i with
      | P x =>
        cases x
        · exact proper_of_enters (.inl hreturns)
        · exact proper_of_enters (.inr (.inl hreturns))
      | acquire _ => exact proper_of_enters (.inr (.inr hreturns))
      | fork _ => exact (Bool.and_eq_true _ _ ▸ hreturns : _ ∧ _).2
      | wait _ _ => cases hwaits
      | V _ | release _ | signal _ _ | broadcast _ _ | yield | setLevel _ | finish => exact hreturns
  inP {x next} h := by
    cases x
    · exact proper_of_enters (.inl h)
    · exact proper_of_enters (.inr (.inl h))
  inAcquire h := proper_of_enters (.inr (.inr h))
  inWait h := entersE_of_wakesUp h

/-- What holds of the threads and of what they share to keep out of each other's way. -/
structure Sound (s : Core Sem Unit Unit Building Loc) : Prop where
  synchronized : s.Synchronized
  e : Guarded (.lock ()) insideE (fun _ => 0) s
  q : Guarded (.sem .q) insideQ (fun _ => 0) s
  c : Guarded (.sem .c) insideC Building.exits s
  at_ : ∀ t, At (s.pc t) = true

theorem Sound.queued (hs : Sound s) : s.Queued := hs.synchronized.queued

theorem next_sound {v : Move Empty} (hs : Sound s) (h : s.next (program junk) v = some u) :
    Sound u where
  synchronized := Core.next_synchronized hs.synchronized h
  e := Core.next_guarded section_e hs.queued hs.e h
  q := Core.next_guarded section_q hs.queued hs.q h
  c := Core.next_guarded section_c hs.queued hs.c h
  at_ := Core.next_places places hs.queued hs.at_ h

theorem start_sound {numFloors : Int} (hfloors : 0 < numFloors) (requests : List (Int × Int)) :
    Sound (start numFloors requests) where
  synchronized := Core.new_synchronized _ _ _
  e := Core.new_guarded _ rfl Int.one_nonneg rfl
  q := Core.new_guarded _ rfl Int.one_nonneg rfl
  c := Core.new_guarded _ rfl Int.one_nonneg rfl
  at_ t := by
    by_cases ht : t = 0
    · subst ht
      exact decide_eq_true hfloors
    · simp [start, Core.new, ht, At]

/-- What thread `t` is up to. -/
def stageOf (s : Core Sem Unit Unit Building Loc) (t : ThreadId) : Option Stage :=
  (s.pc t).place.map Loc.stage

/-- The number of threads at a stage that meets `f`. -/
def numAt (f : Stage → Bool) (s : Core Sem Unit Unit Building Loc) : Nat :=
  s.countAt fun loc => f loc.stage

theorem numAt_pos {f : Stage → Bool} {x : Stage} (hs : s.Queued) (hx : stageOf s t = some x)
    (hf : f x = true) : 0 < numAt f s := by
  obtain ⟨loc, hloc, rfl⟩ := Option.map_eq_some_iff.mp hx
  exact Core.countAt_pos hs hloc hf

theorem exists_of_numAt_pos {f : Stage → Bool} (h : 0 < numAt f s) :
    ∃ t x, stageOf s t = some x ∧ f x = true := by
  obtain ⟨t, loc, hloc, hf⟩ := Core.exists_of_countAt_pos h
  exact ⟨t, loc.stage, by rw [stageOf, hloc]; rfl, hf⟩

theorem eq_of_numAt_le_one {f : Stage → Bool} {x x' : Stage} {t' : ThreadId} (hs : s.Queued)
    (h : numAt f s ≤ 1) (hx : stageOf s t = some x) (hf : f x = true) (hx' : stageOf s t' = some x')
    (hf' : f x' = true) : t' = t := by
  obtain ⟨loc, hloc, rfl⟩ := Option.map_eq_some_iff.mp hx
  obtain ⟨loc', hloc', rfl⟩ := Option.map_eq_some_iff.mp hx'
  exact Core.eq_of_countAt_le_one hs h hloc hf hloc' hf'

/-- A thread is 1 if it is at a stage that meets `f`. -/
def weight (f : Stage → Bool) (x : Option Stage) : Nat := (x.any f).toNat

@[simp] theorem weight_none (f : Stage → Bool) : weight f none = 0 := rfl
@[simp] theorem weight_some (f : Stage → Bool) (x : Stage) : weight f (some x) = (f x).toNat := rfl

/-- A step of thread `t` in its own code, from `loc`. -/
structure Stepped (t : ThreadId) (loc : Loc) (y z : Option Stage)
    (s u : Core Sem Unit Unit Building Loc) : Prop where
  pc : s.pc t = .user loc
  does : Does t loc s.mem loc.stage u.mem y z
  self : stageOf u t = y
  others : ∀ t', t' ≠ t → stageOf u t' = stageOf s t' ∨
    ∃ x, t' = s.numThreads ∧ stageOf u t' = some x ∧ z = some x
  num : ∀ f, numAt f u + (f loc.stage).toNat = numAt f s + weight f y + weight f z
  numThreads : s.numThreads ≤ u.numThreads

theorem Stepped.stage {loc : Loc} {y z : Option Stage} (h : Stepped t loc y z s u) :
    stageOf s t = some loc.stage := by
  rw [stageOf, h.pc]
  rfl

/-- What a move of an interleaving is. -/
theorem next_stepped {v : Move Empty} (hs : Sound s) (h : s.next (program junk) v = some u) :
    (u.mem = s.mem ∧ (∀ t, stageOf u t = stageOf s t) ∧ (∀ f, numAt f u = numAt f s) ∧
      s.numThreads ≤ u.numThreads) ∨
    ∃ t loc y z, v = .thread t ∧ Stepped t loc y z s u := by
  cases v with
  | interrupt e => exact e.elim
  | thread t =>
    obtain ⟨⟨eff, u'⟩, hstep, rfl⟩ := Option.map_eq_some_iff.mp h
    have hnum := Core.numThreads_le_of_step hs.queued hstep
    obtain ⟨hmem, hplace, htotal⟩ | ⟨loc, b, i, next, hcode, hmem, hmoves⟩ :=
      Core.step_moves hs.queued hstep
    · refine .inl ⟨hmem, fun t' => ?_, fun f => htotal _, hnum⟩
      rw [stageOf, hplace]
      rfl
    · have hat := hs.at_ t
      rw [hmoves.pc] at hat
      refine .inr ⟨t, loc, _, _, rfl, hmoves.pc, hmem ▸ (code_spec hcode).2 hat, ?_, fun t' hne => ?_,
        fun f => ?_, hnum⟩
      · rw [stageOf, hmoves.place]
        cases i.goesOn <;> rfl
      · obtain hsame | ⟨start, rfl, hnew, hstart, -⟩ := hmoves.others t' hne
        · exact .inl (by rw [stageOf, hsame]; rfl)
        · exact .inr ⟨start.stage, hnew, by rw [stageOf, hstart]; rfl, rfl⟩
      · have htotal := hmoves.total fun loc => (f loc.stage).toNat
        unfold numAt Core.countAt
        rw [htotal]
        cases i.goesOn <;> cases Core.forked i <;> rfl

/-! ## The invariant -/

def Stage.isCaller : Stage → Bool
  | .setup _ | .calls _ | .forks _ _ => true
  | _ => false

def Stage.isSetup : Stage → Bool
  | .setup _ => true
  | _ => false

def Stage.isPerson : Stage → Bool
  | .waits _ _ | .stays _ | .enters _ | .leaves _ | .counts _ | .counted _ => true
  | _ => false

/-- The person is in the elevator. -/
def Stage.isIn : Stage → Bool
  | .waits _ isIn => isIn
  | .leaves _ => true
  | _ => false

/-- The person has taken a branch after `cv->Wait(e)`. -/
def Stage.acts : Stage → Bool
  | .stays _ | .enters _ | .leaves _ => true
  | _ => false

/-- What a person has found out when it takes a branch, and what it keeps to be in. -/
def Fits : Stage → Building → Prop
  | .stays p, b => b.currentFloor = p.atFloor ∧ p.atFloor = p.toFloor
  | .enters p, b => b.currentFloor = p.atFloor ∧ b.movingUp = p.goingUp ∧ b.numPeopleIn < 5 ∧
    p.atFloor ≠ p.toFloor
  | .waits p true, _ => p.atFloor ≠ p.toFloor
  | .leaves p, b => b.currentFloor = p.toFloor ∧ p.atFloor ≠ p.toFloor
  | _, _ => True

/-- A person that gets in does so on its floor, in its direction if it has one, and gets out after
that, on the floor it goes to. -/
def Journey (p : PersonThread) (rides : List Ride) : Prop :=
  ∃ movingUp, rides <+: [.gotIn p p.atFloor movingUp, .gotOut p p.toFloor] ∧
    (p.atFloor ≠ p.toFloor → movingUp = p.goingUp)

/-- The rides of a thread so far. -/
def Rode : Stage → List Ride → Prop
  | .waits p true, rides | .leaves p, rides => rides = [.gotIn p p.atFloor p.goingUp]
  | .counts p, rides | .counted p, rides => Journey p rides
  | _, rides => rides = []

structure Invariant (s : Core Sem Unit Unit Building Loc) : Prop where
  sound : Sound s
  callers : numAt Stage.isCaller s ≤ 1
  opening : 0 < numAt Stage.isSetup s → numAt Stage.isPerson s = 0
  occupancy : s.mem.numPeopleIn = numAt Stage.isIn s
  capacity : s.mem.numPeopleIn ≤ 5
  fits : ∀ t x, stageOf s t = some x → Fits x s.mem
  rode : ∀ t x, stageOf s t = some x → Rode x (s.mem.rides t)
  ended : ∀ t, stageOf s t = none → ∃ p, Journey p (s.mem.rides t)
  unborn : ∀ t, s.numThreads ≤ t → s.mem.rides t = []

section

variable {y z : Option Stage} {x : Stage}

theorem Does.callers (h : Does t loc b x b' y z) :
    weight Stage.isCaller y + weight Stage.isCaller z ≤ x.isCaller.toNat := by
  cases h <;> simp [Stage.isCaller]

theorem Does.setup (h : Does t loc b x b' y z) :
    weight Stage.isSetup y + weight Stage.isSetup z ≤ x.isSetup.toNat := by
  cases h <;> simp [Stage.isSetup]

/-- A person thread is begun by the main thread only, after `Elevator`. -/
theorem Does.person (h : Does t loc b x b' y z) :
    weight Stage.isPerson y + weight Stage.isPerson z ≤ x.isPerson.toNat ∨
      (x.isCaller = true ∧ x.isSetup = false) := by
  cases h <;> simp [Stage.isPerson, Stage.isCaller, Stage.isSetup]

theorem Does.occupancy (h : Does t loc b x b' y z) (hfits : Fits x b) :
    (x.isSetup = true ∧ b'.numPeopleIn = 0 ∧ weight Stage.isIn y + weight Stage.isIn z = 0) ∨
    b'.numPeopleIn + (x.isIn.toNat : Int) = b.numPeopleIn + (weight Stage.isIn y : Int) +
      (weight Stage.isIn z : Int) := by
  cases h with
  | opens _ _ _ => exact .inl ⟨rfl, rfl, rfl⟩
  | stays p isIn hsame _ =>
    cases isIn with
    | true => exact absurd hsame hfits
    | false => exact .inr (by simp [Stage.isIn])
  | _ => exact .inr (by simp [Stage.isIn, Building.ride])

theorem Does.capacity (h : Does t loc b x b' y z) (hfits : Fits x b) (hle : b.numPeopleIn ≤ 5) :
    b'.numPeopleIn ≤ 5 := by
  cases h with
  | opens _ _ _ => exact Int.natCast_nonneg 5
  | gotIn p _ => exact hfits.2.2.1
  | gotOut p _ => exact (Int.sub_le_self _ (by decide)).trans hle
  | _ => exact hle

/-- The elevator stays as it is, unless the thread has `e`. -/
theorem Does.frame (h : Does t loc b x b' y z) : insideE loc = true ∨
    (b'.currentFloor = b.currentFloor ∧ b'.movingUp = b.movingUp ∧
      b'.numPeopleIn = b.numPeopleIn) := by
  cases h <;> first | exact .inr ⟨rfl, rfl, rfl⟩ | exact .inl ‹_›

theorem Fits.frame (h : Fits x b) (hframe : b'.currentFloor = b.currentFloor ∧
    b'.movingUp = b.movingUp ∧ b'.numPeopleIn = b.numPeopleIn) : Fits x b' := by
  obtain ⟨hfloor, hup, hnum⟩ := hframe
  cases x with
  | waits p isIn => cases isIn <;> exact h
  | stays p => exact ⟨hfloor ▸ h.1, h.2⟩
  | enters p => exact ⟨hfloor ▸ h.1, hup ▸ h.2.1, hnum ▸ h.2.2.1, h.2.2.2⟩
  | leaves p => exact ⟨hfloor ▸ h.1, h.2⟩
  | setup _ | calls _ | forks _ _ | manages | retired | counts _ | counted _ => trivial

/-- What a thread finds out holds when it takes a branch. -/
theorem Does.fits (h : Does t loc b x b' y z) (hfits : Fits x b) {x' : Stage} (hx' : y = some x') :
    Fits x' b' := by
  cases h with
  | goesOn _ _ _ => cases hx'; exact hfits.frame ⟨rfl, rfl, rfl⟩
  | stays p isIn hsame hready => cases hx'; exact ⟨hready, hsame⟩
  | enters p hsame hready hdirection hcapacity =>
    cases hx'; exact ⟨hready, hdirection, hcapacity, hsame⟩
  | gotIn p _ => cases hx'; exact hfits.2.2.2
  | leaves p hready => cases hx'; exact ⟨hready, hfits⟩
  | returns | ends | finishes _ => cases hx'
  | opens _ _ _ | forksManager _ | generates _ _ _ | forksPerson _ _ | turns _ _ | moves _ _
  | exits _ _ | stayed _ | gotOut _ _ | counts _ => cases hx'; trivial

/-- A thread that is forked has found out nothing yet. -/
theorem Does.fits_forked (h : Does t loc b x b' y z) {x' : Stage} (hx' : z = some x') :
    Fits x' b' := by
  cases h <;> cases hx' <;> trivial

theorem Fits.of_not_acts (h : Fits x b) (hacts : x.acts = false) (b' : Building) : Fits x b' := by
  cases x with
  | waits p isIn => cases isIn <;> exact h
  | stays _ | enters _ | leaves _ => cases hacts
  | setup _ | calls _ | forks _ _ | manages | retired | counts _ | counted _ => trivial

theorem Does.rides (h : Does t loc b x b' y z) {t' : ThreadId} (hne : t' ≠ t) :
    b'.rides t' = b.rides t' := by
  cases h <;> first | rfl | exact Function.update_of_ne hne _ _

theorem Journey.nil (p : PersonThread) : Journey p [] := ⟨p.goingUp, List.nil_prefix, fun _ => rfl⟩

/-- The rides so far, after a step. -/
theorem Does.rode (h : Does t loc b x b' y z) (hfits : Fits x b) (hrode : Rode x (b.rides t))
    {x' : Stage} (hx' : y = some x') : Rode x' (b'.rides t) := by
  cases h with
  | stayed p =>
    cases hx'
    refine ⟨b.movingUp, ?_, fun hne => absurd hfits.2 hne⟩
    have hrode : b.rides t = [] := hrode
    simp [Building.ride, hrode, hfits.1, hfits.2]
  | gotIn p _ =>
    cases hx'
    have hrode : b.rides t = [] := hrode
    show Function.update b.rides t _ t = _
    simp [hrode, hfits.1, hfits.2.1]
  | gotOut p _ =>
    cases hx'
    have hrode : b.rides t = [.gotIn p p.atFloor p.goingUp] := hrode
    refine ⟨p.goingUp, ?_, fun _ => rfl⟩
    show Function.update b.rides t _ t <+: _
    simp [hrode, hfits.1]
  | leaves p _ | counts p | goesOn _ _ _ | opens _ _ _ | forksManager _ | generates _ _ _
  | forksPerson _ _ | turns _ _ | moves _ _ | exits _ _ | enters _ _ _ _ _ => cases hx'; exact hrode
  | stays p isIn hsame _ =>
    cases hx'
    cases isIn with
    | true => exact absurd hsame hfits
    | false => exact hrode
  | returns | ends | finishes _ => cases hx'

theorem Does.ended (h : Does t loc b x b' y z) (hrode : Rode x (b.rides t)) (hy : y = none) :
    ∃ p, Journey p (b'.rides t) := by
  cases h with
  | returns | ends =>
    have hrode : b.rides t = [] := hrode
    exact ⟨⟨0, 0, 0⟩, hrode ▸ .nil _⟩
  | finishes p => exact ⟨p, hrode⟩
  | _ => cases hy

theorem Does.rode_forked (h : Does t loc b x b' y z) {x' : Stage} (hx' : z = some x') :
    Rode x' [] := by
  cases h <;> cases hx' <;> rfl

theorem insideE_of_acts (h : loc.stage.acts = true) :
    insideE loc = true ∧ entersE loc = false := by
  cases loc with
  | caller a _ => cases a <;> cases h
  | manager a => cases a <;> cases h
  | person p a => cases a <;> first | exact ⟨rfl, rfl⟩ | cases h

/-- A thread that has taken a branch has `e`. -/
theorem within_of_acts {q : PC Sem Unit Unit Loc} (hq : At q = true) (hplace : q.place = some loc)
    (hacts : loc.stage.acts = true) : q.within (.lock ()) insideE = true := by
  obtain ⟨hinside, henters⟩ := insideE_of_acts hacts
  cases q with
  | user _ | inP _ _ =>
    cases hplace
    simp [PC.within, PC.takes, PC.place, hinside]
  | inAcquire _ _ =>
    cases hplace
    exact absurd (show entersE loc = true from hq) (by simp [henters])
  | inWait _ _ _ =>
    cases hplace
    exact absurd (entersE_of_wakesUp hq) (by simp [henters])
  | finished => cases hplace

/-- While a thread that has taken a branch has `e`, the elevator stays as it is for it. -/
theorem Stepped.frame (hs : Sound s) (h : Stepped t loc y z s u) {t' : ThreadId} (hne : t' ≠ t)
    (hx : stageOf s t' = some x) (hacts : x.acts = true) :
    u.mem.currentFloor = s.mem.currentFloor ∧ u.mem.movingUp = s.mem.movingUp ∧
      u.mem.numPeopleIn = s.mem.numPeopleIn := by
  obtain hinside | hframe := h.does.frame
  · obtain ⟨loc', hplace, rfl⟩ := Option.map_eq_some_iff.mp hx
    have hwithin : (s.pc t).within (.lock ()) insideE = true := by
      rw [h.pc, Core.within_user, hinside]
    exact absurd (hs.e.eq_of_within hs.queued hwithin (within_of_acts (hs.at_ t') hplace hacts)) hne
  · exact hframe

theorem Invariant.numAt_isIn_eq_zero (hs : Invariant s) (h : numAt Stage.isPerson s = 0) :
    numAt Stage.isIn s = 0 := by
  by_contra hne
  obtain ⟨t, x, hx, hin⟩ := exists_of_numAt_pos (Nat.pos_of_ne_zero hne)
  have hperson : x.isPerson = true := by cases x <;> first | rfl | cases hin
  exact (numAt_pos hs.sound.queued hx hperson).ne' h

theorem Stepped.occupancy (hs : Invariant s) (h : Stepped t loc y z s u) :
    u.mem.numPeopleIn = numAt Stage.isIn u := by
  have hnum := h.num Stage.isIn
  have hold := hs.occupancy
  obtain ⟨hsetup, hzero, hweight⟩ | hnew := h.does.occupancy (hs.fits t _ h.stage)
  · -- nobody is there yet when `Elevator` sets `numPeopleIn`
    have hnone := hs.numAt_isIn_eq_zero (hs.opening (numAt_pos hs.sound.queued h.stage hsetup))
    omega
  · omega

/-- As long as `Elevator` has not returned, no person has begun. -/
theorem Stepped.opening (hs : Invariant s) (h : Stepped t loc y z s u)
    (hpos : 0 < numAt Stage.isSetup u) : numAt Stage.isPerson u = 0 := by
  have hsetup := h.num Stage.isSetup
  have hsetup' := h.does.setup
  have hold : 0 < numAt Stage.isSetup s := by omega
  have hperson := h.num Stage.isPerson
  have hnone := hs.opening hold
  obtain hperson' | ⟨hcaller, hnot⟩ := h.does.person
  · omega
  · obtain ⟨t', x', hx', hsetup''⟩ := exists_of_numAt_pos hold
    have hcaller' : x'.isCaller = true := by cases x' <;> first | rfl | cases hsetup''
    obtain rfl := eq_of_numAt_le_one hs.sound.queued hs.callers h.stage hcaller hx' hcaller'
    rw [Option.some.inj (hx'.symm.trans h.stage), hnot] at hsetup''
    cases hsetup''

theorem Stepped.fits (hs : Invariant s) (h : Stepped t loc y z s u) (t' : ThreadId)
    (hx : stageOf u t' = some x) : Fits x u.mem := by
  by_cases hne : t' = t
  · subst hne
    exact h.does.fits (hs.fits t' _ h.stage) (h.self.symm.trans hx)
  · obtain hsame | ⟨x', -, hx', hz⟩ := h.others t' hne
    · have hx : stageOf s t' = some x := hsame.symm.trans hx
      have hfits := hs.fits t' x hx
      cases hacts : x.acts with
      | true => exact hfits.frame (h.frame hs.sound hne hx hacts)
      | false => exact hfits.of_not_acts hacts u.mem
    · obtain rfl : x' = x := Option.some.inj (hx'.symm.trans hx)
      exact h.does.fits_forked hz

theorem Stepped.rode (hs : Invariant s) (h : Stepped t loc y z s u) (t' : ThreadId)
    (hx : stageOf u t' = some x) : Rode x (u.mem.rides t') := by
  by_cases hne : t' = t
  · subst hne
    exact h.does.rode (hs.fits t' _ h.stage) (hs.rode t' _ h.stage) (h.self.symm.trans hx)
  · rw [h.does.rides hne]
    obtain hsame | ⟨x', hnew, hx', hz⟩ := h.others t' hne
    · exact hs.rode t' x (hsame.symm.trans hx)
    · obtain rfl : x' = x := Option.some.inj (hx'.symm.trans hx)
      rw [hs.unborn t' hnew.ge]
      exact h.does.rode_forked hz

theorem Stepped.ended (hs : Invariant s) (h : Stepped t loc y z s u) (t' : ThreadId)
    (hx : stageOf u t' = none) : ∃ p, Journey p (u.mem.rides t') := by
  by_cases hne : t' = t
  · subst hne
    exact h.does.ended (hs.rode t' _ h.stage) (h.self.symm.trans hx)
  · rw [h.does.rides hne]
    obtain hsame | ⟨x', -, hx', -⟩ := h.others t' hne
    · exact hs.ended t' (hsame.symm.trans hx)
    · cases hx'.symm.trans hx

end

theorem next_invariant {v : Move Empty} (hs : Invariant s) (h : s.next (program junk) v = some u) :
    Invariant u := by
  have hsound := next_sound hs.sound h
  obtain ⟨hmem, hstage, hnum, hthreads⟩ | ⟨t, loc, y, z, rfl, hstep⟩ := next_stepped hs.sound h
  · refine ⟨hsound, ?_, ?_, ?_, ?_, ?_, ?_, ?_, ?_⟩
    · rw [hnum]; exact hs.callers
    · rw [hnum, hnum]; exact hs.opening
    · rw [hmem, hnum]; exact hs.occupancy
    · rw [hmem]; exact hs.capacity
    · rw [hmem]; exact fun t x hx => hs.fits t x (hstage t ▸ hx)
    · rw [hmem]; exact fun t x hx => hs.rode t x (hstage t ▸ hx)
    · rw [hmem]; exact fun t ht => hs.ended t (hstage t ▸ ht)
    · rw [hmem]; exact fun t ht => hs.unborn t (hthreads.trans ht)
  · have hfits := hs.fits t _ hstep.stage
    refine ⟨hsound, ?_, hstep.opening hs, hstep.occupancy hs, hstep.does.capacity hfits hs.capacity,
      fun t' _ => hstep.fits hs t', fun t' _ => hstep.rode hs t', hstep.ended hs, fun t' ht' => ?_⟩
    · have := hstep.num Stage.isCaller
      have := hstep.does.callers
      have := hs.callers
      omega
    · have hlt := Core.lt_numThreads hs.sound.queued (t := t) (by simp [hstep.pc])
      have hle := hstep.numThreads.trans ht'
      rw [hstep.does.rides (hlt.trans_le hle).ne']
      exact hs.unborn t' hle

theorem start_invariant {numFloors : Int} (hfloors : 0 < numFloors) (requests : List (Int × Int)) :
    Invariant (start numFloors requests) := by
  have hnum (f : Stage → Bool) :
      numAt f (start numFloors requests) = (f (.setup requests.length)).toNat :=
    Core.new_totalAt _ _ _ _
  have hstage {t : ThreadId} {x : Stage} (hx : stageOf (start numFloors requests) t = some x) :
      x = .setup requests.length := by
    by_cases ht : t = 0
    · subst ht
      exact (Option.some.inj hx).symm
    · simp [stageOf, start, Core.new, ht, PC.place] at hx
  refine ⟨start_sound hfloors requests, ?_, fun _ => hnum _, ?_, by simp [start, Core.new],
    fun t x hx => ?_, fun t x hx => ?_, fun t _ => ⟨⟨0, 0, 0⟩, .nil _⟩, fun _ _ => rfl⟩
  · rw [hnum]; exact le_rfl
  · rw [hnum]; rfl
  · rw [hstage hx]; trivial
  · rw [hstage hx]; rfl

/-! ## The result -/

/-- The flag `in` of a person is set, and the person has not got out yet. -/
def Loc.isIn : Loc → Bool
  | .person _ a => match a with
    | .loop isIn | .locked isIn | .awake isIn => isIn
    | .leave | .left => true
    | _ => false
  | _ => false

theorem Loc.stage_isIn (loc : Loc) : loc.stage.isIn = loc.isIn := by
  cases loc with
  | caller a _ => cases a <;> rfl
  | manager a => cases a <;> rfl
  | person p a => cases a <;> rfl

theorem Rode.journey {p : PersonThread} {rides : List Ride} {x : Stage} (h : Rode x rides)
    (hx : x = .waits p false ∨ x = .waits p true ∨ x = .stays p ∨ x = .enters p ∨ x = .leaves p ∨
      x = .counts p ∨ x = .counted p) : Journey p rides := by
  have hin (h : rides = [.gotIn p p.atFloor p.goingUp]) : Journey p rides :=
    ⟨p.goingUp, by simp [h], fun _ => rfl⟩
  obtain rfl | rfl | rfl | rfl | rfl | rfl | rfl := hx
  · exact (show rides = [] from h) ▸ .nil p
  · exact hin h
  · exact (show rides = [] from h) ▸ .nil p
  · exact (show rides = [] from h) ▸ .nil p
  · exact hin h
  · exact h
  · exact h

theorem Loc.stage_person (p : PersonThread) (a : Person) :
    (Loc.person p a).stage = .waits p false ∨ (Loc.person p a).stage = .waits p true ∨
      (Loc.person p a).stage = .stays p ∨ (Loc.person p a).stage = .enters p ∨
      (Loc.person p a).stage = .leaves p ∨ (Loc.person p a).stage = .counts p ∨
      (Loc.person p a).stage = .counted p := by
  cases a with
  | loop isIn | locked isIn | awake isIn => cases isIn <;> simp [Loc.stage]
  | _ => simp [Loc.stage]

theorem Invariant.journey (hs : Invariant s) (t : ThreadId) :
    ∃ p, Journey p (s.mem.rides t) ∧ ∀ p' a, (s.pc t).place = some (.person p' a) → p' = p := by
  cases hplace : (s.pc t).place with
  | none =>
    obtain ⟨p, hp⟩ := hs.ended t (by rw [stageOf, hplace]; rfl)
    exact ⟨p, hp, fun _ _ h => by cases h⟩
  | some loc =>
    have hrode := hs.rode t loc.stage (by rw [stageOf, hplace]; rfl)
    cases loc with
    | person p a =>
      refine ⟨p, hrode.journey (Loc.stage_person p a), fun p' a' h => ?_⟩
      cases h
      rfl
    | caller a _ =>
      have hnil : s.mem.rides t = [] := by cases a <;> exact hrode
      exact ⟨⟨0, 0, 0⟩, hnil ▸ .nil _, fun _ _ h => by cases h⟩
    | manager a =>
      have hnil : s.mem.rides t = [] := by cases a <;> exact hrode
      exact ⟨⟨0, 0, 0⟩, hnil ▸ .nil _, fun _ _ h => by cases h⟩

/-- A step of a thread other than the main thread and the manager leaves the elevator where it is. -/
theorem Does.stands {x : Stage} {y z : Option Stage} (h : Does t loc b x b' y z)
    (hx : x.isPerson = true) :
    b'.currentFloor = b.currentFloor ∧ b'.movingUp = b.movingUp := by
  cases h <;> first | exact ⟨rfl, rfl⟩ | cases hx

/-- In every interleaving of the main thread, the manager and the people: `numPeopleIn` is the number
of people who are in, which is never above 5; a person gets in on its floor, while the elevator goes
its way, and after that gets out on the floor it goes to, each at most once; and the elevator
neither moves nor turns while a person holds `e`. -/
theorem elevator_occupancy {numFloors : Int} {requests : List (Int × Int)} {ms : List (Move Empty)}
    (hfloors : 0 < numFloors)
    (h : run (Core.next (program junk)) ms (start numFloors requests) = some s) :
    s.mem.numPeopleIn = s.countAt Loc.isIn ∧ 0 ≤ s.mem.numPeopleIn ∧ s.mem.numPeopleIn ≤ 5 ∧
    (∀ t, ∃ p movingUp,
      s.mem.rides t <+: [.gotIn p p.atFloor movingUp, .gotOut p p.toFloor] ∧
      (p.atFloor ≠ p.toFloor → movingUp = p.goingUp) ∧
      ∀ p' a, (s.pc t).place = some (.person p' a) → p' = p) ∧
    (∀ v u, s.next (program junk) v = some u → ∀ t p a, (s.lock ()).free = false →
      (s.lock ()).holder = some t → (s.pc t).place = some (.person p a) →
      u.mem.currentFloor = s.mem.currentFloor ∧ u.mem.movingUp = s.mem.movingUp) := by
  have hs : Invariant s :=
    run_invariant (fun _ _ _ hs hstep => next_invariant hs hstep) (start_invariant hfloors requests) h
  have hcount : numAt Stage.isIn s = s.countAt Loc.isIn := by
    unfold numAt
    simp only [Loc.stage_isIn]
  have hoccupancy := hs.occupancy
  rw [hcount] at hoccupancy
  refine ⟨hoccupancy, hoccupancy ▸ Int.natCast_nonneg _, hs.capacity, fun t => ?_, ?_⟩
  · obtain ⟨p, ⟨movingUp, hrides, hup⟩, hp⟩ := hs.journey t
    exact ⟨p, movingUp, hrides, hup, hp⟩
  · intro v u hnext t p a _ hholder hplace
    obtain ⟨hmem, -⟩ | ⟨t', loc, y, z, -, hstep⟩ := next_stepped hs.sound hnext
    · rw [hmem]; exact ⟨rfl, rfl⟩
    · obtain hinside | ⟨hfloor, hup, -⟩ := hstep.does.frame
      · -- the thread that moves the elevator holds `e` itself
        have hwithin : (s.pc t').within (.lock ()) insideE = true := by
          rw [hstep.pc, Core.within_user, hinside]
        obtain rfl : t' = t :=
          Option.some.inj ((hs.sound.e.holder () t' rfl hwithin).symm.trans hholder)
        rw [hstep.pc] at hplace
        obtain rfl := Option.some.inj hplace
        exact hstep.does.stands (by cases a <;> rfl)
      · exact ⟨hfloor, hup⟩

/-- Somebody goes from floor 1 to floor 2 of a building with two floors. -/
def ride : List (Move Empty) :=
  ([0, 0, 0, 0, 0, 0, 0, 0, 0, 1, 2, 2, 2, 2, 1, 1, 1, 1, 1, 1, 1, 1, 1, 1, 2, 2, 2, 2, 2, 2, 1, 1, 1, 1, 1,
    1, 2, 2, 2, 2, 1, 1, 1, 1, 1, 1, 1, 1, 1, 1, 1, 1, 2, 2, 2, 2, 2, 2, 2, 1, 1, 1, 1, 1, 1, 1, 1, 1, 1] :
    List Nat).map .thread

theorem elevator_occupancy_ride : ∃ s,
    run (Core.next (program fun _ _ => 0)) ride (start 2 [(1, 2)]) = some s ∧
    s.mem.rides 2 = [.gotIn ⟨1, 1, 2⟩ 1 true, .gotOut ⟨1, 1, 2⟩ 2] ∧
    s.mem.numPeopleIn = s.countAt Loc.isIn ∧ 0 ≤ s.mem.numPeopleIn ∧ s.mem.numPeopleIn ≤ 5 := by
  have heval : ((run (Core.next (program fun _ _ => 0)) ride (start 2 [(1, 2)])).any fun s =>
      s.mem.rides 2 = [.gotIn ⟨1, 1, 2⟩ 1 true, .gotOut ⟨1, 1, 2⟩ 2]) = true := by
    decide +kernel
  obtain ⟨s, hs, hrides⟩ := (Option.any_eq_true _ _).mp heval
  obtain ⟨h₁, h₂, h₃, -⟩ := elevator_occupancy (by decide) hs
  exact ⟨s, hs, of_decide_eq_true hrides, h₁, h₂, h₃⟩

end Nachos.Threads.Elevator
