import Nachos.Threads.Sections

/-!
# The thread test with semaphores (threads/threadtest.cc, HW1_SEMAPHORES)

`ThreadTest(n)` forks `n` threads that run `SimpleThread`, and then runs it
itself. Each thread adds one to `SharedVariable` five times, with a `Yield`
between reading and writing it, and then waits for the others: the first `n` to
arrive count themselves, the last one opens the barrier, and each that goes
through opens it for the next.

* `Does`: what the code of a thread does in one step;
* `Invariant`: what holds between two steps; the threads that have still to
  arrive (`missing`) decide what `count` is, and whether the barrier is open;
* `threadTest_correct`: no increment is lost, nobody goes through the barrier
  before all have made their five, and all print the same final value.
-/

namespace Nachos.Threads.ThreadTest

open Nachos.Framework

inductive Sem
  | semaphore
  | barrier
deriving DecidableEq, Repr

/-- What `printf` writes. -/
inductive Line
  | seesValue (which : Nat) (val : Int)
  | seesFinalValue (which : Nat) (val : Int)
deriving DecidableEq, Repr

/-- The global variables, and what was printed so far. `count` does not get above `numThreads`, so
that it does not wrap around. -/
structure Globals where
  numThreads : Nat
  count : Nat
  sharedVariable : Int
  output : List Line

def Globals.printf (line : Line) (m : Globals) : Globals := { m with output := m.output ++ [line] }

/-- Where a thread is. -/
inductive Loc
  /-- At the head of the loop of `ThreadTest`. -/
  | forking (i : Nat)
  /-- At the head of the loop of `SimpleThread`. -/
  | loop (which num : Nat)
  /-- Has called `semaphore->P()`. -/
  | inside (which num : Nat)
  /-- Has read `val`, and yielded. -/
  | yielded (which num : Nat) (val : Int)
  /-- Has called `semaphore->V()`. -/
  | outside (which num : Nat)
  /-- Has called `barrier->V()` as the last to arrive. -/
  | opened (which : Nat)
  /-- Has called `barrier->P()`. -/
  | through (which : Nat)
  /-- Has called `barrier->V()`. -/
  | passed (which : Nat)
deriving DecidableEq, Repr

abbrev Code := Globals × Instr Sem Empty Empty Loc × Loc

/-- `SimpleThread`, from the head of its loop. -/
def simpleThread (which num : Nat) (m : Globals) : Code :=
  if num < 5 then (m, .P .semaphore, .inside which num)
  else if m.count < m.numThreads then
    ({ m with count := m.count + 1 }, .P .barrier, .through which)
  else (m, .V .barrier, .opened which)

/-- `ThreadTest(n)` and `SimpleThread`. -/
def code (n : Nat) (m : Globals) : Loc → Code
  | .forking i =>
    if i < n then (m, .fork (.loop (i + 1) 0), .forking (i + 1)) else simpleThread 0 0 m
  | .loop which num => simpleThread which num m
  | .inside which num =>
    (m.printf (.seesValue which m.sharedVariable), .yield, .yielded which num m.sharedVariable)
  | .yielded which num val =>
    ({ m with sharedVariable := int32 (val + 1) }, .V .semaphore, .outside which num)
  | .outside which num => (m, .yield, .loop which (num + 1))
  | .opened which => (m, .P .barrier, .through which)
  | .through which => (m, .V .barrier, .passed which)
  | .passed which =>
    (m.printf (.seesFinalValue which m.sharedVariable), .finish, .passed which)

def program (n : Nat) : Program Sem Empty Empty Globals Loc Empty where
  code _ loc m := some (code n m loc)
  handler e _ := e.elim

def initialValue : Sem → Int
  | .semaphore => 1
  | .barrier => 0

/-- The main thread in `ThreadTest(n)`, which has just set `numThreads`. -/
def start (n : Nat) : Core Sem Empty Empty Globals Loc :=
  .new initialValue ⟨n, 0, 0, []⟩ (.forking 0)

/-! ## What a step does -/

inductive Does (n : Nat) (m : Globals) : Loc → Globals → Instr Sem Empty Empty Loc → Loc → Prop
  | forks (i : Nat) (h : i < n) : Does n m (.forking i) m (.fork (.loop (i + 1) 0)) (.forking (i + 1))
  | begins (i : Nat) (h : ¬ i < n) : Does n m (.forking i) m (.P .semaphore) (.inside 0 0)
  | enters (which num : Nat) (h : num < 5) :
    Does n m (.loop which num) m (.P .semaphore) (.inside which num)
  | arrives (which num : Nat) (h : ¬ num < 5) (hcount : m.count < m.numThreads) :
    Does n m (.loop which num) { m with count := m.count + 1 } (.P .barrier) (.through which)
  | opens (which num : Nat) (h : ¬ num < 5) (hcount : ¬ m.count < m.numThreads) :
    Does n m (.loop which num) m (.V .barrier) (.opened which)
  | reads (which num : Nat) :
    Does n m (.inside which num) (m.printf (.seesValue which m.sharedVariable)) .yield
      (.yielded which num m.sharedVariable)
  | writes (which num : Nat) (val : Int) :
    Does n m (.yielded which num val) { m with sharedVariable := int32 (val + 1) } (.V .semaphore)
      (.outside which num)
  | yields (which num : Nat) : Does n m (.outside which num) m .yield (.loop which (num + 1))
  | waits (which : Nat) : Does n m (.opened which) m (.P .barrier) (.through which)
  | passes (which : Nat) : Does n m (.through which) m (.V .barrier) (.passed which)
  | prints (which : Nat) :
    Does n m (.passed which) (m.printf (.seesFinalValue which m.sharedVariable)) .finish
      (.passed which)

variable {n : Nat} {s u : Core Sem Empty Empty Globals Loc} {t : ThreadId} {m m' : Globals}
variable {loc next : Loc} {i : Instr Sem Empty Empty Loc}

theorem code_does (h : (program n).code t loc m = some (m', i, next)) : Does n m loc m' i next := by
  have h : code n m loc = (m', i, next) := Option.some.inj h
  cases loc with
  | forking j =>
    rw [code] at h
    split at h
    next hj => cases h; exact .forks j hj
    next hj => cases h; exact .begins j hj
  | loop which num =>
    rw [code, simpleThread] at h
    split at h
    next hnum => cases h; exact .enters which num hnum
    next hnum =>
      split at h
      next hcount => cases h; exact .arrives which num hnum hcount
      next hcount => cases h; exact .opens which num hnum hcount
  | inside which num => cases h; exact .reads which num
  | yielded which num val => cases h; exact .writes which num val
  | outside which num => cases h; exact .yields which num
  | opened which => cases h; exact .waits which
  | through which => cases h; exact .passes which
  | passed which => cases h; exact .prints which

/-! ## Sections -/

/-- The places between `semaphore->P()` and `semaphore->V()`. -/
def insideSemaphore : Loc → Bool
  | .inside _ _ | .yielded _ _ _ => true
  | _ => false

/-- The places between `barrier->P()` and `barrier->V()`. -/
def insideBarrier : Loc → Bool
  | .through _ => true
  | _ => false

theorem Does.semaphore (h : Does n m loc m' i next) :
    i.keepsTo (.sem .semaphore) insideSemaphore loc next = true := by
  cases h <;> rfl

theorem section_semaphore : Section (program n) (.sem .semaphore) insideSemaphore (fun _ => 0) :=
  ⟨fun h => .of_test (code_does h).semaphore rfl, fun {e} => e.elim⟩

/-- Where `P` returns to. -/
def At : PC Sem Empty Empty Loc → Prop
  | .inP .semaphore next => ∃ which num, next = .inside which num
  | .inP .barrier next => ∃ which, next = .through which
  | _ => True

theorem places : Places (program n) At where
  code := by
    intro t loc m m' i next q _ hcode hlands
    cases hlands with
    | inP x =>
      cases code_does hcode with
      | begins _ _ | enters _ _ _ => exact ⟨_, _, rfl⟩
      | arrives _ _ _ _ | waits _ => exact ⟨_, rfl⟩
    | inAcquire k => exact k.elim
    | inWait c _ => exact c.elim
    | finished | start _ | user _ _ => trivial
  inP _ := trivial
  inAcquire _ := trivial
  inWait {c} _ := c.elim

/-! ## The invariant -/

/-- The values of the loop variables. -/
def Bounded (n : Nat) : Loc → Prop
  | .forking i => i ≤ n
  | .loop _ num => num ≤ 5
  | .inside _ num | .yielded _ num _ | .outside _ num => num < 5
  | _ => True

/-- The increments that a thread has still to make. -/
def remaining : Loc → Nat
  | .forking _ => 5
  | .loop _ num | .inside _ num | .yielded _ num _ => 5 - num
  | .outside _ num => 4 - num
  | _ => 0

/-- The threads that a thread has still to fork. -/
def unforked (n : Nat) : Loc → Nat
  | .forking i => n - i
  | _ => 0

/-- The arrivals at the barrier that a thread stands for: its own, and those of the threads that it
has still to fork. -/
def missing (n : Nat) : Loc → Nat
  | .forking i => n - i + 1
  | .loop _ _ | .inside _ _ | .yielded _ _ _ | .outside _ _ => 1
  | _ => 0

/-- The permit that the barrier has, once all have arrived. -/
def shut (n : Nat) (s : Core Sem Empty Empty Globals Loc) : Nat :=
  if s.totalAt (missing n) = 0 then 0 else 1

structure Invariant (n : Nat) (s : Core Sem Empty Empty Globals Loc) : Prop where
  queued : s.Queued
  semaphore : Guarded (.sem .semaphore) insideSemaphore (fun _ => 0) s
  barrier : Guarded (.sem .barrier) insideBarrier (fun _ => shut n s) s
  at_ : ∀ t, At (s.pc t)
  bounded : ∀ t loc, (s.pc t).place = some loc → Bounded n loc
  numThreads : s.mem.numThreads = n
  forked : s.numThreads + s.totalAt (unforked n) = n + 1
  /-- What a thread has read is still the value when it writes. -/
  reads : ∀ t which num val, (s.pc t).place = some (.yielded which num val) →
    val = s.mem.sharedVariable
  shared : s.mem.sharedVariable = int32 (5 * (s.numThreads : Int) - (s.totalAt remaining : Int))
  count : s.mem.count + max (s.totalAt (missing n)) 1 = n + 1
  passed : ∀ t which, (s.pc t).place = some (.passed which) → s.totalAt (missing n) = 0
  ended : ∀ t < s.numThreads, (s.pc t).place = none → s.totalAt (missing n) = 0
  final : ∀ which val, .seesFinalValue which val ∈ s.mem.output → val = int32 (5 * (n + 1))

/-- A step of thread `t` in its own code. -/
structure Stepped (n : Nat) (t : ThreadId) (loc : Loc) (i : Instr Sem Empty Empty Loc) (next : Loc)
    (s u : Core Sem Empty Empty Globals Loc) : Prop where
  code : (program n).code t loc s.mem = some (u.mem, i, next)
  moves : Core.Moves t loc i next s u
  numThreads : u.numThreads = s.numThreads + ((Core.forked i).elim 0 fun _ => 1)
  started : ∀ start, i = .fork start → (u.pc s.numThreads).place = some start

theorem Stepped.does (h : Stepped n t loc i next s u) : Does n s.mem loc u.mem i next :=
  code_does h.code

theorem Stepped.place (h : Stepped n t loc i next s u) : (s.pc t).place = some loc := by
  rw [h.moves.pc]
  rfl

theorem step_stepped {e : Effect} (hs : s.Queued) (h : s.step (program n) t = some (e, u)) :
    (∀ loc, s.pc t ≠ .user loc) ∨ ∃ loc i next, Stepped n t loc i next s u := by
  by_cases hu : ∃ loc, s.pc t = .user loc
  · obtain ⟨loc, hu⟩ := hu
    obtain ⟨m, i, next, hcode, rfl, hmoves, hnum, hstart⟩ := Core.step_user hs hu h
    exact .inr ⟨loc, i, next, hcode, hmoves, hnum, hstart⟩
  · exact .inl fun loc h => hu ⟨loc, h⟩

/-! ## What a step keeps -/

theorem Does.bounded (h : Does n m loc m' i next) (hb : Bounded n loc) :
    Bounded n next ∧ ∀ start, i = .fork start → Bounded n start := by
  cases h with
  | forks j hj => exact ⟨hj, fun start h => by cases h; exact Nat.zero_le 5⟩
  | begins j hj => exact ⟨Nat.zero_lt_succ 4, fun _ h => by cases h⟩
  | enters which num hnum => exact ⟨hnum, fun _ h => by cases h⟩
  | reads which num | writes which num val => exact ⟨hb, fun _ h => by cases h⟩
  | yields which num => exact ⟨hb, fun _ h => by cases h⟩
  | _ => exact ⟨trivial, fun _ h => by cases h⟩

/-- A thread that is forked has five increments to make; each write makes one. -/
theorem Does.remaining (h : Does n m loc m' i next) (hb : Bounded n loc) :
    (∃ which num val, loc = .yielded which num val ∧ m'.sharedVariable = int32 (val + 1) ∧
      i.goesOn = true ∧ Core.forked i = none ∧
      ThreadTest.remaining loc = ThreadTest.remaining next + 1) ∨
    (m'.sharedVariable = m.sharedVariable ∧
      (if i.goesOn then ThreadTest.remaining next else 0) +
          (Core.forked i).elim 0 ThreadTest.remaining =
        ThreadTest.remaining loc + 5 * (Core.forked i).elim 0 fun _ => 1) := by
  cases h with
  | writes which num val =>
    have hb : num < 5 := hb
    refine .inl ⟨which, num, val, rfl, rfl, rfl, rfl, ?_⟩
    show 5 - num = 4 - num + 1
    omega
  | arrives which num hnum _ | opens which num hnum _ =>
    refine .inr ⟨rfl, ?_⟩
    show 0 + 0 = 5 - num + 5 * 0
    omega
  | yields which num =>
    refine .inr ⟨rfl, ?_⟩
    show 5 - (num + 1) + 0 = 4 - num + 5 * 0
    omega
  | _ => exact .inr ⟨rfl, rfl⟩

/-- A thread arrives with the first step after its loop: it is counted, or opens the barrier. Every
other step keeps to the barrier, and changes neither `count` nor how many are missing. -/
theorem Does.missing (h : Does n m loc m' i next) (hb : Bounded n loc) :
    (i.keepsTo (.sem .barrier) insideBarrier loc next = true ∧ m'.count = m.count ∧
      (if i.goesOn then ThreadTest.missing n next else 0) +
        (Core.forked i).elim 0 (ThreadTest.missing n) = ThreadTest.missing n loc) ∨
    (ThreadTest.missing n loc = 1 ∧ (if i.goesOn then ThreadTest.missing n next else 0) = 0 ∧
      Core.forked i = none ∧
      ((i.keepsTo (.sem .barrier) insideBarrier loc next = true ∧ m.count < m.numThreads ∧
          m'.count = m.count + 1) ∨
        (i = .V .barrier ∧ insideBarrier loc = false ∧ insideBarrier next = false ∧
          ¬ m.count < m.numThreads ∧ m'.count = m.count))) := by
  cases h with
  | forks j hj =>
    refine .inl ⟨rfl, rfl, ?_⟩
    show n - (j + 1) + 1 + 1 = n - j + 1
    omega
  | begins j hj =>
    refine .inl ⟨rfl, rfl, ?_⟩
    show 1 + 0 = n - j + 1
    omega
  | arrives which num _ hcount => exact .inr ⟨rfl, rfl, rfl, .inl ⟨rfl, hcount, rfl⟩⟩
  | opens which num _ hcount => exact .inr ⟨rfl, rfl, rfl, .inr ⟨rfl, rfl, rfl, hcount, rfl⟩⟩
  | _ => exact .inl ⟨rfl, rfl, rfl⟩

theorem Does.unforked (h : Does n m loc m' i next) :
    (if i.goesOn then ThreadTest.unforked n next else 0) +
        (Core.forked i).elim 0 (ThreadTest.unforked n) + ((Core.forked i).elim 0 fun _ => 1) =
      ThreadTest.unforked n loc := by
  cases h with
  | forks j hj =>
    show n - (j + 1) + 0 + 1 = n - j
    omega
  | begins j hj =>
    show 0 + 0 + 0 = n - j
    omega
  | _ => rfl

theorem Does.forks_loop (h : Does n m loc m' i next) {start : Loc} (hi : i = .fork start) :
    ∃ which, start = .loop which 0 := by
  cases h <;> cases hi
  exact ⟨_, rfl⟩

theorem Does.numThreads (h : Does n m loc m' i next) : m'.numThreads = m.numThreads := by
  cases h <;> rfl

/-- Where all have arrived, all threads have been forked, and no increment is left. -/
theorem totals_of_missing (h : s.totalAt (missing n) = 0) :
    s.totalAt (unforked n) = 0 ∧ s.totalAt remaining = 0 := by
  have hunforked (loc : Loc) : unforked n loc ≤ 1 * missing n loc := by
    cases loc <;> simp only [unforked, missing] <;> omega
  have hremaining (loc : Loc) : remaining loc ≤ 5 * missing n loc := by
    cases loc <;> simp only [remaining, missing] <;> omega
  have := Core.totalAt_le hunforked s
  have := Core.totalAt_le hremaining s
  omega

theorem Invariant.shared_of_missing (hs : Invariant n s) (h : s.totalAt (missing n) = 0) :
    s.numThreads = n + 1 ∧ s.mem.sharedVariable = int32 (5 * (n + 1)) := by
  obtain ⟨hunforked, hremaining⟩ := totals_of_missing h
  have hnum : s.numThreads = n + 1 := by
    have := hs.forked
    omega
  refine ⟨hnum, ?_⟩
  rw [hs.shared, hremaining, hnum]
  simp

/-- How many are missing after a step. -/
theorem Stepped.missing (hs : Invariant n s) (h : Stepped n t loc i next s u) :
    (i.keepsTo (.sem .barrier) insideBarrier loc next = true ∧ u.mem.count = s.mem.count ∧
      u.totalAt (missing n) = s.totalAt (missing n)) ∨
    (u.totalAt (missing n) + 1 = s.totalAt (missing n) ∧
      ((i.keepsTo (.sem .barrier) insideBarrier loc next = true ∧ s.mem.count < n ∧
          u.mem.count = s.mem.count + 1) ∨
        (i = .V .barrier ∧ insideBarrier loc = false ∧ insideBarrier next = false ∧
          ¬ s.mem.count < n ∧ u.mem.count = s.mem.count))) := by
  have htotal := h.moves.total (ThreadTest.missing n)
  obtain ⟨hkeeps, hcount, hsame⟩ | ⟨hone, hzero, hforked, hcase⟩ :=
    h.does.missing (hs.bounded t loc h.place)
  · exact .inl ⟨hkeeps, hcount, by omega⟩
  · rw [hone, hzero, hforked] at htotal
    rw [hs.numThreads] at hcase
    exact .inr ⟨htotal, hcase⟩

theorem Stepped.missing_le (hs : Invariant n s) (h : Stepped n t loc i next s u) :
    u.totalAt (ThreadTest.missing n) ≤ s.totalAt (ThreadTest.missing n) := by
  obtain ⟨-, -, hsame⟩ | ⟨hless, -⟩ := h.missing hs <;> omega

theorem Stepped.count (hs : Invariant n s) (h : Stepped n t loc i next s u) :
    u.mem.count + max (u.totalAt (ThreadTest.missing n)) 1 = n + 1 := by
  have hold := hs.count
  obtain ⟨-, hcount, hsame⟩ | ⟨hless, ⟨-, hlt, hcount⟩ | ⟨-, -, -, hge, hcount⟩⟩ := h.missing hs <;>
    omega

theorem Stepped.forked (hs : Invariant n s) (h : Stepped n t loc i next s u) :
    u.numThreads + u.totalAt (unforked n) = n + 1 := by
  have htotal := h.moves.total (unforked n)
  have hdoes := h.does.unforked
  have hold := hs.forked
  have hnum := h.numThreads
  omega

theorem Stepped.shared (hs : Invariant n s) (h : Stepped n t loc i next s u) :
    u.mem.sharedVariable = int32 (5 * (u.numThreads : Int) - (u.totalAt remaining : Int)) := by
  have htotal := h.moves.total remaining
  have hnum := h.numThreads
  obtain ⟨which, num, val, rfl, hval, hgoes, hforked, hone⟩ | ⟨hsame, hsum⟩ :=
    h.does.remaining (hs.bounded t loc h.place)
  · -- the value read is the one to add to
    rw [hgoes, hforked, hone] at htotal
    rw [hforked] at hnum
    rw [hval, hs.reads t which num val h.place, hs.shared, int32, int32, Int.bmod_add_bmod]
    congr 1
    simp only [if_true, Option.elim_none] at htotal hnum
    omega
  · rw [hsame, hs.shared]
    congr 1
    omega

theorem within_of_yielded {q : PC Sem Empty Empty Loc} {which num : Nat} {val : Int} (hat : At q)
    (hq : q.place = some (.yielded which num val)) :
    q.within (.sem .semaphore) insideSemaphore = true := by
  cases q with
  | user loc =>
    cases hq
    rfl
  | inP x next =>
    cases hq
    cases x with
    | semaphore =>
      obtain ⟨_, _, h⟩ := hat
      cases h
    | barrier =>
      obtain ⟨_, h⟩ := hat
      cases h
  | inAcquire k _ => exact k.elim
  | inWait c _ _ => exact c.elim
  | finished => cases hq

/-- Nobody writes while a thread has read a value and not written it back. -/
theorem Stepped.reads (hs : Invariant n s) (h : Stepped n t loc i next s u) {t' : ThreadId}
    {which num : Nat} {val : Int} (hplace : (u.pc t').place = some (.yielded which num val)) :
    val = u.mem.sharedVariable := by
  obtain ⟨hne, hold⟩ | ⟨-, -, hnext⟩ | ⟨-, hfork, -⟩ := h.moves.place_cases hplace
  · rw [hs.reads t' which num val hold]
    obtain ⟨which', num', val', rfl, -⟩ | ⟨hsame, -⟩ := h.does.remaining (hs.bounded t loc h.place)
    · exact absurd (hs.semaphore.eq_of_within hs.queued (within_of_yielded (hs.at_ t) h.place)
        (within_of_yielded (hs.at_ t') hold)) hne
    · exact hsame.symm
  · have hdoes := h.does
    rw [← hnext] at hdoes
    generalize s.mem = m, u.mem = m' at hdoes
    cases hdoes with
    | reads _ _ => rfl
  · obtain ⟨_, hloop⟩ := h.does.forks_loop hfork
    cases hloop

/-- A thread that has come through the barrier. -/
theorem Invariant.missing_of_through (hs : Invariant n s) {which : Nat}
    (hpc : s.pc t = .user (.through which)) : s.totalAt (missing n) = 0 := by
  have hpos := Core.count_pos (f := PC.within (.sem .barrier) insideBarrier) hs.queued
    Core.within_finished (t := t) (by rw [hpc]; rfl)
  have htotal := hs.barrier.total
  have hpermits := hs.barrier.permits
  have hshut : shut n s = 0 := by omega
  unfold shut at hshut
  split at hshut
  · assumption
  · cases hshut

theorem Stepped.passed (hs : Invariant n s) (h : Stepped n t loc i next s u) {t' : ThreadId}
    {which : Nat} (hplace : (u.pc t').place = some (.passed which)) :
    u.totalAt (ThreadTest.missing n) = 0 := by
  have hle := h.missing_le hs
  have hold : s.totalAt (ThreadTest.missing n) = 0 := by
    obtain ⟨-, hold⟩ | ⟨-, hgoes, hnext⟩ | ⟨-, hfork, -⟩ := h.moves.place_cases hplace
    · exact hs.passed t' which hold
    · have hdoes := h.does
      have hpc := h.moves.pc
      rw [← hnext] at hdoes
      generalize s.mem = m, u.mem = m' at hdoes
      cases hdoes with
      | passes _ => exact hs.missing_of_through hpc
      | prints _ => cases hgoes
    · obtain ⟨_, hloop⟩ := h.does.forks_loop hfork
      cases hloop
  omega

/-- Only a thread just forked is new. -/
theorem Stepped.lt_or_forked (h : Stepped n t loc i next s u) {t' : Nat} (hlt : t' < u.numThreads) :
    t' < s.numThreads ∨ ∃ start, t' = s.numThreads ∧ (u.pc t').place = some start := by
  have hnum := h.numThreads
  cases hi : i with
  | fork start =>
    rw [hi] at hnum
    have hnum : u.numThreads = s.numThreads + 1 := hnum
    by_cases heq : t' = s.numThreads
    · exact .inr ⟨start, heq, heq ▸ h.started start hi⟩
    · exact .inl (by omega)
  | _ =>
    rw [hi] at hnum
    have hnum : u.numThreads = s.numThreads := hnum
    exact .inl (hnum ▸ hlt)

theorem Stepped.ended (hs : Invariant n s) (h : Stepped n t loc i next s u) {t' : Nat}
    (hlt : t' < u.numThreads) (hplace : (u.pc t').place = none) :
    u.totalAt (ThreadTest.missing n) = 0 := by
  have hle := h.missing_le hs
  have hold : s.totalAt (ThreadTest.missing n) = 0 := by
    by_cases hne : t' = t
    · subst hne
      have hgoes := h.moves.place
      rw [hplace] at hgoes
      have hdoes := h.does
      have hpc := h.place
      generalize s.mem = m, u.mem = m' at hdoes
      cases hdoes with
      | prints which => exact hs.passed t' which hpc
      | _ => cases hgoes
    · obtain hlt | ⟨start, -, hstart⟩ := h.lt_or_forked hlt
      · obtain hsame | ⟨start, -, -, hstart, -⟩ := h.moves.others t' hne
        · exact hs.ended t' hlt (hsame ▸ hplace)
        · cases hplace.symm.trans hstart
      · cases hplace.symm.trans hstart
  omega

theorem Stepped.final (hs : Invariant n s) (h : Stepped n t loc i next s u) {which : Nat} {val : Int}
    (hline : .seesFinalValue which val ∈ u.mem.output) : val = int32 (5 * (n + 1)) := by
  have hdoes := h.does
  have hpc := h.place
  have hshared := (hs.shared_of_missing (n := n) · |>.2)
  have hfinal := hs.final which val
  have hpassed := hs.passed t
  generalize s.mem = m, u.mem = m' at hdoes hline hshared hfinal
  cases hdoes with
  | prints which' =>
    rw [Globals.printf, List.mem_append, List.mem_singleton] at hline
    rcases hline with hline | hline
    · exact hfinal hline
    · cases hline
      exact hshared (hpassed which hpc)
  | reads _ _ =>
    rw [Globals.printf, List.mem_append, List.mem_singleton] at hline
    rcases hline with hline | hline
    · exact hfinal hline
    · cases hline
  | _ => exact hfinal hline

/-- The barrier opens when the last one arrives. -/
theorem Stepped.barrier {e : Effect} (hs : Invariant n s) (h : Stepped n t loc i next s u)
    (hstep : s.step (program n) t = some (e, u)) :
    Guarded (.sem .barrier) insideBarrier (fun _ => shut n u) u := by
  have hcount := hs.count
  have hkept (hkeeps : i.keepsTo (.sem .barrier) insideBarrier loc next = true)
      (hshut : shut n u = shut n s) :
      Guarded (.sem .barrier) insideBarrier (fun _ => shut n u) u := by
    rw [hshut]
    refine Core.step_guarded hs.queued (fun loc' m' i' next' hpc hcode => .of_test ?_ rfl) hs.barrier
      hstep
    obtain rfl := PC.user.inj (hpc.symm.trans h.moves.pc)
    cases hcode.symm.trans h.code
    exact hkeeps
  obtain ⟨hkeeps, -, hsame⟩ | ⟨hless, ⟨hkeeps, hlt, -⟩ | ⟨rfl, hloc, hnext, hge, -⟩⟩ := h.missing hs
  · exact hkept hkeeps (by rw [shut, shut, hsame])
  · -- it is not the last one
    exact hkept hkeeps (by rw [shut, shut, if_neg (by omega), if_neg (by omega)])
  · have hopen : shut n u = 0 := if_pos (by omega)
    have hshut : shut n s = 1 := if_neg (by omega)
    rw [hopen]
    exact Core.step_opens hs.queued (hshut ▸ hs.barrier) h.moves.pc h.code hloc hnext hstep

/-- A thread that goes on in `P` changes nothing else. -/
theorem Invariant.resumes {e : Effect} (hs : Invariant n s) (hpc : ∀ loc, s.pc t ≠ .user loc)
    (hstep : s.step (program n) t = some (e, u)) (hqueued : u.Queued) (hat : ∀ t, At (u.pc t))
    (hsemaphore : Guarded (.sem .semaphore) insideSemaphore (fun _ => 0) u) : Invariant n u := by
  obtain ⟨hmem, hplace, htotal, hnum⟩ := Core.step_resumes hs.queued hpc hstep
  have hbarrier : Guarded (.sem .barrier) insideBarrier (fun _ => shut n u) u := by
    have hshut : shut n u = shut n s := by rw [shut, shut, htotal]
    rw [hshut]
    exact Core.step_guarded hs.queued (fun loc _ _ _ h _ => absurd h (hpc loc)) hs.barrier hstep
  constructor
  case queued => exact hqueued
  case semaphore => exact hsemaphore
  case barrier => exact hbarrier
  case at_ => exact hat
  case bounded => exact fun t' loc h => hs.bounded t' loc (hplace t' ▸ h)
  case numThreads => rw [hmem, hs.numThreads]
  case forked => rw [hnum, htotal, hs.forked]
  case reads => exact fun t' which num val h => hmem ▸ hs.reads t' which num val (hplace t' ▸ h)
  case shared => rw [hmem, hnum, htotal, hs.shared]
  case count => rw [hmem, htotal, hs.count]
  case passed => exact fun t' which h => (htotal _).trans (hs.passed t' which (hplace t' ▸ h))
  case ended =>
    exact fun t' hlt h => (htotal _).trans (hs.ended t' (hnum ▸ hlt) (hplace t' ▸ h))
  case final => exact fun which val h => hs.final which val (hmem ▸ h)

theorem next_invariant {v : Move Empty} (hs : Invariant n s) (h : s.next (program n) v = some u) :
    Invariant n u := by
  cases v with
  | interrupt e => exact e.elim
  | thread t =>
    have hqueued := Core.next_queued hs.queued h
    have hsemaphore := Core.next_guarded section_semaphore hs.queued hs.semaphore h
    have hat := Core.next_places places hs.queued hs.at_ h
    obtain ⟨⟨e, u'⟩, hstep, rfl⟩ := Option.map_eq_some_iff.mp h
    obtain hpc | ⟨loc, i, next, hst⟩ := step_stepped hs.queued hstep
    · exact hs.resumes hpc hstep hqueued hat hsemaphore
    · obtain ⟨hbounded, hstart⟩ := hst.does.bounded (hs.bounded t loc hst.place)
      exact ⟨hqueued, hsemaphore, hst.barrier hs hstep, hat,
        hst.moves.forall_place hs.bounded hbounded hstart, hst.does.numThreads.trans hs.numThreads,
        hst.forked hs, fun _ _ _ _ => hst.reads hs, hst.shared hs, hst.count hs,
        fun _ _ => hst.passed hs, fun _ hlt => hst.ended hs hlt, fun _ _ => hst.final hs⟩

theorem start_invariant (n : Nat) : Invariant n (start n) := by
  have htotal (w : Loc → Nat) : (start n).totalAt w = w (.forking 0) := Core.new_totalAt _ _ _ _
  have hplace {t : ThreadId} {loc : Loc} (h : ((start n).pc t).place = some loc) :
      loc = .forking 0 := by
    by_cases ht : t = 0
    · simpa [start, Core.new, PC.place, ht] using h.symm
    · simp [start, Core.new, PC.place, ht] at h
  have hmissing : (start n).totalAt (missing n) = n + 1 := htotal _
  constructor
  case queued => exact Core.new_queued _ _ _
  case semaphore => exact Core.new_guarded _ rfl Int.one_nonneg rfl
  case barrier =>
    have hshut : shut n (start n) = 1 := if_neg (by omega)
    rw [hshut]
    exact Core.new_guarded _ rfl le_rfl rfl
  case at_ =>
    intro t
    by_cases ht : t = 0
    · simp [start, Core.new, At, ht]
    · simp [start, Core.new, At, ht]
  case bounded =>
    intro t loc h
    rw [hplace h]
    exact Nat.zero_le n
  case numThreads => rfl
  case forked =>
    rw [htotal]
    show 1 + (n - 0) = n + 1
    omega
  case reads => exact fun t which num val h => by cases hplace h
  case shared =>
    rw [htotal]
    show (0 : Int) = int32 (5 * 1 - 5)
    decide
  case count =>
    rw [hmissing]
    show 0 + max (n + 1) 1 = n + 1
    omega
  case passed => exact fun t which h => by cases hplace h
  case ended =>
    intro t ht h
    have ht : t < 1 := ht
    obtain rfl : t = 0 := by omega
    simp [start, Core.new, PC.place] at h
  case final => exact fun which val h => absurd h List.not_mem_nil

/-! ## The result -/

/-- How often a thread has executed `SharedVariable = val + 1`. -/
def made : Loc → Nat
  | .forking _ => 0
  | .loop _ num | .inside _ num | .yielded _ num _ => num
  | .outside _ num => num + 1
  | .opened _ | .through _ | .passed _ => 5

/-- How often the threads have executed it together. -/
def increments (s : Core Sem Empty Empty Globals Loc) : Nat :=
  ∑ t ∈ Finset.range s.numThreads, (s.pc t).place.elim 5 made

/-- `num` is five, and the loop over. -/
def Loc.looped : Loc → Bool
  | .loop _ num => num == 5
  | .opened _ | .through _ | .passed _ => true
  | _ => false

/-- `barrier->P()` has returned. -/
def passedBarrier : PC Sem Empty Empty Loc → Bool
  | .user (.through _) | .user (.passed _) | .finished => true
  | _ => false

theorem made_add_remaining (h : Bounded n loc) : made loc + remaining loc = 5 := by
  cases loc with
  | loop _ _ | inside _ _ | yielded _ _ _ | outside _ _ =>
    simp only [Bounded, made, remaining] at h ⊢
    omega
  | _ => rfl

theorem Invariant.increments_eq (hs : Invariant n s) :
    (increments s : Int) = 5 * (s.numThreads : Int) - (s.totalAt remaining : Int) := by
  have hthread (t : ThreadId) : (s.pc t).place.elim 5 made + (s.pc t).place.elim 0 remaining = 5 := by
    cases hplace : (s.pc t).place with
    | none => rfl
    | some loc => exact made_add_remaining (hs.bounded t loc hplace)
  have hsum : increments s + s.totalAt remaining = s.numThreads * 5 := by
    unfold increments Core.totalAt Core.total
    rw [← Finset.sum_add_distrib, Finset.sum_congr rfl fun t _ => hthread t]
    simp
  omega

theorem Invariant.missing_of_passedBarrier (hs : Invariant n s) {t : Nat} (ht : t < s.numThreads)
    (h : passedBarrier (s.pc t) = true) : s.totalAt (missing n) = 0 := by
  cases hpc : s.pc t with
  | user loc =>
    rw [hpc] at h
    cases loc with
    | through which => exact hs.missing_of_through hpc
    | passed which => exact hs.passed t which (by rw [hpc]; rfl)
    | _ => cases h
  | finished => exact hs.ended t ht (by rw [hpc]; rfl)
  | inP _ _ | inAcquire _ _ | inWait _ _ _ =>
    rw [hpc] at h
    cases h

theorem looped_of_missing (h : missing n loc = 0) : loc.looped = true ∧ made loc = 5 := by
  cases loc with
  | opened _ | through _ | passed _ => exact ⟨rfl, rfl⟩
  | _ => cases h

/-- Whatever the schedule, no increment is lost: `SharedVariable` is the number of them, and is still
the value that a thread has read when it writes. When a thread is through the barrier, all `n + 1`
threads are there and have made their five iterations, and all final values printed are
`5 * (n + 1)`, as an `int`. -/
theorem threadTest_correct {ms : List (Move Empty)}
    (h : run (Core.next (program n)) ms (start n) = some s) :
    (s.mem.sharedVariable = int32 (increments s) ∧
      ∀ t which num val, s.pc t = .user (.yielded which num val) → val = s.mem.sharedVariable) ∧
    (∀ t : Nat, t < s.numThreads → passedBarrier (s.pc t) = true → s.numThreads = n + 1 ∧
      ∀ t' : Nat, t' < n + 1 → (s.pc t').place.all Loc.looped = true ∧
        (s.pc t').place.elim 5 made = 5) ∧
    ∀ which val, .seesFinalValue which val ∈ s.mem.output →
      val = int32 (5 * (n + 1)) ∧ (5 * ((n : Int) + 1) ≤ intMax → val = 5 * (n + 1)) := by
  have hs : Invariant n s :=
    run_invariant (fun _ _ _ hs hstep => next_invariant hs hstep) (start_invariant n) h
  refine ⟨⟨?_, fun t which num val hpc => ?_⟩, fun t ht hpast => ?_, fun which val hline => ?_⟩
  · rw [hs.shared, hs.increments_eq]
  · exact hs.reads t which num val (by rw [hpc]; rfl)
  · have hmissing := hs.missing_of_passedBarrier ht hpast
    have hnum := (hs.shared_of_missing hmissing).1
    refine ⟨hnum, fun t' ht' => ?_⟩
    cases hplace : (s.pc t').place with
    | none => exact ⟨rfl, rfl⟩
    | some loc => exact looped_of_missing (Core.eq_zero_of_totalAt hmissing (hnum ▸ ht') hplace)
  · have hval := hs.final which val hline
    refine ⟨hval, fun hfits => ?_⟩
    rw [hval]
    exact int32_eq (by omega) (by rw [intMax] at hfits; omega)

/-- Two threads. The forked one finds the semaphore taken at first, and opens the barrier. -/
def turns : List (Move Empty) :=
  List.replicate 3 (.thread 0) ++ .thread 1 :: List.replicate 2 (.thread 0) ++
    List.replicate 21 (.thread 1) ++ List.replicate 20 (.thread 0) ++ List.replicate 3 (.thread 1)

theorem threadTest_correct_turns : ∃ s, run (Core.next (program 1)) turns (start 1) = some s ∧
    .seesFinalValue 0 10 ∈ s.mem.output ∧ .seesFinalValue 1 10 ∈ s.mem.output ∧
    s.mem.sharedVariable = int32 (increments s) ∧
    ∀ which val, .seesFinalValue which val ∈ s.mem.output → val = 10 := by
  have heval : ((run (Core.next (program 1)) turns (start 1)).any fun s =>
      .seesFinalValue 0 10 ∈ s.mem.output ∧ .seesFinalValue 1 10 ∈ s.mem.output) = true := by
    decide +kernel
  obtain ⟨s, hs, hlines⟩ := (Option.any_eq_true _ _).mp heval
  obtain ⟨⟨hshared, -⟩, -, hfinal⟩ := threadTest_correct hs
  obtain ⟨h₀, h₁⟩ := of_decide_eq_true hlines
  exact ⟨s, hs, h₀, h₁, hshared, fun which val h => (hfinal which val h).2 (by decide)⟩

end Nachos.Threads.ThreadTest
