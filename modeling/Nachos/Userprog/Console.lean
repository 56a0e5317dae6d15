import Nachos.Threads.Sections

/-!
# The console, and its test (machine/console.cc, userprog/progtest.cc)

The thread that runs `ConsoleTest`, in any interleaving with the bytes that become available on the
keyboard, and with the interrupts of the console. When an interrupt comes is not modelled. `EOF`
marks an empty buffer, and as a `char` it is also the byte 255.

* `Invariant`: as long as the test goes on, the bytes that were read are those that were written, and
  at most one more, which is in the buffer;
* `Takes`: a poll does not read a byte before the last one has been taken, which only that mark
  can make it do;
* `console_echoes`: what is echoed, in every run of such steps.
-/

namespace Nachos.Console

open Nachos.Framework Nachos.Threads

/-! ## The program -/

/-- The semaphores of progtest.cc. -/
inductive Sem
  | readAvail
  | writeDone
deriving DecidableEq, Repr

/-- `EOF`, as an `int`. -/
def eof : Int := -1

/-- The file that stands for the keyboard, and the data of `class Console`. `writes` counts the
interrupts that `PutChar` has scheduled. `typed` is what can be read from the file, and `coming` what
will be; `read` and `written` are not in the code: all that `CheckCharAvail` has read, and all that
`PutChar` has been passed. -/
structure State where
  typed : List (BitVec 8)
  coming : List (BitVec 8)
  incoming : BitVec 8
  putBusy : Bool
  writes : Nat
  read : List (BitVec 8)
  written : List (BitVec 8)
deriving DecidableEq, Repr

/-- `Console::GetChar`. -/
def getChar (d : State) : BitVec 8 × State := (d.incoming, { d with incoming := BitVec.ofInt 8 eof })

/-- `Console::PutChar`; `none` when the assertion fails. -/
def putChar (ch : BitVec 8) (d : State) : Option State :=
  if d.putBusy then none
  else some { d with putBusy := true, writes := d.writes + 1, written := d.written ++ [ch] }

/-- `Console::CheckCharAvail`, and the calls of `V` of its handler. A `char` is compared with `EOF`
as an `int`. -/
def checkCharAvail (d : State) : State × List Sem :=
  if d.incoming.toInt ≠ eof then (d, [])
  else match d.typed with
    | [] => (d, [])
    | c :: typed => ({ d with typed := typed, incoming := c, read := d.read ++ [c] }, [.readAvail])

/-- `Console::WriteDone`. -/
def writeDone (d : State) : State × List Sem :=
  ({ d with putBusy := false, writes := d.writes - 1 }, [.writeDone])

/-- 'q'. -/
def quit : BitVec 8 := 0x71

/-- Where the thread is in `ConsoleTest`. -/
inductive Loc
  | loop
  /-- After `readAvail->P()`. -/
  | available
  /-- After `writeDone->P()`. -/
  | written (ch : BitVec 8)
deriving DecidableEq, Repr

/-- What happens beside the thread: a byte can be read from the file, or an interrupt. -/
inductive Event
  | types
  | readPoll
  | writeDone
deriving DecidableEq, Repr

/-- `ConsoleTest`, and the interrupts of the console. -/
def program : Program Sem Empty Empty State Loc Event where
  code _ loc d := match loc with
    | .loop => some (d, .P .readAvail, .available)
    | .available =>
      let (ch, d) := getChar d
      (putChar ch d).map fun d => (d, .P .writeDone, .written ch)
    | .written ch =>
      if ch = quit then some (d, .finish, .written ch)
      else some (d, .P .readAvail, .available)
  handler e d := match e with
    | .types => match d.coming with
      | [] => none
      | c :: coming => some ({ d with typed := d.typed ++ [c], coming := coming }, [])
    | .readPoll => some (checkCharAvail d)
    | .writeDone => if d.writes = 0 then none else some (writeDone d)

/-- A new console, and the thread that has made it; `input` is what will be typed. -/
def start (input : List (BitVec 8)) : Core Sem Empty Empty State Loc :=
  .new (fun _ => 0) ⟨[], input, BitVec.ofInt 8 eof, false, 0, [], []⟩ .loop

/-! ## The invariant -/

variable {input : List (BitVec 8)} {s u : Core Sem Empty Empty State Loc}

/-- No byte is being written. -/
structure Idle (s : Core Sem Empty Empty State Loc) : Prop where
  putBusy : s.mem.putBusy = false
  writes : s.mem.writes = 0
  writeDone : s.sem .writeDone = ⟨0, []⟩

/-- A byte is being written, for which the thread sleeps; or it has been written. -/
def Writing (s : Core Sem Empty Empty State Loc) : Prop :=
  (s.mem.putBusy = true ∧ s.mem.writes = 1 ∧ s.sem .writeDone = ⟨0, [0]⟩) ∨
  (s.mem.putBusy = false ∧ s.mem.writes = 0 ∧ s.sem .writeDone = ⟨1, []⟩)

/-- The bytes that have been read and not been taken, as `readAvail` counts them. -/
def Waits (queue : List ThreadId) (s : Core Sem Empty Empty State Loc) : Prop :=
  (s.mem.read = s.mem.written ∧ s.mem.incoming = BitVec.ofInt 8 eof ∧
    s.sem .readAvail = ⟨0, queue⟩) ∨
  (s.mem.read = s.mem.written ++ [s.mem.incoming] ∧ s.sem .readAvail = ⟨1, []⟩)

/-- All that was written, with `ch` last, and only that may be a 'q'. -/
def EndsWith (ch : BitVec 8) (written : List (BitVec 8)) : Prop :=
  ∃ before, written = before ++ [ch] ∧ quit ∉ before

/-- Where the thread is, and what the console and the semaphores are then. -/
inductive Phase (s : Core Sem Empty Empty State Loc) : Prop
  | loop (pc : s.pc 0 = .user .loop) (idle : Idle s) (reads : Waits [] s)
    (goesOn : quit ∉ s.mem.written)
  | waits (pc : s.pc 0 = .inP .readAvail .available) (idle : Idle s) (reads : Waits [0] s)
    (goesOn : quit ∉ s.mem.written)
  | available (pc : s.pc 0 = .user .available) (idle : Idle s)
    (reads : s.mem.read = s.mem.written ++ [s.mem.incoming]) (taken : s.sem .readAvail = ⟨0, []⟩)
    (goesOn : quit ∉ s.mem.written)
  | writes (ch : BitVec 8) (pc : s.pc 0 = .inP .writeDone (.written ch)) (writing : Writing s)
    (reads : ch = quit ∨ Waits [] s) (ends : EndsWith ch s.mem.written)
  | written (ch : BitVec 8) (pc : s.pc 0 = .user (.written ch)) (idle : Idle s)
    (reads : ch = quit ∨ Waits [] s) (ends : EndsWith ch s.mem.written)
  | returned (pc : s.pc 0 = .finished) (idle : Idle s) (ends : EndsWith quit s.mem.written)

structure Invariant (input : List (BitVec 8)) (s : Core Sem Empty Empty State Loc) : Prop where
  input : input = s.mem.read ++ s.mem.typed ++ s.mem.coming
  read : s.mem.written <+: s.mem.read
  phase : Phase s
  others : ∀ t, t ≠ 0 → s.pc t = .finished

/-- Until a 'q' is echoed, a poll reads a byte only when there is none that was read and has still to
be taken. -/
def Takes : Move Event → Core Sem Empty Empty State Loc → Prop
  | .interrupt .readPoll, s => s.mem.incoming.toInt = eof → s.mem.typed ≠ [] →
    quit ∉ s.mem.written → s.mem.read.length ≤ s.mem.written.length
  | _, _ => True

instance : ∀ v s, Decidable (Takes v s)
  | .interrupt .readPoll, _ => inferInstanceAs (Decidable (_ → _ → _ → _))
  | .interrupt .types, _ | .interrupt .writeDone, _ | .thread _, _ => isTrue trivial

/-! ## Steps of the thread -/

theorem testP_of_zero {x : Sem} {queue : List ThreadId} (h : s.sem x = ⟨0, queue⟩) (next : Loc) :
    (s.testP 0 x next).2 = (s.setSem x ⟨0, queue ++ [0]⟩).setPC 0 (.inP x next) := by
  rw [Core.testP, h]
  rfl

theorem testP_of_one {x : Sem} (h : s.sem x = ⟨1, []⟩) (next : Loc) :
    (s.testP 0 x next).2 = (s.setSem x ⟨0, []⟩).setPC 0 (.user next) := by
  rw [Core.testP, h]
  rfl

theorem setPC_self (t : ThreadId) (q : PC Sem Empty Empty Loc) : (s.setPC t q).pc t = q :=
  Function.update_self ..

theorem setSem_self (x : Sem) (v : Semaphore) (q : PC Sem Empty Empty Loc) :
    ((s.setSem x v).setPC 0 q).sem x = v :=
  Function.update_self ..

theorem setPC_others {q : PC Sem Empty Empty Loc} (h : ∀ t, t ≠ 0 → s.pc t = .finished) :
    ∀ t, t ≠ 0 → (s.setPC 0 q).pc t = .finished := by
  intro t ht
  rw [← h t ht]
  exact Function.update_of_ne ht q s.pc

/-- A call of `P` by the thread leaves the other threads alone. -/
theorem testP_others (x : Sem) (next : Loc) (h : ∀ t, t ≠ 0 → s.pc t = .finished) :
    ∀ t, t ≠ 0 → (s.testP 0 x next).2.pc t = .finished := by
  unfold Core.testP
  dsimp only
  split
  · exact setPC_others h
  · exact setPC_others h

/-- The call of `readAvail->P()`, and the rest of its loop. -/
theorem Waits.testP {queue : List ThreadId} (reads : Waits queue s) (hempty : queue = [])
    (idle : Idle s) (goesOn : quit ∉ s.mem.written) :
    Phase (s.testP 0 .readAvail .available).2 := by
  subst hempty
  obtain ⟨hread, hempty, hsem⟩ | ⟨hread, hsem⟩ := reads
  · rw [testP_of_zero hsem]
    refine .waits (setPC_self ..) ⟨idle.putBusy, idle.writes, idle.writeDone⟩ ?_ goesOn
    exact .inl ⟨hread, hempty, setSem_self ..⟩
  · rw [testP_of_one hsem]
    exact .available (setPC_self ..) ⟨idle.putBusy, idle.writes, idle.writeDone⟩ hread
      (setSem_self ..) goesOn

/-- The calls of `GetChar` and `PutChar`, and of `writeDone->P()`. -/
theorem phase_of_available (idle : Idle s) (reads : s.mem.read = s.mem.written ++ [s.mem.incoming])
    (taken : s.sem .readAvail = ⟨0, []⟩) (goesOn : quit ∉ s.mem.written) :
    ∃ d, putChar s.mem.incoming { s.mem with incoming := BitVec.ofInt 8 eof } = some d ∧
      d.read = s.mem.read ∧ d.typed = s.mem.typed ∧ d.coming = s.mem.coming ∧
      d.written = s.mem.read ∧ Phase (Core.testP 0 .writeDone (.written s.mem.incoming) { s with mem := d }).2 := by
  let d : State :=
    { s.mem with
      incoming := BitVec.ofInt 8 eof
      putBusy := true
      writes := s.mem.writes + 1
      written := s.mem.written ++ [s.mem.incoming] }
  have hput : putChar s.mem.incoming { s.mem with incoming := BitVec.ofInt 8 eof } = some d := by
    rw [putChar, if_neg (by rw [idle.putBusy]; exact Bool.false_ne_true)]
  refine ⟨d, hput, rfl, rfl, rfl, reads.symm, ?_⟩
  rw [testP_of_zero (s := { s with mem := d }) idle.writeDone]
  refine .writes s.mem.incoming (setPC_self ..) (.inl ⟨rfl, ?_, setSem_self ..⟩)
    (.inr (.inl ⟨reads, rfl, taken⟩)) ⟨s.mem.written, rfl, goesOn⟩
  show s.mem.writes + 1 = 1
  rw [idle.writes]

theorem EndsWith.goesOn {ch : BitVec 8} {written : List (BitVec 8)} (h : EndsWith ch written)
    (hne : ch ≠ quit) : quit ∉ written := by
  obtain ⟨before, rfl, hbefore⟩ := h
  rw [List.mem_append, List.mem_singleton]
  rintro (hmem | rfl)
  · exact hbefore hmem
  · exact hne rfl

/-- The first place of a run that calls `readAvail->P()`. -/
theorem Invariant.testP (hs : Invariant input s) {queue : List ThreadId} (reads : Waits queue s)
    (hempty : queue = []) (idle : Idle s) (goesOn : quit ∉ s.mem.written) :
    Invariant input (s.testP 0 .readAvail .available).2 := by
  refine ⟨?_, ?_, reads.testP hempty idle goesOn, testP_others .readAvail .available hs.others⟩
  · rw [Core.testP_mem]
    exact hs.input
  · rw [Core.testP_mem]
    exact hs.read

theorem next_thread (hs : Invariant input s) (h : s.next program (.thread 0) = some u) :
    Invariant input u := by
  cases hs.phase with
  | loop hpc idle reads goesOn =>
    rw [Core.next_user hpc] at h
    cases h
    exact hs.testP reads rfl idle goesOn
  | waits hpc idle reads goesOn =>
    rw [Core.next_inP hpc] at h
    split at h
    next => cases h
    next hmem =>
      cases h
      -- it has been woken up
      obtain ⟨-, -, hsem⟩ | hone := reads
      · rw [hsem] at hmem
        exact absurd List.mem_cons_self hmem
      · exact hs.testP (.inr hone) rfl idle goesOn
  | available hpc idle reads taken goesOn =>
    obtain ⟨d, hput, hread, htyped, hcoming, hwritten, hphase⟩ := phase_of_available idle reads taken goesOn
    rw [Core.next_user hpc] at h
    change ((putChar s.mem.incoming _).map _).map _ = _ at h
    rw [hput] at h
    obtain rfl : (Core.testP 0 Sem.writeDone (.written s.mem.incoming) { s with mem := d }).2 = u :=
      Option.some.inj h
    refine ⟨?_, ?_, hphase, testP_others Sem.writeDone (.written s.mem.incoming) hs.others⟩
    · rw [Core.testP_mem]
      show input = d.read ++ d.typed ++ d.coming
      rw [hread, htyped, hcoming]
      exact hs.input
    · rw [Core.testP_mem]
      show d.written <+: d.read
      rw [hwritten, hread]
  | writes ch hpc writing reads ends =>
    rw [Core.next_inP hpc] at h
    split at h
    next => cases h
    next hmem =>
      cases h
      obtain ⟨-, -, hsem⟩ | ⟨hbusy, hwrites, hsem⟩ := writing
      · rw [hsem] at hmem
        exact absurd List.mem_cons_self hmem
      · rw [testP_of_one hsem]
        exact ⟨hs.input, hs.read, .written ch (setPC_self ..) ⟨hbusy, hwrites, setSem_self ..⟩ reads ends,
          setPC_others hs.others⟩
  | written ch hpc idle reads ends =>
    rw [Core.next_user hpc] at h
    by_cases hquit : ch = quit
    · subst hquit
      cases h
      exact ⟨hs.input, hs.read, .returned (setPC_self ..)
        ⟨idle.putBusy, idle.writes, idle.writeDone⟩ ends, setPC_others hs.others⟩
    · simp only [program, if_neg hquit] at h
      cases h
      exact hs.testP (reads.resolve_left hquit) rfl idle (ends.goesOn hquit)
  | returned hpc idle ends =>
    rw [Core.next_finished hpc] at h
    cases h

/-! ## Interrupts -/

/-- A byte that has become available, or an interrupt that does nothing. -/
theorem Invariant.withMem (hs : Invariant input s) {d : State} (hbusy : d.putBusy = s.mem.putBusy)
    (hwrites : d.writes = s.mem.writes) (hincoming : d.incoming = s.mem.incoming)
    (hread : d.read = s.mem.read) (hwritten : d.written = s.mem.written)
    (hinput : input = d.read ++ d.typed ++ d.coming) : Invariant input { s with mem := d } := by
  have hidle (h : Idle s) : Idle { s with mem := d } :=
    ⟨hbusy.trans h.putBusy, hwrites.trans h.writes, h.writeDone⟩
  have hwaits {queue : List ThreadId} (h : Waits queue s) : Waits queue { s with mem := d } := by
    unfold Waits
    rw [hread, hwritten, hincoming]
    exact h
  refine ⟨hinput, ?_, ?_, hs.others⟩
  · show d.written <+: d.read
    rw [hread, hwritten]
    exact hs.read
  cases hs.phase with
  | loop pc idle reads goesOn => exact .loop pc (hidle idle) (hwaits reads) (hwritten ▸ goesOn)
  | waits pc idle reads goesOn => exact .waits pc (hidle idle) (hwaits reads) (hwritten ▸ goesOn)
  | available pc idle reads taken goesOn =>
    refine .available pc (hidle idle) ?_ taken (hwritten ▸ goesOn)
    rw [hread, hwritten, hincoming]
    exact reads
  | writes ch pc writing reads ends =>
    refine .writes ch pc ?_ (reads.imp_right hwaits) (hwritten ▸ ends)
    unfold Writing
    rw [hbusy, hwrites]
    exact writing
  | written ch pc idle reads ends =>
    exact .written ch pc (hidle idle) (reads.imp_right hwaits) (hwritten ▸ ends)
  | returned pc idle ends => exact .returned pc (hidle idle) (hwritten ▸ ends)

/-- A poll that reads a byte finds that all bytes have been taken. -/
theorem Waits.read {queue : List ThreadId} (reads : Waits queue s)
    (hle : s.mem.read.length ≤ s.mem.written.length) :
    s.mem.read = s.mem.written ∧ s.sem .readAvail = ⟨0, queue⟩ := by
  obtain ⟨hread, -, hsem⟩ | ⟨hread, -⟩ := reads
  · exact ⟨hread, hsem⟩
  · rw [hread, List.length_append] at hle
    exact absurd hle (Nat.not_succ_le_self _)

/-- A byte is read into the buffer, and the thread is told. -/
theorem Phase.readPoll (hphase : Phase s)
    (hle : quit ∉ s.mem.written → s.mem.read.length ≤ s.mem.written.length) (c : BitVec 8) (typed : List (BitVec 8)) :
    Phase (Core.setSem .readAvail (s.sem .readAvail).V.2
      { s with mem := { s.mem with typed := typed, incoming := c, read := s.mem.read ++ [c] } }) := by
  have hidle (h : Idle s) : Idle (Core.setSem .readAvail (s.sem .readAvail).V.2
      { s with mem := { s.mem with typed := typed, incoming := c, read := s.mem.read ++ [c] } }) :=
    ⟨h.putBusy, h.writes, h.writeDone⟩
  have hwaits {queue queue' : List ThreadId} (h : Waits queue s) (hone : queue.tail = [])
      (goesOn : quit ∉ s.mem.written) : Waits queue' (Core.setSem .readAvail (s.sem .readAvail).V.2
        { s with mem := { s.mem with typed := typed, incoming := c, read := s.mem.read ++ [c] } }) := by
    obtain ⟨hread, hsem⟩ := h.read (hle goesOn)
    refine .inr ⟨congrArg (· ++ [c]) hread, ?_⟩
    rw [Core.setSem_sem, Function.update_self, hsem, ← hone]
    rfl
  cases hphase with
  | loop pc idle reads goesOn => exact .loop pc (hidle idle) (hwaits reads rfl goesOn) goesOn
  | waits pc idle reads goesOn => exact .waits pc (hidle idle) (hwaits reads rfl goesOn) goesOn
  | available pc idle reads taken goesOn =>
    have hlt := hle goesOn
    rw [reads, List.length_append] at hlt
    exact absurd hlt (Nat.not_succ_le_self _)
  | writes ch pc writing reads ends =>
    refine .writes ch pc writing ?_ ends
    by_cases hquit : ch = quit
    · exact .inl hquit
    · exact .inr (hwaits (reads.resolve_left hquit) rfl (ends.goesOn hquit))
  | written ch pc idle reads ends =>
    refine .written ch pc (hidle idle) ?_ ends
    by_cases hquit : ch = quit
    · exact .inl hquit
    · exact .inr (hwaits (reads.resolve_left hquit) rfl (ends.goesOn hquit))
  | returned pc idle ends => exact .returned pc (hidle idle) ends

/-- The byte has been written, for which the thread sleeps. -/
theorem Phase.writeDone (hphase : Phase s) (hwrites : s.mem.writes ≠ 0) :
    Phase (Core.setSem .writeDone (s.sem .writeDone).V.2
      { s with mem := { s.mem with putBusy := false, writes := s.mem.writes - 1 } }) := by
  cases hphase with
  | writes ch pc writing reads ends =>
    obtain ⟨-, hone, hsem⟩ | ⟨-, hzero, -⟩ := writing
    · refine .writes ch pc (.inr ⟨rfl, ?_, ?_⟩) reads ends
      · show s.mem.writes - 1 = 0
        rw [hone]
      · rw [Core.setSem_sem, Function.update_self, hsem]
        rfl
    · exact absurd hzero hwrites
  | loop pc idle reads goesOn => exact absurd idle.writes hwrites
  | waits pc idle reads goesOn => exact absurd idle.writes hwrites
  | available pc idle reads taken goesOn => exact absurd idle.writes hwrites
  | written ch pc idle reads ends => exact absurd idle.writes hwrites
  | returned pc idle ends => exact absurd idle.writes hwrites

theorem next_invariant {v : Move Event} (hs : Invariant input s) (htakes : Takes v s)
    (h : s.next program v = some u) : Invariant input u := by
  cases v with
  | thread t =>
    by_cases ht : t = 0
    · subst ht
      exact next_thread hs h
    · rw [Core.next_finished (hs.others t ht)] at h
      cases h
  | interrupt e =>
    cases e with
    | types =>
      simp only [Core.next, Core.interrupt, program] at h
      cases hcoming : s.mem.coming with
      | nil =>
        rw [hcoming] at h
        cases h
      | cons c coming =>
        rw [hcoming] at h
        cases h
        refine hs.withMem rfl rfl rfl rfl rfl ?_
        rw [hs.input, hcoming]
        simp only [List.append_assoc, List.cons_append, List.nil_append]
    | readPoll =>
      simp only [Core.next, Core.interrupt, program, checkCharAvail] at h
      split at h
      next =>
        cases h
        exact hs
      next heof =>
        cases htyped : s.mem.typed with
        | nil =>
          rw [htyped] at h
          cases h
          exact hs
        | cons c typed =>
          rw [htyped] at h
          cases h
          have hle := htakes (not_not.mp heof) (by rw [htyped]; exact List.cons_ne_nil c typed)
          refine ⟨?_, hs.read.trans (List.prefix_append _ [c]), hs.phase.readPoll hle c typed,
            hs.others⟩
          show input = (s.mem.read ++ [c]) ++ typed ++ s.mem.coming
          rw [hs.input, htyped]
          simp only [List.append_assoc, List.cons_append, List.nil_append]
    | writeDone =>
      simp only [Core.next, Core.interrupt, program] at h
      split at h
      next => cases h
      next hwrites =>
        cases h
        exact ⟨hs.input, hs.read, hs.phase.writeDone hwrites, hs.others⟩

theorem start_invariant (input : List (BitVec 8)) : Invariant input (start input) where
  input := rfl
  read := List.prefix_rfl
  phase := .loop rfl ⟨rfl, rfl, rfl⟩ (.inl ⟨rfl, rfl, rfl⟩) List.not_mem_nil
  others t ht := by simp [start, Core.new, ht]

/-! ## The echo -/

/-- The bytes up to the first 'q', with it. -/
def upToQuit : List (BitVec 8) → List (BitVec 8)
  | [] => []
  | b :: bs => if b = quit then [b] else b :: upToQuit bs

theorem upToQuit_append {l : List (BitVec 8)} (h : quit ∉ l) (rest : List (BitVec 8)) :
    upToQuit (l ++ rest) = l ++ upToQuit rest := by
  induction l with
  | nil => rfl
  | cons b l ih =>
    rw [List.mem_cons, not_or] at h
    rw [List.cons_append, upToQuit, if_neg (Ne.symm h.1), ih h.2, List.cons_append]

theorem upToQuit_quit (rest : List (BitVec 8)) : upToQuit (quit :: rest) = [quit] := if_pos rfl

/-- The echo of what is typed. -/
structure Echoes (input : List (BitVec 8)) (s : Core Sem Empty Empty State Loc) : Prop where
  /-- The assertion of `PutChar` does not fail. -/
  asserts : ∀ t loc, s.pc t = .user loc → (program.code t loc s.mem).isSome = true
  written : s.mem.written <+: upToQuit input
  returned : s.pc 0 = .finished → s.mem.written = upToQuit input
  /-- Nothing is lost: what is not written is in the buffer, or can be read. -/
  kept : quit ∉ s.mem.written → input = s.mem.written ++ s.mem.typed ++ s.mem.coming ∨
    input = s.mem.written ++ [s.mem.incoming] ++ s.mem.typed ++ s.mem.coming
  /-- The thread sleeps only as long as there is nothing for it. -/
  asleep : s.asleep 0 = true → s.mem.writes = 1 ∨
    input = s.mem.written ++ s.mem.typed ++ s.mem.coming

theorem EndsWith.upToQuit {written : List (BitVec 8)} (h : EndsWith quit written)
    (rest : List (BitVec 8)) : upToQuit (written ++ rest) = written := by
  obtain ⟨before, rfl, hbefore⟩ := h
  rw [List.append_assoc, List.cons_append, upToQuit_append hbefore, upToQuit_quit]

/-- What the thread runs next. -/
theorem Phase.asserts (hphase : Phase s) {loc : Loc} (h : s.pc 0 = .user loc) :
    (program.code 0 loc s.mem).isSome = true := by
  cases hphase with
  | loop pc =>
    rw [pc] at h
    cases h
    rfl
  | available pc idle =>
    rw [pc] at h
    cases h
    show ((putChar _ _).map _).isSome = true
    rw [putChar, if_neg (by rw [idle.putBusy]; exact Bool.false_ne_true)]
    rfl
  | written ch pc =>
    rw [pc] at h
    cases h
    simp only [program]
    split <;> rfl
  | waits pc | writes _ pc | returned pc =>
    rw [pc] at h
    cases h

theorem Phase.read (hphase : Phase s) (goesOn : quit ∉ s.mem.written) :
    s.mem.read = s.mem.written ∨ s.mem.read = s.mem.written ++ [s.mem.incoming] := by
  have hwaits {queue : List ThreadId} (h : Waits queue s) :
      s.mem.read = s.mem.written ∨ s.mem.read = s.mem.written ++ [s.mem.incoming] :=
    h.imp And.left And.left
  have hquits {ch : BitVec 8} (ends : EndsWith ch s.mem.written) : ch ≠ quit := by
    rintro rfl
    obtain ⟨before, heq, -⟩ := ends
    rw [heq] at goesOn
    exact goesOn (List.mem_append_right _ List.mem_cons_self)
  cases hphase with
  | loop _ _ reads | waits _ _ reads => exact hwaits reads
  | available _ _ reads => exact .inr reads
  | writes ch _ _ reads ends => exact hwaits (reads.resolve_left (hquits ends))
  | written ch _ _ reads ends => exact hwaits (reads.resolve_left (hquits ends))
  | returned _ _ ends => exact absurd rfl (hquits ends)

theorem Phase.asleep (hphase : Phase s) (h : s.asleep 0 = true) :
    s.mem.writes = 1 ∨ s.mem.read = s.mem.written := by
  have huser {loc : Loc} (pc : s.pc 0 = .user loc) : s.asleep 0 = false := by
    simp [Core.asleep, pc, PC.waitsOn]
  have hmem {x : Sem} {next : Loc} (pc : s.pc 0 = .inP x next) : 0 ∈ (s.sem x).queue := by
    rw [Core.asleep, pc] at h
    exact of_decide_eq_true h
  cases hphase with
  | loop pc | available pc | written _ pc =>
    rw [huser pc] at h
    cases h
  | waits pc idle reads =>
    obtain ⟨hread, -⟩ | ⟨-, hsem⟩ := reads
    · exact .inr hread
    · have hqueue := hmem pc
      rw [hsem] at hqueue
      cases hqueue
  | writes ch pc writing =>
    obtain ⟨-, hone, -⟩ | ⟨-, -, hsem⟩ := writing
    · exact .inl hone
    · have hqueue := hmem pc
      rw [hsem] at hqueue
      cases hqueue
  | returned pc =>
    simp [Core.asleep, pc, PC.waitsOn] at h

/-- A 'q' that is written is the last byte. -/
theorem Phase.ends (hphase : Phase s) (hquit : quit ∈ s.mem.written) : EndsWith quit s.mem.written := by
  have hlast {ch : BitVec 8} (ends : EndsWith ch s.mem.written) : EndsWith quit s.mem.written := by
    by_cases hch : ch = quit
    · exact hch ▸ ends
    · exact absurd hquit (ends.goesOn hch)
  cases hphase with
  | loop _ _ _ goesOn | waits _ _ _ goesOn | available _ _ _ _ goesOn => exact absurd hquit goesOn
  | writes _ _ _ _ ends | written _ _ _ _ ends | returned _ _ ends => exact hlast ends

theorem Invariant.written (hs : Invariant input s) (goesOn : quit ∉ s.mem.written) :
    s.mem.written <+: upToQuit input := by
  obtain ⟨rest, hrest⟩ := hs.read
  rw [hs.input, ← hrest, List.append_assoc, List.append_assoc, upToQuit_append goesOn]
  exact List.prefix_append _ _

theorem Invariant.written_eq (hs : Invariant input s) (ends : EndsWith quit s.mem.written) :
    s.mem.written = upToQuit input := by
  obtain ⟨rest, hrest⟩ := hs.read
  rw [hs.input, ← hrest, List.append_assoc, List.append_assoc, ends.upToQuit]

theorem Invariant.echoes (hs : Invariant input s) : Echoes input s where
  asserts t loc hpc := by
    by_cases ht : t = 0
    · subst ht
      exact hs.phase.asserts hpc
    · rw [hs.others t ht] at hpc
      cases hpc
  written := by
    by_cases hquit : quit ∈ s.mem.written
    · rw [← hs.written_eq (hs.phase.ends hquit)]
    · exact hs.written hquit
  returned hpc := by
    cases hs.phase with
    | returned _ _ ends => exact hs.written_eq ends
    | loop pc | waits pc | available pc | writes _ pc | written _ pc =>
      rw [pc] at hpc
      cases hpc
  kept goesOn := by
    obtain hread | hread := hs.phase.read goesOn
    · exact .inl (hread ▸ hs.input)
    · exact .inr (hread ▸ hs.input)
  asleep h := by
    obtain hone | hread := hs.phase.asleep h
    · exact .inl hone
    · exact .inr (hread ▸ hs.input)

/-- In every interleaving, as long as no poll reads a byte before the last one has been taken, the test
echoes what is typed up to the first 'q'. -/
theorem console_echoes {ms : List (Move Event)}
    (htakes : Along (Core.next program) Takes ms (start input))
    (h : run (Core.next program) ms (start input) = some s) : Echoes input s := by
  have hs : Invariant input s := run_invariant_along
    (fun _ _ _ hs hg hstep => next_invariant hs hg hstep) (start_invariant input) htakes h
  exact hs.echoes

/-- A word of four bytes, of which the last is a 'q', in a run that echoes it. -/
def echoRun : List (Move Event) :=
  (List.replicate 4 [.interrupt .types, .interrupt .readPoll, .thread 0, .thread 0,
    .interrupt .writeDone, .thread 0]).flatten ++ [.thread 0]

theorem console_echoes_word : ∃ s,
    run (Core.next program) echoRun (start [0x61, 0xff, 0x62, 0x71, 0x63]) = some s ∧
    s.pc 0 = .finished ∧ Echoes [0x61, 0xff, 0x62, 0x71, 0x63] s := by
  have heval : ((run (Core.next program) echoRun (start [0x61, 0xff, 0x62, 0x71, 0x63])).any fun s =>
      s.pc 0 = .finished) = true := by
    decide +kernel
  obtain ⟨s, hs, hpc⟩ := (Option.any_eq_true _ _).mp heval
  exact ⟨s, hs, of_decide_eq_true hpc, console_echoes (by decide +kernel) hs⟩

/-- The byte 255 is overwritten by the next one before the thread takes it. -/
theorem not_console_echoes : ∃ s,
    run (Core.next program) [.interrupt .types, .interrupt .types, .interrupt .readPoll,
      .interrupt .readPoll, .thread 0, .thread 0] (start [0xff, 0x61]) = some s ∧
    ¬ Echoes [0xff, 0x61] s := by
  have heval : ((run (Core.next program) [.interrupt .types, .interrupt .types, .interrupt .readPoll,
      .interrupt .readPoll, .thread 0, .thread 0] (start [0xff, 0x61])).any fun s =>
        s.mem.written = [0x61]) = true := by
    decide +kernel
  obtain ⟨s, hs, hwritten⟩ := (Option.any_eq_true _ _).mp heval
  refine ⟨s, hs, fun h => ?_⟩
  have hprefix := h.written
  rw [of_decide_eq_true hwritten] at hprefix
  exact absurd hprefix (by decide)

end Nachos.Console
