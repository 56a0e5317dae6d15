import Nachos.Threads.Sections
import Nachos.Userprog.AddrSpace

/-!
# Frames under a real lock (userprog/memorymanager.cc, userprog/addrspace.cc)

Processes that call `AddrSpace::copy`, `AddrSpace::Replace` and the constructor
of `AddrSpace` in any interleaving, in a build where the lock of
`MemoryManager` is real. Each of `getFree`, `getPage` and `clearPage` is locked
by itself; the callers compare `getFree` with what they need, and then call
`getPage` once for each page. What is in the pages is not modelled.

* `getPage_fails`: two copies that were both told that there is room;
* `reserved_run`: no `getPage` fails in the runs in which a caller passes its
  check only when there is room also for what the callers before it have still
  to take.
-/

namespace Nachos.Reservation

open Nachos.Framework Nachos.Threads

/-- What a process calls. `copy` is called by the `Fork` system call, `child` is what the new process
calls; `replace` by `Exec`, and `new` by `StartProcess`. -/
inductive Call
  | copy (child : List Call)
  | replace (noffH : NoffHeader)
  | new (noffH : NoffHeader)

/-- `MemoryManager`. `got` is not in the code: what each call of `getPage` returned. -/
structure Manager where
  virtMem : BitMap
  got : List (ThreadId × Int)

/-- What a new page table is for: the copy of `table`, or the process itself. -/
inductive Goal
  | copy (table : List Int) (child calls : List Call)
  | load (calls : List Call)

/-- Where a thread is. `table` is the physical pages of its page table. -/
inductive Loc
  /-- The main thread, which forks a thread for each process. -/
  | main (scripts : List (List Call))
  /-- Between two calls. -/
  | idle (table : List Int) (calls : List Call)
  /-- In `getFree`, after `lock->Acquire()`. -/
  | counting (table : List Int) (call : Call) (calls : List Call)
  /-- After `getFree`. -/
  | counted (numFree : Nat) (table : List Int) (call : Call) (calls : List Call)
  /-- In `clearPage` for the first page of `table`, after `lock->Acquire()`; the new table will have
  `newNumPages` pages. -/
  | clearing (table : List Int) (newNumPages : Nat) (calls : List Call)
  /-- After `clearPage`. -/
  | cleared (table : List Int) (newNumPages : Nat) (calls : List Call)
  /-- In `getPage`, after `lock->Acquire()`: `n` more calls follow this one. -/
  | getting (n : Nat) (pages : List Int) (goal : Goal)
  /-- After `getPage`: `n` more calls follow. -/
  | got (n : Nat) (pages : List Int) (goal : Goal)

/-- What the code goes on with: the memory, the next call, and where it returns to. -/
abbrev Piece := Manager × Instr Empty Unit Empty Loc × Loc

/-- The next call of the process, up to `lock->Acquire()` in `getFree`. -/
def nextCall (table : List Int) (calls : List Call) (m : Manager) : Piece :=
  match calls with
  | [] => (m, .finish, .idle table [])
  | call :: calls => (m, .acquire (), .counting table call calls)

/-- The new page table is complete. -/
def complete (pages : List Int) (goal : Goal) (m : Manager) : Piece :=
  match goal with
  | .copy table child calls => (m, .fork (.idle pages child), .idle table calls)
  | .load calls => nextCall pages calls m

/-- The loop of `copy` or `InitializePageTable`, with `n` pages still to get, up to
`lock->Acquire()` in `getPage`. -/
def getLoop (n : Nat) (pages : List Int) (goal : Goal) (m : Manager) : Piece :=
  match n with
  | 0 => complete pages goal m
  | n + 1 => (m, .acquire (), .getting n pages goal)

/-- The loop of `ReleasePhysicalMemory`, up to `lock->Acquire()` in `clearPage`. -/
def clearLoop (table : List Int) (newNumPages : Nat) (calls : List Call) (m : Manager) : Piece :=
  match table with
  | [] => getLoop newNumPages [] (.load calls) m
  | f :: rest => (m, .acquire (), .clearing (f :: rest) newNumPages calls)

/-- What is compared with `getFree`, as an `unsigned int`. -/
def request (table : List Int) : Call → Nat
  | .copy _ => table.length
  | .replace noffH => uint32 (noffH.numPages - table.length)
  | .new noffH => noffH.numPages

/-- After `getFree`; `none` when `ASSERT(numPages <= memoryManager->getFree())` fails. -/
def check (numFree : Nat) (table : List Int) (call : Call) (calls : List Call) (m : Manager) :
    Option Piece :=
  match call with
  | .copy child =>
    if request table call > numFree then some (nextCall table calls m)
    else some (getLoop table.length [] (.copy table child calls) m)
  | .replace noffH =>
    if request table call > numFree then some (nextCall table calls m)
    else some (clearLoop table noffH.numPages calls m)
  | .new noffH =>
    if request table call ≤ numFree then some (getLoop noffH.numPages [] (.load calls) m) else none

/-- The processes; the lock is `lock` of `class MemoryManager`. -/
def program : Program Empty Unit Empty Manager Loc Empty where
  code t loc m := match loc with
    | .main [] => some (m, .finish, .main [])
    | .main (calls :: scripts) => some (m, .fork (.idle [] calls), .main scripts)
    | .idle table calls => some (nextCall table calls m)
    | .counting table call calls =>
      some (m, .release (), .counted m.virtMem.numClear table call calls)
    | .counted numFree table call calls => check numFree table call calls m
    | .clearing [] _ _ => none
    | .clearing (f :: rest) newNumPages calls =>
      (m.virtMem.clear f).toOption.map fun virtMem =>
        ({ m with virtMem := virtMem }, .release (), .cleared rest newNumPages calls)
    | .cleared table newNumPages calls => some (clearLoop table newNumPages calls m)
    | .getting n pages goal =>
      let (pageNum, virtMem) := m.virtMem.find
      some ({ virtMem := virtMem, got := m.got ++ [(t, pageNum)] }, .release (),
        .got n (pages ++ [pageNum]) goal)
    | .got n pages goal => some (getLoop n pages goal m)
  handler e := e.elim

/-- All frames are free. -/
def start (junk : Nat → BitVec 32) (scripts : List (List Call)) :
    Core Empty Unit Empty Manager Loc :=
  .new (fun x => x.elim) ⟨.new numPhysPages junk, []⟩ (.main scripts)

/-! ## Two copies -/

/-- An executable of 10 pages. -/
def tenPages : NoffHeader := ⟨noffMagic, ⟨0, 40, 256⟩, ⟨0, 0, 0⟩, ⟨0, 0, 0⟩⟩

/-- A process of 10 pages calls `Fork`; then it and its child both call `Fork`, and each of them is
told that 12 pages are free before the other one has taken its 10. -/
def twoForks : List (Move Empty) :=
  (List.replicate 2 0 ++ List.replicate 45 1 ++ [1, 1, 2, 2] ++
    (List.replicate 7 [1, 1, 2, 2]).flatten).map .thread

theorem getPage_fails : ∃ s, run (Core.next program) twoForks
    (start (fun _ => 0) [[.new tenPages, .copy [.copy []], .copy []]]) = some s ∧
    ¬ ∀ r ∈ s.mem.got, 0 ≤ r.2 ∧ r.2 < numPhysPages := by
  have heval : ((run (Core.next program) twoForks
      (start (fun _ => 0) [[.new tenPages, .copy [.copy []], .copy []]])).any fun s =>
        (1, -1) ∈ s.mem.got) = true := by
    decide +kernel
  obtain ⟨s, hs, hgot⟩ := (Option.any_eq_true _ _).mp heval
  refine ⟨s, hs, fun h => ?_⟩
  have hfail := (h _ (of_decide_eq_true hgot)).1
  omega

/-! ## What the callers have still to take -/

/-- The frames that a caller which has passed its check has still to take, less those that it has still
to give back. -/
def outstanding : Loc → Nat
  | .counted numFree table call _ => if request table call ≤ numFree then request table call else 0
  | .clearing table newNumPages _ => newNumPages - table.length
  | .cleared table newNumPages _ => newNumPages - table.length
  | .getting n _ _ => n + 1
  | .got n _ _ => n
  | _ => 0

/-- When a caller is told that there is room for it, there is room also for what the callers before it
have still to take. -/
def admits (s : Core Empty Unit Empty Manager Loc) : Move Empty → Bool
  | .thread t => match s.pc t with
    | .user (.counting table call _) =>
      !(request table call ≤ s.mem.virtMem.numClear) ||
        request table call + s.totalAt outstanding ≤ s.mem.virtMem.numClear
    | _ => true
  | .interrupt _ => true

def Meets (v : Move Empty) (s : Core Empty Unit Empty Manager Loc) : Prop := admits s v = true

instance (v : Move Empty) (s : Core Empty Unit Empty Manager Loc) : Decidable (Meets v s) :=
  inferInstanceAs (Decidable (_ = true))

/-- The page table that a copy is made of. -/
def Goal.table : Goal → List Int
  | .copy table _ _ => table
  | .load _ => []

/-- The frames in the page tables of a thread. -/
def holds : Loc → List Int
  | .main _ => []
  | .idle table _ => table
  | .counting table _ _ => table
  | .counted _ table _ _ => table
  | .clearing table _ _ => table
  | .cleared table _ _ => table
  | .getting _ pages goal => pages ++ goal.table
  | .got _ pages goal => pages ++ goal.table

/-- `getFree` has returned a number of frames, and `Replace` goes on only when the new table is no
smaller than the old one. -/
def Bounded : Loc → Prop
  | .counted numFree _ _ _ => numFree ≤ numPhysPages
  | .clearing table newNumPages _ => table.length ≤ newNumPages
  | .cleared table newNumPages _ => table.length ≤ newNumPages
  | _ => True

/-- The frames that a thread holds after a piece of code, with those of the thread it forks. -/
def Piece.holds (r : Piece) : List Int :=
  (if r.2.1.goesOn then Reservation.holds r.2.2 else []) ++ (Core.forked r.2.1).elim [] Reservation.holds

/-- The frames that they have still to take. -/
def Piece.outstanding (r : Piece) : Nat :=
  (if r.2.1.goesOn then Reservation.outstanding r.2.2 else 0) +
    (Core.forked r.2.1).elim 0 Reservation.outstanding

/-- A piece of code that leaves the bitmap alone, holds no more than `held` and needs no more than
`n`. -/
structure Piece.Keeps (held : List Int) (n : Nat) (m : Manager) (r : Piece) : Prop where
  mem : r.1 = m
  holds : r.holds.Subperm held
  outstanding : r.outstanding ≤ n
  bounded : Bounded r.2.2
  forks : ∀ start, r.2.1 = .fork start → Bounded start

variable {held table pages : List Int} {n : Nat} {m : Manager} {goal : Goal} {calls : List Call}

theorem nextCall_keeps (hheld : table.Subperm held) : (nextCall table calls m).Keeps held n m := by
  cases calls with
  | nil => exact ⟨rfl, List.nil_subperm, Nat.zero_le _, trivial, nofun⟩
  | cons call calls =>
    refine ⟨rfl, ?_, Nat.zero_le _, trivial, nofun⟩
    simpa [Piece.holds, nextCall, Instr.goesOn, Core.forked, holds] using hheld

theorem getLoop_keeps (n : Nat) (hheld : (pages ++ goal.table).Subperm held) :
    (getLoop n pages goal m).Keeps held n m := by
  cases n with
  | zero =>
    cases goal with
    | copy table child calls =>
      refine ⟨rfl, ?_, Nat.zero_le _, trivial, fun start h => ?_⟩
      · show (table ++ pages).Subperm held
        exact List.perm_append_comm.subperm.trans hheld
      · obtain rfl := Instr.fork.inj h
        trivial
    | load calls =>
      refine nextCall_keeps ?_
      simpa [Goal.table] using hheld
  | succ n =>
    refine ⟨rfl, ?_, ?_, trivial, nofun⟩
    · simpa [Piece.holds, getLoop, Instr.goesOn, Core.forked, holds] using hheld
    · simp [Piece.outstanding, getLoop, Instr.goesOn, Core.forked, outstanding]

theorem clearLoop_keeps (hheld : table.Subperm held) (hn : table.length ≤ n) :
    (clearLoop table n calls m).Keeps held (n - table.length) m := by
  cases table with
  | nil => exact getLoop_keeps n (by simp [Goal.table])
  | cons f rest =>
    refine ⟨rfl, ?_, ?_, hn, nofun⟩
    · simpa [Piece.holds, clearLoop, Instr.goesOn, Core.forked, holds] using hheld
    · simp [Piece.outstanding, clearLoop, Instr.goesOn, Core.forked, outstanding]

/-- `Replace` is not let go on with a smaller table, since the difference wraps around. -/
theorem length_le_of_request {noffH : NoffHeader} {numFree : Nat} (hlen : table.length ≤ numPhysPages)
    (hfree : numFree ≤ numPhysPages) (h : request table (.replace noffH) ≤ numFree) :
    table.length ≤ noffH.numPages ∧
      request table (.replace noffH) = noffH.numPages - table.length := by
  have hlt := noffH.numPages_lt
  simp only [request, uint32, numPhysPages] at hlen hfree h ⊢
  omega

theorem check_keeps {numFree : Nat} {call : Call} {r : Piece} (hheld : table.Subperm held)
    (hlen : table.length ≤ numPhysPages) (hfree : numFree ≤ numPhysPages)
    (h : check numFree table call calls m = some r) :
    r.Keeps held (outstanding (.counted numFree table call calls)) m := by
  cases call with
  | copy child =>
    simp only [check] at h
    split at h
    · exact Option.some.inj h ▸ nextCall_keeps hheld
    next hle =>
      rw [outstanding, if_pos (Nat.not_lt.mp hle)]
      exact Option.some.inj h ▸ getLoop_keeps _ (by simpa [Goal.table] using hheld)
  | replace noffH =>
    simp only [check] at h
    split at h
    · exact Option.some.inj h ▸ nextCall_keeps hheld
    next hle =>
      obtain ⟨hgrows, hrequest⟩ := length_le_of_request hlen hfree (Nat.not_lt.mp hle)
      rw [outstanding, if_pos (Nat.not_lt.mp hle), hrequest]
      exact Option.some.inj h ▸ clearLoop_keeps hheld hgrows
  | new noffH =>
    simp only [check] at h
    split at h
    next hle =>
      rw [outstanding, if_pos hle]
      refine Option.some.inj h ▸ getLoop_keeps _ ?_
      exact List.nil_subperm
    · cases h

/-! ## Runs -/

variable {s u : Core Empty Unit Empty Manager Loc} {t : ThreadId} {loc next : Loc}
  {i : Instr Empty Unit Empty Loc}

/-- The frame `f` is marked. -/
def Marked (b : BitMap) (f : Int) : Prop := ∃ j : Nat, f = j ∧ j ∈ b.marked

/-- The frames in all of the page tables are marked, and no two of them are the same. -/
structure Held (s : Core Empty Unit Empty Manager Loc) : Prop where
  nodup : ∀ t loc, (s.pc t).place = some loc → (holds loc).Nodup
  apart : ∀ t t' loc loc', t ≠ t' → (s.pc t).place = some loc → (s.pc t').place = some loc' →
    ∀ f ∈ holds loc, f ∉ holds loc'
  marked : ∀ t loc, (s.pc t).place = some loc → ∀ f ∈ holds loc, Marked s.mem.virtMem f

/-- What every step that `Meets` the condition keeps. -/
structure Invariant (s : Core Empty Unit Empty Manager Loc) : Prop where
  queued : s.Queued
  numBits : s.mem.virtMem.numBits = numPhysPages
  room : s.totalAt outstanding ≤ s.mem.virtMem.numClear
  held : Held s
  bounded : ∀ t loc, (s.pc t).place = some loc → Bounded loc
  valid : ∀ r ∈ s.mem.got, 0 ≤ r.2 ∧ r.2 < numPhysPages

/-- A thread moves, and holds then what it held, or frames that were not marked. -/
theorem Held.moves (hs : Held s) (h : Core.Moves t loc i next s u)
    (hnodup : Piece.holds (u.mem, i, next) |>.Nodup)
    (hfrom : ∀ f ∈ Piece.holds (u.mem, i, next), Marked u.mem.virtMem f ∧
      (f ∈ holds loc ∨ ¬ Marked s.mem.virtMem f))
    (hothers : ∀ f, Marked s.mem.virtMem f → f ∉ holds loc → Marked u.mem.virtMem f) : Held u := by
  have hloc : (s.pc t).place = some loc := by rw [h.pc]; rfl
  -- what a thread holds after the step is what it held, or a part of what `t` leaves
  have hcases {t' : ThreadId} {loc' : Loc} (hloc' : (u.pc t').place = some loc') :
      (t' ≠ t ∧ (s.pc t').place = some loc') ∨ (holds loc').Sublist (Piece.holds (u.mem, i, next)) := by
    obtain hsame | ⟨-, hgoes, rfl⟩ | ⟨-, rfl, -⟩ := h.place_cases hloc'
    · exact .inl hsame
    · refine .inr ?_
      simp only [Piece.holds, if_pos hgoes]
      exact List.sublist_append_left _ _
    · refine .inr ?_
      exact List.sublist_append_right _ _
  have hold {t' : ThreadId} {loc' : Loc} (hne : t' ≠ t) (hloc' : (s.pc t').place = some loc') {f : Int}
      (hf : f ∈ holds loc') : f ∉ Piece.holds (u.mem, i, next) := fun hmem => by
    obtain ⟨-, hfrom | hfrom⟩ := hfrom f hmem
    · exact hs.apart t' t loc' loc hne hloc' hloc f hf hfrom
    · exact hfrom (hs.marked t' loc' hloc' f hf)
  refine ⟨fun t' loc' hloc' => ?_, fun t₁ t₂ loc₁ loc₂ hne h₁ h₂ f hf hf' => ?_,
    fun t' loc' hloc' f hf => ?_⟩
  · obtain ⟨-, hsame⟩ | hsub := hcases hloc'
    · exact hs.nodup t' loc' hsame
    · exact hnodup.sublist hsub
  · -- `t` and the thread that it forks share nothing
    have hfork {start : Loc} (hgoes : i.goesOn = true) (hi : i = .fork start) {f : Int}
        (hf : f ∈ holds next) : f ∉ holds start := fun hf' => by
      subst hi
      have hparts : (holds next ++ holds start).Nodup := hnodup
      exact (List.nodup_append.mp hparts).2.2 f hf f hf' rfl
    obtain ⟨hne₁, hsame₁⟩ | hown₁ := h.place_cases h₁
    · obtain ⟨-, hsame₂⟩ | hsub₂ := hcases h₂
      · exact hs.apart t₁ t₂ loc₁ loc₂ hne hsame₁ hsame₂ f hf hf'
      · exact hold hne₁ hsame₁ hf (hsub₂.subset hf')
    · obtain ⟨hne₂, hsame₂⟩ | hown₂ := h.place_cases h₂
      · obtain ⟨hne₁, hsame₁⟩ | hsub₁ := hcases h₁
        · exact hs.apart t₁ t₂ loc₁ loc₂ hne hsame₁ hsame₂ f hf hf'
        · exact hold hne₂ hsame₂ hf' (hsub₁.subset hf)
      · obtain ⟨rfl, hgoes₁, rfl⟩ | ⟨-, hforked₁, hnew₁⟩ := hown₁
        · obtain ⟨heq, -⟩ | ⟨-, hforked₂, -⟩ := hown₂
          · exact hne heq.symm
          · exact hfork hgoes₁ hforked₂ hf hf'
        · obtain ⟨rfl, hgoes₂, rfl⟩ | ⟨-, -, hnew₂⟩ := hown₂
          · exact hfork hgoes₂ hforked₁ hf' hf
          · exact hne (hnew₁.trans hnew₂.symm)
  · obtain ⟨hne, hsame⟩ | hsub := hcases hloc'
    · refine hothers f (hs.marked t' loc' hsame f hf) fun hmem => ?_
      exact hs.apart t' t loc' loc hne hsame hloc f hf hmem
    · exact (hfrom f (hsub.subset hf)).1

/-- A piece of code that leaves the bitmap alone. -/
theorem Invariant.keeps (hs : Invariant s) (hu : u.Queued) (h : Core.Moves t loc i next s u)
    (hmem : u.mem = s.mem)
    (hkeeps : Piece.Keeps (holds loc) (outstanding loc) s.mem (s.mem, i, next)) : Invariant u := by
  have hloc : (s.pc t).place = some loc := by rw [h.pc]; rfl
  obtain ⟨l, hperm, hsub⟩ := hkeeps.holds
  refine ⟨hu, hmem ▸ hs.numBits, ?_, hs.held.moves h ?_ ?_ ?_, ?_, hmem ▸ hs.valid⟩
  · have htotal := h.total outstanding
    have hout := hkeeps.outstanding
    have hroom := hs.room
    simp only [Piece.outstanding] at hout
    rw [hmem]
    omega
  · rw [hmem]
    exact hperm.nodup_iff.mp ((hs.held.nodup t loc hloc).sublist hsub)
  · intro f hf
    rw [hmem] at hf ⊢
    have hf' : f ∈ holds loc := hkeeps.holds.subset hf
    exact ⟨hs.held.marked t loc hloc f hf', .inl hf'⟩
  · intro f hf _
    exact hmem ▸ hf
  · exact h.forall_place hs.bounded hkeeps.bounded hkeeps.forks

/-- `getPage`, while there is a frame for the caller. -/
theorem Invariant.getPage (hs : Invariant s) (hu : u.Queued)
    (h : Core.Moves t (.getting n pages goal) (.release ())
      (.got n (pages ++ [s.mem.virtMem.find.1]) goal) s u)
    (hmem : u.mem = ⟨s.mem.virtMem.find.2, s.mem.got ++ [(t, s.mem.virtMem.find.1)]⟩) :
    Invariant u := by
  have hloc : (s.pc t).place = some (.getting n pages goal) := by rw [h.pc]; rfl
  have htotal := h.total outstanding
  simp only [outstanding, Instr.goesOn, if_true, Core.forked, Option.elim_none] at htotal
  have hroom := hs.room
  obtain ⟨j, hj, hfree, hfind, hclear⟩ :=
    BitMap.find_of_numClear (b := s.mem.virtMem) (by omega)
  rw [hfind] at hmem h
  have hmarked := s.mem.virtMem.marked_markBit hj
  have hmono (f : Int) (hf : Marked s.mem.virtMem f) : Marked u.mem.virtMem f := by
    obtain ⟨j', rfl, hj'⟩ := hf
    refine ⟨j', rfl, ?_⟩
    rw [hmem, hmarked]
    exact Finset.mem_insert_of_mem hj'
  have hnew : ¬ Marked s.mem.virtMem j := by
    rintro ⟨j', hj', hm⟩
    rw [Int.natCast_inj.mp hj'] at hfree
    exact hfree hm
  have hperm : (pages ++ [(j : Int)] ++ goal.table).Perm (j :: (pages ++ goal.table)) := by
    rw [List.append_assoc]
    exact List.perm_middle
  have hholds : Piece.holds (u.mem, .release (), .got n (pages ++ [(j : Int)]) goal) =
      pages ++ [(j : Int)] ++ goal.table := by
    simp [Piece.holds, Instr.goesOn, Core.forked, holds]
  refine ⟨hu, ?_, ?_, hs.held.moves h ?_ ?_ fun f hf _ => hmono f hf, ?_, fun r hr => ?_⟩
  · rw [hmem]
    exact hs.numBits
  · rw [hmem]
    show u.totalAt outstanding ≤ (s.mem.virtMem.markBit j).numClear
    omega
  · rw [hholds]
    refine hperm.nodup_iff.mpr (List.nodup_cons.mpr ⟨fun hf => ?_, hs.held.nodup t _ hloc⟩)
    exact hnew (hs.held.marked t _ hloc _ hf)
  · intro f hf
    rw [hholds] at hf
    obtain rfl | hf := List.mem_cons.mp (hperm.mem_iff.mp hf)
    · refine ⟨⟨j, rfl, ?_⟩, .inr hnew⟩
      rw [hmem, hmarked]
      exact Finset.mem_insert_self j _
    · exact ⟨hmono f (hs.held.marked t _ hloc f hf), .inl hf⟩
  · exact h.forall_place hs.bounded trivial fun _ h => by cases h
  · rw [hmem] at hr
    obtain hr | hr := List.mem_append.mp hr
    · exact hs.valid r hr
    · rw [List.mem_singleton.mp hr]
      have := hs.numBits
      dsimp only
      omega

/-- `clearPage` for a frame of the caller. -/
theorem Invariant.clearPage {f : Int} {rest : List Int} (hs : Invariant s) (hu : u.Queued)
    {virtMem : BitMap} (hclear : s.mem.virtMem.clear f = .ok virtMem)
    (h : Core.Moves t (.clearing (f :: rest) n calls) (.release ()) (.cleared rest n calls) s u)
    (hmem : u.mem = { s.mem with virtMem := virtMem }) : Invariant u := by
  have hloc : (s.pc t).place = some (.clearing (f :: rest) n calls) := by rw [h.pc]; rfl
  have htotal := h.total outstanding
  simp only [outstanding, Instr.goesOn, if_true, Core.forked, Option.elim_none, List.length_cons]
    at htotal
  have hroom := hs.room
  have hbound : (f :: rest).length ≤ n := hs.bounded t _ hloc
  obtain ⟨j, rfl, hj, rfl⟩ := BitMap.clear_spec hclear
  have hmarked := s.mem.virtMem.marked_clearBit hj
  obtain ⟨j', hj', hset⟩ := hs.held.marked t _ hloc j List.mem_cons_self
  obtain rfl := Int.natCast_inj.mp hj'
  have hfree : (s.mem.virtMem.clearBit j).numClear = s.mem.virtMem.numClear + 1 := by
    have h₁ := s.mem.virtMem.numClear_add_card
    have h₂ := (s.mem.virtMem.clearBit j).numClear_add_card
    rw [hmarked, Finset.card_erase_of_mem hset, BitMap.numBits_clearBit] at h₂
    have := Finset.card_pos.mpr ⟨j, hset⟩
    omega
  have hnodup := List.nodup_cons.mp (hs.held.nodup t _ hloc)
  have hholds : Piece.holds (u.mem, .release (), .cleared rest n calls) = rest := by
    simp [Piece.holds, Instr.goesOn, Core.forked, holds]
  have hkeep (f : Int) (hf : Marked s.mem.virtMem f) (hne : f ≠ j) : Marked u.mem.virtMem f := by
    obtain ⟨j', rfl, hj'⟩ := hf
    refine ⟨j', rfl, ?_⟩
    rw [hmem, hmarked]
    exact Finset.mem_erase.mpr ⟨fun he => hne (by rw [he]), hj'⟩
  refine ⟨hu, ?_, ?_, hs.held.moves h ?_ ?_ ?_, ?_, ?_⟩
  · rw [hmem]
    exact hs.numBits
  · rw [hmem]
    show u.totalAt outstanding ≤ (s.mem.virtMem.clearBit j).numClear
    simp only [List.length_cons] at hbound
    omega
  · rw [hholds]
    exact hnodup.2
  · intro f hf
    rw [hholds] at hf
    have hf' : f ∈ holds (.clearing (↑j :: rest) n calls) := List.mem_cons_of_mem _ hf
    exact ⟨hkeep f (hs.held.marked t _ hloc f hf') (ne_of_mem_of_not_mem hf hnodup.1), .inl hf'⟩
  · intro f hf hnot
    exact hkeep f hf fun he => hnot (he ▸ List.mem_cons_self)
  · refine h.forall_place hs.bounded ?_ fun _ h => by cases h
    exact (Nat.le_succ _).trans hbound
  · rw [hmem]
    exact hs.valid

theorem Invariant.length_le (hs : Invariant s) (hloc : (s.pc t).place = some loc) :
    (holds loc).length ≤ numPhysPages := by
  have hsub : (holds loc).toFinset ⊆ (s.mem.virtMem.marked.image fun j : Nat => (j : Int)) := by
    intro f hf
    obtain ⟨j, rfl, hj⟩ := hs.held.marked t loc hloc f (List.mem_toFinset.mp hf)
    exact Finset.mem_image_of_mem _ hj
  have hcard := Finset.card_le_card hsub
  rw [List.toFinset_card_of_nodup (hs.held.nodup t loc hloc)] at hcard
  have himage := Finset.card_image_le (s := s.mem.virtMem.marked) (f := fun j : Nat => (j : Int))
  have hbits := s.mem.virtMem.numClear_add_card
  have := hs.numBits
  omega

theorem Invariant.moves (hs : Invariant s) (hu : u.Queued) (hmeets : Meets (.thread t) s)
    (hcode : program.code t loc s.mem = some (u.mem, i, next)) (h : Core.Moves t loc i next s u) :
    Invariant u := by
  have hloc : (s.pc t).place = some loc := by rw [h.pc]; rfl
  have hpiece {r : Piece} (heq : some r = some (u.mem, i, next))
      (hr : r.Keeps (holds loc) (outstanding loc) s.mem) : Invariant u := by
    replace heq := Option.some.inj heq
    subst heq
    have hmem : u.mem = s.mem := hr.mem
    rw [hmem] at hr
    exact hs.keeps hu h hmem hr
  cases loc with
  | main scripts =>
    cases scripts with
    | nil =>
      exact hpiece hcode ⟨rfl, List.nil_subperm, Nat.zero_le _, trivial, fun _ h => by cases h⟩
    | cons calls scripts =>
      refine hpiece hcode ⟨rfl, List.nil_subperm, Nat.zero_le _, trivial, fun start h => ?_⟩
      obtain rfl := Instr.fork.inj h
      trivial
  | idle table calls => exact hpiece hcode (nextCall_keeps (List.Subperm.refl _))
  | counting table call calls =>
    simp only [program, Option.some.injEq, Prod.mk.injEq] at hcode
    obtain ⟨hmem, rfl, rfl⟩ := hcode
    have hbits := s.mem.virtMem.numClear_add_card
    have hnum := hs.numBits
    have htotal := h.total outstanding
    simp only [outstanding, Instr.goesOn, if_true, Core.forked, Option.elim_none] at htotal
    have hroom := hs.room
    simp only [Meets, admits, h.pc, Bool.or_eq_true, Bool.not_eq_true', decide_eq_false_iff_not,
      decide_eq_true_eq] at hmeets
    have hheld : Held u := by
      refine hs.held.moves h ?_ (fun f hf => ?_) fun f hf _ => hmem ▸ hf
      · simpa [Piece.holds, Instr.goesOn, Core.forked, holds] using hs.held.nodup t _ hloc
      · have hf : f ∈ table := by
          simpa [Piece.holds, Instr.goesOn, Core.forked, holds] using hf
        exact ⟨hmem ▸ hs.held.marked t _ hloc f hf, .inl hf⟩
    refine ⟨hu, hmem ▸ hs.numBits, ?_, hheld, ?_, hmem ▸ hs.valid⟩
    · rw [← hmem]
      split at htotal <;> omega
    · refine h.forall_place hs.bounded ?_ fun _ h => by cases h
      show s.mem.virtMem.numClear ≤ numPhysPages
      omega
  | counted numFree table call calls =>
    exact hpiece rfl
      (check_keeps (List.Subperm.refl _) (hs.length_le hloc) (hs.bounded t _ hloc) hcode)
  | clearing table newNumPages calls =>
    cases table with
    | nil => cases hcode
    | cons f rest =>
      obtain ⟨virtMem, hclear, heq⟩ := Option.map_eq_some_iff.mp hcode
      simp only [Prod.mk.injEq] at heq
      obtain ⟨hmem, rfl, rfl⟩ := heq
      exact hs.clearPage hu (toOption_eq_some.mp hclear) h hmem.symm
  | cleared table newNumPages calls =>
    exact hpiece hcode (clearLoop_keeps (List.Subperm.refl _) (hs.bounded t _ hloc))
  | getting n pages goal =>
    simp only [program, Option.some.injEq, Prod.mk.injEq] at hcode
    obtain ⟨hmem, rfl, rfl⟩ := hcode
    exact hs.getPage hu h hmem.symm
  | got n pages goal =>
    exact hpiece hcode (getLoop_keeps n (List.Subperm.refl _))

/-- A thread goes on with a call begun before a `Sleep`. -/
theorem Invariant.resumes (hs : Invariant s) (hu : u.Queued) (hmem : u.mem = s.mem)
    (hplace : ∀ t, (u.pc t).place = (s.pc t).place)
    (htotal : u.totalAt outstanding = s.totalAt outstanding) : Invariant u where
  queued := hu
  numBits := hmem ▸ hs.numBits
  room := by
    rw [htotal, hmem]
    exact hs.room
  held :=
    ⟨fun t loc h => hs.held.nodup t loc (hplace t ▸ h),
      fun t t' loc loc' hne h h' => hs.held.apart t t' loc loc' hne (hplace t ▸ h) (hplace t' ▸ h'),
      fun t loc h f hf => hmem ▸ hs.held.marked t loc (hplace t ▸ h) f hf⟩
  bounded t loc h := hs.bounded t loc (hplace t ▸ h)
  valid := hmem ▸ hs.valid

theorem next_invariant {v : Move Empty} (hs : Invariant s) (hmeets : Meets v s)
    (h : s.next program v = some u) : Invariant u := by
  have hu := Core.next_queued hs.queued h
  cases v with
  | interrupt e => exact e.elim
  | thread t =>
    obtain ⟨⟨e, u'⟩, hstep, rfl⟩ := Option.map_eq_some_iff.mp h
    obtain ⟨hmem, hplace, htotal⟩ | ⟨loc, m, i, next, hcode, hmem, hmoves⟩ :=
      Core.step_moves hs.queued hstep
    · exact hs.resumes hu hmem hplace (htotal outstanding)
    · subst hmem
      exact hs.moves hu hmeets hcode hmoves

theorem start_invariant (junk : Nat → BitVec 32) (scripts : List (List Call)) :
    Invariant (start junk scripts) := by
  have hplace (t : ThreadId) (loc : Loc) (h : ((start junk scripts).pc t).place = some loc) :
      loc = .main scripts := by
    by_cases ht : t = 0
    · simp only [start, Core.new, ht, Function.update_self, PC.place, Option.some.injEq] at h
      exact h.symm
    · simp [start, Core.new, ht, PC.place] at h
  obtain ⟨hbits, -⟩ := BitMap.marked_new numPhysPages junk
  refine ⟨Core.new_queued _ _ _, hbits, ?_, ⟨?_, ?_, ?_⟩, ?_, fun _ h => by cases h⟩
  · have hzero : (start junk scripts).totalAt outstanding = 0 := Core.new_totalAt _ _ _ _
    rw [hzero]
    exact Nat.zero_le _
  · intro t loc h
    rw [hplace t loc h]
    exact List.nodup_nil
  · intro t t' loc loc' _ h _ f hf
    rw [hplace t loc h] at hf
    cases hf
  · intro t loc h f hf
    rw [hplace t loc h] at hf
    cases hf
  · intro t loc h
    rw [hplace t loc h]
    trivial

/-- In every run in which a caller passes its check only when there is room also for what the callers
before it have still to take, `getPage` returns a frame each time. -/
theorem reserved_run {junk : Nat → BitVec 32} {scripts : List (List Call)} {ms : List (Move Empty)}
    (h : run (Core.next program) ms (start junk scripts) = some s)
    (hmeets : Along (Core.next program) Meets ms (start junk scripts)) :
    ∀ r ∈ s.mem.got, 0 ≤ r.2 ∧ r.2 < numPhysPages :=
  (run_invariant_along (fun _ _ _ hs hm hstep => next_invariant hs hm hstep)
    (start_invariant junk scripts) hmeets h).valid

/-- The process and its child of `twoForks`, up to the check of the second copy. -/
theorem reserved_run_twoForks : ∃ s, run (Core.next program) (twoForks.take 48)
    (start (fun _ => 0) [[.new tenPages, .copy [.copy []], .copy []]]) = some s ∧
    s.mem.got.length = 20 ∧ ∀ r ∈ s.mem.got, 0 ≤ r.2 ∧ r.2 < numPhysPages := by
  have heval : Along (Core.next program) Meets (twoForks.take 48)
        (start (fun _ => 0) [[.new tenPages, .copy [.copy []], .copy []]]) ∧
      ((run (Core.next program) (twoForks.take 48)
        (start (fun _ => 0) [[.new tenPages, .copy [.copy []], .copy []]])).any fun s =>
        s.mem.got.length = 20) = true := by
    decide +kernel
  obtain ⟨s, hs, hlen⟩ := (Option.any_eq_true _ _).mp heval.2
  exact ⟨s, hs, of_decide_eq_true hlen, reserved_run hs heval.1⟩

end Nachos.Reservation
