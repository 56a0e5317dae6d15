import Nachos.Threads.Queues
import Nachos.Threads.System

/-!
# Threads are conserved

In every state of a run each thread that was forked and has not finished is in
one place: it runs, it is on the ready list, or it is on one wait queue, and its
status says which (`InOnePlace`). `Placed` is the part of the invariant about
the threads that do not run, and `Conserved` adds the current thread and the
interrupt level: while the current thread is in the loop of `Sleep` it does not
run, and an interrupt may put it on the ready list itself.

`levelAfter` is the level that the frames of a thread end with, so that what a
call saved is what it restores.
-/

namespace Nachos.Threads

open Nachos.Framework Nachos.Machine

/-! ## The scheduler -/

namespace Scheduler

theorem readyAll_eq (ts : List ThreadId) (s : Scheduler) : s.readyAll ts = { s with
    readyList := s.readyList ++ ts
    entered := s.entered ++ ts
    status := fun t => if t ∈ ts then .ready else s.status t } := by
  induction ts generalizing s with
  | nil => simp [readyAll]
  | cons t ts ih =>
    have hcons : s.readyAll (t :: ts) = (s.readyToRun t).readyAll ts := rfl
    rw [hcons, ih]
    simp only [readyToRun, setStatus, List.append_assoc, List.singleton_append]
    congr 1
    funext t'
    by_cases ht : t' = t <;> by_cases hts : t' ∈ ts <;> simp [ht, hts]

section Run

variable (s : Scheduler) (next : ThreadId)

theorem reap_eq : ∃ d ds, s.reap = { s with threadToBeDestroyed := d, destroyed := ds } := by
  unfold reap
  split
  · exact ⟨s.threadToBeDestroyed, s.destroyed, rfl⟩
  · exact ⟨none, _, rfl⟩

/-- What `Scheduler::Run` does but for the carcass of a finished thread. -/
theorem run_eq : ∃ d ds st, s.run next = { s with
    currentThread := next
    status := Function.update s.status next .running
    switchedOn := s.switchedOn || s.level == IntStatus.intOn
    threadToBeDestroyed := d
    destroyed := ds
    started := st } := by
  unfold run
  dsimp only
  split
  · obtain ⟨d, ds, h⟩ := reap_eq { s.setStatus next .running with
      currentThread := next, switchedOn := s.switchedOn || s.level == IntStatus.intOn }
    exact ⟨d, ds, s.started, h⟩
  · exact ⟨s.threadToBeDestroyed, s.destroyed, Function.update s.started next true, rfl⟩

end Run

end Scheduler

variable {S L C σ Loc Ev : Type} [DecidableEq S] [DecidableEq L] [DecidableEq C]
variable {p : Program S L C σ Loc Ev} {core core' : Core S L C σ Loc} {sched : Scheduler}
variable {t : ThreadId} {e : Effect} {x : Option ThreadId}

/-- The threads but `x` are on the ready list, or asleep and blocked. -/
structure Placed (x : Option ThreadId) (core : Core S L C σ Loc) (sched : Scheduler) : Prop where
  nodup : sched.readyList.Nodup
  ready : ∀ t ∈ sched.readyList,
    core.pc t ≠ .finished ∧ core.asleep t = false ∧ sched.status t = .ready ∧ some t ≠ x
  others : ∀ t, some t ≠ x → core.pc t ≠ .finished →
    t ∈ sched.readyList ∨ (core.asleep t = true ∧ sched.status t = .blocked)

section

omit [DecidableEq S] [DecidableEq L] [DecidableEq C]

/-- A step of the thread that runs. -/
theorem Placed.step (h : Placed (some t) core sched) (hunborn : core.Queued)
    (hw : Core.Wakes t e.ready core core') :
    Placed (some t) core' (sched.readyAll e.ready) := by
  rw [Scheduler.readyAll_eq]
  refine ⟨?_, fun t' ht' => ?_, fun t' hne hborn => ?_⟩
  · refine List.nodup_append.mpr ⟨h.nodup, hw.nodup, fun a ha b hb hab => ?_⟩
    subst hab
    obtain hs | hs := (hw.woken a hb).2.1
    · simp [(h.ready a ha).2.1] at hs
    · exact (h.ready a ha).1 (hunborn.unborn a hs.le)
  · by_cases hr : t' ∈ e.ready
    · obtain ⟨hne, -, hawake, hborn⟩ := hw.woken t' hr
      exact ⟨hborn, hawake, by simp [hr], by simpa using hne⟩
    · obtain ⟨hborn, hawake, hst, hne⟩ :=
        h.ready t' ((List.mem_append.mp ht').resolve_right hr)
      obtain ⟨hpc, has⟩ := hw.others t' (by simpa using hne) hr
      exact ⟨hpc ▸ hborn, has ▸ hawake, by simpa [hr] using hst, hne⟩
  · by_cases hr : t' ∈ e.ready
    · exact .inl (List.mem_append_right _ hr)
    · obtain ⟨hpc, has⟩ := hw.others t' (by simpa using hne) hr
      obtain hl | ⟨ha, hst⟩ := h.others t' hne (hpc ▸ hborn)
      · exact .inl (List.mem_append_left _ hl)
      · exact .inr ⟨has ▸ ha, by simpa [hr] using hst⟩

/-- An interrupt. -/
theorem Placed.interrupt {ts : List ThreadId} (h : Placed x core sched)
    (hx : ∀ t, x = some t → core.asleep t = false) (hw : Core.Interrupts ts core core') :
    Placed x core' (sched.readyAll ts) := by
  rw [Scheduler.readyAll_eq]
  have hasleep (t : ThreadId) (ht : t ∉ ts) : core'.asleep t = core.asleep t :=
    Bool.eq_iff_iff.mpr ((hw.asleep t).trans (and_iff_left ht))
  refine ⟨?_, fun t' ht' => ?_, fun t' hne hborn => ?_⟩
  · refine List.nodup_append.mpr ⟨h.nodup, hw.nodup, fun a ha b hb hab => ?_⟩
    subst hab
    simpa [(h.ready a ha).2.1] using hw.woken a hb
  · by_cases hr : t' ∈ ts
    · refine ⟨hw.pc ▸ Core.pc_ne_finished_of_asleep (hw.woken t' hr), ?_, by simp [hr], fun hx' => ?_⟩
      · exact Bool.eq_false_iff.mpr fun ha => ((hw.asleep t').mp ha).2 hr
      · simpa [hx t' hx'.symm] using hw.woken t' hr
    · obtain ⟨hborn, hawake, hst, hne⟩ :=
        h.ready t' ((List.mem_append.mp ht').resolve_right hr)
      exact ⟨hw.pc ▸ hborn, hasleep t' hr ▸ hawake, by simpa [hr] using hst, hne⟩
  · by_cases hr : t' ∈ ts
    · exact .inl (List.mem_append_right _ hr)
    · obtain hl | ⟨ha, hst⟩ := h.others t' hne (hw.pc ▸ hborn)
      · exact .inl (List.mem_append_left _ hl)
      · exact .inr ⟨hasleep t' hr ▸ ha, by simpa [hr] using hst⟩

/-- The thread that runs goes to sleep, or finishes. -/
theorem Placed.sleep (h : Placed (some t) core sched)
    (ht : core.asleep t = true ∨ core.pc t = .finished) :
    Placed none core (sched.setStatus t .blocked) := by
  refine ⟨h.nodup, fun t' ht' => ?_, fun t' _ hborn => ?_⟩
  · obtain ⟨hborn, hawake, hst, hne⟩ := h.ready t' ht'
    have hne : t' ≠ t := by simpa using hne
    exact ⟨hborn, hawake, by simpa [Scheduler.setStatus, hne] using hst, by simp⟩
  · by_cases hne : t' = t
    · subst hne
      exact .inr ⟨ht.resolve_right hborn, by simp [Scheduler.setStatus]⟩
    · obtain hl | ⟨ha, hst⟩ := h.others t' (by simpa using hne) hborn
      · exact .inl hl
      · exact .inr ⟨ha, by simpa [Scheduler.setStatus, hne] using hst⟩

/-- The thread that runs is put on the ready list. -/
theorem Placed.readyToRun (h : Placed (some t) core sched) (hawake : core.asleep t = false)
    (hborn : core.pc t ≠ .finished) : Placed none core (sched.readyToRun t) := by
  have hnot : t ∉ sched.readyList := fun ht => (h.ready t ht).2.2.2 rfl
  refine ⟨?_, fun t' ht' => ?_, fun t' _ hborn' => ?_⟩
  · exact List.nodup_append.mpr ⟨h.nodup, List.nodup_singleton t, by
      simpa [eq_comm] using fun a ha => ne_of_mem_of_not_mem ha hnot⟩
  · by_cases hne : t' = t
    · subst hne
      exact ⟨hborn, hawake, by simp [Scheduler.readyToRun, Scheduler.setStatus], by simp⟩
    · obtain ⟨hb, ha, hst, -⟩ := h.ready t' ((List.mem_append.mp ht').resolve_right (by simpa using hne))
      exact ⟨hb, ha, by simpa [Scheduler.readyToRun, Scheduler.setStatus, hne] using hst, by simp⟩
  · by_cases hne : t' = t
    · exact .inl (List.mem_append_right _ (by simp [hne]))
    · obtain hl | ⟨ha, hst⟩ := h.others t' (by simpa using hne) hborn'
      · exact .inl (List.mem_append_left _ hl)
      · exact .inr ⟨ha, by simpa [Scheduler.readyToRun, Scheduler.setStatus, hne] using hst⟩

/-- The first thread of the ready list is dispatched. -/
theorem Placed.dispatch {next : ThreadId} {others : List ThreadId} (h : Placed none core sched)
    (hl : sched.readyList = next :: others) :
    Placed (some next) core ((sched.takeNext next others).run next) := by
  obtain ⟨d, ds, st, hrun⟩ := (sched.takeNext next others).run_eq next
  rw [hrun]
  obtain ⟨hnext, hnodup⟩ := List.nodup_cons.mp (hl ▸ h.nodup)
  refine ⟨hnodup, fun t' ht' => ?_, fun t' hne hborn => ?_⟩
  · have hne : t' ≠ next := ne_of_mem_of_not_mem ht' hnext
    obtain ⟨hb, ha, hst, -⟩ := h.ready t' (hl ▸ List.mem_cons_of_mem _ ht')
    exact ⟨hb, ha, by simpa [Scheduler.takeNext, hne] using hst, by simpa using hne⟩
  · have hne : t' ≠ next := by simpa using hne
    obtain hr | ⟨ha, hst⟩ := h.others t' (by simp) hborn
    · exact .inl ((List.mem_cons.mp (hl ▸ hr)).resolve_left hne)
    · exact .inr ⟨ha, by simpa [Scheduler.takeNext, hne] using hst⟩

end

/-! ## The frames -/

/-- Frames that neither sleep nor go on after a `Sleep`. -/
def Plain (fs : List Frame) : Prop := ∀ f ∈ fs, f ≠ .sleeping ∧ f ≠ .resume

/-- The frames of a thread that waits to be dispatched. -/
def Suspended (fs : List Frame) : Prop := Plain fs ∨ ∃ rest, fs = .resume :: rest ∧ Plain rest

/-- The interrupt level at the end of the frames. -/
def levelAfter : List Frame → IntStatus → IntStatus
  | [], level => level
  | .setLevel now :: fs, _ => levelAfter fs now
  | .tick :: fs, _ => levelAfter fs .intOn
  | .yield :: fs, level => levelAfter fs level
  | .sleeping :: fs, level => levelAfter fs level
  | .resume :: fs, level => levelAfter fs level

theorem plain_cons {f : Frame} {fs : List Frame} :
    Plain (f :: fs) ↔ (f ≠ .sleeping ∧ f ≠ .resume) ∧ Plain fs := by
  simp [Plain]

theorem plain_nil : Plain [] := by simp [Plain]

namespace System

variable {s u : System S L C σ Loc}

/-- The current thread runs: it is nowhere else. -/
structure Running (s : System S L C σ Loc) : Prop where
  frames : Plain (s.frames s.sched.currentThread) ∨
    ∃ rest, s.frames s.sched.currentThread = .resume :: rest ∧ Plain rest ∧ s.sched.level = .intOff
  placed : Placed (some s.sched.currentThread) s.core s.sched
  born : s.core.pc s.sched.currentThread ≠ .finished
  awake : s.core.asleep s.sched.currentThread = false
  status : s.sched.status s.sched.currentThread = .running

/-- The current thread is in the loop of `Sleep`. -/
structure Sleeping (s : System S L C σ Loc) : Prop where
  frames : ∃ rest, s.frames s.sched.currentThread = .sleeping :: rest ∧ Suspended rest
  level : s.sched.level = .intOff
  placed : Placed none s.core s.sched

/-- What the system keeps to. -/
structure Conserved (s : System S L C σ Loc) : Prop where
  queued : s.core.Queued
  born : s.sched.currentThread < s.core.numThreads
  mode : Running s ∨ Sleeping s
  suspended : ∀ t, t ≠ s.sched.currentThread → Suspended (s.frames t)
  level : ∀ t, t ≠ s.sched.currentThread → (t < s.core.numThreads → s.core.pc t ≠ .finished) →
    levelAfter (s.frames t) .intOff = s.found t
  levelHere : s.core.pc s.sched.currentThread ≠ .finished →
    levelAfter (s.frames s.sched.currentThread) s.sched.level = s.found s.sched.currentThread
  switchedOff : s.sched.switchedOn = false
  fifo : s.sched.entered = s.sched.left ++ s.sched.readyList

/-- The call that the current thread is about to make. -/
def nextCall (p : Program S L C σ Loc Ev) (s : System S L C σ Loc) : Option (Instr S L C Loc) :=
  match s.frames s.sched.currentThread with
  | [] => s.core.nextCall p s.sched.currentThread
  | _ => none

/-- If it releases a lock, the current thread is its holder. -/
def ReleasesAsHolder (p : Program S L C σ Loc Ev) (s : System S L C σ Loc) : Prop :=
  ((s.nextCall p).bind Core.releases).all fun k =>
    (s.core.lock k).holder == some s.sched.currentThread

instance (p : Program S L C σ Loc Ev) (s : System S L C σ Loc) : Decidable (s.ReleasesAsHolder p) :=
  inferInstanceAs (Decidable (_ = true))

section

omit [DecidableEq S] [DecidableEq L] [DecidableEq C]

/-- `SetLevel` and the end of `OneTick` leave the threads alone. -/
theorem Conserved.relevel (level : IntStatus) {fs : List Frame} (hs : s.Conserved)
    (hr : s.Running) (hplain : Plain fs)
    (hafter : levelAfter fs level =
      levelAfter (s.frames s.sched.currentThread) s.sched.level) :
    ((s.setLevel level).setFrames s.sched.currentThread fs).Conserved where
  queued := hs.queued
  born := hs.born
  mode := .inl {
    frames := .inl (by simpa using hplain)
    placed := ⟨hr.placed.nodup, hr.placed.ready, hr.placed.others⟩
    born := hr.born
    awake := hr.awake
    status := hr.status }
  suspended t ht := by
    have ht : t ≠ s.sched.currentThread := ht
    simpa [ht] using hs.suspended t ht
  level t ht hborn := by
    have ht : t ≠ s.sched.currentThread := ht
    simpa [ht] using hs.level t ht hborn
  levelHere hborn := by simpa [hafter] using hs.levelHere hborn
  switchedOff := hs.switchedOff
  fifo := hs.fifo

/-- A current thread with a frame other than `sleeping` runs, and what is below it is plain. -/
theorem Conserved.running {f : Frame} {rest : List Frame} (hs : s.Conserved)
    (hf : s.frames s.sched.currentThread = f :: rest) (hne : f ≠ .sleeping) :
    s.Running ∧ Plain rest := by
  obtain hr | hsl := hs.mode
  · refine ⟨hr, ?_⟩
    obtain hp | ⟨rest', hrest, hp, -⟩ := hr.frames
    · exact (plain_cons.mp (hf ▸ hp)).2
    · obtain ⟨-, rfl⟩ := List.cons.inj (hf.symm.trans hrest)
      exact hp
  · obtain ⟨rest', hrest, -⟩ := hsl.frames
    exact absurd (List.cons.inj (hf.symm.trans hrest)).1 hne

theorem Conserved.levelStep {now : IntStatus} {rest : List Frame} (hs : s.Conserved)
    (hf : s.frames s.sched.currentThread = .setLevel now :: rest) :
    (s.levelStep s.sched.currentThread now rest).Conserved := by
  obtain ⟨hr, hp⟩ := hs.running hf (by simp)
  unfold System.levelStep
  split
  next h =>
    refine hs.relevel _ hr (plain_cons.mpr ⟨by simp, hp⟩) ?_
    rw [hf, h.1]
    rfl
  · refine hs.relevel _ hr hp ?_
    rw [hf]
    rfl

/-- An interrupt wakes threads up, whether the current thread runs or sleeps. -/
theorem Conserved.interrupt {ts : List ThreadId} {core : Core S L C σ Loc} (hs : s.Conserved)
    (hqueued : core.Queued) (hw : Core.Interrupts ts s.core core) :
    ({ s with core := core }.readyAll ts).Conserved ∧
      (s.Running → ({ s with core := core }.readyAll ts).Running) := by
  have hrun (hr : s.Running) : ({ s with core := core }.readyAll ts).Running := by
    have hnot : s.sched.currentThread ∉ ts := fun ht => by simpa [hr.awake] using hw.woken _ ht
    have hsched := Scheduler.readyAll_eq ts s.sched
    exact {
      frames := by simpa [hsched] using hr.frames
      placed := by
        simpa [hsched] using hr.placed.interrupt (fun t ht => Option.some.inj ht ▸ hr.awake) hw
      born := by simpa [hsched, hw.pc] using hr.born
      awake := by
        have := (hw.asleep s.sched.currentThread).not.mpr (by simp [hr.awake])
        simpa [hsched] using this
      status := by simpa [hsched, hnot] using hr.status }
  refine ⟨⟨hqueued, ?_, ?_, ?_, ?_, ?_, ?_, ?_⟩, hrun⟩
  · simpa [Scheduler.readyAll_eq, hw.numThreads] using hs.born
  · refine hs.mode.imp hrun fun hsl => ⟨?_, ?_, ?_⟩
    · simpa [Scheduler.readyAll_eq] using hsl.frames
    · simpa [Scheduler.readyAll_eq] using hsl.level
    · exact hsl.placed.interrupt (fun t ht => by cases ht) hw
  · simpa [Scheduler.readyAll_eq] using hs.suspended
  · simpa [Scheduler.readyAll_eq, hw.pc, hw.numThreads] using hs.level
  · simpa [Scheduler.readyAll_eq, hw.pc] using hs.levelHere
  · simpa [Scheduler.readyAll_eq] using hs.switchedOff
  · simp [Scheduler.readyAll_eq, hs.fifo]

end

theorem Conserved.handle {es : List Ev} (hs : s.Conserved) (h : s.handle p es = some u) :
    u.Conserved ∧ u.frames = s.frames ∧ u.sched.currentThread = s.sched.currentThread ∧
      u.sched.level = s.sched.level ∧ (s.Running → u.Running) := by
  induction es generalizing s with
  | nil =>
    obtain rfl := Option.some.inj h
    exact ⟨hs, rfl, rfl, rfl, id⟩
  | cons e es ih =>
    obtain ⟨⟨ts, core⟩, hint, h⟩ := Option.bind_eq_some_iff.mp h
    obtain ⟨hs', hrun⟩ := hs.interrupt (Core.interrupt_queued hs.queued hint)
      (Core.interrupt_wakes hs.queued hint)
    obtain ⟨hu, hframes, hcurrent, hlevel, hrun'⟩ := ih hs' h
    have hsched := Scheduler.readyAll_eq ts s.sched
    exact ⟨hu, hframes, by simpa [hsched] using hcurrent, by simpa [hsched] using hlevel,
      hrun' ∘ hrun⟩

theorem Conserved.tickStep {i : Input Ev} {rest : List Frame} (hs : s.Conserved)
    (hf : s.frames s.sched.currentThread = .tick :: rest)
    (h : s.tickStep p i s.sched.currentThread rest = some u) : u.Conserved := by
  obtain ⟨v, hv, rfl⟩ := Option.map_eq_some_iff.mp h
  obtain ⟨hr, hp⟩ := hs.running hf (by simp)
  have hoff : (s.setLevel .intOff).Conserved := by
    have := hs.relevel .intOff hr (plain_cons.mpr ⟨by simp, hp⟩ : Plain (.tick :: rest))
      (by rw [hf]; rfl)
    rwa [← hf, show (s.setLevel .intOff).setFrames _ _ = s.setLevel .intOff by
      simp [System.setFrames, System.setLevel]] at this
  obtain ⟨hv', hframes, hcurrent, -, -⟩ := hoff.handle hv
  have hf' : v.frames v.sched.currentThread = .tick :: rest := by
    rw [hframes, hcurrent]
    exact hf
  obtain ⟨hrv, -⟩ := hv'.running hf' (by simp)
  have hcurrent : v.sched.currentThread = s.sched.currentThread := hcurrent
  rw [← hcurrent]
  refine hv'.relevel _ hrv ?_ ?_
  · split
    · exact plain_cons.mpr ⟨by simp, hp⟩
    · exact hp
  · rw [hf']
    split <;> rfl

section

omit [DecidableEq S] [DecidableEq L] [DecidableEq C]

/-- The processor goes from the current thread, which keeps `rest` to do and is on the ready list,
asleep or finished, to the first thread of the ready list. -/
theorem conserved_run (rest : List Frame) {next : ThreadId} {others : List ThreadId}
    (hqueued : s.core.Queued) (hplaced : Placed none s.core s.sched)
    (hoff : s.sched.level = .intOff) (hready : s.sched.readyList = next :: others)
    (hsuspended : ∀ t, t ≠ s.sched.currentThread → Suspended (s.frames t))
    (hrest : Suspended rest)
    (hlevel : ∀ t, t ≠ s.sched.currentThread → (t < s.core.numThreads → s.core.pc t ≠ .finished) →
      levelAfter (s.frames t) .intOff = s.found t)
    (hhere : s.core.pc s.sched.currentThread ≠ .finished →
      levelAfter rest .intOff = s.found s.sched.currentThread)
    (hborn : s.sched.currentThread < s.core.numThreads)
    (hswitched : s.sched.switchedOn = false)
    (hfifo : s.sched.entered = s.sched.left ++ s.sched.readyList) :
    ({ s with sched := s.sched.takeNext next others }.run s.sched.currentThread rest next).Conserved := by
  have hnext := hplaced.ready next (hready ▸ List.mem_cons_self)
  have hdispatch := hplaced.dispatch hready
  have hframes (t : ThreadId) : Suspended (Function.update s.frames s.sched.currentThread rest t) := by
    by_cases ht : t = s.sched.currentThread
    · simpa [ht] using hrest
    · simpa [ht] using hsuspended t ht
  have hlevels (t : ThreadId) (ht' : t < s.core.numThreads → s.core.pc t ≠ .finished) :
      levelAfter (Function.update s.frames s.sched.currentThread rest t) .intOff = s.found t := by
    by_cases ht : t = s.sched.currentThread
    · subst ht
      simpa using hhere (ht' hborn)
    · simpa [ht] using hlevel t ht ht'
  obtain ⟨d, ds, st, hrun⟩ := (s.sched.takeNext next others).run_eq next
  simp only [System.run, setFrames, hrun] at hdispatch ⊢
  exact {
    queued := hqueued
    born := not_le.mp fun hle => hnext.1 (hqueued.unborn next hle)
    mode := .inl {
      frames := (hframes next).imp id fun ⟨r, hr, hp⟩ => ⟨r, hr, hp, hoff⟩
      placed := hdispatch
      born := hnext.1
      awake := hnext.2.1
      status := Function.update_self _ _ _ }
    suspended := fun t _ => hframes t
    level := fun t _ ht => hlevels t ht
    levelHere := fun hb => by
      show levelAfter (Function.update s.frames s.sched.currentThread rest next) s.sched.level = _
      rw [hoff]
      exact hlevels next fun _ => hb
    switchedOff := by simp [Scheduler.takeNext, hswitched, hoff]
    fifo := by simp [Scheduler.takeNext, hfifo, hready] }

theorem Conserved.yieldStep {rest : List Frame} (hs : s.Conserved)
    (hf : s.frames s.sched.currentThread = .yield :: rest) :
    (s.yieldStep s.sched.currentThread rest).Conserved := by
  obtain ⟨hr, hp⟩ := hs.running hf (by simp)
  have hplain : Plain (.setLevel s.sched.level :: rest) := plain_cons.mpr ⟨by simp, hp⟩
  unfold System.yieldStep
  dsimp only
  split
  · refine hs.relevel _ hr hplain ?_
    rw [hf]
    rfl
  next next others hready =>
    have hready : s.sched.readyList = next :: others := hready
    let v := { s.setLevel .intOff with
      sched := (s.setLevel .intOff).sched.readyToRun s.sched.currentThread }
    have hvready : v.sched.readyList = next :: (others ++ [s.sched.currentThread]) := by
      simp [v, Scheduler.readyToRun, hready]
    have hplaced : Placed (some s.sched.currentThread) s.core (s.setLevel .intOff).sched :=
      ⟨hr.placed.nodup, hr.placed.ready, hr.placed.others⟩
    have hrun : v.sched.takeNext next (others ++ [s.sched.currentThread]) =
        ((s.setLevel .intOff).sched.takeNext next others).readyToRun s.sched.currentThread := rfl
    have := conserved_run (s := v) (.setLevel s.sched.level :: rest) hs.queued
      (hplaced.readyToRun hr.awake hr.born) rfl hvready hs.suspended (.inl hplain) hs.level
      (fun hb => by
        have := hs.levelHere hb
        rw [hf] at this
        exact this) hs.born hs.switchedOff
      (by simp [v, Scheduler.readyToRun, Scheduler.setStatus, hs.fifo])
    rw [hrun] at this
    exact this

end

theorem Conserved.sleepStep {i : Input Ev} {rest : List Frame} (hs : s.Conserved)
    (hf : s.frames s.sched.currentThread = .sleeping :: rest)
    (h : s.sleepStep p i s.sched.currentThread rest = some u) : u.Conserved := by
  unfold System.sleepStep at h
  split at h
  · exact (hs.handle h).1
  next next others hready =>
    obtain rfl := Option.some.inj h
    obtain hr | hsl := hs.mode
    · obtain hp | ⟨rest', hrest, -⟩ := hr.frames
      · exact absurd rfl (plain_cons.mp (hf ▸ hp)).1.1
      · cases hf.symm.trans hrest
    · obtain ⟨rest', hrest, hsus⟩ := hsl.frames
      obtain ⟨-, rfl⟩ := List.cons.inj (hf.symm.trans hrest)
      refine conserved_run rest hs.queued hsl.placed hsl.level hready hs.suspended hsus hs.level
        (fun hb => ?_) hs.born hs.switchedOff hs.fifo
      have := hs.levelHere hb
      rw [hf, hsl.level] at this
      exact this

/-! ## The steps of the threads -/

/-- What a step of the current thread leaves to the scheduler. -/
structure Stepped (s : System S L C σ Loc) (e : Effect) (core : Core S L C σ Loc) : Prop where
  queued : core.Queued
  born : s.sched.currentThread < core.numThreads
  placed : Placed (some s.sched.currentThread) core (s.sched.readyAll e.ready)
  leaves : Core.Leaves s.sched.currentThread e.after core
  level : ∀ t, t ≠ s.sched.currentThread → (t < core.numThreads → core.pc t ≠ .finished) →
    levelAfter (s.frames t) .intOff = s.found t

variable {core : Core S L C σ Loc} {e : Effect}

theorem Conserved.stepped (hs : s.Conserved) (hr : s.Running)
    (hholder : s.core.ReleasesAsHolder p s.sched.currentThread)
    (hstep : s.core.step p s.sched.currentThread = some (e, core)) : s.Stepped e core := by
  obtain ⟨hwakes, hleaves⟩ := Core.step_wakes hs.queued hholder hstep
  have hnum := Core.numThreads_le_of_step hs.queued hstep
  refine ⟨Core.step_queued hs.queued hstep, lt_of_lt_of_le hs.born hnum,
    hr.placed.step hs.queued hwakes, hleaves, fun t ht hborn => hs.level t ht fun hlt => ?_⟩
  by_cases hready : t ∈ e.ready
  · obtain hasleep | rfl := (hwakes.woken t hready).2.1
    · exact Core.pc_ne_finished_of_asleep hasleep
    · exact absurd hlt (lt_irrefl _)
  · rw [← (hwakes.others t ht hready).1]
    exact hborn (lt_of_lt_of_le hlt hnum)

section

omit [DecidableEq S] [DecidableEq L] [DecidableEq C]

/-- The thread goes on running, with `fs` to do. -/
theorem Stepped.runs (h : s.Stepped e core) (hs : s.Conserved) (hr : s.Running) {fs : List Frame}
    (level : IntStatus) {found : IntStatus} (hawake : core.asleep s.sched.currentThread = false)
    (hborn : core.pc s.sched.currentThread ≠ .finished) (hplain : Plain fs)
    (hlevel : levelAfter fs level = found) :
    Conserved (S := S) (L := L) (C := C) (σ := σ) ⟨core, { s.sched.readyAll e.ready with level := level },
      Function.update s.frames s.sched.currentThread fs,
      Function.update s.found s.sched.currentThread found⟩ := by
  have hnot : s.sched.currentThread ∉ e.ready := fun ht => by
    have := (h.placed.ready _ (by rw [Scheduler.readyAll_eq]; exact List.mem_append_right _ ht)).2.2.2
    exact this rfl
  have hplaced := h.placed
  rw [Scheduler.readyAll_eq] at hplaced ⊢
  exact {
    queued := h.queued
    born := h.born
    mode := .inl {
      frames := .inl (by simpa using hplain)
      placed := ⟨hplaced.nodup, hplaced.ready, hplaced.others⟩
      born := hborn
      awake := hawake
      status := by simpa [hnot] using hr.status }
    suspended := fun t ht => by
      have ht : t ≠ s.sched.currentThread := ht
      simpa [ht] using hs.suspended t ht
    level := fun t ht hb => by
      have ht : t ≠ s.sched.currentThread := ht
      simpa [ht] using h.level t ht hb
    levelHere := fun _ => by simpa using hlevel
    switchedOff := hs.switchedOff
    fifo := by simp [hs.fifo] }

/-- The thread goes to sleep, or has finished. -/
theorem Stepped.sleeps (h : s.Stepped e core) (hs : s.Conserved) {fs : List Frame}
    {found : IntStatus} {d : Option ThreadId}
    (hplace : core.asleep s.sched.currentThread = true ∨ core.pc s.sched.currentThread = .finished)
    (hsuspended : Suspended fs)
    (hlevel : core.pc s.sched.currentThread ≠ .finished → levelAfter fs .intOff = found) :
    Conserved (S := S) (L := L) (C := C) (σ := σ)
      ⟨core, { (s.sched.readyAll e.ready).setStatus s.sched.currentThread .blocked with
        level := .intOff, threadToBeDestroyed := d },
      Function.update s.frames s.sched.currentThread (.sleeping :: fs),
      Function.update s.found s.sched.currentThread found⟩ := by
  have hplaced := h.placed.sleep hplace
  rw [Scheduler.readyAll_eq] at hplaced ⊢
  exact {
    queued := h.queued
    born := h.born
    mode := .inr {
      frames := ⟨fs, by simp [Scheduler.setStatus], hsuspended⟩
      level := rfl
      placed := ⟨hplaced.nodup, hplaced.ready, hplaced.others⟩ }
    suspended := fun t ht => by
      have ht : t ≠ s.sched.currentThread := ht
      simpa [ht] using hs.suspended t ht
    level := fun t ht hb => by
      have ht : t ≠ s.sched.currentThread := ht
      simpa [ht] using h.level t ht hb
    levelHere := fun hb => by simpa [levelAfter, Scheduler.setStatus] using hlevel hb
    switchedOff := hs.switchedOff
    fifo := by simp [Scheduler.setStatus, hs.fifo] }

end

theorem readyAll_level (ts : List ThreadId) (sched : Scheduler) :
    { sched.readyAll ts with level := sched.level } = sched.readyAll ts := by
  rw [Scheduler.readyAll_eq]

theorem Conserved.userStep (hs : s.Conserved) (hf : s.frames s.sched.currentThread = [])
    (hholder : s.ReleasesAsHolder p) (h : s.userStep p s.sched.currentThread = some u) :
    u.Conserved := by
  have hr : s.Running := hs.mode.resolve_right fun hsl => by
    obtain ⟨rest, hrest, -⟩ := hsl.frames
    cases hf.symm.trans hrest
  obtain ⟨⟨e, core⟩, hstep, rfl⟩ := Option.map_eq_some_iff.mp h
  have hst := hs.stepped hr (by
    simpa [ReleasesAsHolder, Core.ReleasesAsHolder, nextCall, hf] using hholder) hstep
  have hleaves := hst.leaves
  cases hafter : e.after with
  | returns =>
    rw [hafter] at hleaves
    simp only [leaveCall]
    exact hst.runs hs hr _ hleaves.1 hleaves.2 (by simp [Plain]) rfl
  | sleeps =>
    rw [hafter] at hleaves
    simp only [leaveCall]
    exact hst.sleeps hs (.inl hleaves) (.inr ⟨_, rfl, by simp [Plain]⟩) fun _ => rfl
  | yields =>
    rw [hafter] at hleaves
    have := hst.runs hs hr s.sched.level hleaves.1 hleaves.2
      (by simp [Plain] : Plain [.yield]) rfl
    rw [readyAll_level] at this
    exact this
  | setsLevel now =>
    rw [hafter] at hleaves
    have := hst.runs hs hr s.sched.level hleaves.1 hleaves.2
      (by simp [Plain] : Plain [.setLevel now]) rfl
    rw [readyAll_level] at this
    simpa [leaveCall, System.setFrames, System.readyAll, levelAfter] using this
  | finishes =>
    rw [hafter] at hleaves
    simp only [leaveCall]
    exact hst.sleeps hs (.inr hleaves) (.inl plain_nil) fun hb => absurd hleaves hb

omit [DecidableEq S] [DecidableEq L] [DecidableEq C] in
theorem Conserved.leaveLoop {rest : List Frame} {level : IntStatus} (hs : s.Conserved) (hr : s.Running)
    (hst : s.Stepped e core) (hafter : e.after = .returns ∨ e.after = .sleeps) (hplain : Plain rest)
    (hoff : level = .intOff)
    (hlevel : levelAfter rest level = s.found s.sched.currentThread) :
    ({ s with core := core }.readyAll e.ready |>.setLevel level).leaveLoop s.sched.currentThread
      e.after rest |>.Conserved := by
  subst hoff
  have hleaves := hst.leaves
  obtain hafter | hafter := hafter
  · rw [hafter] at hleaves ⊢
    have := hst.runs hs hr _ hleaves.1 hleaves.2 hplain hlevel
    rw [Function.update_eq_self] at this
    exact this
  · rw [hafter] at hleaves ⊢
    have := hst.sleeps hs (d := s.sched.threadToBeDestroyed) (.inl hleaves) (.inr ⟨rest, rfl, hplain⟩)
      fun _ => hlevel
    rw [Function.update_eq_self] at this
    simpa [System.leaveLoop, System.sleep, System.setFrames, System.setLevel, System.readyAll,
      Scheduler.readyAll_eq, Scheduler.setStatus] using this

theorem Conserved.resumeStep {rest : List Frame} (hs : s.Conserved)
    (hf : s.frames s.sched.currentThread = .resume :: rest)
    (h : s.resumeStep p s.sched.currentThread rest = some u) : u.Conserved := by
  obtain ⟨hr, hplain⟩ := hs.running hf (by simp)
  have hoff : s.sched.level = .intOff := by
    obtain hp | ⟨-, -, -, hoff⟩ := hr.frames
    · exact absurd rfl (plain_cons.mp (hf ▸ hp)).1.2
    · exact hoff
  have hlevel := hs.levelHere hr.born
  rw [hf] at hlevel
  unfold System.resumeStep at h
  split at h
  · cases h
  next x k next hpc =>
    obtain ⟨⟨e, core⟩, hstep, rfl⟩ := Option.map_eq_some_iff.mp h
    refine hs.leaveLoop hr (hs.stepped hr (by simp [Core.ReleasesAsHolder, Core.nextCall, hpc]) hstep)
      (Core.after_of_resume hstep fun loc hl => by simp [hpc] at hl)
      (plain_cons.mpr ⟨by simp, hplain⟩) rfl ?_
    exact hlevel
  next hnot _ =>
    obtain ⟨⟨e, core⟩, hstep, rfl⟩ := Option.map_eq_some_iff.mp h
    have hholder : s.core.ReleasesAsHolder p s.sched.currentThread := by
      cases hpc : s.core.pc s.sched.currentThread with
      | user loc => exact absurd hpc (hnot loc)
      | _ => simp [Core.ReleasesAsHolder, Core.nextCall, hpc]
    have := hs.leaveLoop hr (hs.stepped hr hholder hstep)
      (Core.after_of_resume hstep hnot) hplain hoff hlevel
    simpa [System.setLevel, System.readyAll, readyAll_level] using this

/-- A step keeps the threads, if the lock it releases is held by the thread. -/
theorem Conserved.step {i : Input Ev} (hs : s.Conserved) (hholder : s.ReleasesAsHolder p)
    (h : s.step p i = some u) : u.Conserved := by
  unfold System.step at h
  split at h
  next hf => exact hs.userStep hf hholder h
  next rest hf => exact hs.resumeStep hf h
  next now rest hf => exact Option.some.inj h ▸ hs.levelStep hf
  next rest hf => exact hs.tickStep hf h
  next rest hf => exact Option.some.inj h ▸ hs.yieldStep hf
  next rest hf => exact hs.sleepStep hf h

section

omit [DecidableEq S] [DecidableEq L] [DecidableEq C]

theorem start_conserved (initialValue : S → Int) (mem : σ) (main : Loc) :
    (start (Core.new initialValue mem main : Core S L C σ Loc) 0).Conserved where
  queued := Core.new_queued initialValue mem main
  born := Nat.zero_lt_one
  mode := .inl {
    frames := .inl (by simp [start, Scheduler.start, Plain])
    placed := ⟨List.nodup_nil, by simp [start, Scheduler.start], fun t ht hborn => by
      have ht : t ≠ 0 := by simpa [start, Scheduler.start] using ht
      simp [start, Core.new, ht] at hborn⟩
    born := by simp [start, Core.new, Scheduler.start]
    awake := by simp [start, Core.new, Scheduler.start, Core.asleep, PC.waitsOn]
    status := by simp [start, Scheduler.start] }
  suspended t ht := by
    have ht : t ≠ 0 := ht
    exact .inl (by simp [start, ht, Plain])
  level t ht _ := by
    have ht : t ≠ 0 := ht
    simp [start, ht, levelAfter]
  levelHere _ := by simp [start, Scheduler.start, levelAfter]
  switchedOff := rfl
  fifo := rfl

/-- `t` runs, or is once on the ready list, or is once on one wait queue, and its status says
which. -/
def InOnePlace (s : System S L C σ Loc) (t : ThreadId) : Prop :=
  (t = s.sched.currentThread ∧ s.sched.status t = .running ∧ t ∉ s.sched.readyList ∧
    ∀ w, t ∉ s.core.queue w) ∨
  (s.sched.status t = .ready ∧ s.sched.readyList.count t = 1 ∧ ∀ w, t ∉ s.core.queue w) ∨
  (s.sched.status t = .blocked ∧ t ∉ s.sched.readyList ∧
    ∃ w, (s.core.queue w).count t = 1 ∧ ∀ w', t ∈ s.core.queue w' → w' = w)

theorem inOnePlace_of_ready {x : Option ThreadId} (hq : s.core.Queued) (h : Placed x s.core s.sched)
    (ht : t ∈ s.sched.readyList) : s.InOnePlace t := by
  obtain ⟨-, hawake, hst, -⟩ := h.ready t ht
  exact .inr (.inl ⟨hst, List.count_eq_one_of_mem h.nodup ht, hq.not_mem hawake⟩)

theorem inOnePlace_of_asleep {x : Option ThreadId} (hq : s.core.Queued) (h : Placed x s.core s.sched)
    (hasleep : s.core.asleep t = true) (hst : s.sched.status t = .blocked) : s.InOnePlace t := by
  obtain ⟨w, hw⟩ := hq.asleep_iff.mp hasleep
  refine .inr (.inr ⟨hst, fun ht => ?_, w, List.count_eq_one_of_mem (hq.nodup w) hw, fun w' hw' => ?_⟩)
  · simp [(h.ready t ht).2.1] at hasleep
  · exact Option.some.inj ((hq.waits w' t hw').symm.trans (hq.waits w t hw))

theorem Conserved.inOnePlace (hs : s.Conserved) (hborn : s.core.pc t ≠ .finished) :
    s.InOnePlace t := by
  obtain hr | hsl := hs.mode
  · by_cases ht : t = s.sched.currentThread
    · subst ht
      refine .inl ⟨rfl, hr.status, fun hl => (hr.placed.ready _ hl).2.2.2 rfl, ?_⟩
      exact hs.queued.not_mem hr.awake
    · obtain hl | ⟨ha, hst⟩ := hr.placed.others t (by simpa using ht) hborn
      · exact inOnePlace_of_ready hs.queued hr.placed hl
      · exact inOnePlace_of_asleep hs.queued hr.placed ha hst
  · obtain hl | ⟨ha, hst⟩ := hsl.placed.others t (by simp) hborn
    · exact inOnePlace_of_ready hs.queued hsl.placed hl
    · exact inOnePlace_of_asleep hs.queued hsl.placed ha hst

theorem Conserved.finished (hs : s.Conserved) (hfin : s.core.pc t = .finished) :
    t ∉ s.sched.readyList ∧ ∀ w, t ∉ s.core.queue w := by
  refine ⟨fun ht => ?_, fun w hw => ?_⟩
  · obtain hr | hsl := hs.mode
    · exact (hr.placed.ready t ht).1 hfin
    · exact (hsl.placed.ready t ht).1 hfin
  · simpa [hfin, PC.waitsOn] using hs.queued.waits w t hw

end

/-- In every run in which a lock is released only by its holder: a thread that was forked and has
not finished is in one place, once; a finished one is on no queue; every `SWITCH` happened with
interrupts off; a thread that is back in its own code has the interrupt level of its last call; and
threads left the ready list in the order in which they entered it. -/
theorem threads_conserved (p : Program S L C σ Loc Ev) (initialValue : S → Int) (mem : σ) (main : Loc)
    {is : List (Input Ev)}
    (h : Framework.run (System.step p) is (start (Core.new initialValue mem main) 0) = some s)
    (hholder : Along (System.step p) (fun _ s => s.ReleasesAsHolder p) is
      (start (Core.new initialValue mem main) 0)) :
    (∀ t, t < s.core.numThreads → s.core.pc t ≠ .finished → s.InOnePlace t) ∧
    (∀ t, s.core.pc t = .finished → t ∉ s.sched.readyList ∧ ∀ w, t ∉ s.core.queue w) ∧
    s.sched.switchedOn = false ∧
    (s.frames s.sched.currentThread = [] → s.sched.level = s.found s.sched.currentThread) ∧
    s.sched.entered = s.sched.left ++ s.sched.readyList := by
  have hs : s.Conserved := run_invariant_along (fun _ _ _ hs hg hstep => hs.step hg hstep)
    (start_conserved initialValue mem main) hholder h
  refine ⟨fun t _ hborn => hs.inOnePlace hborn, fun t hfin => hs.finished hfin, hs.switchedOff,
    fun hf => ?_, hs.fifo⟩
  have hr : s.Running := hs.mode.resolve_right fun hsl => by
    obtain ⟨rest, hrest, -⟩ := hsl.frames
    cases hf.symm.trans hrest
  have := hs.levelHere hr.born
  rwa [hf] at this

/-- The main thread forks a thread, waits on a condition and then on a semaphore; the other thread
signals both. -/
def pingPong : Program Unit Unit Unit Unit Nat Unit where
  code _ loc _ := match loc with
    | 0 => some ((), .fork 10, 1)
    | 1 => some ((), .acquire (), 2)
    | 2 => some ((), .wait () (), 3)
    | 3 => some ((), .release (), 4)
    | 4 => some ((), .P (), 5)
    | 10 => some ((), .acquire (), 11)
    | 11 => some ((), .signal () (), 12)
    | 12 => some ((), .release (), 13)
    | 13 => some ((), .yield, 14)
    | 14 => some ((), .V (), 15)
    | _ => some ((), .finish, loc)
  handler _ _ := none

theorem threads_conserved_pingPong : ∃ s, Framework.run (System.step pingPong)
    (List.replicate 40 ⟨[], false⟩) (start (Core.new (fun _ => 0) () 0) 0) = some s ∧
    s.sched.left = [1, 0, 1, 0] ∧ (s.core.pc 0 ≠ .finished → s.InOnePlace 0) := by
  have heval : Along (System.step pingPong) (fun _ s => s.ReleasesAsHolder pingPong)
        (List.replicate 40 ⟨[], false⟩) (start (Core.new (fun _ => 0) () 0) 0) ∧
      ((Framework.run (System.step pingPong) (List.replicate 40 ⟨[], false⟩)
        (start (Core.new (fun _ => 0) () 0) 0)).any fun s =>
          s.sched.left = [1, 0, 1, 0] ∧ 0 < s.core.numThreads) = true := by
    decide +kernel
  obtain ⟨s, hs, hleft⟩ := (Option.any_eq_true _ _).mp heval.2
  obtain ⟨hleft, hnum⟩ := of_decide_eq_true hleft
  exact ⟨s, hs, hleft, (threads_conserved pingPong _ _ _ hs heval.1).1 0 hnum⟩

end System

end Nachos.Threads
