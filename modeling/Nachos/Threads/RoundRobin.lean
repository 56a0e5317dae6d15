import Nachos.Framework.Waiting
import Nachos.Threads.Conservation

/-!
# Threads take turns (threads/scheduler.cc, threads/thread.cc)

A thread on the ready list waits for those before it only, whatever the threads
do, and each `Yield` that the timer forces takes one of them off.

* `step_turns`: what a step does to the ready list;
* `dispatches_in_turn`: a thread with `k` threads before it is dispatched after at most `k`
  other threads, and before the timer has forced a `Yield` more than `k + 1` times.
-/

namespace Nachos.Threads.System

open Nachos.Framework Nachos.Machine

variable {S L C σ Loc Ev : Type} [DecidableEq S] [DecidableEq L] [DecidableEq C]
variable {p : Program S L C σ Loc Ev} {s u : System S L C σ Loc} {t : ThreadId} {i : Input Ev}

/-! ## One step -/

/-- More threads are ready, and none was dispatched. -/
structure Readies (s u : System S L C σ Loc) : Prop where
  ready : ∃ ts, u.sched.readyList = s.sched.readyList ++ ts
  left : u.sched.left = s.sched.left

/-- The first thread of the ready list was dispatched. -/
structure Dispatches (s u : System S L C σ Loc) (next : ThreadId) : Prop where
  ready : ∃ others ts, s.sched.readyList = next :: others ∧ u.sched.readyList = others ++ ts
  left : u.sched.left = s.sched.left ++ [next]
  current : u.sched.currentThread = next

omit [DecidableEq S] [DecidableEq L] [DecidableEq C] in
theorem Readies.of_eq (h : u.sched.readyList = s.sched.readyList) (hl : u.sched.left = s.sched.left) :
    Readies s u :=
  ⟨⟨[], by rw [h, List.append_nil]⟩, hl⟩

omit [DecidableEq L] [DecidableEq C] in
theorem handle_readies {es : List Ev} (h : s.handle p es = some u) : Readies s u := by
  induction es generalizing s with
  | nil => exact .of_eq (by rw [Option.some.inj h]) (by rw [Option.some.inj h])
  | cons e es ih =>
    obtain ⟨⟨ts, core⟩, -, h⟩ := Option.bind_eq_some_iff.mp h
    obtain ⟨⟨ts', hready⟩, hleft⟩ := ih h
    rw [readyAll_sched, Scheduler.readyAll_eq] at hready hleft
    exact ⟨⟨ts ++ ts', by rw [hready, List.append_assoc]⟩, hleft⟩

section

omit [DecidableEq S] [DecidableEq L] [DecidableEq C]

/-- The state has the ready list that the calls of `ReadyToRun` leave. -/
theorem Readies.of_readyAll {ts : List ThreadId} {sched : Scheduler} (h : sched.readyList = s.sched.readyList)
    (hl : sched.left = s.sched.left) (hu : u.sched.readyList = (sched.readyAll ts).readyList)
    (hul : u.sched.left = (sched.readyAll ts).left) : Readies s u := by
  rw [Scheduler.readyAll_eq] at hu hul
  exact ⟨⟨ts, by rw [hu, h]⟩, hul.trans hl⟩

theorem leaveCall_sched (oldLevel : IntStatus) (after : After) :
    (s.leaveCall t oldLevel after).sched.readyList = s.sched.readyList ∧
      (s.leaveCall t oldLevel after).sched.left = s.sched.left := by
  cases after <;> exact ⟨rfl, rfl⟩

theorem leaveLoop_sched (after : After) (rest : List Frame) :
    (s.leaveLoop t after rest).sched.readyList = s.sched.readyList ∧
      (s.leaveLoop t after rest).sched.left = s.sched.left := by
  cases after <;> exact ⟨rfl, rfl⟩

end

theorem userStep_readies (h : s.userStep p t = some u) : Readies s u := by
  obtain ⟨⟨e, core⟩, -, rfl⟩ := Option.map_eq_some_iff.mp h
  obtain ⟨hready, hleft⟩ := leaveCall_sched (t := t)
    (s := { s with core := core, found := Function.update s.found t s.sched.level }.readyAll e.ready)
    s.sched.level e.after
  exact .of_readyAll rfl rfl hready hleft

theorem resumeStep_readies {rest : List Frame} (h : s.resumeStep p t rest = some u) : Readies s u := by
  unfold resumeStep at h
  split at h
  · cases h
  · obtain ⟨⟨e, core⟩, -, rfl⟩ := Option.map_eq_some_iff.mp h
    obtain ⟨hready, hleft⟩ := leaveLoop_sched (t := t)
      (s := ({ s with core := core }.readyAll e.ready).setLevel .intOff) e.after
      (.setLevel s.sched.level :: rest)
    exact .of_readyAll rfl rfl hready hleft
  · obtain ⟨⟨e, core⟩, -, rfl⟩ := Option.map_eq_some_iff.mp h
    obtain ⟨hready, hleft⟩ := leaveLoop_sched (t := t)
      (s := { s with core := core }.readyAll e.ready) e.after rest
    exact .of_readyAll rfl rfl hready hleft

omit [DecidableEq S] [DecidableEq L] [DecidableEq C] in
/-- `FindNextToRun` and `Run`, from a state with the same ready list. -/
theorem run_dispatches {rest : List Frame} {next : ThreadId} {others ts : List ThreadId}
    {v : System S L C σ Loc}
    (hs : s.sched.readyList = next :: others) (hv : v.sched.readyList = others ++ ts)
    (hl : v.sched.left = s.sched.left ++ [next]) : Dispatches s (v.run t rest next) next := by
  obtain ⟨d, ds, st, hrun⟩ := v.sched.run_eq next
  refine ⟨⟨others, ts, hs, ?_⟩, ?_, ?_⟩
  · show (v.sched.run next).readyList = _
    rw [hrun]
    exact hv
  · show (v.sched.run next).left = _
    rw [hrun]
    exact hl
  · show (v.sched.run next).currentThread = _
    rw [hrun]

/-- The current thread is about to give up the processor. -/
def switches (s : System S L C σ Loc) : Bool :=
  match s.frames s.sched.currentThread with
  | .yield :: _ => true
  | .sleeping :: _ => true
  | _ => false

/-- A step either makes threads ready or dispatches the first one that is; the latter when the
current thread gives up the processor. -/
theorem step_turns (h : s.step p i = some u) :
    (Readies s u ∧ (s.switches = true → s.sched.readyList = [])) ∨
      (s.switches = true ∧ ∃ next, Dispatches s u next) := by
  unfold step at h
  unfold switches
  split at h
  next hf =>
    rw [hf]
    exact .inl ⟨userStep_readies h, nofun⟩
  next hf =>
    rw [hf]
    exact .inl ⟨resumeStep_readies h, nofun⟩
  next now rest hf =>
    rw [hf, ← Option.some.inj h]
    refine .inl ⟨?_, nofun⟩
    unfold levelStep
    split <;> exact .of_eq rfl rfl
  next rest hf =>
    rw [hf]
    refine .inl ⟨?_, nofun⟩
    obtain ⟨v, hv, rfl⟩ := Option.map_eq_some_iff.mp h
    obtain ⟨hready, hleft⟩ := handle_readies hv
    exact ⟨hready, hleft⟩
  next rest hf =>
    rw [hf, ← Option.some.inj h]
    unfold yieldStep
    dsimp only
    split
    next hnil => exact .inl ⟨.of_eq rfl rfl, fun _ => hnil⟩
    next next others hcons =>
      have hcons : s.sched.readyList = next :: others := hcons
      have hback : ((s.sched.takeNext next others).readyToRun s.sched.currentThread).readyList =
          others ++ [s.sched.currentThread] := rfl
      exact .inr ⟨rfl, next, run_dispatches hcons hback rfl⟩
  next rest hf =>
    rw [hf]
    unfold sleepStep at h
    split at h
    next hnil => exact .inl ⟨handle_readies h, fun _ => hnil⟩
    next next others hcons =>
      rw [← Option.some.inj h]
      have hleaves : others = others ++ [] := (List.append_nil others).symm
      exact .inr ⟨rfl, next, run_dispatches hcons hleaves rfl⟩

/-! ## Waiting for the processor -/

/-- `t` is ready, and was dispatched `c` times before. -/
def Waits (t : ThreadId) (c : Nat) (s : System S L C σ Loc) : Prop :=
  t ∈ s.sched.readyList ∧ s.sched.left.count t = c

/-- The threads that will be dispatched before `t`. -/
def ahead (t : ThreadId) (s : System S L C σ Loc) : Nat := s.sched.readyList.idxOf t

variable {c : Nat}

section

omit [DecidableEq S] [DecidableEq L] [DecidableEq C]

theorem Readies.ahead_eq (h : Readies s u) (ht : t ∈ s.sched.readyList) : ahead t u = ahead t s := by
  obtain ⟨ts, hts⟩ := h.ready
  show u.sched.readyList.idxOf t = s.sched.readyList.idxOf t
  rw [hts, List.idxOf_append_of_mem ht]

theorem Readies.waits (h : Readies s u) (hw : Waits t c s) : Waits t c u := by
  obtain ⟨ts, hts⟩ := h.ready
  refine ⟨?_, by rw [h.left]; exact hw.2⟩
  rw [hts]
  exact List.mem_append_left ts hw.1

/-- As long as `t` waits, it is another thread that is dispatched. -/
theorem Dispatches.ne {next : ThreadId} (h : Dispatches s u next) (hw : Waits t c s) (hw' : Waits t c u) :
    t ≠ next := by
  rintro rfl
  have hcount := hw'.2
  rw [h.left, List.count_append, hw.2, List.count_singleton_self] at hcount
  omega

theorem Dispatches.ahead_eq {next : ThreadId} (h : Dispatches s u next) (ht : t ∈ s.sched.readyList)
    (hne : t ≠ next) : ahead t u + 1 = ahead t s := by
  obtain ⟨others, ts, hs, hu⟩ := h.ready
  have hmem : t ∈ others := by
    rw [hs] at ht
    exact (List.mem_cons.mp ht).resolve_left hne
  show u.sched.readyList.idxOf t + 1 = s.sched.readyList.idxOf t
  rw [hs, hu, List.idxOf_append_of_mem hmem]
  exact idxOf_tail hne

end

/-- The first thread that stops waiting was dispatched. -/
theorem dispatched_of_not_waits (h : s.step p i = some u) (hw : Waits t c s) (hw' : ¬ Waits t c u) :
    Dispatches s u t := by
  obtain ⟨hr, -⟩ | ⟨-, next, hd⟩ := step_turns h
  · exact absurd (hr.waits hw) hw'
  · by_cases hne : t = next
    · rw [hne]
      exact hd
    · exfalso
      apply hw'
      obtain ⟨others, ts, hs, hu⟩ := hd.ready
      have hmem := hw.1
      rw [hs] at hmem
      refine ⟨?_, ?_⟩
      · rw [hu]
        exact List.mem_append_left ts ((List.mem_cons.mp hmem).resolve_left hne)
      · rw [hd.left, List.count_append, List.count_singleton, if_neg (by simpa using Ne.symm hne)]
        exact hw.2

/-! ## The timer -/

/-- The timer interrupt comes at this tick, and asks for a `Yield`. -/
def timer (i : Input Ev) (s : System S L C σ Loc) : Bool :=
  match s.frames s.sched.currentThread with
  | .tick :: _ => i.preempt
  | _ => false

/-- The current thread is about to call `Yield`. -/
def yields (s : System S L C σ Loc) : Bool :=
  match s.frames s.sched.currentThread with
  | .yield :: _ => true
  | _ => false

/-- The number of `Yield`s that can come before `t` is dispatched, the one that the timer asked for
last not counted. -/
def patience (t : ThreadId) (s : System S L C σ Loc) : Nat := ahead t s + (!s.yields).toNat

section

omit [DecidableEq S] [DecidableEq L] [DecidableEq C]

theorem switches_of_yields (h : s.yields = true) : s.switches = true := by
  unfold yields at h
  unfold switches
  split at h
  next hf => rw [hf]
  next => cases h

theorem timer_of_switches (h : s.switches = true) : timer i s = false := by
  unfold switches at h
  unfold timer
  split at h
  next hf => rw [hf]
  next hf => rw [hf]
  next => cases h

end

omit [DecidableEq L] [DecidableEq C] in
theorem handle_current {es : List Ev} (h : s.handle p es = some u) :
    u.sched.currentThread = s.sched.currentThread := by
  induction es generalizing s with
  | nil => rw [Option.some.inj h]
  | cons e es ih =>
    obtain ⟨⟨ts, core⟩, -, h⟩ := Option.bind_eq_some_iff.mp h
    rw [ih h, readyAll_sched, Scheduler.readyAll_eq]

/-- After the timer's tick the current thread is about to call `Yield`. -/
theorem yields_of_timer (h : s.step p i = some u) (ht : timer i s = true) : u.yields = true := by
  unfold timer at ht
  split at ht
  next rest hf =>
    rw [step, hf] at h
    obtain ⟨v, hv, rfl⟩ := Option.map_eq_some_iff.mp h
    have hcur : v.sched.currentThread = (s.setLevel .intOff).sched.currentThread := handle_current hv
    have hcur : v.sched.currentThread = s.sched.currentThread := hcur
    show yields ((v.setLevel .intOn).setFrames s.sched.currentThread (if i.preempt then _ else _)) = true
    rw [if_pos ht]
    unfold yields
    simp only [setFrames_frames, setFrames_sched, setLevel_sched, hcur, Function.update_self]
  next => cases ht

theorem patience_step (h : s.step p i = some u) (hw : Waits t c s) (hw' : Waits t c u) :
    patience t u + (timer i s).toNat ≤ patience t s := by
  have hu := Bool.toNat_le (!u.yields)
  unfold patience
  obtain ⟨hr, hnil⟩ | ⟨hs, next, hd⟩ := step_turns h
  · rw [hr.ahead_eq hw.1]
    -- a `Yield` with `t` on the ready list dispatches
    have hyields : s.yields = false := by
      by_contra hc
      have hready := hnil (switches_of_yields (by simpa using hc))
      have hmem := hw.1
      rw [hready] at hmem
      cases hmem
    rw [hyields]
    cases ht : timer i s with
    | false => simpa using hu
    | true =>
      rw [yields_of_timer h ht]
      simp
  · have := hd.ahead_eq hw.1 (hd.ne hw hw')
    rw [timer_of_switches hs]
    simp only [Bool.toNat_false]
    omega

/-- Every dispatch of another thread brings `t` one nearer to the front. -/
theorem ahead_step (h : s.step p i = some u) (hw : Waits t c s) (hw' : Waits t c u) :
    ahead t u + u.sched.left.length ≤ ahead t s + s.sched.left.length := by
  obtain ⟨hr, -⟩ | ⟨-, next, hd⟩ := step_turns h
  · rw [hr.ahead_eq hw.1, hr.left]
  · have := hd.ahead_eq hw.1 (hd.ne hw hw')
    rw [hd.left, List.length_append, List.length_singleton]
    omega

/-- Along a run in which `t` waits, the threads before it are those dispatched, and more. -/
theorem ahead_run {is : List (Input Ev)} (hrun : Framework.run (step p) is s = some u)
    (hall : ∀ n v, Framework.run (step p) (is.take n) s = some v → Waits t c v) :
    ahead t u + u.sched.left.length ≤ ahead t s + s.sched.left.length := by
  have hahead := @countAlong_le _ _ (step p) (fun _ _ => false) _ (fun s => ahead t s + s.sched.left.length)
    (fun _ _ _ h hw hw' => ahead_step h hw hw') _ _ _ hrun hall
  exact (Nat.le_add_right _ _).trans hahead

/-- A thread that is ready, with `k` threads before it on the list, is dispatched before the processor has
been handed over more than `k` times, whoever does it and why; and so before the timer has asked for a
`Yield` more than `k + 1` times. -/
theorem dispatches_in_turn {is : List (Input Ev)} (hrun : Framework.run (step p) is s = some u)
    (ht : t ∈ s.sched.readyList)
    (hlong : s.sched.left.length + s.sched.readyList.idxOf t < u.sched.left.length ∨
      s.sched.readyList.idxOf t + 1 < countAlong (step p) timer is s) :
    ∃ n i v w, Framework.run (step p) (is.take n) s = some v ∧ is[n]? = some i ∧ v.step p i = some w ∧
      w.sched.currentThread = t ∧ w.sched.left = v.sched.left ++ [t] ∧
      v.sched.left.length ≤ s.sched.left.length + s.sched.readyList.idxOf t := by
  have hw : Waits t (s.sched.left.count t) s := ⟨ht, rfl⟩
  have hends : ¬ ∀ n v, Framework.run (step p) (is.take n) s = some v → Waits t (s.sched.left.count t) v := by
    intro hall
    rcases hlong with hover | htimer
    · have hahead := ahead_run hrun hall
      unfold ahead at hahead
      omega
    · have hpatience : patience t u + countAlong (step p) timer is s ≤ patience t s :=
        countAlong_le (P := timer) (fun _ _ _ h hw hw' => patience_step h hw hw') hrun hall
      have := Bool.toNat_le (!s.yields)
      unfold patience ahead at hpatience
      omega
  obtain ⟨n, i, v, w, hv, hi, hstep, hends, hall⟩ := ends_of_not hrun hw hends
  have hd := dispatched_of_not_waits hstep (hall n v (Nat.le_refl n) hv) hends
  refine ⟨n, i, v, w, hv, hi, hstep, hd.current, hd.left, ?_⟩
  have hahead := ahead_run (t := t) hv fun m x hx => by
    rw [List.take_take] at hx
    exact hall _ x (Nat.min_le_right m n) hx
  unfold ahead at hahead
  omega

/-- The main thread has just forked a thread, and the timer comes at every tick. -/
theorem dispatches_in_turn_pingPong : ∃ s,
    (start (Core.new (fun _ => 0) () 0) 0).step pingPong ⟨[], false⟩ = some s ∧
    s.sched.readyList = [1] ∧
    ∃ n i v w, Framework.run (step pingPong) ((List.replicate 8 ⟨[], true⟩).take n) s = some v ∧
      (List.replicate 8 ⟨[], true⟩)[n]? = some i ∧ v.step pingPong i = some w ∧
      w.sched.currentThread = 1 ∧ w.sched.left = v.sched.left ++ [1] ∧
      v.sched.left.length ≤ s.sched.left.length + s.sched.readyList.idxOf 1 := by
  have heval : ((start (Core.new (fun _ => 0) () 0) 0).step pingPong ⟨[], false⟩).any (fun s =>
      s.sched.readyList = [1] ∧
        (Framework.run (step pingPong) (List.replicate 8 ⟨[], true⟩) s).any fun u =>
          s.sched.left.length + s.sched.readyList.idxOf 1 < u.sched.left.length) = true := by
    decide +kernel
  obtain ⟨s, hs, heval⟩ := (Option.any_eq_true _ _).mp heval
  obtain ⟨hready, hrun⟩ := of_decide_eq_true heval
  obtain ⟨u, hu, hover⟩ := (Option.any_eq_true _ _).mp hrun
  exact ⟨s, hs, hready, dispatches_in_turn hu (by rw [hready]; decide) (.inl (of_decide_eq_true hover))⟩

end Nachos.Threads.System
