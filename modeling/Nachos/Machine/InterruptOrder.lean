import Nachos.Machine.Interrupt

/-!
# The interrupts fire once, on time and in order

`Ordered` relates everything that was fired and everything that is pending to
the clock. A pending interrupt is never due before one that was fired, because
the head of the sorted list is fired and `Schedule` adds entries in the future;
for the same reason a handler adds nothing that is due, so that the loop of
`OneTick` and `Idle` fires at most the interrupts that were due when it began.

* `checkIfDue_ordered`: `CheckIfDue` keeps `Ordered`, whichever of its branches
  is taken;
* `dueLoop_ends`: the loop ends;
* `interrupts_in_order`: what holds after every sequence of calls.
-/

namespace Nachos.Machine

open Framework Threads

/-! ## Insertion by key -/

section Insert

variable {α : Type} {x : Entry α} {xs : List (Entry α)}

theorem insertByKey_perm (x : Entry α) (xs : List (Entry α)) : (insertByKey x xs).Perm (x :: xs) := by
  induction xs with
  | nil => exact .refl _
  | cons y ys ih =>
    rw [insertByKey]
    split
    · exact .refl _
    · exact (ih.cons y).trans (.swap x y ys)

theorem mem_insertByKey {y : Entry α} : y ∈ insertByKey x xs ↔ y = x ∨ y ∈ xs := by
  rw [(insertByKey_perm x xs).mem_iff, List.mem_cons]

theorem insertByKey_sorted (h : xs.Pairwise fun a b => a.1 ≤ b.1) :
    (insertByKey x xs).Pairwise fun a b => a.1 ≤ b.1 := by
  induction xs with
  | nil => exact List.pairwise_singleton _ x
  | cons y ys ih =>
    obtain ⟨hy, hys⟩ := List.pairwise_cons.mp h
    rw [insertByKey]
    split
    next hlt =>
      refine List.pairwise_cons.mpr ⟨fun z hz => ?_, h⟩
      obtain rfl | hz := List.mem_cons.mp hz
      · omega
      · have := hy z hz
        omega
    next hge =>
      refine List.pairwise_cons.mpr ⟨fun z hz => ?_, ih hys⟩
      obtain rfl | hz := mem_insertByKey.mp hz
      · omega
      · exact hy z hz

end Insert

variable {E : Type} {handlers : Handlers E} {s t : Interrupt E}

namespace Interrupt

/-- The interrupts fired and pending, in relation to the clock. -/
structure Ordered (s : Interrupt E) : Prop where
  keyed : ∀ e ∈ s.pending, ∃ p, e = (p.when, some p)
  sorted : s.pending.Pairwise fun a b => a.1 ≤ b.1
  conserved : (s.fired.map Prod.snd ++ s.pending.filterMap Prod.snd).Perm s.scheduled
  made : s.scheduled.map PendingInterrupt.id = List.range s.scheduled.length
  onTime : ∀ f ∈ s.fired, f.2.when ≤ f.1 ∧ f.1 ≤ s.stats.totalTicks
  inOrder : s.fired.Pairwise fun f g => f.2.when ≤ g.2.when
  firedFirst : ∀ f ∈ s.fired, ∀ e ∈ s.pending, f.2.when ≤ e.1
  ticks : s.stats.totalTicks = s.stats.idleTicks + s.stats.systemTicks + s.stats.userTicks

theorem Ordered.congr (hs : s.Ordered) (hpending : t.pending = s.pending) (hstats : t.stats = s.stats)
    (hscheduled : t.scheduled = s.scheduled) (hfired : t.fired = s.fired) : t.Ordered := by
  obtain ⟨h₁, h₂, h₃, h₄, h₅, h₆, h₇, h₈⟩ := hs
  rw [← hpending] at h₁ h₂ h₃ h₇
  rw [← hscheduled] at h₃ h₄
  rw [← hfired] at h₃ h₅ h₆ h₇
  rw [← hstats] at h₅ h₈
  exact ⟨h₁, h₂, h₃, h₄, h₅, h₆, h₇, h₈⟩

/-- The clock does not go back and the history only grows. -/
structure Later (s t : Interrupt E) : Prop where
  clock : s.stats.totalTicks ≤ t.stats.totalTicks
  fired : s.fired <+: t.fired
  scheduled : s.scheduled <+: t.scheduled

theorem Later.refl (s : Interrupt E) : Later s s :=
  ⟨le_refl _, List.prefix_refl _, List.prefix_refl _⟩

theorem Later.of_eq (hstats : t.stats = s.stats) (hfired : t.fired = s.fired)
    (hscheduled : t.scheduled = s.scheduled) : Later s t :=
  ⟨hstats ▸ le_refl _, hfired ▸ List.prefix_refl _, hscheduled ▸ List.prefix_refl _⟩

theorem Later.trans {u : Interrupt E} (h : Later s t) (h' : Later t u) : Later s u :=
  ⟨h.clock.trans h'.clock, h.fired.trans h'.fired, h.scheduled.trans h'.scheduled⟩

/-- What the handlers leave alone. -/
structure Frame (s t : Interrupt E) : Prop where
  level : t.level = s.level
  status : t.status = s.status
  yielding : t.yielding = s.yielding
  halted : t.halted = s.halted

theorem Frame.refl (s : Interrupt E) : Frame s s := ⟨rfl, rfl, rfl, rfl⟩

theorem Frame.trans {u : Interrupt E} (h : Frame s t) (h' : Frame t u) : Frame s u :=
  ⟨h'.level.trans h.level, h'.status.trans h.status, h'.yielding.trans h.yielding,
    h'.halted.trans h.halted⟩

/-- The number of pending interrupts that are due. -/
def due (s : Interrupt E) : Nat := s.pending.countP fun e => e.1 ≤ s.stats.totalTicks

theorem due_le (s : Interrupt E) : s.due ≤ s.pending.length := List.countP_le_length

theorem due_eq_zero : s.due = 0 ↔ ∀ e ∈ s.pending, s.stats.totalTicks < e.1 := by
  simp [due, List.countP_eq_zero]

theorem addTicks_eq_ok {x n y : Int} : addTicks x n = .ok y ↔ x + n ≤ intMax ∧ y = x + n := by
  unfold addTicks
  split
  · simp [*, eq_comm]
  · simp [*]

/-! ## `Schedule` -/

theorem schedule_eq_ok {r : Request} (h : s.schedule r = .ok t) :
    ∃ p : PendingInterrupt, p.when = s.stats.totalTicks + r.fromNow ∧ 0 < r.fromNow ∧
      p.id = s.scheduled.length ∧
      t = { s with pending := insertByKey (p.when, some p) s.pending,
                   scheduled := s.scheduled ++ [p] } := by
  obtain ⟨when, hw, h⟩ := bind_eq_ok.mp h
  obtain ⟨u, hr, h⟩ := bind_eq_ok.mp h
  exact ⟨⟨r.handler, r.arg, when, r.type, _⟩, (addTicks_eq_ok.mp hw).2, assert_eq_ok.mp hr, rfl,
    (pure_eq_ok.mp h).symm⟩

theorem schedule_later {r : Request} (h : s.schedule r = .ok t) : Later s t := by
  obtain ⟨p, -, -, -, rfl⟩ := schedule_eq_ok h
  exact ⟨le_refl _, List.prefix_refl _, List.prefix_append _ _⟩

/-- An interrupt goes on the list with a due time in the future, behind everything fired. -/
theorem schedule_ordered {r : Request} (hs : s.Ordered) (h : s.schedule r = .ok t) :
    t.Ordered := by
  obtain ⟨p, hw, hr, hid, rfl⟩ := schedule_eq_ok h
  exact {
    keyed := fun e he => by
      obtain rfl | he := mem_insertByKey.mp he
      · exact ⟨p, rfl⟩
      · exact hs.keyed e he
    sorted := insertByKey_sorted hs.sorted
    conserved := by
      have hp : ((insertByKey (p.when, some p) s.pending).filterMap Prod.snd).Perm
          (p :: s.pending.filterMap Prod.snd) := (insertByKey_perm _ _).filterMap _
      refine (hp.append_left _).trans (List.perm_middle.trans ?_)
      exact (hs.conserved.cons p).trans (List.perm_append_singleton p _).symm
    made := by
      show (s.scheduled ++ [p]).map _ = List.range (s.scheduled ++ [p]).length
      rw [List.map_append, hs.made, List.length_append, List.length_singleton, List.range_succ,
        List.map_singleton, hid]
    onTime := hs.onTime
    inOrder := hs.inOrder
    firedFirst := fun f hf e he => by
      obtain rfl | he := mem_insertByKey.mp he
      · show f.2.when ≤ p.when
        have := hs.onTime f hf
        omega
      · exact hs.firedFirst f hf e he
    ticks := hs.ticks }

theorem schedule_due {r : Request} (h : s.schedule r = .ok t) : t.due = s.due := by
  obtain ⟨p, hw, hr, -, rfl⟩ := schedule_eq_ok h
  have hnot : ¬ p.when ≤ s.stats.totalTicks := by omega
  simp only [due]
  rw [(insertByKey_perm _ _).countP_eq, List.countP_cons_of_neg (by simpa using hnot)]

theorem schedule_frame {r : Request} (h : s.schedule r = .ok t) : Frame s t ∧ t.stats = s.stats := by
  obtain ⟨p, -, -, -, rfl⟩ := schedule_eq_ok h
  exact ⟨⟨rfl, rfl, rfl, rfl⟩, rfl⟩

theorem scheduleAll_spec {rs : List Request} (hs : s.Ordered) (h : scheduleAll rs s = .ok t) :
    t.Ordered ∧ t.due = s.due ∧ Later s t ∧ Frame s t ∧ t.stats = s.stats := by
  induction rs generalizing s with
  | nil =>
    obtain rfl := pure_eq_ok.mp h
    exact ⟨hs, rfl, .refl s, .refl s, rfl⟩
  | cons r rs ih =>
    obtain ⟨u, hu, h⟩ := bind_eq_ok.mp h
    obtain ⟨hord, hdue, hlater, hframe, hstats⟩ := ih (schedule_ordered hs hu) h
    obtain ⟨hframe', hstats'⟩ := schedule_frame hu
    exact ⟨hord, hdue.trans (schedule_due hu), (schedule_later hu).trans hlater,
      hframe'.trans hframe, hstats.trans hstats'⟩

/-! ## `CheckIfDue` -/

/-- Taking the head entry from the list and calling its handler, when it is due. -/
theorem callHandler_spec {p : PendingInterrupt} {rest : List (Entry PendingInterrupt)}
    (hs : s.Ordered) (hp : s.pending = (p.when, some p) :: rest)
    (hdue : p.when ≤ s.stats.totalTicks)
    (h : callHandler handlers p { s with pending := rest } = .ok t) :
    t.Ordered ∧ t.due + 1 = s.due ∧ Later s t ∧ Frame s t := by
  obtain ⟨u, hu, h⟩ := bind_eq_ok.mp h
  have hsorted := List.pairwise_cons.mp (hp ▸ hs.sorted)
  -- once the entry is in the history, the invariant holds without it on the list
  obtain ⟨hord, hdue', hlater, hframe, -⟩ := scheduleAll_spec (by
    exact {
      keyed := fun e he => hs.keyed e (hp ▸ List.mem_cons_of_mem _ he)
      sorted := hsorted.2
      conserved := by
        have := hs.conserved
        simp only [hp, List.filterMap_cons] at this
        simpa using this
      made := hs.made
      onTime := fun f hf => by
        obtain hf | hf := List.mem_append.mp hf
        · exact hs.onTime f hf
        · obtain rfl := List.mem_singleton.mp hf
          exact ⟨hdue, le_refl _⟩
      inOrder := by
        refine List.pairwise_append.mpr ⟨hs.inOrder, List.pairwise_singleton _ _, ?_⟩
        intro f hf g hg
        obtain rfl := List.mem_singleton.mp hg
        exact hs.firedFirst f hf (p.when, some p) (hp ▸ List.mem_cons_self)
      firedFirst := fun f hf e he => by
        obtain hf | hf := List.mem_append.mp hf
        · exact hs.firedFirst f hf e (hp ▸ List.mem_cons_of_mem _ he)
        · obtain rfl := List.mem_singleton.mp hf
          exact hsorted.1 e he
      ticks := hs.ticks }) hu
  obtain rfl := pure_eq_ok.mp h
  refine ⟨⟨hord.keyed, hord.sorted, hord.conserved, hord.made, hord.onTime, hord.inOrder,
    hord.firedFirst, hord.ticks⟩, ?_, ?_, ?_⟩
  · show u.due + 1 = s.due
    rw [hdue']
    simp only [due, hp]
    rw [List.countP_cons_of_pos (by simpa using hdue)]
  · exact ⟨hlater.clock, (List.prefix_append _ _).trans hlater.fired, hlater.scheduled⟩
  · exact ⟨hframe.level, rfl, hframe.yielding, hframe.halted⟩

/-- Putting the head entry back: it goes behind the entries due at the same time. -/
theorem reinsert_spec {p : PendingInterrupt} {rest : List (Entry PendingInterrupt)}
    (hs : s.Ordered) (hp : s.pending = (p.when, some p) :: rest) :
    let t := { s with pending := insertByKey (p.when, some p) rest }
    t.Ordered ∧ Later s t ∧ Frame s t ∧ t.pending.Perm s.pending := by
  have hperm : (insertByKey (p.when, some p) rest).Perm s.pending := hp ▸ insertByKey_perm _ _
  refine ⟨?_, .of_eq rfl rfl rfl, ⟨rfl, rfl, rfl, rfl⟩, hperm⟩
  exact {
    keyed := fun e he => hs.keyed e (hperm.mem_iff.mp he)
    sorted := insertByKey_sorted (List.pairwise_cons.mp (hp ▸ hs.sorted)).2
    conserved := ((hperm.filterMap Prod.snd).append_left _).trans hs.conserved
    made := hs.made
    onTime := hs.onTime
    inOrder := hs.inOrder
    firedFirst := fun f hf e he => hs.firedFirst f hf e (hperm.mem_iff.mp he)
    ticks := hs.ticks }

/-- `CheckIfDue` when the head entry is due. -/
theorem fire_spec {b : Bool} {p : PendingInterrupt} {rest : List (Entry PendingInterrupt)}
    (hs : s.Ordered) (hp : s.pending = (p.when, some p) :: rest)
    (hdue : p.when ≤ s.stats.totalTicks)
    (h : fire handlers p.when p { s with pending := rest } = .ok (b, t)) :
    t.Ordered ∧ Later s t ∧ Frame s t ∧ if b then t.due + 1 = s.due else s.status = .idleMode := by
  unfold fire at h
  split_ifs at h with hidle
  · obtain ⟨rfl, rfl⟩ := Prod.mk.inj (pure_eq_ok.mp h)
    obtain ⟨hord, hlater, hframe, -⟩ := reinsert_spec hs hp
    exact ⟨hord, hlater, hframe, hidle.1⟩
  · obtain ⟨v, hv, h⟩ := bind_eq_ok.mp h
    obtain ⟨rfl, rfl⟩ := Prod.mk.inj (pure_eq_ok.mp h)
    obtain ⟨hord, hdue', hlater, hframe⟩ := callHandler_spec hs hp hdue hv
    exact ⟨hord, hlater, hframe, hdue'⟩

theorem Ordered.head {when : Int} {item : Option PendingInterrupt}
    {rest : List (Entry PendingInterrupt)} (hs : s.Ordered) (hp : s.pending = (when, item) :: rest) :
    ∃ p, item = some p ∧ when = p.when := by
  obtain ⟨p, hp'⟩ := hs.keyed (when, item) (hp ▸ List.mem_cons_self)
  obtain ⟨rfl, rfl⟩ := Prod.mk.inj hp'
  exact ⟨p, rfl, rfl⟩

/-- Moving the clock forward, with the time added to one of the counters. -/
theorem Ordered.advance {stats : Statistics} (hs : s.Ordered)
    (hclock : s.stats.totalTicks ≤ stats.totalTicks)
    (hticks : stats.totalTicks = stats.idleTicks + stats.systemTicks + stats.userTicks) :
    { s with stats := stats }.Ordered :=
  { hs with
    onTime := fun f hf => ⟨(hs.onTime f hf).1, (hs.onTime f hf).2.trans hclock⟩
    ticks := hticks }

/-- `CheckIfDue(FALSE)`: either it fired an interrupt that was due, or nothing was lost and, unless
the machine idles, nothing is due. -/
theorem checkIfDue_spec {b : Bool} (hs : s.Ordered)
    (h : s.checkIfDue handlers false = .ok (b, t)) :
    t.Ordered ∧ Later s t ∧ Frame s t ∧
      if b then t.due + 1 = s.due else s.status ≠ .idleMode → t.due = 0 := by
  obtain ⟨u, -, h⟩ := bind_eq_ok.mp h
  match hp : s.pending with
  | [] =>
    rw [hp] at h
    obtain ⟨rfl, rfl⟩ := Prod.mk.inj (pure_eq_ok.mp h)
    exact ⟨hs, .refl s, .refl s, fun _ => by simp [due, hp]⟩
  | (when, item) :: rest =>
    obtain ⟨p, rfl, rfl⟩ := hs.head hp
    rw [hp] at h
    simp only [Bool.false_eq_true, false_and, if_false] at h
    split_ifs at h with hlater
    · -- not time yet: nothing behind it is due either
      obtain ⟨rfl, rfl⟩ := Prod.mk.inj (pure_eq_ok.mp h)
      obtain ⟨hord, hl, hframe, hperm⟩ := reinsert_spec hs hp
      refine ⟨hord, hl, hframe, fun _ => due_eq_zero.mpr fun e he => ?_⟩
      obtain rfl | he' := List.mem_cons.mp (hp ▸ hperm.mem_iff.mp he)
      · exact hlater
      · exact lt_of_lt_of_le hlater ((List.pairwise_cons.mp (hp ▸ hs.sorted)).1 e he')
    · obtain ⟨hord, hl, hframe, hb⟩ := fire_spec hs hp (by simpa using hlater) h
      refine ⟨hord, hl, hframe, ?_⟩
      cases b with
      | true => exact hb
      | false => exact fun hni => absurd hb hni

/-- `CheckIfDue(TRUE)`. -/
theorem checkIfDue_advance_spec {b : Bool} (hs : s.Ordered)
    (h : s.checkIfDue handlers true = .ok (b, t)) : t.Ordered ∧ Later s t ∧ Frame s t := by
  obtain ⟨u, -, h⟩ := bind_eq_ok.mp h
  match hp : s.pending with
  | [] =>
    rw [hp] at h
    obtain ⟨rfl, rfl⟩ := Prod.mk.inj (pure_eq_ok.mp h)
    exact ⟨hs, .refl s, .refl s⟩
  | (when, item) :: rest =>
    obtain ⟨p, rfl, rfl⟩ := hs.head hp
    rw [hp] at h
    simp only [true_and] at h
    split_ifs at h with hlater
    · obtain ⟨idleTicks, hidle, h⟩ := bind_eq_ok.mp h
      have hticks := hs.ticks
      have hidle' := (addTicks_eq_ok.mp hidle).2
      have hadv : { s with stats := { s.stats with idleTicks := idleTicks, totalTicks := p.when } }
          |>.Ordered := hs.advance (by simp only; omega) (by simp only; omega)
      obtain ⟨hord, hl, hframe, -⟩ := fire_spec hadv hp (le_refl _) h
      refine ⟨hord, ⟨?_, hl.fired, hl.scheduled⟩, ⟨hframe.1, hframe.2, hframe.3, hframe.4⟩⟩
      exact le_trans (le_of_lt hlater) hl.clock
    · obtain ⟨hord, hl, hframe, -⟩ := fire_spec hs hp (by simpa using hlater) h
      exact ⟨hord, hl, hframe⟩

/-! ## The loop -/

theorem dueLoop_spec {n : Nat} (hs : s.Ordered) (h : dueLoop handlers n s = some (.ok t)) :
    t.Ordered ∧ Later s t ∧ Frame s t ∧ (s.status ≠ .idleMode → t.due = 0) := by
  induction n generalizing s with
  | zero => cases h
  | succ n ih =>
    rw [dueLoop] at h
    match hc : s.checkIfDue handlers false with
    | .error e =>
      rw [hc] at h
      cases h
    | .ok (false, u) =>
      rw [hc] at h
      obtain rfl : u = t := by simpa using h
      exact checkIfDue_spec hs hc
    | .ok (true, u) =>
      rw [hc] at h
      obtain ⟨hord, hl, hf, -⟩ := checkIfDue_spec hs hc
      obtain ⟨hord', hl', hf', hdue⟩ := ih hord h
      exact ⟨hord', hl.trans hl', hf.trans hf', fun hni => hdue (hf.status ▸ hni)⟩

/-- The loop ends: each round but the last fires an interrupt that was due, and no handler adds
one. -/
theorem dueLoop_ends (handlers : Handlers E) {n : Nat} (hs : s.Ordered) (hn : s.due < n) :
    ∃ r, dueLoop handlers n s = some r := by
  induction n generalizing s with
  | zero => omega
  | succ n ih =>
    rw [dueLoop]
    match hc : s.checkIfDue handlers false with
    | .error e => exact ⟨_, rfl⟩
    | .ok (false, u) => exact ⟨_, rfl⟩
    | .ok (true, u) =>
      obtain ⟨hord, -, -, hdue⟩ := checkIfDue_spec hs hc
      simp only [if_true] at hdue
      exact ih hord (by omega)

/-- More rounds than the loop makes change nothing. -/
theorem dueLoop_mono {n m : Nat} {r : Except Stop (Interrupt E)}
    (h : dueLoop handlers n s = some r) (hnm : n ≤ m) : dueLoop handlers m s = some r := by
  induction n generalizing s m with
  | zero => cases h
  | succ n ih =>
    obtain ⟨m, rfl⟩ : ∃ k, m = k + 1 := ⟨m - 1, by omega⟩
    rw [dueLoop] at h ⊢
    match hc : s.checkIfDue handlers false with
    | .error e => rw [hc] at h; exact h
    | .ok (false, u) => rw [hc] at h; exact h
    | .ok (true, u) =>
      rw [hc] at h
      exact ih h (by omega)

theorem dueLoop_settles (handlers : Handlers E) (hs : s.Ordered) :
    ∃ r, ∀ n, s.pending.length < n → dueLoop handlers n s = some r := by
  obtain ⟨r, hr⟩ := dueLoop_ends handlers hs (Nat.lt_succ_of_le s.due_le)
  exact ⟨r, fun n hn => dueLoop_mono hr hn⟩

theorem whileDue_spec (hs : s.Ordered) (h : s.whileDue handlers = .ok t) :
    t.Ordered ∧ Later s t ∧ Frame s t ∧ (s.status ≠ .idleMode → t.due = 0) := by
  obtain ⟨r, hr⟩ := dueLoop_settles handlers hs
  have hr := hr _ (Nat.lt_succ_self _)
  rw [whileDue, hr, Option.getD_some] at h
  exact dueLoop_spec hs (h ▸ hr)

/-! ## The calls -/

/-- What holds between the calls. `Idle` is the only routine that runs in idle mode, and it leaves
it unless it halts the machine. -/
structure Ready (s : Interrupt E) : Prop where
  ordered : s.Ordered
  status : s.halted = false → s.status ≠ .idleMode
  yielding : ∀ old ∈ s.yielding, old ≠ .idleMode

theorem advance_spec (hs : s.Ordered) (h : s.advance = .ok t) :
    t.Ordered ∧ Later s t ∧ Frame s t := by
  have hticks := hs.ticks
  unfold Interrupt.advance at h
  split_ifs at h with hst
  all_goals
    obtain ⟨total, htotal, h⟩ := bind_eq_ok.mp h
    obtain ⟨counter, hcounter, h⟩ := bind_eq_ok.mp h
    obtain rfl := pure_eq_ok.mp h
    have htotal := (addTicks_eq_ok.mp htotal).2
    have hcounter := (addTicks_eq_ok.mp hcounter).2
    simp only [systemTick, userTick] at htotal hcounter
    have hle : s.stats.totalTicks ≤ total := by omega
    refine ⟨hs.advance hle (by simp only; omega), ?_, ⟨rfl, rfl, rfl, rfl⟩⟩
    exact ⟨hle, List.prefix_refl _, List.prefix_refl _⟩

theorem changeLevel_ordered (hs : s.Ordered) (now : IntStatus) : (s.changeLevel now).Ordered :=
  hs.congr rfl rfl rfl rfl

/-- `OneTick` leaves nothing due. -/
theorem oneTick_spec (hs : s.Ready) (hrun : s.halted = false) (h : s.oneTick handlers = .ok t) :
    t.Ready ∧ Later s t ∧ t.due = 0 := by
  obtain ⟨u, hu, h⟩ := bind_eq_ok.mp h
  obtain ⟨v, hv, h⟩ := bind_eq_ok.mp h
  obtain ⟨hord, hl, hf⟩ := advance_spec hs.ordered hu
  obtain ⟨hord', hl', hf', hdue⟩ := whileDue_spec (changeLevel_ordered hord _) hv
  have hst : u.status ≠ .idleMode := hf.status ▸ hs.status hrun
  have hv' : v.status = s.status := hf'.status.trans hf.status
  have hyield : v.yielding = s.yielding := hf'.yielding.trans hf.yielding
  have hlater : Later s v := hl.trans ⟨hl'.clock, hl'.fired, hl'.scheduled⟩
  have hord'' := changeLevel_ordered hord' .intOn
  simp only at h
  split_ifs at h with hy
  · obtain rfl := pure_eq_ok.mp h
    refine ⟨⟨hord''.congr rfl rfl rfl rfl,
      fun _ => by simp, fun old hold => ?_⟩, ⟨hlater.1, hlater.2, hlater.3⟩, hdue hst⟩
    obtain hold | hold := List.mem_append.mp hold
    · exact hs.yielding old (hyield ▸ hold)
    · obtain rfl := List.mem_singleton.mp hold
      exact hs.status hrun
  · obtain rfl := pure_eq_ok.mp h
    refine ⟨⟨hord'', fun _ => hv' ▸ hs.status hrun, fun old hold => hs.yielding old (hyield ▸ hold)⟩,
      ⟨hlater.1, hlater.2, hlater.3⟩, hdue hst⟩

theorem setLevel_spec {now : IntStatus} (hs : s.Ready) (hrun : s.halted = false)
    (h : s.setLevel handlers now = .ok t) : t.Ready ∧ Later s t := by
  obtain ⟨u, -, h⟩ := bind_eq_ok.mp h
  have hc : (s.changeLevel now).Ready := ⟨changeLevel_ordered hs.ordered now, hs.status, hs.yielding⟩
  split_ifs at h with hon
  · obtain ⟨hr, hl, -⟩ := oneTick_spec hc hrun h
    exact ⟨hr, ⟨hl.1, hl.2, hl.3⟩⟩
  · obtain rfl := pure_eq_ok.mp h
    exact ⟨hc, .of_eq rfl rfl rfl⟩

theorem idle_spec (hs : s.Ready) (h : s.idle handlers = .ok t) : t.Ready ∧ Later s t := by
  obtain ⟨⟨b, u⟩, hu, h⟩ := bind_eq_ok.mp h
  have hord : { s with status := .idleMode }.Ordered :=
    hs.ordered.congr rfl rfl rfl rfl
  obtain ⟨hord, hl, hf⟩ := checkIfDue_advance_spec hord hu
  have hyield : ∀ old ∈ u.yielding, old ≠ .idleMode := hf.yielding ▸ hs.yielding
  cases b with
  | false =>
    obtain rfl := pure_eq_ok.mp h
    exact ⟨⟨hord.congr rfl rfl rfl rfl,
      fun hh => (by cases hh), hyield⟩, ⟨hl.1, hl.2, hl.3⟩⟩
  | true =>
    obtain ⟨v, hv, h⟩ := bind_eq_ok.mp h
    obtain rfl := pure_eq_ok.mp h
    obtain ⟨hord', hl', hf', -⟩ := whileDue_spec hord hv
    have hlater := hl.trans hl'
    exact ⟨⟨hord'.congr rfl rfl rfl rfl,
      fun _ => by simp, hf'.yielding ▸ hyield⟩, ⟨hlater.1, hlater.2, hlater.3⟩⟩

theorem new_ready (e : E) : (new e).Ready where
  ordered := ⟨by simp [new], .nil, .refl _, rfl, by simp [new], .nil, by simp [new], rfl⟩
  status := by simp [new]
  yielding := by simp [new]

end Interrupt

open Interrupt

/-- Every call keeps the invariant, and the clock and the history go forward. -/
theorem step_spec {c : Call E} (hs : s.Ready) (h : step handlers c s = some t) :
    t.Ready ∧ Later s t := by
  unfold step at h
  split at h
  · cases h
  next hrun =>
    have hrun : s.halted = false := by simpa using hrun
    have hord := hs.ordered
    cases c with
    | schedule r =>
      have h := toOption_eq_some.mp h
      obtain ⟨hf, -⟩ := schedule_frame h
      exact ⟨⟨schedule_ordered hord h, fun _ => hf.status ▸ hs.status hrun,
        hf.yielding ▸ hs.yielding⟩, schedule_later h⟩
    | setLevel now => exact setLevel_spec hs hrun (toOption_eq_some.mp h)
    | oneTick =>
      obtain ⟨hr, hl, -⟩ := oneTick_spec hs hrun (toOption_eq_some.mp h)
      exact ⟨hr, hl⟩
    | idle => exact idle_spec hs (toOption_eq_some.mp h)
    | setSystemMode =>
      obtain rfl := Option.some.inj h
      exact ⟨⟨hord.congr rfl rfl rfl rfl,
        fun _ => by simp, hs.yielding⟩, .of_eq rfl rfl rfl⟩
    | setUserMode =>
      obtain rfl := Option.some.inj h
      exact ⟨⟨hord.congr rfl rfl rfl rfl,
        fun _ => by simp, hs.yielding⟩, .of_eq rfl rfl rfl⟩
    | yieldReturns i =>
      obtain ⟨old, hold, rfl⟩ := Option.map_eq_some_iff.mp h
      exact ⟨⟨hord.congr rfl rfl rfl rfl,
        fun _ => hs.yielding old (List.mem_of_getElem? hold),
        fun o ho => hs.yielding o (List.mem_of_mem_eraseIdx ho)⟩,
        .of_eq rfl rfl rfl⟩
    | other e =>
      obtain rfl := Option.some.inj h
      exact ⟨⟨hord.congr rfl rfl rfl rfl,
        hs.status, hs.yielding⟩, .of_eq rfl rfl rfl⟩

theorem run_spec {cs : List (Call E)} (hs : s.Ready) (h : run (step handlers) cs s = some t) :
    t.Ready ∧ Later s t := by
  refine run_invariant (I := fun u => u.Ready ∧ Later s u) ?_ ⟨hs, .refl s⟩ h
  intro c u v hu hv
  obtain ⟨hr, hl⟩ := step_spec hu.1 hv
  exact ⟨hr, hu.2.trans hl⟩

theorem Interrupt.Ordered.scheduled_nodup (hs : s.Ordered) : s.scheduled.Nodup := by
  refine List.Nodup.of_map PendingInterrupt.id ?_
  rw [hs.made]
  exact List.nodup_range

/-- After every sequence of calls: the pending list is sorted by due time; the interrupts
scheduled, all different, are those fired and those pending, each once; none was fired early, and
they were fired in the order of their due times; the counters add up; the clock and the history
never went back; and whichever of `OneTick` and `Idle` is called next, its loop ends, in `OneTick`
with nothing due. -/
theorem interrupts_in_order (handlers : Handlers E) (e : E) {cs : List (Call E)}
    (h : run (step handlers) cs (Interrupt.new e) = some s) :
    (s.pending.Pairwise fun a b => a.1 ≤ b.1) ∧
    (s.scheduled.Nodup ∧
      (s.fired.map Prod.snd ++ s.pending.filterMap Prod.snd).Perm s.scheduled) ∧
    (∀ f ∈ s.fired, f.2.when ≤ f.1 ∧ f.1 ≤ s.stats.totalTicks) ∧
    (s.fired.Pairwise fun f g => f.2.when ≤ g.2.when) ∧
    s.stats.totalTicks = s.stats.idleTicks + s.stats.systemTicks + s.stats.userTicks ∧
    (∀ n u, run (step handlers) (cs.take n) (Interrupt.new e) = some u → Later u s) ∧
    (s.halted = false → ∀ u, s.advance = .ok u →
      ∃ r, (∀ n, u.pending.length < n → dueLoop handlers n (u.changeLevel .intOff) = some r) ∧
        ∀ t, r = .ok t → ∀ e ∈ t.pending, t.stats.totalTicks < e.1) ∧
    (s.halted = false → ∀ u, checkIfDue handlers true { s with status := .idleMode } = .ok (true, u) →
      ∃ r, ∀ n, u.pending.length < n → dueLoop handlers n u = some r) := by
  obtain ⟨hs, -⟩ := run_spec (new_ready e) h
  have hord := hs.ordered
  refine ⟨hord.sorted, ⟨hord.scheduled_nodup, hord.conserved⟩, hord.onTime, hord.inOrder,
    hord.ticks, fun n u hu => ?_, fun hrun u hu => ?_, fun hrun u hu => ?_⟩
  · rw [← List.take_append_drop n cs, run_append, hu, Option.bind_some] at h
    exact (run_spec (run_spec (new_ready e) hu).1 h).2
  · obtain ⟨hu', -, hf⟩ := advance_spec hord hu
    have hoff := changeLevel_ordered hu' .intOff
    obtain ⟨r, hr⟩ := dueLoop_settles handlers hoff
    refine ⟨r, hr, fun t ht => due_eq_zero.mp ?_⟩
    obtain ⟨-, -, -, hdue⟩ := dueLoop_spec hoff (ht ▸ hr _ (Nat.lt_succ_self _))
    exact hdue (show u.status ≠ .idleMode from hf.status ▸ hs.status hrun)
  · refine dueLoop_settles handlers (checkIfDue_advance_spec ?_ hu).1
    exact hord.congr rfl rfl rfl rfl

/-- Procedure 0 is `TimerHandler`, procedure 1 the handler of a disk, which schedules nothing. -/
def timerAndDisk : Handlers Unit := fun handler arg s =>
  if handler = 0 then (timerExpired 0 false 0 arg s, ()) else (⟨[], false⟩, ())

/-- Two disk interrupts among the timer's. -/
def timerCalls : List (Call Unit) :=
  [.schedule ⟨0, 0, 100, .timerInt⟩, .schedule ⟨1, 0, 15, .diskInt⟩, .setLevel .intOn, .setUserMode,
    .oneTick, .setSystemMode, .schedule ⟨1, 1, 189, .diskInt⟩, .setLevel .intOff, .setLevel .intOn,
    .setLevel .intOff, .idle, .idle]

theorem interrupts_in_order_timer : ∃ s, run (step timerAndDisk) timerCalls (.new ()) = some s ∧
    s.fired.map (fun f => (f.1, f.2.handler)) = [(21, 1), (100, 0), (200, 0), (200, 1)] ∧
    (s.fired.map Prod.snd ++ s.pending.filterMap Prod.snd).Perm s.scheduled := by
  have h : ((run (step timerAndDisk) timerCalls (.new ())).any fun s =>
      s.fired.map (fun f => (f.1, f.2.handler)) = [(21, 1), (100, 0), (200, 0), (200, 1)]) = true := by
    decide +kernel
  obtain ⟨s, hs, hf⟩ := (Option.any_eq_true _ _).mp h
  exact ⟨s, hs, of_decide_eq_true hf, (interrupts_in_order timerAndDisk () hs).2.1.2⟩

end Nachos.Machine
