import Nachos.Threads.LockCondition
import Mathlib.Algebra.BigOperators.Group.Finset.Basic
import Mathlib.Algebra.BigOperators.Ring.Finset
import Mathlib.Algebra.Order.BigOperators.Group.Finset

/-!
# Critical sections

Code that takes a semaphore or a lock (`Guard`) on its way into a section, and
gives it back on its way out (`Section`), lets one thread at most be inside.

* `Core.total`: what the threads weigh together by where they are, and
  `call_total`, how a call changes it; `Core.count` with weights 0 and 1;
* `next_guarded`: what a `Section` keeps (`Guarded`): the permits left, the
  threads inside and the permits lost are one;
* `next_retried`: while a permit is left and threads sleep, one that was woken
  up has still to test for it.
-/

namespace Nachos.Threads

open Nachos.Framework

variable {S L C σ Loc Ev : Type} [DecidableEq S] [DecidableEq L] [DecidableEq C]
variable {p : Program S L C σ Loc Ev} {s u : Core S L C σ Loc} {t : ThreadId}

/-! ## Counting threads -/

namespace Core

/-- What the threads weigh together, by where they are. -/
def total (f : PC S L C Loc → Nat) (s : Core S L C σ Loc) : Nat :=
  ∑ t ∈ Finset.range s.numThreads, f (s.pc t)

/-- The number of threads at a place that meets `f`. -/
def count (f : PC S L C Loc → Bool) (s : Core S L C σ Loc) : Nat := s.total fun q => (f q).toNat

/-- Where a new thread begins. -/
def forked : Instr S L C Loc → Option Loc
  | .fork start => some start
  | _ => none

section

omit [DecidableEq S] [DecidableEq L] [DecidableEq C]

theorem ne_finished {f : PC S L C Loc → Bool} (hf : f .finished = false) (h : f (s.pc t) = true) :
    s.pc t ≠ .finished := fun hpc => by
  rw [hpc, hf] at h
  cases h

theorem lt_numThreads (hs : s.Queued) (h : s.pc t ≠ .finished) : t < s.numThreads :=
  Nat.not_le.mp fun hle => h (hs.unborn t hle)

end

theorem sum_range_of_ne (g g' : ThreadId → Nat) {n : Nat} (ht : t < n)
    (h : ∀ t', t' ≠ t → g' t' = g t') :
    ∑ t' ∈ Finset.range n, g' t' + g t = ∑ t' ∈ Finset.range n, g t' + g' t := by
  have hmem : t ∈ Finset.range n := Finset.mem_range.mpr ht
  have hrest : ∑ t' ∈ (Finset.range n).erase t, g' t' = ∑ t' ∈ (Finset.range n).erase t, g t' :=
    Finset.sum_congr rfl fun t' ht' => h t' (Finset.ne_of_mem_erase ht')
  rw [← Finset.add_sum_erase _ g' hmem, ← Finset.add_sum_erase _ g hmem, hrest]
  ac_rfl

/-- A call moves the thread that makes it, and may begin a new one. -/
theorem call_total (f : PC S L C Loc → Nat) (hs : s.Queued) (hborn : s.pc t ≠ .finished)
    (i : Instr S L C Loc) (next : Loc) :
    total f (call t i next s).2 + f (s.pc t) = total f s + f ((call t i next s).2.pc t) +
      (forked i).elim 0 fun start => f (.user start) := by
  have hlt := lt_numThreads hs hborn
  by_cases hi : ∃ start, i = .fork start
  · obtain ⟨start, rfl⟩ := hi
    have hnum : (call t (.fork start) next s).2.numThreads = s.numThreads + 1 := rfl
    have hpc : (call t (.fork start) next s).2.pc =
        Function.update (Function.update s.pc t (.user next)) s.numThreads (.user start) := rfl
    have hold (t' : ThreadId) (h : t' ∈ Finset.range s.numThreads) :
        (call t (.fork start) next s).2.pc t' = Function.update s.pc t (.user next) t' := by
      rw [hpc, Function.update_of_ne (Finset.mem_range.mp h).ne]
    have hmoved := sum_range_of_ne (fun t' => f (s.pc t'))
      (fun t' => f (Function.update s.pc t (.user next) t')) hlt fun t' hne => by simp [hne]
    unfold total
    rw [hnum, Finset.sum_range_succ, Finset.sum_congr rfl fun t' h => by rw [hold t' h],
      hold t (Finset.mem_range.mpr hlt), hpc, Function.update_self]
    simp only [forked, Option.elim_some]
    omega
  · obtain ⟨q, out, h, -⟩ := call_serves hs t next fun start h => hi ⟨start, h⟩
    have hforked : forked i = none := by
      cases i with
      | fork start => exact absurd ⟨start, rfl⟩ hi
      | _ => rfl
    unfold total
    rw [h.numThreads, hforked]
    refine sum_range_of_ne (fun t' => f (s.pc t'))
      (fun t' => f ((call t i next s).2.pc t')) hlt fun t' hne => ?_
    simp only [h.pc, Function.update_of_ne hne]

theorem call_numThreads (hs : s.Queued) (hborn : s.pc t ≠ .finished) (i : Instr S L C Loc)
    (next : Loc) :
    (call t i next s).2.numThreads = s.numThreads + (forked i).elim 0 fun _ => 1 := by
  have htotal : (call t i next s).2.numThreads + 1 =
      s.numThreads + 1 + (forked i).elim 0 fun _ => 1 := by
    simpa [total] using call_total (fun _ => 1) hs hborn i next
  omega

variable {f : PC S L C Loc → Bool}

omit [DecidableEq S] [DecidableEq L] [DecidableEq C] in
theorem count_eq : count f s = ∑ t ∈ Finset.range s.numThreads, (f (s.pc t)).toNat := rfl

theorem call_count (hs : s.Queued) (hborn : s.pc t ≠ .finished) (i : Instr S L C Loc) (next : Loc) :
    count f (call t i next s).2 + (f (s.pc t)).toNat = count f s +
      (f ((call t i next s).2.pc t)).toNat + ((forked i).any fun start => f (.user start)).toNat := by
  refine (call_total (fun q => (f q).toNat) hs hborn i next).trans ?_
  cases forked i <;> rfl

section

omit [DecidableEq S] [DecidableEq L] [DecidableEq C]

theorem count_pos (hs : s.Queued) (hf : f .finished = false) (ht : f (s.pc t) = true) :
    0 < count f s := by
  have hlt := lt_numThreads hs (ne_finished hf ht)
  rw [count_eq, ← Finset.add_sum_erase _ _ (Finset.mem_range.mpr hlt), ht]
  exact Nat.add_pos_left Nat.one_pos _

theorem exists_of_count_pos (h : 0 < count f s) : ∃ t, f (s.pc t) = true := by
  by_contra hnone
  rw [count_eq] at h
  refine h.ne' (Finset.sum_eq_zero fun t _ => ?_)
  rw [Bool.eq_false_iff.mpr fun ht => hnone ⟨t, ht⟩]
  rfl

theorem eq_of_count_le_one (hs : s.Queued) (hf : f .finished = false) (h : count f s ≤ 1)
    {t' : ThreadId} (ht : f (s.pc t) = true) (ht' : f (s.pc t') = true) : t' = t := by
  by_contra hne
  have hlt := lt_numThreads hs (ne_finished hf ht)
  have hlt' := lt_numThreads hs (ne_finished hf ht')
  have hmem : t ∈ Finset.range s.numThreads := Finset.mem_range.mpr hlt
  have hmem' : t' ∈ (Finset.range s.numThreads).erase t :=
    Finset.mem_erase.mpr ⟨hne, Finset.mem_range.mpr hlt'⟩
  rw [count_eq, ← Finset.add_sum_erase _ _ hmem, ← Finset.add_sum_erase _ _ hmem', ht, ht'] at h
  simp at h

theorem total_congr_pc {f : PC S L C Loc → Nat} (hpc : u.pc = s.pc)
    (hnum : u.numThreads = s.numThreads) : total f u = total f s := by
  unfold total
  rw [hpc, hnum]

end

end Core

/-! ## Sections -/

/-- What a thread takes on its way into a section. -/
inductive Guard (S L : Type)
  | sem (x : S)
  | lock (k : L)
deriving DecidableEq, Repr

/-- What a call takes before it returns. -/
def Instr.takes : Instr S L C Loc → Option (Guard S L)
  | .P x => some (.sem x)
  | .acquire k => some (.lock k)
  | _ => none

/-- What a call gives back. -/
def Instr.gives : Instr S L C Loc → Option (Guard S L)
  | .V x => some (.sem x)
  | .release k => some (.lock k)
  | .wait _ k => some (.lock k)
  | _ => none

/-- Where a thread that makes a call goes on, if it does. -/
def Instr.goesOn : Instr S L C Loc → Bool
  | .finish => false
  | _ => true

/-- `Wait` takes what it gives back again before it returns. -/
def Instr.waits : Instr S L C Loc → Bool
  | .wait _ _ => true
  | _ => false

/-- What a thread has still to take. -/
def PC.takes : PC S L C Loc → Option (Guard S L)
  | .user _ => none
  | .inP x _ => some (.sem x)
  | .inAcquire k _ => some (.lock k)
  | .inWait _ k _ => some (.lock k)
  | .finished => none

/-- The place in its own code that a thread is at, or will return to. -/
def PC.place : PC S L C Loc → Option Loc
  | .user loc => some loc
  | .inP _ next => some next
  | .inAcquire _ next => some next
  | .inWait _ _ next => some next
  | .finished => none

/-- The thread has taken `g`, and is in its section. -/
def PC.within (g : Guard S L) (inside : Loc → Bool) (q : PC S L C Loc) : Bool :=
  q.takes ≠ some g && q.place.any inside

/-- The permits that are left. -/
def Core.permits (s : Core S L C σ Loc) : Guard S L → Int
  | .sem x => (s.sem x).value
  | .lock k => if (s.lock k).free then 1 else 0

/-- A call from `loc` that returns to `next` keeps to the section of `g`: it takes `g` on the way in,
and gives it back on the way out, or adds to the permits lost, which are `n` before it and `n'`
after it. -/
structure Instr.KeepsTo (g : Guard S L) (inside : Loc → Bool) (loc : Loc) (n : Nat)
    (i : Instr S L C Loc) (next : Loc) (n' : Nat) : Prop where
  takes : i.takes = some g → inside loc = false ∧ inside next = true ∧ n' = n
  gives : i.gives = some g → inside loc = true ∧ inside next = i.waits ∧ n' = n
  keeps : i.takes ≠ some g → i.gives ≠ some g →
    ((i.goesOn && inside next) = true → inside loc = true) ∧
      (i.goesOn && inside next).toNat + n' = (inside loc).toNat + n
  forks : ∀ start, i = .fork start → inside start = false

/-- A test for a call that loses no permit. -/
def Instr.keepsTo (g : Guard S L) (inside : Loc → Bool) (loc : Loc) (i : Instr S L C Loc)
    (next : Loc) : Bool :=
  (if i.takes = some g then !inside loc && inside next
    else if i.gives = some g then inside loc && inside next == i.waits
    else (i.goesOn && inside next) == inside loc) &&
  (Core.forked i).all fun start => !inside start

omit [DecidableEq C] in
theorem Instr.KeepsTo.of_test {g : Guard S L} {inside : Loc → Bool} {loc next : Loc}
    {i : Instr S L C Loc} {n n' : Nat} (h : i.keepsTo g inside loc next = true) (hn : n' = n) :
    i.KeepsTo g inside loc n next n' := by
  unfold Instr.keepsTo at h
  rw [Bool.and_eq_true] at h
  obtain ⟨h, hforks⟩ := h
  refine ⟨fun hi => ?_, fun hi => ?_, fun hi hi' => ?_, fun start hi => ?_⟩
  · simp only [hi, if_true, Bool.and_eq_true, Bool.not_eq_true'] at h
    exact ⟨h.1, h.2, hn⟩
  · have htakes : i.takes ≠ some g := fun h' => by cases i <;> simp_all [Instr.takes, Instr.gives]
    simp only [htakes, if_false, hi, if_true, Bool.and_eq_true, beq_iff_eq] at h
    exact ⟨h.1, h.2, hn⟩
  · simp only [hi, hi', if_false, beq_iff_eq] at h
    exact ⟨fun h' => h ▸ h', by rw [h, hn]⟩
  · simpa [hi, Core.forked] using hforks

/-- All of the code keeps to the section of `g`. `lost` tells of the permits lost. -/
structure Section (p : Program S L C σ Loc Ev) (g : Guard S L) (inside : Loc → Bool)
    (lost : σ → Nat) : Prop where
  code : ∀ {t loc m m' i next}, p.code t loc m = some (m', i, next) →
    i.KeepsTo g inside loc (lost m) next (lost m')
  handler : ∀ {e m m' xs}, p.handler e m = some (m', xs) →
    (∀ x ∈ xs, g ≠ .sem x) ∧ lost m' = lost m

/-- The permits left, the threads inside and the permits lost are one. -/
structure Guarded (g : Guard S L) (inside : Loc → Bool) (lost : σ → Nat)
    (s : Core S L C σ Loc) : Prop where
  total : s.permits g + (s.count (PC.within g inside) : Int) + (lost s.mem : Int) = 1
  permits : 0 ≤ s.permits g
  resumes : ∀ t, (s.pc t).takes = some g → (s.pc t).place.all inside
  holder : ∀ k t, g = .lock k → (s.pc t).within g inside = true → (s.lock k).holder = some t

namespace Core

variable {g : Guard S L} {inside : Loc → Bool} {lost : σ → Nat} {i : Instr S L C Loc}

section

omit [DecidableEq S] [DecidableEq L] [DecidableEq C]

@[simp] theorem permits_sem (x : S) : s.permits (.sem x) = (s.sem x).value := rfl
@[simp] theorem permits_lock (k : L) :
    s.permits (.lock k) = if (s.lock k).free then 1 else 0 := rfl

end

section

omit [DecidableEq C]

theorem within_user (loc : Loc) : (PC.user loc : PC S L C Loc).within g inside = inside loc := by
  simp [PC.within, PC.takes, PC.place]

theorem within_of_takes {q : PC S L C Loc} (h : q.takes = some g) : q.within g inside = false := by
  simp [PC.within, h]

end

/-- A call that takes `g` waits for it, or has it. -/
theorem call_takes (hi : i.takes = some g) (next : Loc) (hpos : 0 ≤ s.permits g)
    (hle : s.permits g ≤ 1) :
    ((call t i next s).2.permits g = s.permits g ∧
      ((call t i next s).2.pc t).takes = some g ∧ ((call t i next s).2.pc t).place = some next ∧
      ∀ k, g = .lock k → ((call t i next s).2.lock k).holder = (s.lock k).holder) ∨
    (s.permits g = 1 ∧ (call t i next s).2.permits g = 0 ∧ (call t i next s).2.pc t = .user next ∧
      ∀ k, g = .lock k → ((call t i next s).2.lock k).holder = some t) := by
  cases i with
  | P x =>
    obtain rfl : Guard.sem x = g := Option.some.inj hi
    by_cases h : (s.sem x).value = 0
    · refine .inl ?_
      simp [call, testP_of_zero s t h, PC.takes, PC.place]
    · have h1 : (s.sem x).value = 1 := by simp at hpos hle; omega
      refine .inr ?_
      simp [call, testP_of_ne_zero s t h, h1, int32]
  | acquire k =>
    obtain rfl : Guard.lock k = g := Option.some.inj hi
    cases h : (s.lock k).free with
    | true =>
      refine .inr ?_
      simp [call, testAcquire_of_free s t h, h]
    | false =>
      refine .inl ?_
      simp [call, testAcquire_of_not_free s t h, PC.takes, PC.place]
  | V _ | release _ | wait _ _ | signal _ _ | broadcast _ _ | fork _ | yield | setLevel _ | finish =>
    cases hi

/-- A call that gives `g` back. -/
theorem call_gives (hi : i.gives = some g) (next : Loc) (hzero : s.permits g = 0)
    (hholder : ∀ k, g = .lock k → (s.lock k).holder = some t) :
    (call t i next s).2.permits g = 1 ∧
      (((call t i next s).2.pc t = .user next ∧ i.waits = false) ∨
        ((call t i next s).2.pc t).takes = some g ∧ i.waits = true ∧
          ((call t i next s).2.pc t).place = some next) := by
  cases i with
  | V x =>
    obtain rfl : Guard.sem x = g := Option.some.inj hi
    refine ⟨?_, .inl ?_⟩
    · simp only [permits_sem] at hzero
      simp [call, Semaphore.V, hzero, int32]
    · simp [call, Instr.waits]
  | release k =>
    obtain rfl : Guard.lock k = g := Option.some.inj hi
    refine ⟨?_, .inl ?_⟩
    · simp [call, Lock.release, hholder k rfl]
    · simp [call, Instr.waits]
  | wait c k =>
    obtain rfl : Guard.lock k = g := Option.some.inj hi
    refine ⟨?_, .inr ?_⟩
    · simp [call, Lock.release, hholder k rfl]
    · simp [call, Instr.waits, PC.takes, PC.place]
  | P _ | acquire _ | signal _ _ | broadcast _ _ | fork _ | yield | setLevel _ | finish => cases hi

/-- Where a call leaves the thread that makes it. -/
theorem call_place (i : Instr S L C Loc) (next : Loc) (ht : t ≠ s.numThreads) :
    ((call t i next s).2.pc t).place = (if i.goesOn then some next else none) ∧
      (((call t i next s).2.pc t).takes = none ∨ ((call t i next s).2.pc t).takes = i.takes ∨
        ((call t i next s).2.pc t).takes = i.gives) := by
  cases i with
  | P x =>
    by_cases h : (s.sem x).value = 0
    · simp [call, testP_of_zero s t h, PC.place, PC.takes, Instr.goesOn, Instr.takes]
    · simp [call, testP_of_ne_zero s t h, PC.place, PC.takes, Instr.goesOn]
  | acquire k =>
    cases h : (s.lock k).free with
    | true => simp [call, testAcquire_of_free s t h, PC.place, PC.takes, Instr.goesOn]
    | false => simp [call, testAcquire_of_not_free s t h, PC.place, PC.takes, Instr.goesOn, Instr.takes]
  | wait c k => simp [call, PC.place, PC.takes, Instr.goesOn, Instr.gives]
  | fork start => simp [call, ht, PC.place, PC.takes, Instr.goesOn]
  | V _ | release _ | signal _ _ | broadcast _ _ | yield | setLevel _ | finish =>
    simp [call, PC.place, PC.takes, Instr.goesOn]

theorem call_sem_of_ne (i : Instr S L C Loc) (next : Loc) {x : S}
    (htakes : i.takes ≠ some (.sem x)) (hgives : i.gives ≠ some (.sem x)) :
    (call t i next s).2.sem x = s.sem x := by
  cases i with
  | P y =>
    have hx : x ≠ y := fun h => htakes (by rw [h]; rfl)
    by_cases h : (s.sem y).value = 0
    · simp [call, testP_of_zero s t h, hx]
    · simp [call, testP_of_ne_zero s t h, hx]
  | V y =>
    have hx : x ≠ y := fun h => hgives (by rw [h]; rfl)
    simp [call, hx]
  | acquire k => simp [call]
  | release _ | wait _ _ | signal _ _ | broadcast _ _ | fork _ | yield | setLevel _ | finish => rfl

theorem call_lock_of_ne (i : Instr S L C Loc) (next : Loc) {k : L}
    (htakes : i.takes ≠ some (.lock k)) (hgives : i.gives ≠ some (.lock k)) :
    (call t i next s).2.lock k = s.lock k := by
  cases i with
  | P y =>
    by_cases h : (s.sem y).value = 0
    · simp [call, testP_of_zero s t h]
    · simp [call, testP_of_ne_zero s t h]
  | acquire k' =>
    have hk : k ≠ k' := fun h => htakes (by rw [h]; rfl)
    cases h : (s.lock k').free with
    | true => simp [call, testAcquire_of_free s t h, hk]
    | false => simp [call, testAcquire_of_not_free s t h, hk]
  | release k' =>
    have hk : k ≠ k' := fun h => hgives (by rw [h]; rfl)
    simp [call, hk]
  | wait c k' =>
    have hk : k ≠ k' := fun h => hgives (by rw [h]; rfl)
    simp [call, hk]
  | V _ | signal _ _ | broadcast _ _ | fork _ | yield | setLevel _ | finish => rfl

/-- A call that does not use `g`. -/
theorem call_keeps (htakes : i.takes ≠ some g) (hgives : i.gives ≠ some g) (next : Loc) :
    (call t i next s).2.permits g = s.permits g ∧
      ∀ k, g = .lock k → ((call t i next s).2.lock k).holder = (s.lock k).holder := by
  cases g with
  | sem x =>
    have h := call_sem_of_ne (s := s) (t := t) i next htakes hgives
    exact ⟨by rw [permits_sem, permits_sem, h], fun k h => by cases h⟩
  | lock k =>
    have h := call_lock_of_ne (s := s) (t := t) i next htakes hgives
    refine ⟨by rw [permits_lock, permits_lock, h], fun k' hk => ?_⟩
    obtain rfl := Guard.lock.inj hk
    rw [h]

omit [DecidableEq S] [DecidableEq L] [DecidableEq C] in
/-- A thread that goes on after a `Sleep` takes what it waits for. -/
theorem Begins.resumes {m : σ} {next : Loc} (h : Begins p t s i m next)
    (hpc : ∀ loc, s.pc t ≠ .user loc) : m = s.mem ∧ i.goesOn = true ∧ i.gives = none ∧
      forked i = none ∧ (s.pc t).takes = i.takes ∧ (s.pc t).place = some next := by
  cases h with
  | user hu _ => exact absurd hu (hpc _)
  | inP hu => simp [hu, Instr.goesOn, Instr.gives, forked, PC.takes, Instr.takes, PC.place]
  | inAcquire hu => simp [hu, Instr.goesOn, Instr.gives, forked, PC.takes, Instr.takes, PC.place]
  | inWait hu => simp [hu, Instr.goesOn, Instr.gives, forked, PC.takes, Instr.takes, PC.place]

section

omit [DecidableEq C]

/-- What the begin of a step tells of the section. -/
theorem Begins.section {m : σ} {next : Loc} (h : Begins p t s i m next)
    (hp : ∀ loc m i next, s.pc t = .user loc → p.code t loc s.mem = some (m, i, next) →
      i.KeepsTo g inside loc (lost s.mem) next (lost m))
    (hs : Guarded g inside lost s) :
    (i.takes = some g → (s.pc t).within g inside = false ∧ inside next = true ∧
      lost m = lost s.mem) ∧
    (i.gives = some g → (s.pc t).within g inside = true ∧ inside next = i.waits ∧
      lost m = lost s.mem) ∧
    (i.takes ≠ some g → i.gives ≠ some g →
      ((i.goesOn && inside next) = true → (s.pc t).within g inside = true) ∧
      (i.goesOn && inside next).toNat + lost m = ((s.pc t).within g inside).toNat + lost s.mem) ∧
    ((forked i).any fun start => (PC.user start : PC S L C Loc).within g inside) = false := by
  by_cases hu : ∃ loc, s.pc t = .user loc
  · obtain ⟨loc, hu⟩ := hu
    cases h with
    | @user loc' _ _ _ hpc hcode =>
      obtain rfl : loc' = loc := PC.user.inj (hpc.symm.trans hu)
      rw [hu, within_user]
      have hcode := hp _ _ _ _ hu hcode
      refine ⟨hcode.takes, hcode.gives, hcode.keeps, ?_⟩
      cases i with
      | fork start => simpa [forked, within_user] using hcode.forks start rfl
      | _ => rfl
    | inP hpc => simp [hpc] at hu
    | inAcquire hpc => simp [hpc] at hu
    | inWait hpc => simp [hpc] at hu
  · obtain ⟨hm, hgoes, hgives, hforked, htakes, hplace⟩ := h.resumes fun loc h => hu ⟨loc, h⟩
    refine ⟨fun hi => ?_, fun hi => ?_, fun hi _ => ?_, by rw [hforked]; rfl⟩
    · refine ⟨within_of_takes (htakes.trans hi), ?_, by rw [hm]⟩
      simpa [hplace] using hs.resumes t (htakes.trans hi)
    · rw [hgives] at hi
      cases hi
    · simp [PC.within, htakes, hi, hplace, hgoes, hm]

/-- A step of thread `t`, as far as the threads inside of the section can tell: it moves no other
thread in or out. -/
structure MovesOnly (g : Guard S L) (inside : Loc → Bool) (t : ThreadId)
    (s u : Core S L C σ Loc) : Prop where
  count : u.count (PC.within g inside) + ((s.pc t).within g inside).toNat =
    s.count (PC.within g inside) + ((u.pc t).within g inside).toNat
  others : ∀ t', t' ≠ t → u.pc t' = s.pc t' ∨
    (u.pc t').within g inside = false ∧ (u.pc t').takes = none

theorem MovesOnly.within {t' : ThreadId} (h : MovesOnly g inside t s u) (hne : t' ≠ t)
    (h' : (u.pc t').within g inside = true) : (s.pc t').within g inside = true := by
  obtain hsame | ⟨hout, -⟩ := h.others t' hne
  · exact hsame ▸ h'
  · simp [hout] at h'

theorem MovesOnly.resumes (h : MovesOnly g inside t s u) (hs : Guarded g inside lost s)
    (ht : (u.pc t).takes = some g → (u.pc t).place.all inside) (t' : ThreadId)
    (h' : (u.pc t').takes = some g) : (u.pc t').place.all inside := by
  by_cases hne : t' = t
  · exact hne ▸ ht (hne ▸ h')
  · obtain hsame | ⟨-, hnone⟩ := h.others t' hne
    · exact hsame ▸ hs.resumes t' (hsame ▸ h')
    · simp [hnone] at h'

end

theorem call_movesOnly (hs : s.Queued) (hborn : s.pc t ≠ .finished) (m : σ) (next : Loc)
    (hforked : ((forked i).any fun start => (PC.user start : PC S L C Loc).within g inside) = false) :
    MovesOnly g inside t s (call t i next { s with mem := m }).2 := by
  refine ⟨?_, fun t' hne => ?_⟩
  · have hcount := call_count (f := PC.within g inside) (hs.withMem m) hborn i next
    rw [hforked] at hcount
    exact hcount
  · obtain hsame | ⟨start, rfl, -, hstart⟩ := call_pc (hs.withMem m) i next hne
    · exact .inl hsame
    · refine .inr ?_
      rw [hstart]
      exact ⟨by simpa [forked] using hforked, rfl⟩

section

omit [DecidableEq C]

theorem within_finished : (PC.finished : PC S L C Loc).within g inside = false := by
  simp [PC.within, PC.place]

/-- A thread that has to wait for `g`. -/
theorem waits_guarded (h : Guarded g inside lost s) (hmoves : MovesOnly g inside t s u)
    (hlost : lost u.mem = lost s.mem) (hout : (s.pc t).within g inside = false)
    (hsame : u.permits g = s.permits g) (htakes : (u.pc t).takes = some g)
    (hplace : (u.pc t).place.all inside)
    (hholder : ∀ k, g = .lock k → (u.lock k).holder = (s.lock k).holder) :
    Guarded g inside lost u := by
  have htotal := h.total
  have hpermits := h.permits
  have hcount := hmoves.count
  rw [hout, within_of_takes htakes] at hcount
  refine ⟨by omega, by omega, hmoves.resumes h fun _ => hplace, fun k t' hk h' => ?_⟩
  rw [hholder k hk]
  have hne : t' ≠ t := fun he => by simp [he, within_of_takes htakes] at h'
  exact h.holder k t' hk (hmoves.within hne h')

/-- A thread that takes the permit of `g`. -/
theorem enters_guarded {next : Loc} (h : Guarded g inside lost s) (hs : s.Queued)
    (hmoves : MovesOnly g inside t s u) (hlost : lost u.mem = lost s.mem)
    (hout : (s.pc t).within g inside = false) (hin : inside next = true) (hone : s.permits g = 1)
    (hzero : u.permits g = 0) (hpc : u.pc t = .user next)
    (hholder : ∀ k, g = .lock k → (u.lock k).holder = some t) : Guarded g inside lost u := by
  have htotal := h.total
  have hcount := hmoves.count
  rw [hout, hpc, within_user, hin] at hcount
  simp only [Bool.toNat_true, Bool.toNat_false] at hcount
  refine ⟨by omega, by omega, hmoves.resumes h fun h' => by simp [hpc, PC.takes] at h',
    fun k t' hk h' => ?_⟩
  by_cases hne : t' = t
  · exact hne ▸ hholder k hk
  · -- nobody else is inside while there is a permit
    have := count_pos hs within_finished (hmoves.within hne h')
    omega

/-- The thread inside, which gives `g` back. -/
theorem leaves_guarded (h : Guarded g inside lost s) (hs : s.Queued)
    (hmoves : MovesOnly g inside t s u) (hlost : lost u.mem = lost s.mem)
    (hin : (s.pc t).within g inside = true) (hout : (u.pc t).within g inside = false)
    (hone : u.permits g = 1) (hresumes : (u.pc t).takes = some g → (u.pc t).place.all inside) :
    Guarded g inside lost u := by
  have htotal := h.total
  have hpermits := h.permits
  have hpos := count_pos hs within_finished hin
  have hcount := hmoves.count
  rw [hin, hout] at hcount
  simp only [Bool.toNat_true, Bool.toNat_false] at hcount
  refine ⟨by omega, by omega, hmoves.resumes h hresumes, fun k t' hk h' => ?_⟩
  have hne : t' ≠ t := fun he => by simp [he, hout] at h'
  exact absurd (eq_of_count_le_one hs within_finished (by omega) hin (hmoves.within hne h')) hne

/-- A thread that does not use `g`. -/
theorem passes_guarded (h : Guarded g inside lost s) (hmoves : MovesOnly g inside t s u)
    (hstays : (u.pc t).within g inside = true → (s.pc t).within g inside = true)
    (hsum : ((u.pc t).within g inside).toNat + lost u.mem =
      ((s.pc t).within g inside).toNat + lost s.mem)
    (hsame : u.permits g = s.permits g) (hnot : (u.pc t).takes ≠ some g)
    (hholder : ∀ k, g = .lock k → (u.lock k).holder = (s.lock k).holder) :
    Guarded g inside lost u := by
  have htotal := h.total
  have hpermits := h.permits
  have hcount := hmoves.count
  refine ⟨by omega, by omega, hmoves.resumes h fun h' => absurd h' hnot, fun k t' hk h' => ?_⟩
  rw [hholder k hk]
  by_cases hne : t' = t
  · exact h.holder k t' hk (hne ▸ hstays (hne ▸ h'))
  · exact h.holder k t' hk (hmoves.within hne h')

end

/-- A step keeps the section, if what the thread does next in its own code keeps to it. -/
theorem step_guarded {e : Effect} (hs : s.Queued)
    (hp : ∀ loc m i next, s.pc t = .user loc → p.code t loc s.mem = some (m, i, next) →
      i.KeepsTo g inside loc (lost s.mem) next (lost m))
    (h : Guarded g inside lost s) (hstep : s.step p t = some (e, u)) : Guarded g inside lost u := by
  obtain ⟨hawake, i, m, next, hbegins, heq⟩ := step_eq_some hstep
  have hu : u = (call t i next { s with mem := m }).2 := congrArg Prod.snd heq
  have hborn := hbegins.pc_ne_finished
  have hq := hs.withMem m
  obtain ⟨htakes, hgives, hkeeps, hforked⟩ := hbegins.section hp h
  have hmem : u.mem = m := by rw [hu, call_mem]
  have hmoves : MovesOnly g inside t s u := hu ▸ call_movesOnly hs hborn m next hforked
  by_cases hi : i.takes = some g
  · obtain ⟨hout, hin, hlost⟩ := htakes hi
    have hle : s.permits g ≤ 1 := by
      have := h.total
      omega
    obtain ⟨hsame, hpc, hplace, hholder⟩ | ⟨hone, hzero, hpc, hholder⟩ :=
      call_takes (s := { s with mem := m }) (t := t) hi next h.permits hle
    · rw [← hu] at hsame hpc hplace hholder
      exact waits_guarded h hmoves (hmem ▸ hlost) hout hsame hpc (by simp [hplace, hin]) hholder
    · rw [← hu] at hzero hpc hholder
      exact enters_guarded h hs hmoves (hmem ▸ hlost) hout hin hone hzero hpc hholder
  · by_cases hi' : i.gives = some g
    · obtain ⟨hin, hnext, hlost⟩ := hgives hi'
      have hzero : s.permits g = 0 := by
        have := h.total
        have := h.permits
        have := count_pos hs within_finished hin
        omega
      obtain ⟨hone, hpc⟩ := call_gives (s := { s with mem := m }) (t := t) hi' next hzero
        fun k hk => h.holder k t hk hin
      rw [← hu] at hone hpc
      refine leaves_guarded h hs hmoves (hmem ▸ hlost) hin ?_ hone fun h' => ?_
      · obtain ⟨hpc, hw⟩ | ⟨hpc, -⟩ := hpc
        · rw [hpc, within_user, hnext, hw]
        · exact within_of_takes hpc
      · obtain ⟨hpc, -⟩ | ⟨-, hw, hplace⟩ := hpc
        · simp [hpc, PC.takes] at h'
        · simp [hplace, hnext, hw]
    · obtain ⟨hstays, hsum⟩ := hkeeps hi hi'
      obtain ⟨hsame, hholder⟩ := call_keeps (s := { s with mem := m }) (t := t) hi hi' next
      obtain ⟨hplace, htakes'⟩ := call_place (s := { s with mem := m }) (t := t) i next
        (lt_numThreads hs hborn).ne
      rw [← hu] at hsame hholder hplace htakes'
      have hnot : (u.pc t).takes ≠ some g := by
        obtain h' | h' | h' := htakes' <;> rw [h']
        · simp
        · exact hi
        · exact hi'
      have hpc : (u.pc t).within g inside = (i.goesOn && inside next) := by
        cases hg : i.goesOn <;> simp [PC.within, hnot, hplace, hg]
      exact passes_guarded h hmoves (hpc ▸ hstays) (by rw [hpc, hmem]; exact hsum) hsame hnot hholder

/-- A thread outside that calls `V` once, and so adds the permit that was missing. -/
theorem step_opens {e : Effect} {x : S} {m : σ} {loc next : Loc} (hs : s.Queued)
    (h : Guarded (.sem x) inside (fun _ => 1) s) (hpc : s.pc t = .user loc)
    (hcode : p.code t loc s.mem = some (m, .V x, next)) (hout : inside loc = false)
    (hnext : inside next = false) (hstep : s.step p t = some (e, u)) :
    Guarded (.sem x) inside (fun _ => 0) u := by
  obtain ⟨-, i, m', next', hbegins, heq⟩ := step_eq_some hstep
  have hborn := hbegins.pc_ne_finished
  have hu : u = (call t i next' { s with mem := m' }).2 := congrArg Prod.snd heq
  obtain ⟨rfl, rfl, rfl⟩ : m = m' ∧ Instr.V x = i ∧ next = next' := by
    cases hbegins with
    | user hpc' hcode' =>
      obtain rfl := PC.user.inj (hpc'.symm.trans hpc)
      cases hcode.symm.trans hcode'
      exact ⟨rfl, rfl, rfl⟩
    | inP hpc' => simp [hpc] at hpc'
    | inAcquire hpc' => simp [hpc] at hpc'
    | inWait hpc' => simp [hpc] at hpc'
  have hmoves : MovesOnly (.sem x) inside t s u :=
    hu ▸ call_movesOnly hs hborn m next rfl
  have htotal := h.total
  have hpermits := h.permits
  have hzero : s.permits (.sem x) = 0 := by omega
  obtain ⟨hone, ⟨hpc', -⟩ | ⟨-, hwaits, -⟩⟩ := call_gives (s := { s with mem := m }) (t := t)
    (g := .sem x) (i := .V x) rfl next hzero fun k hk => by cases hk
  · rw [← hu] at hone hpc'
    have hcount := hmoves.count
    rw [hpc, within_user, hout, hpc', within_user, hnext] at hcount
    refine ⟨by omega, by omega, hmoves.resumes h fun h' => ?_, fun k _ hk => by cases hk⟩
    rw [hpc'] at h'
    cases h'
  · cases hwaits

omit [DecidableEq L] [DecidableEq C] in
theorem signalAll_frame (xs : List S) (s : Core S L C σ Loc) :
    (signalAll xs s).2.mem = s.mem ∧ (signalAll xs s).2.pc = s.pc ∧
      (signalAll xs s).2.numThreads = s.numThreads ∧ (signalAll xs s).2.lock = s.lock ∧
      ∀ x, x ∉ xs → (signalAll xs s).2.sem x = s.sem x := by
  induction xs generalizing s with
  | nil => exact ⟨rfl, rfl, rfl, rfl, fun _ _ => rfl⟩
  | cons y ys ih =>
    obtain ⟨hmem, hpc, hnum, hlock, hsem⟩ := ih (s.setSem y (s.sem y).V.2)
    refine ⟨hmem, hpc, hnum, hlock, fun x hx => ?_⟩
    rw [List.mem_cons, not_or] at hx
    exact (hsem x hx.2).trans (by simp [hx.1])

section

omit [DecidableEq C]

/-- An interrupt keeps the section, if what it adds to the permits was lost. -/
theorem interrupt_guarded_of_permits {ev : Ev} {ts : List ThreadId} (h : Guarded g inside lost s)
    (hint : s.interrupt p ev = some (ts, u)) (hpos : s.permits g ≤ u.permits g)
    (hpermits : u.permits g + (lost u.mem : Int) = s.permits g + (lost s.mem : Int)) :
    Guarded g inside lost u := by
  obtain ⟨m, xs, -, heq⟩ := interrupt_eq_some hint
  obtain ⟨-, hpc, hnum, hlock, -⟩ := signalAll_frame xs { s with mem := m }
  rw [← show u = (signalAll xs { s with mem := m }).2 from congrArg Prod.snd heq] at hpc hnum hlock
  have hcount : u.count (PC.within g inside) = s.count (PC.within g inside) :=
    total_congr_pc hpc hnum
  have htotal := h.total
  have hpos' := h.permits
  refine ⟨by rw [hcount]; omega, by omega, ?_, ?_⟩
  · rw [hpc]
    exact h.resumes
  · rw [hpc, hlock]
    exact h.holder

/-- An interrupt that does not use `g`. -/
theorem interrupt_guarded {ev : Ev} {ts : List ThreadId} {m : σ} {xs : List S}
    (h : Guarded g inside lost s) (hint : s.interrupt p ev = some (ts, u))
    (hhandler : p.handler ev s.mem = some (m, xs)) (hxs : ∀ x ∈ xs, g ≠ .sem x)
    (hlost : lost m = lost s.mem) : Guarded g inside lost u := by
  obtain ⟨m', xs', hhandler', heq⟩ := interrupt_eq_some hint
  cases hhandler.symm.trans hhandler'
  obtain ⟨hmem, -, -, hlock, hsem⟩ := signalAll_frame xs { s with mem := m }
  rw [← show u = (signalAll xs { s with mem := m }).2 from congrArg Prod.snd heq] at hmem hlock hsem
  have hpermits : u.permits g = s.permits g := by
    cases g with
    | sem x => exact congrArg Semaphore.value (hsem x fun hx => hxs x hx rfl)
    | lock k => rw [permits_lock, permits_lock, hlock]
  refine interrupt_guarded_of_permits h hint hpermits.ge ?_
  rw [hpermits, hmem]
  exact congrArg _ (congrArg Nat.cast hlost)

/-- An interrupt that calls `V` on `g`, and so gives back a permit that was lost. -/
theorem interrupt_guarded_V {ev : Ev} {ts : List ThreadId} {m : σ} {x : S}
    (h : Guarded (.sem x) inside lost s) (hint : s.interrupt p ev = some (ts, u))
    (hhandler : p.handler ev s.mem = some (m, [x])) (hlost : lost s.mem = lost m + 1) :
    Guarded (.sem x) inside lost u := by
  obtain ⟨m', xs', hhandler', heq⟩ := interrupt_eq_some hint
  cases hhandler.symm.trans hhandler'
  have hu : u = (signalAll [x] { s with mem := m }).2 := congrArg Prod.snd heq
  have htotal := h.total
  have hpos := h.permits
  have hzero : (s.sem x).value = 0 := by
    rw [permits_sem] at hpos htotal
    omega
  have hone : (u.sem x).value = 1 := by simp [hu, signalAll, Semaphore.V, hzero, int32]
  have hmem : u.mem = m := by rw [hu]; rfl
  refine interrupt_guarded_of_permits h hint ?_ ?_
  · rw [permits_sem, permits_sem, hzero, hone]
    decide
  · rw [permits_sem, permits_sem, hzero, hone, hmem, hlost]
    push_cast
    omega

end

/-- Every move keeps the section. -/
theorem next_guarded {v : Move Ev} (hp : Section p g inside lost) (hs : s.Queued)
    (h : Guarded g inside lost s) (hnext : s.next p v = some u) : Guarded g inside lost u := by
  cases v with
  | thread t =>
    obtain ⟨⟨e, u'⟩, hstep, rfl⟩ := Option.map_eq_some_iff.mp hnext
    exact step_guarded hs (fun _ _ _ _ _ => hp.code) h hstep
  | interrupt ev =>
    obtain ⟨⟨ts, u'⟩, hint, rfl⟩ := Option.map_eq_some_iff.mp hnext
    obtain ⟨m, xs, hhandler, -⟩ := interrupt_eq_some hint
    obtain ⟨hxs, hlost⟩ := hp.handler hhandler
    exact interrupt_guarded h hint hhandler hxs hlost

omit [DecidableEq C] in
theorem new_guarded (initialValue : S → Int) {mem : σ} {main : Loc}
    (hinit : (new initialValue mem main : Core S L C σ Loc).permits g + (lost mem : Int) = 1)
    (hpos : 0 ≤ (new initialValue mem main : Core S L C σ Loc).permits g)
    (hmain : inside main = false) :
    Guarded g inside lost (new initialValue mem main : Core S L C σ Loc) := by
  have hpc (t : ThreadId) : ((new initialValue mem main : Core S L C σ Loc).pc t).within g inside =
      false ∧ ((new initialValue mem main : Core S L C σ Loc).pc t).takes = none := by
    by_cases ht : t = 0
    · simp [new, ht, PC.within, PC.takes, PC.place, hmain]
    · simp [new, ht, PC.within, PC.takes, PC.place]
  refine ⟨?_, hpos, fun t h => by simp [(hpc t).2] at h, fun k t _ h => by simp [(hpc t).1] at h⟩
  have hcount : (new initialValue mem main : Core S L C σ Loc).count (PC.within g inside) = 0 := by
    rw [count_eq]
    exact Finset.sum_eq_zero fun t _ => by rw [(hpc t).1]; rfl
  rw [hcount, Nat.cast_zero, add_zero]
  exact hinit

end Core

section

variable {g : Guard S L} {inside : Loc → Bool} {lost : σ → Nat}

omit [DecidableEq C]

theorem Guarded.permits_le_one (h : Guarded g inside lost s) : s.permits g ≤ 1 := by
  have htotal := h.total
  omega

/-- One thread at most is inside. -/
theorem Guarded.eq_of_within (h : Guarded g inside lost s) (hs : s.Queued) {t' : ThreadId}
    (ht : (s.pc t).within g inside = true) (ht' : (s.pc t').within g inside = true) : t' = t := by
  have htotal := h.total
  have hpermits := h.permits
  exact Core.eq_of_count_le_one hs (by simp [PC.within, PC.place]) (by omega) ht ht'

/-- When no permit is left and none is lost, a thread is inside. -/
theorem Guarded.exists_within (h : Guarded g inside lost s) (hzero : s.permits g ≠ 1)
    (hlost : lost s.mem = 0) : ∃ t, (s.pc t).within g inside = true := by
  have htotal := h.total
  have hpermits := h.permits
  exact Core.exists_of_count_pos (by omega)

end

namespace Core

/-! ## Waking up -/

/-- While a permit is left and threads sleep, one that was taken off the queue has still to test for
it. -/
def Retried (x : S) (s : Core S L C σ Loc) : Prop :=
  (s.sem x).value = 1 → (s.sem x).queue ≠ [] → ∃ t next, s.pc t = .inP x next ∧ t ∉ (s.sem x).queue

omit [DecidableEq S] [DecidableEq L] [DecidableEq C] in
theorem pc_of_mem_sem_queue (hs : s.Queued) {x : S} (h : t ∈ (s.sem x).queue) :
    ∃ next, s.pc t = .inP x next := by
  have hwaits := hs.waits (.sem x) t h
  cases hpc : s.pc t with
  | inP y next =>
    rw [hpc] at hwaits
    exact ⟨next, by simpa [PC.waitsOn] using hwaits⟩
  | user _ => simp [hpc, PC.waitsOn] at hwaits
  | inAcquire _ _ => simp [hpc, PC.waitsOn] at hwaits
  | inWait _ _ _ => simp [hpc, PC.waitsOn] at hwaits
  | finished => simp [hpc, PC.waitsOn] at hwaits

/-- Every step keeps it, as long as there is one permit at most: `V` wakes the first thread of the
queue up, and the permit is gone when a thread has tested for it. -/
theorem step_retried {e : Effect} {x : S} (hs : s.Queued) (hpos : 0 ≤ (s.sem x).value)
    (hle : (s.sem x).value ≤ 1) (h : s.Retried x) (hstep : s.step p t = some (e, u)) :
    u.Retried x := by
  obtain ⟨hawake, i, m, next, hbegins, heq⟩ := step_eq_some hstep
  have hu : u = (call t i next { s with mem := m }).2 := congrArg Prod.snd heq
  have hpc {t' : ThreadId} (hne : t' ≠ t) (hborn : s.pc t' ≠ .finished) : u.pc t' = s.pc t' :=
    hu ▸ call_pc_of_ne (hs.withMem m) i next hne hborn
  by_cases hi : i.takes = some (.sem x)
  · -- no permit is left after the test, whatever its outcome
    intro hone
    obtain rfl : i = .P x := by
      cases i with
      | P y => rw [Guard.sem.inj (Option.some.inj hi)]
      | acquire _ => simp [Instr.takes] at hi
      | V _ | release _ | wait _ _ | signal _ _ | broadcast _ _ | fork _ | yield | setLevel _
      | finish => cases hi
    by_cases hv : (s.sem x).value = 0
    · simp [hu, call, testP_of_zero { s with mem := m } t hv, hv] at hone
    · have hv' : (s.sem x).value = 1 := by omega
      simp [hu, call, testP_of_ne_zero { s with mem := m } t hv, hv', int32] at hone
  · by_cases hi' : i.gives = some (.sem x)
    · obtain rfl : i = .V x := by
        cases i with
        | V y => rw [Guard.sem.inj (Option.some.inj hi')]
        | release _ | wait _ _ => simp [Instr.gives] at hi'
        | P _ | acquire _ | signal _ _ | broadcast _ _ | fork _ | yield | setLevel _ | finish =>
          cases hi'
      intro hone hqueue
      have hq : (u.sem x).queue = (s.sem x).queue.tail := by simp [hu, call, Semaphore.V]
      rw [hq] at hqueue ⊢
      obtain ⟨w, rest, hw⟩ : ∃ w rest, (s.sem x).queue = w :: rest := by
        cases hq : (s.sem x).queue with
        | nil => simp [hq] at hqueue
        | cons w rest => exact ⟨w, rest, rfl⟩
      have hmem : w ∈ (s.sem x).queue := by simp [hw]
      obtain ⟨next', hin⟩ := pc_of_mem_sem_queue hs hmem
      have hne : w ≠ t := fun he => hs.not_mem hawake (.sem x) (he ▸ hmem)
      have hnodup : (s.sem x).queue.Nodup := hs.nodup (.sem x)
      rw [hw] at hnodup
      refine ⟨w, next', (hpc hne (by simp [hin])).trans hin, ?_⟩
      simpa [hw] using (List.nodup_cons.mp hnodup).1
    · have hsame : u.sem x = s.sem x := by
        rw [hu]
        exact call_sem_of_ne (s := { s with mem := m }) i next hi hi'
      intro hone hqueue
      rw [hsame] at hone hqueue ⊢
      obtain ⟨t', next', hin, hnot⟩ := h hone hqueue
      have hne : t' ≠ t := fun he => by
        subst he
        obtain ⟨-, -, -, -, htakes, -⟩ := hbegins.resumes fun loc hl => by simp [hin] at hl
        rw [hin] at htakes
        exact hi htakes.symm
      exact ⟨t', next', (hpc hne (by simp [hin])).trans hin, hnot⟩

end Core

/-! ## Where threads can be -/

/-- Where a call can leave the thread that makes it, and where the thread begins that it forks. -/
inductive Instr.Lands (next : Loc) : Instr S L C Loc → PC S L C Loc → Prop
  | inP (x : S) : Lands next (.P x) (.inP x next)
  | inAcquire (k : L) : Lands next (.acquire k) (.inAcquire k next)
  | inWait (c : C) (k : L) : Lands next (.wait c k) (.inWait c k next)
  | finished : Lands next .finish .finished
  | start (loc : Loc) : Lands next (.fork loc) (.user loc)
  | user {i : Instr S L C Loc} (h : i.goesOn = true) (hw : i.waits = false) : Lands next i (.user next)

/-- The code keeps the threads at the places `R`. -/
structure Places (p : Program S L C σ Loc Ev) (R : PC S L C Loc → Prop) : Prop where
  code : ∀ {t loc m m' i next q}, R (.user loc) → p.code t loc m = some (m', i, next) →
    i.Lands next q → R q
  inP : ∀ {x next}, R (.inP x next) → R (.user next)
  inAcquire : ∀ {k next}, R (.inAcquire k next) → R (.user next)
  inWait : ∀ {c k next}, R (.inWait c k next) → R (.inAcquire k next)

namespace Core

theorem call_lands (hs : s.Queued) (hborn : s.pc t ≠ .finished) (i : Instr S L C Loc) (next : Loc)
    (t' : ThreadId) :
    (t' ≠ t ∧ (call t i next s).2.pc t' = s.pc t') ∨
      i.Lands next ((call t i next s).2.pc t') := by
  by_cases hne : t' = t
  · subst hne
    refine .inr ?_
    have ht := (lt_numThreads hs hborn).ne
    cases i with
    | P x =>
      by_cases h : (s.sem x).value = 0
      · simpa [call, testP_of_zero s t' h] using .inP x
      · simpa [call, testP_of_ne_zero s t' h] using .user rfl rfl
    | acquire k =>
      cases h : (s.lock k).free with
      | true => simpa [call, testAcquire_of_free s t' h] using .user rfl rfl
      | false => simpa [call, testAcquire_of_not_free s t' h] using .inAcquire k
    | wait c k => simpa [call] using .inWait c k
    | finish => simpa [call] using .finished
    | fork start => simpa [call, ht] using .user rfl rfl
    | V _ | release _ | signal _ _ | broadcast _ _ | yield | setLevel _ =>
      simpa [call] using .user rfl rfl
  · obtain hsame | ⟨start, rfl, -, hstart⟩ := call_pc hs i next hne
    · exact .inl ⟨hne, hsame⟩
    · exact .inr (hstart ▸ .start start)

/-- The threads stay at the places `R`. -/
theorem next_places {R : PC S L C Loc → Prop} {v : Move Ev} (hp : Places p R) (hs : s.Queued)
    (h : ∀ t, R (s.pc t)) (hnext : s.next p v = some u) (t' : ThreadId) : R (u.pc t') := by
  cases v with
  | thread t =>
    obtain ⟨⟨e, u'⟩, hstep, rfl⟩ := Option.map_eq_some_iff.mp hnext
    obtain ⟨-, i, m, next, hbegins, heq⟩ := step_eq_some hstep
    obtain rfl : u' = (call t i next { s with mem := m }).2 := congrArg Prod.snd heq
    have hwait {x : S} (hr : R (.inP x next)) {q : PC S L C Loc}
        (hq : (.P x : Instr S L C Loc).Lands next q) : R q := by
      cases hq with
      | inP _ => exact hr
      | user _ _ => exact hp.inP hr
    have hacquire {k : L} (hr : R (.inAcquire k next)) {q : PC S L C Loc}
        (hq : (.acquire k : Instr S L C Loc).Lands next q) : R q := by
      cases hq with
      | inAcquire _ => exact hr
      | user _ _ => exact hp.inAcquire hr
    obtain ⟨-, hsame⟩ | hlands :=
      call_lands (hs.withMem m) hbegins.pc_ne_finished i next t'
    · exact hsame.symm ▸ h t'
    · have ht := h t
      cases hbegins with
      | user hpc hcode => exact hp.code (hpc ▸ ht) hcode hlands
      | inP hpc => exact hwait (hpc ▸ ht) hlands
      | inAcquire hpc => exact hacquire (hpc ▸ ht) hlands
      | inWait hpc => exact hacquire (hp.inWait (hpc ▸ ht)) hlands
  | interrupt ev =>
    obtain ⟨⟨ts, u'⟩, hint, rfl⟩ := Option.map_eq_some_iff.mp hnext
    show R (u'.pc t')
    rw [(interrupt_frame hint).2.2]
    exact h t'

/-- What the threads weigh together, by the places in their own code. -/
def totalAt (w : Loc → Nat) (s : Core S L C σ Loc) : Nat := s.total fun q => q.place.elim 0 w

section

omit [DecidableEq S] [DecidableEq L] [DecidableEq C]

theorem new_totalAt (initialValue : S → Int) (mem : σ) (main : Loc) (w : Loc → Nat) :
    (new initialValue mem main : Core S L C σ Loc).totalAt w = w main := by
  simp [totalAt, total, new, PC.place]

theorem totalAt_le {w w' : Loc → Nat} {k : Nat} (h : ∀ loc, w loc ≤ k * w' loc)
    (s : Core S L C σ Loc) : s.totalAt w ≤ k * s.totalAt w' := by
  unfold totalAt total
  rw [Finset.mul_sum]
  refine Finset.sum_le_sum fun t _ => ?_
  show (s.pc t).place.elim 0 w ≤ k * (s.pc t).place.elim 0 w'
  cases (s.pc t).place with
  | none => exact Nat.zero_le _
  | some loc => exact h loc

theorem eq_zero_of_totalAt {w : Loc → Nat} {loc : Loc} {t : Nat} (h : s.totalAt w = 0)
    (ht : t < s.numThreads) (hplace : (s.pc t).place = some loc) : w loc = 0 := by
  unfold totalAt total at h
  have hzero : (s.pc t).place.elim 0 w = 0 :=
    Finset.sum_eq_zero_iff.mp h t (Finset.mem_range.mpr ht)
  rw [hplace] at hzero
  exact hzero

/-- The number of threads at a place that meets `f` in their own code. -/
def countAt (f : Loc → Bool) (s : Core S L C σ Loc) : Nat := s.totalAt fun loc => (f loc).toNat

theorem countAt_eq_count (f : Loc → Bool) (s : Core S L C σ Loc) :
    s.countAt f = s.count fun q => q.place.any f := by
  unfold countAt totalAt count
  congr 1
  funext q
  cases h : q.place <;> simp [h]

theorem countAt_pos {f : Loc → Bool} {loc : Loc} (hs : s.Queued) (hpc : (s.pc t).place = some loc)
    (hf : f loc = true) : 0 < s.countAt f := by
  rw [countAt_eq_count]
  exact count_pos (t := t) hs rfl (by simp [hpc, hf])

theorem exists_of_countAt_pos {f : Loc → Bool} (h : 0 < s.countAt f) :
    ∃ t loc, (s.pc t).place = some loc ∧ f loc = true := by
  rw [countAt_eq_count] at h
  obtain ⟨t, ht⟩ := exists_of_count_pos h
  exact ⟨t, (Option.any_eq_true _ _).mp ht⟩

theorem eq_of_countAt_le_one {f : Loc → Bool} {loc loc' : Loc} {t' : ThreadId} (hs : s.Queued)
    (h : s.countAt f ≤ 1) (hpc : (s.pc t).place = some loc) (hf : f loc = true)
    (hpc' : (s.pc t').place = some loc') (hf' : f loc' = true) : t' = t := by
  rw [countAt_eq_count] at h
  exact eq_of_count_le_one hs rfl h (by simp [hpc, hf]) (by simp [hpc', hf'])

/-- `t` goes from `loc` to `next` in its own code, by the call `i`. -/
structure Moves (t : ThreadId) (loc : Loc) (i : Instr S L C Loc) (next : Loc)
    (s u : Core S L C σ Loc) : Prop where
  pc : s.pc t = .user loc
  place : (u.pc t).place = if i.goesOn then some next else none
  others : ∀ t', t' ≠ t → (u.pc t').place = (s.pc t').place ∨ ∃ start, i = .fork start ∧
    t' = s.numThreads ∧ (u.pc t').place = some start ∧ (s.pc t').place = none
  total : ∀ w : Loc → Nat, u.totalAt w + w loc =
    s.totalAt w + (if i.goesOn then w next else 0) + (forked i).elim 0 w

/-- Where a thread is after `t` has moved. -/
theorem Moves.place_cases {loc next loc' : Loc} {t' : ThreadId} (h : Moves t loc i next s u)
    (hloc' : (u.pc t').place = some loc') :
    (t' ≠ t ∧ (s.pc t').place = some loc') ∨ (t' = t ∧ i.goesOn = true ∧ loc' = next) ∨
      (t' ≠ t ∧ i = .fork loc' ∧ t' = s.numThreads) := by
  by_cases hne : t' = t
  · subst hne
    have hplace := h.place
    rw [hloc'] at hplace
    cases hgoes : i.goesOn with
    | true =>
      rw [if_pos hgoes] at hplace
      exact .inr (.inl ⟨rfl, rfl, Option.some.inj hplace⟩)
    | false =>
      simp [hgoes] at hplace
  · obtain hsame | ⟨start, hi, ht', hstart, -⟩ := h.others t' hne
    · exact .inl ⟨hne, hsame ▸ hloc'⟩
    · obtain rfl : loc' = start := Option.some.inj (hloc'.symm.trans hstart)
      exact .inr (.inr ⟨hne, hi, ht'⟩)

/-- What holds of all places holds after a move to such places. -/
theorem Moves.forall_place {loc next : Loc} {P : Loc → Prop} (h : Moves t loc i next s u)
    (hs : ∀ t loc, (s.pc t).place = some loc → P loc) (hnext : P next)
    (hforks : ∀ start, i = .fork start → P start) (t' : ThreadId) (loc' : Loc)
    (hloc' : (u.pc t').place = some loc') : P loc' := by
  obtain ⟨-, hsame⟩ | ⟨-, -, rfl⟩ | ⟨-, hi, -⟩ := h.place_cases hloc'
  · exact hs t' loc' hsame
  · exact hnext
  · exact hforks loc' hi

end

/-- What a step leaves of the weights, when the thread makes the call `i`. -/
theorem call_totalAt (hs : s.Queued) (hborn : s.pc t ≠ .finished) (i : Instr S L C Loc) (next : Loc)
    (w : Loc → Nat) : (call t i next s).2.totalAt w + (s.pc t).place.elim 0 w =
      s.totalAt w + (if i.goesOn then w next else 0) + (forked i).elim 0 w := by
  have htotal := call_total (fun q : PC S L C Loc => q.place.elim 0 w) hs hborn i next
  rw [(call_place i next (lt_numThreads hs hborn).ne).1] at htotal
  refine htotal.trans ?_
  cases i.goesOn <;> rfl

/-- A step of a thread that goes on with a call begun before a `Sleep`: nothing else changes. -/
theorem step_resumes {e : Effect} (hs : s.Queued) (hpc : ∀ loc, s.pc t ≠ .user loc)
    (h : s.step p t = some (e, u)) :
    u.mem = s.mem ∧ (∀ t', (u.pc t').place = (s.pc t').place) ∧
      (∀ w : Loc → Nat, u.totalAt w = s.totalAt w) ∧ u.numThreads = s.numThreads := by
  obtain ⟨-, i, m, next, hbegins, heq⟩ := step_eq_some h
  obtain rfl : u = (call t i next { s with mem := m }).2 := congrArg Prod.snd heq
  have hborn := hbegins.pc_ne_finished
  have hq := hs.withMem m
  obtain ⟨hm, hgoes, -, hforked, -, hplace⟩ := hbegins.resumes hpc
  refine ⟨(call_mem i next _).trans hm, fun t' => ?_, fun w => ?_, ?_⟩
  · by_cases hne : t' = t
    · subst hne
      rw [(call_place (s := { s with mem := m }) i next (lt_numThreads hs hborn).ne).1, hplace,
        if_pos hgoes]
    · obtain hsame | ⟨start, hi, -⟩ := call_pc hq i next hne
      · exact congrArg PC.place hsame
      · rw [hi] at hforked
        cases hforked
  · have htotal := call_totalAt hq hborn i next w
    rw [hforked, if_pos hgoes] at htotal
    change _ + (s.pc t).place.elim 0 w = _ at htotal
    rw [hplace] at htotal
    exact Nat.add_right_cancel htotal
  · have hnum := call_numThreads hq hborn i next
    rw [hforked] at hnum
    exact hnum

/-- A step of a thread in its own code. -/
theorem step_user {e : Effect} {loc : Loc} (hs : s.Queued) (hpc : s.pc t = .user loc)
    (h : s.step p t = some (e, u)) :
    ∃ m i next, p.code t loc s.mem = some (m, i, next) ∧ u.mem = m ∧ Moves t loc i next s u ∧
      u.numThreads = s.numThreads + ((forked i).elim 0 fun _ => 1) ∧
      ∀ start, i = .fork start → (u.pc s.numThreads).place = some start := by
  obtain ⟨-, i, m, next, hbegins, heq⟩ := step_eq_some h
  obtain rfl : u = (call t i next { s with mem := m }).2 := congrArg Prod.snd heq
  have hborn := hbegins.pc_ne_finished
  have hq := hs.withMem m
  refine ⟨m, i, next, ?_, call_mem i next _, ⟨hpc, ?_, fun t' hne => ?_, fun w => ?_⟩,
    call_numThreads hq hborn i next, ?_⟩
  · cases hbegins with
    | user hpc' hcode =>
      obtain rfl := PC.user.inj (hpc'.symm.trans hpc)
      exact hcode
    | inP hpc' => simp [hpc] at hpc'
    | inAcquire hpc' => simp [hpc] at hpc'
    | inWait hpc' => simp [hpc] at hpc'
  · exact (call_place (s := { s with mem := m }) i next (lt_numThreads hs hborn).ne).1
  · obtain hsame | ⟨start, hi, ht', hstart⟩ := call_pc hq i next hne
    · exact .inl (congrArg PC.place hsame)
    · refine .inr ⟨start, hi, ht', congrArg PC.place hstart, ?_⟩
      rw [hs.unborn t' ht'.ge]
      rfl
  · have htotal := call_totalAt hq hborn i next w
    change _ + (s.pc t).place.elim 0 w = _ at htotal
    rw [hpc] at htotal
    exact htotal
  · rintro start rfl
    have hnew : (call t (.fork start) next { s with mem := m }).2.pc s.numThreads = .user start :=
      Function.update_self _ _ _
    rw [hnew]
    rfl

/-- A thread in its own code is awake. -/
theorem next_of_user {loc next : Loc} {m : σ} (hpc : s.pc t = .user loc)
    (hcode : p.code t loc s.mem = some (m, i, next)) :
    s.next p (.thread t) = some (call t i next { s with mem := m }).2 := by
  have hawake : s.asleep t = false := by simp [asleep, hpc, PC.waitsOn]
  show (s.step p t).map Prod.snd = _
  unfold step
  rw [hawake, hpc]
  simp [hcode]

/-- A step of a thread goes on with a call begun before a `Sleep`, or is a step in its own code. -/
theorem step_moves {e : Effect} (hs : s.Queued) (h : s.step p t = some (e, u)) :
    (u.mem = s.mem ∧ (∀ t', (u.pc t').place = (s.pc t').place) ∧
      ∀ w : Loc → Nat, u.totalAt w = s.totalAt w) ∨
    ∃ loc m i next, p.code t loc s.mem = some (m, i, next) ∧ u.mem = m ∧
      Moves t loc i next s u := by
  by_cases hu : ∃ loc, s.pc t = .user loc
  · obtain ⟨loc, hu⟩ := hu
    obtain ⟨m, i, next, hcode, hmem, hmoves, -⟩ := step_user hs hu h
    exact .inr ⟨loc, m, i, next, hcode, hmem, hmoves⟩
  · obtain ⟨hmem, hplace, htotal, -⟩ := step_resumes hs (fun loc h => hu ⟨loc, h⟩) h
    exact .inl ⟨hmem, hplace, htotal⟩

end Core

end Nachos.Threads
