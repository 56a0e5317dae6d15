import Nachos.Threads.Queues

/-!
# The same threads, in other words (threads/synch.cc)

Two programs that do the same, but call the places in their code differently: `f` maps the
places of one to those of the other (`Renames`). Then a run of the one is a run of the
other, with the places mapped (`run_map`).
-/

namespace Nachos.Threads

open Nachos.Framework

variable {S L C σ Loc Loc' Ev : Type} [DecidableEq S] [DecidableEq L] [DecidableEq C]

def Instr.map (f : Loc → Loc') : Instr S L C Loc → Instr S L C Loc'
  | .P x => .P x
  | .V x => .V x
  | .acquire k => .acquire k
  | .release k => .release k
  | .wait x k => .wait x k
  | .signal x k => .signal x k
  | .broadcast x k => .broadcast x k
  | .fork start => .fork (f start)
  | .yield => .yield
  | .setLevel now => .setLevel now
  | .finish => .finish

def PC.map (f : Loc → Loc') : PC S L C Loc → PC S L C Loc'
  | .user loc => .user (f loc)
  | .inP x next => .inP x (f next)
  | .inAcquire k next => .inAcquire k (f next)
  | .inWait x k next => .inWait x k (f next)
  | .finished => .finished

/-- What one program does at a place, the other does at the place that `f` gives. -/
structure Renames (p : Program S L C σ Loc Ev) (p' : Program S L C σ Loc' Ev) (f : Loc → Loc') : Prop where
  code : ∀ {t loc m m' i next}, p.code t loc m = some (m', i, next) →
    p'.code t (f loc) m = some (m', i.map f, f next)
  handler : p'.handler = p.handler

namespace Core

variable {p : Program S L C σ Loc Ev} {p' : Program S L C σ Loc' Ev} {f : Loc → Loc'}
variable {s u : Core S L C σ Loc} {t : ThreadId}

/-- The state with the places mapped. -/
def map (f : Loc → Loc') (s : Core S L C σ Loc) : Core S L C σ Loc' where
  sem := s.sem
  lock := s.lock
  cond := s.cond
  mem := s.mem
  pc := fun t => (s.pc t).map f
  numThreads := s.numThreads

section

omit [DecidableEq S] [DecidableEq L] [DecidableEq C]

@[simp] theorem map_mem : (s.map f).mem = s.mem := rfl
@[simp] theorem map_pc (t : ThreadId) : (s.map f).pc t = (s.pc t).map f := rfl

theorem PC.waitsOn_map (q : PC S L C Loc) : (q.map f).waitsOn = q.waitsOn := by
  cases q <;> rfl

theorem asleep_map (s : Core S L C σ Loc) (f : Loc → Loc') (t : ThreadId) :
    (s.map f).asleep t = s.asleep t := by
  unfold asleep
  rw [map_pc, PC.waitsOn_map]
  cases (s.pc t).waitsOn with
  | none => rfl
  | some w => cases w <;> rfl

theorem update_map (pc : ThreadId → PC S L C Loc) (t : ThreadId) (q : PC S L C Loc) :
    (fun t' => (Function.update pc t q t').map f) = Function.update (fun t' => (pc t').map f) t (q.map f) := by
  funext t'
  by_cases ht : t' = t
  · subst ht
    rw [Function.update_self, Function.update_self]
  · rw [Function.update_of_ne ht, Function.update_of_ne ht]

theorem setPC_map (t : ThreadId) (q : PC S L C Loc) (s : Core S L C σ Loc) :
    (s.setPC t q).map f = (s.map f).setPC t (q.map f) :=
  congrArg (fun pc : ThreadId → PC S L C Loc' => { s.map f with pc := pc }) (update_map s.pc t q)

end

omit [DecidableEq L] [DecidableEq C] in
theorem testP_map (t : ThreadId) (x : S) (next : Loc) (s : Core S L C σ Loc) :
    (s.map f).testP t x (f next) = ((s.testP t x next).1, (s.testP t x next).2.map f) := by
  by_cases hv : (s.sem x).value = 0
  · rw [testP_of_zero s t hv, testP_of_zero (s.map f) t hv, setPC_map]
    rfl
  · rw [testP_of_ne_zero s t hv, testP_of_ne_zero (s.map f) t hv, setPC_map]
    rfl

omit [DecidableEq S] [DecidableEq C] in
theorem testAcquire_map (t : ThreadId) (k : L) (next : Loc) (s : Core S L C σ Loc) :
    (s.map f).testAcquire t k (f next) =
      ((s.testAcquire t k next).1, (s.testAcquire t k next).2.map f) := by
  cases hfree : (s.lock k).free with
  | true =>
    rw [testAcquire_of_free s t hfree, testAcquire_of_free (s.map f) t hfree, setPC_map]
    rfl
  | false =>
    rw [testAcquire_of_not_free s t hfree, testAcquire_of_not_free (s.map f) t hfree, setPC_map]
    rfl

theorem call_map (t : ThreadId) (i : Instr S L C Loc) (next : Loc) (s : Core S L C σ Loc) :
    call t (i.map f) (f next) (s.map f) = ((call t i next s).1, (call t i next s).2.map f) := by
  cases i with
  | P x => exact testP_map t x next s
  | acquire k => exact testAcquire_map t k next s
  | fork start =>
    have hmap : ((s.setPC t (.user next)).setPC s.numThreads (.user start)).map f =
        ((s.map f).setPC t (.user (f next))).setPC s.numThreads (.user (f start)) := by
      rw [setPC_map, setPC_map]
      rfl
    exact Prod.ext rfl (congrArg (fun c : Core S L C σ Loc' => { c with numThreads := s.numThreads + 1 }) hmap).symm
  | V x => exact Prod.ext rfl (setPC_map t (.user next) (s.setSem x (s.sem x).V.2)).symm
  | release k => exact Prod.ext rfl (setPC_map t (.user next) (s.setLock k ((s.lock k).release t).2)).symm
  | wait x k => exact Prod.ext rfl (setPC_map t (.inWait x k next) ((s.setLock k ((s.lock k).release t).2).setCond x
      { s.cond x with queue := (s.cond x).queue ++ [t], waited := (s.cond x).waited ++ [t] })).symm
  | signal x _ => exact Prod.ext rfl (setPC_map t (.user next) (s.setCond x (s.cond x).signal.2)).symm
  | broadcast x _ => exact Prod.ext rfl (setPC_map t (.user next) (s.setCond x (s.cond x).broadcast.2)).symm
  | yield | setLevel _ => exact Prod.ext rfl (setPC_map t (.user next) s).symm
  | finish => exact Prod.ext rfl (setPC_map t .finished s).symm

omit [DecidableEq L] [DecidableEq C] in
theorem signalAll_map (xs : List S) (s : Core S L C σ Loc) :
    signalAll xs (s.map f) = ((signalAll xs s).1, (signalAll xs s).2.map f) := by
  induction xs generalizing s with
  | nil => rfl
  | cons x xs ih =>
    have hih := ih (s.setSem x (s.sem x).V.2)
    unfold signalAll
    dsimp only
    change signalAll xs ((s.map f).setSem x ((s.map f).sem x).V.2) = _ at hih
    rw [hih]
    rfl

theorem step_map (hp : Renames p p' f) {e : Effect} (h : s.step p t = some (e, u)) :
    (s.map f).step p' t = some (e, u.map f) := by
  obtain ⟨hawake, i, m, next, hbegins, heq⟩ := step_eq_some h
  unfold step
  rw [asleep_map, hawake]
  cases hbegins with
  | user hpc hcode =>
    have hcall := call_map (f := f) t i next { s with mem := m }
    rw [← heq] at hcall
    simp only [Bool.false_eq_true, if_false, map_pc, hpc, PC.map, map_mem, hp.code hcode, Option.map_some]
    exact congrArg some hcall
  | @inP x _ hpc =>
    have hcall := testP_map (f := f) t x next s
    rw [← show (e, u) = s.testP t x next from heq] at hcall
    simp only [Bool.false_eq_true, if_false, map_pc, hpc, PC.map]
    exact congrArg some hcall
  | @inAcquire k _ hpc | @inWait _ k _ hpc =>
    have hcall := testAcquire_map (f := f) t k next s
    rw [← show (e, u) = s.testAcquire t k next from heq] at hcall
    simp only [Bool.false_eq_true, if_false, map_pc, hpc, PC.map]
    exact congrArg some hcall

/-- Every move of the one is a move of the other. -/
theorem next_map (hp : Renames p p' f) {v : Move Ev} (h : s.next p v = some u) :
    (s.map f).next p' v = some (u.map f) := by
  cases v with
  | thread t =>
    obtain ⟨⟨e, u'⟩, hstep, rfl⟩ := Option.map_eq_some_iff.mp h
    exact Option.map_eq_some_iff.mpr ⟨(e, u'.map f), step_map hp hstep, rfl⟩
  | interrupt ev =>
    obtain ⟨⟨ts, u'⟩, hint, rfl⟩ := Option.map_eq_some_iff.mp h
    obtain ⟨m, xs, hhandler, heq⟩ := interrupt_eq_some hint
    refine Option.map_eq_some_iff.mpr ⟨(ts, u'.map f), ?_, rfl⟩
    unfold interrupt
    have hsignal := signalAll_map (f := f) xs { s with mem := m }
    rw [← heq] at hsignal
    rw [map_mem, hp.handler, hhandler]
    exact congrArg some hsignal

omit [DecidableEq S] [DecidableEq L] [DecidableEq C] in
theorem new_map (initialValue : S → Int) (mem : σ) (main : Loc) :
    (new initialValue mem main : Core S L C σ Loc).map f = new initialValue mem (f main) := by
  have hpc := setPC_map (f := f) 0 (.user main)
    ({ (new initialValue mem main : Core S L C σ Loc) with pc := fun _ => .finished })
  exact hpc

end Core

end Nachos.Threads
