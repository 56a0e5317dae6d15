import Nachos.Framework.Simulation
import Nachos.Threads.LockCondition

/-!
# `Release` by another thread than the holder (threads/synch.cc)

`Release` takes the first thread off the queue before it looks at the holder.

* `Lock.release_keeps_iff`: when a call by a thread that does not hold the lock changes
  nothing;
* `nextReady_waiting`: in a step that releases no lock that way while threads sleep on it,
  a sleeping thread stays on its queue or is made ready;
* `release_by_other`: the same for a run.
-/

namespace Nachos.Threads

open Nachos.Framework Nachos.Machine

namespace Lock

/-- `t` has acquired the lock and has not released it. -/
def HeldBy (k : Lock) (t : ThreadId) : Prop := k.free = false ∧ k.holder = some t

instance (k : Lock) (t : ThreadId) : Decidable (k.HeldBy t) := inferInstanceAs (Decidable (_ ∧ _))

/-- `Release` by `t` leaves the lock as it is, and makes no thread ready. -/
structure ReleaseKeeps (k : Lock) (t : ThreadId) : Prop where
  free : (k.release t).2.free = k.free
  holder : (k.release t).2.holder = k.holder
  queue : (k.release t).2.queue = k.queue
  ready : (k.release t).1 = []

variable {k : Lock} {t : ThreadId}

theorem release_holder (t : ThreadId) (k : Lock) : (k.release t).2.holder = k.holder := by
  unfold release
  split <;> rfl

/-- A thread that does not hold the lock has not acquired it last, or has released it. -/
theorem release_free (h : ¬ k.HeldBy t) : (k.release t).2.free = k.free := by
  unfold release
  split
  · rename_i hholder
    have hfree : k.free = true := by
      by_contra hc
      exact h ⟨Bool.eq_false_iff.mpr hc, hholder⟩
    show true = k.free
    rw [hfree]
  · rfl

theorem release_keeps_iff (h : ¬ k.HeldBy t) : k.ReleaseKeeps t ↔ k.queue = [] := by
  constructor
  · intro hk
    have hlen := congrArg List.length hk.queue
    rw [release_queue, List.length_tail] at hlen
    apply List.eq_nil_of_length_eq_zero
    omega
  · intro hq
    refine ⟨release_free h, release_holder t k, ?_, ?_⟩
    · rw [release_queue, hq]
      rfl
    · have hready := (Core.Lock.release_ready t k).2
      apply List.eq_nil_iff_forall_not_mem.mpr
      intro t' ht'
      have := hready t' ht'
      rw [hq] at this
      cases this

end Lock

namespace Core

variable {S L C σ Loc Ev : Type} [DecidableEq S] [DecidableEq L] [DecidableEq C]
variable {p : Program S L C σ Loc Ev} {s u : Core S L C σ Loc} {t t' : ThreadId}

/-- The threads that a move gives to `ReadyToRun`, and the state after it. -/
def nextReady (p : Program S L C σ Loc Ev) :
    Move Ev → Core S L C σ Loc → Option (List ThreadId × Core S L C σ Loc)
  | .thread t, s => (s.step p t).map fun r => (r.1.ready, r.2)
  | .interrupt e, s => s.interrupt p e

theorem nextReady_next (p : Program S L C σ Loc Ev) (v : Move Ev) (s : Core S L C σ Loc) :
    (nextReady p v s).map Prod.snd = s.next p v := by
  cases v with
  | thread t => rw [nextReady, Core.next, Option.map_map]; rfl
  | interrupt e => rfl

/-- If the next call of the thread that moves releases a lock, the thread holds the lock, or no
thread sleeps on it. -/
def ReleasesAlone (p : Program S L C σ Loc Ev) : Move Ev → Core S L C σ Loc → Prop
  | .thread t, s => ((s.nextCall p t).bind releases).all fun k =>
      decide ((s.lock k).HeldBy t ∨ (s.lock k).queue = [])
  | .interrupt _, _ => True

instance (p : Program S L C σ Loc Ev) : ∀ v s, Decidable (ReleasesAlone p v s)
  | .thread _, _ => inferInstanceAs (Decidable (_ = true))
  | .interrupt _, _ => isTrue trivial

theorem Lock.release_waiting {k : Lock} (h : k.HeldBy t ∨ k.queue = []) (ht : t' ∈ k.queue) :
    t' ∈ (k.release t).2.queue ∨ t' ∈ (k.release t).1 := by
  obtain hheld | hnil := h
  · rw [Lock.release_queue, release_of_holder hheld.2, or_comm, ← List.mem_append,
      ← head?_toList_append_tail]
    exact ht
  · rw [hnil] at ht
    cases ht

/-- A thread that sleeps on a lock stays there in a call, or is made ready. -/
theorem call_waiting {i : Instr S L C Loc} {k : L} (next : Loc)
    (hi : ∀ k, releases i = some k → (s.lock k).HeldBy t ∨ (s.lock k).queue = [])
    (ht : t' ∈ (s.lock k).queue) :
    t' ∈ ((call t i next s).2.lock k).queue ∨ t' ∈ (call t i next s).1.ready := by
  -- the two calls that release a lock
  have hrelease (k' : L) (hk : releases i = some k') :
      t' ∈ (Function.update s.lock k' ((s.lock k').release t).2 k).queue ∨
        t' ∈ ((s.lock k').release t).1 := by
    by_cases hkk : k = k'
    · subst hkk
      rw [Function.update_self]
      exact Lock.release_waiting (hi k hk) ht
    · rw [Function.update_of_ne hkk]
      exact .inl ht
  cases i with
  | release k' => exact hrelease k' rfl
  | wait c k' => exact hrelease k' rfl
  | acquire k' =>
    left
    cases hfree : (s.lock k').free with
    | true =>
      simp only [call, testAcquire_of_free s t hfree, setPC_lock, setLock_lock]
      by_cases hkk : k = k'
      · subst hkk
        rw [Function.update_self]
        exact ht
      · rwa [Function.update_of_ne hkk]
    | false =>
      simp only [call, testAcquire_of_not_free s t hfree, setPC_lock, setLock_lock]
      by_cases hkk : k = k'
      · subst hkk
        rw [Function.update_self]
        exact List.mem_append_left _ ht
      · rwa [Function.update_of_ne hkk]
  | P x =>
    left
    by_cases hx : (s.sem x).value = 0
    · simpa [call, testP_of_zero s t hx] using ht
    · simpa [call, testP_of_ne_zero s t hx] using ht
  | V _ => exact .inl ht
  | signal _ _ => exact .inl ht
  | broadcast _ _ => exact .inl ht
  | fork _ => exact .inl ht
  | yield => exact .inl ht
  | setLevel _ => exact .inl ht
  | finish => exact .inl ht

theorem nextReady_waiting {v : Move Ev} {ready : List ThreadId} {k : L}
    (h : nextReady p v s = some (ready, u)) (hv : ReleasesAlone p v s)
    (ht : t' ∈ (s.lock k).queue) : t' ∈ (u.lock k).queue ∨ t' ∈ ready := by
  cases v with
  | thread t =>
    obtain ⟨⟨e, u'⟩, hstep, heq⟩ := Option.map_eq_some_iff.mp h
    obtain ⟨rfl, rfl⟩ := Prod.mk.inj heq
    obtain ⟨-, i, m, next, hbegins, hcall⟩ := step_eq_some hstep
    obtain ⟨rfl, rfl⟩ := Prod.mk.inj hcall
    refine call_waiting (s := { s with mem := m }) next (fun k' hk' => ?_) ht
    cases hbegins with
    | user hpc hcode =>
      have hcall : (s.nextCall p t).bind releases = some k' := by
        rw [nextCall, hpc]
        simp only [hcode, Option.map_some, Option.bind_some]
        exact hk'
      rw [ReleasesAlone, hcall, Option.all_some] at hv
      exact of_decide_eq_true hv
    | inP _ => cases hk'
    | inAcquire _ => cases hk'
    | inWait _ => cases hk'
  | interrupt e =>
    rw [(interrupt_frame h).1]
    exact .inl ht

/-- A call of `Release` by a thread that does not hold the lock changes nothing exactly when no
thread sleeps on the lock. In every run in which locks are released by other threads only then,
a thread that sleeps on a lock stays on its queue until it is made ready. -/
theorem release_by_other (p : Program S L C σ Loc Ev) :
    (∀ (k : Lock) (t : ThreadId), ¬ k.HeldBy t → (k.ReleaseKeeps t ↔ k.queue = [])) ∧
    ∀ (vs : List (Move Ev)) (s u : Core S L C σ Loc) (readies : List (List ThreadId)),
      trace (nextReady p) vs s = some (readies, u) →
      Along (Core.next p) (ReleasesAlone p) vs s →
      ∀ k, ∀ t ∈ (s.lock k).queue, t ∈ (u.lock k).queue ∨ ∃ ready ∈ readies, t ∈ ready := by
  refine ⟨fun k t h => Lock.release_keeps_iff h, fun vs => ?_⟩
  induction vs with
  | nil =>
    intro s u readies h _ k t ht
    obtain ⟨rfl, rfl⟩ := Prod.mk.inj (Option.some.inj h)
    exact .inl ht
  | cons v vs ih =>
    intro s u readies h hv k t ht
    obtain ⟨⟨ready, s₁⟩, hnext, h⟩ := Option.bind_eq_some_iff.mp h
    obtain ⟨⟨rest, u'⟩, hrest, heq⟩ := Option.map_eq_some_iff.mp h
    obtain ⟨rfl, rfl⟩ := Prod.mk.inj heq
    have hs₁ : s.next p v = some s₁ := by
      rw [← nextReady_next, hnext]
      rfl
    obtain hq | hr := nextReady_waiting hnext hv.1 ht
    · obtain hq | ⟨r, hr, htr⟩ := ih s₁ u' rest hrest (hv.2 s₁ hs₁) k t hq
      · exact .inl hq
      · exact .inr ⟨r, List.mem_cons_of_mem ready hr, htr⟩
    · exact .inr ⟨ready, List.mem_cons_self, hr⟩

theorem release_by_other_pingPong :
    Lock.ReleaseKeeps ⟨false, some 1, [], [1]⟩ 3 ∧
    ∃ s u readies, Framework.run (Core.next System.pingPong) [.thread 0, .thread 0, .thread 1]
        (new (fun _ => 0) () 0) = some s ∧ 1 ∈ (s.lock ()).queue ∧
      trace (nextReady System.pingPong) [.thread 0] s = some (readies, u) ∧
      (1 ∈ (u.lock ()).queue ∨ ∃ ready ∈ readies, 1 ∈ ready) := by
  refine ⟨((release_by_other System.pingPong).1 _ 3 (by decide)).mpr rfl, ?_⟩
  have heval : (Framework.run (Core.next System.pingPong) [.thread 0, .thread 0, .thread 1]
      (new (fun _ => 0) () 0)).any (fun s => 1 ∈ (s.lock ()).queue ∧
        (trace (nextReady System.pingPong) [.thread 0] s).isSome ∧
        Along (Core.next System.pingPong) (ReleasesAlone System.pingPong) [.thread 0] s) = true := by
    decide +kernel
  obtain ⟨s, hs, hd⟩ := (Option.any_eq_true _ _).mp heval
  obtain ⟨hq, hsome, halong⟩ := of_decide_eq_true hd
  obtain ⟨⟨readies, u⟩, htrace⟩ := Option.isSome_iff_exists.mp hsome
  exact ⟨s, u, readies, hs, hq, htrace,
    (release_by_other System.pingPong).2 _ s u readies htrace halong () 1 hq⟩

/-- Thread 3 releases a lock that thread 1 holds and thread 2 waits for: thread 2 is on no
queue any more, and not ready. -/
theorem release_by_other_drops :
    ¬ ∀ (k : Lock) (t : ThreadId), ¬ k.HeldBy t → k.ReleaseKeeps t := by
  intro h
  have hqueue := (h ⟨false, some 1, [2], [1]⟩ 3 (by decide)).queue
  exact absurd hqueue (by decide)

end Core

end Nachos.Threads
