import Nachos.Threads.List
import Mathlib.Data.Finset.Card
import Mathlib.Data.Fintype.EquivFin

/-!
# `List` against the mathematical sequence

`Represents l xs`: walking from `first` gives exactly the sequence `xs`, and
`last` is its final element. Every call but one keeps this and returns what
the sequence gives (`call_represents`). The exception is `RemoveElement` of
the final element of a longer list: it unlinks the element without moving
`last` back (`removeElement_tail`), so `last` is left pointing to a deleted
element, which the next `Append` writes through.

* `refines_iff`: a sequence of calls is performed as on the mathematical
  sequence exactly when no call in it is such a removal.
-/

namespace Nachos.Threads

open Nachos.Framework

variable {α : Type}

namespace LinkedList

/-- The list stands for `xs`: walking from `first` yields `xs`, and `last` is
the final element, if there is one. -/
def Represents (l : LinkedList α) (xs : List (Entry α)) : Prop :=
  ∃ cs, l.elements = some cs ∧ cs.map (fun c => (c.2.key, c.2.item)) = xs ∧
    ∀ c, cs.getLast? = some c → l.last = some c.1

/-! ## Walks and segments -/

theorem seg_of_walk {h : Finmap fun _ : Nat => ListElement α} {n : Nat} {p : Option Nat}
    {cs : List (Nat × ListElement α)} (hw : walk h n p = some cs) :
    Seg ListElement.next h p cs none := by
  induction n generalizing p cs with
  | zero => cases hw
  | succ n ih =>
    cases p with
    | none =>
      simp only [walk, Option.some.injEq] at hw
      exact hw ▸ rfl
    | some c =>
      simp only [walk, Option.bind_eq_bind, Option.bind_eq_some_iff, Option.pure_def,
        Option.some.injEq] at hw
      obtain ⟨e, he, ds, hd, rfl⟩ := hw
      exact ⟨rfl, he, ih hd⟩

theorem walk_of_seg {h : Finmap fun _ : Nat => ListElement α} {n : Nat} {p : Option Nat}
    {cs : List (Nat × ListElement α)} (hs : Seg ListElement.next h p cs none) (hn : cs.length < n) :
    walk h n p = some cs := by
  induction cs generalizing n p with
  | nil =>
    obtain ⟨n, rfl⟩ := Nat.exists_eq_succ_of_ne_zero (Nat.ne_of_gt hn)
    rw [seg_nil.mp hs]; rfl
  | cons c cs ih =>
    obtain ⟨n, rfl⟩ := Nat.exists_eq_succ_of_ne_zero (show n ≠ 0 by omega)
    obtain ⟨rfl, hc, hs⟩ := seg_cons.mp hs
    have ht : walk h n c.2.next = some cs := ih hs (Nat.lt_of_succ_lt_succ hn)
    simp [walk, hc, ht]

theorem elements_eq_some {l : LinkedList α} {cs : List (Nat × ListElement α)} :
    l.elements = some cs ↔ Seg ListElement.next l.heap l.first cs none :=
  ⟨seg_of_walk, fun h => walk_of_seg h (Nat.lt_succ_of_le h.length_le)⟩

/-- What a list's cells stand for. -/
def entries (cs : List (Nat × ListElement α)) : List (Entry α) :=
  cs.map fun c => (c.2.key, c.2.item)

@[simp] theorem entries_nil : entries ([] : List (Nat × ListElement α)) = [] := rfl

@[simp] theorem entries_cons (c : Nat × ListElement α) (cs : List (Nat × ListElement α)) :
    entries (c :: cs) = (c.2.key, c.2.item) :: entries cs := rfl

@[simp] theorem entries_append (cs ds : List (Nat × ListElement α)) :
    entries (cs ++ ds) = entries cs ++ entries ds := List.map_append

theorem mem_entries_snd {cs : List (Nat × ListElement α)} {item : Option α} :
    item ∈ (entries cs).map Prod.snd ↔ ∃ c ∈ cs, c.2.item = item := by
  simp [entries]

/-- The list with cells `cs`: from `first` they lead to the null pointer, and
`last` is the final one. -/
structure Rep (l : LinkedList α) (cs : List (Nat × ListElement α)) : Prop where
  seg : Seg ListElement.next l.heap l.first cs none
  last : ∀ c, cs.getLast? = some c → l.last = some c.1

theorem represents_iff {l : LinkedList α} {xs : List (Entry α)} :
    l.Represents xs ↔ ∃ cs, l.Rep cs ∧ entries cs = xs := by
  constructor
  · rintro ⟨cs, hs, hx, hl⟩
    exact ⟨cs, ⟨elements_eq_some.mp hs, hl⟩, hx⟩
  · rintro ⟨cs, ⟨hs, hl⟩, hx⟩
    exact ⟨cs, elements_eq_some.mpr hs, hx, hl⟩

theorem Rep.first_eq {l : LinkedList α} {cs : List (Nat × ListElement α)} (h : l.Rep cs) :
    l.first = cs.head?.map Prod.fst := by
  cases cs with
  | nil => exact seg_nil.mp h.seg
  | cons c cs => exact (seg_cons.mp h.seg).1

theorem Rep.isEmpty_eq {l : LinkedList α} {cs : List (Nat × ListElement α)} (h : l.Rep cs) :
    l.isEmpty = cs.isEmpty := by
  rw [isEmpty, h.first_eq]
  cases cs <;> rfl

/-! ## One lemma for each operation -/

theorem append_rep {l : LinkedList α} {cs : List (Nat × ListElement α)} (h : l.Rep cs) {a : Nat}
    (ha : l.heap.lookup a = none) (item : Option α) :
    ∃ l' ds, l.append a item = some l' ∧ l'.Rep ds ∧ entries ds = entries cs ++ [(0, item)] := by
  rcases List.eq_nil_or_concat' cs with rfl | ⟨ds, ⟨b, e⟩, rfl⟩
  · have he : l.isEmpty = true := h.isEmpty_eq
    refine ⟨_, [(a, ⟨none, 0, item⟩)], by rw [append, if_pos he], ⟨?_, ?_⟩, rfl⟩
    · exact ⟨rfl, Finmap.lookup_insert _, rfl⟩
    · simp
  · have he : l.isEmpty = false := by rw [h.isEmpty_eq]; simp
    have hl : l.last = some b := h.last (b, e) (by simp)
    have hb : l.heap.lookup b = some e := h.seg.lookup (c := (b, e)) (by simp)
    have hne : b ≠ a := by rintro rfl; rw [ha] at hb; cases hb
    have hnx : e.next = none := (seg_append.mp h.seg).elim fun _ hr => (seg_cons.mp hr.2).2.2
    refine ⟨⟨(l.heap.insert a ⟨none, 0, item⟩).insert b { e with next := some a }, l.first, some a⟩,
      ds ++ [(b, { e with next := some a }), (a, ⟨none, 0, item⟩)], ?_, ⟨?_, ?_⟩, ?_⟩
    · rw [append, if_neg (by rw [he]; exact Bool.false_ne_true)]
      simp only [hl, Option.bind_eq_bind, Option.bind_some, Finmap.lookup_insert_of_ne _ hne, hb,
        Option.pure_def]
    · exact h.seg.insertAfter h.seg.nodup ha rfl hnx.symm
    · simp
    · simp

theorem prepend_rep {l : LinkedList α} {cs : List (Nat × ListElement α)} (h : l.Rep cs) {a : Nat}
    (ha : l.heap.lookup a = none) (item : Option α) :
    ∃ ds, (l.prepend a item).Rep ds ∧ entries ds = (0, item) :: entries cs := by
  cases cs with
  | nil =>
    have he : l.isEmpty = true := h.isEmpty_eq
    refine ⟨[(a, ⟨none, 0, item⟩)], ?_, rfl⟩
    rw [prepend, if_pos he]
    exact ⟨⟨rfl, Finmap.lookup_insert _, rfl⟩, by simp⟩
  | cons c cs =>
    have he : l.isEmpty = false := h.isEmpty_eq
    refine ⟨(a, ⟨l.first, 0, item⟩) :: c :: cs, ?_, rfl⟩
    rw [prepend, if_neg (by rw [he]; exact Bool.false_ne_true)]
    refine ⟨⟨rfl, Finmap.lookup_insert _, ?_⟩, fun d hd => h.last d (by simpa using hd)⟩
    exact h.seg.insert _ (h.seg.notMem_of_lookup_eq_none ha)

/-- Freeing the first element and moving `first` on to the next one keeps the
rest; `last` has to be right only if there is a rest. -/
theorem Rep.tail {l : LinkedList α} {c : Nat × ListElement α} {cs : List (Nat × ListElement α)}
    (h : l.Rep (c :: cs)) (last : Option Nat) (hl : cs ≠ [] → last = l.last) :
    Rep ⟨l.heap.erase c.1, c.2.next, last⟩ cs := by
  have hn := List.nodup_cons.mp (show ((c :: cs).map Prod.fst).Nodup from h.seg.nodup)
  refine ⟨(seg_cons.mp h.seg).2.2.erase hn.1, fun d hd => ?_⟩
  cases cs with
  | nil => cases hd
  | cons b cs => exact (hl (List.cons_ne_nil _ _)).trans (h.last d (by simpa using hd))

theorem sortedRemove_rep {l : LinkedList α} {cs : List (Nat × ListElement α)} (h : l.Rep cs) :
    ∃ l', l.sortedRemove = some (((entries cs).head?.bind Prod.snd, (entries cs).head?.map Prod.fst), l') ∧
      l'.Rep cs.tail := by
  cases cs with
  | nil =>
    have he : l.isEmpty = true := h.isEmpty_eq
    exact ⟨l, by rw [sortedRemove, if_pos he]; rfl, h⟩
  | cons c cs =>
    obtain ⟨hf, hc, hs⟩ := seg_cons.mp h.seg
    have he : l.isEmpty = false := h.isEmpty_eq
    simp only [sortedRemove, he, Bool.false_eq_true, ite_false, hf, Option.bind_eq_bind,
      Option.bind_some, hc, Option.pure_def]
    refine ⟨_, rfl, ?_⟩
    simp only [List.tail_cons]
    split
    · rename_i heq
      -- `first == last` only when there is one element
      have hnil : cs = [] := by
        rcases List.eq_nil_or_concat' cs with rfl | ⟨ds, d, rfl⟩
        · rfl
        · have hd := h.last d (by rw [← List.cons_append, List.getLast?_concat])
          rw [← heq, Option.some.injEq] at hd
          have hn := (List.nodup_cons.mp (show ((c :: (ds ++ [d])).map Prod.fst).Nodup from h.seg.nodup)).1
          simp [hd] at hn
      subst hnil
      have := h.tail none fun hne => absurd rfl hne
      rwa [seg_nil.mp hs] at this
    · exact h.tail _ fun _ => rfl

/-- The loop of `SortedInsert` stops before the first larger key. -/
theorem sortedLoop_found {h : Finmap fun _ : Nat => ListElement α} {k : Int}
    {us vs : List (Nat × ListElement α)} {b d : Nat × ListElement α} {n : Nat} {p : Option Nat}
    (hs : Seg ListElement.next h p (us ++ b :: d :: vs) none)
    (hu : ∀ u ∈ (us ++ [b]).tail, ¬ k < u.2.key) (hd : k < d.2.key) (hn : us.length < n) :
    ∀ c, p = some c → sortedLoop h k n c = some (some b.1) := by
  induction us generalizing n p with
  | nil =>
    rintro c rfl
    obtain ⟨n, rfl⟩ := Nat.exists_eq_succ_of_ne_zero (Nat.ne_of_gt hn)
    obtain ⟨hb, hlb, hnx, hld, -⟩ := hs
    cases hb
    simp [sortedLoop, hlb, hnx, hld, hd]
  | cons u us ih =>
    rintro c rfl
    obtain ⟨n, rfl⟩ := Nat.exists_eq_succ_of_ne_zero (Nat.ne_of_gt (Nat.zero_lt_of_lt hn))
    obtain ⟨hc, hl, ht⟩ := seg_cons.mp hs
    cases hc
    simp only [List.cons_append, List.tail_cons] at hu
    obtain ⟨w, hw, hlw, hkw⟩ : ∃ w : Nat × ListElement α,
        u.2.next = some w.1 ∧ h.lookup w.1 = some w.2 ∧ ¬ k < w.2.key := by
      cases us with
      | nil => exact ⟨b, (seg_cons.mp ht).1, (seg_cons.mp ht).2.1, hu b (by simp)⟩
      | cons w us => exact ⟨w, (seg_cons.mp ht).1, (seg_cons.mp ht).2.1, hu w (by simp)⟩
    simp only [sortedLoop, Option.bind_eq_bind, hl, Option.bind_some, hw, hlw, hkw, ite_false]
    exact ih ht (fun w hw => hu w (List.mem_of_mem_tail hw)) (Nat.lt_of_succ_lt_succ hn) _ hw

theorem sortedLoop_end {h : Finmap fun _ : Nat => ListElement α} {k : Int}
    {cs : List (Nat × ListElement α)} {n : Nat} {p : Option Nat}
    (hs : Seg ListElement.next h p cs none) (hu : ∀ u ∈ cs.tail, ¬ k < u.2.key)
    (hn : cs.length ≤ n) : ∀ c, p = some c → sortedLoop h k n c = some none := by
  induction cs generalizing n p with
  | nil =>
    rintro c rfl
    cases seg_nil.mp hs
  | cons u us ih =>
    rintro c rfl
    obtain ⟨n, rfl⟩ := Nat.exists_eq_succ_of_ne_zero (Nat.ne_of_gt (Nat.zero_lt_of_lt hn))
    obtain ⟨hc, hl, ht⟩ := seg_cons.mp hs
    cases hc
    cases us with
    | nil => simp [sortedLoop, hl, seg_nil.mp ht]
    | cons w us =>
      have hkw := hu w (by simp)
      have hw := (seg_cons.mp ht).1
      simp only [sortedLoop, Option.bind_eq_bind, hl, Option.bind_some, hw, (seg_cons.mp ht).2.1,
        hkw, ite_false]
      exact ih ht (fun w hw => hu w (List.mem_cons_of_mem _ hw)) (Nat.le_of_succ_le_succ hn) _ hw

theorem insertByKey_append {x : Entry α} {xs : List (Entry α)} (h : ∀ y ∈ xs, ¬ x.1 < y.1)
    (ys : List (Entry α)) : insertByKey x (xs ++ ys) = xs ++ insertByKey x ys := by
  induction xs with
  | nil => rfl
  | cons y xs ih =>
    rw [List.cons_append, insertByKey, if_neg (h y List.mem_cons_self),
      ih fun z hz => h z (List.mem_cons_of_mem _ hz), List.cons_append]

/-- The cells up to the first one with a larger key, if there is one. -/
theorem split_at_key (k : Int) (cs : List (Nat × ListElement α)) :
    (∀ u ∈ cs, ¬ k < u.2.key) ∨
      ∃ us d vs, cs = us ++ d :: vs ∧ (∀ u ∈ us, ¬ k < u.2.key) ∧ k < d.2.key := by
  induction cs with
  | nil => exact .inl (List.forall_mem_nil _)
  | cons c cs ih =>
    by_cases hc : k < c.2.key
    · exact .inr ⟨[], c, cs, rfl, List.forall_mem_nil _, hc⟩
    · rcases ih with h | ⟨us, d, vs, rfl, hu, hd⟩
      · exact .inl (List.forall_mem_cons.mpr ⟨hc, h⟩)
      · exact .inr ⟨c :: us, d, vs, rfl, List.forall_mem_cons.mpr ⟨hc, hu⟩, hd⟩

theorem entries_key_le {k : Int} {us : List (Nat × ListElement α)}
    (hu : ∀ u ∈ us, ¬ k < u.2.key) (item : Option α) : ∀ y ∈ entries us, ¬ ((k, item) : Entry α).1 < y.1 := by
  intro y hy
  obtain ⟨u, hm, rfl⟩ := List.mem_map.mp hy
  exact hu u hm

theorem sortedInsert_rep {l : LinkedList α} {cs : List (Nat × ListElement α)} (h : l.Rep cs)
    {a : Nat} (ha : l.heap.lookup a = none) (item : Option α) (k : Int) :
    ∃ l' ds, l.sortedInsert a item k = some l' ∧ l'.Rep ds ∧
      entries ds = insertByKey (k, item) (entries cs) := by
  have hfresh := h.seg.notMem_of_lookup_eq_none ha
  have hs' : Seg ListElement.next (l.heap.insert a ⟨none, k, item⟩) l.first cs none :=
    h.seg.insert _ hfresh
  rcases split_at_key k cs with hle | ⟨us, d, vs, rfl, hu, hd⟩
  · -- no larger key: the element goes at the end
    rcases List.eq_nil_or_concat' cs with rfl | ⟨ds, ⟨b, e⟩, rfl⟩
    · refine ⟨⟨l.heap.insert a ⟨none, k, item⟩, some a, some a⟩, [(a, ⟨none, k, item⟩)], ?_,
        ⟨⟨rfl, Finmap.lookup_insert _, rfl⟩, by simp⟩, rfl⟩
      rw [sortedInsert, seg_nil.mp h.seg]
    · have hl : l.last = some b := h.last (b, e) (by simp)
      have hb := hs'.lookup (c := (b, e)) (by simp)
      have hnx : e.next = none := (seg_append.mp h.seg).elim fun _ hr => (seg_cons.mp hr.2).2.2
      obtain ⟨c, ds', hc⟩ : ∃ c ds', ds ++ [(b, e)] = c :: ds' :=
        List.exists_cons_of_ne_nil (by simp)
      have hloop := sortedLoop_end (n := (l.heap.insert a ⟨none, k, item⟩).keys.card + 1) hs'
        (fun u hu => hle u (List.mem_of_mem_tail hu)) (Nat.le_succ_of_le hs'.length_le)
      rw [hc] at hs' hle
      obtain ⟨hf, hlc, -⟩ := seg_cons.mp hs'
      refine ⟨⟨(l.heap.insert a ⟨none, k, item⟩).insert b { e with next := some a }, l.first, some a⟩,
        ds ++ [(b, { e with next := some a }), (a, ⟨none, k, item⟩)], ?_, ⟨?_, by simp⟩, ?_⟩
      · simp only [sortedInsert, hf, Option.bind_eq_bind, hlc, Option.bind_some,
          hle c List.mem_cons_self, ite_false, hloop _ hf, hl, hb, Option.pure_def]
      · exact h.seg.insertAfter h.seg.nodup ha rfl hnx.symm
      · rw [← hc] at hle
        have := insertByKey_append (entries_key_le hle item) []
        rw [List.append_nil] at this
        rw [this]
        simp [insertByKey]
  · rcases List.eq_nil_or_concat' us with rfl | ⟨ds, ⟨b, e⟩, rfl⟩
    · -- in front of the list
      obtain ⟨hf, hlc, -⟩ := seg_cons.mp hs'
      refine ⟨⟨(l.heap.insert a ⟨none, k, item⟩).insert a ⟨l.first, k, item⟩, some a, l.last⟩,
        (a, ⟨l.first, k, item⟩) :: d :: vs, ?_, ⟨⟨rfl, Finmap.lookup_insert _, ?_⟩, ?_⟩, ?_⟩
      · simp only [sortedInsert, hf, Option.bind_eq_bind, hlc, Option.bind_some, hd, ite_true,
          Option.pure_def]
      · rw [Finmap.insert_insert]
        exact h.seg.insert _ hfresh
      · exact fun c hc => h.last c (by simpa using hc)
      · simp [insertByKey, hd]
    · -- between `b` and `d`
      rw [List.append_assoc, List.singleton_append] at h hs'
      have hb := hs'.lookup (c := (b, e)) (by simp)
      have hlen := hs'.length_le
      have hloop := sortedLoop_found (n := (l.heap.insert a ⟨none, k, item⟩).keys.card + 1) hs'
        (fun u hm => hu u (List.mem_of_mem_tail hm)) hd (by
          simp only [List.length_append, List.length_cons] at hlen; omega)
      obtain ⟨c, hf, hlc, hkc⟩ : ∃ c : Nat × ListElement α, l.first = some c.1 ∧
          (l.heap.insert a ⟨none, k, item⟩).lookup c.1 = some c.2 ∧ ¬ k < c.2.key := by
        cases ds with
        | nil => exact ⟨(b, e), (seg_cons.mp hs').1, hb, hu _ (by simp)⟩
        | cons u us => exact ⟨u, (seg_cons.mp hs').1, (seg_cons.mp hs').2.1, hu u (by simp)⟩
      refine ⟨⟨((l.heap.insert a ⟨none, k, item⟩).insert a ⟨e.next, k, item⟩).insert b
          { e with next := some a }, l.first, l.last⟩,
        ds ++ (b, { e with next := some a }) :: (a, ⟨e.next, k, item⟩) :: d :: vs, ?_, ⟨?_, ?_⟩, ?_⟩
      · simp only [sortedInsert, hf, Option.bind_eq_bind, hlc, Option.bind_some, hkc, ite_false,
          hloop _ hf, hb, Option.pure_def]
      · rw [Finmap.insert_insert]
        exact h.seg.insertAfter h.seg.nodup ha rfl rfl
      · intro c hc
        refine h.last c ?_
        rw [List.getLast?_append_of_ne_nil _ (by simp)] at hc ⊢
        simpa using hc
      · rw [← List.singleton_append, ← List.append_assoc, entries_append (ds ++ [(b, e)]),
          insertByKey_append (entries_key_le hu item)]
        simp [insertByKey, hd]

variable [DecidableEq α]

/-- The loop of `RemoveElement` stops at the first element with the item. -/
theorem removeLoop_found {h : Finmap fun _ : Nat => ListElement α} {item : Option α} {p : Option Nat}
    {us vs : List (Nat × ListElement α)} {c : Nat × ListElement α} {n : Nat} (previous : Option Nat)
    (hs : Seg ListElement.next h p (us ++ c :: vs) none) (hu : ∀ u ∈ us, u.2.item ≠ item)
    (hc : c.2.item = item) (hn : us.length < n) :
    removeLoop h item n previous p = some ((us.getLast?.map Prod.fst).or previous, some c.1) := by
  induction us generalizing n p previous with
  | nil =>
    obtain ⟨n, rfl⟩ := Nat.exists_eq_succ_of_ne_zero (Nat.ne_of_gt hn)
    obtain ⟨rfl, hl, -⟩ := seg_cons.mp hs
    simp [removeLoop, hl, hc]
  | cons u us ih =>
    obtain ⟨n, rfl⟩ := Nat.exists_eq_succ_of_ne_zero (Nat.ne_of_gt (Nat.zero_lt_of_lt hn))
    obtain ⟨rfl, hl, hs⟩ := seg_cons.mp hs
    have hne := hu u List.mem_cons_self
    simp only [removeLoop, Option.bind_eq_bind, hl, Option.bind_some, hne, ite_false]
    rw [ih _ hs (fun w hw => hu w (List.mem_cons_of_mem _ hw)) (Nat.lt_of_succ_lt_succ hn),
      List.getLast?_cons]
    cases us.getLast? <;> rfl

theorem removeLoop_notFound {h : Finmap fun _ : Nat => ListElement α} {item : Option α}
    {p : Option Nat} {us : List (Nat × ListElement α)} {n : Nat} (previous : Option Nat)
    (hs : Seg ListElement.next h p us none) (hu : ∀ u ∈ us, u.2.item ≠ item) (hn : us.length < n) :
    ∃ q, removeLoop h item n previous p = some (q, none) := by
  induction us generalizing n p previous with
  | nil =>
    obtain ⟨n, rfl⟩ := Nat.exists_eq_succ_of_ne_zero (Nat.ne_of_gt hn)
    rw [seg_nil.mp hs]
    exact ⟨_, rfl⟩
  | cons u us ih =>
    obtain ⟨n, rfl⟩ := Nat.exists_eq_succ_of_ne_zero (Nat.ne_of_gt (Nat.zero_lt_of_lt hn))
    obtain ⟨rfl, hl, hs⟩ := seg_cons.mp hs
    have hne := hu u List.mem_cons_self
    simp only [removeLoop, Option.bind_eq_bind, hl, Option.bind_some, hne, ite_false]
    exact ih _ hs (fun w hw => hu w (List.mem_cons_of_mem _ hw)) (Nat.lt_of_succ_lt_succ hn)

theorem removeElement_absent {l : LinkedList α} {cs : List (Nat × ListElement α)} (h : l.Rep cs)
    {item : Option α} (hi : ∀ c ∈ cs, c.2.item ≠ item) : l.removeElement item = some (none, l) := by
  cases cs with
  | nil => rw [removeElement, seg_nil.mp h.seg]
  | cons c cs =>
    obtain ⟨hf, hc, -⟩ := seg_cons.mp h.seg
    have hne := hi c List.mem_cons_self
    obtain ⟨q, hq⟩ := removeLoop_notFound none h.seg hi
      (Nat.lt_succ_of_le h.seg.length_le)
    rw [hf] at hq
    simp only [removeElement, hf, Option.bind_eq_bind, hc, Option.bind_some, hne, ite_false, hq,
      Option.pure_def]

theorem removeElement_head {l : LinkedList α} {c : Nat × ListElement α}
    {cs : List (Nat × ListElement α)} (h : l.Rep (c :: cs)) :
    ∃ l', l.removeElement c.2.item = some (c.2.item, l') ∧ l'.Rep cs := by
  obtain ⟨hf, hc, -⟩ := seg_cons.mp h.seg
  refine ⟨_, ?_, h.tail l.last fun _ => rfl⟩
  simp only [removeElement, hf, Option.bind_eq_bind, hc, Option.bind_some, ite_true,
    Option.pure_def]

/-- Behind the head, `RemoveElement` unlinks the element and leaves `last` as
it is. -/
theorem removeElement_behind {l : LinkedList α} {us vs : List (Nat × ListElement α)}
    {b c : Nat × ListElement α} (h : l.Rep (us ++ b :: c :: vs))
    (hu : ∀ u ∈ us ++ [b], u.2.item ≠ c.2.item) :
    ∃ l', l.removeElement c.2.item = some (c.2.item, l') ∧ l'.last = l.last ∧
      Seg ListElement.next l'.heap l'.first (us ++ (b.1, { b.2 with next := c.2.next }) :: vs) none := by
  have hb : l.heap.lookup b.1 = some b.2 := h.seg.lookup (by simp)
  have hc : l.heap.lookup c.1 = some c.2 := h.seg.lookup (by simp)
  have hs : Seg ListElement.next l.heap l.first ((us ++ [b]) ++ c :: vs) none := by
    simpa using h.seg
  have hlen := hs.length_le
  have hloop := removeLoop_found none (n := l.heap.keys.card + 1) hs hu rfl (by
    rw [List.length_append] at hlen; simp only [List.length_cons] at hlen; omega)
  obtain ⟨d, hd, hne, hf⟩ : ∃ d : Nat × ListElement α,
      l.heap.lookup d.1 = some d.2 ∧ d.2.item ≠ c.2.item ∧ l.first = some d.1 := by
    cases us with
    | nil => exact ⟨b, hb, hu b (by simp), (seg_cons.mp h.seg).1⟩
    | cons u us =>
      have hm : u ∈ u :: us ++ b :: c :: vs := List.mem_cons_self
      exact ⟨u, h.seg.lookup hm, hu u List.mem_cons_self, (seg_cons.mp h.seg).1⟩
  rw [hf] at hloop
  refine ⟨⟨(l.heap.insert b.1 { b.2 with next := c.2.next }).erase c.1, l.first, l.last⟩, ?_, rfl,
    h.seg.removeAfter { b.2 with next := c.2.next } h.seg.nodup rfl⟩
  simp only [removeElement, hf, Option.bind_eq_bind, hd, Option.bind_some, hne, ite_false, hloop,
    Option.pure_def, List.getLast?_append, List.getLast?_singleton, Option.some_or, Option.map_some,
    hc, hb]

theorem search_rep {l : LinkedList α} {cs : List (Nat × ListElement α)} (h : l.Rep cs)
    (item : Option α) : l.search item = some (decide (item ∈ (entries cs).map Prod.snd)) := by
  have key : ∀ {p : Option Nat} {n : Nat}, Seg ListElement.next l.heap p cs none → cs.length < n →
      searchLoop l.heap item n p = some (decide (item ∈ (entries cs).map Prod.snd)) := by
    clear h
    induction cs with
    | nil =>
      intro p n hs hn
      obtain ⟨n, rfl⟩ := Nat.exists_eq_succ_of_ne_zero (Nat.ne_of_gt hn)
      rw [seg_nil.mp hs]
      simp [searchLoop]
    | cons c cs ih =>
      intro p n hs hn
      obtain ⟨n, rfl⟩ := Nat.exists_eq_succ_of_ne_zero (Nat.ne_of_gt (Nat.zero_lt_of_lt hn))
      obtain ⟨rfl, hl, hs⟩ := seg_cons.mp hs
      simp only [searchLoop, Option.bind_eq_bind, hl, Option.bind_some, entries_cons, List.map_cons,
        List.mem_cons]
      split
      · rename_i he
        simp [he]
      · rename_i he
        rw [ih hs (Nat.lt_of_succ_lt_succ hn)]
        simp [Ne.symm he]
  exact key h.seg (Nat.lt_succ_of_le h.seg.length_le)

end LinkedList

/-! ## Sequences of calls -/

variable [DecidableEq α]

/-- The call takes the final element out of a list that has other elements. -/
def Op.removesTail : Op α → List (Entry α) → Prop
  | .removeElement item, xs =>
    ∃ ys y, ys ≠ [] ∧ xs = ys ++ [y] ∧ y.2 = item ∧ item ∉ ys.map Prod.snd
  | _, _ => False

namespace LinkedList

/-- Every other call returns the abstract result and keeps the representation,
wherever the allocator puts the new element. -/
theorem call_represents {l : LinkedList α} {xs : List (Entry α)} (h : l.Represents xs) {a : Nat}
    (ha : l.heap.lookup a = none) {op : Op α} (hop : ¬ op.removesTail xs) :
    ∃ l', l.call a op = some ((op.abs xs).1, l') ∧ l'.Represents (op.abs xs).2 := by
  obtain ⟨cs, hr, rfl⟩ := represents_iff.mp h
  cases op with
  | append item =>
    obtain ⟨l', ds, he, hr', hd⟩ := append_rep hr ha item
    exact ⟨l', by simp [call, he, Op.abs], represents_iff.mpr ⟨ds, hr', hd⟩⟩
  | prepend item =>
    obtain ⟨ds, hr', hd⟩ := prepend_rep hr ha item
    exact ⟨_, rfl, represents_iff.mpr ⟨ds, hr', hd⟩⟩
  | remove =>
    obtain ⟨l', he, hr'⟩ := sortedRemove_rep hr
    refine ⟨l', by simp [call, remove, he, Op.abs], represents_iff.mpr ⟨_, hr', ?_⟩⟩
    cases cs <;> rfl
  | sortedRemove =>
    obtain ⟨l', he, hr'⟩ := sortedRemove_rep hr
    refine ⟨l', by simp [call, he, Op.abs], represents_iff.mpr ⟨_, hr', ?_⟩⟩
    cases cs <;> rfl
  | search item =>
    exact ⟨l, by simp [call, search_rep hr, Op.abs], h⟩
  | isEmpty =>
    refine ⟨l, ?_, h⟩
    simp only [call, Op.abs, hr.isEmpty_eq]
    cases cs <;> rfl
  | sortedInsert item k =>
    obtain ⟨l', ds, he, hr', hd⟩ := sortedInsert_rep hr ha item k
    exact ⟨l', by simp [call, he, Op.abs], represents_iff.mpr ⟨ds, hr', hd⟩⟩
  | removeElement item =>
    by_cases hi : item ∈ (entries cs).map Prod.snd
    · obtain ⟨c₀, hm, he⟩ := mem_entries_snd.mp hi
      obtain ⟨c, us, vs, hu, hc, rfl, hers⟩ := List.exists_of_eraseP
        (p := fun c : Nat × ListElement α => decide (c.2.item = item)) hm (by simpa using he)
      simp only [decide_eq_true_eq] at hu hc
      have habs : ((Op.removeElement item).abs (entries (us ++ c :: vs))).2 = entries (us ++ vs) := by
        rw [← hers]
        simp only [Op.abs, entries, List.eraseP_map]
        rfl
      rw [habs]
      simp only [Op.abs, hi, ite_true]
      subst hc
      rcases List.eq_nil_or_concat' us with rfl | ⟨ds, b, rfl⟩
      · obtain ⟨l', hl', hr'⟩ := removeElement_head hr
        exact ⟨l', by simp [call, hl'], represents_iff.mpr ⟨_, hr', rfl⟩⟩
      · rw [List.append_assoc, List.singleton_append] at hr
        obtain ⟨l', hl', hlast, hs'⟩ := removeElement_behind hr hu
        refine ⟨l', by simp [call, hl'], represents_iff.mpr ⟨_, ⟨hs', fun d hd => ?_⟩, by simp⟩⟩
        cases vs with
        | nil =>
          refine absurd ⟨entries (ds ++ [b]), (c.2.key, c.2.item), by simp, by simp, rfl, ?_⟩ hop
          rw [mem_entries_snd]
          rintro ⟨u, hm, he⟩
          exact hu u hm he
        | cons v vs =>
          rw [hlast]
          refine hr.last d ?_
          rw [List.getLast?_append_of_ne_nil _ (by simp)] at hd ⊢
          simpa using hd
    · have hne : ∀ c ∈ cs, c.2.item ≠ item := fun c hc he => hi (mem_entries_snd.mpr ⟨c, hc, he⟩)
      refine ⟨l, by simp [call, removeElement_absent hr hne, Op.abs, hi], ?_⟩
      have : (entries cs).eraseP (fun x => x.2 = item) = entries cs :=
        List.eraseP_of_forall_not fun x hx => by
          simpa using fun e => hi (List.mem_map.mpr ⟨x, hx, e⟩)
      rwa [Op.abs, this]

/-- After the removal of the final element of a longer list, `last` is not the
final element. -/
theorem removeElement_tail {l : LinkedList α} {xs : List (Entry α)} (h : l.Represents xs) {a : Nat}
    {op : Op α} (hop : op.removesTail xs) {r : Ret α} {l' : LinkedList α}
    (hc : l.call a op = some (r, l')) : ¬ l'.Represents (op.abs xs).2 := by
  obtain ⟨cs, hr, rfl⟩ := represents_iff.mp h
  cases op with
  | removeElement item =>
    obtain ⟨ys, y, hne, hxs, rfl, hy⟩ := hop
    rcases List.eq_nil_or_concat' cs with rfl | ⟨us, c, rfl⟩
    · simp at hxs
    obtain ⟨rfl, rfl⟩ : entries us = ys ∧ (c.2.key, c.2.item) = y := by
      rw [entries_append] at hxs
      have := List.append_inj' hxs rfl
      exact ⟨this.1, by simpa using this.2⟩
    rcases List.eq_nil_or_concat' us with rfl | ⟨ds, b, rfl⟩
    · exact absurd rfl hne
    rw [List.append_assoc, List.singleton_append] at hr
    obtain ⟨l₁, hl₁, hlast, hs'⟩ := removeElement_behind hr fun u hu he =>
      hy (mem_entries_snd.mpr ⟨u, hu, he⟩)
    simp only [call, hl₁, Option.map_some, Option.some.injEq, Prod.mk.injEq] at hc
    obtain ⟨-, rfl⟩ := hc
    intro hrep
    obtain ⟨es, hr', -⟩ := represents_iff.mp hrep
    obtain rfl := hr'.seg.unique hs'
    have h₁ := hr'.last (b.1, { b.2 with next := c.2.next }) (by simp)
    have h₂ := hr.last c (by simp)
    rw [hlast, h₂, Option.some.injEq] at h₁
    have hn := hr.seg.nodup
    simp [h₁, List.nodup_append] at hn
  | _ => exact absurd hop id

end LinkedList

/-- Performed on `l`, which stands for `xs`, every call of the sequence returns
what the mathematical sequence gives, and after every call the list stands for
the mathematical sequence; wherever the allocator puts the elements. -/
def Refines : List (Op α) → LinkedList α → List (Entry α) → Prop
  | [], l, xs => l.Represents xs
  | op :: ops, l, xs => l.Represents xs ∧ ∀ a, l.heap.lookup a = none →
    ∃ l', l.call a op = some ((op.abs xs).1, l') ∧ Refines ops l' (op.abs xs).2

/-- No call of the sequence takes the final element out of a list that has
other elements. -/
def KeepsTail : List (Op α) → List (Entry α) → Prop
  | [], _ => True
  | op :: ops, xs => ¬ op.removesTail xs ∧ KeepsTail ops (op.abs xs).2

omit [DecidableEq α] in
theorem exists_fresh (l : LinkedList α) : ∃ a, l.heap.lookup a = none := by
  obtain ⟨a, ha⟩ := Infinite.exists_notMem_finset l.heap.keys
  exact ⟨a, Finmap.lookup_eq_none.mpr fun h => ha (Finmap.mem_keys.mpr h)⟩

theorem refines_from_iff {ops : List (Op α)} {l : LinkedList α} {xs : List (Entry α)}
    (h : l.Represents xs) : Refines ops l xs ↔ KeepsTail ops xs := by
  induction ops generalizing l xs with
  | nil => exact ⟨fun _ => trivial, fun _ => h⟩
  | cons op ops ih =>
    constructor
    · rintro ⟨-, hops⟩
      obtain ⟨a, ha⟩ := exists_fresh l
      obtain ⟨l', hc, hr⟩ := hops a ha
      have hrep : l'.Represents (op.abs xs).2 := by
        cases ops with
        | nil => exact hr
        | cons => exact hr.1
      exact ⟨fun ht => LinkedList.removeElement_tail h ht hc hrep, (ih hrep).mp hr⟩
    · rintro ⟨hop, hops⟩
      refine ⟨h, fun a ha => ?_⟩
      obtain ⟨l', hc, hr⟩ := LinkedList.call_represents h ha hop
      exact ⟨l', hc, (ih hr).mpr hops⟩

omit [DecidableEq α] in
theorem represents_new : (LinkedList.new : LinkedList α).Represents [] :=
  LinkedList.represents_iff.mpr ⟨[], ⟨rfl, fun c hc => by cases hc⟩, rfl⟩

/-- On a new list, a sequence of calls is performed as on the mathematical
sequence exactly when no call in it removes the final element of a longer
list. -/
theorem refines_iff (ops : List (Op α)) : Refines ops LinkedList.new [] ↔ KeepsTail ops [] :=
  refines_from_iff represents_new

/-- `Append(1); Append(2); RemoveElement(2)` leaves `last` on the deleted
element, so `Append(3)` writes through it. -/
theorem append_after_tail_removal :
    ¬ Refines [.append (some 1), .append (some 2), .removeElement (some 2), .append (some (3 : Nat))]
      LinkedList.new [] := by
  intro h
  obtain ⟨-, h⟩ := h
  obtain ⟨l₁, h₁, -, h⟩ := h 10 rfl
  cases h₁
  obtain ⟨l₂, h₂, -, h⟩ := h 20 (by decide)
  cases h₂
  obtain ⟨l₃, h₃, -, h⟩ := h 30 (by decide)
  cases h₃
  obtain ⟨l₄, h₄, -⟩ := h 30 (by decide)
  cases h₄

end Nachos.Threads
