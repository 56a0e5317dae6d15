import Mathlib.Data.Finmap
import Mathlib.Data.Finset.Card
import Mathlib.Data.List.Nodup

/-!
# Chains of nodes in a heap

A heap of nodes is a finite map from addresses; every node has a `next`
pointer, `none` for a null one. `Seg next h p cs q` says that following the
pointers from `p` passes the cells `cs` (addresses with their nodes) and then
arrives at `q`; a list is a segment that ends at `none`.

* `seg_append`: a segment splits wherever its cells do;
* `Seg.congr`: a segment only depends on its own cells;
* `Seg.unique`, `Seg.nodup`: a segment to the null pointer is determined by
  where it starts, so it never passes the same address twice;
* `Seg.length_le`: so it has at most as many cells as the heap;
* `Seg.insertAfter`, `Seg.removeAfter`: linking a node in and out.
-/

namespace Nachos.Framework

variable {ν : Type*} {next : ν → Option Nat}

/-- Following `next` from `p` passes the cells `cs` and arrives at `q`. -/
def Seg (next : ν → Option Nat) (h : Finmap fun _ : Nat => ν) :
    Option Nat → List (Nat × ν) → Option Nat → Prop
  | p, [], q => p = q
  | p, c :: cs, q => p = some c.1 ∧ h.lookup c.1 = some c.2 ∧ Seg next h (next c.2) cs q

section

variable {h h' : Finmap fun _ : Nat => ν} {p q r : Option Nat} {cs ds : List (Nat × ν)}

@[simp] theorem seg_nil : Seg next h p [] q ↔ p = q := Iff.rfl

@[simp] theorem seg_cons {c : Nat × ν} : Seg next h p (c :: cs) q ↔
    p = some c.1 ∧ h.lookup c.1 = some c.2 ∧ Seg next h (next c.2) cs q := Iff.rfl

theorem seg_append : Seg next h p (cs ++ ds) q ↔
    ∃ r, Seg next h p cs r ∧ Seg next h r ds q := by
  induction cs generalizing p with
  | nil => simp
  | cons c cs ih =>
    simp only [List.cons_append, seg_cons, ih]
    constructor
    · rintro ⟨hp, hc, r, h₁, h₂⟩
      exact ⟨r, ⟨hp, hc, h₁⟩, h₂⟩
    · rintro ⟨r, ⟨hp, hc, h₁⟩, h₂⟩
      exact ⟨hp, hc, r, h₁, h₂⟩

theorem Seg.lookup (hs : Seg next h p cs q) {c : Nat × ν} (hc : c ∈ cs) :
    h.lookup c.1 = some c.2 := by
  induction cs generalizing p with
  | nil => cases hc
  | cons d cs ih =>
    obtain ⟨-, hd, hs⟩ := seg_cons.mp hs
    rcases List.mem_cons.mp hc with rfl | hc
    · exact hd
    · exact ih hs hc

/-- A segment only depends on the nodes at its own addresses. -/
theorem Seg.congr (hs : Seg next h p cs q) (he : ∀ c ∈ cs, h'.lookup c.1 = h.lookup c.1) :
    Seg next h' p cs q := by
  induction cs generalizing p with
  | nil => exact hs
  | cons c cs ih =>
    obtain ⟨hp, hc, hs⟩ := seg_cons.mp hs
    exact ⟨hp, (he c List.mem_cons_self).trans hc,
      ih hs fun d hd => he d (List.mem_cons_of_mem _ hd)⟩

/-- Writing a node that is not on the segment keeps it. -/
theorem Seg.insert (hs : Seg next h p cs q) {a : Nat} (e : ν) (ha : a ∉ cs.map Prod.fst) :
    Seg next (h.insert a e) p cs q :=
  hs.congr fun _ hc => Finmap.lookup_insert_of_ne h fun e => ha (e ▸ List.mem_map_of_mem hc)

/-- Freeing a node that is not on the segment keeps it. -/
theorem Seg.erase (hs : Seg next h p cs q) {a : Nat} (ha : a ∉ cs.map Prod.fst) :
    Seg next (h.erase a) p cs q :=
  hs.congr fun _ hc => Finmap.lookup_erase_ne fun e => ha (e ▸ List.mem_map_of_mem hc)

theorem Seg.notMem_of_lookup_eq_none (hs : Seg next h p cs q) {a : Nat} (ha : h.lookup a = none) :
    a ∉ cs.map Prod.fst := by
  intro hm
  obtain ⟨c, hc, rfl⟩ := List.mem_map.mp hm
  rw [hs.lookup hc] at ha
  cases ha

/-- A segment to the null pointer is determined by where it starts. -/
theorem Seg.unique (hs : Seg next h p cs none) (ht : Seg next h p ds none) : cs = ds := by
  induction cs generalizing p ds with
  | nil =>
    cases ds with
    | nil => rfl
    | cons d ds =>
      rw [seg_nil.mp hs] at ht
      cases (seg_cons.mp ht).1
  | cons c cs ih =>
    obtain ⟨hp, hc, hs⟩ := seg_cons.mp hs
    cases ds with
    | nil => rw [seg_nil.mp ht] at hp; cases hp
    | cons d ds =>
      obtain ⟨hq, hd, ht⟩ := seg_cons.mp ht
      have e₁ : c.1 = d.1 := by rw [hp] at hq; exact Option.some.inj hq
      have e₂ : c.2 = d.2 := by rw [e₁, hd] at hc; exact (Option.some.inj hc).symm
      rw [e₂] at hs
      rw [ih hs ht, Prod.ext e₁ e₂]

/-- A segment to the null pointer passes no address twice: after the second
time it would have to go on as after the first. -/
theorem Seg.nodup (hs : Seg next h p cs none) : (cs.map Prod.fst).Nodup := by
  induction cs generalizing p with
  | nil => exact List.nodup_nil
  | cons c cs ih =>
    obtain ⟨-, hc, hs⟩ := seg_cons.mp hs
    refine List.nodup_cons.mpr ⟨fun hm => ?_, ih hs⟩
    obtain ⟨d, hd, e⟩ := List.mem_map.mp hm
    obtain ⟨us, vs, rfl⟩ := List.append_of_mem hd
    have hd' := hs.lookup hd
    rw [e, hc] at hd'
    obtain ⟨r, -, hr⟩ := seg_append.mp hs
    have hv := (seg_cons.mp hr).2.2
    rw [← Option.some.inj hd'] at hv
    have := congrArg List.length (hs.unique hv)
    simp only [List.length_append, List.length_cons] at this
    omega

/-- A list has at most as many cells as the heap. -/
theorem Seg.length_le (hs : Seg next h p cs none) : cs.length ≤ h.keys.card := by
  rw [← List.length_map Prod.fst, ← List.toFinset_card_of_nodup hs.nodup]
  refine Finset.card_le_card fun a ha => ?_
  obtain ⟨c, hc, rfl⟩ := List.mem_map.mp (List.mem_toFinset.mp ha)
  exact Finmap.mem_keys.mpr (Finmap.mem_of_lookup_eq_some (hs.lookup hc))

/-- Linking a new node at `a` in after the cell at `b`. -/
theorem Seg.insertAfter {a b : Nat} {e e' x : ν}
    (hs : Seg next h p (cs ++ (b, e) :: ds) q) (hn : ((cs ++ (b, e) :: ds).map Prod.fst).Nodup)
    (ha : h.lookup a = none) (he : next e' = some a) (hx : next x = next e) :
    Seg next ((h.insert a x).insert b e') p (cs ++ (b, e') :: (a, x) :: ds) q := by
  have hf := hs.notMem_of_lookup_eq_none ha
  obtain ⟨r, h₁, hb, hlb, h₂⟩ := seg_append.mp hs
  simp only [List.map_append, List.map_cons, List.mem_append, List.mem_cons, not_or] at hf
  simp only [List.map_append, List.map_cons, List.nodup_append, List.nodup_cons, List.mem_cons,
    ne_eq, forall_eq_or_imp] at hn
  obtain ⟨-, ⟨hbd, -⟩, hcb⟩ := hn
  have hbc : b ∉ cs.map Prod.fst := fun hm => (hcb b hm).1 rfl
  refine seg_append.mpr ⟨r, (h₁.insert x hf.1).insert e' hbc, hb, Finmap.lookup_insert _, he, ?_, ?_⟩
  · rw [Finmap.lookup_insert_of_ne _ hf.2.1, Finmap.lookup_insert]
  · rw [hx]
    exact (h₂.insert x hf.2.2).insert e' hbd

/-- Unlinking the cell at `c` behind the cell at `b`, and freeing it. -/
theorem Seg.removeAfter {b c : Nat} {e f : ν} (hs : Seg next h p (cs ++ (b, e) :: (c, f) :: ds) q)
    (e' : ν)
    (hn : ((cs ++ (b, e) :: (c, f) :: ds).map Prod.fst).Nodup) (he : next e' = next f) :
    Seg next ((h.insert b e').erase c) p (cs ++ (b, e') :: ds) q := by
  obtain ⟨r, h₁, hb, hlb, hc, hlc, h₂⟩ := seg_append.mp hs
  simp only [List.map_append, List.map_cons, List.nodup_append, List.nodup_cons, List.mem_cons,
    ne_eq, forall_eq_or_imp, not_or] at hn
  obtain ⟨-, ⟨⟨hbc, hbd⟩, hcd, -⟩, hcs⟩ := hn
  have hb' : b ∉ cs.map Prod.fst := fun hm => (hcs b hm).1 rfl
  have hc' : c ∉ cs.map Prod.fst := fun hm => (hcs c hm).2.1 rfl
  refine seg_append.mpr ⟨r, (h₁.insert e' hb').erase hc', hb, ?_, ?_⟩
  · rw [Finmap.lookup_erase_ne hbc, Finmap.lookup_insert]
  · rw [he]
    exact (h₂.insert e' hbd).erase hcd

end

end Nachos.Framework
