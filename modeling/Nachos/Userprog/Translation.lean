import Nachos.Userprog.AddrSpace

/-!
# The kernel's translation and the hardware's (addrspace.cc, translate.cc)

`AddrSpace::Translate` and `Machine::Translate` read the same table, the one
with `int`s and the other with `unsigned int`s.

* `physAddr`: where an address leads, by the table alone;
* `translateAddr_spec`, `translate_of_some`, `translate_of_none`: what the two
  routines make of it;
* `translations_agree`: they agree on every address, unless the table is so
  long that addresses which are negative as `int`s have pages in it.
-/

namespace Nachos

open Nachos.Framework

variable {table table' : List TranslationEntry} {v p i : Nat} {e : TranslationEntry}

/-- The valid entries lead to frames of main memory. -/
def InRange (table : List TranslationEntry) : Prop :=
  ∀ e ∈ table, e.valid = true → e.physicalPage.toNat < numPhysPages

/-- Where the address `v` leads. -/
def physAddr (table : List TranslationEntry) (v : Nat) : Option Nat :=
  (table[v / pageSize]?).bind fun e =>
    if e.valid then some (e.physicalPage.toNat * pageSize + v % pageSize) else none

theorem physAddr_eq_some : physAddr table v = some p ↔ ∃ e, table[v / pageSize]? = some e ∧
    e.valid = true ∧ p = e.physicalPage.toNat * pageSize + v % pageSize := by
  unfold physAddr
  constructor
  · intro h
    obtain ⟨e, he, h⟩ := Option.bind_eq_some_iff.mp h
    split at h
    next hvalid => exact ⟨e, he, hvalid, (Option.some.inj h).symm⟩
    next => cases h
  · rintro ⟨e, he, hvalid, rfl⟩
    rw [he, Option.bind_some, if_pos hvalid]

theorem physAddr_eq_none : physAddr table v = none ↔ ∀ e, table[v / pageSize]? = some e →
    e.valid = false := by
  constructor
  · intro h e he
    by_contra hvalid
    have hsome := physAddr_eq_some.mpr ⟨e, he, by simpa using hvalid, rfl⟩
    rw [h] at hsome
    cases hsome
  · intro h
    by_contra hne
    obtain ⟨p, hp⟩ := Option.ne_none_iff_exists'.mp hne
    obtain ⟨e, he, hvalid, -⟩ := physAddr_eq_some.mp hp
    rw [h e he] at hvalid
    cases hvalid

theorem frame_add_div {f j : Nat} (hj : j < pageSize) : (f * pageSize + j) / pageSize = f := by
  unfold pageSize at *
  omega

/-- Use and dirty bits do not matter. -/
theorem physAddr_congr (h : table'.map TranslationEntry.mapping = table.map TranslationEntry.mapping)
    (v : Nat) : physAddr table' v = physAddr table v := by
  have hentry : (table'[v / pageSize]?).map TranslationEntry.mapping =
      (table[v / pageSize]?).map TranslationEntry.mapping := by
    rw [← List.getElem?_map, ← List.getElem?_map, h]
  unfold physAddr
  cases he : table[v / pageSize]? with
  | none =>
    rw [he, Option.map_none, Option.map_eq_none_iff] at hentry
    rw [hentry]
  | some e =>
    rw [he, Option.map_some, Option.map_eq_some_iff] at hentry
    obtain ⟨e', he', hmap⟩ := hentry
    simp only [TranslationEntry.mapping, Prod.mk.injEq] at hmap
    rw [he', Option.bind_some, Option.bind_some, hmap.1, hmap.2.1]

theorem inRange_congr (h : table'.map TranslationEntry.mapping = table.map TranslationEntry.mapping)
    (hr : InRange table) : InRange table' := by
  intro e' he' hvalid
  obtain ⟨e, he, hmap⟩ := List.mem_map.mp (h ▸ List.mem_map_of_mem he')
  simp only [TranslationEntry.mapping, Prod.mk.injEq] at hmap
  rw [← hmap.1]
  exact hr e he (hmap.2.1.trans hvalid)

theorem physAddr_lt (hr : InRange table) (h : physAddr table v = some p) : p < memorySize := by
  obtain ⟨e, he, hvalid, rfl⟩ := physAddr_eq_some.mp h
  have hlt := hr e (List.mem_of_getElem? he) hvalid
  have hoff := Nat.mod_lt v (show 0 < pageSize by decide)
  unfold memorySize numPhysPages pageSize at *
  omega

/-! ## `AddrSpace::Translate` -/

theorem toInt_eq_toNat {w : BitVec 32} (h : w.toNat < numPhysPages) : w.toInt = w.toNat := by
  rw [BitVec.toInt_eq_toNat_cond, if_pos]
  unfold numPhysPages at h
  omega

theorem translateAddr_of_some {numPages : Nat} (hn : table.length = numPages) (hr : InRange table)
    (h : physAddr table v = some p) : ∃ table', translateAddr table numPages v = .ok (↑p, table') ∧
      table'.map TranslationEntry.mapping = table.map TranslationEntry.mapping := by
  obtain ⟨e, he, hvalid, rfl⟩ := physAddr_eq_some.mp h
  have hlt : v / pageSize < table.length := (List.getElem?_eq_some_iff.mp he).1
  refine ⟨table.set (v / pageSize) { e with use := true }, ?_, map_mapping_set he rfl⟩
  unfold translateAddr
  rw [if_neg (by omega), Int.toNat_natCast, if_neg (by omega), he]
  simp only [deref, bind, Except.bind, hvalid, if_true]
  rw [toInt_eq_toNat (hr e (List.mem_of_getElem? he) hvalid)]
  push_cast
  rfl

theorem translateAddr_of_none {numPages : Nat} {a : Int} (hn : table.length = numPages)
    (h : a < 0 ∨ physAddr table a.toNat = none) :
    translateAddr table numPages a = .ok (-1, table) := by
  unfold translateAddr
  by_cases ha : a < 0
  · rw [if_pos ha]
  · rw [if_neg ha]
    have hnone := h.resolve_left ha
    dsimp only
    split
    · rfl
    next hlt =>
      have hlt : a.toNat / pageSize < table.length := by omega
      have he := List.getElem?_eq_getElem hlt
      have hvalid := physAddr_eq_none.mp hnone _ he
      rw [he]
      simp only [deref, bind, Except.bind, hvalid]
      rfl

theorem translateAddr_spec {numPages : Nat} (hn : table.length = numPages) (hr : InRange table)
    (a : Int) : ∃ p table', translateAddr table numPages a = .ok (p, table') ∧
      table'.map TranslationEntry.mapping = table.map TranslationEntry.mapping ∧
      (0 ≤ p ↔ 0 ≤ a ∧ physAddr table a.toNat ≠ none) ∧
      (0 ≤ p → physAddr table a.toNat = some p.toNat) := by
  by_cases h : a < 0 ∨ physAddr table a.toNat = none
  · refine ⟨-1, table, translateAddr_of_none hn h, rfl, ⟨fun h => by omega, fun h' => ?_⟩,
      fun h => by omega⟩
    exact absurd (h.resolve_left (by omega)) h'.2
  · rw [not_or, Int.not_lt] at h
    obtain ⟨p, hp⟩ := Option.ne_none_iff_exists'.mp h.2
    obtain ⟨table', ht, hmap⟩ := translateAddr_of_some hn hr hp
    rw [Int.toNat_of_nonneg h.1] at ht
    exact ⟨p, table', ht, hmap, ⟨fun _ => h, fun _ => by omega⟩, fun _ => hp⟩

/-! ## `Machine::Translate` -/

variable {m : Machine} {virtAddr : BitVec 32}

theorem translate_of_some (hn : m.pageTableSize = m.pageTable.length) (hr : InRange m.pageTable)
    (h : physAddr m.pageTable virtAddr.toNat = some p) :
    ∃ m', m.translate virtAddr 1 false = .ok (p, m') := by
  have hp := physAddr_lt hr h
  obtain ⟨e, he, hvalid, rfl⟩ := physAddr_eq_some.mp h
  have hlt := (List.getElem?_eq_some_iff.mp he).1
  have hframe := hr e (List.mem_of_getElem? he) hvalid
  refine ⟨{ m with
    pageTable := m.pageTable.set (virtAddr.toNat / pageSize) { e with use := true } }, ?_⟩
  unfold Machine.translate
  rw [if_neg (by omega)]
  dsimp only
  rw [if_neg (by omega), he]
  simp only [hvalid, Bool.true_eq_false, if_false, Bool.false_eq_true, and_false]
  rw [if_neg (by omega), if_pos (by omega), Bool.or_false]

/-- Outside the table it is an address error, and a page that is not valid is a page fault. -/
theorem translate_of_none (hn : m.pageTableSize = m.pageTable.length)
    (h : physAddr m.pageTable virtAddr.toNat = none) :
    m.translate virtAddr 1 false = .error (.exception .addressError virtAddr m) ∨
      m.translate virtAddr 1 false = .error (.exception .pageFault virtAddr m) := by
  unfold Machine.translate
  rw [if_neg (by omega)]
  dsimp only
  by_cases hlt : virtAddr.toNat / pageSize < m.pageTable.length
  · have he := List.getElem?_eq_getElem hlt
    have hvalid := physAddr_eq_none.mp h _ he
    rw [if_neg (by omega), he]
    simp only [hvalid, if_true]
    exact .inr trivial
  · rw [if_pos (by omega)]
    exact .inl rfl

/-! ## Agreement -/

/-- The two routines agree on the address `virtAddr`. -/
def TranslationsAgree (table : List TranslationEntry) (virtAddr : BitVec 32) : Prop :=
  ∀ m : Machine, m.pageTable = table → m.pageTableSize = table.length →
    ∃ p table', translateAddr table table.length virtAddr.toInt = .ok (p, table') ∧
      (0 ≤ p ↔ ∃ q m', m.translate virtAddr 1 false = .ok (q, m')) ∧
      (∀ q m', m.translate virtAddr 1 false = .ok (q, m') → p = q ∧ 0 ≤ p ∧ p < memorySize) ∧
      (p = -1 ↔ m.translate virtAddr 1 false = .error (.exception .addressError virtAddr m) ∨
        m.translate virtAddr 1 false = .error (.exception .pageFault virtAddr m))

theorem agree_of_some {table : List TranslationEntry} {virtAddr : BitVec 32} {p : Nat}
    (hr : InRange table) (hsmall : virtAddr.toNat < 2 ^ 31)
    (h : physAddr table virtAddr.toNat = some p) : TranslationsAgree table virtAddr := by
  rintro m rfl hn
  obtain ⟨m', hm⟩ := translate_of_some hn hr h
  have hint : virtAddr.toInt = virtAddr.toNat := by
    rw [BitVec.toInt_eq_toNat_cond, if_pos (by omega)]
  obtain ⟨table', ht, -⟩ := translateAddr_of_some rfl hr h
  have hlt := physAddr_lt hr h
  refine ⟨p, table', hint ▸ ht, ?_, fun q m'' hq => ?_, ?_⟩
  · exact ⟨fun _ => ⟨p, m', hm⟩, fun _ => by omega⟩
  · rw [hm] at hq
    cases hq
    exact ⟨rfl, by omega, by omega⟩
  · rw [hm]
    constructor
    · intro h
      omega
    · rintro (h | h) <;> cases h

/-- An address that the hardware does not translate is refused, also when it is negative as an
`int`. -/
theorem agree_of_none {table : List TranslationEntry} {virtAddr : BitVec 32}
    (h : physAddr table virtAddr.toNat = none) : TranslationsAgree table virtAddr := by
  rintro m rfl hn
  have hm := translate_of_none hn h
  have hnone : virtAddr.toInt < 0 ∨ physAddr m.pageTable virtAddr.toInt.toNat = none := by
    by_cases hneg : virtAddr.toInt < 0
    · exact .inl hneg
    · refine .inr ?_
      rw [BitVec.toInt_eq_toNat_cond] at hneg ⊢
      split
      · exact h
      next hbig =>
        rw [if_neg hbig] at hneg
        have := virtAddr.isLt
        omega
  refine ⟨-1, m.pageTable, translateAddr_of_none rfl hnone, ?_, fun q m'' hq => ?_, ?_⟩
  · constructor
    · intro h
      omega
    · rintro ⟨q, m'', hq⟩
      obtain hm | hm := hm <;> rw [hm] at hq <;> cases hq
  · obtain hm | hm := hm <;> rw [hm] at hq <;> cases hq
  · exact ⟨fun _ => hm, fun _ => rfl⟩

/-- They agree on every address, if no page from 2^24 on is valid. -/
theorem translations_agree {table : List TranslationEntry} (hr : InRange table)
    (htop : ∀ i e, 2 ^ 24 ≤ i → table[i]? = some e → e.valid = false) (virtAddr : BitVec 32) :
    TranslationsAgree table virtAddr := by
  cases h : physAddr table virtAddr.toNat with
  | some p =>
    refine agree_of_some hr ?_ h
    -- a valid page is below 2^24, so the address is not negative as an `int`
    obtain ⟨e, he, hvalid, -⟩ := physAddr_eq_some.mp h
    by_contra hbig
    have := htop _ e (show 2 ^ 24 ≤ virtAddr.toNat / pageSize by unfold pageSize; omega) he
    rw [hvalid] at this
    cases this
  | none => exact agree_of_none h

/-- A page, its frame not the one of its number, and the last address in it. -/
theorem translations_agree_page : TranslationsAgree
    [⟨0, 5, true, false, false, false⟩, ⟨1, 3, false, false, false, false⟩] 127 := by
  refine translations_agree ?_ (fun i e hi he => ?_) _
  · simp [InRange, numPhysPages]
  · rw [List.getElem?_eq_none (by simp; omega)] at he
    cases he

/-- A table of `n` valid pages, all with the frame 0. -/
def flatTable (n : Nat) : List TranslationEntry :=
  List.replicate n ⟨0, 0, true, false, false, false⟩

theorem inRange_flatTable (n : Nat) : InRange (flatTable n) := by
  intro e he _
  rw [List.eq_of_mem_replicate he]
  decide

theorem physAddr_flatTable {n : Nat} (h : v / pageSize < n) :
    physAddr (flatTable n) v = some (v % pageSize) := by
  refine physAddr_eq_some.mpr ⟨⟨0, 0, true, false, false, false⟩, ?_, rfl, ?_⟩
  · rw [flatTable, List.getElem?_replicate, if_pos h]
  · simp

/-- In a table of 2^24 + 1 pages, the hardware translates 0x80000000. -/
theorem not_translations_agree :
    ¬ ∀ table virtAddr, InRange table → TranslationsAgree table virtAddr := by
  intro hall
  obtain ⟨n, hn⟩ : ∃ n, n = 2 ^ 24 + 1 := ⟨_, rfl⟩
  have hv : (0x80000000 : BitVec 32).toNat = 2 ^ 31 := by decide
  have hsize : n = (flatTable n).length := List.length_replicate.symm
  obtain ⟨p, table', ht, hiff, -, -⟩ := hall (flatTable n) 0x80000000 (inRange_flatTable n)
    ⟨fun _ => 0, fun _ => 0, flatTable n, n⟩ rfl hsize
  rw [translateAddr_of_none rfl (.inl (by decide))] at ht
  cases ht
  have hp : physAddr (flatTable n) (0x80000000 : BitVec 32).toNat = some _ :=
    physAddr_flatTable (by rw [hv, hn]; unfold pageSize; omega)
  obtain ⟨m', hm'⟩ :=
    translate_of_some (m := ⟨fun _ => 0, fun _ => 0, flatTable n, n⟩) hsize (inRange_flatTable n) hp
  have := hiff.mpr ⟨_, m', hm'⟩
  omega

end Nachos
