import Nachos.Userprog.Frames
import Nachos.Userprog.Translation

/-!
# The copy of an address space (userprog/addrspace.cc)

`AddrSpace::copy` gets frames and copies pages in one loop.

* `copyPages_entry`: what the loop makes of a page;
* `Apart`: two tables without a common frame; writing through the one leaves what
  is seen through the other alone (`Apart.writeAll`);
* `Kernel.copy_duplicates`: with frame ownership and enough free frames, the copy
  shows the same bytes in frames of its own.
-/

namespace Nachos

open Nachos.Framework

variable {table table' : List TranslationEntry} {b b' : BitMap} {memory memory' : Bytes}

/-! ## Pages of the copy -/

/-- A page of the copy is as valid as the page copied, and holds its bytes. -/
theorem copyPages_entry (es : List TranslationEntry) (hb : b.numBits = numPhysPages)
    (hroom : es.length ≤ b.numClear) (hmarked : ∀ f ∈ frames es, f ∈ b.marked)
    (h : copyPages es b memory = (table, b', memory')) {i : Nat} {e : TranslationEntry}
    (he : es[i]? = some e) : ∃ e', table[i]? = some e' ∧ e'.valid = e.valid ∧
      ∀ j < pageSize, memory' (e'.physicalPage.toNat * pageSize + j) =
        memory (e.physicalPage.toNat * pageSize + j) := by
  induction es generalizing b memory table i with
  | nil => cases he
  | cons d es ih =>
    rw [List.length_cons] at hroom
    obtain ⟨f, hf, hm, hfind, hnat, hclear⟩ := getPage_spec hb (by omega)
    have hmark := b.marked_markBit hf
    obtain ⟨table₁, b₁, memory₁, hcopy, ha, -, hmem⟩ := copyPages_spec es (b := b.markBit f) hb
      (by omega) (splice memory (f * pageSize) pageSize fun i =>
        memory (d.physicalPage.toNat * pageSize + i))
    simp only [copyPages, hfind, hnat, hcopy] at h
    cases h
    cases i with
    | zero =>
      cases he
      refine ⟨_, rfl, rfl, fun j hj => ?_⟩
      -- the frame just filled is marked, so the pages that follow go elsewhere
      have hkept : f ∉ frames table₁ := fun hin =>
        (ha.free f hin).2 (by rw [hmark]; exact Finset.mem_insert_self f _)
      simp only [hnat]
      rw [hmem _ (by rwa [frame_add_div hj]), splice_apply_add hj]
    | succ i =>
      have hmarked' : ∀ g ∈ frames es, g ∈ (b.markBit f).marked := by
        intro g hg
        rw [hmark]
        exact Finset.mem_insert_of_mem (hmarked g (List.mem_cons_of_mem _ hg))
      obtain ⟨e', he', hvalid, hbytes⟩ := ih (b := b.markBit f) hb (by omega) hmarked' hcopy he
      refine ⟨e', he', hvalid, fun j hj => ?_⟩
      have hold : e.physicalPage.toNat ∈ b.marked :=
        hmarked _ (List.mem_cons_of_mem _ (List.mem_map_of_mem (List.mem_of_getElem? he)))
      rw [hbytes j hj, splice_frame_of_ne]
      rw [frame_add_div hj]
      exact fun heq => hm (heq ▸ hold)

/-- The copy translates the same addresses, and shows the same bytes there. -/
theorem physAddr_copyPages {es : List TranslationEntry} (hb : b.numBits = numPhysPages)
    (hroom : es.length ≤ b.numClear) (hmarked : ∀ f ∈ frames es, f ∈ b.marked)
    (h : copyPages es b memory = (table, b', memory')) (v : Nat) :
    (physAddr table v).map memory' = (physAddr es v).map memory := by
  obtain ⟨table₁, b₁, memory₁, hcopy, -, hlen, -⟩ := copyPages_spec es hb hroom memory
  rw [h] at hcopy
  cases hcopy
  have hoff := Nat.mod_lt v (show 0 < pageSize by decide)
  unfold physAddr
  cases he : es[v / pageSize]? with
  | none =>
    have hout : table.length ≤ v / pageSize := hlen ▸ List.getElem?_eq_none_iff.mp he
    rw [List.getElem?_eq_none hout]
    rfl
  | some e =>
    obtain ⟨e', he', hvalid, hbytes⟩ := copyPages_entry es hb hroom hmarked h he
    rw [he', Option.bind_some, Option.bind_some, hvalid]
    split
    · rw [Option.map_some, Option.map_some, hbytes _ hoff]
    · rfl

/-! ## Writing through a table -/

/-- `Machine::WriteMem` with each of the addresses, sizes and values in turn; a call
that fails has written nothing. -/
def writeAll (m : Machine) (calls : List (BitVec 32 × Nat × BitVec 32)) : Machine :=
  calls.foldl (fun m c => ((m.writeMem c.1 c.2.1 c.2.2).toOption).getD m) m

theorem writeAll_sameMapping (m : Machine) (calls : List (BitVec 32 × Nat × BitVec 32)) :
    SameMapping m (writeAll m calls) := by
  induction calls generalizing m with
  | nil => exact .refl m
  | cons c calls ih =>
    rw [writeAll, List.foldl_cons]
    refine .trans ?_ (ih _)
    cases hw : m.writeMem c.1 c.2.1 c.2.2 with
    | error f => exact .refl m
    | ok m' => exact (Machine.writeMem_sameMapping hw).1

/-- The tables have no frame in common. -/
def Apart (table table' : List TranslationEntry) : Prop := ∀ f ∈ frames table, f ∉ frames table'

theorem Apart.symm (h : Apart table table') : Apart table' table := fun f hf hf' => h f hf' hf

/-- A byte that the program sees through its table, with any use and dirty bits,
stays as it is while another program writes. -/
theorem Apart.writeAll (h : Apart table table') {m : Machine}
    (hm : m.pageTable.map TranslationEntry.mapping = table.map TranslationEntry.mapping)
    (calls : List (BitVec 32 × Nat × BitVec 32)) {v p : Nat} (hp : physAddr table' v = some p) :
    (writeAll m calls).mainMemory p = m.mainMemory p := by
  refine (writeAll_sameMapping m calls).memory p fun hmaps => ?_
  obtain ⟨d, hd, -, hframe⟩ := (maps_congr hm).mp hmaps
  obtain ⟨_, he, -, rfl⟩ := physAddr_eq_some.mp hp
  rw [frame_add_div (Nat.mod_lt v (by decide))] at hframe
  exact h _ (List.mem_map_of_mem hd) (hframe ▸ List.mem_map_of_mem (List.mem_of_getElem? he))

/-! ## The copy -/

/-- The address space `copy` shows in frames that were free in `b` what `space`
shows, taking the memory from `memory` to `memory'`. -/
structure Duplicates (space copy : AddrSpace) (b : BitMap) (memory memory' : Bytes) : Prop where
  numPages : copy.numPages = space.numPages
  translate : ∀ virtualAddress : Int, ∃ p p' table table',
    translateAddr space.pageTable space.numPages virtualAddress = .ok (p, table) ∧
    translateAddr copy.pageTable copy.numPages virtualAddress = .ok (p', table') ∧
    (0 ≤ p' ↔ 0 ≤ p) ∧ (0 ≤ p → memory' p'.toNat = memory' p.toNat)
  nodup : (frames copy.pageTable).Nodup
  free : ∀ f ∈ frames copy.pageTable, f < numPhysPages ∧ f ∉ b.marked
  outside : ∀ x, x / pageSize ∉ frames copy.pageTable → memory' x = memory x
  /-- Whatever is written through the copy later is not seen through the original. -/
  original : ∀ (m : Machine) calls (virtualAddress p : Int) table,
    m.pageTable.map TranslationEntry.mapping = copy.pageTable.map TranslationEntry.mapping →
    translateAddr space.pageTable space.numPages virtualAddress = .ok (p, table) → 0 ≤ p →
    (writeAll m calls).mainMemory p.toNat = m.mainMemory p.toNat
  /-- And the other way round. -/
  copied : ∀ (m : Machine) calls (virtualAddress p : Int) table,
    m.pageTable.map TranslationEntry.mapping = space.pageTable.map TranslationEntry.mapping →
    translateAddr copy.pageTable copy.numPages virtualAddress = .ok (p, table) → 0 ≤ p →
    (writeAll m calls).mainMemory p.toNat = m.mainMemory p.toNat

theorem inRange_of_frames (h : ∀ f ∈ frames table, f < numPhysPages) : InRange table :=
  fun _ he _ => h _ (List.mem_map_of_mem he)

theorem physAddr_of_translateAddr {numPages : Nat} {virtualAddress p : Int}
    (hn : table.length = numPages) (hr : InRange table)
    (h : translateAddr table numPages virtualAddress = .ok (p, table')) (hp : 0 ≤ p) :
    physAddr table virtualAddress.toNat = some p.toNat := by
  obtain ⟨p', t, ht, -, -, hphys⟩ := translateAddr_spec hn hr virtualAddress
  rw [h] at ht
  cases ht
  exact hphys hp

/-- A space whose frames are marked, and as many pages free. -/
theorem AddrSpace.duplicates_of_marked {space : AddrSpace} (hb : b.numBits = numPhysPages)
    (hlen : space.pageTable.length = space.numPages)
    (hmarked : ∀ f ∈ frames space.pageTable, f ∈ b.marked)
    (hroom : space.numPages ≤ b.numClear) (memory : Bytes) :
    ∃ copy b' memory', space.copy b memory = some (copy, b', memory') ∧
      Duplicates space copy b memory memory' := by
  obtain ⟨table, b', memory', hcopy, ha, hl, hmem⟩ :=
    copyPages_spec space.pageTable hb (hlen ▸ hroom) memory
  have hphys := physAddr_copyPages hb (hlen ▸ hroom) hmarked hcopy
  have hlen' : table.length = space.numPages := hl.trans hlen
  have hfree : ∀ f ∈ frames table, f < numPhysPages ∧ f ∉ b.marked := fun f hf =>
    ⟨hb ▸ (ha.free f hf).1, (ha.free f hf).2⟩
  have hr : InRange space.pageTable := inRange_of_frames fun f hf =>
    hb ▸ Finset.mem_range.mp (b.marked_subset (hmarked f hf))
  have hr' : InRange table := inRange_of_frames fun f hf => (hfree f hf).1
  have hapart : Apart space.pageTable table := fun f hf hf' => (hfree f hf').2 (hmarked f hf)
  refine ⟨⟨table, space.numPages, none⟩, b', memory', ?_, rfl, fun a => ?_, ha.nodup, hfree, hmem,
    fun m calls a p t hm ht hp => ?_, fun m calls a p t hm ht hp => ?_⟩
  · rw [AddrSpace.copy, if_neg (by omega), hcopy]
  · obtain ⟨p, t, ht, -, hiff, hsome⟩ := translateAddr_spec hlen hr a
    obtain ⟨p', t', ht', -, hiff', hsome'⟩ := translateAddr_spec hlen' hr' a
    have hmap := hphys a.toNat
    have hnone : physAddr table a.toNat ≠ none ↔ physAddr space.pageTable a.toNat ≠ none := by
      rw [not_iff_not, ← Option.map_eq_none_iff (f := memory'), hmap, Option.map_eq_none_iff]
    have hsame : 0 ≤ p' ↔ 0 ≤ p := by rw [hiff, hiff', hnone]
    refine ⟨p, p', t, t', ht, ht', hsame, fun hp => ?_⟩
    rw [hsome hp, hsome' (hsame.mpr hp), Option.map_some, Option.map_some] at hmap
    rw [Option.some.inj hmap, hmem]
    -- the byte of the original is in a marked frame
    obtain ⟨_, he, -, hpe⟩ := physAddr_eq_some.mp (hsome hp)
    rw [hpe, frame_add_div (Nat.mod_lt _ (by decide))]
    exact hapart _ (List.mem_map_of_mem (List.mem_of_getElem? he))
  · exact hapart.symm.writeAll hm calls (physAddr_of_translateAddr hlen hr ht hp)
  · exact hapart.writeAll hm calls (physAddr_of_translateAddr hlen' hr' ht hp)

namespace Kernel

variable {k : Kernel}

/-- The frames of the address spaces are distinct, in range and marked. -/
structure FramesMarked (k : Kernel) : Prop where
  numBits : k.virtMem.numBits = numPhysPages
  length : ∀ s S, k.spaces s = some S → S.pageTable.length = S.numPages
  nodup : ∀ s, (k.framesOf s).Nodup
  eq_of_mem : ∀ s s' f, f ∈ k.framesOf s → f ∈ k.framesOf s' → s = s'
  marked : ∀ s, ∀ f ∈ k.framesOf s, f < numPhysPages ∧ f ∈ k.virtMem.marked

theorem FramesOwned.framesMarked (h : FramesOwned k) : FramesMarked k where
  numBits := h.numBits
  length := h.length
  nodup := h.owned.nodup
  eq_of_mem := h.owned.eq_of_mem
  marked := fun s f hf => by
    have hm := (h.owned.mem_used f).mpr ⟨s, hf⟩
    exact ⟨h.numBits ▸ Finset.mem_range.mp (k.virtMem.marked_subset hm), hm⟩

/-- `AddrSpace::copy` duplicates an address space. -/
theorem copy_duplicates (h : FramesMarked k) {s : Nat} {space : AddrSpace}
    (hspace : k.spaces s = some space) (hroom : space.numPages ≤ k.virtMem.numClear) :
    ∃ copy virtMem mainMemory,
      space.copy k.virtMem k.mainMemory = some (copy, virtMem, mainMemory) ∧
      Duplicates space copy k.virtMem k.mainMemory mainMemory := by
  refine AddrSpace.duplicates_of_marked h.numBits (h.length s space hspace) (fun f hf => ?_) hroom _
  exact (h.marked s f (by rw [framesOf_eq hspace]; exact hf)).2

/-- The first process, with 9 pages, at its first instruction. -/
theorem copy_duplicates_start : ∃ k s space, runs (plainBoot [0x0000000c]) [] = some k ∧
    k.spaces s = some space ∧ space.numPages = 9 ∧ ∃ copy virtMem mainMemory,
      space.copy k.virtMem k.mainMemory = some (copy, virtMem, mainMemory) ∧
      Duplicates space copy k.virtMem k.mainMemory mainMemory := by
  have hrun : ((runs (plainBoot [0x0000000c]) []).bind fun k => (k.spaces 2).map fun space =>
      (space.numPages, k.virtMem.numClear)) = some (9, 23) := by decide +kernel
  obtain ⟨k, hk, hspace⟩ := Option.bind_eq_some_iff.mp hrun
  obtain ⟨space, hspace, hpages⟩ := Option.map_eq_some_iff.mp hspace
  have hpages := Prod.mk.inj hpages
  have howned := (Owning.run hk).frames
  exact ⟨k, 2, space, hk, hspace, hpages.1,
    copy_duplicates howned.framesMarked hspace (by rw [hpages.1, hpages.2]; decide)⟩

end Kernel

end Nachos
