import Nachos.Userprog.Replace

/-!
# The image of a program (userprog/addrspace.cc)

What a program looks like in memory, by its header and the frames of its pages,
and what `Replace` makes of any file.

* `NoffHeader.image`: the image as the program sees it;
* `frames_initializePageTable`: the frames of a new table are the first free ones;
* `load_isOk`: the files that are loaded without a stop;
* `load_eq`: main memory after that: as it should be, but a segment smaller than a
  page lies behind its first byte, also where its page ends.
-/

namespace Nachos

open Nachos.Framework

variable {table table' : List TranslationEntry} {space : AddrSpace} {env : Env}
  {virtualAddress : BitVec 32} {virtMem : BitMap} {memory : Bytes} {file : List (BitVec 8)}
  {noffH : NoffHeader} {fs : List Nat} {v : Nat}

/-! ## Pages in frames -/

/-- Where the address `v` is in main memory, with its pages in these frames. -/
def frameAddr (fs : List Nat) (v : Nat) : Nat := fs.getD (v / pageSize) 0 * pageSize + v % pageSize

theorem frameAddr_div (fs : List Nat) (v : Nat) : frameAddr fs v / pageSize = fs.getD (v / pageSize) 0 :=
  frame_add_div (Nat.mod_lt v (by decide))

theorem page_lt (h : v < fs.length * pageSize) : v / pageSize < fs.length :=
  Nat.div_lt_of_lt_mul (Nat.mul_comm _ _ ▸ h)

theorem frameAddr_div_mem (h : v < fs.length * pageSize) : frameAddr fs v / pageSize ∈ fs := by
  rw [frameAddr_div, List.getD_eq_getElem _ _ (page_lt h)]
  exact List.getElem_mem (page_lt h)

theorem frameAddr_inj {w : Nat} (hd : fs.Nodup) (hv : v < fs.length * pageSize)
    (hw : w < fs.length * pageSize) (h : frameAddr fs v = frameAddr fs w) : v = w := by
  have hframe : fs.getD (v / pageSize) 0 = fs.getD (w / pageSize) 0 := by
    rw [← frameAddr_div, h, frameAddr_div]
  have hpage : v / pageSize = w / pageSize := by
    rw [List.getD_eq_getElem _ _ (page_lt hv), List.getD_eq_getElem _ _ (page_lt hw)] at hframe
    exact hd.getElem_inj_iff.mp hframe
  unfold frameAddr at h
  rw [hframe] at h
  have hdiv := Nat.div_add_mod v pageSize
  have hdiv' := Nat.div_add_mod w pageSize
  rw [hpage] at hdiv
  omega

/-- Every byte of the frames belongs to a page. -/
theorem exists_frameAddr {x : Nat} (h : x / pageSize ∈ fs) :
    ∃ v, v < fs.length * pageSize ∧ frameAddr fs v = x := by
  obtain ⟨i, hi, heq⟩ := List.getElem_of_mem h
  have hoff := Nat.mod_lt x (show 0 < pageSize by decide)
  refine ⟨i * pageSize + x % pageSize, ?_, ?_⟩
  · have hle : (i + 1) * pageSize ≤ fs.length * pageSize := Nat.mul_le_mul_right _ hi
    rw [Nat.succ_mul] at hle
    omega
  · rw [frameAddr, frame_add_div hoff, List.getD_eq_getElem _ _ hi, heq, Nat.mul_add_mod_of_lt hoff]
    have := Nat.div_add_mod x pageSize
    rw [Nat.mul_comm] at this
    exact this

/-- A page does not go over the end of main memory. -/
theorem frameAddr_add_le (hr : ∀ f ∈ fs, f < numPhysPages) (h : v < fs.length * pageSize) {j : Nat}
    (hj : v % pageSize + j ≤ pageSize) : frameAddr fs v + j ≤ memorySize := by
  have hlt := hr _ (frameAddr_div_mem h)
  rw [frameAddr_div] at hlt
  unfold frameAddr memorySize numPhysPages pageSize at *
  omega

/-- A table whose pages are all in memory, in these frames, as `InitializePageTable` makes it. -/
structure Full (fs : List Nat) (table : List TranslationEntry) : Prop where
  frames : Nachos.frames table = fs
  valid : ∀ e ∈ table, e.valid = true
  range : ∀ f ∈ fs, f < numPhysPages

theorem Full.length (h : Full fs table) : table.length = fs.length := by
  rw [← h.frames, Nachos.frames, List.length_map]

theorem Full.length_le (h : Full fs table) (hd : fs.Nodup) : fs.length ≤ numPhysPages := by
  rw [← List.toFinset_card_of_nodup hd, ← Finset.card_range numPhysPages]
  exact Finset.card_le_card fun f hf => Finset.mem_range.mpr (h.range f (List.mem_toFinset.mp hf))

theorem Full.inRange (h : Full fs table) : InRange table := fun _ he _ =>
  h.range _ (h.frames ▸ List.mem_map_of_mem he)

theorem Full.congr (h : Full fs table)
    (hmap : table'.map TranslationEntry.mapping = table.map TranslationEntry.mapping) :
    Full fs table' where
  frames := (frames_congr hmap).trans h.frames
  valid := by
    intro e' he'
    obtain ⟨e, he, heq⟩ := List.mem_map.mp (hmap ▸ List.mem_map_of_mem he')
    simp only [TranslationEntry.mapping, Prod.mk.injEq] at heq
    rw [← heq.2.1, h.valid e he]
  range := h.range

theorem Full.physAddr (h : Full fs table) (hv : v < fs.length * pageSize) :
    Nachos.physAddr table v = some (frameAddr fs v) := by
  have hpage : v / pageSize < table.length := h.length ▸ page_lt hv
  refine physAddr_eq_some.mpr ⟨table[v / pageSize], List.getElem?_eq_getElem hpage,
    h.valid _ (List.getElem_mem hpage), ?_⟩
  rw [frameAddr, ← h.frames, List.getD_eq_getElem _ _ (by rwa [Nachos.frames, List.length_map])]
  simp only [Nachos.frames, List.getElem_map]

theorem Full.physAddr_eq_some (h : Full fs table) {p : Nat} :
    Nachos.physAddr table v = some p ↔ v < fs.length * pageSize ∧ frameAddr fs v = p := by
  constructor
  · intro hp
    have hv : v < fs.length * pageSize := by
      obtain ⟨e, he, -⟩ := Nachos.physAddr_eq_some.mp hp
      have hpage := (List.getElem?_eq_some_iff.mp he).1
      rw [h.length] at hpage
      unfold pageSize at *
      omega
    rw [h.physAddr hv] at hp
    exact ⟨hv, Option.some.inj hp⟩
  · rintro ⟨hv, rfl⟩
    exact h.physAddr hv

/-- The assertion in the loop of `ReadFile` holds for the addresses of the space. -/
theorem Full.translateAddr (h : Full fs table) (hv : v < fs.length * pageSize) :
    ∃ t, Nachos.translateAddr table fs.length v = .ok (↑(frameAddr fs v), t) ∧ Full fs t := by
  obtain ⟨t, ht, hmap⟩ := translateAddr_of_some h.length h.inRange (h.physAddr hv)
  exact ⟨t, ht, h.congr hmap⟩

theorem Full.translateAddr_out (h : Full fs table) {a : Int} (ha : ¬ (0 ≤ a ∧ a < fs.length * pageSize)) :
    Nachos.translateAddr table fs.length a = .ok (-1, table) := by
  refine translateAddr_of_none h.length ?_
  by_cases hneg : a < 0
  · exact .inl hneg
  · refine .inr (Option.eq_none_iff_forall_ne_some.mpr fun p hp => ha ⟨Int.not_lt.mp hneg, ?_⟩)
    have := (h.physAddr_eq_some.mp hp).1
    omega

/-! ## Which frames a new table has -/

/-- The frames that are not in use, in order. -/
def freeFrames (used : Finset Nat) : List Nat := (List.range numPhysPages).filter (· ∉ used)

/-- `getPage` takes the first one. -/
theorem freeFrames_eq_cons {used : Finset Nat} {f : Nat} (hf : f < numPhysPages) (hm : f ∉ used)
    (hmin : ∀ j < f, j ∈ used) : freeFrames used = f :: freeFrames (insert f used) := by
  obtain ⟨r, hr⟩ := Nat.exists_eq_add_of_lt hf
  have hrange : List.range numPhysPages = List.range f ++ f :: (List.range r).map (f + 1 + ·) := by
    rw [hr, Nat.add_assoc, List.range_add, List.range_succ_eq_map, List.map_cons, List.map_map, Nat.add_zero]
    congr 2
    exact List.map_congr_left fun i _ => by simp only [Function.comp_apply]; omega
  have hnone : (List.range f).filter (· ∉ used) = [] :=
    List.filter_eq_nil_iff.mpr fun j hj => by simpa using hmin j (List.mem_range.mp hj)
  have hnone' : (List.range f).filter (· ∉ insert f used) = [] :=
    List.filter_eq_nil_iff.mpr fun j hj => by simp [hmin j (List.mem_range.mp hj)]
  have hrest : ((List.range r).map (f + 1 + ·)).filter (· ∉ insert f used) =
      ((List.range r).map (f + 1 + ·)).filter (· ∉ used) := by
    refine List.filter_congr fun j hj => ?_
    obtain ⟨i, -, rfl⟩ := List.mem_map.mp hj
    have hne : f + 1 + i ≠ f := by omega
    simp [hne]
  rw [freeFrames, freeFrames, hrange, List.filter_append, List.filter_append, hnone, hnone', List.nil_append,
    List.nil_append, List.filter_cons_of_pos (by simpa using hm), List.filter_cons_of_neg (by simp), hrest]

/-- The frames of a new table are the first free ones. -/
theorem frames_initializePageTable {n : Nat} {b : BitMap} (hb : b.numBits = numPhysPages)
    (h : n ≤ b.numClear) (i : Nat) (memory : Bytes) :
    frames (initializePageTable i n b memory).1 = (freeFrames b.marked).take n := by
  induction n generalizing i b memory with
  | zero => rfl
  | succ n ih =>
    rcases b.find_spec with ⟨f, hf, hm, hmin, hfind⟩ | ⟨hall, -⟩
    · have hf' : f < numPhysPages := hb ▸ hf
      have hclear : n ≤ (b.markBit f).numClear := by
        obtain ⟨g, -, -, hfind', -, hclear⟩ := getPage_spec hb (by omega)
        rw [hfind] at hfind'
        obtain rfl := Int.ofNat.inj (Prod.mk.inj hfind').1
        omega
      have hnat : (BitVec.ofInt 32 (f : Int)).toNat = f := by
        rw [BitVec.ofInt_natCast, BitVec.toNat_ofNat, Nat.mod_eq_of_lt]
        unfold numPhysPages at hf'
        omega
      have hrest := ih (b := b.markBit f) hb hclear (i + 1) (splice memory (f * pageSize) pageSize fun _ => 0)
      simp only [initializePageTable, hfind, hnat, frames_cons, hrest]
      rw [freeFrames_eq_cons hf' hm hmin, List.take_succ_cons, b.marked_markBit hf]
    · have hcard := b.numClear_add_card
      rw [hall, Finset.card_range] at hcard
      omega

/-- The frames that a program of `n` pages gets when those of `old` are given back. -/
def newFrames (virtMem : BitMap) (old : List Nat) (n : Nat) : List Nat :=
  (freeFrames (virtMem.marked \ old.toFinset)).take n

/-- Main memory with these frames zeroed. -/
def zeroFrames (fs : List Nat) (memory : Bytes) : Bytes := fun x => if x / pageSize ∈ fs then 0 else memory x

theorem initializePageTable_memory (n i : Nat) (b : BitMap) (memory : Bytes) :
    (initializePageTable i n b memory).2.2 = zeroFrames (frames (initializePageTable i n b memory).1) memory := by
  induction n generalizing i b memory with
  | zero =>
    funext x
    exact (if_neg List.not_mem_nil).symm
  | succ n ih =>
    simp only [initializePageTable, ih, frames_cons]
    generalize frames (initializePageTable (i + 1) n b.find.2 _).1 = fs
    generalize (BitVec.ofInt 32 b.find.1).toNat = f
    funext x
    unfold zeroFrames
    by_cases hx : x / pageSize ∈ fs
    · rw [if_pos hx, if_pos (List.mem_cons_of_mem _ hx)]
    rw [if_neg hx]
    by_cases hf : x / pageSize = f
    · rw [if_pos (List.mem_cons.mpr (.inl hf))]
      refine splice_apply_of_mem ?_ ?_ <;> unfold pageSize at * <;> omega
    · rw [if_neg (List.mem_cons.not.mpr (not_or.mpr ⟨hf, hx⟩)), splice_frame_of_ne hf]

theorem initializePageTable_valid (i n : Nat) (b : BitMap) (memory : Bytes) :
    ∀ e ∈ (initializePageTable i n b memory).1, e.valid = true := by
  induction n generalizing i b memory with
  | zero => exact fun e he => absurd he List.not_mem_nil
  | succ n ih =>
    intro e he
    rcases List.mem_cons.mp he with rfl | he
    · rfl
    · exact ih _ _ _ e he

/-- A new table, in frames that were free. -/
theorem initializePageTable_full {n : Nat} {b : BitMap} (hb : b.numBits = numPhysPages)
    (hroom : n ≤ b.numClear) (memory : Bytes) :
    ∃ t b', initializePageTable 0 n b memory =
        (t, b', zeroFrames ((freeFrames b.marked).take n) memory) ∧
      Full ((freeFrames b.marked).take n) t ∧ Allocated b b' (frames t) ∧ t.length = n := by
  obtain ⟨t, b', m, hinit, ha, hlen, -⟩ := initializePageTable_spec hb hroom 0 memory
  have hframes := frames_initializePageTable hb hroom 0 memory
  have hmem := initializePageTable_memory n 0 b memory
  have hvalid := initializePageTable_valid 0 n b memory
  rw [hframes, hinit] at hmem
  rw [hinit] at hframes hvalid
  refine ⟨t, b', by rw [hinit, ← hmem], ⟨hframes, hvalid, fun f hf => ?_⟩, ha, hlen⟩
  rw [← hframes] at hf
  exact hb ▸ (ha.free f hf).1

/-! ## Files that are loaded without a stop -/

/-- Where `ReadFile` can put `left` bytes from `v` on: only the last page is written to without a
check, and only if less than a page is left there. -/
def ChunksFit (fs : List Nat) (v left : Nat) : Prop :=
  left = 0 ∨ v < fs.length * pageSize ∧
    (pageSize ≤ left → v + left ≤ fs.length * pageSize) ∧
    (left < pageSize → frameAddr fs v + left ≤ memorySize)

/-- Behind a chunk that is not the last one, a page begins. -/
theorem chunksFit_rest (hr : ∀ f ∈ fs, f < numPhysPages) {left : Nat}
    (hv : v < fs.length * pageSize) (hbig : pageSize ≤ left) :
    ChunksFit fs (v + chunk v left) (left - chunk v left) ↔ v + left ≤ fs.length * pageSize := by
  have hoff := Nat.mod_lt v (show 0 < pageSize by decide)
  have hc : chunk v left = pageSize - v % pageSize := by rw [chunk, if_neg (by omega)]
  have halign : (v + chunk v left) % pageSize = 0 := by
    rw [hc]
    unfold pageSize
    omega
  constructor
  · rintro (h | ⟨h₁, h₂, -⟩)
    · rw [hc] at h
      unfold pageSize at *
      omega
    · unfold pageSize at *
      omega
  · intro h
    by_cases hzero : left - chunk v left = 0
    · exact .inl hzero
    · refine .inr ⟨by omega, fun _ => by omega, fun hlt => frameAddr_add_le hr (by omega) ?_⟩
      rw [halign, Nat.zero_add]
      exact Nat.le_of_lt hlt

theorem readFileLoop_isOk {buffer : Bytes} {fuel n left : Nat} (h : Full fs table) (hfuel : left ≤ fuel) :
    (∃ r, readFileLoop buffer fs.length fuel v n left table memory = .ok r) ↔ ChunksFit fs v left := by
  induction fuel generalizing v n left table memory with
  | zero =>
    rw [readFileLoop, if_neg (by omega)]
    exact ⟨fun _ => .inl (by omega), fun _ => ⟨_, rfl⟩⟩
  | succ fuel ih =>
    rw [readFileLoop]
    by_cases hleft : left = 0
    · rw [if_neg (by omega)]
      exact ⟨fun _ => .inl hleft, fun _ => ⟨_, rfl⟩⟩
    rw [if_pos (by omega), readSize_eq]
    have hpos : 0 < chunk v left := chunk_pos (by omega)
    have hle : chunk v left ≤ left := chunk_le v left
    by_cases hv : v < fs.length * pageSize
    · obtain ⟨t, ht, hfull⟩ := h.translateAddr hv
      rw [ht, ok_bind]
      dsimp only
      rw [assert, if_pos (by omega), ok_bind,
        show (↑v + ↑(chunk v left) : Int) = ↑(v + chunk v left) by push_cast; rfl,
        show (↑left - ↑(chunk v left) : Int) = ↑(left - chunk v left) by omega]
      by_cases hbig : pageSize ≤ left
      · -- up to the end of the page
        have hin : frameAddr fs v + chunk v left ≤ memorySize := by
          refine frameAddr_add_le h.range hv ?_
          have hoff := Nat.mod_lt v (show 0 < pageSize by decide)
          rw [chunk, if_neg (by omega)]
          omega
        rw [if_neg (by omega), ih hfull (by omega), chunksFit_rest h.range hv hbig, ChunksFit]
        omega
      · -- all that is left
        have hc : chunk v left = left := by rw [chunk, if_pos (by omega)]
        rw [hc]
        by_cases hin : frameAddr fs v + left ≤ memorySize
        · rw [if_neg (by omega), ih hfull (by omega), Nat.sub_self]
          exact iff_of_true (.inl rfl) (.inr ⟨hv, fun h => absurd h hbig, fun _ => hin⟩)
        · rw [if_pos (by omega)]
          refine iff_of_false ?_ ?_
          · rintro ⟨r, hr⟩
            cases hr
          · rintro (h | ⟨-, -, h⟩)
            · exact hleft h
            · exact hin (h (by omega))
    · rw [h.translateAddr_out (by omega), ok_bind]
      dsimp only
      rw [assert, if_neg (by omega)]
      refine iff_of_false ?_ ?_
      · rintro ⟨r, hr⟩
        cases hr
      · rintro (h | ⟨h, -⟩)
        · exact hleft h
        · exact hv h

/-- `ReadFile` copies the segment without a stop into pages that are in these frames. -/
def Segment.Fits (s : Segment) (fs : List Nat) : Prop :=
  s.size.toInt > 0 → 0 ≤ s.inFileAddr.toInt ∧ 0 ≤ s.virtualAddr.toInt ∧
    s.virtualAddr.toInt < fs.length * pageSize ∧
    (pageSize ≤ s.size.toInt → s.virtualAddr.toInt + s.size.toInt ≤ fs.length * pageSize) ∧
    (s.size.toInt < pageSize → frameAddr fs s.virtualAddr.toNat + s.size.toInt ≤ memorySize)

theorem readFile_isOk (file : List (BitVec 8)) (junk memory : Bytes) {virtAddr size fileAddr : Int}
    (h : Full fs table) (hsize : 0 < size) :
    (∃ r, readFile virtAddr file size fileAddr junk fs.length table memory = .ok r) ↔
      0 ≤ fileAddr ∧ 0 ≤ virtAddr ∧ ChunksFit fs virtAddr.toNat size.toNat := by
  rw [readFile, readAt]
  by_cases hfile : 0 ≤ fileAddr
  · rw [assert, if_pos hfile, ok_bind, ok_bind]
    by_cases hv : 0 ≤ virtAddr
    · obtain ⟨v, rfl⟩ := Int.eq_ofNat_of_zero_le hv
      obtain ⟨n, rfl⟩ := Int.eq_ofNat_of_zero_le hsize.le
      rw [readFileLoop_isOk h (by omega)]
      exact ⟨fun hc => ⟨hfile, hv, hc⟩, fun hc => hc.2.2⟩
    · -- the first address does not translate
      obtain ⟨fuel, hfuel⟩ := Nat.exists_eq_succ_of_ne_zero (show size.toNat ≠ 0 by omega)
      rw [hfuel, readFileLoop, if_pos hsize, h.translateAddr_out (fun hin => hv hin.1), ok_bind]
      dsimp only
      rw [assert, if_neg (by omega)]
      refine iff_of_false ?_ fun hin => hv hin.2.1
      rintro ⟨r, hr⟩
      cases hr
  · rw [assert, if_neg hfile]
    refine iff_of_false ?_ fun hin => hfile hin.1
    rintro ⟨r, hr⟩
    cases hr

theorem readSegment_isOk (file : List (BitVec 8)) (junk memory : Bytes) (h : Full fs table) (s : Segment) :
    (∃ r, readSegment s file junk fs.length table memory = .ok r) ↔ s.Fits fs := by
  unfold readSegment Segment.Fits
  by_cases hsize : s.size.toInt > 0
  · rw [if_pos hsize, forall_prop_of_true hsize]
    have hiff : (∃ r, (readFile s.virtualAddr.toInt file s.size.toInt s.inFileAddr.toInt junk fs.length table
        memory >>= fun r => Except.ok (r.2.1, r.2.2)) = .ok r) ↔
        ∃ r, readFile s.virtualAddr.toInt file s.size.toInt s.inFileAddr.toInt junk fs.length table memory =
          .ok r := by
      constructor
      · rintro ⟨r, hr⟩
        obtain ⟨r', hr', -⟩ := bind_eq_ok.mp hr
        exact ⟨r', hr'⟩
      · rintro ⟨r, hr⟩
        exact ⟨_, by rw [hr, ok_bind]⟩
    refine (hiff.trans (readFile_isOk file junk memory h hsize)).trans
      (and_congr_right fun _ => and_congr_right fun hv => ?_)
    have haddr : s.virtualAddr.toInt.toNat = s.virtualAddr.toNat := by
      have := BitVec.toInt_eq_toNat_cond s.virtualAddr
      split at this <;> omega
    rw [ChunksFit, haddr]
    omega
  · rw [if_neg hsize]
    exact ⟨fun _ h => absurd h hsize, fun _ => ⟨_, rfl⟩⟩

theorem load_isOk (file : List (BitVec 8)) (junk : Buffers) (memory : Bytes)
    (hb : virtMem.numBits = numPhysPages) (hroom : noffH.numPages ≤ virtMem.numClear) :
    (∃ r, load noffH file junk virtMem memory = .ok r) ↔
      noffH.code.Fits ((freeFrames virtMem.marked).take noffH.numPages) ∧
        noffH.initData.Fits ((freeFrames virtMem.marked).take noffH.numPages) := by
  obtain ⟨t, b, hinit, hfull, -, hlen⟩ := initializePageTable_full hb hroom memory
  rw [load, hinit]
  dsimp only
  generalize (freeFrames virtMem.marked).take noffH.numPages = fs at hfull ⊢
  rw [show noffH.numPages = fs.length by rw [← hlen, hfull.length]]
  constructor
  · rintro ⟨r, hr⟩
    obtain ⟨⟨t₁, m₁⟩, h₁, hr⟩ := bind_eq_ok.mp hr
    obtain ⟨⟨t₂, m₂⟩, h₂, -⟩ := bind_eq_ok.mp hr
    exact ⟨(readSegment_isOk file junk.code _ hfull _).mp ⟨_, h₁⟩,
      (readSegment_isOk file junk.initData m₁ (hfull.congr (readSegment_mapping h₁)) _).mp ⟨_, h₂⟩⟩
  · rintro ⟨hcode, hdata⟩
    obtain ⟨⟨t₁, m₁⟩, h₁⟩ := (readSegment_isOk file junk.code (zeroFrames fs memory) hfull _).mpr hcode
    obtain ⟨⟨t₂, m₂⟩, h₂⟩ := (readSegment_isOk file junk.initData m₁
      (hfull.congr (readSegment_mapping h₁)) _).mpr hdata
    rw [h₁, ok_bind]
    dsimp only
    rw [h₂, ok_bind]
    exact ⟨_, rfl⟩

/-- There is room for the program in the free frames and those of the space, and it needs as many
pages as the space has, or more. -/
def AddrSpace.Admits (space : AddrSpace) (virtMem : BitMap) (noffH : NoffHeader) : Prop :=
  space.numPages ≤ noffH.numPages ∧ noffH.numPages ≤ space.numPages + virtMem.numClear

/-- The file can be loaded into the space: it is an executable, and if there is room for it, its
segments fit. -/
def AddrSpace.Loadable (space : AddrSpace) (virtMem : BitMap) (file : List (BitVec 8)) (junk : Bytes) :
    Prop :=
  let noffH := fileHeader file junk
  noffH.noffMagic = noffMagic ∧ (space.Admits virtMem noffH →
    noffH.code.Fits (newFrames virtMem (frames space.pageTable) noffH.numPages) ∧
    noffH.initData.Fits (newFrames virtMem (frames space.pageTable) noffH.numPages))

/-- The frames given back and the free ones are enough for a program that was not refused. -/
theorem releaseLoad_isOk (file : List (BitVec 8)) (junk : Buffers) (memory : Bytes)
    (hb : virtMem.numBits = numPhysPages) (hframes : ∀ f ∈ frames table, f < numPhysPages)
    (hroom : ∀ b : BitMap, b.numBits = virtMem.numBits →
      b.marked = virtMem.marked \ (frames table).toFinset → noffH.numPages ≤ b.numClear) :
    (∃ r, (releasePhysicalMemory table virtMem >>= fun b => load noffH file junk b memory) =
      .ok r) ↔ noffH.code.Fits (newFrames virtMem (frames table) noffH.numPages) ∧
        noffH.initData.Fits (newFrames virtMem (frames table) noffH.numPages) := by
  obtain ⟨b, hrel⟩ := releasePhysicalMemory_isOk table hb hframes
  obtain ⟨hn, hm⟩ := releasePhysicalMemory_spec hrel
  rw [hrel, ok_bind, load_isOk file junk memory (hn.trans hb) (hroom b hn hm), hm]
  rfl

theorem AddrSpace.replace_of_file_isOk {name : List (BitVec 8)}
    (hname : readFileName space.numPages memory 128 virtualAddress.toInt space.pageTable =
      .ok (name, table))
    (hfile : env.files ((name ++ env.junkName).takeWhile (· ≠ 0)) = some file)
    (hmagic : (fileHeader file env.buffers.header).noffMagic = noffMagic) :
    (∃ r, space.replace env virtualAddress virtMem memory = .ok r) ↔
      newPages (fileHeader file env.buffers.header).numPages space.numPages > virtMem.numClear ∨
      ∃ r, (releasePhysicalMemory table virtMem >>= fun b =>
        load (fileHeader file env.buffers.header) file env.buffers b memory) = .ok r := by
  rw [AddrSpace.replace_of_file hname hfile, readHeader_eq, if_pos hmagic, ok_bind]
  by_cases hroom : newPages (fileHeader file env.buffers.header).numPages space.numPages > virtMem.numClear
  · rw [if_pos hroom]
    exact ⟨fun _ => .inl hroom, fun _ => ⟨_, rfl⟩⟩
  · rw [if_neg hroom, or_iff_right hroom]
    constructor
    · rintro ⟨r, hr⟩
      obtain ⟨b, hb, hr⟩ := bind_eq_ok.mp hr
      obtain ⟨r', hr', -⟩ := bind_eq_ok.mp hr
      exact ⟨r', by rw [hb, ok_bind, hr']⟩
    · rintro ⟨⟨t, b', m⟩, hr⟩
      obtain ⟨b, hb, hr⟩ := bind_eq_ok.mp hr
      rw [hb, ok_bind, hr, ok_bind]
      exact ⟨_, rfl⟩

/-- `Replace` returns exactly if the file, if there is one, can be loaded. The room for it is that
of the free frames and those given back. -/
theorem AddrSpace.replace_isOk (hb : virtMem.numBits = numPhysPages)
    (hlen : space.pageTable.length = space.numPages)
    (hframes : ∀ f ∈ frames space.pageTable, f < numPhysPages)
    (hnum : space.numPages ≤ numPhysPages)
    (hrelease : ∀ b : BitMap, b.numBits = virtMem.numBits →
      b.marked = virtMem.marked \ (frames space.pageTable).toFinset →
      b.numClear = virtMem.numClear + space.numPages) :
    (∃ r, space.replace env virtualAddress virtMem memory = .ok r) ↔
      ∀ file, space.namedFile env virtualAddress memory = .ok (some file) →
        space.Loadable virtMem file env.buffers.header := by
  obtain ⟨⟨name, t⟩, hname⟩ := readFileName_isOk memory 128 hlen virtualAddress.toInt
  have hnamed : space.namedFile env virtualAddress memory =
      .ok (env.files ((name ++ env.junkName).takeWhile (· ≠ 0))) := by
    rw [namedFile, hname, ok_bind]
  have hfree : virtMem.numClear ≤ numPhysPages := by
    have := virtMem.numClear_add_card
    omega
  rw [hnamed]
  cases hfile : env.files ((name ++ env.junkName).takeWhile (· ≠ 0)) with
  | none =>
    constructor
    · rintro - file ⟨⟩
    · intro _
      rw [AddrSpace.replace, hname, ok_bind]
      dsimp only
      rw [hfile]
      exact ⟨_, rfl⟩
  | some file =>
    have hall : (∀ f, (.ok (some file) : Except Stop _) = .ok (some f) →
        space.Loadable virtMem f env.buffers.header) ↔ space.Loadable virtMem file env.buffers.header := by
      refine ⟨fun h => h file rfl, fun h f hf => ?_⟩
      cases hf
      exact h
    rw [hall, Loadable]
    by_cases hmagic : (fileHeader file env.buffers.header).noffMagic = noffMagic
    · rw [AddrSpace.replace_of_file_isOk hname hfile hmagic, and_iff_right hmagic,
        admission_refuses (fileHeader file env.buffers.header).numPages_lt hnum hfree]
      have hframes_eq := frames_congr (readFileName_mapping hname)
      by_cases hfits : space.Admits virtMem (fileHeader file env.buffers.header)
      · obtain ⟨h₁, h₂⟩ := hfits
        rw [or_iff_right (by omega), forall_prop_of_true ⟨h₁, h₂⟩, ← hframes_eq]
        refine releaseLoad_isOk file env.buffers memory hb (hframes_eq ▸ hframes) fun b hn hm => ?_
        rw [hrelease b hn (hframes_eq ▸ hm)]
        omega
      · refine ⟨fun _ h => absurd h hfits, fun _ => .inl ?_⟩
        rw [Admits] at hfits
        omega
    · rw [AddrSpace.replace_of_file hname hfile, readHeader_eq, if_neg hmagic]
      constructor
      · rintro ⟨r, hr⟩
        cases hr
      · exact fun h => absurd h.1 hmagic

/-! ## What is loaded -/

/-- The bytes of the segment are in the file. -/
def Segment.InFile (s : Segment) (file : List (BitVec 8)) : Prop :=
  0 < s.size.toInt → 0 ≤ s.inFileAddr.toInt ∧ s.inFileAddr.toInt + s.size.toInt ≤ file.length

instance (s : Segment) (file : List (BitVec 8)) : Decidable (s.InFile file) :=
  inferInstanceAs (Decidable (_ → _))

/-- Its addresses are in an image of `numPages` pages. -/
def Segment.InImage (s : Segment) (numPages : Nat) : Prop :=
  0 ≤ s.size.toInt ∧
    (0 < s.size.toInt → 0 ≤ s.virtualAddr.toInt ∧ s.virtualAddr.toInt + s.size.toInt ≤ numPages * pageSize)

instance (s : Segment) (numPages : Nat) : Decidable (s.InImage numPages) :=
  inferInstanceAs (Decidable (_ ∧ _))

/-- The file is a program with this header: the header and the code and the data are in it, and
all segments are in the image. -/
structure IsProgram (file : List (BitVec 8)) (noffH : NoffHeader) : Prop where
  header : 40 ≤ file.length
  magic : noffH.noffMagic = noffMagic
  code : noffH.code.InFile file ∧ noffH.code.InImage noffH.numPages
  initData : noffH.initData.InFile file ∧ noffH.initData.InImage noffH.numPages
  uninitData : noffH.uninitData.InImage noffH.numPages

/-- The bytes of the segment. -/
def Segment.bytes (s : Segment) (file : List (BitVec 8)) : Bytes := fun i =>
  file.getD (s.inFileAddr.toNat + i) 0

/-- The segment has a byte at the address `v`. -/
def Segment.Covers (s : Segment) (v : Nat) : Prop :=
  s.virtualAddr.toNat ≤ v ∧ v < s.virtualAddr.toNat + s.size.toNat

instance (s : Segment) (v : Nat) : Decidable (s.Covers v) := inferInstanceAs (Decidable (_ ∧ _))

/-- What the program finds at the address `v` when it starts. -/
def NoffHeader.image (noffH : NoffHeader) (file : List (BitVec 8)) (v : Nat) : BitVec 8 :=
  if noffH.initData.Covers v then noffH.initData.bytes file (v - noffH.initData.virtualAddr.toNat)
  else if noffH.code.Covers v then noffH.code.bytes file (v - noffH.code.virtualAddr.toNat)
  else 0

/-- Where the byte `i` of the segment belongs. -/
def Segment.ownAddr (fs : List Nat) (s : Segment) (i : Nat) : Nat := frameAddr fs (s.virtualAddr.toNat + i)

/-- Where `ReadFile` puts it: those of a segment smaller than a page behind the first one. -/
def Segment.readAddr (fs : List Nat) (s : Segment) (i : Nat) : Nat :=
  if s.size.toNat < pageSize then frameAddr fs s.virtualAddr.toNat + i
  else frameAddr fs (s.virtualAddr.toNat + i)

/-- Main memory with the frames zeroed, and then the code and the data at these addresses. -/
def NoffHeader.placed (noffH : NoffHeader) (file : List (BitVec 8)) (fs : List Nat)
    (addr : Segment → Nat → Nat) (memory : Bytes) : Bytes :=
  scatter (scatter (zeroFrames fs memory) noffH.code.size.toNat (addr noffH.code) (noffH.code.bytes file))
    noffH.initData.size.toNat (addr noffH.initData) (noffH.initData.bytes file)

section

variable {s : Segment}

theorem toInt_eq_toNat_of_nonneg {w : BitVec 32} (h : 0 ≤ w.toInt) : w.toInt = w.toNat := by
  have hlt := w.isLt
  have hcond := BitVec.toInt_eq_toNat_cond w
  split at hcond <;> omega

/-- The segment does not go over the end of main memory where `ReadFile` puts it. -/
def Segment.InMemory (s : Segment) (fs : List Nat) : Prop :=
  s.size.toInt < pageSize → frameAddr fs s.virtualAddr.toNat + s.size.toInt ≤ memorySize

theorem Segment.fits_iff (hin : s.InImage fs.length) (hfile : s.InFile file) :
    s.Fits fs ↔ (0 < s.size.toInt → s.InMemory fs) := by
  refine forall_congr' fun hpos => ?_
  have hin' := hin.2 hpos
  have hfile' := hfile hpos
  exact ⟨fun h => h.2.2.2.2, fun h => ⟨hfile'.1, hin'.1, by omega, fun _ => hin'.2, h⟩⟩

theorem Segment.InImage.nat {numPages : Nat} (h : s.InImage numPages) (hpos : 0 < s.size.toNat) :
    s.size.toInt = s.size.toNat ∧ s.virtualAddr.toInt = s.virtualAddr.toNat ∧
      s.virtualAddr.toNat + s.size.toNat ≤ numPages * pageSize := by
  have hsize := toInt_eq_toNat_of_nonneg h.1
  obtain ⟨hv, hle⟩ := h.2 (by omega)
  have haddr := toInt_eq_toNat_of_nonneg hv
  exact ⟨hsize, haddr, by omega⟩

/-- The segment is copied to where `readAddr` says. -/
theorem readSegment_eq (h : Full fs table) (hd : fs.Nodup) (hin : s.InImage fs.length) (hfile : s.InFile file)
    (hfit : s.Fits fs) (junk memory : Bytes) :
    ∃ t, readSegment s file junk fs.length table memory =
        .ok (t, scatter memory s.size.toNat (s.readAddr fs) (s.bytes file)) ∧ Full fs t := by
  have hsizeInt := toInt_eq_toNat_of_nonneg hin.1
  by_cases hpos : 0 < s.size.toNat
  · obtain ⟨-, haddr, hle⟩ := hin.nat hpos
    obtain ⟨hf, hfle⟩ := hfile (by omega)
    have hfaddr := toInt_eq_toNat_of_nonneg hf
    -- the buffer holds the bytes of the file
    set buffer : Bytes := fun i => (file[s.inFileAddr.toNat + i]?).getD (junk i) with hbuffer
    have hbytes : ∀ i < s.size.toNat, buffer i = s.bytes file i := by
      intro i hi
      have hlt : s.inFileAddr.toNat + i < file.length := by omega
      simp only [hbuffer, Segment.bytes, List.getD_eq_getElem?_getD, List.getElem?_eq_getElem hlt,
        Option.getD_some]
    have hread : readSegment s file junk fs.length table memory =
        readFileLoop buffer fs.length s.size.toNat s.virtualAddr.toNat 0 s.size.toNat table memory >>= fun r =>
          .ok (r.2.1, r.2.2) := by
      rw [readSegment, if_pos (by omega), haddr, hsizeInt, hfaddr, readFile_eq]
    rw [hread]
    have hnum := h.length_le hd
    by_cases hlt : s.size.toNat < pageSize
    · obtain ⟨t, hmap, hloop⟩ := readFileLoop_of_lt buffer memory h.length h.inRange hpos hlt
        (h.physAddr (v := s.virtualAddr.toNat) (by omega))
      have hmem := (hfit (by omega)).2.2.2.2 (by omega)
      refine ⟨t, ?_, h.congr hmap⟩
      rw [hloop, if_pos (by omega), ok_bind, splice_eq_scatter, scatter_congr hbytes]
      have hfun : s.readAddr fs = (frameAddr fs s.virtualAddr.toNat + ·) := by
        funext i
        rw [Segment.readAddr, if_pos hlt]
      rw [hfun]
    · have hmapped : ∀ i < s.size.toNat, physAddr table (s.virtualAddr.toNat + i) ≠ none := fun i hi => by
        rw [h.physAddr (by omega)]
        exact Option.some_ne_none _
      have hsegment : SegmentMapped table s.virtualAddr.toNat s.size.toNat :=
        ⟨by unfold pageSize numPhysPages at *; omega, hmapped⟩
      obtain ⟨t, m, hloop, hcopied⟩ : ∃ t m, readFileLoop buffer fs.length s.size.toNat
          ↑(s.virtualAddr.toNat + 0) 0 ↑(s.size.toNat - 0) table memory = .ok (s.size.toNat, t, m) ∧
          Copied table s.virtualAddr.toNat s.size.toNat buffer memory m :=
        readFileLoop_copies h.length h.inRange (framesDistinct_of_nodup (h.frames ▸ hd)) hmapped
          (fun n p halign hp => chunk_consecutive hsegment (.inl (by omega)) halign hp) (Nat.zero_le _)
          (Nat.le_refl _) (fun _ => .inl rfl) rfl (Copied.zero table _ buffer memory)
      have hfun : s.readAddr fs = fun i => frameAddr fs (s.virtualAddr.toNat + i) := by
        funext i
        rw [Segment.readAddr, if_neg hlt]
      refine ⟨t, ?_, h.congr (readFileLoop_mapping hloop)⟩
      rw [Nat.add_zero, Nat.sub_zero] at hloop
      rw [hloop, ok_bind, hfun]
      have hm : m = scatter memory s.size.toNat (fun i => frameAddr fs (s.virtualAddr.toNat + i))
          (s.bytes file) := by
        refine eq_scatter (fun i hi => ?_) fun x hx => hcopied.others x fun i hi hp => ?_
        · rw [hcopied.bytes i hi _ (h.physAddr (by omega)), hbytes i hi]
        · exact hx i hi (h.physAddr_eq_some.mp hp).2
      rw [hm]
  · refine ⟨table, ?_, h⟩
    rw [readSegment, if_neg (by omega), Nat.eq_zero_of_not_pos hpos, scatter_zero]

end

/-- A program that can be loaded lies in the first free frames, with its bytes where `readAddr` says. -/
theorem load_eq (hp : IsProgram file noffH) (junk : Buffers) (memory : Bytes)
    (hb : virtMem.numBits = numPhysPages) (hroom : noffH.numPages ≤ virtMem.numClear)
    (hcode : noffH.code.Fits ((freeFrames virtMem.marked).take noffH.numPages))
    (hdata : noffH.initData.Fits ((freeFrames virtMem.marked).take noffH.numPages)) :
    let fs := (freeFrames virtMem.marked).take noffH.numPages
    ∃ t b', load noffH file junk virtMem memory = .ok (t, b', noffH.placed file fs (Segment.readAddr fs) memory) ∧
      Full fs t ∧ Allocated virtMem b' fs ∧ fs.length = noffH.numPages := by
  obtain ⟨t, b', hinit, hfull, ha, hlen⟩ := initializePageTable_full hb hroom memory
  intro fs
  have hlen' : fs.length = noffH.numPages := hfull.length.symm.trans hlen
  rw [hfull.frames] at ha
  obtain ⟨t₁, h₁, hfull₁⟩ := readSegment_eq hfull ha.nodup (hlen'.symm ▸ hp.code.2) hp.code.1 hcode junk.code
    (zeroFrames fs memory)
  obtain ⟨t₂, h₂, hfull₂⟩ := readSegment_eq hfull₁ ha.nodup (hlen'.symm ▸ hp.initData.2) hp.initData.1 hdata
    junk.initData (scatter (zeroFrames fs memory) noffH.code.size.toNat (noffH.code.readAddr fs)
      (noffH.code.bytes file))
  rw [hlen'] at h₁ h₂
  refine ⟨t₂, b', ?_, hfull₂, ha, hlen'⟩
  rw [load, hinit]
  dsimp only
  rw [h₁, ok_bind]
  dsimp only
  rw [h₂, ok_bind]
  rfl

/-! ## The image -/

section

variable {s : Segment} (hd : fs.Nodup) (hin : s.InImage fs.length)
include hin

include hd in
/-- A segment whose bytes are all in place. -/
theorem scatter_ownAddr (file : List (BitVec 8)) (hv : v < fs.length * pageSize) :
    scatter memory s.size.toNat (s.ownAddr fs) (s.bytes file) (frameAddr fs v) =
      if s.Covers v then s.bytes file (v - s.virtualAddr.toNat) else memory (frameAddr fs v) := by
  by_cases hpos : 0 < s.size.toNat
  · obtain ⟨-, -, hle⟩ := hin.nat hpos
    have hinj : ∀ i < s.size.toNat, ∀ j < s.size.toNat, s.ownAddr fs i = s.ownAddr fs j → i = j := by
      intro i hi j hj heq
      have := frameAddr_inj hd (by omega) (by omega) heq
      omega
    by_cases hc : s.Covers v
    · obtain ⟨h₁, h₂⟩ := hc
      have hown : frameAddr fs v = s.ownAddr fs (v - s.virtualAddr.toNat) := by
        rw [Segment.ownAddr, Nat.add_sub_cancel' h₁]
      rw [if_pos ⟨h₁, h₂⟩, hown, scatter_apply_addr hinj (by omega)]
    · rw [if_neg hc]
      refine scatter_apply_of_ne fun i hi heq => hc ?_
      have := frameAddr_inj hd (by omega) hv heq
      exact ⟨by omega, by omega⟩
  · rw [Nat.eq_zero_of_not_pos hpos, scatter_zero, if_neg]
    rintro ⟨h₁, h₂⟩
    omega

theorem scatter_ownAddr_of_notMem (file : List (BitVec 8)) {x : Nat} (hx : x / pageSize ∉ fs) :
    scatter memory s.size.toNat (s.ownAddr fs) (s.bytes file) x = memory x := by
  refine scatter_apply_of_ne fun i hi heq => hx ?_
  obtain ⟨-, -, hle⟩ := hin.nat (by omega)
  rw [← heq]
  exact frameAddr_div_mem (by omega)

end

/-- With every byte at its own address, the program finds its image, and the frames of others are
as they were. -/
theorem placed_ownAddr (hd : fs.Nodup) (hcode : noffH.code.InImage fs.length)
    (hdata : noffH.initData.InImage fs.length) (file : List (BitVec 8)) (memory : Bytes) :
    (∀ v < fs.length * pageSize,
      noffH.placed file fs (Segment.ownAddr fs) memory (frameAddr fs v) = noffH.image file v) ∧
    ∀ x, x / pageSize ∉ fs → noffH.placed file fs (Segment.ownAddr fs) memory x = memory x := by
  constructor
  · intro v hv
    have hzero : zeroFrames fs memory (frameAddr fs v) = 0 := if_pos (frameAddr_div_mem hv)
    rw [NoffHeader.placed, scatter_ownAddr hd hdata file hv, scatter_ownAddr hd hcode file hv, hzero]
    rfl
  · intro x hx
    rw [NoffHeader.placed, scatter_ownAddr_of_notMem hdata file hx, scatter_ownAddr_of_notMem hcode file hx]
    exact if_neg hx

/-! ## Segments that do not cross a page -/

/-- The segment has a page or more, or lies in one page. -/
def Segment.Confined (s : Segment) : Prop :=
  (pageSize : Int) ≤ s.size.toInt ∨ s.virtualAddr.toNat % pageSize + s.size.toNat ≤ pageSize

instance (s : Segment) : Decidable s.Confined := inferInstanceAs (Decidable (_ ∨ _))

def NoffHeader.Confined (noffH : NoffHeader) : Prop := noffH.code.Confined ∧ noffH.initData.Confined

instance (noffH : NoffHeader) : Decidable noffH.Confined := inferInstanceAs (Decidable (_ ∧ _))

section

variable {s : Segment}

theorem Segment.Confined.inMemory (h : s.Confined) (hr : ∀ f ∈ fs, f < numPhysPages)
    (hin : s.InImage fs.length) (hpos : 0 < s.size.toInt) : s.InMemory fs := by
  intro hlt
  have hsize := toInt_eq_toNat_of_nonneg hin.1
  obtain ⟨-, -, hle⟩ := hin.nat (by omega)
  have hmem := frameAddr_add_le hr (v := s.virtualAddr.toNat) (by omega) (h.resolve_left (by omega))
  omega

/-- Each byte of it is put at its own address. -/
theorem Segment.Confined.readAddr_eq (h : s.Confined) (hin : s.InImage fs.length) {i : Nat}
    (hi : i < s.size.toNat) : s.readAddr fs i = s.ownAddr fs i := by
  rw [Segment.readAddr, Segment.ownAddr]
  split
  next hlt =>
    have hsize := toInt_eq_toNat_of_nonneg hin.1
    have hpage := h.resolve_left (by omega)
    have hdiv : (s.virtualAddr.toNat + i) / pageSize = s.virtualAddr.toNat / pageSize := by
      unfold pageSize at *
      omega
    have hmod : (s.virtualAddr.toNat + i) % pageSize = s.virtualAddr.toNat % pageSize + i := by
      unfold pageSize at *
      omega
    rw [frameAddr, frameAddr, hdiv, hmod, Nat.add_assoc]
  next => rfl

theorem NoffHeader.Confined.placed_eq (h : noffH.Confined) (hcode : noffH.code.InImage fs.length)
    (hdata : noffH.initData.InImage fs.length) (file : List (BitVec 8)) (memory : Bytes) :
    noffH.placed file fs (Segment.readAddr fs) memory = noffH.placed file fs (Segment.ownAddr fs) memory := by
  rw [NoffHeader.placed, scatter_congr_addr fun i hi => h.2.readAddr_eq hdata hi,
    scatter_congr_addr fun i hi => h.1.readAddr_eq hcode hi]
  rfl

end

end Nachos
