import Nachos.Bin.Coff2noff

/-!
# What coff2noff preserves (bin/coff2noff.c, bin/noff.h)

* `readHeader_headerBytes`: the header reads back as it was written;
* `Preserves`: loaded by its header, a NOFF file has the image of the sections of a COFF file;
* `Converted.preserves_iff`: when the file of the converter has it;
* `representable_iff`: when there is a file that has it;
* `coff2noff_faithful_iff`: when the converter preserves the image, and takes all files whose image
  can be preserved.
-/

namespace Nachos.Coff2noff

open Nachos.Framework

variable {coff out body : List (BitVec 8)} {before : List Scnhdr} {s : Scnhdr} {c c' : Converter}
variable {junk : NoffHeader} {h : NoffHeader}

/-! ## The headers -/

/-- `numsections`. -/
def numsections (coff : List (BitVec 8)) : Nat := (halfAt (ofList (coff.take filehdrSize)) 2).toNat

def sections (coff : List (BitVec 8)) : List Scnhdr :=
  (List.range (numsections coff)).map (scnhdrAt (ofList
    ((coff.drop (filehdrSize + aouthdrSize)).take (numsections coff * scnhdrSize))))

/-- The file has all of its headers, and the right magic numbers. -/
structure IsCoff (coff : List (BitVec 8)) : Prop where
  length : filehdrSize + aouthdrSize + numsections coff * scnhdrSize ≤ coff.length
  mipsel : halfAt (ofList (coff.take filehdrSize)) 0 = mipselMagic
  omagic : halfAt (ofList ((coff.drop filehdrSize).take aouthdrSize)) 0 = omagic

theorem read_of_le {file : List (BitVec 8)} {position n : Nat} (h : position + n ≤ file.length) :
    read file position n = .ok ((file.drop position).take n, position + n) := by
  have hlength : ((file.drop position).take n).length = n := by
    rw [List.length_take, List.length_drop]
    omega
  rw [read, if_pos (by omega), Int.toNat_natCast]
  show (if ((file.drop position).take n).length = n then _ else _) = _
  rw [if_pos hlength, hlength]

theorem read_of_lt {file : List (BitVec 8)} {position n : Nat} (hn : 0 < n)
    (h : file.length < position + n) : read file position n = .error .tooShort := by
  have hlength : ((file.drop position).take n).length ≠ n := by
    rw [List.length_take, List.length_drop]
    omega
  rw [read, if_pos (by omega), Int.toNat_natCast]
  exact if_neg hlength

/-- What is left when the headers have been read. -/
theorem coff2noff_of_isCoff (junk : NoffHeader) (hcoff : IsCoff coff) :
    ∃ position, coff2noff junk coff = convertSections coff (sections coff)
      ⟨initialHeader junk, BitVec.ofNat 32 noffHeaderSize, position, []⟩ >>= fun c =>
        .ok (headerBytes c.noffH ++ c.body) := by
  obtain ⟨hlength, hmipsel, homagic⟩ := hcoff
  refine ⟨filehdrSize + aouthdrSize + numsections coff * scnhdrSize, ?_⟩
  rw [coff2noff, read_of_le (by omega), ok_bind]
  change (if halfAt (ofList (coff.take filehdrSize)) 0 ≠ _ then _ else _) = _
  rw [if_neg (not_not.mpr hmipsel), read_of_le (by omega), ok_bind]
  change (if halfAt (ofList ((coff.drop _).take aouthdrSize)) 0 ≠ _ then _ else _) = _
  rw [Nat.zero_add, if_neg (not_not.mpr homagic)]
  change read coff _ ((numsections coff * scnhdrSize : Nat) : Int) >>= _ = _
  rw [read_of_le hlength, ok_bind]
  rfl

theorem coff2noff_of_not_isCoff (junk : NoffHeader) (hcoff : ¬ IsCoff coff) :
    ∃ e, coff2noff junk coff = .error e := by
  by_cases hfile : filehdrSize ≤ coff.length
  · rw [coff2noff, read_of_le (by omega), ok_bind]
    change ∃ e, (if halfAt (ofList (coff.take filehdrSize)) 0 ≠ _ then _ else _) = _
    by_cases hmipsel : halfAt (ofList (coff.take filehdrSize)) 0 = mipselMagic
    · rw [if_neg (not_not.mpr hmipsel)]
      by_cases hsystem : filehdrSize + aouthdrSize ≤ coff.length
      · rw [read_of_le (by omega), ok_bind]
        change ∃ e, (if halfAt (ofList ((coff.drop _).take aouthdrSize)) 0 ≠ _ then _ else _) = _
        rw [Nat.zero_add]
        by_cases homagic : halfAt (ofList ((coff.drop filehdrSize).take aouthdrSize)) 0 = omagic
        · rw [if_neg (not_not.mpr homagic)]
          have hlength : ¬ filehdrSize + aouthdrSize + numsections coff * scnhdrSize ≤ coff.length :=
            fun hlength => hcoff ⟨hlength, hmipsel, homagic⟩
          change ∃ e, read coff _ ((numsections coff * scnhdrSize : Nat) : Int) >>= _ = _
          rw [read_of_lt (by omega) (by omega)]
          exact ⟨_, rfl⟩
        · rw [if_pos homagic]
          exact ⟨_, rfl⟩
      · rw [read_of_lt (by decide) (by omega)]
        exact ⟨_, rfl⟩
    · rw [if_pos hmipsel]
      exact ⟨_, rfl⟩
  · rw [coff2noff, read_of_lt (by decide) (by omega)]
    exact ⟨_, rfl⟩

/-- Words written one after the other. -/
theorem wordAt_flatMap_bytesOf (ws : List (BitVec 32)) (body : List (BitVec 8)) (junk : Bytes)
    {j : Nat} (hj : j < ws.length) : wordAt (fun i =>
      (((ws.flatMap fun w => (List.range 4).map (bytesOf w)) ++ body)[i]?).getD (junk i)) (4 * j) =
    ws[j] := by
  induction ws generalizing j junk with
  | nil => cases hj
  | cons w ws ih =>
    have hlength : ((List.range 4).map (bytesOf w)).length = 4 := rfl
    rw [List.flatMap_cons, List.append_assoc]
    cases j with
    | zero =>
      rw [List.getElem_cons_zero, ← wordAt_bytesOf w]
      refine wordAt_congr fun i hi => ?_
      rw [wordAt_bytesOf, List.getElem?_append_left (by omega), Nat.mul_zero, List.getElem?_map,
        List.getElem?_range (by omega)]
      rfl
    | succ j =>
      rw [List.getElem_cons_succ, ← ih (fun i => junk (i + 4)) (Nat.lt_of_succ_lt_succ hj)]
      refine wordAt_congr fun i hi => ?_
      rw [List.getElem?_append_right (by omega), hlength,
        show 4 * (j + 1) + i - 4 = 4 * j + i by omega,
        show 4 * (j + 1) + i = 4 * j + i + 4 by omega]

theorem readHeader_headerBytes (hmagic : h.noffMagic = noffMagic) (body : List (BitVec 8))
    (junk : Bytes) : readHeader (headerBytes h ++ body) junk = .ok h := by
  let buffer : Bytes := fun i => ((headerBytes h ++ body)[i]?).getD (junk i)
  have hread : readAt (headerBytes h ++ body) junk 0 = .ok buffer := by
    rw [readAt, assert, if_pos (Int.le_refl 0), ok_bind]
    refine congrArg Except.ok (funext fun i => ?_)
    rw [Int.toNat_zero, Nat.zero_add]
  have hword (j : Nat) (hj : j < 10) : wordAt buffer (4 * j) = _ :=
    wordAt_flatMap_bytesOf [h.noffMagic, h.code.virtualAddr, h.code.inFileAddr, h.code.size,
      h.initData.virtualAddr, h.initData.inFileAddr, h.initData.size, h.uninitData.virtualAddr,
      h.uninitData.inFileAddr, h.uninitData.size] body junk hj
  have hheader : (⟨wordAt buffer 0, segmentAt buffer 4, segmentAt buffer 16, segmentAt buffer 28⟩ :
      NoffHeader) = h := by
    have hcode : segmentAt buffer 4 = h.code := by
      rw [segmentAt, hword 1 (by omega), hword 2 (by omega), hword 3 (by omega)]
      rfl
    have hinitData : segmentAt buffer 16 = h.initData := by
      rw [segmentAt, hword 4 (by omega), hword 5 (by omega), hword 6 (by omega)]
      rfl
    have huninitData : segmentAt buffer 28 = h.uninitData := by
      rw [segmentAt, hword 7 (by omega), hword 8 (by omega), hword 9 (by omega)]
      rfl
    rw [hword 0 (by omega), hcode, hinitData, huninitData]
    rfl
  rw [readHeader, hread, ok_bind]
  show (assert _ >>= fun _ => Except.ok _) = _
  rw [hheader, if_neg (fun hne => hne.1 hmagic), assert, if_pos hmagic]
  rfl

/-! ## The image -/

/-- The section has a byte for the address. -/
def Scnhdr.covers (s : Scnhdr) (a : Nat) : Prop :=
  s.s_paddr.toNat ≤ a ∧ a < s.s_paddr.toNat + s.s_size.toNat

instance (s : Scnhdr) (a : Nat) : Decidable (s.covers a) := inferInstanceAs (Decidable (_ ∧ _))

def Scnhdr.byteAt (coff : List (BitVec 8)) (s : Scnhdr) (a : Nat) : Option (BitVec 8) :=
  coff[s.s_scnptr.toNat + (a - s.s_paddr.toNat)]?

def holds (segment : Segment) (a : Nat) : Prop :=
  segment.virtualAddr.toNat ≤ a ∧ a < segment.virtualAddr.toNat + segment.size.toNat

instance (segment : Segment) (a : Nat) : Decidable (holds segment a) :=
  inferInstanceAs (Decidable (_ ∧ _))

def segmentByte (out : List (BitVec 8)) (segment : Segment) (a : Nat) : Option (BitVec 8) :=
  out[segment.inFileAddr.toNat + (a - segment.virtualAddr.toNat)]?

/-- What a loader copies to the address, with `initData` after `code`. -/
def loaded (out : List (BitVec 8)) (h : NoffHeader) (a : Nat) : Option (BitVec 8) :=
  if holds h.initData a then segmentByte out h.initData a
  else if holds h.code a then segmentByte out h.code a
  else none

/-- The NOFF file, with the header `h`, has the image of the sections. -/
structure Preserves (coff out : List (BitVec 8)) (h : NoffHeader) : Prop where
  header : ∀ junk, readHeader out junk = .ok h
  copied : ∀ s ∈ sections coff, s.isText ∨ s.isData → ∀ a, s.covers a →
    ∃ byte, s.byteAt coff a = some byte ∧ loaded out h a = some byte
  apart : [Set.Ico 0 noffHeaderSize, fileRange h.code, fileRange h.initData].Pairwise Disjoint
  zeroed : ∀ a, holds h.uninitData a ↔ ∃ s ∈ bsss (sections coff), s.covers a

/-- Each byte of a `.text` section is the byte of the data section at its address or, where the data
section does not lie, of the last `.text` section. -/
def TextsAgree (coff : List (BitVec 8)) : Prop :=
  ∀ s ∈ texts (sections coff), ∀ a, s.covers a →
    (∃ d ∈ datas (sections coff), d.covers a ∧ d.byteAt coff a = s.byteAt coff a) ∨
    ((∀ d ∈ datas (sections coff), ¬ d.covers a) ∧ ∃ l, (texts (sections coff)).getLast? = some l ∧
      l.covers a ∧ l.byteAt coff a = s.byteAt coff a)

theorem length_headerBytes (h : NoffHeader) : (headerBytes h).length = noffHeaderSize := rfl

theorem Stored.holds_iff {segment : Segment} {o : Option Scnhdr} (hst : Stored coff body segment o)
    (a : Nat) : holds segment a ↔ ∃ s, o = some s ∧ s.covers a := by
  cases o with
  | none =>
    have hsize : segment.size.toNat = 0 := toNat_eq_zero_iff.mpr hst
    refine ⟨fun ⟨hge, hlt⟩ => ?_, fun ⟨s, hs, _⟩ => by cases hs⟩
    omega
  | some s =>
    obtain ⟨haddr, hsize, -⟩ := hst
    rw [holds, haddr, hsize]
    exact ⟨fun hs => ⟨s, rfl, hs⟩, fun ⟨_, hs, hcovers⟩ => by cases hs; exact hcovers⟩

theorem Stored.segmentByte {segment : Segment} (hst : Stored coff body segment (some s))
    (h : NoffHeader) {a : Nat} (ha : s.covers a) :
    segmentByte (headerBytes h ++ body) segment a = s.byteAt coff a := by
  obtain ⟨haddr, hsize, hfile, written, rest, rfl, hin⟩ := hst
  obtain ⟨hge, hlt⟩ := ha
  have hlength := Scnhdr.length_bytes hfile
  have hheader := length_headerBytes h
  rw [Coff2noff.segmentByte, haddr, hin, Scnhdr.byteAt, List.getElem?_append_right (by omega),
    List.append_assoc, List.getElem?_append_right (by omega), List.getElem?_append_left (by omega),
    Scnhdr.bytes, List.getElem?_take_of_lt (by omega), List.getElem?_drop]
  congr 1
  omega

theorem Scnhdr.byteAt_isSome (hfile : s.InFile coff) {a : Nat} (ha : s.covers a) :
    ∃ byte, s.byteAt coff a = some byte := by
  obtain ⟨hge, hlt⟩ := ha
  have hfile : s.s_scnptr.toNat + s.s_size.toNat ≤ coff.length := hfile
  exact ⟨_, List.getElem?_eq_getElem (by omega)⟩

theorem mem_texts {l : List Scnhdr} : s ∈ texts l ↔ s ∈ l ∧ s.isText = true := List.mem_filter

theorem mem_datas {l : List Scnhdr} : s ∈ datas l ↔ s ∈ l ∧ s.isData = true := List.mem_filter

/-- With at most one section, the last one is the only one. -/
theorem eq_of_length_le_one {α : Type} {l : List α} (hl : l.length ≤ 1) {x : α} (hx : x ∈ l) :
    l = [x] := by
  match l, hl with
  | [y], _ => rw [List.mem_singleton.mp hx]

/-- The converter has copied the sections of the file; its `uninitData` may be any. -/
structure Copied (coff : List (BitVec 8)) (c : Converter) : Prop where
  magic : c.noffH.noffMagic = noffMagic
  code : Stored coff c.body c.noffH.code (texts (sections coff)).getLast?
  initData : Stored coff c.body c.noffH.initData (datas (sections coff)).getLast?
  apart : Disjoint (fileRange c.noffH.code) (fileRange c.noffH.initData)
  data : (datas (sections coff)).length ≤ 1

def Converter.noffFile (c : Converter) : List (BitVec 8) := headerBytes c.noffH ++ c.body

theorem Copied.loaded_of_data {d : Scnhdr} (hc : Copied coff c) (hd : d ∈ datas (sections coff))
    {a : Nat} (ha : d.covers a) : loaded c.noffFile c.noffH a = d.byteAt coff a := by
  have hdata := hc.initData
  rw [eq_of_length_le_one hc.data hd] at hdata
  rw [loaded, if_pos ((hdata.holds_iff a).mpr ⟨d, rfl, ha⟩)]
  exact hdata.segmentByte c.noffH ha

theorem Copied.not_holds_initData (hc : Copied coff c) {a : Nat}
    (ha : ∀ d ∈ datas (sections coff), ¬ d.covers a) : ¬ holds c.noffH.initData a := by
  intro hholds
  obtain ⟨d, hd, hcovers⟩ := (hc.initData.holds_iff a).mp hholds
  exact ha d (List.mem_of_getLast? hd) hcovers

theorem Copied.loaded_of_text {t : Scnhdr} (hc : Copied coff c) {a : Nat}
    (hno : ∀ d ∈ datas (sections coff), ¬ d.covers a)
    (ht : (texts (sections coff)).getLast? = some t) (ha : t.covers a) :
    loaded c.noffFile c.noffH a = t.byteAt coff a := by
  have hcode := hc.code
  rw [ht] at hcode
  rw [loaded, if_neg (hc.not_holds_initData hno), if_pos ((hcode.holds_iff a).mpr ⟨t, rfl, ha⟩)]
  exact hcode.segmentByte c.noffH ha

theorem Copied.last_covers {byte : BitVec 8} (hc : Copied coff c) {a : Nat}
    (hno : ∀ d ∈ datas (sections coff), ¬ d.covers a) (h : loaded c.noffFile c.noffH a = some byte) :
    ∃ t, (texts (sections coff)).getLast? = some t ∧ t.covers a := by
  rw [loaded, if_neg (hc.not_holds_initData hno)] at h
  by_cases hholds : holds c.noffH.code a
  · exact (hc.code.holds_iff a).mp hholds
  · rw [if_neg hholds] at h
    cases h

theorem Copied.apart_header (hc : Copied coff c) :
    [Set.Ico 0 noffHeaderSize, fileRange c.noffH.code, fileRange c.noffH.initData].Pairwise
      Disjoint := by
  have hbehind {segment : Segment} {o : Option Scnhdr} (h : Stored coff c.body segment o) :
      Disjoint (Set.Ico 0 noffHeaderSize) (fileRange segment) := by
    rw [Set.disjoint_left]
    intro x hx hx'
    exact absurd hx.2 (Nat.not_lt.mpr (h.mem_fileRange hx').1)
  simp only [List.pairwise_cons, List.mem_cons, List.not_mem_nil, or_false, forall_eq_or_imp,
    forall_eq, IsEmpty.forall_iff, implies_true, List.Pairwise.nil, and_true]
  exact ⟨⟨hbehind hc.code, hbehind hc.initData⟩, hc.apart⟩

/-- When the file that is written has the image. -/
theorem Copied.preserves_iff (hc : Copied coff c)
    (hfile : ∀ s ∈ sections coff, s.isText ∨ s.isData → s.InFile coff) :
    Preserves coff c.noffFile c.noffH ↔ TextsAgree coff ∧
      ∀ a, holds c.noffH.uninitData a ↔ ∃ s ∈ bsss (sections coff), s.covers a := by
  constructor
  · intro h
    refine ⟨fun s hs a ha => ?_, h.zeroed⟩
    obtain ⟨hmem, htext⟩ := mem_texts.mp hs
    obtain ⟨byte, hbyte, hloaded⟩ := h.copied s hmem (.inl htext) a ha
    by_cases hd : ∃ d ∈ datas (sections coff), d.covers a
    · obtain ⟨d, hd, hcovers⟩ := hd
      refine .inl ⟨d, hd, hcovers, ?_⟩
      rw [← hc.loaded_of_data hd hcovers, hloaded, hbyte]
    · have hno : ∀ d ∈ datas (sections coff), ¬ d.covers a := fun d hmem hcovers =>
        hd ⟨d, hmem, hcovers⟩
      obtain ⟨t, ht, hcovers⟩ := hc.last_covers hno hloaded
      refine .inr ⟨hno, t, ht, hcovers, ?_⟩
      rw [← hc.loaded_of_text hno ht hcovers, hloaded, hbyte]
  · rintro ⟨hagree, hzeroed⟩
    refine ⟨readHeader_headerBytes hc.magic c.body, fun s hs hkind a ha => ?_, hc.apart_header,
      hzeroed⟩
    obtain ⟨byte, hbyte⟩ := Scnhdr.byteAt_isSome (hfile s hs hkind) ha
    refine ⟨byte, hbyte, ?_⟩
    obtain htext | hdata := hkind
    · obtain ⟨d, hd, hcovers, heq⟩ | ⟨hno, t, ht, hcovers, heq⟩ :=
        hagree s (mem_texts.mpr ⟨hs, htext⟩) a ha
      · rw [hc.loaded_of_data hd hcovers, heq, hbyte]
      · rw [hc.loaded_of_text hno ht hcovers, heq, hbyte]
    · rw [hc.loaded_of_data (mem_datas.mpr ⟨hs, hdata⟩) ha, hbyte]

/-! ## What is taken -/

/-- A section begins where the ones before it, added up, end. -/
def Adjacent : List Scnhdr → List Scnhdr → Prop
  | _, [] => False
  | before, s :: rest => Meets before s ∨ Adjacent (before ++ [s]) rest

instance Adjacent.decidable : ∀ before rest, Decidable (Adjacent before rest)
  | _, [] => isFalse id
  | before, s :: rest =>
    have := Adjacent.decidable (before ++ [s]) rest
    inferInstanceAs (Decidable (_ ∨ _))

/-- The headers of the file are there, the names of its sections are known, and so is what they hold. -/
structure Readable (coff : List (BitVec 8)) : Prop where
  isCoff : IsCoff coff
  recognised : ∀ s ∈ sections coff, s.Recognised
  inFile : ∀ s ∈ sections coff, s.isText ∨ s.isData → s.InFile coff

/-- The program does not end because of that, or of two data sections. -/
structure Fit (coff : List (BitVec 8)) : Prop extends Readable coff where
  data : (datas (sections coff)).length ≤ 1

theorem takes_iff : Takes coff before s ↔ s.Recognised ∧ (s.isText ∨ s.isData → s.InFile coff) ∧
    (s.isData → datas before = []) ∧ (s.isBss → ¬ Meets (bsss before) s) :=
  ⟨fun ⟨h₁, h₂, h₃, h₄⟩ => ⟨h₁, h₂, h₃, h₄⟩, fun ⟨h₁, h₂, h₃, h₄⟩ => ⟨h₁, h₂, h₃, h₄⟩⟩

theorem takesAll_iff {rest : List Scnhdr} : TakesAll coff before rest ↔
    (∀ s ∈ rest, s.Recognised) ∧ (∀ s ∈ rest, s.isText ∨ s.isData → s.InFile coff) ∧
    (datas rest = [] ∨ datas before = [] ∧ (datas rest).length ≤ 1) ∧
    ¬ Adjacent (bsss before) (bsss rest) := by
  induction rest generalizing before with
  | nil =>
    refine ⟨fun _ => ⟨?_, ?_, .inl rfl, id⟩, fun _ => trivial⟩ <;> simp
  | cons s rest ih =>
    have hdatas : (s.isData → datas before = []) ∧
        (datas rest = [] ∨ datas (before ++ [s]) = [] ∧ (datas rest).length ≤ 1) ↔
        (datas (s :: rest) = [] ∨ datas before = [] ∧ (datas (s :: rest)).length ≤ 1) := by
      rw [datas, datas, datas, datas, filter_snoc, List.filter_cons]
      cases s.isData with
      | false => simp
      | true => simp [and_comm]
    have hbsss : (s.isBss → ¬ Meets (bsss before) s) ∧
        ¬ Adjacent (bsss (before ++ [s])) (bsss rest) ↔
        ¬ Adjacent (bsss before) (bsss (s :: rest)) := by
      rw [bsss, bsss, bsss, bsss, filter_snoc, List.filter_cons]
      cases s.isBss with
      | false => simp
      | true => simp [Adjacent]
    rw [TakesAll, ih, takes_iff, ← hdatas, ← hbsss, List.forall_mem_cons, List.forall_mem_cons]
    constructor
    · rintro ⟨⟨hrec, hfile, hdata, hbss⟩, hrecs, hfiles, hdatas, hbsss⟩
      exact ⟨⟨hrec, hrecs⟩, ⟨hfile, hfiles⟩, ⟨hdata, hdatas⟩, hbss, hbsss⟩
    · rintro ⟨⟨hrec, hrecs⟩, ⟨hfile, hfiles⟩, ⟨hdata, hdatas⟩, hbss, hbsss⟩
      exact ⟨⟨hrec, hfile, hdata, hbss⟩, hrecs, hfiles, hdatas, hbsss⟩

theorem takesAll_sections_iff (hcoff : IsCoff coff) : TakesAll coff [] (sections coff) ↔
    Fit coff ∧ ¬ Adjacent [] (bsss (sections coff)) := by
  have hdata : (datas (sections coff) = [] ∨ datas [] = [] ∧ (datas (sections coff)).length ≤ 1) ↔
      (datas (sections coff)).length ≤ 1 := by
    refine ⟨?_, fun h => .inr ⟨rfl, h⟩⟩
    rintro (h | h)
    · rw [h]
      exact Nat.zero_le 1
    · exact h.2
  rw [takesAll_iff, hdata]
  constructor
  · rintro ⟨hrec, hfile, hdata, hbss⟩
    exact ⟨⟨⟨hcoff, hrec, hfile⟩, hdata⟩, hbss⟩
  · rintro ⟨⟨⟨-, hrec, hfile⟩, hdata⟩, hbss⟩
    exact ⟨hrec, hfile, hdata, hbss⟩

/-- Which files the program converts. -/
theorem coff2noff_spec (junk : NoffHeader) (hno : NoOverflow (sections coff)) :
    ((Fit coff ∧ ¬ Adjacent [] (bsss (sections coff))) ∧ ∃ c,
      coff2noff junk coff = .ok c.noffFile ∧ Converted coff (sections coff) c) ∨
    (¬ (Fit coff ∧ ¬ Adjacent [] (bsss (sections coff))) ∧ ∃ e, coff2noff junk coff = .error e) := by
  by_cases hcoff : IsCoff coff
  · obtain ⟨position, heq⟩ := coff2noff_of_isCoff junk hcoff
    rw [heq, ← takesAll_sections_iff hcoff]
    obtain ⟨hall, c, hok, hc⟩ | ⟨hall, e, herror⟩ :=
      convertSections_spec (show Converted coff [] _ from initial_converted junk position)
        (show NoOverflow ([] ++ sections coff) from hno)
    · rw [hok, ok_bind]
      exact .inl ⟨hall, c, rfl, hc⟩
    · rw [herror]
      exact .inr ⟨hall, e, rfl⟩
  · exact .inr ⟨fun h => hcoff h.1.isCoff, coff2noff_of_not_isCoff junk hcoff⟩

theorem Converted.copied {l : List Scnhdr} (hc : Converted coff l c)
    (htexts : texts l = texts (sections coff)) (hdatas : datas l = datas (sections coff))
    (hone : (datas (sections coff)).length ≤ 1) : Copied coff c := by
  have hcode := hc.code
  have hdata := hc.initData
  rw [htexts] at hcode
  rw [hdatas] at hdata
  exact ⟨hc.magic, hcode, hdata, hc.apart, hone⟩

/-! ## The image of a file -/

/-- The addresses from the first section on, for the size of all of them. -/
def Spans : List Scnhdr → Nat → Prop
  | [], _ => False
  | first :: rest, a =>
    first.s_paddr.toNat ≤ a ∧ a < first.s_paddr.toNat + total (first :: rest)

instance : ∀ l a, Decidable (Spans l a)
  | [], _ => isFalse id
  | _ :: _, _ => inferInstanceAs (Decidable (_ ∧ _))

theorem Gathered.holds_iff {segment : Segment} {l : List Scnhdr} (h : Gathered segment l) (a : Nat) :
    holds segment a ↔ Spans l a := by
  cases l with
  | nil =>
    have hsize : segment.size.toNat = 0 := toNat_eq_zero_iff.mpr h
    refine ⟨fun ⟨hge, hlt⟩ => ?_, False.elim⟩
    omega
  | cons first rest =>
    rw [holds, h.1, h.2]
    rfl

/-- The sections together are one range of addresses. -/
def OneRange (l : List Scnhdr) : Prop :=
  ∃ lo hi, ∀ a, (∃ s ∈ l, s.covers a) ↔ lo ≤ a ∧ a < hi

/-- The sections with bytes have the same ones where they lie over each other. -/
def Consistent (coff : List (BitVec 8)) : Prop :=
  ∀ s ∈ sections coff, s.isText ∨ s.isData → ∀ t ∈ sections coff, t.isText ∨ t.isData →
    ∀ a, s.covers a → t.covers a → s.byteAt coff a = t.byteAt coff a

/-- There is a NOFF file with the image of the sections. -/
structure Representable (coff : List (BitVec 8)) : Prop where
  isCoff : IsCoff coff
  recognised : ∀ s ∈ sections coff, s.Recognised
  preserved : ∃ out h, Preserves coff out h

/-- A segment for a range of sections. -/
theorem OneRange.exists_segment {l : List Scnhdr} (h : OneRange l)
    (hlongs : ∀ s ∈ l, s.s_paddr.toNat < 2 ^ 31 ∧ s.s_size.toNat < 2 ^ 31) :
    ∃ segment, ∀ a, holds segment a ↔ ∃ s ∈ l, s.covers a := by
  obtain ⟨lo, hi, hrange⟩ := h
  by_cases hlt : lo < hi
  · have hmem (a : Nat) (hge : lo ≤ a) (hlt : a < hi) : a < 2 ^ 32 - 1 := by
      obtain ⟨s, hs, hcovers⟩ := (hrange a).mpr ⟨hge, hlt⟩
      have hlong := hlongs s hs
      have hend := hcovers.2
      omega
    have hlo := hmem lo (Nat.le_refl lo) hlt
    have hhi := hmem (hi - 1) (by omega) (by omega)
    refine ⟨⟨BitVec.ofNat 32 lo, 0, BitVec.ofNat 32 (hi - lo)⟩, fun a => ?_⟩
    rw [hrange, holds, BitVec.toNat_ofNat, BitVec.toNat_ofNat, Nat.mod_eq_of_lt (by omega),
      Nat.mod_eq_of_lt (by omega)]
    omega
  · refine ⟨⟨0, 0, 0⟩, fun a => ?_⟩
    rw [hrange]
    show 0 ≤ a ∧ a < 0 + 0 ↔ _
    omega

theorem size_le_total {l : List Scnhdr} (hs : s ∈ l) : s.s_size.toNat ≤ total l := by
  obtain ⟨l₁, l₂, rfl⟩ := List.append_of_mem hs
  have hcons : total (s :: l₂) = s.s_size.toNat + total l₂ := rfl
  rw [total_append]
  omega

/-- The byte at the address, of the first section that has one. -/
def imageByte (coff : List (BitVec 8)) (a : Nat) : BitVec 8 :=
  (((sections coff).find? fun s => (s.isText || s.isData) && decide (s.covers a)).bind fun s =>
    s.byteAt coff a).getD 0

theorem Consistent.byteAt_eq (hcons : Consistent coff) (hs : s ∈ sections coff) (hkind : s.isText ∨ s.isData)
    (hfile : s.InFile coff) {a : Nat} (ha : s.covers a) : s.byteAt coff a = some (imageByte coff a) := by
  obtain ⟨byte, hbyte⟩ := Scnhdr.byteAt_isSome hfile ha
  cases hfind : (sections coff).find? fun s => (s.isText || s.isData) && decide (s.covers a) with
  | none =>
    have hnone := List.find?_eq_none.mp hfind s hs
    simp only [Bool.and_eq_true, Bool.or_eq_true, decide_eq_true_eq] at hnone
    exact absurd ⟨hkind, ha⟩ hnone
  | some t =>
    have ht := List.find?_some hfind
    simp only [Bool.and_eq_true, Bool.or_eq_true, decide_eq_true_eq] at ht
    have heq := hcons s hs hkind t (List.mem_of_find?_eq_some hfind) ht.1 a ha ht.2
    rw [imageByte, hfind, Option.bind_some, ← heq, hbyte, Option.getD_some]

/-- A NOFF file with all bytes in one segment, and zeros between them. -/
def flatFile (coff : List (BitVec 8)) (n : Nat) (uninitData : Segment) : NoffHeader × List (BitVec 8) :=
  (⟨noffMagic, ⟨0, BitVec.ofNat 32 noffHeaderSize, BitVec.ofNat 32 n⟩, ⟨0, 0, 0⟩, uninitData⟩,
    (List.range n).map (imageByte coff))

theorem loaded_flatFile {n a : Nat} (hn : n < 2 ^ 32) (ha : a < n) (uninitData : Segment) :
    loaded (headerBytes (flatFile coff n uninitData).1 ++ (flatFile coff n uninitData).2)
      (flatFile coff n uninitData).1 a = some (imageByte coff a) := by
  have hdata : ¬ holds (flatFile coff n uninitData).1.initData a := fun h => Nat.not_lt_zero a h.2
  have hcode : holds (flatFile coff n uninitData).1.code a := by
    refine ⟨Nat.zero_le a, ?_⟩
    show a < 0 + (BitVec.ofNat 32 n).toNat
    rwa [BitVec.toNat_ofNat, Nat.mod_eq_of_lt hn, Nat.zero_add]
  rw [loaded, if_neg hdata, if_pos hcode, segmentByte]
  show (headerBytes _ ++ (List.range n).map (imageByte coff))[noffHeaderSize + a]? = _
  have hheader := length_headerBytes (flatFile coff n uninitData).1
  rw [List.getElem?_append_right (by omega), hheader, Nat.add_sub_cancel_left, List.getElem?_map,
    List.getElem?_range ha]
  rfl

/-- One segment is enough for all sections with bytes. -/
theorem Readable.exists_preserves (hr : Readable coff) (hno : NoOverflow (sections coff))
    (hcons : Consistent coff) (hrange : OneRange (bsss (sections coff))) : ∃ out h, Preserves coff out h := by
  have hend : ∀ s ∈ sections coff, s.s_paddr.toNat < 2 ^ 31 ∧ s.s_size.toNat < 2 ^ 31 := by
    intro s hs
    have hsize := size_le_total hs
    have hsizes := hno.sizes
    exact ⟨(hno.longs s hs).1, by omega⟩
  obtain ⟨n, hn, hle⟩ : ∃ n, n < 2 ^ 32 ∧ ∀ s ∈ sections coff, s.s_paddr.toNat + s.s_size.toNat ≤ n := by
    refine ⟨2 ^ 32 - 1, by omega, fun s hs => ?_⟩
    have hlong := hend s hs
    omega
  obtain ⟨segment, hsegment⟩ := hrange.exists_segment fun s hs => hend s (List.mem_of_mem_filter hs)
  refine ⟨_, (flatFile coff n segment).1, readHeader_headerBytes rfl (flatFile coff n segment).2,
    fun s hs hkind a ha => ?_, ?_, hsegment⟩
  · have hlt : a < n := Nat.lt_of_lt_of_le ha.2 (hle s hs)
    exact ⟨_, hcons.byteAt_eq hs hkind (hr.inFile s hs hkind) ha, loaded_flatFile hn hlt segment⟩
  · -- the data segment is empty
    have hempty : fileRange (flatFile coff n segment).1.initData = ∅ := Set.Ico_self _
    have hcode : Disjoint (Set.Ico 0 noffHeaderSize) (fileRange (flatFile coff n segment).1.code) :=
      Set.disjoint_left.mpr fun x hx hx' => absurd hx.2 (Nat.not_lt.mpr hx'.1)
    rw [hempty]
    simp only [List.pairwise_cons, List.mem_cons, List.not_mem_nil, or_false, forall_eq_or_imp, forall_eq,
      IsEmpty.forall_iff, implies_true, List.Pairwise.nil, and_true, Set.disjoint_empty]
    exact hcode

/-- What the converter is for: the file that it writes has the image of the sections, and it does not
refuse a file whose image can be represented. -/
structure Faithful (junk : NoffHeader) (coff : List (BitVec 8)) : Prop where
  preserves : ∀ out, coff2noff junk coff = .ok out → ∃ h, Preserves coff out h
  accepts : Representable coff → ∃ out, coff2noff junk coff = .ok out

/-- There is at most one data section, and no section of the `.bss` kind begins where the ones before it
end, unless the image cannot be represented anyway; and if so, those sections fill the range from the
first one on, and the `.text` sections agree. -/
def FaithfulWhen (coff : List (BitVec 8)) : Prop :=
  Readable coff →
    (1 < (datas (sections coff)).length ∨ Adjacent [] (bsss (sections coff)) →
      ¬ (Consistent coff ∧ OneRange (bsss (sections coff)))) ∧
    ((datas (sections coff)).length ≤ 1 → ¬ Adjacent [] (bsss (sections coff)) → TextsAgree coff ∧
      ∀ a, Spans (bsss (sections coff)) a ↔ ∃ s ∈ bsss (sections coff), s.covers a)

/-- Two data sections and adjacent `.bss` sections are refused. -/
theorem Faithful.not_representable (hf : Faithful junk coff) (hno : NoOverflow (sections coff))
    (hrefused : 1 < (datas (sections coff)).length ∨ Adjacent [] (bsss (sections coff))) :
    ¬ Representable coff := by
  intro hrep
  obtain ⟨out, hok⟩ := hf.accepts hrep
  obtain ⟨⟨hfit, hnone⟩, -⟩ | ⟨-, e, herror⟩ := coff2noff_spec junk hno
  · exact hrefused.elim (Nat.not_lt.mpr hfit.data) hnone
  · rw [herror] at hok
    cases hok

theorem Converted.preserves_iff (hc : Converted coff (sections coff) c) (hfit : Fit coff) :
    (∃ h, Preserves coff c.noffFile h) ↔ TextsAgree coff ∧
      ∀ a, Spans (bsss (sections coff)) a ↔ ∃ s ∈ bsss (sections coff), s.covers a := by
  have hcopied := hc.copied rfl rfl hfit.data
  have hzeroed (a : Nat) : holds c.noffH.uninitData a ↔ Spans (bsss (sections coff)) a :=
    hc.uninitData.holds_iff a
  simp only [← hzeroed]
  rw [← hcopied.preserves_iff hfit.inFile]
  refine ⟨fun ⟨h, hpreserves⟩ => ?_, fun hpreserves => ⟨_, hpreserves⟩⟩
  -- there is one header in the file
  have hread := hpreserves.header fun _ => 0
  rw [Converter.noffFile, readHeader_headerBytes hc.magic] at hread
  rwa [Except.ok.inj hread]

theorem Preserves.inFile (hp : Preserves coff out h) (hs : s ∈ sections coff)
    (hkind : s.isText ∨ s.isData) : s.InFile coff := by
  have hsize : s.s_size ≠ 0 := by
    obtain htext | hdata := hkind
    · exact (Scnhdr.size_ne_zero_of_isText htext).1
    · exact (Scnhdr.size_ne_zero_of_isData hdata).1
  have hpos : s.s_size.toNat ≠ 0 := fun h => hsize (toNat_eq_zero_iff.mp h)
  -- the last byte
  obtain ⟨byte, hbyte, -⟩ := hp.copied s hs hkind (s.s_paddr.toNat + (s.s_size.toNat - 1))
    ⟨by omega, by omega⟩
  obtain ⟨hlt, -⟩ := List.getElem?_eq_some_iff.mp hbyte
  show s.s_scnptr.toNat + s.s_size.toNat ≤ coff.length
  omega

/-- With one `.text` section, what is to be shown is about the data section only. -/
theorem textsAgree_of_single (htext : (texts (sections coff)).length ≤ 1)
    (hagree : ∀ t ∈ texts (sections coff), ∀ d ∈ datas (sections coff), ∀ a, t.covers a →
      d.covers a → d.byteAt coff a = t.byteAt coff a) : TextsAgree coff := by
  intro t ht a ha
  by_cases hd : ∃ d ∈ datas (sections coff), d.covers a
  · obtain ⟨d, hd, hcovers⟩ := hd
    exact .inl ⟨d, hd, hcovers, hagree t ht d hd a ha hcovers⟩
  · refine .inr ⟨fun d hmem hcovers => hd ⟨d, hmem, hcovers⟩, t, ?_, ha, rfl⟩
    rw [eq_of_length_le_one htext ht]
    rfl

/-- Which files have an image that can be represented. -/
theorem representable_iff (hno : NoOverflow (sections coff)) :
    Representable coff ↔ Readable coff ∧ Consistent coff ∧ OneRange (bsss (sections coff)) := by
  constructor
  · rintro ⟨hcoff, hrec, out, h, hp⟩
    refine ⟨⟨hcoff, hrec, fun s hs hkind => hp.inFile hs hkind⟩, fun s hs hs' t ht ht' a hsa hta => ?_,
      h.uninitData.virtualAddr.toNat, h.uninitData.virtualAddr.toNat + h.uninitData.size.toNat, fun a => ?_⟩
    · obtain ⟨byte, hbyte, hloaded⟩ := hp.copied s hs hs' a hsa
      obtain ⟨byte', hbyte', hloaded'⟩ := hp.copied t ht ht' a hta
      rw [hbyte, hbyte', ← hloaded, ← hloaded']
    · rw [← hp.zeroed a]
      rfl
  · rintro ⟨hr, hcons, hrange⟩
    exact ⟨hr.isCoff, hr.recognised, hr.exists_preserves hno hcons hrange⟩

/-- When the converter preserves the image of a file, and takes the file if its image can be
represented. -/
theorem coff2noff_faithful_iff (junk : NoffHeader) (coff : List (BitVec 8))
    (hno : NoOverflow (sections coff)) : Faithful junk coff ↔ FaithfulWhen coff := by
  constructor
  · intro hf hr
    refine ⟨fun hrefused ⟨hcons, hrange⟩ => ?_, fun hone hnone => ?_⟩
    · exact hf.not_representable hno hrefused ((representable_iff hno).mpr ⟨hr, hcons, hrange⟩)
    · obtain ⟨-, c, hok, hc⟩ | ⟨hno, -⟩ := coff2noff_spec junk hno
      · exact (hc.preserves_iff ⟨hr, hone⟩).mp (hf.preserves _ hok)
      · exact absurd ⟨⟨hr, hone⟩, hnone⟩ hno
  · intro hwhen
    refine ⟨fun out hok => ?_, fun hrep => ?_⟩
    · obtain ⟨⟨hfit, hnone⟩, c, hok', hc⟩ | ⟨-, e, herror⟩ := coff2noff_spec junk hno
      · rw [hok'] at hok
        cases hok
        exact (hc.preserves_iff hfit).mpr ((hwhen hfit.toReadable).2 hfit.data hnone)
      · rw [herror] at hok
        cases hok
    · obtain ⟨hr, himage⟩ := (representable_iff hno).mp hrep
      obtain ⟨-, c, hok, -⟩ | ⟨hno, -⟩ := coff2noff_spec junk hno
      · exact ⟨_, hok⟩
      · -- it is refused, though it can be represented
        refine absurd ⟨⟨hr, ?_⟩, fun hadjacent => ?_⟩ hno
        · exact Nat.not_lt.mp fun htwo => (hwhen hr).1 (.inl htwo) himage
        · exact (hwhen hr).1 (.inr hadjacent) himage

/-- What the linker makes of a program, as long as `.sbss` or `.bss` is empty. -/
theorem faithfulWhen_of_single (htext : (texts (sections coff)).length ≤ 1)
    (hdata : (datas (sections coff)).length ≤ 1) (hbss : (bsss (sections coff)).length ≤ 1)
    (hapart : ∀ t ∈ texts (sections coff), ∀ d ∈ datas (sections coff), ∀ a, t.covers a →
      ¬ d.covers a) : FaithfulWhen coff := by
  intro _
  have hagree := textsAgree_of_single htext fun t ht d hd a hat had => absurd had (hapart t ht d hd a hat)
  match hl : bsss (sections coff), hbss with
  | [], _ =>
    refine ⟨fun hrefused => ?_, fun _ _ => ⟨hagree, fun a => ⟨False.elim, by simp⟩⟩⟩
    exact hrefused.elim (fun htwo => absurd hdata (Nat.not_le.mpr htwo)) False.elim
  | [s], _ =>
    refine ⟨fun hrefused => ?_, fun _ _ => ⟨hagree, fun a => ?_⟩⟩
    · obtain htwo | hmeets | hfalse := hrefused
      · exact absurd hdata (Nat.not_le.mpr htwo)
      · exact hmeets.elim
      · exact hfalse.elim
    · simp [Spans, Scnhdr.covers, total]

/-- A COFF file with these section headers, and `data` behind them. -/
def coffFile (headers : List Scnhdr) (data : List (BitVec 8)) : List (BitVec 8) :=
  [0x62, 0x01, BitVec.ofNat 8 headers.length, 0] ++ List.replicate 16 0 ++
  [0x07, 0x01] ++ List.replicate 54 0 ++
  headers.flatMap (fun s => s.s_name ++ List.replicate (8 - s.s_name.length) 0 ++
    (List.range 4).map (bytesOf s.s_paddr) ++ List.replicate 4 0 ++
    (List.range 4).map (bytesOf s.s_size) ++ (List.range 4).map (bytesOf s.s_scnptr) ++
    List.replicate 16 0) ++ data

/-- A program with one word of code, one of data, and one for a variable. -/
def oneWordEach : List Scnhdr :=
  [⟨dotText, 0, 4, 196⟩, ⟨dotData, 4, 4, 200⟩, ⟨dotBss, 8, 4, 0⟩]

theorem coff2noff_faithful_iff_oneWordEach : Faithful ⟨0, ⟨0, 0, 0⟩, ⟨0, 0, 0⟩, ⟨0, 0, 0⟩⟩
    (coffFile oneWordEach [1, 2, 3, 4, 5, 6, 7, 8]) := by
  have hsections : sections (coffFile oneWordEach [1, 2, 3, 4, 5, 6, 7, 8]) = oneWordEach := by
    decide +kernel
  refine (coff2noff_faithful_iff _ _ ?_).mpr (faithfulWhen_of_single ?_ ?_ ?_ ?_) <;> rw [hsections]
  · exact ⟨by decide, by decide⟩
  · decide
  · decide
  · decide
  · have htexts : texts oneWordEach = [⟨dotText, 0, 4, 196⟩] := by decide
    have hdatas : datas oneWordEach = [⟨dotData, 4, 4, 200⟩] := by decide
    rw [htexts, hdatas]
    simp only [List.mem_singleton, forall_eq]
    rintro a ⟨-, hlt⟩ ⟨hge, -⟩
    exact absurd hge (Nat.not_le.mpr hlt)

/-- Small variables in `.sbss`, and behind them others in `.bss`, as the linker places them. -/
def sbssAndBss : List Scnhdr :=
  [⟨dotText, 0, 4, 196⟩, ⟨dotSbss, 4, 4, 0⟩, ⟨dotBss, 8, 4, 0⟩]

theorem not_coff2noff_faithful : ¬ Faithful ⟨0, ⟨0, 0, 0⟩, ⟨0, 0, 0⟩, ⟨0, 0, 0⟩⟩
    (coffFile sbssAndBss [1, 2, 3, 4]) := by
  intro hf
  have hsections : sections (coffFile sbssAndBss [1, 2, 3, 4]) = sbssAndBss := by decide +kernel
  have hno : NoOverflow (sections (coffFile sbssAndBss [1, 2, 3, 4])) := by
    rw [hsections]
    exact ⟨by decide, by decide⟩
  have hr : Readable (coffFile sbssAndBss [1, 2, 3, 4]) := by
    refine ⟨⟨by decide +kernel, by decide +kernel, by decide +kernel⟩, ?_, ?_⟩ <;> rw [hsections]
    · decide
    · decide +kernel
  have hcons : Consistent (coffFile sbssAndBss [1, 2, 3, 4]) := by
    have hone : ∀ s ∈ sbssAndBss, s.isText ∨ s.isData → s = ⟨dotText, 0, 4, 196⟩ := by decide
    rw [Consistent, hsections]
    intro s hs hs' t ht ht' a _ _
    rw [hone s hs hs', hone t ht ht']
  refine hf.not_representable hno (.inr ?_) ((representable_iff hno).mpr ⟨hr, hcons, ?_⟩) <;> rw [hsections]
  · decide
  · have hbsss : bsss sbssAndBss = [⟨dotSbss, 4, 4, 0⟩, ⟨dotBss, 8, 4, 0⟩] := by decide
    rw [hbsss]
    refine ⟨4, 12, fun a => ?_⟩
    simp only [List.mem_cons, List.not_mem_nil, or_false, exists_eq_or_imp, exists_eq_left]
    show (4 ≤ a ∧ a < 8) ∨ (8 ≤ a ∧ a < 12) ↔ 4 ≤ a ∧ a < 12
    omega

end Nachos.Coff2noff
