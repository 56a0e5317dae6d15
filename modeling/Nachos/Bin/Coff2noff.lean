import Nachos.Framework.CString
import Nachos.Framework.Stop
import Nachos.Framework.Words
import Nachos.Userprog.AddrSpace
import Mathlib.Order.CompletePartialOrder

/-!
# From COFF to NOFF (bin/coff2noff.c)

`main` reads the headers of a COFF file and copies the sections, in one pass over them, into a file
with a header of three segments. It is compiled for a machine with 32-bit `long`s; `Write` and the
calls of `open` do not fail.

* `coff2noff`: the program, from the bytes of one file to those of the other;
* `Takes`: when a section is taken, by what there has been before it;
* `Converted`: the header, and what has been written, after some of the sections;
* `convertSections_spec`: the loop.
-/

namespace Nachos.Coff2noff

open Nachos.Framework

/-! ## The program -/

/-- Why the program ends with `exit(1)`. -/
inductive Failure
  /-- "File is too short" -/
  | tooShort
  /-- "File is not a MIPSEL COFF file" -/
  | notMipsel
  /-- "File is not a OMAGIC file" -/
  | notOmagic
  /-- "Can't handle both data and rdata" -/
  | dataAndRdata
  /-- "Can't handle both bss and sbss" -/
  | bssAndSbss
  /-- "Unknown segment type: %s" -/
  | unknownSegment (s_name : List (BitVec 8))
deriving DecidableEq, Repr

/-- `struct scnhdr`: the name up to its NUL, and the numbers that the program uses. -/
structure Scnhdr where
  s_name : List (BitVec 8)
  s_paddr : BitVec 32
  s_size : BitVec 32
  s_scnptr : BitVec 32
deriving DecidableEq, Repr

/-- `MIPSELMAGIC`. -/
def mipselMagic : BitVec 16 := 0x0162

/-- `OMAGIC`, 0407. -/
def omagic : BitVec 16 := 0x107

def literal (s : List Char) : List (BitVec 8) := s.map fun c => BitVec.ofNat 8 c.toNat

def dotText : List (BitVec 8) := literal ['.', 't', 'e', 'x', 't']
def dotData : List (BitVec 8) := literal ['.', 'd', 'a', 't', 'a']
def dotRdata : List (BitVec 8) := literal ['.', 'r', 'd', 'a', 't', 'a']
def dotBss : List (BitVec 8) := literal ['.', 'b', 's', 's']
def dotSbss : List (BitVec 8) := literal ['.', 's', 'b', 's', 's']

/-- `sizeof(struct filehdr)`, `sizeof(struct aouthdr)`, `sizeof(struct scnhdr)` and
`sizeof(NoffHeader)`. -/
def filehdrSize : Nat := 20
def aouthdrSize : Nat := 56
def scnhdrSize : Nat := 40
def noffHeaderSize : Nat := 40

/-- `Read`: the buffer, and the position after it. The call of `read` fails for a negative `nBytes`,
and returns -1. -/
def read (file : List (BitVec 8)) (position : Nat) (nBytes : Int) :
    Except Failure (List (BitVec 8) × Nat) :=
  if 0 ≤ nBytes then
    let buffer := (file.drop position).take nBytes.toNat
    if buffer.length = nBytes.toNat then .ok (buffer, position + buffer.length)
    else .error .tooShort
  else if nBytes = -1 then .ok ([], position)
  else .error .tooShort

/-- The `i`-th section header of the buffer. -/
def scnhdrAt (sections : Bytes) (i : Nat) : Scnhdr :=
  let a := scnhdrSize * i
  ⟨chars 8 fun j => sections (a + j), wordToHost (wordAt sections (a + 8)),
    wordToHost (wordAt sections (a + 16)), wordToHost (wordAt sections (a + 20))⟩

/-- The variables of the loop: the header, `inNoffFile`, the position in the COFF file, and what has
been written behind the place of the header. -/
structure Converter where
  noffH : NoffHeader
  inNoffFile : BitVec 32
  position : Nat
  body : List (BitVec 8)
deriving Repr

/-- `lseek`, `Read`, `Write`, and `inNoffFile`. A call of `lseek` with a negative offset fails. -/
def copySection (coff : List (BitVec 8)) (s : Scnhdr) (c : Converter) : Except Failure Converter := do
  let position := if 0 ≤ s.s_scnptr.toInt then s.s_scnptr.toNat else c.position
  let (buffer, position) ← read coff position s.s_size.toInt
  .ok ⟨c.noffH, c.inNoffFile + s.s_size, position, c.body ++ buffer⟩

/-- The body of the loop. -/
def convertSection (coff : List (BitVec 8)) (s : Scnhdr) (c : Converter) : Except Failure Converter :=
  let noffH := c.noffH
  if s.s_size = 0 then .ok c
  else if s.s_name = dotText then
    copySection coff s { c with noffH := { noffH with code := ⟨s.s_paddr, c.inNoffFile, s.s_size⟩ } }
  else if s.s_name = dotData ∨ s.s_name = dotRdata then
    if noffH.initData.size ≠ 0 then .error .dataAndRdata
    else
      copySection coff s
        { c with noffH := { noffH with initData := ⟨s.s_paddr, c.inNoffFile, s.s_size⟩ } }
  else if s.s_name = dotBss ∨ s.s_name = dotSbss then
    let uninit := noffH.uninitData
    if uninit.size ≠ 0 then
      if s.s_paddr = uninit.virtualAddr + uninit.size then .error .bssAndSbss
      else .ok { c with noffH :=
        { noffH with uninitData := { uninit with size := uninit.size + s.s_size } } }
    else .ok { c with noffH :=
      { noffH with uninitData := { uninit with virtualAddr := s.s_paddr, size := s.s_size } } }
  else .error (.unknownSegment s.s_name)

def convertSections (coff : List (BitVec 8)) :
    List Scnhdr → Converter → Except Failure Converter
  | [], c => .ok c
  | s :: rest, c => do
    let c ← convertSection coff s c
    convertSections coff rest c

/-- The struct in memory. -/
def headerBytes (h : NoffHeader) : List (BitVec 8) :=
  [h.noffMagic, h.code.virtualAddr, h.code.inFileAddr, h.code.size, h.initData.virtualAddr,
    h.initData.inFileAddr, h.initData.size, h.uninitData.virtualAddr, h.uninitData.inFileAddr,
    h.uninitData.size].flatMap fun w => (List.range 4).map (bytesOf w)

/-- The header before the loop; it is on the stack, where there is `junk`. -/
def initialHeader (junk : NoffHeader) : NoffHeader :=
  ⟨noffMagic, { junk.code with size := 0 }, { junk.initData with size := 0 },
    { junk.uninitData with size := 0 }⟩

/-- `main`. -/
def coff2noff (junk : NoffHeader) (coff : List (BitVec 8)) : Except Failure (List (BitVec 8)) := do
  let (fileh, position) ← read coff 0 filehdrSize
  if halfAt (ofList fileh) 0 ≠ mipselMagic then .error .notMipsel
  else do
    let (systemh, position) ← read coff position aouthdrSize
    if halfAt (ofList systemh) 0 ≠ omagic then .error .notOmagic
    else do
      let numsections := (halfAt (ofList fileh) 2).toNat
      let (headers, position) ← read coff position (numsections * scnhdrSize : Nat)
      let sections := (List.range numsections).map (scnhdrAt (ofList headers))
      let c ← convertSections coff sections
        ⟨initialHeader junk, BitVec.ofNat 32 noffHeaderSize, position, []⟩
      .ok (headerBytes c.noffH ++ c.body)

/-! ## Sections -/

namespace Scnhdr

variable (s : Scnhdr)

/-- A nonempty section of one of the three kinds. -/
def isText : Bool := s.s_size ≠ 0 && s.s_name = dotText
def isData : Bool := s.s_size ≠ 0 && (s.s_name = dotData || s.s_name = dotRdata)
def isBss : Bool := s.s_size ≠ 0 && (s.s_name = dotBss || s.s_name = dotSbss)

def Recognised : Prop := s.s_size = 0 ∨ s.isText ∨ s.isData ∨ s.isBss

instance : Decidable s.Recognised := inferInstanceAs (Decidable (_ ∨ _))

/-- The bytes of the section are in the file. -/
def InFile (coff : List (BitVec 8)) : Prop := s.s_scnptr.toNat + s.s_size.toNat ≤ coff.length

instance (coff : List (BitVec 8)) : Decidable (s.InFile coff) := inferInstanceAs (Decidable (_ ≤ _))

def bytes (coff : List (BitVec 8)) : List (BitVec 8) :=
  (coff.drop s.s_scnptr.toNat).take s.s_size.toNat

end Scnhdr

def texts (sections : List Scnhdr) : List Scnhdr := sections.filter Scnhdr.isText
def datas (sections : List Scnhdr) : List Scnhdr := sections.filter Scnhdr.isData
def bsss (sections : List Scnhdr) : List Scnhdr := sections.filter Scnhdr.isBss

/-- The size of all of the sections together. -/
def total (sections : List Scnhdr) : Nat := (sections.map fun s => s.s_size.toNat).sum

/-- No number of a section header is negative, as a `long`, and no sum of sizes too large for an
`int`. -/
structure NoOverflow (sections : List Scnhdr) : Prop where
  longs : ∀ s ∈ sections, s.s_paddr.toNat < 2 ^ 31 ∧ s.s_scnptr.toNat < 2 ^ 31
  sizes : noffHeaderSize + total sections < 2 ^ 31

/-- The section begins at the address of the first one, plus the sizes of all of them. -/
def Meets : List Scnhdr → Scnhdr → Prop
  | [], _ => False
  | first :: rest, s => s.s_paddr.toNat = first.s_paddr.toNat + total (first :: rest)

instance : ∀ l s, Decidable (Meets l s)
  | [], _ => isFalse id
  | _ :: _, _ => inferInstanceAs (Decidable (_ = _))

/-- The section is taken when the sections `before` it have been. -/
structure Takes (coff : List (BitVec 8)) (before : List Scnhdr) (s : Scnhdr) : Prop where
  recognised : s.Recognised
  inFile : s.isText ∨ s.isData → s.InFile coff
  data : s.isData → datas before = []
  bss : s.isBss → ¬ Meets (bsss before) s

/-! ## One section -/

variable {coff : List (BitVec 8)} {before : List Scnhdr} {s : Scnhdr} {c c' : Converter}

theorem total_append (l l' : List Scnhdr) : total (l ++ l') = total l + total l' := by
  rw [total, List.map_append, List.sum_append]
  rfl

theorem total_filter_le (p : Scnhdr → Bool) (l : List Scnhdr) : total (l.filter p) ≤ total l := by
  induction l with
  | nil => exact Nat.le_refl 0
  | cons s l ih =>
    have hcons (l : List Scnhdr) : total (s :: l) = s.s_size.toNat + total l := rfl
    rw [List.filter_cons]
    split <;> simp only [hcons] <;> omega

theorem NoOverflow.of_append {l l' : List Scnhdr} (h : NoOverflow (l ++ l')) : NoOverflow l := by
  refine ⟨fun s hs => h.longs s (List.mem_append_left l' hs), ?_⟩
  have hsizes := h.sizes
  rw [total_append] at hsizes
  omega

theorem NoOverflow.filter {l : List Scnhdr} (h : NoOverflow l) (p : Scnhdr → Bool) :
    NoOverflow (l.filter p) := by
  refine ⟨fun s hs => h.longs s (List.mem_of_mem_filter hs), ?_⟩
  have := total_filter_le p l
  have := h.sizes
  omega

theorem Scnhdr.size_ne_zero_of_isText (h : s.isText = true) : s.s_size ≠ 0 ∧ s.s_name = dotText := by
  simpa [isText] using h

theorem Scnhdr.size_ne_zero_of_isData (h : s.isData = true) :
    s.s_size ≠ 0 ∧ (s.s_name = dotData ∨ s.s_name = dotRdata) := by
  simpa [isData] using h

theorem Scnhdr.size_ne_zero_of_isBss (h : s.isBss = true) :
    s.s_size ≠ 0 ∧ (s.s_name = dotBss ∨ s.s_name = dotSbss) := by
  simpa [isBss] using h

theorem Scnhdr.isText_eq_false_of_isData (h : s.isData = true) : s.isText = false := by
  obtain ⟨-, hname | hname⟩ := size_ne_zero_of_isData h <;> rw [isText, hname]
  · exact Bool.and_eq_false_imp.mpr fun _ => by decide
  · exact Bool.and_eq_false_imp.mpr fun _ => by decide

theorem Scnhdr.not_isText_isData_of_isBss (h : s.isBss = true) :
    s.isText = false ∧ s.isData = false := by
  obtain ⟨-, hname | hname⟩ := size_ne_zero_of_isBss h <;> rw [isText, isData, hname]
  · exact ⟨Bool.and_eq_false_imp.mpr fun _ => by decide, Bool.and_eq_false_imp.mpr fun _ => by decide⟩
  · exact ⟨Bool.and_eq_false_imp.mpr fun _ => by decide, Bool.and_eq_false_imp.mpr fun _ => by decide⟩

theorem convertSection_empty (h : s.s_size = 0) : convertSection coff s c = .ok c := if_pos h

theorem convertSection_text (h : s.isText = true) : convertSection coff s c =
    copySection coff s
      { c with noffH := { c.noffH with code := ⟨s.s_paddr, c.inNoffFile, s.s_size⟩ } } := by
  obtain ⟨hsize, hname⟩ := Scnhdr.size_ne_zero_of_isText h
  rw [convertSection, if_neg hsize, if_pos hname]

theorem convertSection_data (h : s.isData = true) : convertSection coff s c =
    if c.noffH.initData.size ≠ 0 then .error .dataAndRdata
    else copySection coff s
      { c with noffH := { c.noffH with initData := ⟨s.s_paddr, c.inNoffFile, s.s_size⟩ } } := by
  obtain ⟨hsize, hname⟩ := Scnhdr.size_ne_zero_of_isData h
  have htext : s.s_name ≠ dotText := by
    obtain hname | hname := hname <;> rw [hname] <;> decide
  rw [convertSection, if_neg hsize, if_neg htext, if_pos hname]

theorem convertSection_bss (h : s.isBss = true) : convertSection coff s c =
    if c.noffH.uninitData.size ≠ 0 then
      if s.s_paddr = c.noffH.uninitData.virtualAddr + c.noffH.uninitData.size then
        .error .bssAndSbss
      else .ok { c with noffH := { c.noffH with uninitData :=
        { c.noffH.uninitData with size := c.noffH.uninitData.size + s.s_size } } }
    else .ok { c with noffH := { c.noffH with uninitData :=
      { c.noffH.uninitData with virtualAddr := s.s_paddr, size := s.s_size } } } := by
  obtain ⟨hsize, hname⟩ := Scnhdr.size_ne_zero_of_isBss h
  have hother : s.s_name ≠ dotText ∧ ¬ (s.s_name = dotData ∨ s.s_name = dotRdata) := by
    obtain hname | hname := hname <;> rw [hname] <;> decide
  rw [convertSection, if_neg hsize, if_neg hother.1, if_neg hother.2, if_pos hname]

theorem convertSection_unknown (h : ¬ s.Recognised) :
    convertSection coff s c = .error (.unknownSegment s.s_name) := by
  have h : s.s_size ≠ 0 ∧ s.s_name ≠ dotText ∧ ¬ (s.s_name = dotData ∨ s.s_name = dotRdata) ∧
      ¬ (s.s_name = dotBss ∨ s.s_name = dotSbss) := by
    simp only [Scnhdr.Recognised, Scnhdr.isText, Scnhdr.isData, Scnhdr.isBss] at h
    simp_all
  rw [convertSection, if_neg h.1, if_neg h.2.1, if_neg h.2.2.1, if_neg h.2.2.2]

theorem toInt_eq {w : BitVec 32} (h : w.toNat < 2 ^ 31) : w.toInt = w.toNat := by
  rw [BitVec.toInt_eq_toNat_cond, if_pos (by omega)]

theorem copySection_eq (hsize : s.s_size ≠ 0) (hlong : s.s_size.toNat < 2 ^ 31)
    (hptr : s.s_scnptr.toNat < 2 ^ 31) : copySection coff s c =
      if s.InFile coff then .ok ⟨c.noffH, c.inNoffFile + s.s_size,
        s.s_scnptr.toNat + s.s_size.toNat, c.body ++ s.bytes coff⟩
      else .error .tooShort := by
  have hpos : s.s_size.toNat ≠ 0 := fun h => hsize (toNat_eq_zero_iff.mp h)
  have hlength : (s.bytes coff).length = min s.s_size.toNat (coff.length - s.s_scnptr.toNat) := by
    rw [Scnhdr.bytes, List.length_take, List.length_drop]
  rw [copySection, toInt_eq hlong, toInt_eq hptr, if_pos (by omega), read, if_pos (by omega),
    Int.toNat_natCast]
  change (if (s.bytes coff).length = _ then _ else _) >>= _ = _
  by_cases hin : s.InFile coff
  · have hle : s.s_scnptr.toNat + s.s_size.toNat ≤ coff.length := hin
    have hread : (s.bytes coff).length = s.s_size.toNat := by omega
    rw [if_pos hin, if_pos hread, ok_bind]
    show Except.ok (Converter.mk _ _ (s.s_scnptr.toNat + (s.bytes coff).length) _) = _
    rw [hread]
    rfl
  · have hlt : ¬ s.s_scnptr.toNat + s.s_size.toNat ≤ coff.length := hin
    rw [if_neg hin, if_neg (by omega)]
    rfl

/-! ## The header, and what has been written -/

/-- The segment is that of the section, if there is one, and its bytes are in the file. -/
def Stored (coff body : List (BitVec 8)) (segment : Segment) : Option Scnhdr → Prop
  | none => segment.size = 0
  | some s => segment.virtualAddr = s.s_paddr ∧ segment.size = s.s_size ∧ s.InFile coff ∧
    ∃ written rest, body = written ++ s.bytes coff ++ rest ∧
      segment.inFileAddr.toNat = noffHeaderSize + written.length

/-- `uninitData`: from the address of the first section on, the size of all of them. -/
def Gathered (segment : Segment) : List Scnhdr → Prop
  | [] => segment.size = 0
  | first :: rest =>
    segment.virtualAddr = first.s_paddr ∧ segment.size.toNat = total (first :: rest)

/-- The bytes of the segment in the file. -/
def fileRange (segment : Segment) : Set Nat :=
  Set.Ico segment.inFileAddr.toNat (segment.inFileAddr.toNat + segment.size.toNat)

/-- After the sections `before`. -/
structure Converted (coff : List (BitVec 8)) (before : List Scnhdr) (c : Converter) : Prop where
  magic : c.noffH.noffMagic = noffMagic
  inNoffFile : c.inNoffFile.toNat = noffHeaderSize + c.body.length
  length : c.body.length ≤ total before
  code : Stored coff c.body c.noffH.code (texts before).getLast?
  initData : Stored coff c.body c.noffH.initData (datas before).getLast?
  apart : Disjoint (fileRange c.noffH.code) (fileRange c.noffH.initData)
  uninitData : Gathered c.noffH.uninitData (bsss before)

theorem Scnhdr.length_bytes (h : s.InFile coff) : (s.bytes coff).length = s.s_size.toNat := by
  have h : s.s_scnptr.toNat + s.s_size.toNat ≤ coff.length := h
  rw [bytes, List.length_take, List.length_drop]
  omega

theorem Stored.append {body : List (BitVec 8)} {segment : Segment} {o : Option Scnhdr}
    (h : Stored coff body segment o) (more : List (BitVec 8)) :
    Stored coff (body ++ more) segment o := by
  cases o with
  | none => exact h
  | some s =>
    obtain ⟨haddr, hsize, hfile, written, rest, rfl, hin⟩ := h
    exact ⟨haddr, hsize, hfile, written, rest ++ more, by simp only [List.append_assoc], hin⟩

/-- The bytes of a segment are behind the header, and they have been written. -/
theorem Stored.mem_fileRange {body : List (BitVec 8)} {segment : Segment} {o : Option Scnhdr}
    (h : Stored coff body segment o) {x : Nat} (hx : x ∈ fileRange segment) :
    noffHeaderSize ≤ x ∧ x < noffHeaderSize + body.length := by
  obtain ⟨hge, hlt⟩ := hx
  cases o with
  | none =>
    have hsize : segment.size.toNat = 0 := toNat_eq_zero_iff.mpr h
    omega
  | some s =>
    obtain ⟨-, hsize, hfile, written, rest, rfl, haddr⟩ := h
    have hlength := Scnhdr.length_bytes hfile
    rw [hsize] at hlt
    simp only [List.length_append]
    omega

/-- A segment that is copied now lies behind the others. -/
theorem Stored.disjoint {body : List (BitVec 8)} {segment : Segment} {o : Option Scnhdr}
    (h : Stored coff body segment o) {inNoffFile : BitVec 32} (paddr size : BitVec 32)
    (hin : inNoffFile.toNat = noffHeaderSize + body.length) :
    Disjoint (fileRange segment) (fileRange ⟨paddr, inNoffFile, size⟩) := by
  rw [Set.disjoint_left]
  intro x hx hx'
  have hlt := (h.mem_fileRange hx).2
  have hge : inNoffFile.toNat ≤ x := hx'.1
  omega

theorem filter_snoc (p : Scnhdr → Bool) (l : List Scnhdr) :
    (l ++ [s]).filter p = l.filter p ++ if p s then [s] else [] := by
  rw [List.filter_append, List.filter_cons, List.filter_nil]

theorem Scnhdr.kinds_of_empty (h : s.s_size = 0) :
    s.isText = false ∧ s.isData = false ∧ s.isBss = false := by
  simp [isText, isData, isBss, h]

theorem total_snoc (l : List Scnhdr) : total (l ++ [s]) = total l + s.s_size.toNat := total_append l [s]

/-- A section is copied to the end of the file. -/
theorem copySection_spec (hno : NoOverflow (before ++ [s])) (hsize : s.s_size ≠ 0)
    (hfile : s.InFile coff) (hin : c.inNoffFile.toNat = noffHeaderSize + c.body.length)
    (hlength : c.body.length ≤ total before) : ∃ c',
      copySection coff s c = .ok c' ∧ c'.noffH = c.noffH ∧ c'.body = c.body ++ s.bytes coff ∧
      c'.inNoffFile.toNat = noffHeaderSize + c'.body.length ∧
      c'.body.length ≤ total (before ++ [s]) := by
  have hptr := (hno.longs s (by simp)).2
  have hsizes := hno.sizes
  have hbytes := Scnhdr.length_bytes hfile
  rw [total_snoc] at hsizes ⊢
  refine ⟨_, (copySection_eq hsize (by omega) hptr).trans (if_pos hfile), rfl, rfl, ?_, ?_⟩
  · rw [List.length_append, BitVec.toNat_add, Nat.mod_eq_of_lt (by omega)]
    omega
  · rw [List.length_append]
    omega

theorem Converted.empty (hc : Converted coff before c) (h : s.s_size = 0) :
    Converted coff (before ++ [s]) c := by
  obtain ⟨htext, hdata, hbss⟩ := Scnhdr.kinds_of_empty h
  refine ⟨hc.magic, hc.inNoffFile, ?_, ?_, ?_, hc.apart, ?_⟩
  · have := hc.length
    rw [total_snoc]
    omega
  · rw [texts, filter_snoc, htext, if_neg Bool.false_ne_true, List.append_nil]
    exact hc.code
  · rw [datas, filter_snoc, hdata, if_neg Bool.false_ne_true, List.append_nil]
    exact hc.initData
  · rw [bsss, filter_snoc, hbss, if_neg Bool.false_ne_true, List.append_nil]
    exact hc.uninitData

theorem Converted.text (hc : Converted coff before c) (hno : NoOverflow (before ++ [s]))
    (h : s.isText = true) (hfile : s.InFile coff) :
    ∃ c', convertSection coff s c = .ok c' ∧ Converted coff (before ++ [s]) c' := by
  obtain ⟨hsize, hname⟩ := Scnhdr.size_ne_zero_of_isText h
  have hdata : s.isData = false := by
    cases hd : s.isData with
    | false => rfl
    | true => rw [Scnhdr.isText_eq_false_of_isData hd] at h; cases h
  have hbss : s.isBss = false := by
    cases hb : s.isBss with
    | false => rfl
    | true => rw [(Scnhdr.not_isText_isData_of_isBss hb).1] at h; cases h
  obtain ⟨c', hcopy, hheader, hbody, hin, hlength⟩ := copySection_spec
    (c := { c with noffH := { c.noffH with code := ⟨s.s_paddr, c.inNoffFile, s.s_size⟩ } }) hno hsize
    hfile hc.inNoffFile hc.length
  refine ⟨c', (convertSection_text h).trans hcopy, ?_, hin, hlength, ?_, ?_, ?_, ?_⟩
  · rw [hheader]
    exact hc.magic
  · rw [texts, filter_snoc, if_pos h, List.getLast?_concat, hheader, hbody]
    exact ⟨rfl, rfl, hfile, c.body, [], by rw [List.append_nil], hc.inNoffFile⟩
  · rw [datas, filter_snoc, hdata, if_neg Bool.false_ne_true, List.append_nil, hheader, hbody]
    exact hc.initData.append _
  · rw [hheader]
    exact (hc.initData.disjoint s.s_paddr s.s_size hc.inNoffFile).symm
  · rw [bsss, filter_snoc, hbss, if_neg Bool.false_ne_true, List.append_nil, hheader]
    exact hc.uninitData

theorem Converted.data (hc : Converted coff before c) (hno : NoOverflow (before ++ [s]))
    (h : s.isData = true) (hfile : s.InFile coff) (hnone : datas before = []) :
    ∃ c', convertSection coff s c = .ok c' ∧ Converted coff (before ++ [s]) c' := by
  obtain ⟨hsize, hname⟩ := Scnhdr.size_ne_zero_of_isData h
  have htext := Scnhdr.isText_eq_false_of_isData h
  have hbss : s.isBss = false := by
    cases hb : s.isBss with
    | false => rfl
    | true => rw [(Scnhdr.not_isText_isData_of_isBss hb).2] at h; cases h
  have hfree : c.noffH.initData.size = 0 := by
    have hstored := hc.initData
    rwa [hnone] at hstored
  obtain ⟨c', hcopy, hheader, hbody, hin, hlength⟩ := copySection_spec
    (c := { c with noffH := { c.noffH with initData := ⟨s.s_paddr, c.inNoffFile, s.s_size⟩ } }) hno
    hsize hfile hc.inNoffFile hc.length
  refine ⟨c', ?_, ?_, hin, hlength, ?_, ?_, ?_, ?_⟩
  · rw [convertSection_data h, if_neg (not_not.mpr hfree), hcopy]
  · rw [hheader]
    exact hc.magic
  · rw [texts, filter_snoc, htext, if_neg Bool.false_ne_true, List.append_nil, hheader, hbody]
    exact hc.code.append _
  · rw [datas, filter_snoc, if_pos h, List.getLast?_concat, hheader, hbody]
    exact ⟨rfl, rfl, hfile, c.body, [], by rw [List.append_nil], hc.inNoffFile⟩
  · rw [hheader]
    exact hc.code.disjoint s.s_paddr s.s_size hc.inNoffFile
  · rw [bsss, filter_snoc, hbss, if_neg Bool.false_ne_true, List.append_nil, hheader]
    exact hc.uninitData

/-- Nothing is copied for a `.bss` section. -/
theorem Converted.withUninitData (hc : Converted coff before c) (h : s.isBss = true)
    {segment : Segment} (hgathered : Gathered segment (bsss before ++ [s])) :
    Converted coff (before ++ [s]) { c with noffH := { c.noffH with uninitData := segment } } := by
  obtain ⟨htext, hdata⟩ := Scnhdr.not_isText_isData_of_isBss h
  refine ⟨hc.magic, hc.inNoffFile, ?_, ?_, ?_, hc.apart, ?_⟩
  · have hlength := hc.length
    rw [total_snoc]
    show c.body.length ≤ _
    omega
  · rw [texts, filter_snoc, htext, if_neg Bool.false_ne_true, List.append_nil]
    exact hc.code
  · rw [datas, filter_snoc, hdata, if_neg Bool.false_ne_true, List.append_nil]
    exact hc.initData
  · rw [bsss, filter_snoc, if_pos h]
    exact hgathered

theorem Gathered.size_ne_zero {segment : Segment} {first : Scnhdr} {rest : List Scnhdr}
    (h : Gathered segment (first :: rest)) (hfirst : first.isBss = true) : segment.size ≠ 0 := by
  intro hzero
  have hsize := (Scnhdr.size_ne_zero_of_isBss hfirst).1
  have hpos : first.s_size.toNat ≠ 0 := fun h => hsize (toNat_eq_zero_iff.mp h)
  have htotal : segment.size.toNat = first.s_size.toNat + total rest := h.2
  rw [hzero] at htotal
  have : (0 : BitVec 32).toNat = 0 := rfl
  omega

/-- The address behind `uninitData`, which does not overflow. -/
theorem Gathered.meets_iff {segment : Segment} {l : List Scnhdr} (h : Gathered segment l)
    (hne : l ≠ []) (hno : NoOverflow l) :
    s.s_paddr = segment.virtualAddr + segment.size ↔ Meets l s := by
  cases l with
  | nil => exact absurd rfl hne
  | cons first rest =>
    obtain ⟨haddr, hsize⟩ := h
    have hfirst := (hno.longs first List.mem_cons_self).1
    have hsizes := hno.sizes
    rw [← BitVec.toNat_inj, BitVec.toNat_add, haddr, hsize, Nat.mod_eq_of_lt (by omega)]
    rfl

theorem Gathered.add {segment : Segment} {l : List Scnhdr} (h : Gathered segment l) (hne : l ≠ [])
    (hno : NoOverflow (l ++ [s])) :
    Gathered { segment with size := segment.size + s.s_size } (l ++ [s]) := by
  cases l with
  | nil => exact absurd rfl hne
  | cons first rest =>
    obtain ⟨haddr, hsize⟩ := h
    refine ⟨haddr, ?_⟩
    have hsizes := hno.sizes
    rw [total_snoc] at hsizes
    show (segment.size + s.s_size).toNat = total (first :: rest ++ [s])
    rw [total_snoc, BitVec.toNat_add, hsize, Nat.mod_eq_of_lt (by omega)]

theorem Converted.bss (hc : Converted coff before c) (hno : NoOverflow (before ++ [s]))
    (h : s.isBss = true) :
    (¬ Meets (bsss before) s ∧ ∃ c', convertSection coff s c = .ok c' ∧
      Converted coff (before ++ [s]) c') ∨
    (Meets (bsss before) s ∧ convertSection coff s c = .error .bssAndSbss) := by
  have hgathered := hc.uninitData
  have hnobss : NoOverflow (bsss before ++ [s]) := by
    have hfilter := hno.filter Scnhdr.isBss
    rwa [filter_snoc, if_pos h] at hfilter
  rw [convertSection_bss h]
  cases hl : bsss before with
  | nil =>
    rw [hl] at hgathered
    have hzero : c.noffH.uninitData.size = 0 := hgathered
    refine .inl ⟨id, ?_⟩
    rw [if_neg (not_not.mpr hzero)]
    refine ⟨_, rfl, hc.withUninitData h ?_⟩
    rw [hl]
    exact ⟨rfl, (Nat.add_zero _).symm⟩
  | cons first rest =>
    have hfirst : first.isBss = true :=
      (List.mem_filter.mp (hl ▸ List.mem_cons_self : first ∈ bsss before)).2
    rw [hl] at hgathered hnobss
    have hne : first :: rest ≠ [] := List.cons_ne_nil first rest
    rw [if_pos (hgathered.size_ne_zero hfirst)]
    have hmeets := hgathered.meets_iff (s := s) hne hnobss.of_append
    by_cases hm : s.s_paddr = c.noffH.uninitData.virtualAddr + c.noffH.uninitData.size
    · exact .inr ⟨hmeets.mp hm, if_pos hm⟩
    · refine .inl ⟨fun h => hm (hmeets.mpr h), ?_⟩
      rw [if_neg hm]
      refine ⟨_, rfl, hc.withUninitData h ?_⟩
      rw [hl]
      exact hgathered.add hne hnobss

/-- The section is taken, or the program ends. -/
def TakenOrNot (coff : List (BitVec 8)) (before : List Scnhdr) (s : Scnhdr) (c : Converter) : Prop :=
  (Takes coff before s ∧ ∃ c', convertSection coff s c = .ok c' ∧
    Converted coff (before ++ [s]) c') ∨
  (¬ Takes coff before s ∧ ∃ e, convertSection coff s c = .error e)

theorem NoOverflow.last (h : NoOverflow (before ++ [s])) :
    s.s_size.toNat < 2 ^ 31 ∧ s.s_scnptr.toNat < 2 ^ 31 := by
  have hsizes := h.sizes
  rw [total_snoc] at hsizes
  exact ⟨by omega, (h.longs s (List.mem_append_right _ List.mem_cons_self)).2⟩

theorem Converted.text_spec (hc : Converted coff before c) (hno : NoOverflow (before ++ [s]))
    (h : s.isText = true) : TakenOrNot coff before s c := by
  by_cases hfile : s.InFile coff
  · refine .inl ⟨⟨.inr (.inl h), fun _ => hfile, fun hd => ?_, fun hb => ?_⟩, hc.text hno h hfile⟩
    · rw [Scnhdr.isText_eq_false_of_isData hd] at h
      cases h
    · rw [(Scnhdr.not_isText_isData_of_isBss hb).1] at h
      cases h
  · refine .inr ⟨fun ht => hfile (ht.inFile (.inl h)), .tooShort, ?_⟩
    rw [convertSection_text h, copySection_eq (Scnhdr.size_ne_zero_of_isText h).1 hno.last.1 hno.last.2,
      if_neg hfile]

theorem Converted.data_spec (hc : Converted coff before c) (hno : NoOverflow (before ++ [s]))
    (h : s.isData = true) : TakenOrNot coff before s c := by
  have hstored := hc.initData
  cases hl : (datas before).getLast? with
  | none =>
    have hnone : datas before = [] := List.getLast?_eq_none_iff.mp hl
    rw [hl] at hstored
    have hfree : c.noffH.initData.size = 0 := hstored
    by_cases hfile : s.InFile coff
    · refine .inl ⟨⟨.inr (.inr (.inl h)), fun _ => hfile, fun _ => hnone, fun hb => ?_⟩,
        hc.data hno h hfile hnone⟩
      rw [(Scnhdr.not_isText_isData_of_isBss hb).2] at h
      cases h
    · refine .inr ⟨fun ht => hfile (ht.inFile (.inr h)), .tooShort, ?_⟩
      rw [convertSection_data h, if_neg (not_not.mpr hfree),
        copySection_eq (Scnhdr.size_ne_zero_of_isData h).1 hno.last.1 hno.last.2, if_neg hfile]
  | some d =>
    have hd : d.isData = true := (List.mem_filter.mp (List.mem_of_getLast? hl)).2
    rw [hl] at hstored
    have hused : c.noffH.initData.size ≠ 0 := by
      rw [hstored.2.1]
      exact (Scnhdr.size_ne_zero_of_isData hd).1
    refine .inr ⟨fun ht => ?_, .dataAndRdata, ?_⟩
    · rw [ht.data h] at hl
      cases hl
    · rw [convertSection_data h, if_pos hused]

theorem Converted.bss_spec (hc : Converted coff before c) (hno : NoOverflow (before ++ [s]))
    (h : s.isBss = true) : TakenOrNot coff before s c := by
  obtain ⟨htext, hdata⟩ := Scnhdr.not_isText_isData_of_isBss h
  obtain ⟨hmeets, hok⟩ | ⟨hmeets, herror⟩ := hc.bss hno h
  · exact .inl ⟨⟨.inr (.inr (.inr h)), by simp [htext, hdata], by simp [hdata], fun _ => hmeets⟩, hok⟩
  · exact .inr ⟨fun ht => ht.bss h hmeets, _, herror⟩

theorem convertSection_spec (hc : Converted coff before c) (hno : NoOverflow (before ++ [s])) :
    TakenOrNot coff before s c := by
  by_cases hrecognised : s.Recognised
  · obtain hempty | htext | hdata | hbss := id hrecognised
    · obtain ⟨htext, hdata, hbss⟩ := Scnhdr.kinds_of_empty hempty
      refine .inl ⟨⟨hrecognised, ?_, ?_, ?_⟩, c, convertSection_empty hempty, hc.empty hempty⟩
      · simp [htext, hdata]
      · simp [hdata]
      · simp [hbss]
    · exact hc.text_spec hno htext
    · exact hc.data_spec hno hdata
    · exact hc.bss_spec hno hbss
  · exact .inr ⟨fun h => hrecognised h.recognised, _, convertSection_unknown hrecognised⟩

/-! ## The loop -/

/-- All of the sections are taken. -/
def TakesAll (coff : List (BitVec 8)) : List Scnhdr → List Scnhdr → Prop
  | _, [] => True
  | before, s :: rest => Takes coff before s ∧ TakesAll coff (before ++ [s]) rest

theorem convertSections_spec {rest : List Scnhdr} (hc : Converted coff before c)
    (hno : NoOverflow (before ++ rest)) :
    (TakesAll coff before rest ∧ ∃ c', convertSections coff rest c = .ok c' ∧
      Converted coff (before ++ rest) c') ∨
    (¬ TakesAll coff before rest ∧ ∃ e, convertSections coff rest c = .error e) := by
  induction rest generalizing before c with
  | nil =>
    rw [List.append_nil]
    exact .inl ⟨trivial, c, rfl, hc⟩
  | cons s rest ih =>
    rw [List.append_cons] at hno ⊢
    obtain ⟨htakes, c', hok, hc'⟩ | ⟨htakes, e, herror⟩ := convertSection_spec hc hno.of_append
    · rw [convertSections, hok, ok_bind]
      obtain ⟨hall, hrest⟩ | ⟨hall, hrest⟩ := ih hc' hno
      · exact .inl ⟨⟨htakes, hall⟩, hrest⟩
      · exact .inr ⟨fun h => hall h.2, hrest⟩
    · rw [convertSections, herror]
      exact .inr ⟨fun h => htakes h.1, e, rfl⟩

theorem initial_converted (junk : NoffHeader) (position : Nat) :
    Converted coff [] ⟨initialHeader junk, BitVec.ofNat 32 noffHeaderSize, position, []⟩ := by
  refine ⟨rfl, rfl, Nat.le_refl 0, rfl, rfl, ?_, rfl⟩
  rw [Set.disjoint_left]
  rintro x ⟨hge, hlt⟩ -
  exact absurd hge (Nat.not_le.mpr hlt)

end Nachos.Coff2noff
