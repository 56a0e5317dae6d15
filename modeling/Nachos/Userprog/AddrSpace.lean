import Nachos.Machine.Translate
import Nachos.Userprog.BitMap

/-!
# Address spaces (userprog/addrspace.cc, memorymanager.cc, bin/noff.h)

Loading a NOFF executable, copying an address space for `Fork`, replacing it
for `Exec` and giving its frames back. The functions work on the page table of
one address space, the frame bitmap of the `MemoryManager` (whose `getPage`,
`clearPage` and `getFree` are `BitMap::Find`, `Clear` and `NumClear`; its lock
does nothing in this build) and main memory.

* `initializePageTable_spec`, `copyPages_spec`: the frames of a new table were
  free, are distinct and are now marked, as long as enough were free;
* `releasePhysicalMemory_spec`: the frames of the table are free again;
* `load_spec`, `replace_spec`: what a loaded or replaced space owns.
-/

namespace Nachos

open Nachos.Framework

/-- `UserStackSize`. -/
def userStackSize : Nat := 1024

/-- `AddrSpace`: the page table, its number of entries, and the process. -/
structure AddrSpace where
  pageTable : List TranslationEntry
  numPages : Nat
  pcb : Option Nat

/-- What the local variables hold that `ReadAt` fills: the header, and the `buffer` of `ReadFile` for
the code and for the data. -/
structure Buffers where
  header : Bytes
  code : Bytes
  initData : Bytes

/-- What the machine Nachos runs on decides at one step: whether the timer
interrupt is due, which files there are, and what uninitialised memory holds:
buffers, the bytes behind a file name buffer, the registers of a new `Thread`,
the exit value of a new `PCB`. -/
structure Env where
  timer : Bool
  files : List (BitVec 8) → Option (List (BitVec 8))
  buffers : Buffers
  junkName : List (BitVec 8)
  junkRegisters : Registers
  junkExitValue : BitVec 32

/-! ## Executables -/

/-- `Segment`. -/
structure Segment where
  virtualAddr : BitVec 32
  inFileAddr : BitVec 32
  size : BitVec 32
  deriving DecidableEq, Repr

/-- `NoffHeader`. -/
structure NoffHeader where
  noffMagic : BitVec 32
  code : Segment
  initData : Segment
  uninitData : Segment
  deriving DecidableEq, Repr

/-- `NOFFMAGIC`. -/
def noffMagic : BitVec 32 := 0xbadfad

/-- `WordToHost` on a little-endian host. -/
def wordToHost (w : BitVec 32) : BitVec 32 := w

def swapSegment (s : Segment) : Segment :=
  ⟨wordToHost s.virtualAddr, wordToHost s.inFileAddr, wordToHost s.size⟩

/-- `SwapHeader`. -/
def swapHeader (h : NoffHeader) : NoffHeader :=
  ⟨wordToHost h.noffMagic, swapSegment h.code, swapSegment h.initData, swapSegment h.uninitData⟩

/-- `OpenFile::ReadAt` of the stub file system: a buffer whose first bytes are
those of the file from `position` on, as far as it has any. -/
def readAt (file : List (BitVec 8)) (junk : Bytes) (position : Int) : Except Stop Bytes := do
  assert (0 ≤ position)
  .ok fun i => (file[position.toNat + i]?).getD (junk i)

def segmentAt (buffer : Bytes) (a : Nat) : Segment :=
  ⟨wordAt buffer a, wordAt buffer (a + 4), wordAt buffer (a + 8)⟩

/-- The header that the constructor and `Replace` read, swap and check. -/
def readHeader (file : List (BitVec 8)) (junk : Bytes) : Except Stop NoffHeader := do
  let buffer ← readAt file junk 0
  let noffH : NoffHeader :=
    ⟨wordAt buffer 0, segmentAt buffer 4, segmentAt buffer 16, segmentAt buffer 28⟩
  let noffH := if noffH.noffMagic ≠ noffMagic ∧ wordToHost noffH.noffMagic = noffMagic
    then swapHeader noffH else noffH
  assert (noffH.noffMagic = noffMagic)
  .ok noffH

/-- The number of pages an executable needs; `size` is an `unsigned int`. -/
def NoffHeader.numPages (noffH : NoffHeader) : Nat :=
  let size := noffH.code.size + noffH.initData.size + noffH.uninitData.size +
    BitVec.ofNat 32 userStackSize
  divRoundUp size.toNat pageSize

/-! ## Frames -/

/-- `AddrSpace::InitializePageTable`, for the `n` pages from page `i` on. What
`getPage` returns becomes an `unsigned int`; -1 would be a frame far outside
main memory, and zeroing it would not touch main memory. -/
def initializePageTable : Nat → Nat → BitMap → Bytes → List TranslationEntry × BitMap × Bytes
  | _, 0, virtMem, memory => ([], virtMem, memory)
  | i, n + 1, virtMem, memory =>
    let (page, virtMem) := virtMem.find
    let physicalPage := BitVec.ofInt 32 page
    let (table, virtMem, memory) := initializePageTable (i + 1) n virtMem
      (splice memory (physicalPage.toNat * pageSize) pageSize fun _ => 0)
    (⟨BitVec.ofNat 32 i, physicalPage, true, false, false, false⟩ :: table, virtMem, memory)

/-- The loop of `AddrSpace::copy`. -/
def copyPages : List TranslationEntry → BitMap → Bytes → List TranslationEntry × BitMap × Bytes
  | [], virtMem, memory => ([], virtMem, memory)
  | e :: es, virtMem, memory =>
    let (page, virtMem) := virtMem.find
    let physicalPage := BitVec.ofInt 32 page
    let (table, virtMem, memory) := copyPages es virtMem
      (splice memory (physicalPage.toNat * pageSize) pageSize fun i =>
        memory (e.physicalPage.toNat * pageSize + i))
    ({ e with physicalPage := physicalPage } :: table, virtMem, memory)

/-- `AddrSpace::copy`; `none` for `NULL`. The copy belongs to no process yet. -/
def AddrSpace.copy (space : AddrSpace) (virtMem : BitMap) (memory : Bytes) :
    Option (AddrSpace × BitMap × Bytes) :=
  if space.numPages > virtMem.numClear then none
  else
    let (table, virtMem, memory) := copyPages space.pageTable virtMem memory
    some (⟨table, space.numPages, none⟩, virtMem, memory)

/-- `AddrSpace::ReleasePhysicalMemory`. -/
def releasePhysicalMemory (table : List TranslationEntry) (virtMem : BitMap) : Except Stop BitMap :=
  table.foldlM (fun virtMem e => virtMem.clear e.physicalPage.toInt) virtMem

/-! ## Loading -/

/-- `AddrSpace::Translate`: the physical address, or -1, and the table with the
use bit set. -/
def translateAddr (table : List TranslationEntry) (numPages : Nat) (virtualAddress : Int) :
    Except Stop (Int × List TranslationEntry) :=
  if virtualAddress < 0 then .ok (-1, table)
  else
    let pageNumber := virtualAddress.toNat / pageSize
    let memoryOffset := virtualAddress.toNat % pageSize
    if numPages ≤ pageNumber then .ok (-1, table)
    else do
      let e ← deref table[pageNumber]?
      if e.valid then
        .ok (e.physicalPage.toInt * pageSize + memoryOffset,
          table.set pageNumber { e with use := true })
      else .ok (-1, table)

/-- The loop of `AddrSpace::ReadFile`, at most `fuel` times round; every round
copies at least one byte. The bytes copied go where the first of them belongs
and behind, also when that runs over the end of its frame, but not over the end
of main memory. -/
def readFileLoop (buffer : Bytes) (numPages : Nat) : Nat → Int → Nat → Int →
    List TranslationEntry → Bytes → Except Stop (Nat × List TranslationEntry × Bytes)
  | 0, _, numBytesRead, numBytesLeft, table, memory =>
    if numBytesLeft > 0 then .error .undefined else .ok (numBytesRead, table, memory)
  | fuel + 1, virtAddr, numBytesRead, numBytesLeft, table, memory =>
    if numBytesLeft > 0 then do
      let readSize := if numBytesLeft < pageSize then numBytesLeft
        else pageSize - virtAddr.tmod pageSize
      let (physAddr, table) ← translateAddr table numPages virtAddr
      assert (physAddr ≥ 0)
      if physAddr + readSize > memorySize then .error .undefined
      else
        readFileLoop buffer numPages fuel (virtAddr + readSize) (numBytesRead + readSize.toNat)
          (numBytesLeft - readSize) table
          (splice memory physAddr.toNat readSize.toNat fun i => buffer (numBytesRead + i))
    else .ok (numBytesRead, table, memory)

/-- `AddrSpace::ReadFile`: the number of bytes read, the table and main memory. -/
def readFile (virtAddr : Int) (file : List (BitVec 8)) (size fileAddr : Int) (junk : Bytes)
    (numPages : Nat) (table : List TranslationEntry) (memory : Bytes) :
    Except Stop (Nat × List TranslationEntry × Bytes) := do
  let buffer ← readAt file junk fileAddr
  readFileLoop buffer numPages size.toNat virtAddr 0 size table memory

/-- `ReadFile` of a segment, if it has a positive size. -/
def readSegment (s : Segment) (file : List (BitVec 8)) (junk : Bytes) (numPages : Nat)
    (table : List TranslationEntry) (memory : Bytes) :
    Except Stop (List TranslationEntry × Bytes) :=
  if s.size.toInt > 0 then do
    let (_, table, memory) ← readFile s.virtualAddr.toInt file s.size.toInt s.inFileAddr.toInt junk
      numPages table memory
    .ok (table, memory)
  else .ok (table, memory)

/-- What the constructor and `Replace` do once there is room: a table of
`numPages` zeroed frames, then the code and the initialised data. -/
def load (noffH : NoffHeader) (file : List (BitVec 8)) (junk : Buffers) (virtMem : BitMap)
    (memory : Bytes) : Except Stop (List TranslationEntry × BitMap × Bytes) := do
  let (table, virtMem, memory) := initializePageTable 0 noffH.numPages virtMem memory
  let (table, memory) ← readSegment noffH.code file junk.code noffH.numPages table memory
  let (table, memory) ← readSegment noffH.initData file junk.initData noffH.numPages table memory
  .ok (table, virtMem, memory)

/-- `AddrSpace::AddrSpace(OpenFile *)`. -/
def AddrSpace.new (file : List (BitVec 8)) (junk : Buffers) (virtMem : BitMap) (memory : Bytes) :
    Except Stop (AddrSpace × BitMap × Bytes) := do
  let noffH ← readHeader file junk.header
  assert (noffH.numPages ≤ virtMem.numClear)
  let (table, virtMem, memory) ← load noffH file junk virtMem memory
  .ok (⟨table, noffH.numPages, none⟩, virtMem, memory)

/-- The loop of `AddrSpace::ReadFileName`, for the `n` places left in the
buffer: the characters stored. It ends after a null character, and also when an
address does not translate. -/
def readFileName (numPages : Nat) (memory : Bytes) : Nat → Int → List TranslationEntry →
    Except Stop (List (BitVec 8) × List TranslationEntry)
  | 0, _, table => .ok ([], table)
  | n + 1, virtualAddress, table => do
    let (physicalAddress, table) ← translateAddr table numPages virtualAddress
    if physicalAddress < 0 then .ok ([], table)
    else
      let character := memory physicalAddress.toNat
      if character = 0 then .ok ([0], table)
      else do
        let (name, table) ← readFileName numPages memory n (virtualAddress + 1) table
        .ok (character :: name, table)

/-- `AddrSpace::Replace`: the space afterwards, and, if it returns TRUE, the
frame bitmap and main memory afterwards. The file name is the string in the
buffer, which goes on behind the characters read when there is no null among
them. The comparison with `getFree` is of `unsigned int`s. -/
def AddrSpace.replace (space : AddrSpace) (env : Env) (virtualAddress : BitVec 32)
    (virtMem : BitMap) (memory : Bytes) : Except Stop (AddrSpace × Option (BitMap × Bytes)) := do
  let (name, table) ←
    readFileName space.numPages memory 128 virtualAddress.toInt space.pageTable
  let space := { space with pageTable := table }
  match env.files ((name ++ env.junkName).takeWhile (· ≠ 0)) with
  | none => .ok (space, none)
  | some executable => do
    let noffH ← readHeader executable env.buffers.header
    if (BitVec.ofNat 32 noffH.numPages - BitVec.ofNat 32 space.numPages).toNat > virtMem.numClear
    then .ok (space, none)
    else do
      let virtMem ← releasePhysicalMemory space.pageTable virtMem
      let (table, virtMem, memory) ← load noffH executable env.buffers virtMem memory
      .ok (⟨table, noffH.numPages, space.pcb⟩, some (virtMem, memory))

/-- The file that `Replace` opens, if there is one under the name it reads. -/
def AddrSpace.namedFile (space : AddrSpace) (env : Env) (virtualAddress : BitVec 32)
    (memory : Bytes) : Except Stop (Option (List (BitVec 8))) := do
  let (name, _) ← readFileName space.numPages memory 128 virtualAddress.toInt space.pageTable
  .ok (env.files ((name ++ env.junkName).takeWhile (· ≠ 0)))

/-- `AddrSpace::InitRegisters`. -/
def initRegisters (numPages : Nat) : Registers :=
  let zeros : Registers := fun _ => 0
  ((zeros.write pcReg 0).write nextPCReg 4).write stackReg
    (BitVec.ofNat 32 numPages * BitVec.ofNat 32 pageSize - 16)

/-! ## How many pages -/

theorem NoffHeader.numPages_lt (noffH : NoffHeader) : noffH.numPages < 2 ^ 26 := by
  have hlt := (noffH.code.size + noffH.initData.size + noffH.uninitData.size +
    BitVec.ofNat 32 userStackSize).isLt
  refine (divRoundUp_le _ _).trans_lt ?_
  rw [pageSize]
  omega

/-- The stack alone takes 8 pages; segments of negative size could make the sum
wrap round. -/
theorem NoffHeader.le_numPages (noffH : NoffHeader) (h₁ : 0 ≤ noffH.code.size.toInt)
    (h₂ : 0 ≤ noffH.initData.size.toInt) (h₃ : 0 ≤ noffH.uninitData.size.toInt)
    (hsum : noffH.code.size.toInt + noffH.initData.size.toInt + noffH.uninitData.size.toInt +
      userStackSize < 2 ^ 32) : 8 ≤ noffH.numPages := by
  have hnat : ∀ {w : BitVec 32}, 0 ≤ w.toInt → w.toInt = w.toNat := by
    intro w hw
    rw [BitVec.toInt_eq_toNat_cond] at hw ⊢
    split at hw
    · rename_i hlt
      rw [if_pos hlt]
    · have := w.isLt
      omega
  rw [hnat h₁, hnat h₂, hnat h₃, userStackSize] at hsum
  have hsize : 1024 ≤ (noffH.code.size + noffH.initData.size + noffH.uninitData.size +
      BitVec.ofNat 32 userStackSize).toNat := by
    simp only [BitVec.toNat_add, BitVec.toNat_ofNat, userStackSize]
    omega
  simp only [NoffHeader.numPages, divRoundUp, pageSize]
  omega

/-! ## Which frames a table takes and gives back -/

/-- The frames of a page table. -/
def frames (table : List TranslationEntry) : List Nat := table.map fun e => e.physicalPage.toNat

@[simp] theorem frames_cons (e : TranslationEntry) (es : List TranslationEntry) :
    frames (e :: es) = e.physicalPage.toNat :: frames es := rfl

theorem frames_congr {t t' : List TranslationEntry}
    (h : t'.map TranslationEntry.mapping = t.map TranslationEntry.mapping) : frames t' = frames t := by
  have hf : ∀ t : List TranslationEntry,
      frames t = (t.map TranslationEntry.mapping).map fun m => m.1.toNat := by
    intro t
    rw [List.map_map]
    rfl
  rw [hf, hf, h]

/-- `getPage`, when a page is free. -/
theorem getPage_spec {b : BitMap} (hb : b.numBits = numPhysPages) (h : 0 < b.numClear) :
    ∃ f, f < b.numBits ∧ f ∉ b.marked ∧ b.find = (↑f, b.markBit f) ∧
      (BitVec.ofInt 32 (f : Int)).toNat = f ∧ (b.markBit f).numClear + 1 = b.numClear := by
  obtain ⟨f, hf, hm, hfind, hclear⟩ := BitMap.find_of_numClear h
  refine ⟨f, hf, hm, hfind, ?_, hclear⟩
  rw [BitVec.ofInt_natCast, BitVec.toNat_ofNat, Nat.mod_eq_of_lt]
  rw [hb, numPhysPages] at hf
  omega

/-- A splice of a whole frame leaves the other frames alone. -/
theorem splice_frame_of_ne {memory src : Bytes} {f x : Nat} (h : x / pageSize ≠ f) :
    splice memory (f * pageSize) pageSize src x = memory x := by
  refine splice_apply_of_notMem fun hx => h ?_
  unfold pageSize at *
  omega

/-- Enough free frames: the new table has `n` of them, and outside them main
memory is as before. -/
theorem initializePageTable_spec {n : Nat} {b : BitMap} (hb : b.numBits = numPhysPages)
    (h : n ≤ b.numClear) (i : Nat) (memory : Bytes) :
    ∃ table b' memory', initializePageTable i n b memory = (table, b', memory') ∧
      Allocated b b' (frames table) ∧ table.length = n ∧
      ∀ x, x / pageSize ∉ frames table → memory' x = memory x := by
  induction n generalizing i b memory with
  | zero => exact ⟨[], b, memory, rfl, .nil b, rfl, fun _ _ => rfl⟩
  | succ n ih =>
    obtain ⟨f, hf, hm, hfind, hnat, hclear⟩ := getPage_spec hb (by omega)
    obtain ⟨table, b', memory', hinit, ha, hl, hmem⟩ := ih (b := b.markBit f) hb (by omega) (i + 1)
      (splice memory (f * pageSize) pageSize fun _ => 0)
    simp only [initializePageTable, hfind, hnat, hinit]
    refine ⟨_, _, _, rfl, ?_, by rw [List.length_cons, hl], fun x hx => ?_⟩
    · rw [frames_cons, hnat]
      exact Allocated.cons hf hm ha
    · rw [frames_cons, List.mem_cons, not_or, hnat] at hx
      rw [hmem x hx.2, splice_frame_of_ne hx.1]

/-- The same for the copy of a table. -/
theorem copyPages_spec (es : List TranslationEntry) {b : BitMap} (hb : b.numBits = numPhysPages)
    (h : es.length ≤ b.numClear) (memory : Bytes) :
    ∃ table b' memory', copyPages es b memory = (table, b', memory') ∧
      Allocated b b' (frames table) ∧ table.length = es.length ∧
      ∀ x, x / pageSize ∉ frames table → memory' x = memory x := by
  induction es generalizing b memory with
  | nil => exact ⟨[], b, memory, rfl, .nil b, rfl, fun _ _ => rfl⟩
  | cons e es ih =>
    rw [List.length_cons] at h
    obtain ⟨f, hf, hm, hfind, hnat, hclear⟩ := getPage_spec hb (by omega)
    obtain ⟨table, b', memory', hcopy, ha, hl, hmem⟩ := ih (b := b.markBit f) hb (by omega)
      (splice memory (f * pageSize) pageSize fun i => memory (e.physicalPage.toNat * pageSize + i))
    simp only [copyPages, hfind, hnat, hcopy]
    refine ⟨_, _, _, rfl, ?_, by rw [List.length_cons, List.length_cons, hl], fun x hx => ?_⟩
    · rw [frames_cons, hnat]
      exact Allocated.cons hf hm ha
    · rw [frames_cons, List.mem_cons, not_or, hnat] at hx
      rw [hmem x hx.2, splice_frame_of_ne hx.1]

/-- The pages of a copy are in frames that were free. -/
theorem AddrSpace.copy_spec {space space' : AddrSpace} {b b' : BitMap} {memory memory' : Bytes}
    (hb : b.numBits = numPhysPages) (hlen : space.pageTable.length = space.numPages)
    (h : space.copy b memory = some (space', b', memory')) :
    space.numPages ≤ b.numClear ∧ Allocated b b' (frames space'.pageTable) ∧
      space'.pageTable.length = space'.numPages ∧ space'.numPages = space.numPages ∧
      ∀ x, x / pageSize ∉ frames space'.pageTable → memory' x = memory x := by
  unfold AddrSpace.copy at h
  split at h
  · cases h
  · rename_i hroom
    have hroom' : space.numPages ≤ b.numClear := Nat.le_of_not_gt hroom
    obtain ⟨table, b₁, m₁, hcopy, ha, hl, hmem⟩ :=
      copyPages_spec space.pageTable hb (by omega) memory
    rw [hcopy] at h
    cases h
    exact ⟨hroom', ha, hl.trans hlen, rfl, hmem⟩

/-- What `n` calls of `getPage` return. -/
def getPages : Nat → BitMap → List Int
  | 0, _ => []
  | n + 1, virtMem => virtMem.find.1 :: getPages n virtMem.find.2

/-- These calls are the ones that `InitializePageTable` makes. -/
theorem initializePageTable_getPages (n i : Nat) (b : BitMap) (memory : Bytes) :
    (initializePageTable i n b memory).1.map TranslationEntry.physicalPage =
      (getPages n b).map (BitVec.ofInt 32) := by
  induction n generalizing i b memory with
  | zero => rfl
  | succ n ih => simp only [initializePageTable, getPages, List.map_cons, ih]

/-- They are also the ones that `copy` makes. -/
theorem copyPages_getPages (es : List TranslationEntry) (b : BitMap) (memory : Bytes) :
    (copyPages es b memory).1.map TranslationEntry.physicalPage =
      (getPages es.length b).map (BitVec.ofInt 32) := by
  induction es generalizing b memory with
  | nil => rfl
  | cons e es ih => simp only [copyPages, List.length_cons, getPages, List.map_cons, ih]

/-- With enough free frames, every call gets one. -/
theorem getPages_nonneg {n : Nat} {b : BitMap} (hb : b.numBits = numPhysPages)
    (h : n ≤ b.numClear) : ∀ page ∈ getPages n b, 0 ≤ page ∧ page < numPhysPages := by
  induction n generalizing b with
  | zero => simp [getPages]
  | succ n ih =>
    obtain ⟨f, hf, -, hfind, -, hclear⟩ := getPage_spec hb (by omega)
    intro page hpage
    simp only [getPages, hfind, List.mem_cons] at hpage
    rcases hpage with rfl | hpage
    · omega
    · exact ih (b := b.markBit f) hb (by omega) page hpage

/-- The frames of the table are free again, and no others. -/
theorem releasePhysicalMemory_spec {table : List TranslationEntry} {b b' : BitMap}
    (h : releasePhysicalMemory table b = .ok b') :
    b'.numBits = b.numBits ∧ b'.marked = b.marked \ (frames table).toFinset := by
  induction table generalizing b with
  | nil =>
    cases h
    simp [frames]
  | cons e es ih =>
    rw [releasePhysicalMemory, List.foldlM_cons] at h
    obtain ⟨b₁, hc, h⟩ := bind_eq_ok.mp h
    obtain ⟨i, hi, hlt, rfl⟩ := BitMap.clear_spec hc
    obtain ⟨hn, hm⟩ := ih h
    have hnat : e.physicalPage.toNat = i := by
      rw [BitVec.toInt_eq_toNat_cond] at hi
      split at hi <;> omega
    refine ⟨hn, ?_⟩
    rw [hm, b.marked_clearBit hlt, frames_cons, List.toFinset_cons, hnat]
    ext j
    simp only [Finset.mem_sdiff, Finset.mem_erase, Finset.mem_insert]
    tauto

/-! ## Loading changes no mapping -/

theorem translateAddr_mapping {table table' : List TranslationEntry} {numPages : Nat}
    {virtualAddress a : Int} (h : translateAddr table numPages virtualAddress = .ok (a, table')) :
    table'.map TranslationEntry.mapping = table.map TranslationEntry.mapping := by
  unfold translateAddr at h
  split at h
  · cases h; rfl
  simp only at h
  split at h
  · cases h; rfl
  obtain ⟨e, he, h⟩ := bind_eq_ok.mp h
  split at h
  · cases h
    exact map_mapping_set (deref_eq_ok.mp he) rfl
  · cases h; rfl

theorem readFileLoop_mapping {buffer : Bytes} {numPages fuel numBytesRead : Nat}
    {virtAddr numBytesLeft : Int} {table table' : List TranslationEntry} {memory memory' : Bytes}
    {n : Nat} (h : readFileLoop buffer numPages fuel virtAddr numBytesRead numBytesLeft table memory =
      .ok (n, table', memory')) :
    table'.map TranslationEntry.mapping = table.map TranslationEntry.mapping := by
  induction fuel generalizing virtAddr numBytesRead numBytesLeft table memory with
  | zero =>
    unfold readFileLoop at h
    split at h
    · cases h
    · cases h; rfl
  | succ fuel ih =>
    unfold readFileLoop at h
    split at h
    · obtain ⟨⟨a, t⟩, ht, h⟩ := bind_eq_ok.mp h
      obtain ⟨-, -, h⟩ := bind_eq_ok.mp h
      exact (ih (ite_error_eq_ok.mp h).2).trans (translateAddr_mapping ht)
    · cases h; rfl

theorem readSegment_mapping {s : Segment} {file : List (BitVec 8)} {junk : Bytes} {numPages : Nat}
    {table table' : List TranslationEntry} {memory memory' : Bytes}
    (h : readSegment s file junk numPages table memory = .ok (table', memory')) :
    table'.map TranslationEntry.mapping = table.map TranslationEntry.mapping := by
  unfold readSegment at h
  split at h
  · obtain ⟨⟨n, t, m⟩, h₁, h⟩ := bind_eq_ok.mp h
    cases h
    obtain ⟨buffer, -, h₁⟩ := bind_eq_ok.mp h₁
    exact readFileLoop_mapping h₁
  · cases h; rfl

theorem readFileName_mapping {numPages n : Nat} {memory : Bytes} {virtualAddress : Int}
    {table table' : List TranslationEntry} {name : List (BitVec 8)}
    (h : readFileName numPages memory n virtualAddress table = .ok (name, table')) :
    table'.map TranslationEntry.mapping = table.map TranslationEntry.mapping := by
  induction n generalizing virtualAddress table name with
  | zero => cases h; rfl
  | succ n ih =>
    unfold readFileName at h
    obtain ⟨⟨a, t⟩, ht, h⟩ := bind_eq_ok.mp h
    have hmap := translateAddr_mapping ht
    simp only at h
    split at h
    · cases h; exact hmap
    split at h
    · cases h; exact hmap
    · obtain ⟨⟨cs, t'⟩, hr, h⟩ := bind_eq_ok.mp h
      cases h
      exact (ih hr).trans hmap

/-- A loaded table has the pages the header asks for, in frames that were free. -/
theorem load_spec {noffH : NoffHeader} {file : List (BitVec 8)} {junk : Buffers} {b b' : BitMap}
    {memory memory' : Bytes} {table : List TranslationEntry} (hb : b.numBits = numPhysPages)
    (hroom : noffH.numPages ≤ b.numClear)
    (h : load noffH file junk b memory = .ok (table, b', memory')) :
    Allocated b b' (frames table) ∧ table.length = noffH.numPages := by
  obtain ⟨t₀, b₀, m₀, hinit, ha, hl, -⟩ := initializePageTable_spec hb hroom 0 memory
  simp only [load, hinit] at h
  obtain ⟨⟨t₁, m₁⟩, h₁, h⟩ := bind_eq_ok.mp h
  obtain ⟨⟨t₂, m₂⟩, h₂, h⟩ := bind_eq_ok.mp h
  cases h
  have hmap := (readSegment_mapping h₂).trans (readSegment_mapping h₁)
  refine ⟨frames_congr hmap ▸ ha, ?_⟩
  rw [← hl]
  simpa using congrArg List.length hmap

theorem AddrSpace.new_spec {file : List (BitVec 8)} {junk : Buffers} {b b' : BitMap}
    {memory memory' : Bytes} {space : AddrSpace} (hb : b.numBits = numPhysPages)
    (h : AddrSpace.new file junk b memory = .ok (space, b', memory')) :
    Allocated b b' (frames space.pageTable) ∧ space.pageTable.length = space.numPages ∧
      ∃ noffH, readHeader file junk.header = .ok noffH ∧ space.numPages = noffH.numPages := by
  unfold AddrSpace.new at h
  obtain ⟨noffH, hh, h⟩ := bind_eq_ok.mp h
  obtain ⟨_, hroom, h⟩ := bind_eq_ok.mp h
  obtain ⟨⟨t, b₁, m₁⟩, hload, h⟩ := bind_eq_ok.mp h
  cases h
  obtain ⟨ha, hl⟩ := load_spec hb (assert_eq_ok.mp hroom) hload
  exact ⟨ha, hl, noffH, hh, rfl⟩

theorem AddrSpace.namedFile_spec {space : AddrSpace} {env : Env} {virtualAddress : BitVec 32}
    {memory : Bytes} {file : List (BitVec 8)}
    (h : space.namedFile env virtualAddress memory = .ok (some file)) :
    ∃ name, env.files name = some file := by
  obtain ⟨⟨name, t⟩, -, h⟩ := bind_eq_ok.mp h
  exact ⟨_, Except.ok.inj h⟩

/-- A failed `Replace` has set use bits only. A successful one has given back
the frames of the old table and taken those of the new one. -/
theorem AddrSpace.replace_spec {space space' : AddrSpace} {env : Env} {virtualAddress : BitVec 32}
    {b : BitMap} {memory : Bytes} {r : Option (BitMap × Bytes)}
    (h : space.replace env virtualAddress b memory = .ok (space', r)) :
    space'.pcb = space.pcb ∧
      ((r = none ∧ space'.numPages = space.numPages ∧
          space'.pageTable.map TranslationEntry.mapping =
            space.pageTable.map TranslationEntry.mapping) ∨
        ∃ file noffH b₁ b₂ memory', r = some (b₂, memory') ∧
          space.namedFile env virtualAddress memory = .ok (some file) ∧
          readHeader file env.buffers.header = .ok noffH ∧ space'.numPages = noffH.numPages ∧
          (BitVec.ofNat 32 noffH.numPages - BitVec.ofNat 32 space.numPages).toNat ≤ b.numClear ∧
          b₁.numBits = b.numBits ∧ b₁.marked = b.marked \ (frames space.pageTable).toFinset ∧
          load noffH file env.buffers b₁ memory = .ok (space'.pageTable, b₂, memory')) := by
  unfold AddrSpace.replace at h
  obtain ⟨⟨name, t⟩, hname, h⟩ := bind_eq_ok.mp h
  have hmap := readFileName_mapping hname
  simp only at h
  split at h
  · cases h
    exact ⟨rfl, .inl ⟨rfl, rfl, hmap⟩⟩
  · rename_i file hfile
    obtain ⟨noffH, hh, h⟩ := bind_eq_ok.mp h
    split at h
    · cases h
      exact ⟨rfl, .inl ⟨rfl, rfl, hmap⟩⟩
    · rename_i hroom
      obtain ⟨b₁, hrel, h⟩ := bind_eq_ok.mp h
      obtain ⟨⟨t₂, b₂, m₂⟩, hload, h⟩ := bind_eq_ok.mp h
      cases h
      obtain ⟨hn, hm⟩ := releasePhysicalMemory_spec hrel
      rw [frames_congr hmap] at hm
      refine ⟨rfl, .inr ⟨file, noffH, b₁, b₂, m₂, rfl, ?_, hh, rfl, Nat.le_of_not_gt hroom, hn,
        hm, hload⟩⟩
      rw [AddrSpace.namedFile, hname, ok_bind]
      exact congrArg Except.ok hfile

end Nachos
