import Mathlib.Data.List.GetD
import Nachos.Framework.Bytes
import Nachos.Userprog.BitMap

/-!
# File headers and the disk (filesys/filehdr.cc, synchdisk.cc)

A disk sector is a block of bytes. A `FileHeader` is kept as the bytes of the
object, because it is read from and written to disk as such: two counts, then
the array `dataSectors`.

* `IsFile`: a header that describes a file; `fileByte`: its bytes;
* `allocate_spec`, `deallocate_spec`: getting the data sectors of a file, and
  giving them back.
-/

namespace Nachos.Filesys

open Nachos.Framework

/-- `SectorSize`. -/
def sectorSize : Nat := 128

/-- `NumSectors`. -/
def numSectors : Nat := 1024

/-- `NumDirect`. -/
def numDirect : Nat := 30

/-- `MaxFileSize`. -/
def maxFileSize : Nat := numDirect * sectorSize

/-! ## The disk -/

/-- The bytes of each sector. -/
abbrev Disk := Nat → Bytes

/-- `SynchDisk::ReadSector`. -/
def readSector (disk : Disk) (sectorNumber : Int) : Except Stop Bytes := do
  assert (0 ≤ sectorNumber ∧ sectorNumber < numSectors)
  .ok (disk sectorNumber.toNat)

/-- `SynchDisk::WriteSector`. -/
def writeSector (disk : Disk) (sectorNumber : Int) (data : Bytes) : Except Stop Disk := do
  assert (0 ≤ sectorNumber ∧ sectorNumber < numSectors)
  .ok (Function.update disk sectorNumber.toNat data)

/-! ## File headers -/

/-- The bytes of a `FileHeader`: `numBytes`, `numSectors`, `dataSectors`. -/
abbrev FileHeader := Bytes

namespace FileHeader

def numBytes (hdr : FileHeader) : Int := (wordAt hdr 0).toInt

def numSectors (hdr : FileHeader) : Int := (wordAt hdr 4).toInt

/-- `dataSectors[i]`. The array starts at byte 8 of the object, and nothing checks
the index; outside the object it is undefined. -/
def dataSector (hdr : FileHeader) (i : Int) : Except Stop Int :=
  if 0 ≤ 8 + 4 * i ∧ 8 + 4 * i < sectorSize then .ok (wordAt hdr (8 + 4 * i).toNat).toInt
  else .error .undefined

/-- `FileHeader::FetchFrom`. -/
def fetchFrom (disk : Disk) (sector : Int) : Except Stop FileHeader := readSector disk sector

/-- `FileHeader::WriteBack`. -/
def writeBack (hdr : FileHeader) (disk : Disk) (sector : Int) : Except Stop Disk :=
  writeSector disk sector hdr

/-- The loop of `FileHeader::Allocate`: the `n` sectors from index `i` on. -/
def allocateSectors : Nat → Nat → FileHeader → BitMap → Except Stop (FileHeader × BitMap)
  | 0, _, hdr, freeMap => .ok (hdr, freeMap)
  | n + 1, i, hdr, freeMap =>
    if i < numDirect then
      allocateSectors n (i + 1)
        (splice hdr (8 + 4 * i) 4 (bytesOf (BitVec.ofInt 32 freeMap.find.1))) freeMap.find.2
    else .error .undefined

/-- `divRoundUp(size, SectorSize)` on an `int`. -/
def sectorsFor (size : Int) : Int :=
  size.tdiv sectorSize + if size.tmod sectorSize > 0 then 1 else 0

/-- `FileHeader::Allocate`; `none` for FALSE. -/
def allocate (hdr : FileHeader) (freeMap : BitMap) (fileSize : Int) :
    Except Stop (Option (FileHeader × BitMap)) :=
  let hdr := splice hdr 0 4 (bytesOf (BitVec.ofInt 32 fileSize))
  let hdr := splice hdr 4 4 (bytesOf (BitVec.ofInt 32 (sectorsFor fileSize)))
  if freeMap.numClear < sectorsFor fileSize then .ok none
  else do
    let r ← allocateSectors (sectorsFor fileSize).toNat 0 hdr freeMap
    .ok (some r)

/-- The loop of `FileHeader::Deallocate`. -/
def deallocateSectors (hdr : FileHeader) : Nat → Nat → BitMap → Except Stop BitMap
  | 0, _, freeMap => .ok freeMap
  | n + 1, i, freeMap => do
    let sector ← hdr.dataSector i
    let marked ← freeMap.test sector
    assert (marked = true)
    let freeMap ← freeMap.clear sector
    deallocateSectors hdr n (i + 1) freeMap

/-- `FileHeader::Deallocate`. -/
def deallocate (hdr : FileHeader) (freeMap : BitMap) : Except Stop BitMap :=
  hdr.deallocateSectors hdr.numSectors.toNat 0 freeMap

/-- `FileHeader::ByteToSector`. -/
def byteToSector (hdr : FileHeader) (offset : Int) : Except Stop Int :=
  hdr.dataSector (offset.tdiv sectorSize)

end FileHeader

/-! ## The bytes of a file -/

/-- The header describes a file of `length` bytes in the data sectors `sectors`. -/
structure IsFile (hdr : FileHeader) (length : Nat) (sectors : List Nat) : Prop where
  numBytes : hdr.numBytes = length
  length_le : length ≤ maxFileSize
  sectors_length : sectors.length = divRoundUp length sectorSize
  numSectors : hdr.numSectors = sectors.length
  dataSector : ∀ (i s : Nat), sectors[i]? = some s → hdr.dataSector i = .ok s
  nodup : sectors.Nodup
  lt : ∀ s ∈ sectors, s < Filesys.numSectors

/-- The byte at `p` of a file with these data sectors. -/
def fileByte (disk : Disk) (sectors : List Nat) (p : Nat) : BitVec 8 :=
  disk (sectors.getD (p / sectorSize) 0) (p % sectorSize)

theorem fileByte_congr {disk disk' : Disk} {sectors : List Nat} {p : Nat}
    (h : ∀ s ∈ sectors, disk' s = disk s) (hp : p / sectorSize < sectors.length) :
    fileByte disk' sectors p = fileByte disk sectors p := by
  have hmem : sectors.getD (p / sectorSize) 0 ∈ sectors := by
    rw [List.getD_eq_getElem _ _ hp]
    exact List.getElem_mem hp
  rw [fileByte, fileByte, h _ hmem]

section
variable {hdr : FileHeader} {length : Nat} {sectors : List Nat} (hf : IsFile hdr length sectors)
include hf

theorem IsFile.div_lt {p : Nat} (hp : p < length) : p / sectorSize < sectors.length := by
  have := divRoundUp_mul_le length (s := sectorSize) (by decide)
  rw [← hf.sectors_length] at this
  unfold sectorSize at *
  omega

theorem IsFile.byteToSector {i : Nat} (hi : i < sectors.length) :
    hdr.byteToSector (i * sectorSize) = .ok (sectors.getD i 0 : Nat) := by
  rw [FileHeader.byteToSector, Int.mul_tdiv_cancel _ (by decide)]
  exact hf.dataSector i _ (by rw [List.getD_eq_getElem _ _ hi, List.getElem?_eq_getElem hi])

theorem IsFile.getD_lt {i : Nat} (hi : i < sectors.length) :
    sectors.getD i 0 < Filesys.numSectors := by
  rw [List.getD_eq_getElem _ _ hi]
  exact hf.lt _ (List.getElem_mem hi)

end

theorem readSector_eq {disk : Disk} {s : Nat} (hs : s < numSectors) :
    readSector disk s = .ok (disk s) := by
  rw [readSector, assert, if_pos ⟨by omega, by omega⟩]
  rfl

theorem writeSector_eq {disk : Disk} {data : Bytes} {s : Nat} (hs : s < numSectors) :
    writeSector disk s data = .ok (Function.update disk s data) := by
  rw [writeSector, assert, if_pos ⟨by omega, by omega⟩]
  rfl

/-! ## Getting and giving back the data sectors -/

namespace FileHeader

theorem sectorsFor_natCast (size : Nat) : sectorsFor size = divRoundUp size sectorSize := by
  have htdiv : (size : Int).tdiv sectorSize = ((size / sectorSize : Nat) : Int) := rfl
  have htmod : (size : Int).tmod sectorSize = ((size % sectorSize : Nat) : Int) := rfl
  rw [sectorsFor, divRoundUp, htdiv, htmod]
  by_cases hr : size % sectorSize > 0
  · rw [if_pos hr, if_pos (by omega)]
    rfl
  · rw [if_neg hr, if_neg (by omega)]
    rfl

theorem toInt_ofInt_natCast {n : Nat} (h : n < 2 ^ 31) : (BitVec.ofInt 32 (n : Int)).toInt = n := by
  rw [BitVec.toInt_ofInt, Int.bmod_def]
  omega

theorem toInt_wordAt_splice (hdr : FileHeader) (a : Nat) {n : Nat} (h : n < 2 ^ 31) :
    (wordAt (splice hdr a 4 (bytesOf (BitVec.ofInt 32 (n : Int)))) a).toInt = n := by
  rw [wordAt_splice, toInt_ofInt_natCast h]

/-- The loop of `Allocate` writes the sectors it gets into the array. -/
theorem allocateSectors_spec (n i : Nat) (hdr : FileHeader) (freeMap : BitMap)
    (hb : freeMap.numBits = Filesys.numSectors) (hi : i + n ≤ numDirect)
    (hroom : n ≤ freeMap.numClear) :
    ∃ hdr' freeMap' sectors, allocateSectors n i hdr freeMap = .ok (hdr', freeMap') ∧
      Allocated freeMap freeMap' sectors ∧ sectors.length = n ∧ (∀ x < 8 + 4 * i, hdr' x = hdr x) ∧
      ∀ (k s : Nat), sectors[k]? = some s → (wordAt hdr' (8 + 4 * (i + k))).toInt = s := by
  induction n generalizing i hdr freeMap with
  | zero => exact ⟨hdr, freeMap, [], rfl, .nil freeMap, rfl, fun _ _ => rfl, fun k s hk => by simp at hk⟩
  | succ n ih =>
    obtain ⟨f, hf, hm, hfind, hclear⟩ := BitMap.find_of_numClear (b := freeMap) (by omega)
    obtain ⟨hdr', freeMap', sectors, halloc, ha, hlen, hkeep, hwords⟩ := ih (i + 1)
      (splice hdr (8 + 4 * i) 4 (bytesOf (BitVec.ofInt 32 (f : Int)))) (freeMap.markBit f) hb
      (by omega) (by omega)
    refine ⟨hdr', freeMap', f :: sectors, ?_, .cons hf hm ha, by rw [List.length_cons, hlen],
      fun x hx => ?_, fun k s hk => ?_⟩
    · rw [allocateSectors, if_pos (by omega), hfind]
      exact halloc
    · rw [hkeep x (by omega)]
      exact splice_apply_of_notMem (by omega)
    · rcases k with _ | k
      · simp only [List.getElem?_cons_zero, Option.some.injEq] at hk
        subst hk
        rw [hb, Filesys.numSectors] at hf
        rw [← toInt_wordAt_splice hdr (8 + 4 * i) (n := f) (by omega)]
        congr 1
        exact wordAt_congr fun j hj => hkeep _ (by omega)
      · rw [List.getElem?_cons_succ] at hk
        rw [show i + (k + 1) = i + 1 + k by omega]
        exact hwords k s hk

/-- `Allocate` makes a file of the size it is asked for, if there is room. -/
theorem allocate_spec (hdr : FileHeader) {freeMap : BitMap} {size : Nat}
    (hb : freeMap.numBits = Filesys.numSectors) (hsize : size ≤ maxFileSize) :
    (freeMap.numClear < divRoundUp size sectorSize ∧ hdr.allocate freeMap size = .ok none) ∨
    ∃ hdr' freeMap' sectors, divRoundUp size sectorSize ≤ freeMap.numClear ∧
      hdr.allocate freeMap size = .ok (some (hdr', freeMap')) ∧ Allocated freeMap freeMap' sectors ∧
      IsFile hdr' size sectors := by
  unfold allocate
  simp only [sectorsFor_natCast]
  by_cases hroom : freeMap.numClear < divRoundUp size sectorSize
  · exact .inl ⟨hroom, by rw [if_pos (by omega)]⟩
  · have hmax : divRoundUp size sectorSize ≤ numDirect := by
      rw [divRoundUp_eq size (by decide)]
      simp only [maxFileSize, numDirect, sectorSize] at *
      omega
    have hlen31 : divRoundUp size sectorSize < 2 ^ 31 := by
      rw [numDirect] at hmax
      omega
    have hsize31 : size < 2 ^ 31 := by
      rw [maxFileSize, numDirect, sectorSize] at hsize
      omega
    obtain ⟨hdr', freeMap', sectors, halloc, ha, hlen, hkeep, hwords⟩ := allocateSectors_spec
      (divRoundUp size sectorSize) 0 (splice (splice hdr 0 4 (bytesOf (BitVec.ofInt 32 (size : Int))))
        4 4 (bytesOf (BitVec.ofInt 32 (divRoundUp size sectorSize : Int)))) freeMap hb (by omega)
      (by omega)
    refine .inr ⟨hdr', freeMap', sectors, by omega, ?_, ha, ?_, hsize, hlen, ?_, ?_, ha.nodup, ?_⟩
    · rw [if_neg (by omega), Int.toNat_natCast, halloc]
      rfl
    · rw [numBytes, ← toInt_wordAt_splice hdr 0 hsize31]
      congr 1
      refine wordAt_congr fun j hj => ?_
      rw [hkeep _ (by omega)]
      exact splice_apply_of_notMem (by omega)
    · rw [FileHeader.numSectors, hlen, ← toInt_wordAt_splice (splice hdr 0 4
        (bytesOf (BitVec.ofInt 32 (size : Int)))) 4 hlen31]
      congr 1
      exact wordAt_congr fun j hj => hkeep _ (by omega)
    · intro i s hi
      have hlt : i < sectors.length := (List.getElem?_eq_some_iff.mp hi).1
      have := hwords i s hi
      rw [dataSector, if_pos (by rw [numDirect] at hmax; rw [sectorSize]; omega),
        show ((8 : Int) + 4 * i).toNat = 8 + 4 * (0 + i) by omega, this]
    · intro s hs
      rw [← hb]
      exact (ha.free s hs).1

/-- `Deallocate` gives back the sectors of a file that has them. -/
theorem deallocateSectors_spec {hdr : FileHeader} {length : Nat} {sectors : List Nat}
    (hf : IsFile hdr length sectors) (n i : Nat) (freeMap : BitMap)
    (hb : freeMap.numBits = Filesys.numSectors) (hi : i + n = sectors.length)
    (hm : ∀ s ∈ sectors.drop i, s ∈ freeMap.marked) :
    ∃ freeMap', hdr.deallocateSectors n i freeMap = .ok freeMap' ∧
      freeMap'.numBits = freeMap.numBits ∧
      freeMap'.marked = freeMap.marked \ (sectors.drop i).toFinset := by
  induction n generalizing i freeMap with
  | zero =>
    refine ⟨freeMap, rfl, rfl, ?_⟩
    rw [List.drop_of_length_le (by omega)]
    simp
  | succ n ih =>
    have hlt : i < sectors.length := by omega
    have hdrop : sectors.drop i = sectors[i] :: sectors.drop (i + 1) :=
      List.drop_eq_getElem_cons hlt
    have hmi : sectors[i] ∈ freeMap.marked := hm _ (by rw [hdrop]; exact List.mem_cons_self)
    have hs : sectors[i] < freeMap.numBits := by
      rw [hb]
      exact hf.lt _ (List.getElem_mem hlt)
    have hnd : sectors[i] ∉ sectors.drop (i + 1) := by
      have := List.Pairwise.drop (i := i) hf.nodup
      rw [← List.Nodup] at this
      rw [hdrop, List.nodup_cons] at this
      exact this.1
    obtain ⟨freeMap', hdealloc, hn, hmarked⟩ := ih (i + 1) (freeMap.clearBit sectors[i]) hb (by omega)
      (fun s hs' => by
        rw [BitMap.marked_clearBit _ hs, Finset.mem_erase]
        refine ⟨fun heq => hnd (heq ▸ hs'), hm s ?_⟩
        rw [hdrop]
        exact List.mem_cons_of_mem _ hs')
    refine ⟨freeMap', ?_, hn, ?_⟩
    · simp only [deallocateSectors, hf.dataSector i _ (List.getElem?_eq_getElem hlt), bind, Except.bind,
        BitMap.test_eq hs, hmi, decide_true, assert, ite_true, BitMap.clear_eq hs]
      exact hdealloc
    · rw [hmarked, BitMap.marked_clearBit _ hs, hdrop, List.toFinset_cons]
      ext x
      simp only [Finset.mem_sdiff, Finset.mem_erase, Finset.mem_insert]
      tauto

theorem deallocate_spec {hdr : FileHeader} {length : Nat} {sectors : List Nat}
    (hf : IsFile hdr length sectors) {freeMap : BitMap} (hb : freeMap.numBits = Filesys.numSectors)
    (hm : ∀ s ∈ sectors, s ∈ freeMap.marked) :
    ∃ freeMap', hdr.deallocate freeMap = .ok freeMap' ∧ freeMap'.numBits = freeMap.numBits ∧
      freeMap'.marked = freeMap.marked \ sectors.toFinset := by
  have hnum : hdr.numSectors.toNat = sectors.length := by rw [hf.numSectors, Int.toNat_natCast]
  rw [deallocate, hnum]
  exact deallocateSectors_spec hf sectors.length 0 freeMap hb (by omega) hm

end FileHeader

end Nachos.Filesys
