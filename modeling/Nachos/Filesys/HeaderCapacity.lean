import Nachos.Filesys.Create

/-!
# Files that are too big for a header (filesys/filehdr.cc)

A header has room for `NumDirect` sector numbers. `Allocate` compares the number of sectors
with the free ones, not with that.

* `allocateSectors_returns_iff`: the loop returns exactly if it stays in the array;
* `allocate_returns_iff`: the sizes, for each free map, for which `Allocate` does;
* `header_capacity`: the same, and what `Create` does with the other sizes.
-/

namespace Nachos.Filesys

open Nachos.Framework

namespace FileHeader

/-- The loop stores `n` numbers from index `i` on. -/
theorem allocateSectors_returns_iff (n i : Nat) (hdr : FileHeader) (freeMap : BitMap) :
    (∃ r, allocateSectors n i hdr freeMap = .ok r) ↔ n = 0 ∨ i + n ≤ numDirect := by
  induction n generalizing i hdr freeMap with
  | zero => exact ⟨fun _ => .inl rfl, fun _ => ⟨_, rfl⟩⟩
  | succ n ih =>
    rw [allocateSectors]
    by_cases hi : i < numDirect
    · rw [if_pos hi, ih]
      omega
    · rw [if_neg hi]
      constructor
      · rintro ⟨r, hr⟩
        cases hr
      · intro h
        omega

/-- Where it does not return, it has stored outside the array. -/
theorem allocateSectors_overflows {n i : Nat} (hn : n ≠ 0) (hi : numDirect < i + n) (hdr : FileHeader)
    (freeMap : BitMap) : allocateSectors n i hdr freeMap = .error .undefined := by
  induction n generalizing i hdr freeMap with
  | zero => exact absurd rfl hn
  | succ n ih =>
    rw [allocateSectors]
    by_cases hlt : i < numDirect
    · rw [if_pos hlt]
      exact ih (by omega) (by omega) _ _
    · rw [if_neg hlt]

/-- What `Allocate` does with a size for which a header has no room. -/
theorem allocate_oversize {freeMap : BitMap} {fileSize : Int} (hsize : numDirect < sectorsFor fileSize)
    (hdr : FileHeader) : hdr.allocate freeMap fileSize =
      if freeMap.numClear < sectorsFor fileSize then .ok none else .error .undefined := by
  unfold allocate
  dsimp only
  split
  · rfl
  · rw [allocateSectors_overflows (by omega) (by omega)]
    rfl

theorem allocate_returns_iff (hdr : FileHeader) (freeMap : BitMap) (fileSize : Int) :
    (∃ r, hdr.allocate freeMap fileSize = .ok r) ↔
      sectorsFor fileSize ≤ numDirect ∨ freeMap.numClear < sectorsFor fileSize := by
  by_cases hsize : numDirect < sectorsFor fileSize
  · rw [allocate_oversize hsize]
    by_cases hroom : freeMap.numClear < sectorsFor fileSize
    · rw [if_pos hroom]
      exact ⟨fun _ => .inr hroom, fun _ => ⟨_, rfl⟩⟩
    · rw [if_neg hroom]
      constructor
      · rintro ⟨r, hr⟩
        cases hr
      · intro h
        omega
  · refine iff_of_true ?_ (.inl (by omega))
    unfold allocate
    dsimp only
    split
    · exact ⟨_, rfl⟩
    · obtain ⟨r, hr⟩ := (allocateSectors_returns_iff (sectorsFor fileSize).toNat 0
        (splice (splice hdr 0 4 (bytesOf (BitVec.ofInt 32 fileSize))) 4 4
          (bytesOf (BitVec.ofInt 32 (sectorsFor fileSize)))) freeMap).mpr (by omega)
      rw [hr]
      exact ⟨_, rfl⟩

theorem numDirect_lt_sectorsFor {size : Nat} (h : maxFileSize < size) :
    numDirect < divRoundUp size sectorSize := by
  have := divRoundUp_mul_le size (s := sectorSize) (by decide)
  unfold maxFileSize at h
  exact Nat.lt_of_mul_lt_mul_right (Nat.lt_of_lt_of_le h this)

end FileHeader

/-- A file that does not fit in a header is refused exactly if there is something else that `Create`
wants. -/
theorem create_oversize {disk : Disk} {fs : FileSystem} (hc : Consistent disk) (hsys : SystemFiles disk)
    (hm : Mounted fs disk) (junk : Junk) (name : CString) {size : Nat} (hsize : maxFileSize < size) :
    fs.create disk junk name size = .ok (false, disk) ↔ ¬ CanCreate disk name size := by
  rcases create_reaches hc hsys hm junk name size with ⟨hcreate, hnot⟩ |
    ⟨freeMap, directory', i, s, hen, hcreate⟩
  · exact iff_of_true hcreate (hnot size)
  · have hbig := FileHeader.numDirect_lt_sectorsFor hsize
    rw [hcreate, hen.canCreate size, FileSystem.createData,
      FileHeader.allocate_oversize (by rw [FileHeader.sectorsFor_natCast]; omega),
      FileHeader.sectorsFor_natCast]
    by_cases hroom : (freeMap.markBit s).numClear < divRoundUp size sectorSize
    · rw [if_pos (by omega)]
      exact iff_of_true rfl (by omega)
    · rw [if_neg (by omega)]
      refine iff_of_false (fun h => ?_) (by omega)
      cases h

/-- `Allocate` returns, and so has stored only in the array, exactly if the header has room for
the sectors or there are not enough free ones. `Create` refuses a size above `MaxFileSize`, and
leaves the disk as it was, exactly if it could not create a file of this size anyway. -/
theorem header_capacity (hdr : FileHeader) (freeMap : BitMap) (fileSize : Int) :
    ((∃ r, hdr.allocate freeMap fileSize = .ok r) ↔
      FileHeader.sectorsFor fileSize ≤ numDirect ∨ freeMap.numClear < FileHeader.sectorsFor fileSize) ∧
    ∀ (disk : Disk) (fs : FileSystem), Consistent disk → SystemFiles disk → Mounted fs disk →
      ∀ (junk : Junk) (name : CString) (size : Nat), maxFileSize < size →
        (fs.create disk junk name size = .ok (false, disk) ↔ ¬ CanCreate disk name size) :=
  ⟨hdr.allocate_returns_iff freeMap fileSize, fun _ _ hc hsys hm junk name _ hsize =>
    create_oversize hc hsys hm junk name hsize⟩

/-- On a formatted disk. -/
theorem header_capacity_formatted : ∃ fs disk,
    FileSystem.format (fun _ _ => 0) (fun _ _ => 0) = .ok (fs, disk) ∧
    (fs.create disk (fun _ _ => 0) nameA 5000 = .ok (false, disk) ↔ ¬ CanCreate disk nameA 5000) := by
  obtain ⟨fs, disk, map, dir, freeMap, hformat, hdisk, hm⟩ := format_spec (fun _ _ => 0) fun _ _ => 0
  exact ⟨fs, disk, hformat, (header_capacity (fun _ => 0) freeMap 5000).2 disk fs hdisk.consistent
    hdisk.systemFiles hm _ nameA 5000 (by decide)⟩

/-- A new free map of 1024 bits, and a file of 3841 bytes. -/
theorem header_capacity_overflow : ¬ ∀ (hdr : FileHeader) (freeMap : BitMap) (fileSize : Int),
    ∃ r, hdr.allocate freeMap fileSize = .ok r := by
  intro h
  have hnew := BitMap.marked_new numSectors fun _ => 0
  have hcount := (BitMap.new numSectors fun _ => 0).numClear_add_card
  rw [hnew.1, hnew.2, Finset.card_empty] at hcount
  rcases (FileHeader.allocate_returns_iff (fun _ => 0) (BitMap.new numSectors fun _ => 0) 3841).mp
    (h _ _ _) with hfits | hroom
  · exact absurd hfits (by decide)
  · have hsectors : FileHeader.sectorsFor 3841 = 31 := by decide
    have hnum : numSectors = 1024 := rfl
    rw [hsectors] at hroom
    omega

end Nachos.Filesys
