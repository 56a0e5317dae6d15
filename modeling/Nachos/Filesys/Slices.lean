import Nachos.Filesys.OpenFile

/-!
# Reading and writing a range (filesys/openfile.cc)

For a request that starts in the file and whose end is an `int`, `ReadAt` reads a
range of the file, and `WriteAt` updates it.

* `transferred`: how many bytes a request comes to;
* `Slices`, `slices`: what both do to the bytes of the file, and that reading what
  was written gives it back.
-/

namespace Nachos.Filesys

open Nachos.Framework

/-- How many bytes of a file a request is for. -/
def transferred (length numBytes position : Int) : Int := max 0 (min numBytes (length - position))

theorem count_eq_transferred (length : Nat) (numBytes : Int) (p : Nat) :
    (count length numBytes p : Int) = transferred length numBytes p := by
  unfold count transferred
  split <;> omega

/-- A request for `n` bytes at `p` reads or updates this range of the file, whatever is in
memory that was not initialised. -/
structure Slices (disk : Disk) (file : OpenFile) (length : Nat) (sectors : List Nat) (numBytes : Int)
    (p n : Nat) : Prop where
  read : ∀ junk into, file.readAt disk junk into numBytes p =
    .ok (n, splice into 0 n fun j => fileByte disk sectors (p + j))
  write : ∀ junk src, ∃ disk', file.writeAt disk junk src numBytes p = .ok (n, disk') ∧
    (∀ s, s ∉ sectors → disk' s = disk s) ∧
    (∀ q < length, fileByte disk' sectors q = splice (fileByte disk sectors) p n src q) ∧
    ∀ junk' into, file.readAt disk' junk' into numBytes p = .ok (n, splice into 0 n src)

theorem add_count_le {length p : Nat} {numBytes : Int} (h : 0 < count length numBytes p) :
    p + count length numBytes p ≤ length := by
  unfold count at h ⊢
  split at h
  · omega
  · rename_i hreq
    rw [if_neg hreq]
    omega

/-- Every request of this kind is for such a range. -/
theorem slices (disk : Disk) (file : OpenFile) (length : Nat) (sectors : List Nat)
    (hf : IsFile file.hdr length sectors) (numBytes position : Int) (hpos : 0 ≤ position)
    (hsum : position + numBytes < 2 ^ 31) :
    ∃ p n : Nat, position = p ∧ n = transferred length numBytes position ∧
      Slices disk file length sectors numBytes p n := by
  obtain ⟨p, rfl⟩ := Int.eq_ofNat_of_zero_le hpos
  refine ⟨p, count length numBytes p, rfl, count_eq_transferred length numBytes p,
    fun junk into => OpenFile.readAt_spec hf hsum, fun junk src => ?_⟩
  obtain ⟨disk', hwrite, hother, hbytes⟩ := OpenFile.writeAt_spec disk junk src hf hsum
  refine ⟨disk', hwrite, fun s hs => hother s fun h => hs (touched_subset h), hbytes, fun junk' into => ?_⟩
  have hread : file.readAt disk' junk' into numBytes p = _ := OpenFile.readAt_spec hf hsum
  rw [hread]
  refine congrArg (fun b => Except.ok (_, b)) (splice_congr fun j hj => ?_)
  have hle := add_count_le (Nat.zero_lt_of_lt hj)
  rw [hbytes _ (by omega), if_pos (by omega), Nat.add_sub_cancel_left]

/-- The header of a file of 200 bytes in the sectors 5 and 9. -/
def someHeader : FileHeader := fun x =>
  if x = 0 then 200 else if x = 4 then 2 else if x = 8 then 5 else if x = 12 then 9 else 0

theorem isFile_someHeader : IsFile someHeader 200 [5, 9] where
  numBytes := by decide
  length_le := by decide
  sectors_length := by decide
  numSectors := by decide
  dataSector := by
    intro i s hi
    rcases i with _ | _ | i
    · cases hi
      decide
    · cases hi
      decide
    · cases hi
  nodup := by decide
  lt := by decide

/-- 100 bytes at 150, of which the file has 50. -/
theorem slices_end : ∃ p n : Nat, (150 : Int) = p ∧ n = transferred 200 100 150 ∧
    Slices (fun _ _ => 0) ⟨someHeader, 0⟩ 200 [5, 9] 100 p n :=
  slices (fun _ _ => 0) ⟨someHeader, 0⟩ 200 [5, 9] isFile_someHeader 100 150 (by decide) (by decide)

end Nachos.Filesys
