import Nachos.Framework.Traced
import Nachos.Filesys.Slices

/-!
# What a request does in memory (filesys/openfile.cc)

`ReadAt` and `WriteAt` again, with a report of each buffer they make, each range of
a buffer they read or write, and each element of `dataSectors` they use.

* `readAtTraced_run`, `writeAtTraced_run`: without the report they are `readAt` and
  `writeAt`;
* `readAtTraced_reports`, `writeAtTraced_reports`: a request that is `InRange` stays in bounds;
* `bounded_iff`: the requests that stay in bounds and are answered as they should be.
-/

namespace Nachos.Filesys

open Nachos.Framework

/-- A new buffer; `count` bytes of a buffer, from `start` on; an element of `dataSectors`. -/
inductive Access
  | alloc (size : Int)
  | buffer (size start count : Int)
  | dataSectors (i : Int)

/-- A size is not negative, a range is in its buffer, and an element is a data sector of the
file. -/
def InBounds (fileLength : Int) : Access → Prop
  | .alloc size => 0 ≤ size
  | .buffer size start count => 0 ≤ start ∧ start + count ≤ size
  | .dataSectors i => 0 ≤ i ∧ i < FileHeader.sectorsFor fileLength

namespace OpenFile

open Traced

def byteToSectorTraced (hdr : FileHeader) (offset : Int) : Traced Access Stop Int := do
  report (.dataSectors (offset.tdiv sectorSize))
  lift (hdr.byteToSector offset)

/-- `readSectors`, into a buffer of `size` bytes. -/
def readSectorsTraced (disk : Disk) (hdr : FileHeader) (size : Int) :
    Nat → Int → Nat → Bytes → Traced Access Stop Bytes
  | 0, _, _, buf => pure buf
  | n + 1, i, a, buf => do
    let sector ← byteToSectorTraced hdr (i * sectorSize)
    report (.buffer size a sectorSize)
    let data ← lift (readSector disk sector)
    readSectorsTraced disk hdr size n (i + 1) (a + sectorSize) (splice buf a sectorSize data)

def readAtTraced (disk : Disk) (file : OpenFile) (junk into : Bytes) (numBytes position : Int) :
    Traced Access Stop (Int × Bytes) :=
  let fileLength := file.hdr.numBytes
  if numBytes ≤ 0 ∨ position ≥ fileLength then pure (0, into)
  else
    let numBytes := if int32 (position + numBytes) > fileLength then int32 (fileLength - position)
      else numBytes
    let firstSector := position.tdiv sectorSize
    let lastSector := (int32 (position + numBytes - 1)).tdiv sectorSize
    let numSectors := 1 + lastSector - firstSector
    let size := int32 (numSectors * sectorSize)
    do
      report (.alloc size)
      let buf ← readSectorsTraced disk file.hdr size numSectors.toNat firstSector 0 junk
      let offset := position - firstSector * sectorSize
      report (.buffer size offset numBytes)
      if 0 ≤ offset ∧ offset + numBytes ≤ numSectors * sectorSize then
        pure (numBytes, splice into 0 numBytes.toNat fun j => buf (offset.toNat + j))
      else lift (.error .undefined)

/-- `writeSectors`, from a buffer of `size` bytes. -/
def writeSectorsTraced (hdr : FileHeader) (size : Int) (buf : Bytes) :
    Nat → Int → Nat → Disk → Traced Access Stop Disk
  | 0, _, _, disk => pure disk
  | n + 1, i, a, disk => do
    let sector ← byteToSectorTraced hdr (i * sectorSize)
    report (.buffer size a sectorSize)
    let disk ← lift (writeSector disk sector fun j => buf (a + j))
    writeSectorsTraced hdr size buf n (i + 1) (a + sectorSize) disk

/-- `readFirst`: what it reads goes to the start of the buffer. -/
def readFirstTraced (disk : Disk) (file : OpenFile) (size : Int) (junk : Bytes) (firstSector : Int)
    (firstAligned : Bool) : Traced Access Stop Bytes :=
  if firstAligned then pure junk
  else do
    let r ← readAtTraced disk file junk junk sectorSize (firstSector * sectorSize)
    report (.buffer size 0 r.1)
    pure r.2

/-- `readLast`: what it reads goes to the start of the last sector in the buffer. -/
def readLastTraced (disk : Disk) (file : OpenFile) (size : Int) (junk : Bytes) (lastSector start : Int)
    (needed : Bool) (buf : Bytes) : Traced Access Stop Bytes :=
  if needed then do
    let r ← readAtTraced disk file junk (fun j => buf (start.toNat + j)) sectorSize
      (lastSector * sectorSize)
    report (.buffer size start r.1)
    pure (splice buf start.toNat sectorSize r.2)
  else pure buf

def writeAtTraced (disk : Disk) (file : OpenFile) (junk src : Bytes) (numBytes position : Int) :
    Traced Access Stop (Int × Disk) :=
  let fileLength := file.hdr.numBytes
  if numBytes ≤ 0 ∨ position ≥ fileLength then pure (0, disk)
  else
    let numBytes := if int32 (position + numBytes) > fileLength then int32 (fileLength - position)
      else numBytes
    let firstSector := position.tdiv sectorSize
    let lastSector := (int32 (position + numBytes - 1)).tdiv sectorSize
    let numSectors := 1 + lastSector - firstSector
    let size := int32 (numSectors * sectorSize)
    let firstAligned : Bool := position = firstSector * sectorSize
    let lastAligned : Bool := int32 (position + numBytes) = (lastSector + 1) * sectorSize
    do
      report (.alloc size)
      let buf ← readFirstTraced disk file size junk firstSector firstAligned
      let buf ← readLastTraced disk file size junk lastSector ((lastSector - firstSector) * sectorSize)
        (!lastAligned && (firstSector ≠ lastSector || firstAligned)) buf
      let offset := position - firstSector * sectorSize
      report (.buffer size offset numBytes)
      if 0 ≤ offset ∧ offset + numBytes ≤ numSectors * sectorSize then do
        let disk ← writeSectorsTraced file.hdr size (splice buf offset.toNat numBytes.toNat src)
          numSectors.toNat firstSector 0 disk
        pure (numBytes, disk)
      else lift (.error .undefined)

/-! ## Without the report -/

variable {disk : Disk} {file : OpenFile} {hdr : FileHeader} {junk into src buf : Bytes}
  {size numBytes position : Int}

@[simp] theorem byteToSectorTraced_run (hdr : FileHeader) (offset : Int) :
    (byteToSectorTraced hdr offset).run = hdr.byteToSector offset := rfl

@[simp] theorem readSectorsTraced_run (n : Nat) (i : Int) (a : Nat) (buf : Bytes) :
    (readSectorsTraced disk hdr size n i a buf).run = readSectors disk hdr n i a buf := by
  induction n generalizing i a buf with
  | zero => rfl
  | succ n ih =>
    simp only [readSectorsTraced, readSectors, run_bind, byteToSectorTraced_run, run_report, run_lift,
      ok_bind, ih]

@[simp] theorem readAtTraced_run :
    (readAtTraced disk file junk into numBytes position).run =
      readAt disk file junk into numBytes position := by
  unfold readAtTraced readAt
  simp only [apply_ite Traced.run, run_bind, run_report, run_pure, run_lift, readSectorsTraced_run, ok_bind]

@[simp] theorem writeSectorsTraced_run (n : Nat) (i : Int) (a : Nat) (disk : Disk) :
    (writeSectorsTraced hdr size buf n i a disk).run = writeSectors hdr buf n i a disk := by
  induction n generalizing i a disk with
  | zero => rfl
  | succ n ih =>
    simp only [writeSectorsTraced, writeSectors, run_bind, byteToSectorTraced_run, run_report, run_lift,
      ok_bind, ih]

@[simp] theorem readFirstTraced_run (firstSector : Int) (firstAligned : Bool) :
    (readFirstTraced disk file size junk firstSector firstAligned).run =
      readFirst disk file junk firstSector firstAligned := by
  unfold readFirstTraced readFirst
  cases firstAligned with
  | true => rfl
  | false =>
    show (readAtTraced _ _ _ _ _ _ >>= _).run = _
    simp only [run_bind, readAtTraced_run, run_report, run_pure, ok_bind]
    cases readAt disk file junk junk sectorSize (firstSector * sectorSize) <;> rfl

@[simp] theorem readLastTraced_run (lastSector start : Int) (needed : Bool) :
    (readLastTraced disk file size junk lastSector start needed buf).run =
      readLast disk file junk lastSector start.toNat needed buf := by
  unfold readLastTraced readLast
  cases needed with
  | false => rfl
  | true =>
    show (readAtTraced _ _ _ _ _ _ >>= _).run = _
    simp only [run_bind, readAtTraced_run, run_report, run_pure, ok_bind]
    cases readAt disk file junk (fun j => buf (start.toNat + j)) sectorSize
      (lastSector * sectorSize) <;> rfl

@[simp] theorem writeAtTraced_run :
    (writeAtTraced disk file junk src numBytes position).run =
      writeAt disk file junk src numBytes position := by
  unfold writeAtTraced writeAt
  simp only [apply_ite Traced.run, run_bind, run_report, run_pure, run_lift, readFirstTraced_run,
    readLastTraced_run, writeSectorsTraced_run, ok_bind]

/-! ## Requests in range -/

variable {fileLength : Int}

/-- What a request in range is, if it is not refused. -/
theorem InRange.bounds (hr : file.InRange numBytes position)
    (hreq : ¬ (numBytes ≤ 0 ∨ position ≥ file.hdr.numBytes)) :
    0 ≤ position ∧ position + numBytes < 2 ^ 31 := by
  unfold InRange at hr
  omega

/-- A request for `n` bytes, in the sectors `f` to `l` of the file. -/
structure Request (fileLength numBytes position : Int) (n f l : Nat) : Prop where
  clamp : (if int32 (position + numBytes) > fileLength then int32 (fileLength - position)
    else numBytes) = n
  firstSector : position.tdiv sectorSize = f
  lastSector : (int32 (position + n - 1)).tdiv sectorSize = l
  size : int32 ((1 + (l : Int) - f) * sectorSize) = ((1 + l - f) * sectorSize : Nat)
  pos : 0 < n
  count : n = transferred fileLength numBytes position
  first_le_last : f ≤ l
  first_le : f * sectorSize ≤ position
  lt_first : position < (f + 1) * sectorSize
  last_lt : l * sectorSize < position + n
  le_last : position + n ≤ (l + 1) * sectorSize
  last_lt_sectors : l < FileHeader.sectorsFor fileLength

/-- One that is in range and not refused. -/
theorem request_spec (hlen : 0 ≤ fileLength ∧ fileLength ≤ maxFileSize)
    (hreq : ¬ (numBytes ≤ 0 ∨ position ≥ fileLength)) (hpos : 0 ≤ position)
    (hsum : position + numBytes < 2 ^ 31) : ∃ n f l, Request fileLength numBytes position n f l := by
  obtain ⟨p, rfl⟩ := Int.eq_ofNat_of_zero_le hpos
  obtain ⟨len, rfl⟩ := Int.eq_ofNat_of_zero_le hlen.1
  rw [maxFileSize, numDirect, sectorSize] at hlen
  have hclamp : ∃ n : Nat, (if int32 (p + numBytes) > len then int32 ((len : Int) - p) else numBytes) = n ∧
      0 < n ∧ n = transferred len numBytes p := by
    unfold transferred
    rw [int32_eq (by omega) hsum]
    split
    · rw [int32_eq (by omega) (by omega)]
      exact ⟨len - p, by omega, by omega, by omega⟩
    · exact ⟨numBytes.toNat, by omega, by omega, by omega⟩
  obtain ⟨n, hn, hn0, hcount⟩ := hclamp
  have hle : p + n ≤ len := by
    unfold transferred at hcount
    omega
  have hdiv : ((p + n - 1) / sectorSize : Nat) < (FileHeader.sectorsFor len) := by
    have := divRoundUp_mul_le len (s := sectorSize) (by decide)
    rw [FileHeader.sectorsFor_natCast]
    unfold sectorSize at *
    omega
  refine ⟨n, p / sectorSize, (p + n - 1) / sectorSize, hn, rfl, ?_, ?_, hn0, hcount, ?_, ?_, ?_, ?_, ?_,
    hdiv⟩
  · rw [int32_eq (by omega) (by omega), show (p : Int) + n - 1 = (p + n - 1 : Nat) by omega]
    rfl
  · rw [int32_eq] <;> simp only [sectorSize] <;> omega
  all_goals simp only [sectorSize]; omega

theorem readSectorsTraced_reports {n a : Nat} {i : Int} (hi : 0 ≤ i)
    (hn : i + n ≤ FileHeader.sectorsFor fileLength) (hsize : (a : Int) + n * sectorSize ≤ size) :
    Reports (InBounds fileLength) (readSectorsTraced disk hdr size n i a buf) := by
  induction n generalizing i a buf with
  | zero => exact .pure _
  | succ n ih =>
    have hindex : (i * sectorSize).tdiv sectorSize = i := Int.mul_tdiv_cancel _ (by decide)
    refine .bind (.bind (.report ?_) fun _ _ => .lift _) fun sector _ => .bind (.report ?_) fun _ _ =>
      .bind (.lift _) fun data _ => ih (by omega) (by omega) ?_
    · rw [hindex]
      exact ⟨hi, by omega⟩
    · exact ⟨by omega, by rw [sectorSize] at *; omega⟩
    · rw [sectorSize] at *
      omega

theorem writeSectorsTraced_reports {n a : Nat} {i : Int} (hi : 0 ≤ i)
    (hn : i + n ≤ FileHeader.sectorsFor fileLength) (hsize : (a : Int) + n * sectorSize ≤ size) :
    Reports (InBounds fileLength) (writeSectorsTraced hdr size buf n i a disk) := by
  induction n generalizing i a disk with
  | zero => exact .pure _
  | succ n ih =>
    have hindex : (i * sectorSize).tdiv sectorSize = i := Int.mul_tdiv_cancel _ (by decide)
    refine .bind (.bind (.report ?_) fun _ _ => .lift _) fun sector _ => .bind (.report ?_) fun _ _ =>
      .bind (.lift _) fun disk' _ => ih (by omega) (by omega) ?_
    · rw [hindex]
      exact ⟨hi, by omega⟩
    · exact ⟨by omega, by rw [sectorSize] at *; omega⟩
    · rw [sectorSize] at *
      omega

/-- A read that is in range stays in bounds. -/
theorem readAtTraced_reports (hlen : 0 ≤ file.hdr.numBytes ∧ file.hdr.numBytes ≤ maxFileSize)
    (hr : file.InRange numBytes position) :
    Reports (InBounds file.hdr.numBytes) (readAtTraced disk file junk into numBytes position) := by
  unfold readAtTraced
  refine .ite (fun _ => .pure _) fun hreq => ?_
  have hpos := hr.bounds hreq
  obtain ⟨n, f, l, hn, hf, hl, hsize, hn0, hcount, hfl, hfp, hfp', hlp, hlp', hlast⟩ :=
    request_spec hlen hreq hpos.1 hpos.2
  simp only [hn, hf, hl, hsize]
  refine .bind (.report ?_) fun _ _ => .bind (readSectorsTraced_reports (by omega) (by omega) ?_)
    fun buf _ => .bind (.report ?_) fun _ _ => .ite (fun _ => .pure _) fun _ => .lift _
  · exact Int.natCast_nonneg _
  · rw [sectorSize]
    omega
  · refine ⟨by omega, ?_⟩
    rw [sectorSize] at *
    omega

/-- What a call returns, if it returns. -/
def answer (fileLength numBytes position : Int) : Int :=
  if numBytes ≤ 0 ∨ position ≥ fileLength then 0
  else if int32 (position + numBytes) > fileLength then int32 (fileLength - position)
  else numBytes

theorem readAt_answer {r : Int × Bytes} (h : readAt disk file junk into numBytes position = .ok r) :
    r.1 = answer file.hdr.numBytes numBytes position := by
  unfold answer
  simp only [readAt] at h
  split at h
  · rename_i hreq
    cases h
    rw [if_pos hreq]
  · rename_i hreq
    rw [if_neg hreq]
    generalize (if int32 (position + numBytes) > file.hdr.numBytes then
      int32 (file.hdr.numBytes - position) else numBytes) = n at h ⊢
    obtain ⟨buf, -, h⟩ := bind_eq_ok.mp h
    split at h
    · cases h
      rfl
    · cases h

theorem writeAt_answer {r : Int × Disk} (h : writeAt disk file junk src numBytes position = .ok r) :
    r.1 = answer file.hdr.numBytes numBytes position := by
  unfold answer
  simp only [writeAt] at h
  split at h
  · rename_i hreq
    cases h
    rw [if_pos hreq]
  · rename_i hreq
    rw [if_neg hreq]
    generalize (if int32 (position + numBytes) > file.hdr.numBytes then
      int32 (file.hdr.numBytes - position) else numBytes) = n at h ⊢
    obtain ⟨_, -, h⟩ := bind_eq_ok.mp h
    obtain ⟨_, -, h⟩ := bind_eq_ok.mp h
    split at h
    · obtain ⟨_, -, h⟩ := bind_eq_ok.mp h
      cases h
      rfl
    · cases h

/-- To a request in range the answer is what the request comes to. -/
theorem answer_of_inRange (hlen : 0 ≤ file.hdr.numBytes ∧ file.hdr.numBytes ≤ maxFileSize)
    (hr : file.InRange numBytes position) :
    answer file.hdr.numBytes numBytes position = transferred file.hdr.numBytes numBytes position := by
  unfold answer
  split
  · unfold transferred
    omega
  · rename_i hreq
    have hpos := hr.bounds hreq
    obtain ⟨n, f, l, hn, -, -, -, -, hcount, -⟩ := request_spec hlen hreq hpos.1 hpos.2
    rw [hn, hcount]

/-- Reading one sector of the file: it is in range, and gives a sector at most. -/
theorem inRange_sector (hlen : 0 ≤ file.hdr.numBytes ∧ file.hdr.numBytes ≤ maxFileSize) (i : Nat) :
    file.InRange sectorSize (i * sectorSize) ∧
      0 ≤ transferred file.hdr.numBytes sectorSize (i * sectorSize) ∧
      transferred file.hdr.numBytes sectorSize (i * sectorSize) ≤ sectorSize := by
  unfold InRange transferred
  simp only [maxFileSize, numDirect, sectorSize] at hlen ⊢
  omega

/-- A write that is in range stays in bounds. -/
theorem writeAtTraced_reports (hlen : 0 ≤ file.hdr.numBytes ∧ file.hdr.numBytes ≤ maxFileSize)
    (hr : file.InRange numBytes position) :
    Reports (InBounds file.hdr.numBytes) (writeAtTraced disk file junk src numBytes position) := by
  unfold writeAtTraced
  refine .ite (fun _ => .pure _) fun hreq => ?_
  have hpos := hr.bounds hreq
  obtain ⟨n, f, l, hn, hf, hl, hsize, hn0, hcount, hfl, hfp, hfp', hlp, hlp', hlast⟩ :=
    request_spec hlen hreq hpos.1 hpos.2
  simp only [hn, hf, hl, hsize]
  refine .bind (.report ?_) fun _ _ => .bind ?_ fun buf _ => .bind ?_ fun buf' _ =>
    .bind (.report ?_) fun _ _ => .ite (fun _ => .bind
      (writeSectorsTraced_reports (by omega) (by omega) ?_) fun _ _ => .pure _) fun _ => .lift _
  · exact Int.natCast_nonneg _
  · unfold readFirstTraced
    refine .ite (fun _ => .pure _) fun _ => ?_
    obtain ⟨hrange, h0, h128⟩ := inRange_sector hlen f
    refine .bind (readAtTraced_reports hlen hrange) fun r hr' => .bind (.report ?_) fun _ _ => .pure _
    rw [readAtTraced_run] at hr'
    rw [readAt_answer hr', answer_of_inRange hlen hrange]
    refine ⟨Int.le_refl 0, ?_⟩
    rw [sectorSize] at *
    omega
  · unfold readLastTraced
    refine .ite (fun _ => ?_) fun _ => .pure _
    obtain ⟨hrange, h0, h128⟩ := inRange_sector hlen l
    refine .bind (readAtTraced_reports hlen hrange) fun r hr' => .bind (.report ?_) fun _ _ => .pure _
    rw [readAtTraced_run] at hr'
    rw [readAt_answer hr', answer_of_inRange hlen hrange]
    rw [sectorSize] at *
    exact ⟨by omega, by omega⟩
  · refine ⟨by omega, ?_⟩
    rw [sectorSize] at *
    omega
  · rw [sectorSize]
    omega

/-! ## Requests that return -/

/-- The `i`-th data sector is a sector of the disk. -/
def DataOnDisk (hdr : FileHeader) (i : Int) : Prop := ∃ s < numSectors, hdr.dataSector i = .ok (s : Nat)

/-- What the check of `ReadSector` and `WriteSector` says. -/
theorem dataOnDisk_of_assert {i sector : Int} {u : Unit} (hsector : hdr.dataSector i = .ok sector)
    (h : assert (0 ≤ sector ∧ sector < numSectors) = .ok u) : DataOnDisk hdr i := by
  have hrange := assert_eq_ok.mp h
  exact ⟨sector.toNat, by omega, by rw [hsector, Int.toNat_of_nonneg hrange.1]⟩

/-- The loops go through if the sectors they come to are on the disk. -/
theorem readSectors_isOk (disk : Disk) (buf : Bytes) {n a : Nat} {i : Int} : (∃ buf', readSectors disk hdr n i a buf = .ok buf') ↔
    ∀ k, i ≤ k → k < i + n → DataOnDisk hdr k := by
  induction n generalizing i a buf with
  | zero => exact ⟨fun _ k _ _ => by omega, fun _ => ⟨buf, rfl⟩⟩
  | succ n ih =>
    rw [readSectors, FileHeader.byteToSector, Int.mul_tdiv_cancel _ (by decide)]
    constructor
    · rintro ⟨buf', h⟩ k hk hk'
      obtain ⟨s, hs, h⟩ := bind_eq_ok.mp h
      obtain ⟨data, hdata, h⟩ := bind_eq_ok.mp h
      by_cases hki : k = i
      · rw [hki]
        obtain ⟨_, hassert, -⟩ := bind_eq_ok.mp hdata
        exact dataOnDisk_of_assert hs hassert
      · exact (ih _).mp ⟨buf', h⟩ k (by omega) (by omega)
    · intro h
      obtain ⟨s, hs, hsector⟩ := h i (Int.le_refl i) (by omega)
      rw [hsector, ok_bind, readSector_eq hs, ok_bind]
      exact (ih _).mpr fun k hk hk' => h k (by omega) (by omega)

theorem writeSectors_isOk {n a : Nat} {i : Int} :
    (∃ disk', writeSectors hdr buf n i a disk = .ok disk') ↔
      ∀ k, i ≤ k → k < i + n → DataOnDisk hdr k := by
  induction n generalizing i a disk with
  | zero => exact ⟨fun _ k _ _ => by omega, fun _ => ⟨disk, rfl⟩⟩
  | succ n ih =>
    rw [writeSectors, FileHeader.byteToSector, Int.mul_tdiv_cancel _ (by decide)]
    constructor
    · rintro ⟨disk', h⟩ k hk hk'
      obtain ⟨s, hs, h⟩ := bind_eq_ok.mp h
      obtain ⟨disk₁, hdisk, h⟩ := bind_eq_ok.mp h
      by_cases hki : k = i
      · rw [hki]
        obtain ⟨_, hassert, -⟩ := bind_eq_ok.mp hdisk
        exact dataOnDisk_of_assert hs hassert
      · exact ih.mp ⟨disk', h⟩ k (by omega) (by omega)
    · intro h
      obtain ⟨s, hs, hsector⟩ := h i (Int.le_refl i) (by omega)
      rw [hsector, ok_bind, writeSector_eq hs, ok_bind]
      exact ih.mpr fun k hk hk' => h k (by omega) (by omega)

/-- The sectors that a request is for are on the disk. -/
def SectorsOnDisk (hdr : FileHeader) (numBytes position : Int) : Prop :=
  ∀ i, position / sectorSize ≤ i → i * sectorSize < position + transferred hdr.numBytes numBytes position →
    DataOnDisk hdr i

/-- The request is answered with 0 at once, or its position is not negative, its end is an `int`,
and the sectors it is for are on the disk. -/
def Answerable (hdr : FileHeader) (numBytes position : Int) : Prop :=
  numBytes ≤ 0 ∨ position ≥ hdr.numBytes ∨
    (0 ≤ position ∧ position + numBytes < 2 ^ 31 ∧ SectorsOnDisk hdr numBytes position)

/-- The sectors of a request that is not refused are those from `f` to `l`. -/
theorem answerable_iff {n f l : Nat} (hreq : ¬ (numBytes ≤ 0 ∨ position ≥ hdr.numBytes))
    (hpos : 0 ≤ position ∧ position + numBytes < 2 ^ 31)
    (h : Request hdr.numBytes numBytes position n f l) : Answerable hdr numBytes position ↔
      ∀ k, (f : Int) ≤ k → k < f + (1 + (l : Int) - f).toNat → DataOnDisk hdr k := by
  rw [Answerable, ← or_assoc, or_iff_right hreq, and_iff_right hpos.1, and_iff_right hpos.2, SectorsOnDisk,
    ← h.count]
  obtain ⟨-, -, -, -, -, -, hfl, hfp, hfp', hlp, hlp', -⟩ := h
  refine forall_congr' fun k => ?_
  rw [sectorSize] at *
  constructor
  · exact fun h h₁ h₂ => h (by omega) (by omega)
  · exact fun h h₁ h₂ => h (by omega) (by omega)

section
variable (hlen : 0 ≤ file.hdr.numBytes ∧ file.hdr.numBytes ≤ maxFileSize)
include hlen

theorem readAt_isOk (disk : Disk) (junk into : Bytes) (hr : file.InRange numBytes position) :
    (∃ r, readAt disk file junk into numBytes position = .ok r) ↔
      Answerable file.hdr numBytes position := by
  by_cases hreq : numBytes ≤ 0 ∨ position ≥ file.hdr.numBytes
  · exact ⟨fun _ => hreq.imp_right .inl, fun _ => ⟨_, if_pos hreq⟩⟩
  have hpos := hr.bounds hreq
  obtain ⟨n, f, l, h⟩ := request_spec hlen hreq hpos.1 hpos.2
  rw [answerable_iff hreq hpos h, ← readSectors_isOk disk junk (a := 0)]
  obtain ⟨hn, hf, hl, -, -, -, hfl, hfp, -, -, hlp, -⟩ := h
  simp only [readAt, if_neg hreq, hn, hf, hl]
  constructor
  · rintro ⟨r, h⟩
    obtain ⟨buf, hbuf, -⟩ := bind_eq_ok.mp h
    exact ⟨buf, hbuf⟩
  · rintro ⟨buf, hbuf⟩
    rw [hbuf, ok_bind]
    exact ⟨_, if_pos ⟨by omega, by simp only [sectorSize] at *; omega⟩⟩

/-- One sector can be read if it is on the disk. -/
theorem readSector_isOk (disk : Disk) (junk into : Bytes) {i : Nat} (h : DataOnDisk file.hdr i) :
    ∃ r, readAt disk file junk into sectorSize (i * sectorSize) = .ok r := by
  obtain ⟨hrange, h0, h128⟩ := inRange_sector hlen i
  apply (readAt_isOk hlen disk junk into hrange).mpr
  by_cases hrefused : (i : Int) * sectorSize ≥ file.hdr.numBytes
  · exact .inr (.inl hrefused)
  refine .inr (.inr ⟨by rw [sectorSize]; omega, ?_, fun k hk hk' => ?_⟩)
  · rw [maxFileSize, numDirect] at hlen
    rw [sectorSize] at *
    omega
  · rw [sectorSize] at *
    rwa [show k = i by omega]

theorem readFirst_ok (disk : Disk) (junk : Bytes) {f : Nat} (h : DataOnDisk file.hdr f) (firstAligned : Bool) :
    ∃ buf', readFirst disk file junk f firstAligned = .ok buf' := by
  unfold readFirst
  split
  · exact ⟨junk, rfl⟩
  · obtain ⟨r, hr⟩ := readSector_isOk hlen disk junk junk h
    exact ⟨r.2, by rw [hr]; rfl⟩

theorem readLast_ok (disk : Disk) (junk buf : Bytes) {l : Nat} (h : DataOnDisk file.hdr l) (offset : Nat) (needed : Bool) :
    ∃ buf', readLast disk file junk l offset needed buf = .ok buf' := by
  unfold readLast
  split
  · obtain ⟨r, hr⟩ := readSector_isOk hlen disk junk (fun j => buf (offset + j)) h
    exact ⟨splice buf offset sectorSize r.2, by rw [hr]; rfl⟩
  · exact ⟨buf, rfl⟩

theorem writeAt_isOk (disk : Disk) (junk src : Bytes) (hr : file.InRange numBytes position) :
    (∃ r, writeAt disk file junk src numBytes position = .ok r) ↔
      Answerable file.hdr numBytes position := by
  by_cases hreq : numBytes ≤ 0 ∨ position ≥ file.hdr.numBytes
  · exact ⟨fun _ => hreq.imp_right .inl, fun _ => ⟨_, if_pos hreq⟩⟩
  have hpos := hr.bounds hreq
  obtain ⟨n, f, l, h⟩ := request_spec hlen hreq hpos.1 hpos.2
  rw [answerable_iff hreq hpos h]
  obtain ⟨hn, hf, hl, -, -, -, hfl, hfp, -, -, hlp, -⟩ := h
  simp only [writeAt, if_neg hreq, hn, hf, hl]
  constructor
  · rintro ⟨r, h⟩
    obtain ⟨buf₁, -, h⟩ := bind_eq_ok.mp h
    obtain ⟨buf₂, -, h⟩ := bind_eq_ok.mp h
    split at h
    · obtain ⟨disk', hwrite, -⟩ := bind_eq_ok.mp h
      exact writeSectors_isOk.mp ⟨disk', hwrite⟩
    · cases h
  · intro h
    obtain ⟨buf₁, hread₁⟩ := readFirst_ok hlen disk junk (h f (by omega) (by omega))
      (decide (position = f * sectorSize))
    obtain ⟨buf₂, hread₂⟩ := readLast_ok hlen disk junk buf₁
      (h l (by omega) (by omega)) (((l : Int) - f) * sectorSize).toNat _
    rw [hread₁, ok_bind, hread₂, ok_bind, if_pos ⟨by omega, by simp only [sectorSize] at *; omega⟩]
    obtain ⟨disk', hwrite⟩ := writeSectors_isOk.mpr h
    rw [hwrite, ok_bind]
    exact ⟨_, rfl⟩

end

/-! ## Requests that are not in range -/

theorem tdiv_of_neg {x : Int} (hx : x < 0) : x.tdiv sectorSize = -(-x / sectorSize) := by
  rw [← Int.tdiv_eq_ediv_of_nonneg (by omega), Int.neg_tdiv, Int.neg_neg]

/-- The sectors of a request that starts before the file. -/
theorem negative_spec (hlen : 0 ≤ fileLength ∧ fileLength ≤ maxFileSize) (hneg : position < 0)
    (hpos : -2 ^ 31 ≤ position) (hnum : 0 < numBytes) (hnum' : numBytes < 2 ^ 31) : ∃ n f l : Int,
    (if int32 (position + numBytes) > fileLength then int32 (fileLength - position) else numBytes) = n ∧
    position.tdiv sectorSize = f ∧ (int32 (position + n - 1)).tdiv sectorSize = l ∧ f ≤ l := by
  rw [maxFileSize, numDirect, sectorSize] at hlen
  have hclamp : ∃ n : Int,
      (if int32 (position + numBytes) > fileLength then int32 (fileLength - position) else numBytes) = n ∧
      0 < n ∧ n ≤ numBytes := by
    rw [int32_eq (by omega) (by omega)]
    split
    · rw [int32_eq (by omega) (by omega)]
      exact ⟨_, rfl, by omega, by omega⟩
    · exact ⟨_, rfl, hnum, Int.le_refl _⟩
  obtain ⟨n, hn, hn0, hle⟩ := hclamp
  refine ⟨n, _, _, hn, rfl, rfl, ?_⟩
  rw [int32_eq (by omega) (by omega), tdiv_of_neg hneg]
  by_cases hlast : position + n - 1 < 0
  · rw [tdiv_of_neg hlast, sectorSize]
    omega
  · rw [Int.tdiv_eq_ediv_of_nonneg (by omega), sectorSize]
    omega

/-- The first turn of the loop uses the element it starts with. -/
theorem mem_readSectorsTraced (n a : Nat) (i : Int) :
    .dataSectors i ∈ (readSectorsTraced disk hdr size (n + 1) i a buf).trace := by
  refine mem_trace_left (mem_trace_left ?_)
  rw [Int.mul_tdiv_cancel _ (by decide)]
  exact List.mem_singleton_self _

theorem mem_writeSectorsTraced (n a : Nat) (i : Int) :
    .dataSectors i ∈ (writeSectorsTraced hdr size buf (n + 1) i a disk).trace := by
  refine mem_trace_left (mem_trace_left ?_)
  rw [Int.mul_tdiv_cancel _ (by decide)]
  exact List.mem_singleton_self _

section
variable (hlen : 0 ≤ file.hdr.numBytes ∧ file.hdr.numBytes ≤ maxFileSize) (hneg : position < 0)
  (hpos : -2 ^ 31 ≤ position) (hnum : 0 < numBytes) (hnum' : numBytes < 2 ^ 31)
include hlen hneg hpos hnum hnum'

/-- A read that starts before the file uses the element of the array that it starts with. -/
theorem mem_readAtTraced : .dataSectors (position.tdiv sectorSize) ∈
    (readAtTraced disk file junk into numBytes position).trace := by
  obtain ⟨n, f, l, hn, hf, hl, hfl⟩ := negative_spec hlen hneg hpos hnum hnum'
  unfold readAtTraced
  simp only [hn, hf, hl, if_neg (show ¬ (numBytes ≤ 0 ∨ position ≥ file.hdr.numBytes) by omega)]
  refine mem_trace_right rfl (mem_trace_left ?_)
  rw [show (1 + l - f).toNat = (l - f).toNat + 1 by omega]
  exact mem_readSectorsTraced _ _ _

/-- A write that starts before the file and returns uses it as well. -/
theorem mem_writeAtTraced {r : Int × Disk}
    (hr : writeAt disk file junk src numBytes position = .ok r) :
    .dataSectors (position.tdiv sectorSize) ∈
      (writeAtTraced disk file junk src numBytes position).trace := by
  obtain ⟨n, f, l, hn, hf, hl, hfl⟩ := negative_spec hlen hneg hpos hnum hnum'
  have hreq : ¬ (numBytes ≤ 0 ∨ position ≥ file.hdr.numBytes) := by omega
  unfold writeAtTraced
  simp only [writeAt, hn, hf, hl, if_neg hreq] at hr ⊢
  obtain ⟨buf₁, hread₁, hr⟩ := bind_eq_ok.mp hr
  obtain ⟨buf₂, hread₂, hr⟩ := bind_eq_ok.mp hr
  split at hr
  · rename_i hoffset
    refine mem_trace_right rfl (mem_trace_right ((readFirstTraced_run _ _).trans hread₁)
      (mem_trace_right ((readLastTraced_run _ _ _).trans hread₂) (mem_trace_right rfl ?_)))
    rw [if_pos hoffset, show (1 + l - f).toNat = (l - f).toNat + 1 by omega]
    exact mem_trace_left (mem_writeSectorsTraced _ _ _)
  · cases hr

end

section
variable (hlen : 0 ≤ file.hdr.numBytes) (hneg : position < 0) (hnum : 0 < numBytes)
  (hfirst : position.tdiv sectorSize = 0)
include hlen hneg hnum hfirst

/-- A read that starts less than a sector before the file does not return. -/
theorem readAt_ne_ok (r : Int × Bytes) : readAt disk file junk into numBytes position ≠ .ok r := by
  intro h
  simp only [readAt, if_neg (show ¬ (numBytes ≤ 0 ∨ position ≥ file.hdr.numBytes) by omega), hfirst] at h
  obtain ⟨buf, -, h⟩ := bind_eq_ok.mp h
  rw [if_neg (by omega)] at h
  cases h

theorem writeAt_ne_ok (r : Int × Disk) : writeAt disk file junk src numBytes position ≠ .ok r := by
  intro h
  simp only [writeAt, if_neg (show ¬ (numBytes ≤ 0 ∨ position ≥ file.hdr.numBytes) by omega), hfirst] at h
  obtain ⟨_, -, h⟩ := bind_eq_ok.mp h
  obtain ⟨_, -, h⟩ := bind_eq_ok.mp h
  rw [if_neg (by omega)] at h
  cases h

end

/-- What is answered to a request whose end is not an `int` is too much. -/
theorem answer_of_overflow (hlen : 0 ≤ fileLength ∧ fileLength ≤ maxFileSize)
    (hreq : ¬ (numBytes ≤ 0 ∨ position ≥ fileLength)) (hpos : 0 ≤ position) (hnum : numBytes < 2 ^ 31)
    (hsum : ¬ position + numBytes < 2 ^ 31) :
    ¬ answer fileLength numBytes position ≤ max 0 (fileLength - position) := by
  rw [maxFileSize, numDirect, sectorSize] at hlen
  have hwrap : int32 (position + numBytes) < 0 := by
    unfold int32
    rw [Int.bmod_def]
    omega
  unfold answer
  rw [if_neg hreq, if_neg (by omega)]
  omega

/-! ## The result -/

/-- The call returns a number of bytes that the file has from the position on, and all that it
does in memory is in bounds. -/
structure Bounded {α : Type} (fileLength position : Int) (x : Traced Access Stop (Int × α)) : Prop where
  reports : Reports (InBounds fileLength) x
  returns : ∃ r, x.run = .ok r ∧ 0 ≤ r.1 ∧ r.1 ≤ max 0 (fileLength - position)

/-- A call that is bounded is one that is in range. -/
theorem Bounded.inRange {α : Type} {x : Traced Access Stop (Int × α)}
    (h : Bounded file.hdr.numBytes position x)
    (hlen : 0 ≤ file.hdr.numBytes ∧ file.hdr.numBytes ≤ maxFileSize) (hnum : numBytes < 2 ^ 31)
    (hanswer : ∀ r, x.run = .ok r → r.1 = answer file.hdr.numBytes numBytes position)
    (hneg : ∀ r, x.run = .ok r → 0 < numBytes → position < 0 →
      position.tdiv sectorSize ≠ 0 ∧ .dataSectors (position.tdiv sectorSize) ∈ x.trace) :
    file.InRange numBytes position := by
  obtain ⟨r, hrun, -, hle⟩ := h.returns
  by_contra hr
  have hreq : ¬ (numBytes ≤ 0 ∨ position ≥ file.hdr.numBytes) := by
    unfold InRange at hr
    omega
  by_cases hpos : position < 0
  · obtain ⟨hfirst, hmem⟩ := hneg r hrun (by omega) hpos
    have hindex : 0 ≤ position.tdiv sectorSize := (h.reports _ hmem).1
    rw [tdiv_of_neg hpos, sectorSize] at hfirst hindex
    omega
  · rw [hanswer r hrun] at hle
    exact answer_of_overflow hlen hreq (by omega) hnum (fun hsum => hr (.inr (.inr ⟨by omega, hsum⟩))) hle

theorem Answerable.inRange (h : Answerable file.hdr numBytes position) :
    file.InRange numBytes position :=
  h.imp_right fun h => h.imp_right fun h => ⟨h.1, h.2.1⟩

theorem transferred_bounds (fileLength numBytes position : Int) :
    0 ≤ transferred fileLength numBytes position ∧
      transferred fileLength numBytes position ≤ max 0 (fileLength - position) := by
  unfold transferred
  omega

/-- For every header of a file that is not too long, and every two `int`s: what `ReadAt` and
`WriteAt` do is bounded exactly if the request is answerable. -/
theorem bounded_iff (disk : Disk) (file : OpenFile) (junk into src : Bytes) (numBytes position : Int)
    (hlen : 0 ≤ file.hdr.numBytes ∧ file.hdr.numBytes ≤ maxFileSize)
    (hnum : -2 ^ 31 ≤ numBytes ∧ numBytes < 2 ^ 31) (hpos : -2 ^ 31 ≤ position ∧ position < 2 ^ 31) :
    (Bounded file.hdr.numBytes position (readAtTraced disk file junk into numBytes position) ↔
      Answerable file.hdr numBytes position) ∧
    (Bounded file.hdr.numBytes position (writeAtTraced disk file junk src numBytes position) ↔
      Answerable file.hdr numBytes position) := by
  refine ⟨⟨fun h => ?_, fun h => ⟨readAtTraced_reports hlen h.inRange, ?_⟩⟩,
    ⟨fun h => ?_, fun h => ⟨writeAtTraced_reports hlen h.inRange, ?_⟩⟩⟩
  · have hr : file.InRange numBytes position := by
      apply h.inRange hlen hnum.2 (fun r hr => readAt_answer (readAtTraced_run.symm.trans hr))
      intro r hr hnum0 hneg
      rw [readAtTraced_run] at hr
      exact ⟨fun hfirst => readAt_ne_ok hlen.1 hneg hnum0 hfirst r hr,
        mem_readAtTraced hlen hneg hpos.1 hnum0 hnum.2⟩
    obtain ⟨r, hrun, -⟩ := h.returns
    exact (readAt_isOk hlen disk junk into hr).mp ⟨r, readAtTraced_run.symm.trans hrun⟩
  · obtain ⟨r, hrun⟩ := (readAt_isOk hlen disk junk into h.inRange).mpr h
    refine ⟨r, readAtTraced_run.trans hrun, ?_⟩
    rw [readAt_answer hrun, answer_of_inRange hlen h.inRange]
    exact transferred_bounds _ _ _
  · have hr : file.InRange numBytes position := by
      apply h.inRange hlen hnum.2 (fun r hr => writeAt_answer (writeAtTraced_run.symm.trans hr))
      intro r hr hnum0 hneg
      rw [writeAtTraced_run] at hr
      exact ⟨fun hfirst => writeAt_ne_ok hlen.1 hneg hnum0 hfirst r hr,
        mem_writeAtTraced hlen hneg hpos.1 hnum0 hnum.2 hr⟩
    obtain ⟨r, hrun, -⟩ := h.returns
    exact (writeAt_isOk hlen disk junk src hr).mp ⟨r, writeAtTraced_run.symm.trans hrun⟩
  · obtain ⟨r, hrun⟩ := (writeAt_isOk hlen disk junk src h.inRange).mpr h
    refine ⟨r, writeAtTraced_run.trans hrun, ?_⟩
    rw [writeAt_answer hrun, answer_of_inRange hlen h.inRange]
    exact transferred_bounds _ _ _

/-- 100 bytes at 150, of a file of 200 bytes. -/
theorem bounded_iff_end :
    (Bounded 200 150 (readAtTraced (fun _ _ => 0) ⟨someHeader, 0⟩ (fun _ => 0) (fun _ => 0) 100 150) ↔
      Answerable someHeader 100 150) ∧
    (Bounded 200 150 (writeAtTraced (fun _ _ => 0) ⟨someHeader, 0⟩ (fun _ => 0) (fun _ => 0) 100 150) ↔
      Answerable someHeader 100 150) :=
  bounded_iff (fun _ _ => 0) ⟨someHeader, 0⟩ (fun _ => 0) (fun _ => 0) (fun _ => 0) 100 150 (by decide)
    (by decide) (by decide)

/-- 10 bytes at -5: `bcopy` is to start 5 bytes before the buffer. -/
theorem not_bounded : ¬ ∀ (disk : Disk) (file : OpenFile) (junk into src : Bytes)
    (numBytes position : Int), 0 ≤ file.hdr.numBytes ∧ file.hdr.numBytes ≤ maxFileSize →
    -2 ^ 31 ≤ numBytes ∧ numBytes < 2 ^ 31 → -2 ^ 31 ≤ position ∧ position < 2 ^ 31 →
    Bounded file.hdr.numBytes position (readAtTraced disk file junk into numBytes position) ∧
    Bounded file.hdr.numBytes position (writeAtTraced disk file junk src numBytes position) := by
  intro h
  obtain ⟨r, hrun, -⟩ := (h (fun _ _ => 0) ⟨someHeader, 0⟩ (fun _ => 0) (fun _ => 0) (fun _ => 0) 10 (-5)
    (by decide) (by decide) (by decide)).1.returns
  rw [readAtTraced_run] at hrun
  exact readAt_ne_ok (by decide) (by decide) (by decide) (by decide) r hrun

end OpenFile

end Nachos.Filesys
