import Nachos.Filesys.FileHeader

/-!
# Open files (filesys/openfile.cc)

Reading and writing at a position of a file, sector by sector. What an
operation leaves uninitialised, `junk`, is a parameter.

* `readAt_spec`, `writeAt_spec`: reading and writing a file, in terms of its
  bytes, for positions that are not negative;
* `InRange`: the requests that the code answers as it should;
* `readAt_all`, `writeAt_all`: the whole of a file.
-/

namespace Nachos.Filesys

open Nachos.Framework

/-- `OpenFile`. -/
structure OpenFile where
  hdr : FileHeader
  seekPosition : Int

namespace OpenFile

/-- `OpenFile::OpenFile`. -/
def new (disk : Disk) (sector : Int) : Except Stop OpenFile := do
  let hdr ← FileHeader.fetchFrom disk sector
  .ok ⟨hdr, 0⟩

/-- The loop of `ReadAt`: `n` sectors from the `i`-th on, into `buf` at `a`. -/
def readSectors (disk : Disk) (hdr : FileHeader) : Nat → Int → Nat → Bytes → Except Stop Bytes
  | 0, _, _, buf => .ok buf
  | n + 1, i, a, buf => do
    let sector ← hdr.byteToSector (i * sectorSize)
    let data ← readSector disk sector
    readSectors disk hdr n (i + 1) (a + sectorSize) (splice buf a sectorSize data)

/-- `OpenFile::ReadAt`: the result, and `into` afterwards. -/
def readAt (disk : Disk) (file : OpenFile) (junk into : Bytes) (numBytes position : Int) :
    Except Stop (Int × Bytes) :=
  let fileLength := file.hdr.numBytes
  if numBytes ≤ 0 ∨ position ≥ fileLength then .ok (0, into)
  else
    let numBytes := if int32 (position + numBytes) > fileLength then int32 (fileLength - position)
      else numBytes
    let firstSector := position.tdiv sectorSize
    let lastSector := (int32 (position + numBytes - 1)).tdiv sectorSize
    let numSectors := 1 + lastSector - firstSector
    do
      let buf ← readSectors disk file.hdr numSectors.toNat firstSector 0 junk
      let offset := position - firstSector * sectorSize
      -- `bcopy` must stay in the buffer
      if 0 ≤ offset ∧ offset + numBytes ≤ numSectors * sectorSize then
        .ok (numBytes, splice into 0 numBytes.toNat fun j => buf (offset.toNat + j))
      else .error .undefined

/-- The last loop of `WriteAt`: `n` sectors from the `i`-th on, from `buf` at `a`. -/
def writeSectors (hdr : FileHeader) (buf : Bytes) : Nat → Int → Nat → Disk → Except Stop Disk
  | 0, _, _, disk => .ok disk
  | n + 1, i, a, disk => do
    let sector ← hdr.byteToSector (i * sectorSize)
    let disk ← writeSector disk sector fun j => buf (a + j)
    writeSectors hdr buf n (i + 1) (a + sectorSize) disk

/-- The buffer of `WriteAt`, with the first sector read if it is to be written in
part. -/
def readFirst (disk : Disk) (file : OpenFile) (junk : Bytes) (firstSector : Int)
    (firstAligned : Bool) : Except Stop Bytes :=
  if firstAligned then .ok junk
  else (readAt disk file junk junk sectorSize (firstSector * sectorSize)).map Prod.snd

/-- The same for the last sector, which is at `offset` in the buffer. -/
def readLast (disk : Disk) (file : OpenFile) (junk : Bytes) (lastSector : Int) (offset : Nat)
    (needed : Bool) (buf : Bytes) : Except Stop Bytes :=
  if needed then
    (readAt disk file junk (fun j => buf (offset + j)) sectorSize (lastSector * sectorSize)).map
      fun r => splice buf offset sectorSize r.2
  else .ok buf

/-- `OpenFile::WriteAt`: the result, and the disk afterwards. -/
def writeAt (disk : Disk) (file : OpenFile) (junk src : Bytes) (numBytes position : Int) :
    Except Stop (Int × Disk) :=
  let fileLength := file.hdr.numBytes
  if numBytes ≤ 0 ∨ position ≥ fileLength then .ok (0, disk)
  else
    let numBytes := if int32 (position + numBytes) > fileLength then int32 (fileLength - position)
      else numBytes
    let firstSector := position.tdiv sectorSize
    let lastSector := (int32 (position + numBytes - 1)).tdiv sectorSize
    let numSectors := 1 + lastSector - firstSector
    let firstAligned : Bool := position = firstSector * sectorSize
    let lastAligned : Bool := int32 (position + numBytes) = (lastSector + 1) * sectorSize
    do
      let buf ← readFirst disk file junk firstSector firstAligned
      let buf ← readLast disk file junk lastSector ((lastSector - firstSector) * sectorSize).toNat
        (!lastAligned && (firstSector ≠ lastSector || firstAligned)) buf
      let offset := position - firstSector * sectorSize
      if 0 ≤ offset ∧ offset + numBytes ≤ numSectors * sectorSize then do
        let disk ← writeSectors file.hdr (splice buf offset.toNat numBytes.toNat src)
          numSectors.toNat firstSector 0 disk
        .ok (numBytes, disk)
      else .error .undefined

/-- `OpenFile::Seek`. -/
def seek (file : OpenFile) (position : Int) : OpenFile := { file with seekPosition := position }

/-- `OpenFile::Read`. -/
def read (disk : Disk) (file : OpenFile) (junk into : Bytes) (numBytes : Int) :
    Except Stop (Int × Bytes × OpenFile) := do
  let (result, into) ← readAt disk file junk into numBytes file.seekPosition
  .ok (result, into, { file with seekPosition := int32 (file.seekPosition + result) })

/-- `OpenFile::Write`. -/
def write (disk : Disk) (file : OpenFile) (junk src : Bytes) (numBytes : Int) :
    Except Stop (Int × Disk × OpenFile) := do
  let (result, disk) ← writeAt disk file junk src numBytes file.seekPosition
  .ok (result, disk, { file with seekPosition := int32 (file.seekPosition + result) })

end OpenFile

/-! ## The bytes read and written -/

/-- How many bytes a request at position `p` is for. -/
def count (length : Nat) (numBytes : Int) (p : Nat) : Nat :=
  if numBytes ≤ 0 ∨ length ≤ p then 0 else min numBytes.toNat (length - p)

/-- The sectors of a file that `n` bytes at position `p` are in. -/
def touched (sectors : List Nat) (p n : Nat) : List Nat :=
  if n = 0 then []
  else (sectors.drop (p / sectorSize)).take (1 + (p + n - 1) / sectorSize - p / sectorSize)

theorem touched_subset {sectors : List Nat} {p n x : Nat} (h : x ∈ touched sectors p n) : x ∈ sectors := by
  unfold touched at h
  split at h
  · cases h
  · exact List.mem_of_mem_drop (List.mem_of_mem_take h)

theorem getD_mem_take_drop {sectors : List Nat} {f k m : Nat} (hf : f ≤ k) (hk : k < f + m)
    (hlen : k < sectors.length) : sectors.getD k 0 ∈ (sectors.drop f).take m := by
  rw [List.getD_eq_getElem _ _ hlen, List.mem_take_iff_getElem]
  refine ⟨k - f, by rw [List.length_drop]; omega, ?_⟩
  rw [List.getElem_drop]
  congr 1
  omega

namespace OpenFile

variable {disk : Disk} {file : OpenFile} {hdr : FileHeader} {length p : Nat} {sectors : List Nat}
  {junk into src : Bytes} {numBytes : Int}

theorem readSectors_spec (hf : IsFile hdr length sectors) (disk : Disk) (n i a : Nat) (buf : Bytes)
    (h : i + n ≤ sectors.length) :
    ∃ buf', readSectors disk hdr n i a buf = .ok buf' ∧ (∀ x < a, buf' x = buf x) ∧
      ∀ j < n * sectorSize, buf' (a + j) = fileByte disk sectors (i * sectorSize + j) := by
  induction n generalizing i a buf with
  | zero => exact ⟨buf, rfl, fun _ _ => rfl, fun j hj => by omega⟩
  | succ n ih =>
    have hi : i < sectors.length := by omega
    obtain ⟨buf', hread, hkeep, hbytes⟩ := ih (i + 1) (a + sectorSize)
      (splice buf a sectorSize (disk (sectors.getD i 0))) (by omega)
    refine ⟨buf', ?_, fun x hx => ?_, fun j hj => ?_⟩
    · simp only [readSectors, hf.byteToSector hi, readSector_eq (hf.getD_lt hi), bind, Except.bind]
      rw [show (i : Int) + 1 = (i + 1 : Nat) by omega]
      exact hread
    · rw [hkeep x (by omega)]
      exact splice_apply_of_notMem (by omega)
    · by_cases hj' : j < sectorSize
      · rw [hkeep _ (by omega), splice_apply_add hj', fileByte]
        unfold sectorSize at *
        congr 2
        · omega
        · omega
      · rw [show a + j = a + sectorSize + (j - sectorSize) by omega,
          hbytes _ (by simp only [sectorSize] at *; omega)]
        exact congrArg (fileByte disk sectors) (by simp only [sectorSize] at *; omega)

/-- After the loop, the sectors written hold the buffer. -/
theorem writeSectors_spec (hf : IsFile hdr length sectors) (buf : Bytes) (n i a : Nat) (disk : Disk)
    (h : i + n ≤ sectors.length) :
    ∃ disk', writeSectors hdr buf n i a disk = .ok disk' ∧
      (∀ s, (∀ k, i ≤ k → k < i + n → sectors.getD k 0 ≠ s) → disk' s = disk s) ∧
      ∀ k < n, disk' (sectors.getD (i + k) 0) = fun j => buf (a + k * sectorSize + j) := by
  induction n generalizing i a disk with
  | zero => exact ⟨disk, rfl, fun _ _ => rfl, fun k hk => by omega⟩
  | succ n ih =>
    have hi : i < sectors.length := by omega
    obtain ⟨disk', hwrite, hkeep, hbytes⟩ := ih (i + 1) (a + sectorSize)
      (Function.update disk (sectors.getD i 0) fun j => buf (a + j)) (by omega)
    refine ⟨disk', ?_, fun s hs => ?_, fun k hk => ?_⟩
    · simp only [writeSectors, hf.byteToSector hi, writeSector_eq (hf.getD_lt hi), bind, Except.bind]
      rw [show (i : Int) + 1 = (i + 1 : Nat) by omega]
      exact hwrite
    · rw [hkeep s fun k h₁ h₂ => hs k (by omega) (by omega),
        Function.update_of_ne (hs i (Nat.le_refl i) (by omega)).symm]
    · rcases k with _ | k
      · -- the later writes go to other sectors
        rw [hkeep, Nat.add_zero, Function.update_self, Nat.zero_mul, Nat.add_zero]
        intro k h₁ h₂ heq
        rw [Nat.add_zero, List.getD_eq_getElem _ _ (by omega), List.getD_eq_getElem _ _ hi,
          hf.nodup.getElem_inj_iff] at heq
        omega
      · rw [show i + (k + 1) = i + 1 + k by omega, hbytes k (by omega)]
        funext j
        congr 1
        simp only [sectorSize]
        omega

/-- The number of bytes a request comes to, and the sectors they are in. -/
theorem clamp_spec (hf : IsFile hdr length sectors) (hsum : p + numBytes < 2 ^ 31)
    (hreq : ¬ (numBytes ≤ 0 ∨ (p : Int) ≥ hdr.numBytes)) :
    ∃ n : Nat, n = count length numBytes p ∧ 0 < n ∧ p + n ≤ length ∧
      (if int32 (p + numBytes) > hdr.numBytes then int32 (hdr.numBytes - p) else numBytes) = n ∧
      (p + n - 1) / sectorSize < sectors.length := by
  rw [hf.numBytes] at hreq ⊢
  have hle := hf.length_le
  rw [maxFileSize, numDirect, sectorSize] at hle
  refine ⟨count length numBytes p, rfl, ?_⟩
  have hcount : count length numBytes p = min numBytes.toNat (length - p) := if_neg (by omega)
  have hn : 0 < min numBytes.toNat (length - p) := by omega
  rw [hcount]
  refine ⟨hn, by omega, ?_, hf.div_lt (by omega)⟩
  rw [int32_eq (by omega) hsum]
  split
  · rw [int32_eq (by omega) (by omega)]
    omega
  · omega

/-- `ReadAt` reads the bytes of the file. -/
theorem readAt_spec (hf : IsFile file.hdr length sectors) (hsum : p + numBytes < 2 ^ 31) :
    readAt disk file junk into numBytes p = .ok ((count length numBytes p : Nat),
      splice into 0 (count length numBytes p) fun j => fileByte disk sectors (p + j)) := by
  by_cases hreq : numBytes ≤ 0 ∨ (p : Int) ≥ file.hdr.numBytes
  · simp only [readAt, if_pos hreq]
    rw [hf.numBytes] at hreq
    have hcount : count length numBytes p = 0 := if_pos (by omega)
    rw [hcount, splice_zero]
    rfl
  · obtain ⟨n, hn, hpos, hle, hclamp, hlast⟩ := clamp_spec hf hsum hreq
    rw [← hn]
    simp only [readAt, if_neg hreq, hclamp]
    have hsmall := hf.length_le
    rw [maxFileSize, numDirect, sectorSize] at hsmall
    rw [int32_eq (by omega) (by omega), show (p : Int) + n - 1 = (p + n - 1 : Nat) by omega,
      Int.natCast_tdiv_eq_ediv, Int.natCast_tdiv_eq_ediv]
    have hnum : (1 + ((p + n - 1 : Nat) : Int) / sectorSize - (p : Int) / sectorSize).toNat =
        1 + (p + n - 1) / sectorSize - p / sectorSize := by
      simp only [sectorSize]
      omega
    have hfirst : (p : Int) / sectorSize = ((p / sectorSize : Nat) : Int) := by
      simp only [sectorSize]
      omega
    rw [hnum, hfirst]
    obtain ⟨buf, hread, -, hbytes⟩ := readSectors_spec hf disk
      (1 + (p + n - 1) / sectorSize - p / sectorSize) (p / sectorSize) 0 junk (by
        simp only [sectorSize] at *
        omega)
    have hoff : (p : Int) - ((p / sectorSize : Nat) : Int) * sectorSize = (p % sectorSize : Nat) := by
      simp only [sectorSize]
      omega
    rw [hread, hoff]
    simp only [bind, Except.bind]
    rw [if_pos ⟨by omega, by simp only [sectorSize]; omega⟩]
    refine congrArg (fun b => Except.ok ((n : Int), b)) (splice_congr fun j hj => ?_)
    rw [Int.toNat_natCast] at hj
    have := hbytes (p % sectorSize + j) (by simp only [sectorSize] at *; omega)
    rw [Nat.zero_add] at this
    rw [Int.toNat_natCast, this]
    exact congrArg (fileByte disk sectors) (by simp only [sectorSize]; omega)

/-- The first `ReadAt` of `WriteAt`: what the buffer then holds of the first sector
`a`. -/
theorem readFirst_spec (hf : IsFile file.hdr length sectors) (disk : Disk) (junk : Bytes) {a : Nat}
    (ha : a * sectorSize < length) (aligned : Bool) :
    ∃ buf, readFirst disk file junk a aligned = .ok buf ∧
      (aligned = false → ∀ x < sectorSize, a * sectorSize + x < length →
        buf x = fileByte disk sectors (a * sectorSize + x)) := by
  cases aligned with
  | true => exact ⟨junk, rfl, fun h => by cases h⟩
  | false =>
    have hsmall := hf.length_le
    rw [maxFileSize, numDirect, sectorSize] at hsmall
    have hr : readAt disk file junk junk sectorSize ((a * sectorSize : Nat) : Int) = _ :=
      readAt_spec hf (by simp only [sectorSize] at *; omega)
    have hcount : count length sectorSize (a * sectorSize) = min sectorSize (length - a * sectorSize) :=
      if_neg (by simp only [sectorSize] at *; omega)
    rw [show ((a * sectorSize : Nat) : Int) = (a : Int) * sectorSize by simp [sectorSize], hcount] at hr
    refine ⟨splice junk 0 (min sectorSize (length - a * sectorSize)) fun j =>
      fileByte disk sectors (a * sectorSize + j), by simp [readFirst, hr, Except.map],
      fun _ x hx hlt => ?_⟩
    rw [splice_apply_of_mem (Nat.zero_le x) (by omega), Nat.sub_zero]

/-- The second one, for the last sector `l`. -/
theorem readLast_spec (hf : IsFile file.hdr length sectors) (disk : Disk) (junk : Bytes) {l : Nat}
    (o : Nat) (hl : l * sectorSize < length) (buf : Bytes) (needed : Bool) :
    ∃ buf', readLast disk file junk l o needed buf = .ok buf' ∧
      (∀ x < o, buf' x = buf x) ∧ (needed = false → buf' = buf) ∧
      (needed = true → ∀ j < sectorSize, l * sectorSize + j < length →
        buf' (o + j) = fileByte disk sectors (l * sectorSize + j)) := by
  cases needed with
  | false => exact ⟨buf, rfl, fun _ _ => rfl, fun _ => rfl, fun h => by cases h⟩
  | true =>
    have hsmall := hf.length_le
    rw [maxFileSize, numDirect, sectorSize] at hsmall
    have hr : readAt disk file junk (fun j => buf (o + j)) sectorSize
        ((l * sectorSize : Nat) : Int) = _ := readAt_spec hf (by simp only [sectorSize] at *; omega)
    have hcount : count length sectorSize (l * sectorSize) = min sectorSize (length - l * sectorSize) :=
      if_neg (by simp only [sectorSize] at *; omega)
    rw [show ((l * sectorSize : Nat) : Int) = (l : Int) * sectorSize by simp [sectorSize], hcount] at hr
    refine ⟨splice buf o sectorSize (splice (fun j => buf (o + j)) 0
      (min sectorSize (length - l * sectorSize)) fun j => fileByte disk sectors (l * sectorSize + j)),
      by simp [readLast, hr, Except.map], fun x hx => ?_, fun h => (by cases h), fun _ j hj hlt => ?_⟩
    · exact splice_apply_of_notMem (by omega)
    · rw [splice_apply_add hj, splice_apply_of_mem (Nat.zero_le j) (by omega), Nat.sub_zero]

/-- Both: what is not to be written of the sectors `f` to `l` is in the buffer as it
is in the file. -/
theorem readPartial_spec (hf : IsFile file.hdr length sectors) (disk : Disk) (junk : Bytes)
    {f l n : Nat} (hpos : 0 < n) (hle : p + n ≤ length) (hfirst : p / sectorSize = f)
    (hlast : (p + n - 1) / sectorSize = l) :
    ∃ buf₁ buf₂, readFirst disk file junk f (decide ((p : Int) = f * sectorSize)) = .ok buf₁ ∧
      readLast disk file junk l ((l - f) * sectorSize) (!decide ((p : Int) + n = (l + 1) * sectorSize) &&
        (decide ((f : Int) ≠ l) || decide ((p : Int) = f * sectorSize))) buf₁ = .ok buf₂ ∧
      ∀ x < (1 + l - f) * sectorSize, f * sectorSize + x < length →
        ¬ (p ≤ f * sectorSize + x ∧ f * sectorSize + x < p + n) →
        buf₂ x = fileByte disk sectors (f * sectorSize + x) := by
  have hfl : f ≤ l ∧ f * sectorSize ≤ p ∧ p < (f + 1) * sectorSize ∧ l * sectorSize ≤ p + n - 1 ∧
      p + n - 1 < (l + 1) * sectorSize := by
    simp only [sectorSize] at *
    omega
  clear hfirst hlast
  obtain ⟨buf₁, hread₁, hbuf₁⟩ := readFirst_spec hf disk junk (a := f) (by omega)
    (decide ((p : Int) = f * sectorSize))
  obtain ⟨buf₂, hread₂, hkeep, hsame, hbuf₂⟩ := readLast_spec hf disk junk (l := l)
    ((l - f) * sectorSize) (by omega) buf₁ (!decide ((p : Int) + n = (l + 1) * sectorSize) &&
      (decide ((f : Int) ≠ l) || decide ((p : Int) = f * sectorSize)))
  refine ⟨buf₁, buf₂, hread₁, hread₂, fun x hx hlt hout => ?_⟩
  clear hread₁ hread₂
  by_cases hbefore : f * sectorSize + x < p
  · have haligned : decide ((p : Int) = f * sectorSize) = false :=
      decide_eq_false (by simp only [sectorSize] at *; omega)
    have hx₁ := hbuf₁ haligned x (by simp only [sectorSize] at *; omega) hlt
    by_cases hlf : f = l
    · rw [hsame (by rw [haligned, hlf]; simp), hx₁]
    · rw [hkeep x (by simp only [sectorSize] at *; omega), hx₁]
  · have hend : decide ((p : Int) + n = (l + 1) * sectorSize) = false :=
      decide_eq_false (by simp only [sectorSize] at *; omega)
    by_cases hone : f = l ∧ decide ((p : Int) = f * sectorSize) = false
    · rw [hsame (by rw [hone.2, hone.1]; simp)]
      exact hbuf₁ hone.2 x (by simp only [sectorSize] at *; omega) hlt
    · have hneeded : (!decide ((p : Int) + n = (l + 1) * sectorSize) &&
          (decide ((f : Int) ≠ l) || decide ((p : Int) = f * sectorSize))) = true := by
        rw [hend]
        by_cases hlf : f = l
        · simp only [hlf, true_and, Bool.not_eq_false] at hone
          rw [hlf, hone]
          simp
        · simp [hlf]
      have hx₂ := hbuf₂ hneeded (x - (l - f) * sectorSize) (by simp only [sectorSize] at *; omega)
        (by simp only [sectorSize] at *; omega)
      rw [show (l - f) * sectorSize + (x - (l - f) * sectorSize) = x by
        simp only [sectorSize] at *; omega] at hx₂
      rw [hx₂]
      exact congrArg (fileByte disk sectors) (by simp only [sectorSize] at *; omega)

/-- The sectors `f` to `l` of the file are written from a buffer. -/
theorem writeBuffer_spec (hf : IsFile hdr length sectors) (buf : Bytes) (disk : Disk) {f l : Nat}
    (hl : l < sectors.length) (hfl : f ≤ l) :
    ∃ disk', writeSectors hdr buf (1 + l - f) f 0 disk = .ok disk' ∧
      (∀ s, s ∉ (sectors.drop f).take (1 + l - f) → disk' s = disk s) ∧
      ∀ q < length, fileByte disk' sectors q =
        if f * sectorSize ≤ q ∧ q < (l + 1) * sectorSize then buf (q - f * sectorSize)
        else fileByte disk sectors q := by
  obtain ⟨disk', hwrite, hother, hbytes⟩ := writeSectors_spec hf buf (1 + l - f) f 0 disk (by omega)
  refine ⟨disk', hwrite, fun s hs => hother s fun k hfk hk heq => hs ?_, fun q hq => ?_⟩
  · rw [← heq]
    exact getD_mem_take_drop hfk hk (by omega)
  · have hk := hf.div_lt hq
    by_cases hin : f ≤ q / sectorSize ∧ q / sectorSize ≤ l
    · have hb := hbytes (q / sectorSize - f) (by omega)
      rw [show f + (q / sectorSize - f) = q / sectorSize by omega] at hb
      rw [if_pos (by simp only [sectorSize] at *; omega), fileByte, hb]
      exact congrArg buf (by simp only [sectorSize] at *; omega)
    · rw [if_neg (by simp only [sectorSize] at *; omega), fileByte, fileByte, hother]
      intro k h₁ h₂ heq
      rw [List.getD_eq_getElem _ _ (by omega), List.getD_eq_getElem _ _ hk,
        hf.nodup.getElem_inj_iff] at heq
      omega

/-- `WriteAt` changes the bytes of the file it is asked to, and no other sector. -/
theorem writeAt_spec (disk : Disk) (junk src : Bytes) (hf : IsFile file.hdr length sectors)
    (hsum : p + numBytes < 2 ^ 31) :
    ∃ disk', writeAt disk file junk src numBytes p = .ok ((count length numBytes p : Nat), disk') ∧
      (∀ s, s ∉ touched sectors p (count length numBytes p) → disk' s = disk s) ∧
      ∀ q < length, fileByte disk' sectors q =
        if p ≤ q ∧ q < p + count length numBytes p then src (q - p) else fileByte disk sectors q := by
  by_cases hreq : numBytes ≤ 0 ∨ (p : Int) ≥ file.hdr.numBytes
  · simp only [writeAt, if_pos hreq]
    rw [hf.numBytes] at hreq
    have hcount : count length numBytes p = 0 := if_pos (by omega)
    rw [hcount]
    exact ⟨disk, rfl, fun _ _ => rfl, fun q _ => (if_neg (by omega)).symm⟩
  · obtain ⟨n, hn, hpos, hle, hclamp, hlast⟩ := clamp_spec hf hsum hreq
    rw [← hn, touched, if_neg (by omega)]
    simp only [writeAt, if_neg hreq, hclamp]
    have hsmall := hf.length_le
    rw [maxFileSize, numDirect, sectorSize] at hsmall
    have hfI : (p : Int).tdiv sectorSize = ((p / sectorSize : Nat) : Int) := by
      rw [Int.natCast_tdiv_eq_ediv]
      simp only [sectorSize]
      omega
    have hlI : (int32 ((p : Int) + n - 1)).tdiv sectorSize =
        (((p + n - 1) / sectorSize : Nat) : Int) := by
      rw [int32_eq (by omega) (by omega), show (p : Int) + n - 1 = (p + n - 1 : Nat) by omega,
        Int.natCast_tdiv_eq_ediv]
      simp only [sectorSize]
      omega
    rw [hfI, hlI, int32_eq (x := (p : Int) + n) (by omega) (by omega)]
    clear hfI hlI hclamp hreq hsum hn
    generalize hfs : p / sectorSize = f at *
    generalize hls : (p + n - 1) / sectorSize = l at *
    have hfl : f ≤ l ∧ f * sectorSize ≤ p ∧ p + n ≤ (l + 1) * sectorSize := by
      simp only [sectorSize] at *
      omega
    have hoff : (((l : Int) - f) * sectorSize).toNat = (l - f) * sectorSize := by
      simp only [sectorSize] at *
      omega
    have hoff' : (p : Int) - (f : Int) * sectorSize = (p - f * sectorSize : Nat) := by
      simp only [sectorSize] at *
      omega
    obtain ⟨buf₁, buf₂, hread₁, hread₂, hbuf⟩ := readPartial_spec hf disk junk hpos hle hfs hls
    obtain ⟨disk', hwrite, hother, hbytes⟩ := writeBuffer_spec hf
      (splice buf₂ (p - f * sectorSize) n src) disk hlast hfl.1
    rw [show (1 + (l : Int) - f).toNat = 1 + l - f by omega, hoff, hoff', hread₁]
    simp only [bind, Except.bind]
    rw [hread₂]
    simp only
    rw [if_pos ⟨by omega, by simp only [sectorSize] at *; omega⟩, Int.toNat_natCast,
      Int.toNat_natCast, hwrite]
    refine ⟨disk', rfl, hother, fun q hq => ?_⟩
    rw [hbytes q hq]
    by_cases hw : p ≤ q ∧ q < p + n
    · rw [if_pos hw, if_pos (by omega), splice_apply_of_mem (by omega) (by omega)]
      exact congrArg src (by omega)
    · rw [if_neg hw]
      split
      · rw [splice_apply_of_notMem (by omega), hbuf _ (by simp only [sectorSize] at *; omega)
          (by omega) (by omega)]
        exact congrArg (fileByte disk sectors) (by omega)
      · rfl

/-! ## Requests -/

/-- The request is answered with 0 at once, or its position is not negative and its
end is an `int`. -/
def InRange (file : OpenFile) (numBytes position : Int) : Prop :=
  numBytes ≤ 0 ∨ position ≥ file.hdr.numBytes ∨ (0 ≤ position ∧ position + numBytes < 2 ^ 31)

instance (file : OpenFile) (numBytes position : Int) : Decidable (file.InRange numBytes position) :=
  inferInstanceAs (Decidable (_ ∨ _ ∨ _))

theorem count_of_refused (hf : IsFile file.hdr length sectors) {position : Int}
    (h : numBytes ≤ 0 ∨ position ≥ file.hdr.numBytes) : count length numBytes position.toNat = 0 := by
  rw [hf.numBytes] at h
  exact if_pos (by omega)

theorem readAt_of_inRange (hf : IsFile file.hdr length sectors) {position : Int}
    (hr : file.InRange numBytes position) :
    readAt disk file junk into numBytes position =
      .ok ((count length numBytes position.toNat : Nat),
        splice into 0 (count length numBytes position.toNat) fun j =>
          fileByte disk sectors (position.toNat + j)) := by
  by_cases hno : numBytes ≤ 0 ∨ position ≥ file.hdr.numBytes
  · rw [count_of_refused hf hno, splice_zero]
    simp only [readAt, if_pos hno]
    rfl
  · obtain ⟨p, rfl⟩ : ∃ p : Nat, position = p := ⟨position.toNat, by unfold InRange at hr; omega⟩
    rw [Int.toNat_natCast]
    exact readAt_spec hf (by unfold InRange at hr; omega)

theorem writeAt_of_inRange (disk : Disk) (junk src : Bytes) (hf : IsFile file.hdr length sectors)
    {position : Int} (hr : file.InRange numBytes position) :
    ∃ disk', writeAt disk file junk src numBytes position =
        .ok ((count length numBytes position.toNat : Nat), disk') ∧
      (∀ s, s ∉ touched sectors position.toNat (count length numBytes position.toNat) →
        disk' s = disk s) ∧
      ∀ q < length, fileByte disk' sectors q =
        if position.toNat ≤ q ∧ q < position.toNat + count length numBytes position.toNat then
          src (q - position.toNat)
        else fileByte disk sectors q := by
  by_cases hno : numBytes ≤ 0 ∨ position ≥ file.hdr.numBytes
  · refine ⟨disk, ?_, fun _ _ => rfl, fun q _ => ?_⟩
    · rw [count_of_refused hf hno]
      simp only [writeAt, if_pos hno]
      rfl
    · rw [count_of_refused hf hno, if_neg (by omega)]
  · obtain ⟨p, rfl⟩ : ∃ p : Nat, position = p := ⟨position.toNat, by unfold InRange at hr; omega⟩
    rw [Int.toNat_natCast]
    exact writeAt_spec disk junk src hf (by unfold InRange at hr; omega)

/-! ## Whole files -/

theorem count_self (length : Nat) : count length length 0 = length := by
  unfold count
  split <;> omega

theorem readAt_all (hf : IsFile file.hdr length sectors) :
    readAt disk file junk into length 0 =
      .ok ((length : Nat), splice into 0 length (fileByte disk sectors)) := by
  have hle := hf.length_le
  rw [maxFileSize, numDirect, sectorSize] at hle
  have hread : readAt disk file junk into length (0 : Nat) = _ := readAt_spec hf (by omega)
  rw [count_self] at hread
  simp only [Nat.zero_add] at hread
  exact hread

theorem writeAt_all (disk : Disk) (junk src : Bytes) (hf : IsFile file.hdr length sectors) :
    ∃ disk', writeAt disk file junk src length 0 = .ok ((length : Nat), disk') ∧
      (∀ s, s ∉ sectors → disk' s = disk s) ∧ ∀ q < length, fileByte disk' sectors q = src q := by
  have hle := hf.length_le
  rw [maxFileSize, numDirect, sectorSize] at hle
  obtain ⟨disk', hwrite, hother, hbytes⟩ := writeAt_spec disk junk src (p := 0) hf
    (show (0 : Nat) + (length : Int) < 2 ^ 31 by omega)
  rw [count_self] at hwrite hbytes
  refine ⟨disk', hwrite, fun s hs => hother s fun h => hs (touched_subset h), fun q hq => ?_⟩
  rw [hbytes q hq, if_pos ⟨Nat.zero_le q, by omega⟩, Nat.sub_zero]

end OpenFile

end Nachos.Filesys
