import Mathlib.Algebra.BigOperators.Group.Finset.Basic
import Mathlib.Algebra.BigOperators.Intervals
import Nachos.Filesys.Bounds
import Nachos.Filesys.Calls

/-!
# Copying files (filesys/fstest.cc)

`Copy` and `Print` go through a file from its start, some bytes at a time. The
loops here are for any sizes; `Copy` and `Print` have `TransferSize`.

* `writeChunks_spec`: writing one chunk after another;
* `readLoop_spec`: reading until there is nothing left;
* `roundTrip_iff`: when what was written is read back, and that `Print` prints what
  `Copy` copied.
-/

namespace Nachos.Filesys

open Nachos.Framework

/-- `TransferSize`. -/
def transferSize : Nat := 10

/-- The buffer that a call of `Write` is given, and the number of bytes. -/
structure Chunk where
  buffer : Bytes
  length : Nat

/-- The bytes of all the chunks. -/
def bytesOfChunks (chunks : List Chunk) : List (BitVec 8) := chunks.flatMap fun c => slice c.buffer 0 c.length

namespace OpenFile

/-- `Write` for each chunk; what the calls return, and the disk and the file afterwards. -/
def writeChunks (junk : Nat → Bytes) :
    List Chunk → Nat → Disk → OpenFile → Except Stop (List Int × Disk × OpenFile)
  | [], _, disk, file => .ok ([], disk, file)
  | chunk :: chunks, k, disk, file => do
    let (result, disk, file) ← file.write disk (junk k) chunk.buffer chunk.length
    let (results, disk, file) ← writeChunks junk chunks (k + 1) disk file
    .ok (result :: results, disk, file)

/-- `while ((result = Read(into, numBytes)) > 0)`; what the calls return, and the bytes that
they put into the buffer, if the loop ends in `fuel` turns. -/
def readLoop (disk : Disk) (junk : Nat → Bytes) (numBytes : Nat → Int) :
    Nat → Nat → OpenFile → Bytes → Except Stop (Option (List Int × List (BitVec 8)))
  | 0, _, _, _ => .ok none
  | fuel + 1, k, file, into => do
    let (result, into, file) ← file.read disk (junk k) into (numBytes k)
    if result > 0 then do
      let rest ← readLoop disk junk numBytes fuel (k + 1) file into
      .ok (rest.map fun r => (result :: r.1, slice into 0 result.toNat ++ r.2))
    else .ok (some ([result], []))

/-- The loop of `Copy`: what is left of the UNIX file is read by `fread` into the buffer. -/
def copyLoop (junk : Nat → Bytes) (rest : List (BitVec 8)) (k : Nat) (buffer : Bytes) (disk : Disk)
    (file : OpenFile) : Except Stop Disk :=
  let amountRead := (rest.take transferSize).length
  if 0 < amountRead then do
    let buffer := splice buffer 0 amountRead (ofList rest)
    let (_, disk, file) ← file.write disk (junk k) buffer amountRead
    copyLoop junk (rest.drop transferSize) (k + 1) buffer disk file
  else .ok disk
termination_by rest.length
decreasing_by
  rename_i h
  rw [show amountRead = _ from List.length_take] at h
  rw [List.length_drop]
  unfold transferSize at *
  omega

end OpenFile

/-- What `printf` prints for `"text name\n"`. -/
def message (text : String) (name : CString) : List (BitVec 8) :=
  (text.toList.map fun c => BitVec.ofNat 8 c.toNat) ++ name.chars ++ [10]

/-- `Copy`: what it prints, and the disk afterwards. `unix` are the UNIX files. -/
def copy (unix : CString → Option (List (BitVec 8))) (fs : FileSystem) (disk : Disk) (junk : Nat → Junk)
    (from_ to_ : CString) : Except Stop (List (BitVec 8) × Disk) :=
  match unix from_ with
  | none => .ok (message "Copy: couldn't open input file " from_, disk)
  | some content => do
    let fileLength := int32 content.length
    let (created, disk) ← fs.create disk (junk 0) to_ fileLength
    if created then do
      let openFile ← fs.openFile disk (junk 1) to_
      match openFile with
      | none => .error .assertion
      | some openFile => do
        let disk ← openFile.copyLoop (junk 2) content 0 (junk 3 0) disk
        .ok ([], disk)
    else .ok (message "Copy: couldn't create output file " to_, disk)

/-- `Print`: what it prints, if the loop ends in `fuel` turns. -/
def print (fs : FileSystem) (disk : Disk) (junk : Nat → Junk) (fuel : Nat) (name : CString) :
    Except Stop (Option (List (BitVec 8))) := do
  let openFile ← fs.openFile disk (junk 0) name
  match openFile with
  | none => .ok (some (message "Print: unable to open file " name))
  | some openFile => do
    let r ← openFile.readLoop disk (junk 1) (fun _ => transferSize) fuel 0 (junk 2 0)
    .ok (r.map Prod.snd)

/-! ## Writing the chunks -/

theorem count_of_le {length p n : Nat} (h : p + n ≤ length) : count length n p = n := by
  unfold count
  split <;> omega

section
variable {length p : Nat} {sectors : List Nat} {chunks : List Chunk}

theorem length_bytesOfChunks_cons (c : Chunk) (chunks : List Chunk) :
    (bytesOfChunks (c :: chunks)).length = c.length + (bytesOfChunks chunks).length := by
  rw [bytesOfChunks, List.flatMap_cons, List.length_append, length_slice]
  rfl

/-- From `p` on the file holds the chunks, if there is room; what is before `p` stays. -/
theorem writeChunks_spec (disk : Disk) (file : OpenFile) (chunks : List Chunk)
    (hf : IsFile file.hdr length sectors) (junk : Nat → Bytes) (k : Nat)
    (hseek : file.seekPosition = p) (hroom : p + (bytesOfChunks chunks).length ≤ length) :
    ∃ disk' file', file.writeChunks junk chunks k disk =
        .ok (chunks.map fun c => (c.length : Int), disk', file') ∧
      (∀ s, s ∉ sectors → disk' s = disk s) ∧
      (∀ q < p, fileByte disk' sectors q = fileByte disk sectors q) ∧
      slice (fileByte disk' sectors) p (bytesOfChunks chunks).length = bytesOfChunks chunks := by
  have hle := hf.length_le
  rw [maxFileSize, numDirect, sectorSize] at hle
  induction chunks generalizing k p disk file with
  | nil => exact ⟨disk, file, rfl, fun _ _ => rfl, fun _ _ => rfl, rfl⟩
  | cons c chunks ih =>
    rw [length_bytesOfChunks_cons] at hroom ⊢
    have hsum : p + (c.length : Int) < 2 ^ 31 := by omega
    obtain ⟨disk₁, hwrite, hother₁, hbytes₁⟩ := OpenFile.writeAt_spec disk (junk k) c.buffer hf hsum
    rw [count_of_le (by omega)] at hwrite hbytes₁
    obtain ⟨disk', file', hrest, hother, hkeep, hdata⟩ := ih (p := p + c.length) disk₁
      { file with seekPosition := int32 (file.seekPosition + c.length) } hf (k + 1)
      (by rw [hseek, int32_eq (by omega) (by omega)]; rfl) (by omega)
    refine ⟨disk', file', ?_, fun s hs => ?_, fun q hq => ?_, ?_⟩
    · rw [OpenFile.writeChunks, OpenFile.write, hseek, hwrite]
      simp only [ok_bind]
      rw [← hseek, hrest]
      rfl
    · rw [hother s hs, hother₁ s fun h => hs (touched_subset h)]
    · rw [hkeep q (by omega), hbytes₁ q (by omega), if_neg (by omega)]
    · rw [slice_add, hdata]
      refine congrArg (· ++ bytesOfChunks chunks) (slice_congr fun i hi => ?_)
      rw [hkeep _ (by omega), hbytes₁ _ (by omega), if_pos ⟨by omega, by omega⟩, Nat.zero_add,
        Nat.add_sub_cancel_left]

/-- The loop of `Copy` writes one chunk after another. -/
theorem copyLoop_eq (junk : Nat → Bytes) (rest : List (BitVec 8)) (buffer : Bytes) :
    ∃ chunks, bytesOfChunks chunks = rest ∧ ∀ k disk file, OpenFile.copyLoop junk rest k buffer disk file =
      OpenFile.writeChunks junk chunks k disk file >>= fun r => .ok r.2.1 := by
  induction hn : rest.length using Nat.strong_induction_on generalizing rest buffer with
  | _ n ih =>
    by_cases hrest : 0 < (rest.take transferSize).length
    · have hdrop : (rest.drop transferSize).length < n := by
        rw [List.length_take] at hrest
        rw [List.length_drop]
        unfold transferSize at *
        omega
      obtain ⟨chunks, hbytes, hcopy⟩ := ih _ hdrop (rest.drop transferSize)
        (splice buffer 0 (rest.take transferSize).length (ofList rest)) rfl
      refine ⟨⟨splice buffer 0 (rest.take transferSize).length (ofList rest),
        (rest.take transferSize).length⟩ :: chunks, ?_, fun k disk file => ?_⟩
      · rw [bytesOfChunks, List.flatMap_cons, slice_splice,
          slice_ofList (List.length_take_le' transferSize rest), List.length_take,
          ← List.take_eq_take_min, show chunks.flatMap _ = _ from hbytes, List.take_append_drop]
      · rw [OpenFile.copyLoop]
        simp only [if_pos hrest, OpenFile.writeChunks, hcopy, bind_assoc, ok_bind]
    · refine ⟨[], ?_, fun k disk file => ?_⟩
      · rw [List.length_take] at hrest
        exact (List.eq_nil_of_length_eq_zero (by unfold transferSize at hrest; omega)).symm
      · rw [OpenFile.copyLoop, if_neg hrest]
        rfl

end

/-! ## Reading until there is nothing left -/

open Finset in
/-- As long as a request starts in the file, the requests up to it are for less than 2^31 bytes. -/
def SizesInRange (length : Nat) (numBytes : Nat → Int) : Prop :=
  ∀ k, (∑ j ∈ range k, numBytes j) < length → (∑ j ∈ range (k + 1), numBytes j) < 2 ^ 31

section
variable (disk : Disk) (file : OpenFile) {length p k : Nat} {sectors : List Nat} {numBytes : Nat → Int}
  (into : Bytes) (hf : IsFile file.hdr length sectors) (hseek : file.seekPosition = p)
include hf hseek

/-- `Read` at `p`, if the request is in range. -/
theorem read_spec (junk : Bytes) (hp : p ≤ length) {n : Int} (hr : p < length → p + n < 2 ^ 31) :
    file.read disk junk into n = .ok ((count length n p : Nat),
      splice into 0 (count length n p) fun j => fileByte disk sectors (p + j),
      { file with seekPosition := (p + count length n p : Nat) }) := by
  have hle := hf.length_le
  rw [maxFileSize, numDirect, sectorSize] at hle
  have hrange : file.InRange n file.seekPosition := by
    unfold OpenFile.InRange
    rw [hseek, hf.numBytes]
    omega
  have hcount : p + count length n p ≤ length := by
    unfold count
    split <;> omega
  rw [OpenFile.read, OpenFile.readAt_of_inRange hf hrange, hseek, Int.toNat_natCast]
  simp only [ok_bind]
  rw [int32_eq (by omega) (by omega)]
  rfl

variable (hpos : ∀ k, 0 < numBytes k)
include hpos

/-- One turn of the loop that reads. -/
theorem readLoop_succ (junk : Nat → Bytes) (hp : p < length) (hr : p + numBytes k < 2 ^ 31) (fuel : Nat) :
    ∃ n : Nat, 0 < n ∧ p + n ≤ length ∧ ((p + n : Nat) : Int) = min (length : Int) (p + numBytes k) ∧
      file.readLoop disk junk numBytes (fuel + 1) k into =
        (OpenFile.readLoop disk junk numBytes fuel (k + 1) { file with seekPosition := (p + n : Nat) }
          (splice into 0 n fun j => fileByte disk sectors (p + j))) >>= fun rest =>
            .ok (rest.map fun r => ((n : Int) :: r.1, slice (fileByte disk sectors) p n ++ r.2)) := by
  have hk := hpos k
  have hcount : count length (numBytes k) p = min (numBytes k).toNat (length - p) := if_neg (by omega)
  refine ⟨count length (numBytes k) p, by omega, by omega, by omega, ?_⟩
  rw [OpenFile.readLoop, read_spec disk file into hf hseek (junk k) (Nat.le_of_lt hp) fun _ => hr]
  simp only [ok_bind]
  rw [if_pos (by omega), Int.toNat_natCast, slice_splice,
    show slice (fun j => fileByte disk sectors (p + j)) 0 _ = slice (fileByte disk sectors) p _ from
      slice_congr fun i _ => by rw [Nat.zero_add]]

variable (hp : (p : Int) = min (length : Int) (∑ j ∈ Finset.range k, numBytes j))
include hp

/-- The loop ends, and gives what the file holds from `p` on. -/
theorem readLoop_spec (hr : SizesInRange length numBytes) (junk : Nat → Bytes) (fuel : Nat)
    (hfuel : length - p < fuel) : ∃ results, (∀ r ∈ results, 0 < r) ∧
      file.readLoop disk junk numBytes fuel k into =
        .ok (some (results ++ [0], slice (fileByte disk sectors) p (length - p))) := by
  induction fuel generalizing p k file into with
  | zero => omega
  | succ fuel ih =>
    by_cases hend : p < length
    · have hrk := hr k (by omega)
      rw [Finset.sum_range_succ] at hrk
      obtain ⟨n, hn, hle, hsum, hturn⟩ := readLoop_succ disk file into (k := k) hf hseek hpos
        junk hend (by omega) fuel
      obtain ⟨results, hresults, hrest⟩ := ih (k := k + 1) (p := p + n)
        { file with seekPosition := (p + n : Nat) }
        (splice into 0 n fun j => fileByte disk sectors (p + j)) hf rfl
        (by rw [hsum, Finset.sum_range_succ]; omega) (by omega)
      refine ⟨n :: results, ?_, ?_⟩
      · intro r hin
        rcases List.mem_cons.mp hin with rfl | hin
        · omega
        · exact hresults r hin
      · rw [hturn, hrest, show length - p = n + (length - (p + n)) by omega, slice_add]
        rfl
    · have hzero : count length (numBytes k) p = 0 := if_pos (.inr (by omega))
      refine ⟨[], fun r hin => absurd hin (List.not_mem_nil), ?_⟩
      rw [OpenFile.readLoop, read_spec disk file into hf hseek (junk k) (by omega) fun h => absurd h hend, hzero,
        show length - p = 0 by omega]
      rfl

/-- If the loop ends, and gives no more than the file has, its requests were in range. -/
theorem sizesInRange_of_readLoop (hlt : ∀ k, numBytes k < 2 ^ 31) {junk : Nat → Bytes} {fuel : Nat}
    {r : List Int × List (BitVec 8)}
    (h : file.readLoop disk junk numBytes fuel k into = .ok (some r)) (hlen : r.2.length ≤ length - p)
    {j : Nat} (hj : k ≤ j) (hsum : (∑ i ∈ Finset.range j, numBytes i) < length) :
    (∑ i ∈ Finset.range (j + 1), numBytes i) < 2 ^ 31 := by
  induction fuel generalizing p k file into r with
  | zero => cases h
  | succ fuel ih =>
    have hmono : ∑ i ∈ Finset.range k, numBytes i ≤ ∑ i ∈ Finset.range j, numBytes i :=
      Finset.sum_le_sum_of_subset_of_nonneg (Finset.range_subset_range.mpr hj)
        fun i _ _ => Int.le_of_lt (hpos i)
    have hend : p < length := by omega
    by_cases hrk : p + numBytes k < 2 ^ 31
    · obtain ⟨n, hn, hle, hsum', hturn⟩ := readLoop_succ disk file into (k := k) hf hseek
        hpos junk hend hrk fuel
      rw [hturn] at h
      obtain ⟨rest, hrest, h⟩ := bind_eq_ok.mp h
      obtain ⟨r', rfl, rfl⟩ := Option.map_eq_some_iff.mp (Except.ok.inj h)
      rw [List.length_append, length_slice] at hlen
      by_cases hjk : j = k
      · rw [hjk, Finset.sum_range_succ]
        omega
      · exact ih (k := k + 1) (p := p + n) { file with seekPosition := (p + n : Nat) } _ hf rfl
          (by rw [hsum', Finset.sum_range_succ]; omega) hrest (by omega) (by omega)
    · -- the read that returns returns too much
      exfalso
      rw [OpenFile.readLoop] at h
      obtain ⟨⟨result, into', file'⟩, hread, h⟩ := bind_eq_ok.mp h
      obtain ⟨⟨result', _⟩, hread', hres⟩ := bind_eq_ok.mp hread
      cases hres
      have hk := hpos k
      have hmax : (length : Int) ≤ maxFileSize := Int.ofNat_le.mpr hf.length_le
      have hanswer : ¬ OpenFile.answer length (numBytes k) p ≤ max 0 ((length : Int) - p) :=
        OpenFile.answer_of_overflow ⟨by omega, hmax⟩ (by omega) (by omega) (hlt k) hrk
      have hresult := OpenFile.readAt_answer hread'
      rw [hf.numBytes, hseek] at hresult
      simp only at hresult h
      rw [← hresult] at hanswer
      rw [if_pos (by omega)] at h
      obtain ⟨rest, -, h⟩ := bind_eq_ok.mp h
      obtain ⟨r', -, rfl⟩ := Option.map_eq_some_iff.mp (Except.ok.inj h)
      rw [List.length_append, length_slice] at hlen
      omega

end

/-! ## The result -/

section
variable {fs : FileSystem} {disk disk₁ : Disk} {L : Layout} {freeMap : BitMap} {name : CString}

theorem openFile_of_file (h : OnDisk disk L freeMap) (hm : Mounted fs disk) {i : Nat} {f : FileInfo}
    (hf : L.files i = some f) (hname : f.name = fileName name) (junk : Junk) :
    fs.openFile disk junk name = .ok (some ⟨disk f.header, 0⟩) := by
  rcases openFile_spec h hm junk name with ⟨j, g, hg, hgname, hopen⟩ | ⟨hne, -⟩
  · have hji := h.name_inj j i g f hg hf (hgname.trans hname.symm)
    rw [hji, hf] at hg
    cases hg
    exact hopen
  · exact absurd hname (hne i f hf)

/-- `Create` that returns TRUE leaves a file with the name and the size. -/
theorem file_of_create (h : OnDisk disk L freeMap) (hm : Mounted fs disk) {junk : Junk} {size : Nat}
    (hsize : size ≤ maxFileSize) (hcreate : fs.create disk junk name size = .ok (true, disk₁)) :
    ∃ L' freeMap' i f, Inv ⟨disk₁, fs, []⟩ L' freeMap' ∧ L'.files i = some f ∧ f.name = fileName name ∧
      f.length = size := by
  rcases create_spec h hm junk name hsize with ⟨hfalse, -⟩ |
    ⟨i, f, disk', freeMap', -, -, -, -, hname, hlen, htrue, hdisk, hsame⟩
  · rw [hcreate] at hfalse
    cases hfalse
  · rw [hcreate] at htrue
    cases htrue
    exact ⟨_, freeMap', i, f, ⟨hdisk, hsame.mounted h hm, fun _ hin => absurd hin (List.not_mem_nil)⟩,
      L.files_setFile_self i _, hname, hlen⟩

/-- Writing a whole file chunk by chunk, and opening it again. -/
theorem writeFile_spec {i : Nat} {f : FileInfo} (h : Inv ⟨disk₁, fs, []⟩ L freeMap)
    (hf : L.files i = some f) (hname : f.name = fileName name) {chunks : List Chunk}
    (hlen : f.length = (bytesOfChunks chunks).length) (junk : Nat → Bytes) (junk' : Junk) :
    ∃ disk₂ file', OpenFile.writeChunks junk chunks 0 disk₁ ⟨disk₁ f.header, 0⟩ =
        .ok (chunks.map fun c => (c.length : Int), disk₂, file') ∧
      fs.openFile disk₂ junk' name = .ok (some ⟨disk₂ f.header, 0⟩) ∧
      IsFile (disk₂ f.header) f.length f.sectors ∧
      slice (fileByte disk₂ f.sectors) 0 f.length = bytesOfChunks chunks := by
  obtain ⟨disk₂, file', hwrite, hother, -, hdata⟩ := writeChunks_spec disk₁ ⟨disk₁ f.header, 0⟩ chunks (p := 0)
    (h.onDisk.fileHdr i f hf) junk 0 rfl (by omega)
  have h₂ : Inv ⟨disk₂, fs, []⟩ L freeMap := h.setDisk hf hother
  rw [← hlen] at hdata
  exact ⟨disk₂, file', hwrite, openFile_of_file h₂.onDisk h₂.mounted hf hname junk',
    h₂.onDisk.fileHdr i f hf, hdata⟩

end

/-- A file of the size of all the chunks is created and opened, and each `Write` returns the length
of its chunk; then it is opened again, and the loop that reads ends and gives the bytes of the
chunks. -/
def RoundTrip (fs : FileSystem) (disk : Disk) (junk : Nat → Junk) (name : CString) (chunks : List Chunk)
    (numBytes : Nat → Int) (into : Bytes) : Prop :=
  ∃ disk₁ file disk₂ file' file₂ fuel results,
    fs.create disk (junk 0) name (bytesOfChunks chunks).length = .ok (true, disk₁) ∧
    fs.openFile disk₁ (junk 1) name = .ok (some file) ∧
    file.writeChunks (junk 2) chunks 0 disk₁ = .ok (chunks.map fun c => (c.length : Int), disk₂, file') ∧
    fs.openFile disk₂ (junk 3) name = .ok (some file₂) ∧
    file₂.readLoop disk₂ (junk 4) numBytes fuel 0 into = .ok (some (results ++ [0], bytesOfChunks chunks))

section
variable {fs : FileSystem} {disk disk₁ : Disk} {L : Layout} {freeMap : BitMap} {junk : Nat → Junk}
  {name : CString} {chunks : List Chunk} {numBytes : Nat → Int} {into : Bytes}
  (h : OnDisk disk L freeMap) (hm : Mounted fs disk)
  (hsize : (bytesOfChunks chunks).length ≤ maxFileSize)
  (hpos : ∀ k, 0 < numBytes k ∧ numBytes k < 2 ^ 31)
include h hm hsize hpos

theorem RoundTrip.sizesInRange (hr : RoundTrip fs disk junk name chunks numBytes into) :
    SizesInRange (bytesOfChunks chunks).length numBytes := by
  obtain ⟨disk₁, file, disk₂, file', file₂, fuel, results, hcreate, hopen, hwrite, hopen₂, hread⟩ := hr
  obtain ⟨L', freeMap', i, f, hinv, hf, hname, hlen⟩ := file_of_create h hm hsize hcreate
  rw [openFile_of_file hinv.onDisk hinv.mounted hf hname] at hopen
  cases hopen
  obtain ⟨disk₂', file'', hwrite', hopen', hfile, -⟩ := writeFile_spec hinv hf hname hlen (junk 2) (junk 3)
  rw [hwrite] at hwrite'
  cases hwrite'
  rw [hopen₂] at hopen'
  cases hopen'
  rw [hlen] at hfile
  intro k hk
  exact sizesInRange_of_readLoop disk₂ _ into (p := 0) hfile rfl (fun k => (hpos k).1) (by simp)
    (fun k => (hpos k).2) hread (Nat.le_refl _) (Nat.zero_le k) hk

theorem SizesInRange.roundTrip (hr : SizesInRange (bytesOfChunks chunks).length numBytes)
    (hcreate : fs.create disk (junk 0) name (bytesOfChunks chunks).length = .ok (true, disk₁)) :
    RoundTrip fs disk junk name chunks numBytes into := by
  obtain ⟨L', freeMap', i, f, hinv, hf, hname, hlen⟩ := file_of_create h hm hsize hcreate
  obtain ⟨disk₂, file', hwrite, hopen₂, hfile, hdata⟩ := writeFile_spec hinv hf hname hlen (junk 2) (junk 3)
  rw [hlen] at hfile hdata
  obtain ⟨results, -, hread⟩ := readLoop_spec disk₂ ⟨disk₂ f.header, 0⟩ into (p := 0) (k := 0) hfile rfl
    (fun k => (hpos k).1) (by simp) hr (junk 4) _ (Nat.lt_succ_self _)
  rw [Nat.sub_zero, hdata] at hread
  exact ⟨disk₁, _, disk₂, file', _, _, results, hcreate,
    openFile_of_file hinv.onDisk hinv.mounted hf hname (junk 1), hwrite, hopen₂, hread⟩

end

/-- `Copy`, and then `Print`. -/
theorem copy_print {fs : FileSystem} {disk disk₁ : Disk} {L : Layout} {freeMap : BitMap}
    (h : OnDisk disk L freeMap) (hm : Mounted fs disk) {junk : Nat → Junk} {from_ to_ : CString}
    {unix : CString → Option (List (BitVec 8))} {content : List (BitVec 8)}
    (hunix : unix from_ = some content) (hsize : content.length ≤ maxFileSize)
    (hcreate : fs.create disk (junk 0) to_ content.length = .ok (true, disk₁)) :
    ∃ disk₂, copy unix fs disk junk from_ to_ = .ok ([], disk₂) ∧
      ∀ junk' fuel, content.length < fuel → print fs disk₂ junk' fuel to_ = .ok (some content) := by
  obtain ⟨L', freeMap', i, f, hinv, hf, hname, hlen⟩ := file_of_create h hm hsize hcreate
  obtain ⟨chunks, hbytes, hcopy⟩ := copyLoop_eq (junk 2) content (junk 3 0)
  rw [← hbytes] at hlen
  have hwritten := writeFile_spec hinv hf hname hlen (junk 2)
  obtain ⟨disk₂, file', hwrite, -, hfile, hdata⟩ := hwritten (junk 3)
  have hsmall := hsize
  rw [maxFileSize, numDirect, sectorSize] at hsmall
  refine ⟨disk₂, ?_, fun junk' fuel hfuel => ?_⟩
  · rw [copy, hunix]
    simp only [int32_eq (show -2 ^ 31 ≤ (content.length : Int) by omega) (by omega), hcreate, ok_bind,
      if_true, openFile_of_file hinv.onDisk hinv.mounted hf hname (junk 1), hcopy, hwrite]
  · obtain ⟨_, _, hwrite', hopen, -⟩ := hwritten (junk' 0)
    rw [hwrite] at hwrite'
    cases hwrite'
    rw [hbytes] at hlen hdata
    have hrange : SizesInRange f.length fun _ => transferSize := by
      intro k hk
      simp only [Finset.sum_const, Finset.card_range, nsmul_eq_mul] at hk ⊢
      rw [transferSize] at *
      omega
    obtain ⟨results, -, hread⟩ := readLoop_spec disk₂ ⟨disk₂ f.header, 0⟩ (junk' 2 0) (p := 0) (k := 0) hfile
      rfl (fun _ => by decide) (by simp) hrange (junk' 1) fuel (by omega)
    rw [Nat.sub_zero, hdata] at hread
    rw [print, hopen]
    simp only [ok_bind, hread]
    rfl

/-- On a disk with a layout, when `Create` has room: chunks that are written are read back exactly if
the sizes of the requests are in range; and `Print` prints what `Copy` has copied. -/
theorem roundTrip_iff {fs : FileSystem} {disk disk₁ : Disk} {L : Layout} {freeMap : BitMap}
    (h : OnDisk disk L freeMap) (hm : Mounted fs disk) (junk : Nat → Junk) (name : CString) (size : Nat)
    (hsize : size ≤ maxFileSize) (hcreate : fs.create disk (junk 0) name size = .ok (true, disk₁)) :
    (∀ chunks numBytes into, (bytesOfChunks chunks).length = size →
      (∀ k, 0 < numBytes k ∧ numBytes k < 2 ^ 31) →
      (RoundTrip fs disk junk name chunks numBytes into ↔ SizesInRange size numBytes)) ∧
    (∀ unix from_ content, unix from_ = some content → content.length = size →
      ∃ disk₂, copy unix fs disk junk from_ name = .ok ([], disk₂) ∧
        ∀ junk' fuel, size < fuel → print fs disk₂ junk' fuel name = .ok (some content)) := by
  constructor
  · rintro chunks numBytes into rfl hpos
    exact ⟨fun hr => hr.sizesInRange h hm hsize hpos, fun hr => hr.roundTrip h hm hsize hpos hcreate⟩
  · rintro unix from_ content hunix rfl
    exact copy_print h hm hunix hsize hcreate

/-- On a formatted disk there is room for a file of two bytes. -/
theorem create_two : ∃ fs disk map dir freeMap disk₁, OnDisk disk ⟨map, dir, fun _ => none⟩ freeMap ∧
    Mounted fs disk ∧ fs.create disk (fun _ _ => 0) nameA 2 = .ok (true, disk₁) := by
  obtain ⟨fs, disk, map, dir, freeMap, -, hdisk, hm⟩ := format_spec (fun _ _ => 0) fun _ _ => 0
  have hmarked : (freeMapSector :: map).length + (directorySector :: dir).length = freeMap.marked.card := by
    have hsum : ∑ i ∈ ({0, 1} : Finset Nat), (Layout.holds ⟨map, dir, fun _ => none⟩ i).length =
        freeMap.marked.card := by
      refine hdisk.owned.sum_length_eq fun i hi => ?_
      rcases i with _ | _ | i
      · simp at hi
      · simp at hi
      · rfl
    rw [← hsum, Finset.sum_pair (by decide)]
    rfl
  have hclear := freeMap.numClear_add_card
  have hneeds : divRoundUp freeMapFileSize sectorSize = 1 ∧ divRoundUp directoryFileSize sectorSize = 2 ∧
      divRoundUp 2 sectorSize = 1 := by decide
  rw [List.length_cons, List.length_cons, hdisk.mapHdr.sectors_length, hdisk.dirHdr.sectors_length] at hmarked
  rw [hdisk.mapData.1, numSectors] at hclear
  have hsize : 2 ≤ maxFileSize := by decide
  rcases create_spec hdisk hm (fun _ _ => 0) nameA hsize with ⟨-, ⟨i, f, hf, -⟩ | hfull | hroom⟩ |
    ⟨i, f, disk₁, freeMap', -, -, -, -, -, -, hcreate, -⟩
  · cases hf
  · exact absurd rfl (hfull 0 (by decide))
  · omega
  · exact ⟨fs, disk, map, dir, freeMap, disk₁, hdisk, hm, hcreate⟩

/-- Two chunks of one byte, and a UNIX file of two. -/
theorem roundTrip_iff_two : ∃ fs disk,
    (RoundTrip fs disk (fun _ _ _ => 0) nameA [⟨fun _ => 7, 1⟩, ⟨fun _ => 8, 1⟩] (fun _ => 10) (fun _ => 0) ↔
      SizesInRange 2 fun _ => 10) ∧
    ∃ disk₂, copy (fun _ => some [7, 8]) fs disk (fun _ _ _ => 0) nameA nameA = .ok ([], disk₂) ∧
      print fs disk₂ (fun _ _ _ => 0) 3 nameA = .ok (some [7, 8]) := by
  obtain ⟨fs, disk, map, dir, freeMap, disk₁, hdisk, hm, hcreate⟩ := create_two
  obtain ⟨hchunks, hcopy⟩ := roundTrip_iff hdisk hm (fun _ _ _ => 0) nameA 2 (by decide) hcreate
  obtain ⟨disk₂, hcopied, hprint⟩ := hcopy (fun _ => some [7, 8]) nameA [7, 8] rfl rfl
  exact ⟨fs, disk, hchunks _ _ _ rfl fun _ => by decide, disk₂, hcopied, hprint _ _ (by decide)⟩

/-- After a request for one byte, a request for `INT_MAX` bytes ends after the last `int`. -/
theorem not_roundTrip : ¬ ∀ (fs : FileSystem) (disk disk₁ : Disk) (L : Layout) (freeMap : BitMap)
    (junk : Nat → Junk) (name : CString) (chunks : List Chunk) (numBytes : Nat → Int) (into : Bytes),
    OnDisk disk L freeMap → Mounted fs disk → (bytesOfChunks chunks).length ≤ maxFileSize →
    (∀ k, 0 < numBytes k ∧ numBytes k < 2 ^ 31) →
    fs.create disk (junk 0) name (bytesOfChunks chunks).length = .ok (true, disk₁) →
    RoundTrip fs disk junk name chunks numBytes into := by
  intro h
  obtain ⟨fs, disk, map, dir, freeMap, disk₁, hdisk, hm, hcreate⟩ := create_two
  have hpos (k : Nat) : 0 < (if k = 0 then 1 else intMax) ∧ (if k = 0 then 1 else intMax) < 2 ^ 31 := by
    unfold intMax
    split <;> decide
  have hr := h fs disk disk₁ _ freeMap (fun _ _ _ => 0) nameA [⟨fun _ => 7, 2⟩] _ (fun _ => 0) hdisk hm
    (by decide) hpos hcreate
  exact absurd (hr.sizesInRange hdisk hm (by decide) hpos 1 (by decide)) (by decide)

end Nachos.Filesys
