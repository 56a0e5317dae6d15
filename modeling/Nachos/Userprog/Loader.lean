import Nachos.Userprog.Translation

/-!
# Loading a segment (userprog/addrspace.cc)

`AddrSpace::ReadFile` copies a segment in chunks: up to the end of the page as
long as a page or more is left, and then what is left, even where that crosses
into the next page. Only the first chunk can start inside a page.

* `Copied`: the memory when the first bytes of the segment are in place;
* `readFileLoop_copies`: the loop, if every chunk lies in consecutive bytes of
  main memory;
* `readFile_exact_iff`: the segment is loaded as it should, for every file, unless
  it is smaller than a page, crosses into a page, and that is not in the next frame.
-/

namespace Nachos

open Nachos.Framework

variable {table table' : List TranslationEntry} {virtAddr size n p : Nat}
  {buffer memory memory' : Bytes}

/-! ## Where consecutive addresses lead -/

/-- Different pages are in different frames. -/
def FramesDistinct (table : List TranslationEntry) : Prop :=
  ∀ (i j : Nat) (d e : TranslationEntry), table[i]? = some d → table[j]? = some e →
    d.valid = true → e.valid = true → d.physicalPage = e.physicalPage → i = j

theorem FramesDistinct.eq_of_physAddr (h : FramesDistinct table) {v w : Nat}
    (hv : physAddr table v = some p) (hw : physAddr table w = some p) : v = w := by
  obtain ⟨d, hd, hdv, hp⟩ := physAddr_eq_some.mp hv
  obtain ⟨e, he, hev, hp'⟩ := physAddr_eq_some.mp hw
  have hoff := Nat.mod_lt v (show 0 < pageSize by decide)
  have hoff' := Nat.mod_lt w (show 0 < pageSize by decide)
  have hframe : d.physicalPage.toNat = e.physicalPage.toNat := by
    rw [← frame_add_div (f := d.physicalPage.toNat) hoff, ← hp, hp', frame_add_div hoff']
  have hpage := h _ _ d e hd he hdv hev (BitVec.eq_of_toNat_eq hframe)
  rw [← Nat.div_add_mod v pageSize, ← Nat.div_add_mod w pageSize, hpage]
  rw [hframe] at hp
  omega

theorem framesDistinct_of_nodup (h : (frames table).Nodup) : FramesDistinct table := by
  intro i j d e hd he _ _ heq
  obtain ⟨hi, rfl⟩ := List.getElem?_eq_some_iff.mp hd
  obtain ⟨hj, rfl⟩ := List.getElem?_eq_some_iff.mp he
  have hi' : i < (frames table).length := by rwa [frames, List.length_map]
  have hj' : j < (frames table).length := by rwa [frames, List.length_map]
  have hinj : (frames table)[i] = (frames table)[j] ↔ i = j := h.getElem_inj_iff
  refine hinj.mp ?_
  simp only [frames, List.getElem_map]
  rw [heq]

theorem physAddr_ne_none {v : Nat} (hvalid : ∀ e ∈ table, e.valid = true)
    (h : v < table.length * pageSize) : physAddr table v ≠ none := by
  intro hnone
  have hpage : v / pageSize < table.length := Nat.div_lt_of_lt_mul (Nat.mul_comm _ _ ▸ h)
  have hfalse := physAddr_eq_none.mp hnone _ (List.getElem?_eq_getElem hpage)
  rw [hvalid _ (List.getElem_mem hpage)] at hfalse
  cases hfalse

/-- The page is followed by one in the next frame. -/
def Adjacent (table : List TranslationEntry) (page : Nat) : Prop :=
  ∃ d e, table[page]? = some d ∧ table[page + 1]? = some e ∧
    e.physicalPage.toNat = d.physicalPage.toNat + 1

theorem physAddr_add {v j : Nat} (hp : physAddr table v = some p)
    (hj : v % pageSize + j < pageSize) : physAddr table (v + j) = some (p + j) := by
  obtain ⟨e, he, hvalid, rfl⟩ := physAddr_eq_some.mp hp
  have hdiv : (v + j) / pageSize = v / pageSize := by
    unfold pageSize at *
    omega
  have hmod : (v + j) % pageSize = v % pageSize + j := by
    unfold pageSize at *
    omega
  exact physAddr_eq_some.mpr ⟨e, hdiv ▸ he, hvalid, by rw [hmod, Nat.add_assoc]⟩

/-- Over the end of the page, into the next frame. -/
theorem physAddr_add_of_adjacent {v j : Nat} (hp : physAddr table v = some p)
    (hadj : Adjacent table (v / pageSize)) (hj : j < pageSize)
    (hmapped : physAddr table (v + j) ≠ none) : physAddr table (v + j) = some (p + j) := by
  by_cases hin : v % pageSize + j < pageSize
  · exact physAddr_add hp hin
  · obtain ⟨d, e, hd, he, hnext⟩ := hadj
    obtain ⟨d', hd', -, rfl⟩ := physAddr_eq_some.mp hp
    obtain ⟨q, hq⟩ := Option.ne_none_iff_exists'.mp hmapped
    obtain ⟨e', he', -, rfl⟩ := physAddr_eq_some.mp hq
    have hdiv : (v + j) / pageSize = v / pageSize + 1 := by
      unfold pageSize at *
      omega
    rw [hd] at hd'
    rw [hdiv, he] at he'
    cases hd'
    cases he'
    rw [hq, hnext]
    congr 1
    unfold pageSize at *
    omega

/-! ## Chunks -/

/-- `readSize`, with `left` bytes left at `v`. -/
def chunk (v left : Nat) : Nat := if left < pageSize then left else pageSize - v % pageSize

theorem chunk_pos {v left : Nat} (h : 0 < left) : 0 < chunk v left := by
  have hoff := Nat.mod_lt v (show 0 < pageSize by decide)
  unfold chunk
  split <;> omega

theorem chunk_le (v left : Nat) : chunk v left ≤ left := by
  unfold chunk
  split <;> omega

theorem readSize_eq (v left : Nat) :
    (if (left : Int) < pageSize then (left : Int) else pageSize - Int.tmod v pageSize) =
      chunk v left := by
  have hoff := Nat.mod_lt v (show 0 < pageSize by decide)
  rw [← Int.ofNat_tmod]
  unfold chunk
  split <;> split <;> omega

/-- Behind a chunk there is nothing left or a page begins. -/
theorem chunk_aligned {v left : Nat} (h : chunk v left < left) :
    (v + chunk v left) % pageSize = 0 := by
  have hbig : ¬ left < pageSize := fun hlt => by
    rw [chunk, if_pos hlt] at h
    omega
  rw [chunk, if_neg hbig]
  unfold pageSize
  omega

/-! ## The loop -/

/-- The first `n` bytes from `virtAddr` on are those of the buffer, and all other
bytes are as in `memory`. -/
structure Copied (table : List TranslationEntry) (virtAddr n : Nat) (buffer memory memory' : Bytes) :
    Prop where
  bytes : ∀ i < n, ∀ p, physAddr table (virtAddr + i) = some p → memory' p = buffer i
  others : ∀ x, (∀ i < n, physAddr table (virtAddr + i) ≠ some x) → memory' x = memory x

theorem Copied.zero (table : List TranslationEntry) (virtAddr : Nat) (buffer memory : Bytes) :
    Copied table virtAddr 0 buffer memory memory :=
  ⟨fun i hi => absurd hi (Nat.not_lt_zero i), fun _ _ => rfl⟩

theorem Copied.extend {r : Nat} (h : Copied table virtAddr n buffer memory memory')
    (hd : FramesDistinct table) (hrun : ∀ j < r, physAddr table (virtAddr + n + j) = some (p + j)) :
    Copied table virtAddr (n + r) buffer memory
      (splice memory' p r fun j => buffer (n + j)) := by
  refine ⟨fun i hi q hq => ?_, fun x hx => ?_⟩
  · by_cases hin : i < n
    · rw [splice_apply_of_notMem, h.bytes i hin q hq]
      intro hmem
      have hqj : physAddr table (virtAddr + n + (q - p)) = some q := by
        rw [hrun _ (by omega), Nat.add_sub_cancel' hmem.1]
      have := hd.eq_of_physAddr hq hqj
      omega
    · obtain ⟨j, rfl⟩ := Nat.exists_eq_add_of_le (Nat.le_of_not_lt hin)
      rw [← Nat.add_assoc, hrun j (by omega)] at hq
      cases hq
      exact splice_apply_add (by omega)
  · rw [splice_apply_of_notMem, h.others x fun i hi => hx i (by omega)]
    intro hmem
    refine hx (n + (x - p)) (by omega) ?_
    rw [← Nat.add_assoc, hrun _ (by omega), Nat.add_sub_cancel' hmem.1]

/-- The loop, after `n` bytes: if the bytes of each chunk lead to consecutive bytes of main
memory, it copies the rest. -/
theorem readFileLoop_copies {numPages fuel : Nat} (hlen : table.length = numPages)
    (hr : InRange table) (hd : FramesDistinct table)
    (hmapped : ∀ i < size, physAddr table (virtAddr + i) ≠ none)
    (hchunk : ∀ n p, n = 0 ∨ (virtAddr + n) % pageSize = 0 →
      physAddr table (virtAddr + n) = some p → ∀ j < chunk (virtAddr + n) (size - n),
        physAddr table (virtAddr + n + j) = some (p + j))
    (hn : n ≤ size) (hfuel : size - n ≤ fuel)
    (halign : n < size → n = 0 ∨ (virtAddr + n) % pageSize = 0)
    (hmap : table'.map TranslationEntry.mapping = table.map TranslationEntry.mapping)
    (hc : Copied table virtAddr n buffer memory memory') :
    ∃ table₁ memory₁, readFileLoop buffer numPages fuel ↑(virtAddr + n) n ↑(size - n) table'
        memory' = .ok (size, table₁, memory₁) ∧
      Copied table virtAddr size buffer memory memory₁ := by
  induction fuel generalizing n table' memory' with
  | zero =>
    have hsize : n = size := by omega
    refine ⟨table', memory', ?_, hsize ▸ hc⟩
    rw [readFileLoop, if_neg (by omega), hsize]
  | succ fuel ih =>
    by_cases hleft : n < size
    · -- one round: the chunk starts at an address that translates
      obtain ⟨q, hq⟩ := Option.ne_none_iff_exists'.mp (hmapped n hleft)
      have hrun := hchunk n q (halign hleft) hq
      set c := chunk (virtAddr + n) (size - n) with hcdef
      have hpos : 0 < c := chunk_pos (by omega)
      have hle : c ≤ size - n := chunk_le _ _
      have hnext := hc.extend hd hrun
      have hlast : q + (c - 1) < memorySize := physAddr_lt hr (hrun (c - 1) (by omega))
      have hlen' : table'.length = numPages := by
        rw [← hlen]
        simpa using congrArg List.length hmap
      obtain ⟨t, ht, hmap'⟩ := translateAddr_of_some hlen' (inRange_congr hmap hr)
        ((physAddr_congr hmap _).trans hq)
      obtain ⟨table₁, memory₁, hloop, hcopied⟩ := ih (n := n + c) (by omega) (by omega)
        (fun hlt => .inr (by rw [← Nat.add_assoc]; exact chunk_aligned (by omega)))
        (hmap'.trans hmap) hnext
      refine ⟨table₁, memory₁, ?_, hcopied⟩
      rw [readFileLoop, if_pos (by omega), readSize_eq, ht, ← hloop, ok_bind]
      dsimp only
      rw [assert, if_pos (by omega), ok_bind, ← hcdef, if_neg (by omega),
        show (↑(virtAddr + n) + ↑c : Int) = ↑(virtAddr + (n + c)) by push_cast; omega,
        show (↑(size - n) - ↑c : Int) = ↑(size - (n + c)) by omega]
      rfl
    · have hsize : n = size := by omega
      refine ⟨table', memory', ?_, hsize ▸ hc⟩
      rw [readFileLoop, if_neg (by omega), hsize]

/-- A segment smaller than a page is one chunk. -/
theorem readFileLoop_of_lt {numPages : Nat} (buffer memory : Bytes) (hlen : table.length = numPages)
    (hr : InRange table) (hpos : 0 < size) (hlt : size < pageSize) (hp : physAddr table virtAddr = some p) :
    ∃ table', table'.map TranslationEntry.mapping = table.map TranslationEntry.mapping ∧
      readFileLoop buffer numPages size virtAddr 0 size table memory =
        if p + size ≤ memorySize then .ok (size, table', splice memory p size buffer)
        else .error .undefined := by
  obtain ⟨t, ht, hmap⟩ := translateAddr_of_some hlen hr hp
  refine ⟨t, hmap, ?_⟩
  obtain ⟨fuel, rfl⟩ := Nat.exists_eq_succ_of_ne_zero hpos.ne'
  rw [readFileLoop, if_pos (by omega), readSize_eq, ht, chunk, if_pos hlt, ok_bind]
  dsimp only
  rw [assert, if_pos (by omega), ok_bind, Int.sub_self, Int.toNat_natCast, Int.toNat_natCast, Nat.zero_add]
  by_cases hin : p + fuel.succ ≤ memorySize
  · rw [if_neg (by omega), if_pos hin]
    cases fuel with
    | zero => simp only [readFileLoop, Nat.zero_add]; rfl
    | succ fuel => simp only [readFileLoop, Nat.zero_add]; rfl
  · rw [if_pos (by omega), if_neg hin]

/-! ## The segment -/

/-- The segment lies in mapped pages; its addresses are `int`s. -/
structure SegmentMapped (table : List TranslationEntry) (virtAddr size : Nat) : Prop where
  int : virtAddr + size ≤ 2 ^ 31
  mapped : ∀ i < size, physAddr table (virtAddr + i) ≠ none

/-- `ReadFile` copies the segment, all of it, and nothing else. -/
def LoadsExactly (table : List TranslationEntry) (virtAddr size fileAddr : Nat)
    (file : List (BitVec 8)) (junk memory : Bytes) : Prop :=
  ∃ table' memory', readFile virtAddr file size fileAddr junk table.length table memory =
      .ok (size, table', memory') ∧
    (∀ i < size, ∃ p, physAddr table (virtAddr + i) = some p ∧
      file[fileAddr + i]? = some (memory' p)) ∧
    ∀ x, (∀ i < size, physAddr table (virtAddr + i) ≠ some x) → memory' x = memory x

theorem readFile_eq {file : List (BitVec 8)} {junk : Bytes} {fileAddr numPages : Nat} :
    readFile virtAddr file size fileAddr junk numPages table memory =
      readFileLoop (fun i => (file[fileAddr + i]?).getD (junk i)) numPages size virtAddr 0 size table
        memory := by
  simp [readFile, readAt, assert, bind, Except.bind]

/-- No chunk crosses into a page that is not in the next frame. -/
theorem chunk_consecutive (hm : SegmentMapped table virtAddr size)
    (hfit : pageSize ≤ size ∨ virtAddr % pageSize + size ≤ pageSize ∨
      Adjacent table (virtAddr / pageSize))
    (halign : n = 0 ∨ (virtAddr + n) % pageSize = 0) (hp : physAddr table (virtAddr + n) = some p) :
    ∀ j < chunk (virtAddr + n) (size - n), physAddr table (virtAddr + n + j) = some (p + j) := by
  intro j hj
  by_cases hin : (virtAddr + n) % pageSize + j < pageSize
  · exact physAddr_add hp hin
  -- only what is left over crosses a page, and only if it is all there is
  have hleft : size - n < pageSize := by
    by_contra hbig
    rw [chunk, if_neg hbig] at hj
    omega
  rw [chunk, if_pos hleft] at hj
  obtain rfl : n = 0 := by
    unfold pageSize at *
    omega
  rw [Nat.add_zero] at *
  have hadj : Adjacent table (virtAddr / pageSize) := by
    rcases hfit with h | h | h
    · omega
    · omega
    · exact h
  exact physAddr_add_of_adjacent hp hadj (by omega) (hm.mapped j (by omega))

/-- A segment of less than a page is written to one place: where it crosses into another page, that
is in the next frame. -/
theorem LoadsExactly.adjacent {fileAddr : Nat} (hr : InRange table) (hd : FramesDistinct table)
    (hsize : 0 < size) (hm : SegmentMapped table virtAddr size) (hlt : size < pageSize)
    (hcross : pageSize < virtAddr % pageSize + size)
    (h : LoadsExactly table virtAddr size fileAddr (List.replicate (fileAddr + size) 1) (fun _ => 0)
      fun _ => 0) : Adjacent table (virtAddr / pageSize) := by
  obtain ⟨t, m, hread, hbytes, -⟩ := h
  obtain ⟨p, hp⟩ := Option.ne_none_iff_exists'.mp (hm.mapped 0 hsize)
  rw [Nat.add_zero] at hp
  obtain ⟨t', -, hloop⟩ := readFileLoop_of_lt (fun i =>
    ((List.replicate (fileAddr + size) (1 : BitVec 8))[fileAddr + i]?).getD 0) (fun _ => 0)
    rfl hr hsize hlt hp
  rw [readFile_eq, hloop] at hread
  split at hread
  case isFalse => cases hread
  cases hread
  -- the last byte is written only if it is in the frame behind that of the first
  obtain ⟨q, hq, hlast⟩ := hbytes (size - 1) (by omega)
  rw [List.getElem?_replicate, if_pos (by omega), Option.some.injEq] at hlast
  have hin : p ≤ q ∧ q < p + size := by
    by_contra hout
    rw [splice_apply_of_notMem hout] at hlast
    cases hlast
  obtain ⟨d, hdp, hdv, rfl⟩ := physAddr_eq_some.mp hp
  obtain ⟨e, hep, hev, rfl⟩ := physAddr_eq_some.mp hq
  have hpage : (virtAddr + (size - 1)) / pageSize = virtAddr / pageSize + 1 := by
    unfold pageSize at *
    omega
  have hne : d.physicalPage.toNat ≠ e.physicalPage.toNat := fun heq => by
    have := hd _ _ d e hdp hep hdv hev (BitVec.eq_of_toNat_eq heq)
    omega
  refine ⟨d, e, hdp, hpage ▸ hep, ?_⟩
  unfold pageSize at *
  omega

theorem loadsExactly_of_fit {fileAddr : Nat} {file : List (BitVec 8)} (junk memory : Bytes)
    (hr : InRange table) (hd : FramesDistinct table) (hm : SegmentMapped table virtAddr size)
    (hfit : pageSize ≤ size ∨ virtAddr % pageSize + size ≤ pageSize ∨
      Adjacent table (virtAddr / pageSize)) (hfile : fileAddr + size ≤ file.length) :
    LoadsExactly table virtAddr size fileAddr file junk memory := by
  obtain ⟨table₁, memory₁, hloop, hcopied⟩ := readFileLoop_copies (n := 0) rfl hr hd hm.mapped
    (fun n p halign hp => chunk_consecutive hm hfit halign hp) (Nat.zero_le _) (Nat.le_refl _)
    (fun _ => .inl rfl) rfl
    (Copied.zero table virtAddr (fun i => (file[fileAddr + i]?).getD (junk i)) memory)
  refine ⟨table₁, memory₁, readFile_eq.trans hloop, fun i hi => ?_, hcopied.others⟩
  obtain ⟨p, hp⟩ := Option.ne_none_iff_exists'.mp (hm.mapped i hi)
  refine ⟨p, hp, ?_⟩
  rw [hcopied.bytes i hi p hp, List.getElem?_eq_getElem (by omega), Option.getD_some]

/-- Every file is loaded exactly if and only if the segment has a page or more, does not cross
into another page, or crosses into a page that is in the next frame. -/
theorem readFile_exact_iff (hr : InRange table) (hd : FramesDistinct table) (hsize : 0 < size)
    (hm : SegmentMapped table virtAddr size) (fileAddr : Nat) :
    (∀ file junk memory, fileAddr + size ≤ file.length →
        LoadsExactly table virtAddr size fileAddr file junk memory) ↔
      pageSize ≤ size ∨ virtAddr % pageSize + size ≤ pageSize ∨
        Adjacent table (virtAddr / pageSize) := by
  constructor
  · intro hall
    by_contra hbad
    simp only [not_or, Nat.not_le] at hbad
    obtain ⟨hlt, hcross, hnadj⟩ := hbad
    -- ones in the file, zeros in memory
    have hones := hall (List.replicate (fileAddr + size) 1) (fun _ => 0) (fun _ => 0)
      (by rw [List.length_replicate])
    exact hnadj (hones.adjacent hr hd hsize hm hlt hcross)
  · intro hfit file junk memory hfile
    exact loadsExactly_of_fit junk memory hr hd hm hfit hfile

/-- Two pages in frames that are not consecutive. -/
def gapTable : List TranslationEntry :=
  [⟨0, 0, true, false, false, false⟩, ⟨1, 2, true, false, false, false⟩]

theorem inRange_gapTable : InRange gapTable := by
  simp [InRange, gapTable, numPhysPages]

theorem framesDistinct_gapTable : FramesDistinct gapTable := framesDistinct_of_nodup (by decide)

theorem segmentMapped_gapTable (h : virtAddr + size ≤ 256) : SegmentMapped gapTable virtAddr size :=
  ⟨by omega, fun i hi => physAddr_ne_none (by decide) (show _ < 2 * 128 by omega)⟩

/-- 150 bytes from the middle of the first page on. -/
theorem readFile_exact_gapTable :
    LoadsExactly gapTable 100 150 0 (List.replicate 150 1) (fun _ => 0) (fun _ => 0) :=
  (readFile_exact_iff inRange_gapTable framesDistinct_gapTable (by decide)
    (segmentMapped_gapTable (by decide)) 0).mpr (.inl (by decide)) _ _ _ (by simp)

/-- Of 100 bytes, those that cross into the second page end up in the frame between. -/
theorem not_readFile_exact : ¬ ∀ table virtAddr size fileAddr file junk memory, InRange table →
    FramesDistinct table → 0 < size → SegmentMapped table virtAddr size →
    fileAddr + size ≤ file.length →
    LoadsExactly table virtAddr size fileAddr file junk memory := by
  intro hall
  obtain ⟨t, m, hread, hbytes, -⟩ := hall gapTable 100 100 0 (List.replicate 100 1) (fun _ => 0)
    (fun _ => 0) inRange_gapTable framesDistinct_gapTable (by decide)
    (segmentMapped_gapTable (by decide)) (by simp)
  obtain ⟨p, hp, hbyte⟩ := hbytes 99 (by decide)
  have hp' : physAddr gapTable 199 = some 327 := by decide
  rw [hp'] at hp
  cases hp
  have heval : (readFile 100 (List.replicate 100 1) 100 0 (fun _ => 0) 2 gapTable
      fun _ => 0).toOption.map (fun r => r.2.2 327) = some 0 := by decide +kernel
  rw [show readFile 100 (List.replicate 100 1) 100 0 (fun _ => 0) 2 gapTable
    (fun _ => 0) = .ok (100, t, m) from hread] at heval
  rw [show m 327 = 0 from Option.some.inj heval] at hbyte
  cases hbyte

end Nachos
