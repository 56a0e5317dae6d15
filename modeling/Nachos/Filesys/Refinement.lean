import Mathlib.Algebra.BigOperators.Group.Finset.Basic
import Nachos.Filesys.Calls
import Nachos.Framework.Simulation

/-!
# The file system as a map from names to byte arrays

`FileMap` is what the file system is for: at most `numDirEntries` names, each
with an array of bytes of a fixed length, and a bound on their sizes together. It
knows nothing of sectors, headers and directories.

* `Refines`: the state of the file system represents a `FileMap`;
* `refines_step`: every call keeps this, and returns what the map returns;
* `refines_run`: so every call of every run returns what the map returns.
-/

namespace Nachos.Filesys

open Nachos.Framework

/-! ## The map -/

/-- A file: its length, and the bytes that have been written. -/
structure Contents where
  length : Nat
  byte : Nat → Option (BitVec 8)

namespace FileMap

/-- What a client holds: the name of the file, the position in it, and whether it has
been removed. -/
structure Handle where
  name : List (BitVec 8)
  position : Int
  removed : Bool

end FileMap

structure FileMap where
  names : Finset (List (BitVec 8))
  contents : List (BitVec 8) → Contents
  handles : List FileMap.Handle

namespace FileMap

/-- As `Filesys.Result`, with the bytes read only where they have been written. -/
inductive Result
  | flag (success : Bool)
  | handle (found : Bool)
  | written (numBytes : Int)
  | read (numBytes : Int) (bytes : Nat → Option (BitVec 8))
  | done

/-- The sectors that a file of this length takes, with its header. -/
def sectorsNeeded (length : Nat) : Nat := 1 + divRoundUp length sectorSize

/-- The sectors there are for files. -/
def capacity : Nat :=
  numSectors - sectorsNeeded freeMapFileSize - sectorsNeeded directoryFileSize

/-- The sectors that the files take. -/
def used (m : FileMap) : Nat := ∑ n ∈ m.names, sectorsNeeded (m.contents n).length

/-- The bytes `src` are written at `p`, `n` of them. -/
def write (c : Contents) (p n : Nat) (src : Bytes) : Contents :=
  { c with byte := fun q => if p ≤ q ∧ q < p + n then some (src (q - p)) else c.byte q }

/-- The bytes from `p` on. -/
def readFrom (c : Contents) (p : Nat) : Nat → Option (BitVec 8) := fun j => c.byte (p + j)

/-- No files, and nothing open. -/
def empty : FileMap := ⟨∅, fun _ => ⟨0, fun _ => none⟩, []⟩

/-- Reading at a position. -/
def readAt (m : FileMap) (h : Handle) (numBytes position : Int) : Nat × Result :=
  let n := count (m.contents h.name).length numBytes position.toNat
  (n, .read n (readFrom (m.contents h.name) position.toNat))

/-- Writing at a position. -/
def writeAt (m : FileMap) (h : Handle) (src : Bytes) (numBytes position : Int) : Nat × FileMap :=
  let n := count (m.contents h.name).length numBytes position.toNat
  let c := write (m.contents h.name) position.toNat n src
  (n, { m with contents := Function.update m.contents h.name c })

def setPosition (m : FileMap) (k : Nat) (h : Handle) (position : Int) : FileMap :=
  { m with handles := m.handles.set k { h with position := position } }

/-- What a call returns, and the map afterwards. -/
def step : Op → FileMap → Result × FileMap
  | .create name initialSize, m =>
    if name.chars ∈ m.names ∨ numDirEntries ≤ m.names.card ∨
        capacity < m.used + sectorsNeeded initialSize.toNat then (.flag false, m)
    else (.flag true, { m with
      names := insert name.chars m.names
      contents := Function.update m.contents name.chars ⟨initialSize.toNat, fun _ => none⟩ })
  | .remove name, m =>
    if name.chars ∈ m.names then (.flag true, { m with
      names := m.names.erase name.chars
      handles := m.handles.map fun h =>
        if h.name = name.chars then { h with removed := true } else h })
    else (.flag false, m)
  | .openFile name, m =>
    if name.chars ∈ m.names then
      (.handle true, { m with handles := m.handles ++ [⟨name.chars, 0, false⟩] })
    else (.handle false, m)
  | .readAt k _ numBytes position, m =>
    match m.handles[k]? with
    | some h => ((m.readAt h numBytes position).2, m)
    | none => (.done, m)
  | .writeAt k src numBytes position, m =>
    match m.handles[k]? with
    | some h =>
      let (n, m) := m.writeAt h src numBytes position
      (.written n, m)
    | none => (.done, m)
  | .seek k position, m =>
    match m.handles[k]? with
    | some h => (.done, m.setPosition k h position)
    | none => (.done, m)
  | .read k _ numBytes, m =>
    match m.handles[k]? with
    | some h =>
      let (n, r) := m.readAt h numBytes h.position
      (r, m.setPosition k h (h.position + n))
    | none => (.done, m)
  | .write k src numBytes, m =>
    match m.handles[k]? with
    | some h =>
      let (n, m) := m.writeAt h src numBytes h.position
      (.written n, m.setPosition k h (h.position + n))
    | none => (.done, m)
  | .remount, m => (.done, m)

/-- Names of at most nine characters, sizes that files can have, handles whose file
has not been removed, positions and sums that are not negative and fit an `int`. -/
def Valid : Op → FileMap → Prop
  | .create name initialSize, _ =>
    name.chars.length ≤ fileNameMaxLen ∧ 0 ≤ initialSize ∧ initialSize ≤ maxFileSize
  | .remove name, _ | .openFile name, _ => name.chars.length ≤ fileNameMaxLen
  | .readAt k _ numBytes position, m | .writeAt k _ numBytes position, m =>
    ∃ h ∈ m.handles[k]?, h.removed = false ∧ 0 ≤ position ∧ position < 2 ^ 31 ∧
      position + numBytes < 2 ^ 31
  | .seek k _, m => ∃ h ∈ m.handles[k]?, h.removed = false
  | .read k _ numBytes, m | .write k _ numBytes, m =>
    ∃ h ∈ m.handles[k]?, h.removed = false ∧ 0 ≤ h.position ∧ h.position < 2 ^ 31 ∧
      h.position + numBytes < 2 ^ 31
  | .remount, _ => True

instance : ∀ (op : Op) (m : FileMap), Decidable (Valid op m)
  | .create _ _, _ => inferInstanceAs (Decidable (_ ∧ _))
  | .remove _, _ | .openFile _, _ => inferInstanceAs (Decidable (_ ≤ _))
  | .readAt k _ _ _, m | .writeAt k _ _ _, m | .seek k _, m | .read k _ _, m | .write k _ _, m =>
    inferInstanceAs (Decidable (∃ h ∈ m.handles[k]?, _))
  | .remount, _ => inferInstanceAs (Decidable True)

end FileMap

/-! ## The file system represents a map -/

/-- The results are the same, and so is every byte read that was written. -/
def Agrees : Result → FileMap.Result → Prop
  | .flag b, .flag b' => b = b'
  | .handle b, .handle b' => b = b'
  | .written n, .written n' => n = n'
  | .read n into, .read n' bytes =>
    n = n' ∧ ∀ j : Nat, j < n → ∀ b, bytes j = some b → into j = b
  | .done, .done => True
  | _, _ => False

/-- A handle, as the map has it. -/
def Handle.abstract (h : Handle) : FileMap.Handle :=
  ⟨fileName h.name, h.file.seekPosition, h.removed⟩

/-- The files of the layout are those of the map. -/
structure Represents (disk : Disk) (L : Layout) (m : FileMap) : Prop where
  mem_names : ∀ n, n ∈ m.names ↔ ∃ i f, L.files i = some f ∧ f.name = n
  length : ∀ i f, L.files i = some f → (m.contents f.name).length = f.length
  byte : ∀ i f, L.files i = some f → ∀ q < f.length, ∀ b, (m.contents f.name).byte q = some b →
    fileByte disk f.sectors q = b

/-- The state of the file system represents the map. -/
def Refines (s : State) (m : FileMap) : Prop :=
  ∃ L freeMap, Inv s L freeMap ∧ Represents s.disk L m ∧ m.handles = s.handles.map Handle.abstract

/-! ## Counting names and sectors -/

section
variable {disk : Disk} {L : Layout} {freeMap : BitMap} {m : FileMap}

/-- The entries that are in use. -/
def Layout.inUse (L : Layout) : Finset Nat :=
  (Finset.range numDirEntries).filter fun i => (L.files i).isSome

/-- The name at an entry. -/
def Layout.nameAt (L : Layout) (i : Nat) : List (BitVec 8) :=
  ((L.files i).map FileInfo.name).getD []

theorem mem_inUse (h : OnDisk disk L freeMap) {i : Nat} : i ∈ L.inUse ↔ ∃ f, L.files i = some f := by
  rw [Layout.inUse, Finset.mem_filter, Finset.mem_range, Option.isSome_iff_exists]
  exact ⟨fun hi => hi.2, fun ⟨f, hf⟩ => ⟨h.lt i f hf, f, hf⟩⟩

theorem holds_of_notMem_inUse (h : OnDisk disk L freeMap) {i : Nat} (hi : i ∉ L.inUse) :
    L.holds (i + 2) = [] := by
  rw [mem_inUse h] at hi
  rw [Layout.holds, Option.eq_none_iff_forall_ne_some.mpr fun f hf => hi ⟨f, hf⟩]
  rfl

theorem nameAt_eq {i : Nat} {f : FileInfo} (hf : L.files i = some f) : L.nameAt i = f.name := by
  rw [Layout.nameAt, hf]
  rfl

theorem names_eq (h : OnDisk disk L freeMap) (hm : Represents disk L m) :
    m.names = L.inUse.image L.nameAt := by
  ext n
  rw [hm.mem_names, Finset.mem_image]
  constructor
  · rintro ⟨i, f, hf, hn⟩
    exact ⟨i, (mem_inUse h).mpr ⟨f, hf⟩, by rw [nameAt_eq hf, hn]⟩
  · rintro ⟨i, hi, hn⟩
    obtain ⟨f, hf⟩ := (mem_inUse h).mp hi
    exact ⟨i, f, hf, by rw [← nameAt_eq hf, hn]⟩

theorem nameAt_injOn (h : OnDisk disk L freeMap) : Set.InjOn L.nameAt L.inUse := by
  intro i hi j hj heq
  obtain ⟨f, hf⟩ := (mem_inUse h).mp hi
  obtain ⟨g, hg⟩ := (mem_inUse h).mp hj
  rw [nameAt_eq hf, nameAt_eq hg] at heq
  exact h.name_inj i j f g hf hg heq

/-- There are as many names as entries only if every entry is in use. -/
theorem card_names_iff (h : OnDisk disk L freeMap) (hm : Represents disk L m) :
    numDirEntries ≤ m.names.card ↔ ∀ i < numDirEntries, L.files i ≠ none := by
  rw [names_eq h hm, Finset.card_image_of_injOn (nameAt_injOn h)]
  constructor
  · intro hcard i hi hnone
    have hlt : L.inUse.card < (Finset.range numDirEntries).card := by
      refine Finset.card_lt_card (Finset.filter_ssubset.mpr ⟨i, Finset.mem_range.mpr hi, ?_⟩)
      rw [hnone]
      exact Bool.false_ne_true
    rw [Finset.card_range] at hlt
    omega
  · intro hall
    have heq : L.inUse = Finset.range numDirEntries :=
      Finset.filter_true_of_mem fun i hi =>
        Option.isSome_iff_ne_none.mpr (hall i (Finset.mem_range.mp hi))
    rw [heq, Finset.card_range]

/-- What the free map leaves is what the files leave of the capacity. -/
theorem numClear_add_used (h : OnDisk disk L freeMap) (hm : Represents disk L m) :
    freeMap.numClear + m.used = FileMap.capacity := by
  have hused : m.used = ∑ i ∈ L.inUse, (L.holds (i + 2)).length := by
    rw [FileMap.used, names_eq h hm, Finset.sum_image (nameAt_injOn h)]
    refine Finset.sum_congr rfl fun i hi => ?_
    obtain ⟨f, hf⟩ := (mem_inUse h).mp hi
    rw [nameAt_eq hf, hm.length i f hf, Layout.holds_file hf]
    exact Nat.add_comm _ _ |>.trans (congrArg (· + 1) (h.fileHdr i f hf).sectors_length.symm)
  have hall : ∑ i ∈ L.inUse, (L.holds (i + 2)).length =
      ∑ i ∈ Finset.range numDirEntries, (L.holds (i + 2)).length := by
    refine Finset.sum_subset (Finset.filter_subset _ _) fun i _ hi => ?_
    rw [holds_of_notMem_inUse h hi]
    rfl
  have hout : ∀ i, i ∉ Finset.range (numDirEntries + 2) → L.holds i = [] := by
    intro i hi
    rw [Finset.mem_range] at hi
    obtain ⟨j, rfl⟩ : ∃ j, i = j + 2 := ⟨i - 2, by omega⟩
    refine holds_of_notMem_inUse h fun hj => hi ?_
    obtain ⟨f, hf⟩ := (mem_inUse h).mp hj
    have := h.lt j f hf
    omega
  have hsum := h.owned.sum_length_eq hout
  rw [Finset.sum_range_succ', Finset.sum_range_succ', ← hall, ← hused] at hsum
  have hmap : (L.holds 0).length = 2 := congrArg (· + 1) h.mapHdr.sectors_length
  have hdir : (L.holds 1).length = 3 := congrArg (· + 1) h.dirHdr.sectors_length
  have hclear := freeMap.numClear_add_card
  rw [h.mapData.1, ← hsum, hmap, hdir] at hclear
  have hcap : FileMap.capacity + 5 = numSectors := by decide
  omega

end

/-! ## Files made, removed and written -/

section
variable {disk disk' : Disk} {L : Layout} {freeMap : BitMap} {m : FileMap} {i : Nat} {f : FileInfo}
  (h : OnDisk disk L freeMap) (hm : Represents disk L m)
include h hm

/-- A file keeps its bytes when nothing but the free map and the directory changes. -/
theorem Represents.byte_of_sameFiles (hsame : SameFiles L freeMap disk disk') {j q : Nat}
    {g : FileInfo} {b : BitVec 8} (hg : L.files j = some g) (hq : q < g.length)
    (hb : (m.contents g.name).byte q = some b) : fileByte disk' g.sectors q = b := by
  rw [fileByte_congr (fun x hx => hsame.file h (Layout.mem_holds_of_mem hg hx))
    ((h.fileHdr j g hg).div_lt hq)]
  exact hm.byte j g hg q hq b hb

theorem Represents.create (hsame : SameFiles L freeMap disk disk') (hfree : L.files i = none)
    (hne : ∀ j g, L.files j = some g → g.name ≠ f.name) :
    Represents disk' (L.setFile i (some f)) { m with
      names := insert f.name m.names
      contents := Function.update m.contents f.name ⟨f.length, fun _ => none⟩ } := by
  refine ⟨fun n => ?_, fun j g hg => ?_, fun j g hg q hq b hb => ?_⟩
  · rw [Finset.mem_insert, hm.mem_names]
    constructor
    · rintro (rfl | ⟨j, g, hg, hn⟩)
      · exact ⟨i, f, L.files_setFile_self i _, rfl⟩
      · refine ⟨j, g, ?_, hn⟩
        rw [L.files_setFile_of_ne _ fun hj => by rw [hj, hfree] at hg; cases hg]
        exact hg
    · rintro ⟨j, g, hg, hn⟩
      rcases Layout.files_setFile_cases hg with ⟨-, hf⟩ | ⟨-, hg⟩
      · cases hf
        exact .inl hn.symm
      · exact .inr ⟨j, g, hg, hn⟩
  · rcases Layout.files_setFile_cases hg with ⟨-, hf⟩ | ⟨-, hg⟩
    · cases hf
      simp only [Function.update_self]
    · simp only [Function.update_of_ne (hne j g hg)]
      exact hm.length j g hg
  · rcases Layout.files_setFile_cases hg with ⟨-, hf⟩ | ⟨-, hg⟩
    · cases hf
      simp only [Function.update_self] at hb
      cases hb
    · simp only [Function.update_of_ne (hne j g hg)] at hb
      exact hm.byte_of_sameFiles h hsame hg hq hb

theorem Represents.remove (hsame : SameFiles L freeMap disk disk') (hf : L.files i = some f)
    (handles : List FileMap.Handle) :
    Represents disk' (L.setFile i none) { m with
      names := m.names.erase f.name
      handles := handles } := by
  refine ⟨fun n => ?_, fun j g hg => ?_, fun j g hg q hq b hb => ?_⟩
  · rw [Finset.mem_erase, hm.mem_names]
    constructor
    · rintro ⟨hne, j, g, hg, rfl⟩
      refine ⟨j, g, ?_, rfl⟩
      rw [L.files_setFile_of_ne _ fun hj => hne (by rw [hj, hf] at hg; cases hg; rfl)]
      exact hg
    · rintro ⟨j, g, hg, hn⟩
      rcases Layout.files_setFile_cases hg with ⟨-, hnone⟩ | ⟨hj, hg⟩
      · cases hnone
      · exact ⟨fun heq => hj (h.name_inj j i g f hg hf (hn.trans heq)), j, g, hg, hn⟩
  · rcases Layout.files_setFile_cases hg with ⟨-, hnone⟩ | ⟨-, hg⟩
    · cases hnone
    · exact hm.length j g hg
  · rcases Layout.files_setFile_cases hg with ⟨-, hnone⟩ | ⟨-, hg⟩
    · cases hnone
    · exact hm.byte_of_sameFiles h hsame hg hq hb

/-- Writing to a file changes its bytes, and those of no other file. -/
theorem Represents.write (hf : L.files i = some f) {handle : FileMap.Handle}
    (hname : handle.name = f.name) {src : Bytes} {numBytes position : Int}
    (hother : ∀ x, x ∉ f.sectors → disk' x = disk x)
    (hbytes : ∀ q < f.length, fileByte disk' f.sectors q =
      if position.toNat ≤ q ∧ q < position.toNat + count f.length numBytes position.toNat then
        src (q - position.toNat)
      else fileByte disk f.sectors q) :
    Represents disk' L (m.writeAt handle src numBytes position).2 := by
  have hcontents : ∀ {j g}, L.files j = some g → g.name = f.name → g = f := by
    intro j g hg hgn
    obtain rfl := h.name_inj j i g f hg hf hgn
    rw [hg] at hf
    exact Option.some.inj hf
  refine ⟨hm.mem_names, fun j g hg => ?_, fun j g hg q hq b hb => ?_⟩
  · simp only [FileMap.writeAt, hname]
    by_cases hgn : g.name = f.name
    · rw [hgn, Function.update_self, ← hgn]
      exact hm.length j g hg
    · rw [Function.update_of_ne hgn]
      exact hm.length j g hg
  · simp only [FileMap.writeAt, hname] at hb
    by_cases hgn : g.name = f.name
    · obtain rfl := hcontents hg hgn
      rw [Function.update_self, FileMap.write, hm.length j g hg] at hb
      rw [hbytes q hq]
      simp only at hb
      split at hb
      · rename_i hin
        rw [if_pos hin]
        exact Option.some.inj hb
      · rename_i hout
        rw [if_neg hout]
        exact hm.byte j g hg q hq b hb
    · rw [Function.update_of_ne hgn] at hb
      rw [fileByte_congr (fun x hx => hother x (h.notMem_of_name_ne hf hg hgn hx))
        ((h.fileHdr j g hg).div_lt hq)]
      exact hm.byte j g hg q hq b hb

end

/-! ## Call by call -/

/-- The call returns what the map returns, and represents the map afterwards. -/
def Simulates (call : Op × Junk) (s : State) (m : FileMap) : Prop :=
  ∃ r t, step call s = .ok (r, t) ∧ Agrees r (FileMap.step call.1 m).1 ∧
    Refines t (FileMap.step call.1 m).2

theorem fileName_eq {name : CString} (h : name.chars.length ≤ fileNameMaxLen) :
    fileName name = name.chars := List.take_of_length_le h

/-- A handle's position is advanced by what is read or written. -/
theorem int32_position {length : Nat} {numBytes position : Int} (h₀ : 0 ≤ position)
    (hlt : position < 2 ^ 31) (hsum : position + numBytes < 2 ^ 31) :
    int32 (position + count length numBytes position.toNat) =
      position + count length numBytes position.toNat := by
  refine int32_eq (by omega) ?_
  unfold count
  split <;> omega

theorem abstract_markRemoved (name : CString) (handles : List Handle) :
    (markRemoved name handles).map Handle.abstract = (handles.map Handle.abstract).map fun h =>
      if h.name = fileName name then { h with removed := true } else h := by
  rw [markRemoved, List.map_map, List.map_map]
  refine List.map_congr_left fun handle _ => ?_
  by_cases hn : fileName handle.name = fileName name
  · simp [Handle.abstract, hn]
  · simp [Handle.abstract, hn]

section
variable {s : State} {L : Layout} {freeMap : BitMap} {m : FileMap} {k : Nat} {junk : Junk}
  {name : CString} {numBytes position : Int} {src : Bytes}
  (h : Inv s L freeMap) (hm : Represents s.disk L m)
  (hh : m.handles = s.handles.map Handle.abstract)
include h hm hh

theorem simulates_create {initialSize : Int} (hname : name.chars.length ≤ fileNameMaxLen)
    (hpos : 0 ≤ initialSize) (hmax : initialSize ≤ maxFileSize) :
    Simulates (.create name initialSize, junk) s m := by
  obtain ⟨size, rfl⟩ : ∃ size : Nat, initialSize = size := ⟨initialSize.toNat, by omega⟩
  have hclear := numClear_add_used h.onDisk hm
  have hfull := card_names_iff h.onDisk hm
  have hmem := hm.mem_names name.chars
  rw [← fileName_eq hname] at hmem
  rcases step_create h junk name size (by omega) with ⟨hstep, hwhy⟩ |
    ⟨i, f, disk', freeMap', hne, hi, hnone, hroom, hfn, hlen, hstep, hinv, hsame⟩
  · have hspec : FileMap.step (.create name size) m = (.flag false, m) := by
      refine if_pos ?_
      rw [← fileName_eq hname, hmem, hfull, Int.toNat_natCast, FileMap.sectorsNeeded]
      exact hwhy.imp id (Or.imp id fun h => by omega)
    simp only [Simulates, hspec]
    exact ⟨_, _, hstep, rfl, L, freeMap, h, hm, hh⟩
  · have hspec : FileMap.step (.create name size) m = (.flag true, { m with
        names := insert f.name m.names
        contents := Function.update m.contents f.name ⟨f.length, fun _ => none⟩ }) := by
      rw [hfn, hlen, fileName_eq hname]
      refine if_neg ?_
      rw [← fileName_eq hname, hmem, hfull, Int.toNat_natCast, FileMap.sectorsNeeded]
      rintro (⟨j, g, hg, hgn⟩ | hall | hbig)
      · exact hne j g hg hgn
      · exact hall i hi hnone
      · omega
    simp only [Simulates, hspec]
    exact ⟨_, _, hstep, rfl, _, freeMap', hinv, hm.create h.onDisk hsame hnone (hfn ▸ hne), hh⟩

theorem simulates_remove (hname : name.chars.length ≤ fileNameMaxLen) :
    Simulates (.remove name, junk) s m := by
  have hmem := hm.mem_names name.chars
  rw [← fileName_eq hname] at hmem
  rcases step_remove h junk name with ⟨hne, hstep⟩ |
    ⟨i, f, disk', freeMap', hf, hfn, hstep, hinv, hsame⟩
  · have hspec : FileMap.step (.remove name) m = (.flag false, m) := by
      refine if_neg ?_
      rw [← fileName_eq hname, hmem]
      exact fun ⟨i, f, hf, hfn⟩ => hne i f hf hfn
    simp only [Simulates, hspec]
    exact ⟨_, _, hstep, rfl, L, freeMap, h, hm, hh⟩
  · have hspec : FileMap.step (.remove name) m = (.flag true, { m with
        names := m.names.erase f.name
        handles := m.handles.map fun h =>
          if h.name = f.name then { h with removed := true } else h }) := by
      rw [hfn, fileName_eq hname]
      refine if_pos ?_
      rw [← fileName_eq hname, hmem]
      exact ⟨i, f, hf, hfn⟩
    simp only [Simulates, hspec]
    refine ⟨_, _, hstep, rfl, _, freeMap', hinv, hm.remove h.onDisk hsame hf _, ?_⟩
    rw [hh, hfn]
    exact (abstract_markRemoved name s.handles).symm

theorem simulates_openFile (hname : name.chars.length ≤ fileNameMaxLen) :
    Simulates (.openFile name, junk) s m := by
  have hmem := hm.mem_names name.chars
  rw [← fileName_eq hname] at hmem
  rcases step_openFile h junk name with ⟨i, f, hf, hfn, hstep, hinv⟩ | ⟨hne, hstep⟩
  · have hspec : FileMap.step (.openFile name) m = (.handle true, { m with
        handles := m.handles ++ [⟨fileName name, 0, false⟩] }) := by
      rw [fileName_eq hname]
      refine if_pos ?_
      rw [← fileName_eq hname, hmem]
      exact ⟨i, f, hf, hfn⟩
    simp only [Simulates, hspec]
    refine ⟨_, _, hstep, rfl, L, freeMap, hinv, ⟨hm.mem_names, hm.length, hm.byte⟩, ?_⟩
    rw [hh, List.map_append]
    rfl
  · have hspec : FileMap.step (.openFile name) m = (.handle false, m) := by
      refine if_neg ?_
      rw [← fileName_eq hname, hmem]
      exact fun ⟨i, f, hf, hfn⟩ => hne i f hf hfn
    simp only [Simulates, hspec]
    exact ⟨_, _, hstep, rfl, L, freeMap, h, hm, hh⟩

omit hm in
/-- The handle behind one of the map, and its file. -/
theorem handle_spec {handle' : FileMap.Handle} (hk : m.handles[k]? = some handle')
    (hlive : handle'.removed = false) :
    ∃ handle i f, s.handles[k]? = some handle ∧ handle' = handle.abstract ∧ L.files i = some f ∧
      handle'.name = f.name ∧ IsFile handle.file.hdr f.length f.sectors := by
  rw [hh, List.getElem?_map, Option.map_eq_some_iff] at hk
  obtain ⟨handle, hget, rfl⟩ := hk
  have hremoved : handle.removed = false := hlive
  have hs : s.live k = true := by
    rw [State.live, hget]
    simp only [hremoved, Bool.not_false]
  obtain ⟨handle', i, f, hget', -, hf, hfn, hfile⟩ := h.of_live hs
  rw [hget] at hget'
  cases hget'
  exact ⟨handle, i, f, hget, rfl, hf, hfn.symm, hfile⟩

omit h hm in
theorem setPosition_handles {handle : Handle} {position position' : Int} (heq : position = position') :
    (m.setPosition k handle.abstract position').handles =
      (s.handles.set k { handle with file := handle.file.seek position }).map Handle.abstract := by
  rw [FileMap.setPosition, hh, List.map_set, heq]
  rfl

omit h hh in
/-- The bytes that `ReadAt` puts into the buffer are those of the map. -/
theorem read_agrees {i : Nat} {f : FileInfo} (hf : L.files i = some f)
    {handle' : FileMap.Handle} (hname : handle'.name = f.name) (into : Bytes) :
    Agrees (.read (count f.length numBytes position.toNat) (splice into 0
      (count f.length numBytes position.toNat) fun j =>
        fileByte s.disk f.sectors (position.toNat + j))) (m.readAt handle' numBytes position).2 := by
  have hlen : (m.contents handle'.name).length = f.length := by rw [hname, hm.length i f hf]
  simp only [FileMap.readAt, hlen]
  refine ⟨rfl, fun j hj b hb => ?_⟩
  have hj' : j < count f.length numBytes position.toNat := by exact_mod_cast hj
  have hq : position.toNat + j < f.length := by
    unfold count at hj'
    split at hj' <;> omega
  rw [splice_apply_of_mem (Nat.zero_le j) (by omega), Nat.sub_zero]
  rw [FileMap.readFrom, hname] at hb
  exact hm.byte i f hf _ hq b hb

end

/-- Every call returns what the map returns. -/
theorem refines_step (call : Op × Junk) (s : State) (m : FileMap) (hr : Refines s m)
    (hv : FileMap.Valid call.1 m) : Simulates call s m := by
  obtain ⟨L, freeMap, h, hm, hh⟩ := hr
  obtain ⟨op, junk⟩ := call
  cases op with
  | create name initialSize => exact simulates_create h hm hh hv.1 hv.2.1 hv.2.2
  | remove name => exact simulates_remove h hm hh hv
  | openFile name => exact simulates_openFile h hm hh hv
  | remount =>
    obtain ⟨fs, hstep, hinv⟩ := step_remount h junk
    exact ⟨_, _, hstep, trivial, L, freeMap, hinv, hm, hh⟩
  | readAt k into numBytes position =>
    obtain ⟨handle', hk, hlive, h₀, -, hsum⟩ := hv
    obtain ⟨handle, i, f, hget, rfl, hf, hname, hfile⟩ := handle_spec h hh hk hlive
    have hstep := step_readAt junk into hget hfile (.inr (.inr ⟨h₀, hsum⟩))
    simp only [Simulates, FileMap.step, Option.mem_def.mp hk]
    exact ⟨_, _, hstep, read_agrees hm hf hname into, L, freeMap, h, hm, hh⟩
  | writeAt k src numBytes position =>
    obtain ⟨handle', hk, hlive, h₀, -, hsum⟩ := hv
    obtain ⟨handle, i, f, hget, rfl, hf, hname, hfile⟩ := handle_spec h hh hk hlive
    obtain ⟨disk', hstep, hinv, hother, hbytes⟩ := step_writeAt junk src h hget hf
      hfile (.inr (.inr ⟨h₀, hsum⟩))
    simp only [Simulates, FileMap.step, Option.mem_def.mp hk]
    refine ⟨_, _, hstep, ?_, L, freeMap, hinv, hm.write h.onDisk hf hname hother hbytes, hh⟩
    simp only [Agrees, FileMap.writeAt, hname, hm.length i f hf]
  | seek k position =>
    obtain ⟨handle', hk, hlive⟩ := hv
    obtain ⟨handle, i, f, hget, rfl, -⟩ := handle_spec h hh hk hlive
    obtain ⟨hstep, hinv⟩ := step_seek junk position h hget
    simp only [Simulates, FileMap.step, Option.mem_def.mp hk]
    exact ⟨_, _, hstep, trivial, L, freeMap, hinv, ⟨hm.mem_names, hm.length, hm.byte⟩,
      setPosition_handles hh rfl⟩
  | read k into numBytes =>
    obtain ⟨handle', hk, hlive, h₀, hlt, hsum⟩ := hv
    obtain ⟨handle, i, f, hget, rfl, hf, hname, hfile⟩ := handle_spec h hh hk hlive
    obtain ⟨hstep, hinv⟩ := step_read junk into h hget hfile
      (.inr (.inr ⟨h₀, hsum⟩))
    simp only [Simulates, FileMap.step, Option.mem_def.mp hk]
    refine ⟨_, _, hstep, read_agrees hm hf hname into, L, freeMap, hinv,
      ⟨hm.mem_names, hm.length, hm.byte⟩, setPosition_handles hh ?_⟩
    simp only [FileMap.readAt, hname, hm.length i f hf]
    exact int32_position h₀ hlt hsum
  | write k src numBytes =>
    obtain ⟨handle', hk, hlive, h₀, hlt, hsum⟩ := hv
    obtain ⟨handle, i, f, hget, rfl, hf, hname, hfile⟩ := handle_spec h hh hk hlive
    obtain ⟨disk', hstep, hinv, hother, hbytes⟩ := step_write junk src h hget hf
      hfile (.inr (.inr ⟨h₀, hsum⟩))
    have hm' := hm.write h.onDisk hf hname hother hbytes
    simp only [Simulates, FileMap.step, Option.mem_def.mp hk]
    refine ⟨_, _, hstep, ?_, L, freeMap, hinv, ⟨hm'.mem_names, hm'.length, hm'.byte⟩,
      setPosition_handles hh ?_⟩
    · simp only [Agrees, FileMap.writeAt, hname, hm.length i f hf]
      rfl
    · simp only [FileMap.writeAt, hname, hm.length i f hf]
      exact int32_position h₀ hlt hsum

/-! ## Runs -/

/-- What a write through the handle `k` is. -/
def IsWrite (op : Op) (s : State) (k : Nat) : Prop :=
  ∃ handle src numBytes position, s.handles[k]? = some handle ∧
    handle.file.InRange numBytes position ∧ (op = .writeAt k src numBytes position ∨
      op = .write k src numBytes ∧ position = handle.file.seekPosition)

/-- Writing to a file does not change what is read from another, whether or not it
was written before. -/
def WritesApart (s : State) : Prop :=
  ∀ k k' handle handle', s.handles[k]? = some handle → s.handles[k']? = some handle' →
    handle.removed = false → handle'.removed = false →
    fileName handle.name ≠ fileName handle'.name →
    ∀ op junk, IsWrite op s k → ∃ r t, step (op, junk) s = .ok (r, t) ∧
      ∀ into numBytes position junk', handle'.file.InRange numBytes position →
        ∃ r', step (.readAt k' into numBytes position, junk') s = .ok (r', s) ∧
          step (.readAt k' into numBytes position, junk') t = .ok (r', t)

theorem Inv.writesApart {s : State} {L : Layout} {freeMap : BitMap} (h : Inv s L freeMap) :
    WritesApart s := by
  intro k k' handle handle' hget hget' hlive hlive' hne op junk hop
  obtain ⟨i, f, hf, hfn, hhdr⟩ := h.handles handle (List.mem_of_getElem? hget) hlive
  obtain ⟨j, g, hg, hgn, hhdr'⟩ := h.handles handle' (List.mem_of_getElem? hget') hlive'
  have hfile : IsFile handle.file.hdr f.length f.sectors := hhdr ▸ h.onDisk.fileHdr i f hf
  have hfile' : IsFile handle'.file.hdr g.length g.sectors := hhdr' ▸ h.onDisk.fileHdr j g hg
  have hapart : ∀ x ∈ g.sectors, x ∉ f.sectors := fun x hx =>
    h.onDisk.notMem_of_name_ne hf hg (by rw [hfn, hgn]; exact hne.symm) hx
  have hkk : k ≠ k' := by
    rintro rfl
    rw [hget] at hget'
    cases hget'
    exact hne rfl
  -- the write leaves the other handle, and touches only the sectors of its own file
  have hw : ∃ r t, step (op, junk) s = .ok (r, t) ∧ t.handles[k']? = some handle' ∧
      ∀ x, x ∉ f.sectors → t.disk x = s.disk x := by
    obtain ⟨handle₁, src, numBytes, position, hget₁, hr, hop⟩ := hop
    rw [hget] at hget₁
    cases hget₁
    rcases hop with rfl | ⟨rfl, rfl⟩
    · obtain ⟨disk', hstep, -, hother, -⟩ := step_writeAt junk src h hget hf hfile hr
      exact ⟨_, _, hstep, hget', hother⟩
    · obtain ⟨disk', hstep, -, hother, -⟩ := step_write junk src h hget hf hfile hr
      exact ⟨_, _, hstep, by rw [List.getElem?_set_ne hkk]; exact hget', hother⟩
  obtain ⟨r, t, hstep, hgett, hother⟩ := hw
  refine ⟨r, t, hstep, fun into numBytes position junk' hr => ⟨_, step_readAt junk' into hget' hfile' hr, ?_⟩⟩
  rw [step_readAt junk' into hgett hfile' hr]
  refine congrArg (fun buf => Except.ok (Result.read _ buf, t)) (splice_congr fun q hq => ?_)
  refine fileByte_congr (fun x hx => hother x (hapart x hx)) (hfile'.div_lt ?_)
  unfold count at hq
  split at hq <;> omega

/-- The calls of every run return what the map returns; and writing to a file does not
change what is read from another. -/
theorem refines_run (disk : Disk) (junk : Junk) :
    ∃ s₀, start disk junk = .ok s₀ ∧ ∀ calls : List (Op × Junk),
      Along (fun call m => some (FileMap.step call.1 m).2) (fun call m => FileMap.Valid call.1 m)
        calls .empty →
      ∃ rs s, trace (fun call s => (step call s).toOption) calls s₀ = some (rs, s) ∧
        List.Forall₂ Agrees rs (results (fun call => FileMap.step call.1) calls .empty) ∧
        WritesApart s := by
  obtain ⟨s₀, map, dir, freeMap, hstart, hhandles, hinv⟩ := start_spec disk junk
  have hempty : Refines s₀ .empty := by
    refine ⟨_, freeMap, hinv, ⟨fun n => ?_, ?_, ?_⟩, by rw [hhandles]; rfl⟩
    · simp [FileMap.empty]
    · exact fun i f hf => absurd hf (by simp)
    · exact fun i f hf => absurd hf (by simp)
  have hsim : ∀ (call : Op × Junk) s m, Refines s m → FileMap.Valid call.1 m →
      ∃ r t, (step call s).toOption = some (r, t) ∧ Agrees r (FileMap.step call.1 m).1 ∧
        Refines t (FileMap.step call.1 m).2 := by
    intro call s m hr hv
    obtain ⟨r, t, hstep, hagree, hr'⟩ := refines_step call s m hr hv
    exact ⟨r, t, toOption_eq_some.mpr hstep, hagree, hr'⟩
  refine ⟨s₀, hstart, fun calls hvalid => ?_⟩
  obtain ⟨rs, s, m, htrace, hagree, L, freeMap, h, -⟩ := trace_simulates hsim hempty hvalid
  exact ⟨rs, s, htrace, hagree, h.writesApart⟩

/-- Two files are created and opened; one is written to and removed, the other read. -/
def twoFiles : List (Op × Junk) :=
  [(.create nameA 300, fun _ _ => 0), (.create ⟨[98], by decide⟩ 10, fun _ _ => 0),
    (.openFile nameA, fun _ _ => 0), (.openFile ⟨[98], by decide⟩, fun _ _ => 0),
    (.write 1 (fun _ => 5) 4, fun _ _ => 0), (.writeAt 0 (fun _ => 7) 20 120, fun _ _ => 0),
    (.remove nameA, fun _ _ => 0), (.seek 1 2, fun _ _ => 0),
    (.read 1 (fun _ => 0) 20, fun _ _ => 0)]

theorem refines_run_twoFiles : ∃ s₀ rs s, start (fun _ _ => 0) (fun _ _ => 0) = .ok s₀ ∧
    trace (fun call s => (step call s).toOption) twoFiles s₀ = some (rs, s) ∧
    List.Forall₂ Agrees rs (results (fun call => FileMap.step call.1) twoFiles .empty) := by
  obtain ⟨s₀, hstart, h⟩ := refines_run (fun _ _ => 0) fun _ _ => 0
  obtain ⟨rs, s, htrace, hagree, -⟩ := h twoFiles (by decide +kernel)
  exact ⟨s₀, rs, s, hstart, htrace, hagree⟩

end Nachos.Filesys
