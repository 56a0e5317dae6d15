import Nachos.Filesys.Consistency

/-!
# Creating a file (filesys/filesys.cc)

`Create` can fail when it has already changed the directory and the free map that
it has in memory. Here it is in terms of the bytes on the disk: either nothing
changes, or all of a new file is there.

* `CanCreate`: when it succeeds;
* `Created`: what it does then;
* `create_exact`: for every consistent disk, it is one or the other.
-/

namespace Nachos.Filesys

open Nachos.Framework

/-- Sectors 0 and 1 are the headers of the free map and of the directory. -/
structure SystemFiles (disk : Disk) : Prop where
  map : IsFile (disk freeMapSector) freeMapFileSize (FileHeader.dataSectors (disk freeMapSector))
  dir : IsFile (disk directorySector) directoryFileSize (FileHeader.dataSectors (disk directorySector))

/-- The sectors that the free map does not mark. -/
def freeOn (disk : Disk) : Finset Nat := Finset.range numSectors \ freeMapOn disk

/-- No entry in use matches the name, there is an entry that is not in use, and there are
sectors for the header and the data. -/
structure CanCreate (disk : Disk) (name : CString) (size : Nat) : Prop where
  new : ∀ i < numDirEntries, (directoryOn disk).inUse i →
    strncmp fileNameMaxLen ((directoryOn disk).name i) name.bytes ≠ 0
  unused : ∃ i < numDirEntries, (directoryOn disk).inUse i = false
  sectors : 1 + divRoundUp size sectorSize ≤ (freeOn disk).card

/-- What was in use is as it was, but for the data of the free map and of the directory. -/
def Kept (disk disk' : Disk) : Prop :=
  ∀ r ∈ freeMapOn disk, r ∉ FileHeader.dataSectors (disk freeMapSector) →
    r ∉ FileHeader.dataSectors (disk directorySector) → disk' r = disk r

/-- Entry `i` has become that of a file whose header is in sector `s`. -/
structure Created (disk disk' : Disk) (name : CString) (size i s : Nat) : Prop where
  unused : i < numDirEntries ∧ (directoryOn disk).inUse i = false
  entry : (directoryOn disk').entry i = some (fileName name, (s : Int))
  others : ∀ j < numDirEntries, j ≠ i → (directoryOn disk').entry j = (directoryOn disk).entry j
  header : IsFile (disk' s) size (FileHeader.dataSectors (disk' s))
  free : ∀ r ∈ sectorsAt disk' s, r ∈ freeOn disk
  nodup : (sectorsAt disk' s).Nodup
  length : (sectorsAt disk' s).length = 1 + divRoundUp size sectorSize
  marked : freeMapOn disk' = freeMapOn disk ∪ (sectorsAt disk' s).toFinset
  kept : Kept disk disk'
  consistent : Consistent disk'

/-- A disk with a layout has these headers. -/
theorem OnDisk.systemFiles {disk : Disk} {L : Layout} {freeMap : BitMap} (h : OnDisk disk L freeMap) :
    SystemFiles disk := by
  refine ⟨?_, ?_⟩
  · rw [h.mapHdr.dataSectors_eq]
    exact h.mapHdr
  · rw [h.dirHdr.dataSectors_eq]
    exact h.dirHdr

/-! ## Entries of the directory -/

theorem Directory.entry_eq_some {directory : Directory} {i : Nat} {n : List (BitVec 8)} {s : Int} :
    directory.entry i = some (n, s) ↔ directory.inUse i = true ∧
      chars fileNameMaxLen (directory.name i) = n ∧ directory.sector i = s := by
  unfold Directory.entry
  cases directory.inUse i <;> simp

/-- Whether an entry in use matches a name. -/
theorem Directory.entry_ne_iff {directory : Directory} {name : CString} {i : Nat} :
    (∀ s, directory.entry i ≠ some (fileName name, s)) ↔
      (directory.inUse i → strncmp fileNameMaxLen (directory.name i) name.bytes ≠ 0) := by
  simp only [ne_eq, Directory.entry_eq_some, strncmp_eq_zero, CString.chars_bytes, fileName]
  constructor
  · exact fun h hu hn => h _ ⟨hu, hn, rfl⟩
  · exact fun h s hs => h hs.1 hs.2.1

/-- The sectors of an entry. -/
theorem sectorsOn_entry (disk : Disk) {i : Nat} (hi : i < numDirEntries) :
    sectorsOn disk (i + 2) = match (directoryOn disk).entry i with
      | some (_, s) => sectorsAt disk s.toNat
      | none => [] := by
  rw [sectorsOn, Directory.entry]
  by_cases h : (directoryOn disk).inUse i = true
  · rw [if_pos ⟨hi, h⟩, if_pos h]
  · rw [if_neg fun h' => h h'.2, if_neg h]

section
variable {disk : Disk} {fs : FileSystem} (hc : Consistent disk) (hsys : SystemFiles disk)
  (hm : Mounted fs disk)

include hc

theorem Consistent.mem_marked {i r : Nat} (hr : r ∈ sectorsOn disk i) : r ∈ freeMapOn disk :=
  (hc.owned.mem_used r).mpr ⟨i, hr⟩

/-- The sector of an entry in use is a number of a sector. -/
theorem Consistent.sector_nonneg {i : Nat} {n : List (BitVec 8)} {s : Int} (hi : i < numDirEntries)
    (h : (directoryOn disk).entry i = some (n, s)) : 0 ≤ s := by
  by_contra hneg
  have hin : freeMapSector ∈ sectorsOn disk (i + 2) := by
    rw [sectorsOn_entry disk hi, h]
    rw [show freeMapSector = s.toNat by unfold freeMapSector; omega]
    exact List.mem_cons_self
  exact hc.owned.notMem_of_ne (i := 0) List.mem_cons_self (by omega) hin

theorem Consistent.entry_inj {i j : Nat} {n : List (BitVec 8)} {s s' : Int} (hi : i < numDirEntries)
    (hj : j < numDirEntries) (h : (directoryOn disk).entry i = some (n, s))
    (h' : (directoryOn disk).entry j = some (n, s')) : i = j := by
  obtain ⟨hui, hni, -⟩ := Directory.entry_eq_some.mp h
  obtain ⟨huj, hnj, -⟩ := Directory.entry_eq_some.mp h'
  exact hc.names i hi j hj hui huj (strncmp_eq_zero.mpr (hni.trans hnj.symm))

theorem Consistent.notMem_map {r : Nat} (hr : r ∈ FileHeader.dataSectors (disk directorySector)) :
    r ∉ FileHeader.dataSectors (disk freeMapSector) := by
  intro hr'
  exact hc.owned.notMem_of_ne (i := 1) (j := 0) (List.mem_cons_of_mem _ hr) (by decide)
    (List.mem_cons_of_mem _ hr')

/-- The headers of the free map and of the directory are not data of these. -/
theorem Consistent.freeMapSector_notMem :
    freeMapSector ∉ FileHeader.dataSectors (disk freeMapSector) ∧
      freeMapSector ∉ FileHeader.dataSectors (disk directorySector) := by
  refine ⟨(List.nodup_cons.mp (hc.owned.nodup 0)).1, fun hr => ?_⟩
  exact hc.owned.notMem_of_ne (i := 0) (j := 1) List.mem_cons_self (by decide) (List.mem_cons_of_mem _ hr)

theorem Consistent.directorySector_notMem :
    directorySector ∉ FileHeader.dataSectors (disk freeMapSector) ∧
      directorySector ∉ FileHeader.dataSectors (disk directorySector) := by
  refine ⟨fun hr => ?_, (List.nodup_cons.mp (hc.owned.nodup 1)).1⟩
  exact hc.owned.notMem_of_ne (i := 1) (j := 0) List.mem_cons_self (by decide) (List.mem_cons_of_mem _ hr)

/-- Neither is a sector of a file. -/
theorem Consistent.file_notMem {i r : Nat} (hr : r ∈ sectorsOn disk (i + 2)) :
    r ∉ FileHeader.dataSectors (disk freeMapSector) ∧ r ∉ FileHeader.dataSectors (disk directorySector) := by
  refine ⟨fun hr' => ?_, fun hr' => ?_⟩
  · exact hc.owned.notMem_of_ne (j := 0) hr (by omega) (List.mem_cons_of_mem _ hr')
  · exact hc.owned.notMem_of_ne (j := 1) hr (by omega) (List.mem_cons_of_mem _ hr')

end

/-! ## The writes -/

section
variable {disk disk' : Disk} {fs : FileSystem} {name : CString} {size i s : Nat} {directory' : Directory}
  {hdr : FileHeader} {freeMap' : BitMap} {sectors : List Nat}

theorem isFile_directoryOn (hsys : SystemFiles disk) (hm : Mounted fs disk) :
    IsFile fs.directoryFile.hdr directoryFileSize (FileHeader.dataSectors (disk directorySector)) := by
  rw [hm.directoryFile]
  exact hsys.dir

theorem isFile_freeMapOn (hsys : SystemFiles disk) (hm : Mounted fs disk) :
    IsFile fs.freeMapFile.hdr freeMapFileSize (FileHeader.dataSectors (disk freeMapSector)) := by
  rw [hm.freeMapFile]
  exact hsys.map

theorem Kept.freeMapSector (hc : Consistent disk) (h : Kept disk disk') :
    disk' Filesys.freeMapSector = disk Filesys.freeMapSector :=
  h _ (hc.mem_marked (i := 0) List.mem_cons_self) hc.freeMapSector_notMem.1 hc.freeMapSector_notMem.2

theorem Kept.directorySector (hc : Consistent disk) (h : Kept disk disk') :
    disk' Filesys.directorySector = disk Filesys.directorySector :=
  h _ (hc.mem_marked (i := 1) List.mem_cons_self) hc.directorySector_notMem.1 hc.directorySector_notMem.2

theorem Kept.file (hc : Consistent disk) (h : Kept disk disk') {r : Nat} (hr : r ∈ sectorsOn disk (i + 2)) :
    disk' r = disk r :=
  h r (hc.mem_marked hr) (hc.file_notMem hr).1 (hc.file_notMem hr).2

/-- The three writes at the end of `Create`, with a header sector that is not marked. -/
theorem createWrites_spec (hc : Consistent disk) (hsys : SystemFiles disk) (hm : Mounted fs disk)
    (hs : s < numSectors) (hfree : s ∉ freeMapOn disk) (hbits : freeMap'.numBits = numSectors)
    (directory' : Directory) (hdr : FileHeader) (junk₁ junk₂ : Bytes) :
    ∃ disk₁ disk₂ disk', hdr.writeBack disk s = .ok disk₁ ∧
      directory'.writeBack disk₁ fs.directoryFile junk₁ = .ok disk₂ ∧
      freeMap'.writeBack disk₂ fs.freeMapFile junk₂ = .ok disk' ∧ Kept disk disk' ∧ disk' s = hdr ∧
      (∀ j < numDirEntries, (directoryOn disk').entry j = directory'.entry j) ∧
      freeMapOn disk' = freeMap'.marked := by
  obtain ⟨disk₂, hwrite₂, hentries, hother₂⟩ := Directory.writeBack_spec (isFile_directoryOn hsys hm)
    directory' (Function.update disk s hdr) junk₁
  obtain ⟨disk', hwrite', hmap, hother'⟩ := writeBack_spec (b := freeMap') (isFile_freeMapOn hsys hm) disk₂
    hbits junk₂
  have hkept : Kept disk disk' := by
    intro r hr hrm hrd
    rw [hother' r hrm, hother₂ r hrd, Function.update_of_ne]
    exact fun heq => hfree (heq ▸ hr)
  refine ⟨_, disk₂, disk', writeSector_eq hs, hwrite₂, hwrite', hkept, ?_, fun j hj => ?_, ?_⟩
  · rw [hother', hother₂, Function.update_self]
    · exact fun hin => hfree (hc.mem_marked (i := 1) (List.mem_cons_of_mem _ hin))
    · exact fun hin => hfree (hc.mem_marked (i := 0) (List.mem_cons_of_mem _ hin))
  · rw [directoryOn, hkept.directorySector hc, ← hentries j hj]
    exact Directory.entry_fileByte_congr hsys.dir (fun r hr => hother' r (hc.notMem_map hr)) hj
  · rw [freeMapOn, hkept.freeMapSector hc, hmap.ofBytes_eq]

/-- The sectors after `Create`: those of a new file, at an entry that had none. -/
theorem sectorsOn_created (hc : Consistent disk) (hi : i < numDirEntries)
    (hat : sectorsAt disk' s = s :: sectors) (hkept : Kept disk disk')
    (hnew : (directoryOn disk').entry i = some (fileName name, (s : Int)))
    (hold : ∀ j < numDirEntries, j ≠ i → (directoryOn disk').entry j = (directoryOn disk).entry j) :
    sectorsOn disk' = Function.update (sectorsOn disk) (i + 2) (s :: sectors) := by
  funext k
  match k with
  | 0 =>
    rw [Function.update_of_ne (by omega), sectorsOn, sectorsOn, sectorsAt, sectorsAt, hkept.freeMapSector hc]
  | 1 =>
    rw [Function.update_of_ne (by omega), sectorsOn, sectorsOn, sectorsAt, sectorsAt,
      hkept.directorySector hc]
  | j + 2 =>
    by_cases hji : j = i
    · rw [hji, Function.update_self, sectorsOn_entry disk' hi, hnew]
      exact hat
    rw [Function.update_of_ne (by omega)]
    by_cases hj : j < numDirEntries
    · rw [sectorsOn_entry disk' hj, hold j hj hji]
      have hsame : ∀ r ∈ sectorsOn disk (j + 2), disk' r = disk r := fun r hr => hkept.file hc hr
      rw [sectorsOn_entry disk hj] at hsame ⊢
      split
      · rename_i h
        rw [h] at hsame
        rw [sectorsAt, sectorsAt, hsame _ List.mem_cons_self]
      · rfl
    · rw [sectorsOn, sectorsOn, if_neg fun h => hj h.1, if_neg fun h => hj h.1]

/-- The names after `Create` are different, if the name is new. -/
theorem names_created (hc : Consistent disk)
    (hname : ∀ j < numDirEntries, ∀ s, (directoryOn disk).entry j ≠ some (fileName name, s))
    (hnew : (directoryOn disk').entry i = some (fileName name, (s : Int)))
    (hold : ∀ j < numDirEntries, j ≠ i → (directoryOn disk').entry j = (directoryOn disk).entry j)
    {a b : Nat} (ha : a < numDirEntries) (hb : b < numDirEntries) {n : List (BitVec 8)} {t u : Int}
    (hat : (directoryOn disk').entry a = some (n, t)) (hbu : (directoryOn disk').entry b = some (n, u)) :
    a = b := by
  by_cases hai : a = i
  · rw [hai, hnew] at hat
    cases hat
    by_contra hab
    rw [hold b hb fun hbi => hab (hai.trans hbi.symm)] at hbu
    exact hname b hb u hbu
  · rw [hold a ha hai] at hat
    by_cases hbi : b = i
    · rw [hbi, hnew] at hbu
      cases hbu
      exact absurd hat (hname a ha t)
    · rw [hold b hb hbi] at hbu
      exact hc.entry_inj ha hb hat hbu

/-- After them all of the file is there. -/
theorem created_of_writes (hc : Consistent disk) (hi : i < numDirEntries)
    (hunused : (directoryOn disk).entry i = none)
    (hname : ∀ j < numDirEntries, ∀ s, (directoryOn disk).entry j ≠ some (fileName name, s))
    (hfreed : ∀ r ∈ s :: sectors, r < numSectors ∧ r ∉ freeMapOn disk) (hnodup : (s :: sectors).Nodup)
    (hfile : IsFile (disk' s) size sectors) (hkept : Kept disk disk')
    (hnew : (directoryOn disk').entry i = some (fileName name, (s : Int)))
    (hold : ∀ j < numDirEntries, j ≠ i → (directoryOn disk').entry j = (directoryOn disk).entry j)
    (hmarked : freeMapOn disk' = freeMapOn disk ∪ (s :: sectors).toFinset) :
    Created disk disk' name size i s := by
  have hdata := hfile.dataSectors_eq
  have hat : sectorsAt disk' s = s :: sectors := by rw [sectorsAt, hdata]
  have hsectors := sectorsOn_created hc hi hat hkept hnew hold
  have hnone : sectorsOn disk (i + 2) = [] := by rw [sectorsOn_entry disk hi, hunused]
  refine ⟨⟨hi, Directory.entry_eq_none.mp hunused⟩, hnew, hold, ?_, ?_, ?_, ?_, ?_, hkept, ?_, ?_, ?_⟩
  · rw [hdata]
    exact hfile
  · rw [hat]
    intro r hr
    rw [freeOn, Finset.mem_sdiff, Finset.mem_range]
    exact hfreed r hr
  · rw [hat]
    exact hnodup
  · rw [hat, List.length_cons, hfile.sectors_length, Nat.add_comm]
  · rw [hat]
    exact hmarked
  · rw [hsectors, hmarked]
    exact hc.owned.take hnone hnodup fun r hr => (hfreed r hr).2
  · intro k r hr
    rw [hsectors] at hr
    by_cases hk : k = i + 2
    · rw [hk, Function.update_self] at hr
      exact (hfreed r hr).1
    · rw [Function.update_of_ne hk] at hr
      exact hc.lt k r hr
  · intro a ha b hb hua hub hcmp
    refine names_created hc hname hnew hold ha hb (Directory.entry_eq_some.mpr ⟨hua, rfl, rfl⟩)
      (Directory.entry_eq_some.mpr ⟨hub, ?_, rfl⟩)
    exact (strncmp_eq_zero.mp hcmp).symm

end

/-! ## The result -/

section
variable {disk : Disk} {fs : FileSystem} (hc : Consistent disk) (hsys : SystemFiles disk)
  (hm : Mounted fs disk)
include hsys hm

theorem fetchFreeMap_ofBytes (junk : Junk) : fs.fetchFreeMap disk junk =
    .ok (BitMap.ofBytes numSectors (fileByte disk (FileHeader.dataSectors (disk freeMapSector)))) := by
  rw [FileSystem.fetchFreeMap, FileSystem.newBitMap]
  exact fetchFrom_ofBytes (isFile_freeMapOn hsys hm) (BitMap.marked_new numSectors _).1 (junk 3)

omit hsys hm in
theorem card_freeOn (disk : Disk) : (freeOn disk).card =
    (BitMap.ofBytes numSectors (fileByte disk (FileHeader.dataSectors (disk freeMapSector)))).numClear := by
  have hcard := (BitMap.ofBytes numSectors (fileByte disk
    (FileHeader.dataSectors (disk freeMapSector)))).numClear_add_card
  rw [freeOn, Finset.card_sdiff_of_subset, Finset.card_range]
  · show numSectors - (freeMapOn disk).card = _
    change _ + (freeMapOn disk).card = numSectors at hcard
    omega
  · exact fun r hr => Finset.mem_range.mpr (BitMap.mem_marked.mp hr).1

include hc

/-- `Create` from the call of `Allocate` on. -/
def FileSystem.createData (fs : FileSystem) (disk : Disk) (junk : Junk) (directory : Directory)
    (sector : Int) (freeMap : BitMap) (initialSize : Int) : Except Stop (Bool × Disk) := do
  match ← FileHeader.allocate (junk 4) freeMap initialSize with
  | none => .ok (false, disk)
  | some (hdr, freeMap) =>
    let disk ← hdr.writeBack disk sector
    let disk ← directory.writeBack disk fs.directoryFile (junk 5)
    let disk ← freeMap.writeBack disk fs.freeMapFile (junk 6)
    .ok (true, disk)

/-- What `Create` has found before it calls `Allocate`: a free sector `s` for the header, and in the
directory an entry `i` for the new name. -/
structure Entered (disk : Disk) (name : CString) (freeMap : BitMap) (directory : Directory) (i s : Nat) :
    Prop where
  numBits : freeMap.numBits = numSectors
  marked : freeMap.marked = freeMapOn disk
  free : s < numSectors ∧ s ∉ freeMapOn disk
  lt : i < numDirEntries
  unused : (directoryOn disk).entry i = none
  entry : directory.entry i = some (fileName name, (s : Int))
  others : ∀ j < numDirEntries, j ≠ i → directory.entry j = (directoryOn disk).entry j
  new : ∀ j < numDirEntries, ∀ s, (directoryOn disk).entry j ≠ some (fileName name, s)

omit hsys hm hc in
/-- The clear bits that are left for the data. -/
theorem Entered.numClear {name : CString} {freeMap : BitMap} {directory : Directory} {i s : Nat}
    (h : Entered disk name freeMap directory i s) : (freeMap.markBit s).numClear + 1 = (freeOn disk).card := by
  have hs : s < freeMap.numBits := by
    rw [h.numBits]
    exact h.free.1
  have hcard := card_freeOn disk
  have hcount := (BitMap.ofBytes numSectors (fileByte disk
    (FileHeader.dataSectors (disk freeMapSector)))).numClear_add_card
  change _ + (freeMapOn disk).card = numSectors at hcount
  have hcount' := (freeMap.markBit s).numClear_add_card
  rw [freeMap.marked_markBit hs, h.marked, Finset.card_insert_of_notMem h.free.2, BitMap.numBits_markBit,
    h.numBits] at hcount'
  omega

omit hsys hm hc in
/-- Then the room is all that is missing. -/
theorem Entered.canCreate {name : CString} {freeMap : BitMap} {directory : Directory} {i s : Nat}
    (h : Entered disk name freeMap directory i s) (size : Nat) :
    CanCreate disk name size ↔ divRoundUp size sectorSize ≤ (freeMap.markBit s).numClear := by
  have hclear := h.numClear
  constructor
  · intro hcan
    have := hcan.sectors
    omega
  · intro hroom
    refine ⟨fun j hj => Directory.entry_ne_iff.mp (h.new j hj), ⟨i, h.lt, ?_⟩, by omega⟩
    exact Directory.entry_eq_none.mp h.unused

omit hc in
/-- `Create` with a name that is not there. -/
theorem create_new_reaches {directory : Directory} (junk : Junk) (name : CString) (initialSize : Int)
    (hfetch : fs.fetchDirectory disk junk = .ok directory)
    (hentry : ∀ i < numDirEntries, directory.entry i = (directoryOn disk).entry i)
    (hindex : directory.findIndex name = none) (hfind : directory.find name = -1)
    (hname : ∀ j < numDirEntries, ∀ s, (directoryOn disk).entry j ≠ some (fileName name, s)) :
    (fs.create disk junk name initialSize = .ok (false, disk) ∧ ∀ size, ¬ CanCreate disk name size) ∨
    ∃ freeMap directory' i s, Entered disk name freeMap directory' i s ∧
      fs.create disk junk name initialSize =
        fs.createData disk junk directory' s (freeMap.markBit s) initialSize := by
  have hclear := card_freeOn disk
  simp only [FileSystem.create, hfetch, fetchFreeMap_ofBytes hsys hm, ok_bind]
  rw [hfind, if_neg (by decide)]
  generalize hmap : BitMap.ofBytes numSectors (fileByte disk
    (FileHeader.dataSectors (disk freeMapSector))) = freeMap at *
  have hbits : freeMap.numBits = numSectors := by rw [← hmap]; rfl
  have hmarked : freeMap.marked = freeMapOn disk := by rw [← hmap]; rfl
  have hcount := freeMap.numClear_add_card
  rcases freeMap.find_spec with ⟨s, hs, hfree, -, hs'⟩ | ⟨hall, hs'⟩
  · rw [hs', if_neg (by omega)]
    have hs31 : s < 2 ^ 31 := by
      rw [hbits, numSectors] at hs
      omega
    rcases Directory.add_spec hindex hs31 with ⟨hadd, hfull⟩ | ⟨i, directory', hi, hempty, hadd, hnew, hold⟩
    · -- no entry
      rw [hadd]
      refine .inl ⟨rfl, fun size h => ?_⟩
      obtain ⟨i, hi, hunused⟩ := h.unused
      exact hfull i hi (by rw [hentry i hi]; exact Directory.entry_eq_none.mpr hunused)
    · rw [hadd]
      refine .inr ⟨freeMap, directory', i, s, ⟨hbits, hmarked, ⟨hbits ▸ hs, hmarked ▸ hfree⟩, hi, ?_, hnew,
        fun j hj hji => ?_, hname⟩, rfl⟩
      · rw [← hentry i hi]
        exact hempty
      · rw [hold j hji, hentry j hj]
  · -- no sector for the header
    rw [hs']
    refine .inl ⟨rfl, fun size h => ?_⟩
    have hsectors := h.sectors
    rw [hall, Finset.card_range] at hcount
    omega

/-- `Create` fails before it calls `Allocate`, whatever the size, or comes to this call. -/
theorem create_reaches (junk : Junk) (name : CString) (initialSize : Int) :
    (fs.create disk junk name initialSize = .ok (false, disk) ∧ ∀ size, ¬ CanCreate disk name size) ∨
    ∃ freeMap directory' i s, Entered disk name freeMap directory' i s ∧
      fs.create disk junk name initialSize =
        fs.createData disk junk directory' s (freeMap.markBit s) initialSize := by
  obtain ⟨directory, hfetch, hentry⟩ := Directory.fetchFrom_spec (isFile_directoryOn hsys hm)
    (Directory.new (junk 0)) disk (junk 1)
  have hfetch' : fs.fetchDirectory disk junk = .ok directory := hfetch
  rcases Directory.findIndex_spec directory name with ⟨i, hi, -, hfound⟩ | ⟨hindex, hfind, hnot⟩
  · -- the name is there
    rw [hentry i hi] at hfound
    have hpos := hc.sector_nonneg hi hfound
    simp only [FileSystem.create, hfetch', ok_bind]
    rw [if_pos (by omega)]
    exact .inl ⟨rfl, fun size h => Directory.entry_ne_iff.mpr (h.new i hi) _ hfound⟩
  · exact create_new_reaches hsys hm junk name initialSize hfetch' hentry hindex hfind
      fun j hj s => hentry j hj ▸ hnot j hj s

/-- `Create` fails and changes nothing, or succeeds and makes the whole of the file. -/
theorem create_cases (junk : Junk) (name : CString) {size : Nat} (hsize : size ≤ maxFileSize) :
    (fs.create disk junk name size = .ok (false, disk) ∧ ¬ CanCreate disk name size) ∨
    ∃ disk' i s, fs.create disk junk name size = .ok (true, disk') ∧ CanCreate disk name size ∧
      Created disk disk' name size i s := by
  rcases create_reaches hc hsys hm junk name size with ⟨hcreate, hnot⟩ |
    ⟨freeMap, directory', i, s, hen, hcreate⟩
  · exact .inl ⟨hcreate, hnot size⟩
  have hcan := hen.canCreate size
  rw [hcreate]
  simp only [FileSystem.createData]
  rcases FileHeader.allocate_spec (junk 4) (show (freeMap.markBit s).numBits = numSectors from hen.numBits)
    hsize with ⟨hroom, halloc⟩ | ⟨hdr, freeMap', sectors, hroom, halloc, hall, hfile⟩
  · -- no room for the data
    exact .inl ⟨by simp only [halloc, ok_bind], fun h => by have := hcan.mp h; omega⟩
  have hs : s < freeMap.numBits := by
    rw [hen.numBits]
    exact hen.free.1
  have hallocated : Allocated freeMap freeMap' (s :: sectors) := .cons hs (hen.marked ▸ hen.free.2) hall
  obtain ⟨disk₁, disk₂, disk', hwrite₁, hwrite₂, hwrite', hkept, hhdr, hentries, hmarked'⟩ :=
    createWrites_spec hc hsys hm hen.free.1 hen.free.2 (hallocated.numBits.trans hen.numBits) directory'
      hdr (junk 5) (junk 6)
  refine .inr ⟨disk', i, s, ?_, hcan.mpr hroom, ?_⟩
  · simp only [halloc, hwrite₁, hwrite₂, hwrite', ok_bind]
  · refine created_of_writes hc hen.lt hen.unused hen.new (fun r hr => ?_) hallocated.nodup (hhdr ▸ hfile)
      hkept ?_ (fun j hj hji => ?_) ?_
    · rw [← hen.numBits, ← hen.marked]
      exact hallocated.free r hr
    · rw [hentries i hen.lt, hen.entry]
    · rw [hentries j hj, hen.others j hj hji]
    · rw [hmarked', hallocated.marked, hen.marked]

/-- On every consistent disk `Create` returns; it returns TRUE exactly if it can create the file; then
all of the file is there, and else every sector is as it was. -/
theorem create_exact (junk : Junk) (name : CString) (size : Nat) (hsize : size ≤ maxFileSize) :
    ∃ success disk', fs.create disk junk name size = .ok (success, disk') ∧
      (success = true ↔ CanCreate disk name size) ∧ (success = false → disk' = disk) ∧
      (success = true → ∃ i s, Created disk disk' name size i s) := by
  rcases create_cases hc hsys hm junk name hsize with ⟨hcreate, hnot⟩ | ⟨disk', i, s, hcreate, hcan, hcreated⟩
  · exact ⟨false, disk, hcreate, iff_of_false (by decide) hnot, fun _ => rfl, fun h => by cases h⟩
  · exact ⟨true, disk', hcreate, iff_of_true rfl hcan, fun h => absurd h (by decide), fun _ => ⟨i, s, hcreated⟩⟩

end

/-- A file of 300 bytes on a formatted disk. -/
theorem create_exact_formatted : ∃ fs disk, FileSystem.format (fun _ _ => 0) (fun _ _ => 0) = .ok (fs, disk) ∧
    ∃ success disk', fs.create disk (fun _ _ => 0) nameA 300 = .ok (success, disk') ∧
      (success = true ↔ CanCreate disk nameA 300) ∧ (success = false → disk' = disk) ∧
      (success = true → ∃ i s, Created disk disk' nameA 300 i s) := by
  obtain ⟨fs, disk, map, dir, freeMap, hformat, hdisk, hm⟩ := format_spec (fun _ _ => 0) fun _ _ => 0
  exact ⟨fs, disk, hformat, create_exact hdisk.consistent hdisk.systemFiles hm (fun _ _ => 0) nameA 300 (by decide)⟩

end Nachos.Filesys
