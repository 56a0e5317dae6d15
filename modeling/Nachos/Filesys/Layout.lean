import Nachos.Filesys.FileSystem
import Nachos.Framework.Ownership

/-!
# The layout of the disk

`OnDisk` says what the disk holds: the headers of the free map and of the
directory, in the directory a header for each file, and in the free map exactly
the sectors that belong to one of these.

* `format_spec`, `create_spec`, `openFile_spec`, `remove_spec`: what each
  operation does to the layout, and that it does not stop.
-/

namespace Nachos.Filesys

open Nachos.Framework

/-- A file of the directory: its name, the sector of its header, its data. -/
structure FileInfo where
  name : List (BitVec 8)
  header : Nat
  length : Nat
  sectors : List Nat

/-- The data sectors of the free map and of the directory, and the file of each
entry of the directory. -/
structure Layout where
  map : List Nat
  dir : List Nat
  files : Nat → Option FileInfo

namespace Layout

/-- The sectors of a file, its header first. -/
def fileSectors : Option FileInfo → List Nat
  | some f => f.header :: f.sectors
  | none => []

/-- Who holds which sectors: the free map, the directory, and the file of each entry. -/
def holds (L : Layout) : Nat → List Nat
  | 0 => freeMapSector :: L.map
  | 1 => directorySector :: L.dir
  | i + 2 => fileSectors (L.files i)

section
variable {L : Layout} {i x : Nat} {f : FileInfo} (hf : L.files i = some f)
include hf

theorem holds_file : L.holds (i + 2) = f.header :: f.sectors := by
  rw [holds, hf]
  rfl

theorem header_mem_holds : f.header ∈ L.holds (i + 2) := by
  rw [holds_file hf]
  exact List.mem_cons_self

theorem mem_holds_of_mem (hx : x ∈ f.sectors) : x ∈ L.holds (i + 2) := by
  rw [holds_file hf]
  exact List.mem_cons_of_mem _ hx

end

/-- The layout with another file, or none, at an entry. -/
def setFile (L : Layout) (i : Nat) (f : Option FileInfo) : Layout :=
  { L with files := Function.update L.files i f }

theorem files_setFile_self (L : Layout) (i : Nat) (f : Option FileInfo) : (L.setFile i f).files i = f := by
  unfold setFile
  exact Function.update_self i f L.files

theorem files_setFile_of_ne (L : Layout) {i j : Nat} (f : Option FileInfo) (hj : j ≠ i) :
    (L.setFile i f).files j = L.files j := by
  unfold setFile
  exact Function.update_of_ne hj f L.files

theorem files_setFile_cases {L : Layout} {i j : Nat} {f : Option FileInfo} {g : FileInfo}
    (h : (L.setFile i f).files j = some g) : (j = i ∧ f = some g) ∨ (j ≠ i ∧ L.files j = some g) := by
  by_cases hj : j = i
  · rw [hj, files_setFile_self] at h
    exact .inl ⟨hj, h⟩
  · rw [files_setFile_of_ne L f hj] at h
    exact .inr ⟨hj, h⟩

theorem holds_setFile (L : Layout) (i : Nat) (f : Option FileInfo) :
    (L.setFile i f).holds = Function.update L.holds (i + 2) (fileSectors f) := by
  funext j
  match j with
  | 0 => rw [Function.update_of_ne (by omega)]; rfl
  | 1 => rw [Function.update_of_ne (by omega)]; rfl
  | j + 2 =>
    by_cases hj : j = i
    · rw [hj, Function.update_self]
      exact congrArg fileSectors (L.files_setFile_self i f)
    · rw [Function.update_of_ne (by omega)]
      exact congrArg fileSectors (L.files_setFile_of_ne f hj)

variable {L : Layout} {used : Finset Nat} (h : Owned L.holds used)
include h

theorem freeMapSector_notMem : freeMapSector ∉ L.map ∧ freeMapSector ∉ L.dir := by
  refine ⟨(List.nodup_cons.mp (h.nodup 0)).1, fun hd => ?_⟩
  exact h.notMem_of_ne (i := 0) (j := 1) List.mem_cons_self (by decide) (List.mem_cons_of_mem _ hd)

theorem directorySector_notMem : directorySector ∉ L.map ∧ directorySector ∉ L.dir := by
  refine ⟨fun hm => ?_, (List.nodup_cons.mp (h.nodup 1)).1⟩
  exact h.notMem_of_ne (i := 1) (j := 0) List.mem_cons_self (by decide) (List.mem_cons_of_mem _ hm)

theorem notMem_map_of_mem_dir {s : Nat} (hs : s ∈ L.dir) : s ∉ L.map := by
  intro hm
  exact h.notMem_of_ne (i := 1) (j := 0) (List.mem_cons_of_mem _ hs) (by decide) (List.mem_cons_of_mem _ hm)

end Layout

/-- The disk has this layout, with `freeMap` for its free map. -/
structure OnDisk (disk : Disk) (L : Layout) (freeMap : BitMap) : Prop where
  mapHdr : IsFile (disk freeMapSector) freeMapFileSize L.map
  dirHdr : IsFile (disk directorySector) directoryFileSize L.dir
  fileHdr : ∀ i f, L.files i = some f → IsFile (disk f.header) f.length f.sectors
  mapData : HoldsMap disk L.map freeMap
  owned : Owned L.holds freeMap.marked
  dirData : ∀ i < numDirEntries, Directory.entry (fileByte disk L.dir) i =
    (L.files i).map fun f => (f.name, (f.header : Int))
  lt : ∀ i f, L.files i = some f → i < numDirEntries
  name_inj : ∀ i j f g, L.files i = some f → L.files j = some g → f.name = g.name → i = j

/-- The open files of the file system have the headers that are on the disk. -/
structure Mounted (fs : FileSystem) (disk : Disk) : Prop where
  freeMapFile : fs.freeMapFile.hdr = disk freeMapSector
  directoryFile : fs.directoryFile.hdr = disk directorySector

/-- Nothing in use has changed but the data of the free map and of the directory. -/
def SameFiles (L : Layout) (freeMap : BitMap) (disk disk' : Disk) : Prop :=
  ∀ s ∈ freeMap.marked, s ∉ L.map → s ∉ L.dir → disk' s = disk s

section
variable {disk disk' : Disk} {L : Layout} {freeMap : BitMap} (h : OnDisk disk L freeMap)
include h

theorem OnDisk.mem_marked {i s : Nat} (hs : s ∈ L.holds i) : s ∈ freeMap.marked :=
  (h.owned.mem_used s).mpr ⟨i, hs⟩

theorem OnDisk.lt_numSectors {i s : Nat} (hs : s ∈ L.holds i) : s < numSectors := by
  have := (BitMap.mem_marked.mp (h.mem_marked hs)).1
  rw [h.mapData.1] at this
  exact this

/-- Sectors of different holders are different. -/
theorem OnDisk.notMem_of_ne {i j s : Nat} (hs : s ∈ L.holds i) (hij : i ≠ j) : s ∉ L.holds j :=
  h.owned.notMem_of_ne hs hij

theorem OnDisk.notMem_sectors {f : FileInfo} {i : Nat} (hf : L.files i = some f) :
    f.header ∉ f.sectors := by
  have := h.owned.nodup (i + 2)
  rw [Layout.holds_file hf] at this
  exact (List.nodup_cons.mp this).1

/-- The data sectors of files with different names are different. -/
theorem OnDisk.notMem_of_name_ne {f g : FileInfo} {i j : Nat} (hf : L.files i = some f)
    (hg : L.files j = some g) (hne : g.name ≠ f.name) {x : Nat} (hx : x ∈ g.sectors) :
    x ∉ f.sectors := by
  intro hin
  have hij := h.owned.eq_of_mem (j + 2) (i + 2) x (Layout.mem_holds_of_mem hg hx)
    (Layout.mem_holds_of_mem hf hin)
  obtain rfl : j = i := by omega
  rw [hg] at hf
  cases hf
  exact hne rfl

theorem OnDisk.notMem_system {i s : Nat} (hs : s ∈ L.holds (i + 2)) : s ∉ L.map ∧ s ∉ L.dir :=
  ⟨fun hm => h.notMem_of_ne (j := 0) hs (by omega) (List.mem_cons_of_mem _ hm),
    fun hd => h.notMem_of_ne (j := 1) hs (by omega) (List.mem_cons_of_mem _ hd)⟩

theorem SameFiles.freeMapSector (hk : SameFiles L freeMap disk disk') :
    disk' Filesys.freeMapSector = disk Filesys.freeMapSector :=
  hk _ (h.mem_marked (i := 0) List.mem_cons_self) (Layout.freeMapSector_notMem h.owned).1
    (Layout.freeMapSector_notMem h.owned).2

theorem SameFiles.directorySector (hk : SameFiles L freeMap disk disk') :
    disk' Filesys.directorySector = disk Filesys.directorySector :=
  hk _ (h.mem_marked (i := 1) List.mem_cons_self) (Layout.directorySector_notMem h.owned).1
    (Layout.directorySector_notMem h.owned).2

theorem SameFiles.file (hk : SameFiles L freeMap disk disk') {i s : Nat}
    (hs : s ∈ L.holds (i + 2)) : disk' s = disk s :=
  hk s (h.mem_marked hs) (h.notMem_system hs).1 (h.notMem_system hs).2

theorem SameFiles.mounted (hk : SameFiles L freeMap disk disk') {fs : FileSystem}
    (hm : Mounted fs disk) : Mounted fs disk' :=
  ⟨by rw [hk.freeMapSector h]; exact hm.freeMapFile,
    by rw [hk.directorySector h]; exact hm.directoryFile⟩

/-- A disk with the same headers, free map and directory has the same layout. -/
theorem OnDisk.congr (hsys : ∀ s, s ∈ L.holds 0 ∨ s ∈ L.holds 1 → disk' s = disk s)
    (hhdr : ∀ i f, L.files i = some f → disk' f.header = disk f.header) :
    OnDisk disk' L freeMap := by
  have hmap : ∀ s ∈ L.map, disk' s = disk s := fun s hs => hsys s (.inl (List.mem_cons_of_mem _ hs))
  have hdir : ∀ s ∈ L.dir, disk' s = disk s := fun s hs => hsys s (.inr (List.mem_cons_of_mem _ hs))
  refine ⟨?_, ?_, fun i f hf => ?_, h.mapData.congr h.mapHdr hmap, h.owned, fun i hi => ?_, h.lt,
    h.name_inj⟩
  · rw [hsys _ (.inl List.mem_cons_self)]
    exact h.mapHdr
  · rw [hsys _ (.inr List.mem_cons_self)]
    exact h.dirHdr
  · rw [hhdr i f hf]
    exact h.fileHdr i f hf
  · rw [← h.dirData i hi, Directory.entry_fileByte_congr h.dirHdr hdir hi]

/-! ## Reading the directory and the free map -/

variable {fs : FileSystem} (hm : Mounted fs disk)
include hm

theorem isFile_freeMapFile : IsFile fs.freeMapFile.hdr freeMapFileSize L.map :=
  hm.freeMapFile ▸ h.mapHdr

theorem isFile_directoryFile : IsFile fs.directoryFile.hdr directoryFileSize L.dir :=
  hm.directoryFile ▸ h.dirHdr

theorem fetchFreeMap_eq (junk : Junk) : fs.fetchFreeMap disk junk = .ok freeMap :=
  fetchFrom_eq (isFile_freeMapFile h hm) h.mapData (BitMap.marked_new _ _).1 _

/-- The directory in memory has the entries of the layout, and finding a name in it
is finding the file. -/
theorem fetchDirectory_spec (junk : Junk) (name : CString) :
    ∃ directory : Directory, fs.fetchDirectory disk junk = .ok directory ∧
      (∀ i < numDirEntries, directory.entry i = (L.files i).map fun f => (f.name, (f.header : Int))) ∧
      ((∃ i f, L.files i = some f ∧ f.name = fileName name ∧ directory.findIndex name = some i ∧
        directory.find name = f.header) ∨
      (directory.findIndex name = none ∧ directory.find name = -1 ∧
        ∀ i f, L.files i = some f → f.name ≠ fileName name)) := by
  obtain ⟨directory, hfetch, hentry⟩ := Directory.fetchFrom_spec
    (isFile_directoryFile h hm) (Directory.new (junk 0)) disk (junk 1)
  have hentry' : ∀ i < numDirEntries,
      directory.entry i = (L.files i).map fun f => (f.name, (f.header : Int)) := fun i hi => by
    rw [hentry i hi, h.dirData i hi]
  refine ⟨directory, hfetch, hentry', ?_⟩
  rcases directory.findIndex_spec name with ⟨i, hi, hfind, he⟩ | ⟨hnone, hfind, hne⟩
  · rw [hentry' i hi, Option.map_eq_some_iff] at he
    obtain ⟨f, hf, he⟩ := he
    exact .inl ⟨i, f, hf, (Prod.mk.inj he).1, hfind, (Prod.mk.inj he).2.symm⟩
  · refine .inr ⟨hnone, hfind, fun i f hf heq => ?_⟩
    refine hne i (h.lt i f hf) f.header ?_
    rw [hentry' i (h.lt i f hf), hf, ← heq]
    rfl

end

/-! ## Writing them back -/

section
variable {disk : Disk} {L : Layout} {freeMap freeMap' : BitMap} {directory : Directory}

/-- The free map and the directory are written back, for a layout with another file
at an entry. -/
theorem OnDisk.setFile (h : OnDisk disk L freeMap) {i : Nat} {f : Option FileInfo}
    {disk' : Disk} (hi : i < numDirEntries)
    (howned : Owned (L.setFile i f).holds freeMap'.marked)
    (hsame : SameFiles L freeMap disk disk')
    (hmap : HoldsMap disk' L.map freeMap')
    (hdir : ∀ j < numDirEntries, Directory.entry (fileByte disk' L.dir) j =
      (Function.update L.files i f j).map fun f => (f.name, (f.header : Int)))
    (hhdr : ∀ g ∈ f, IsFile (disk' g.header) g.length g.sectors)
    (hname : ∀ g ∈ f, ∀ j k, L.files j = some k → k.name ≠ g.name) :
    OnDisk disk' (L.setFile i f) freeMap' := by
  refine ⟨?_, ?_, fun j g hg => ?_, hmap, howned, hdir, fun j g hg => ?_, fun j k g g' hg hg' heq => ?_⟩
  · rw [hsame.freeMapSector h]
    exact h.mapHdr
  · rw [hsame.directorySector h]
    exact h.dirHdr
  · rcases Layout.files_setFile_cases hg with ⟨-, hf⟩ | ⟨-, hg⟩
    · exact hhdr g hf
    · rw [hsame.file h (Layout.header_mem_holds hg)]
      exact h.fileHdr j g hg
  · rcases Layout.files_setFile_cases hg with ⟨hj, -⟩ | ⟨-, hg⟩
    · exact hj ▸ hi
    · exact h.lt j g hg
  · rcases Layout.files_setFile_cases hg with ⟨hj, hf⟩ | ⟨hj, hg⟩ <;>
      rcases Layout.files_setFile_cases hg' with ⟨hk, hf'⟩ | ⟨hk, hg'⟩
    · rw [hj, hk]
    · exact absurd heq.symm (hname g hf k g' hg')
    · exact absurd heq (hname g' hf' j g hg)
    · exact h.name_inj j k g g' hg hg' heq

variable {fs : FileSystem} (h : OnDisk disk L freeMap) (hm : Mounted fs disk)
include h hm

/-! ## The operations -/

/-- The writes at the end of `Create`, for a file that is new. -/
theorem create_writes {i : Nat} {directory' : Directory} {hdr : FileHeader} {f : FileInfo}
    (hname : ∀ j g, L.files j = some g → g.name ≠ f.name) (hi : i < numDirEntries)
    (hfree : L.files i = none) (hdir : ∀ j < numDirEntries, directory'.entry j =
      (Function.update L.files i (some f) j).map fun f => (f.name, (f.header : Int)))
    (hhdr : IsFile hdr f.length f.sectors) (halloc : Allocated freeMap freeMap' (f.header :: f.sectors))
    (junk₁ junk₂ : Bytes) :
    ∃ disk₁ disk₂ disk', hdr.writeBack disk f.header = .ok disk₁ ∧
      directory'.writeBack disk₁ fs.directoryFile junk₁ = .ok disk₂ ∧
      freeMap'.writeBack disk₂ fs.freeMapFile junk₂ = .ok disk' ∧
      OnDisk disk' (L.setFile i (some f)) freeMap' ∧ SameFiles L freeMap disk disk' := by
  have hheader := halloc.free f.header List.mem_cons_self
  have hnew : ∀ {k s}, s ∈ L.holds k → s ≠ f.header := fun {k s} hs heq =>
    hheader.2 (heq ▸ h.mem_marked hs)
  obtain ⟨disk₂, hwrite₂, hentries, hother₂⟩ := Directory.writeBack_spec
    (isFile_directoryFile h hm) directory' (Function.update disk f.header hdr) junk₁
  obtain ⟨disk', hwrite', hmap, hother'⟩ := writeBack_spec (b := freeMap')
    (isFile_freeMapFile h hm) disk₂ (halloc.numBits.trans h.mapData.1) junk₂
  have hsame : SameFiles L freeMap disk disk' := by
    intro s hs hsm hsd
    rw [hother' s hsm, hother₂ s hsd, Function.update_of_ne]
    exact fun heq => hheader.2 (heq ▸ hs)
  refine ⟨_, disk₂, disk', ?_, hwrite₂, hwrite', h.setFile hi ?_ hsame hmap (fun j hj => ?_) ?_ ?_, hsame⟩
  · exact writeSector_eq (by rw [← h.mapData.1]; exact hheader.1)
  · rw [Layout.holds_setFile, halloc.marked]
    exact h.owned.take (by rw [Layout.holds, hfree]; rfl) halloc.nodup fun r hr => (halloc.free r hr).2
  · rw [Directory.entry_fileByte_congr h.dirHdr (fun s hs => hother' s (Layout.notMem_map_of_mem_dir h.owned hs)) hj,
      hentries j hj, hdir j hj]
  · intro g hg
    cases hg
    rw [hother' _ fun hin => hnew (k := 0) (List.mem_cons_of_mem _ hin) rfl,
      hother₂ _ fun hin => hnew (k := 1) (List.mem_cons_of_mem _ hin) rfl, Function.update_self]
    exact hhdr
  · intro g hg
    cases hg
    exact hname

/-- `Create` fails for a name that is there, for want of an entry or for want of
sectors, and changes nothing; else the file is in a free entry. -/
theorem create_spec (junk : Junk) (name : CString) {size : Nat} (hsize : size ≤ maxFileSize) :
    (fs.create disk junk name size = .ok (false, disk) ∧
      ((∃ i f, L.files i = some f ∧ f.name = fileName name) ∨
        (∀ i < numDirEntries, L.files i ≠ none) ∨
        freeMap.numClear < 1 + divRoundUp size sectorSize)) ∨
    ∃ i f disk' freeMap', (∀ j g, L.files j = some g → g.name ≠ fileName name) ∧
      i < numDirEntries ∧ L.files i = none ∧ 1 + divRoundUp size sectorSize ≤ freeMap.numClear ∧
      f.name = fileName name ∧ f.length = size ∧ fs.create disk junk name size = .ok (true, disk') ∧
      OnDisk disk' (L.setFile i (some f)) freeMap' ∧ SameFiles L freeMap disk disk' := by
  obtain ⟨directory, hfetch, hentry, hlook⟩ := fetchDirectory_spec h hm junk name
  simp only [FileSystem.create, hfetch, fetchFreeMap_eq h hm junk, bind, Except.bind]
  rcases hlook with ⟨i, f, hf, hname, -, hfind⟩ | ⟨hnone, hfind, hname⟩
  · rw [hfind, if_pos (by omega)]
    exact .inl ⟨rfl, .inl ⟨i, f, hf, hname⟩⟩
  rw [hfind, if_neg (by decide)]
  rcases freeMap.find_spec with ⟨s, hs, hfree, -, hs'⟩ | ⟨hall, hs'⟩
  · rw [hs', if_neg (by omega)]
    have hs31 : s < 2 ^ 31 := by
      rw [h.mapData.1, numSectors] at hs
      omega
    have hclear := freeMap.numClear_add_card
    have hclear' := (freeMap.markBit s).numClear_add_card
    rw [freeMap.marked_markBit hs, Finset.card_insert_of_notMem hfree, BitMap.numBits_markBit] at hclear'
    rcases Directory.add_spec hnone hs31 with ⟨hadd, hfull⟩ | ⟨i, directory', hi, hempty, hadd, hnew, hold⟩
    · rw [hadd]
      refine .inl ⟨rfl, .inr (.inl fun i hi hnone => hfull i hi ?_)⟩
      rw [hentry i hi, hnone]
      rfl
    rw [hadd]
    rcases FileHeader.allocate_spec (junk 4) (show (freeMap.markBit s).numBits = numSectors from h.mapData.1)
      hsize with
      ⟨hroom, halloc⟩ | ⟨hdr, freeMap', sectors, hroom, halloc, hall, hfile⟩
    · exact .inl ⟨by simp only [halloc], .inr (.inr (by omega))⟩
    rw [hentry i hi, Option.map_eq_none_iff] at hempty
    have hdir : ∀ j < numDirEntries, directory'.entry j =
        (Function.update L.files i (some ⟨fileName name, s, size, sectors⟩) j).map
          fun f => (f.name, (f.header : Int)) := by
      intro j hj
      by_cases hji : j = i
      · rw [hji, hnew, Function.update_self]
        rfl
      · rw [hold j hji, hentry j hj, Function.update_of_ne hji]
    obtain ⟨disk₁, disk₂, disk', hwrite₁, hwrite₂, hwrite', hdisk, hsame⟩ :=
      create_writes h hm (f := ⟨fileName name, s, size, sectors⟩) hname hi hempty hdir hfile
        (.cons hs hfree hall) (junk 5) (junk 6)
    refine .inr ⟨i, _, disk', freeMap', hname, hi, hempty, by omega, rfl, rfl, ?_, hdisk, hsame⟩
    simp only [halloc, hwrite₁, hwrite₂, hwrite']
  · rw [hs']
    refine .inl ⟨rfl, .inr (.inr ?_)⟩
    have := freeMap.numClear_add_card
    rw [hall, Finset.card_range] at this
    omega

/-- `Open` gives the header of the file with the name, if there is one. -/
theorem openFile_spec (junk : Junk) (name : CString) :
    (∃ i f, L.files i = some f ∧ f.name = fileName name ∧
      fs.openFile disk junk name = .ok (some ⟨disk f.header, 0⟩)) ∨
    ((∀ i f, L.files i = some f → f.name ≠ fileName name) ∧
      fs.openFile disk junk name = .ok none) := by
  obtain ⟨directory, hfetch, -, hlook⟩ := fetchDirectory_spec h hm junk name
  simp only [FileSystem.openFile, hfetch, bind, Except.bind]
  rcases hlook with ⟨i, f, hf, hname, -, hfind⟩ | ⟨-, hfind, hname⟩
  · have hlt : f.header < numSectors := h.lt_numSectors (Layout.header_mem_holds hf)
    refine .inl ⟨i, f, hf, hname, ?_⟩
    rw [hfind, if_pos (by omega), OpenFile.new, FileHeader.fetchFrom, readSector_eq hlt]
    rfl
  · rw [hfind, if_neg (by decide)]
    exact .inr ⟨hname, rfl⟩

/-- `Remove` takes the file with the name out of the layout, if there is one. -/
theorem remove_spec (junk : Junk) (name : CString) :
    ((∀ i f, L.files i = some f → f.name ≠ fileName name) ∧
      fs.remove disk junk name = .ok (false, disk)) ∨
    ∃ i f disk' freeMap', L.files i = some f ∧ f.name = fileName name ∧
      fs.remove disk junk name = .ok (true, disk') ∧
      OnDisk disk' (L.setFile i none) freeMap' ∧ SameFiles L freeMap disk disk' := by
  obtain ⟨directory, hfetch, hentry, hlook⟩ := fetchDirectory_spec h hm junk name
  simp only [FileSystem.remove, hfetch, fetchFreeMap_eq h hm junk, bind, Except.bind]
  rcases hlook with ⟨i, f, hf, hname, hindex, hfind⟩ | ⟨-, hfind, hname⟩
  · have hlt : f.header < numSectors := h.lt_numSectors (Layout.header_mem_holds hf)
    obtain ⟨freeMap₁, hdealloc, hbits₁, hmarked₁⟩ := FileHeader.deallocate_spec (h.fileHdr i f hf)
      h.mapData.1 fun s hs => h.mem_marked (Layout.mem_holds_of_mem hf hs)
    have hlt₁ : f.header < freeMap₁.numBits := by rwa [hbits₁, h.mapData.1]
    obtain ⟨disk₁, hwrite₁, hmap₁, hother₁⟩ := writeBack_spec
      (b := freeMap₁.clearBit f.header) (isFile_freeMapFile h hm) disk
      (hbits₁.trans h.mapData.1) (junk 4)
    obtain ⟨disk', hwrite', hentries, hother'⟩ := Directory.writeBack_spec
      (isFile_directoryFile h hm) (directory.setInUse i false) disk₁ (junk 5)
    have hsame : SameFiles L freeMap disk disk' := fun s _ hsm hsd => by
      rw [hother' s hsd, hother₁ s hsm]
    have hmap' : HoldsMap disk' L.map (freeMap₁.clearBit f.header) :=
      hmap₁.congr h.mapHdr fun s hs => hother' s fun hd => Layout.notMem_map_of_mem_dir h.owned hd hs
    refine .inr ⟨i, f, disk', freeMap₁.clearBit f.header, hf, hname, ?_,
      h.setFile (h.lt i f hf) ?_ hsame hmap' (fun j hj => ?_) ?_ ?_, hsame⟩
    · rw [hfind, if_neg (by omega), FileHeader.fetchFrom, readSector_eq hlt]
      simp only [hdealloc, BitMap.clear_eq hlt₁, hwrite₁, Directory.remove, hindex, Option.map_some,
        Option.getD_some, hwrite']
    · have hmarked : (freeMap₁.clearBit f.header).marked =
          freeMap.marked \ (L.holds (i + 2)).toFinset := by
        rw [freeMap₁.marked_clearBit hlt₁, hmarked₁, Layout.holds_file hf, List.toFinset_cons,
          Finset.sdiff_insert]
      rw [Layout.holds_setFile, hmarked]
      exact h.owned.release (i + 2)
    · rw [hentries j hj]
      by_cases hji : j = i
      · rw [hji, Directory.entry_setInUse_false, Function.update_self]
        rfl
      · rw [Directory.entry_setInUse_of_ne false hji, hentry j hj, Function.update_of_ne hji]
    · exact fun g hg => absurd hg (by simp)
    · exact fun g hg => absurd hg (by simp)
  · rw [hfind, if_pos rfl]
    exact .inl ⟨hname, rfl⟩

end

/-! ## Formatting -/

theorem mount_eq (disk : Disk) :
    FileSystem.mount disk = .ok ⟨⟨disk freeMapSector, 0⟩, ⟨disk directorySector, 0⟩⟩ := by
  simp only [FileSystem.mount, OpenFile.new, FileHeader.fetchFrom,
    readSector_eq (s := freeMapSector) (by decide), readSector_eq (s := directorySector) (by decide),
    bind, Except.bind]

/-- The free map of a disk that is being formatted, before anything is allocated. -/
def initialMap (junk : Bytes) : BitMap :=
  ((FileSystem.newBitMap junk).markBit freeMapSector).markBit directorySector

theorem numBits_initialMap (junk : Bytes) : (initialMap junk).numBits = numSectors := by
  rw [initialMap, BitMap.numBits_markBit, BitMap.numBits_markBit, FileSystem.newBitMap]
  exact (BitMap.marked_new numSectors _).1

theorem initialMap_spec (junk : Bytes) :
    (do
      let freeMap ← (FileSystem.newBitMap junk).mark freeMapSector
      freeMap.mark directorySector) = .ok (initialMap junk) ∧
    (initialMap junk).marked = {directorySector, freeMapSector} := by
  have hnew := BitMap.marked_new numSectors fun i => wordAt junk (4 * i)
  have hlt : freeMapSector < (FileSystem.newBitMap junk).numBits := by
    rw [FileSystem.newBitMap, hnew.1]
    decide
  have hlt' : directorySector < ((FileSystem.newBitMap junk).markBit freeMapSector).numBits := by
    rw [BitMap.numBits_markBit, FileSystem.newBitMap, hnew.1]
    decide
  constructor
  · rw [BitMap.mark_eq hlt]
    simp only [bind, Except.bind]
    rw [BitMap.mark_eq hlt', initialMap]
  · rw [initialMap, BitMap.marked_markBit _ hlt', BitMap.marked_markBit _ hlt, FileSystem.newBitMap,
      hnew.2]
    rfl

theorem numClear_initialMap (junk : Bytes) : (initialMap junk).numClear = numSectors - 2 := by
  have := (initialMap junk).numClear_add_card
  rw [numBits_initialMap, (initialMap_spec junk).2, Finset.card_pair (by decide)] at this
  omega

/-- The first sectors belong to the free map and the directory. -/
theorem owned_initial {junk : Bytes} {freeMap₁ freeMap₂ : BitMap} {map dir : List Nat}
    (h₁ : Allocated (initialMap junk) freeMap₁ map) (h₂ : Allocated freeMap₁ freeMap₂ dir) :
    Owned (Layout.holds ⟨map, dir, fun _ => none⟩) freeMap₂.marked := by
  have hm := (initialMap_spec junk).2
  have hmap : ∀ s ∈ map, s ≠ freeMapSector ∧ s ≠ directorySector := by
    intro s hs
    have := (h₁.free s hs).2
    rw [hm] at this
    simp only [Finset.mem_insert, Finset.mem_singleton, not_or] at this
    exact ⟨this.2, this.1⟩
  have hdir : ∀ s ∈ dir, s ≠ freeMapSector ∧ s ≠ directorySector ∧ s ∉ map := by
    intro s hs
    have := (h₂.free s hs).2
    rw [h₁.marked, hm] at this
    simp only [Finset.mem_union, Finset.mem_insert, Finset.mem_singleton, List.mem_toFinset,
      not_or] at this
    exact ⟨this.1.2, this.1.1, this.2⟩
  have hnone : Owned (fun _ : Nat => ([] : List Nat)) ∅ := .empty fun _ => rfl
  have hnodup₀ : (freeMapSector :: map).Nodup :=
    List.nodup_cons.mpr ⟨fun hin => (hmap _ hin).1 rfl, h₁.nodup⟩
  have hnodup₁ : (directorySector :: dir).Nodup :=
    List.nodup_cons.mpr ⟨fun hin => (hdir _ hin).2.1 rfl, h₂.nodup⟩
  have hfirst := hnone.take (i := 0) rfl hnodup₀ (by simp)
  have hsecond := hfirst.take (i := 1) (Function.update_of_ne (by decide) _ _) hnodup₁ (by
      intro s hs
      simp only [Finset.empty_union, List.mem_toFinset, List.mem_cons, not_or]
      rcases List.mem_cons.mp hs with rfl | hs
      · exact ⟨by decide, fun hin => (hmap _ hin).2 rfl⟩
      · exact ⟨(hdir s hs).1, (hdir s hs).2.2⟩)
  convert hsecond using 1
  · funext i
    match i with
    | 0 => rw [Function.update_of_ne (by decide), Function.update_self]; rfl
    | 1 => rw [Function.update_self]; rfl
    | i + 2 => rw [Function.update_of_ne (by omega), Function.update_of_ne (by omega)]; rfl
  · rw [h₂.marked, h₁.marked, hm]
    ext s
    simp only [Finset.mem_union, Finset.mem_insert, Finset.mem_singleton, List.mem_toFinset,
      List.mem_cons, Finset.notMem_empty, false_or]
    tauto

theorem assertAllocate_spec (hdr : FileHeader) {freeMap : BitMap} (size : Nat)
    (hb : freeMap.numBits = numSectors) (hsize : size ≤ maxFileSize)
    (hroom : divRoundUp size sectorSize ≤ freeMap.numClear) :
    ∃ hdr' freeMap' sectors, FileSystem.assertAllocate hdr freeMap size = .ok (hdr', freeMap') ∧
      Allocated freeMap freeMap' sectors ∧ IsFile hdr' size sectors := by
  rcases FileHeader.allocate_spec hdr hb hsize with ⟨hfull, -⟩ |
    ⟨hdr', freeMap', sectors, -, halloc, hall, hfile⟩
  · omega
  · refine ⟨hdr', freeMap', sectors, ?_, hall, hfile⟩
    rw [FileSystem.assertAllocate, halloc]
    rfl

/-- A formatted disk has no files. -/
theorem format_spec (disk : Disk) (junk : Junk) :
    ∃ fs disk' map dir freeMap, FileSystem.format disk junk = .ok (fs, disk') ∧
      OnDisk disk' ⟨map, dir, fun _ => none⟩ freeMap ∧ Mounted fs disk' := by
  have hclear := numClear_initialMap (junk 0)
  have hbits := numBits_initialMap (junk 0)
  obtain ⟨mapHdr, freeMap₁, map, hassert₁, hall₁, hmapHdr⟩ := assertAllocate_spec (junk 2)
    freeMapFileSize hbits (by decide) (by rw [hclear]; decide)
  have hclear₁ : divRoundUp directoryFileSize sectorSize ≤ freeMap₁.numClear := by
    have h₀ := (initialMap (junk 0)).numClear_add_card
    have h₁ := freeMap₁.numClear_add_card
    have hcard : freeMap₁.marked.card ≤ (initialMap (junk 0)).marked.card + 1 := by
      rw [hall₁.marked]
      refine (Finset.card_union_le _ _).trans ?_
      have : map.toFinset.card ≤ 1 := (List.toFinset_card_le map).trans (by
        rw [hmapHdr.sectors_length]; decide)
      omega
    have hn : divRoundUp directoryFileSize sectorSize = 2 := by decide
    rw [hall₁.numBits] at h₁
    rw [hclear, numSectors] at h₀
    omega
  obtain ⟨dirHdr, freeMap₂, dir, hassert₂, hall₂, hdirHdr⟩ := assertAllocate_spec (junk 3)
    directoryFileSize (hall₁.numBits.trans hbits) (by decide) hclear₁
  have howned := owned_initial hall₁ hall₂
  have hbits₂ : freeMap₂.numBits = numSectors := by rw [hall₂.numBits, hall₁.numBits, hbits]
  obtain ⟨disk₁, hwrite₁, hmap, hother₁⟩ := writeBack_spec (b := freeMap₂)
    (show IsFile (OpenFile.mk mapHdr 0).hdr _ _ from hmapHdr)
    (Function.update (Function.update disk freeMapSector mapHdr) directorySector dirHdr) hbits₂ (junk 4)
  obtain ⟨disk', hwrite', hentries, hother'⟩ := Directory.writeBack_spec
    (show IsFile (OpenFile.mk dirHdr 0).hdr _ _ from hdirHdr)
    (Directory.new (junk 1)) disk₁ (junk 5)
  have hmapSector : disk' freeMapSector = mapHdr := by
    rw [hother' _ (Layout.freeMapSector_notMem howned).2,
      hother₁ _ (Layout.freeMapSector_notMem howned).1, Function.update_of_ne (by decide),
      Function.update_self]
  have hdirSector : disk' directorySector = dirHdr := by
    rw [hother' _ (Layout.directorySector_notMem howned).2,
      hother₁ _ (Layout.directorySector_notMem howned).1, Function.update_self]
  refine ⟨⟨⟨mapHdr, 0⟩, ⟨dirHdr, 0⟩⟩, disk', map, dir, freeMap₂, ?_, ⟨?_, ?_, ?_, ?_, howned, ?_, ?_, ?_⟩,
    hmapSector.symm, hdirSector.symm⟩
  · have hmount := mount_eq
      (Function.update (Function.update disk freeMapSector mapHdr) directorySector dirHdr)
    rw [Function.update_of_ne (by decide), Function.update_self, Function.update_self] at hmount
    rw [FileSystem.format, ← bind_assoc, (initialMap_spec (junk 0)).1]
    simp only [bind, Except.bind, hassert₁, hassert₂, FileHeader.writeBack,
      writeSector_eq (s := freeMapSector) (by decide), writeSector_eq (s := directorySector) (by decide),
      hmount, hwrite₁, hwrite']
  · rw [hmapSector]
    exact hmapHdr
  · rw [hdirSector]
    exact hdirHdr
  · exact fun i f hf => absurd hf (by simp)
  · exact hmap.congr hmapHdr fun s hs => hother' s fun hd => Layout.notMem_map_of_mem_dir howned hd hs
  · exact fun i hi => (hentries i hi).trans (Directory.entry_new (junk 1) hi)
  · exact fun i f hf => absurd hf (by simp)
  · exact fun i j f g hf => absurd hf (by simp)

end Nachos.Filesys
