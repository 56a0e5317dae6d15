import Nachos.Filesys.Layout

/-!
# The calls of the clients

`Inv` ties the disk, the mounted file system and the open files together: the
header in an `OpenFile` is the one on disk, as long as its file is not removed.
One lemma for each call says what it returns and what it leaves.

* `step_create`, `step_remove`, `step_openFile`, `step_remount`: the file system;
* `step_readAt`, `step_writeAt`, `step_seek`, `step_read`, `step_write`: open files.
-/

namespace Nachos.Filesys

open Nachos.Framework

/-- The disk has the layout, and what is open is what is on the disk. -/
structure Inv (s : State) (L : Layout) (freeMap : BitMap) : Prop where
  onDisk : OnDisk s.disk L freeMap
  mounted : Mounted s.fileSystem s.disk
  handles : ∀ h ∈ s.handles, h.removed = false →
    ∃ i f, L.files i = some f ∧ f.name = fileName h.name ∧ h.file.hdr = s.disk f.header

/-- The handle is there, and its file has not been removed. -/
def State.live (s : State) (k : Nat) : Bool :=
  match s.handles[k]? with
  | some h => !h.removed
  | none => false

section
variable {s : State} {L : Layout} {freeMap : BitMap} {k : Nat} {junk : Junk} {name : CString}

theorem start_spec (disk : Disk) (junk : Junk) :
    ∃ s map dir freeMap, start disk junk = .ok s ∧ s.handles = [] ∧
      Inv s ⟨map, dir, fun _ => none⟩ freeMap := by
  obtain ⟨fs, disk', map, dir, freeMap, hformat, hdisk, hm⟩ := format_spec disk junk
  refine ⟨⟨disk', fs, []⟩, map, dir, freeMap, ?_, rfl, hdisk, hm, fun h hin => absurd hin (by simp)⟩
  rw [start, hformat]
  rfl

/-- The handle, the file it is for, and that its header is the file's. -/
theorem Inv.of_live (h : Inv s L freeMap) (hk : s.live k = true) :
    ∃ handle i f, s.handles[k]? = some handle ∧ handle.removed = false ∧ L.files i = some f ∧
      f.name = fileName handle.name ∧ IsFile handle.file.hdr f.length f.sectors := by
  unfold State.live at hk
  split at hk
  · rename_i handle hget
    have hlive : handle.removed = false := by simpa using hk
    obtain ⟨i, f, hf, hname, hhdr⟩ := h.handles handle (List.mem_of_getElem? hget) hlive
    exact ⟨handle, i, f, hget, hlive, hf, hname, hhdr ▸ h.onDisk.fileHdr i f hf⟩
  · cases hk

/-- Other data sectors of a file do not matter to the rest. -/
theorem Inv.setDisk (h : Inv s L freeMap) {i : Nat} {f : FileInfo} (hf : L.files i = some f)
    {disk' : Disk} (hother : ∀ x, x ∉ f.sectors → disk' x = s.disk x) :
    Inv { s with disk := disk' } L freeMap := by
  have hsys : ∀ x, x ∈ L.holds 0 ∨ x ∈ L.holds 1 → disk' x = s.disk x := by
    intro x hx
    refine hother x fun hin => ?_
    rcases hx with hx | hx
    · exact h.onDisk.notMem_of_ne (Layout.mem_holds_of_mem hf hin) (by omega) hx
    · exact h.onDisk.notMem_of_ne (Layout.mem_holds_of_mem hf hin) (by omega) hx
  have hhdr : ∀ j g, L.files j = some g → disk' g.header = s.disk g.header := by
    intro j g hg
    refine hother _ fun hin => ?_
    have hj := h.onDisk.owned.eq_of_mem (i + 2) (j + 2) g.header (Layout.mem_holds_of_mem hf hin)
      (Layout.header_mem_holds hg)
    obtain rfl : i = j := by omega
    rw [hf] at hg
    cases hg
    exact h.onDisk.notMem_sectors hf hin
  refine ⟨h.onDisk.congr hsys hhdr, ⟨?_, ?_⟩, fun handle hin hlive => ?_⟩
  · rw [h.mounted.freeMapFile]
    exact (hsys _ (.inl List.mem_cons_self)).symm
  · rw [h.mounted.directoryFile]
    exact (hsys _ (.inr List.mem_cons_self)).symm
  · obtain ⟨j, g, hg, hname, hfile⟩ := h.handles handle hin hlive
    exact ⟨j, g, hg, hname, by rw [hfile]; exact (hhdr j g hg).symm⟩

/-- Neither does the position of a handle. -/
theorem Inv.setHandle (h : Inv s L freeMap) {handle : Handle} (hget : s.handles[k]? = some handle)
    (position : Int) :
    Inv { s with handles := s.handles.set k { handle with file := handle.file.seek position } }
      L freeMap := by
  refine ⟨h.onDisk, h.mounted, fun h' hin hlive => ?_⟩
  rcases List.mem_or_eq_of_mem_set hin with hin | rfl
  · exact h.handles h' hin hlive
  · exact h.handles handle (List.mem_of_getElem? hget) hlive

/-! ## The file system -/

/-- Changes to the free map and the directory do not matter to open files. -/
theorem Inv.sameFiles (h : Inv s L freeMap) {disk' : Disk} (hsame : SameFiles L freeMap s.disk disk')
    {handle : Handle} (hin : handle ∈ s.handles) (hlive : handle.removed = false) :
    ∃ i f, L.files i = some f ∧ f.name = fileName handle.name ∧ handle.file.hdr = disk' f.header := by
  obtain ⟨i, f, hf, hname, hhdr⟩ := h.handles handle hin hlive
  refine ⟨i, f, hf, hname, ?_⟩
  rw [hhdr, hsame.file h.onDisk (Layout.header_mem_holds hf)]

theorem step_create (h : Inv s L freeMap) (junk : Junk) (name : CString) (size : Nat)
    (hsize : size ≤ maxFileSize) :
    (step (.create name size, junk) s = .ok (.flag false, s) ∧
      ((∃ i f, L.files i = some f ∧ f.name = fileName name) ∨
        (∀ i < numDirEntries, L.files i ≠ none) ∨
        freeMap.numClear < 1 + divRoundUp size sectorSize)) ∨
    ∃ i f disk' freeMap', (∀ j g, L.files j = some g → g.name ≠ fileName name) ∧
      i < numDirEntries ∧ L.files i = none ∧ 1 + divRoundUp size sectorSize ≤ freeMap.numClear ∧
      f.name = fileName name ∧ f.length = size ∧
      step (.create name size, junk) s = .ok (.flag true, { s with disk := disk' }) ∧
      Inv { s with disk := disk' } (L.setFile i (some f)) freeMap' ∧
      SameFiles L freeMap s.disk disk' := by
  rcases create_spec h.onDisk h.mounted junk name hsize with ⟨hcreate, hwhy⟩ |
    ⟨i, f, disk', freeMap', hne, hi, hnone, hroom, hname, hlen, hcreate, hdisk, hsame⟩
  · exact .inl ⟨by rw [step, hcreate]; rfl, hwhy⟩
  · refine .inr ⟨i, f, disk', freeMap', hne, hi, hnone, hroom, hname, hlen, by rw [step, hcreate]; rfl,
      ⟨hdisk, hsame.mounted h.onDisk h.mounted, fun handle hin hlive => ?_⟩, hsame⟩
    obtain ⟨j, g, hg, hname, hhdr⟩ := h.sameFiles hsame hin hlive
    refine ⟨j, g, ?_, hname, hhdr⟩
    rw [L.files_setFile_of_ne _ fun hj => by rw [hj, hnone] at hg; cases hg]
    exact hg

theorem mem_markRemoved {handles : List Handle} {handle : Handle}
    (hin : handle ∈ markRemoved name handles) (hlive : handle.removed = false) :
    handle ∈ handles ∧ fileName handle.name ≠ fileName name := by
  rw [markRemoved, List.mem_map] at hin
  obtain ⟨handle', hin', heq⟩ := hin
  split at heq
  · rw [← heq] at hlive
    cases hlive
  · rename_i hne
    exact heq ▸ ⟨hin', hne⟩

theorem step_remove (h : Inv s L freeMap) (junk : Junk) (name : CString) :
    ((∀ i f, L.files i = some f → f.name ≠ fileName name) ∧
      step (.remove name, junk) s = .ok (.flag false, s)) ∨
    ∃ i f disk' freeMap', L.files i = some f ∧ f.name = fileName name ∧
      step (.remove name, junk) s =
        .ok (.flag true, { s with disk := disk', handles := markRemoved name s.handles }) ∧
      Inv { s with disk := disk', handles := markRemoved name s.handles } (L.setFile i none) freeMap' ∧
      SameFiles L freeMap s.disk disk' := by
  rcases remove_spec h.onDisk h.mounted junk name with ⟨hne, hremove⟩ |
    ⟨i, f, disk', freeMap', hf, hname, hremove, hdisk, hsame⟩
  · exact .inl ⟨hne, by rw [step, hremove]; rfl⟩
  · refine .inr ⟨i, f, disk', freeMap', hf, hname, by rw [step, hremove]; rfl,
      ⟨hdisk, hsame.mounted h.onDisk h.mounted, fun handle hin hlive => ?_⟩, hsame⟩
    obtain ⟨hin, hne⟩ := mem_markRemoved hin hlive
    obtain ⟨j, g, hg, hgname, hhdr⟩ := h.sameFiles hsame hin hlive
    refine ⟨j, g, ?_, hgname, hhdr⟩
    have hji : j ≠ i := by
      rintro rfl
      rw [hf] at hg
      cases hg
      exact hne (hgname ▸ hname)
    rw [L.files_setFile_of_ne _ hji]
    exact hg

theorem step_openFile (h : Inv s L freeMap) (junk : Junk) (name : CString) :
    (∃ i f, L.files i = some f ∧ f.name = fileName name ∧
      step (.openFile name, junk) s = .ok (.handle true, { s with
        handles := s.handles ++ [⟨⟨s.disk f.header, 0⟩, name, false⟩] }) ∧
      Inv { s with handles := s.handles ++ [⟨⟨s.disk f.header, 0⟩, name, false⟩] } L freeMap) ∨
    ((∀ i f, L.files i = some f → f.name ≠ fileName name) ∧
      step (.openFile name, junk) s = .ok (.handle false, s)) := by
  rcases openFile_spec h.onDisk h.mounted junk name with ⟨i, f, hf, hname, hopen⟩ | ⟨hne, hopen⟩
  · refine .inl ⟨i, f, hf, hname, by rw [step, hopen]; rfl, h.onDisk, h.mounted,
      fun handle hin hlive => ?_⟩
    rcases List.mem_append.mp hin with hin | hin
    · exact h.handles handle hin hlive
    · obtain rfl := List.mem_singleton.mp hin
      exact ⟨i, f, hf, hname, rfl⟩
  · exact .inr ⟨hne, by rw [step, hopen]; rfl⟩

theorem step_remount (h : Inv s L freeMap) (junk : Junk) :
    ∃ fs, step (.remount, junk) s = .ok (.done, { s with fileSystem := fs }) ∧
      Inv { s with fileSystem := fs } L freeMap := by
  refine ⟨⟨⟨s.disk freeMapSector, 0⟩, ⟨s.disk directorySector, 0⟩⟩, ?_, h.onDisk, ⟨rfl, rfl⟩, h.handles⟩
  rw [step, mount_eq]
  rfl

/-! ## Open files -/

variable {handle : Handle} {i : Nat} {f : FileInfo} {numBytes position : Int} {into src : Bytes}

theorem step_readAt (junk : Junk) (into : Bytes) (hget : s.handles[k]? = some handle)
    (hfile : IsFile handle.file.hdr f.length f.sectors) (hr : handle.file.InRange numBytes position) :
    step (.readAt k into numBytes position, junk) s =
      .ok (.read (count f.length numBytes position.toNat) (splice into 0
        (count f.length numBytes position.toNat) fun j =>
          fileByte s.disk f.sectors (position.toNat + j)), s) := by
  rw [step, hget]
  simp only [deref, bind, Except.bind]
  rw [OpenFile.readAt_of_inRange hfile hr]

theorem step_writeAt (junk : Junk) (src : Bytes) (h : Inv s L freeMap)
    (hget : s.handles[k]? = some handle) (hf : L.files i = some f) (hfile : IsFile handle.file.hdr f.length f.sectors)
    (hr : handle.file.InRange numBytes position) :
    ∃ disk', step (.writeAt k src numBytes position, junk) s =
        .ok (.written (count f.length numBytes position.toNat), { s with disk := disk' }) ∧
      Inv { s with disk := disk' } L freeMap ∧ (∀ x, x ∉ f.sectors → disk' x = s.disk x) ∧
      ∀ q < f.length, fileByte disk' f.sectors q =
        if position.toNat ≤ q ∧ q < position.toNat + count f.length numBytes position.toNat then
          src (q - position.toNat)
        else fileByte s.disk f.sectors q := by
  obtain ⟨disk', hwrite, htouched, hbytes⟩ := OpenFile.writeAt_of_inRange s.disk (junk 0) src hfile hr
  have hother : ∀ x, x ∉ f.sectors → disk' x = s.disk x := fun x hx =>
    htouched x fun h => hx (touched_subset h)
  refine ⟨disk', ?_, h.setDisk hf hother, hother, hbytes⟩
  rw [step, hget]
  simp only [deref, bind, Except.bind]
  rw [hwrite]

theorem step_seek (junk : Junk) (position : Int) (h : Inv s L freeMap)
    (hget : s.handles[k]? = some handle) :
    step (.seek k position, junk) s = .ok (.done, { s with
      handles := s.handles.set k { handle with file := handle.file.seek position } }) ∧
    Inv { s with handles := s.handles.set k { handle with file := handle.file.seek position } }
      L freeMap := by
  refine ⟨?_, h.setHandle hget position⟩
  rw [step, hget]
  rfl

theorem step_read (junk : Junk) (into : Bytes) (h : Inv s L freeMap)
    (hget : s.handles[k]? = some handle) (hfile : IsFile handle.file.hdr f.length f.sectors)
    (hr : handle.file.InRange numBytes handle.file.seekPosition) :
    let n := count f.length numBytes handle.file.seekPosition.toNat
    let s' := { s with handles := s.handles.set k { handle with
      file := handle.file.seek (int32 (handle.file.seekPosition + n)) } }
    step (.read k into numBytes, junk) s = .ok (.read n (splice into 0 n fun j =>
      fileByte s.disk f.sectors (handle.file.seekPosition.toNat + j)), s') ∧ Inv s' L freeMap := by
  intro n s'
  refine ⟨?_, h.setHandle hget _⟩
  rw [step, hget]
  simp only [deref, OpenFile.read, bind, Except.bind]
  rw [OpenFile.readAt_of_inRange hfile hr]
  rfl

theorem step_write (junk : Junk) (src : Bytes) (h : Inv s L freeMap)
    (hget : s.handles[k]? = some handle) (hf : L.files i = some f) (hfile : IsFile handle.file.hdr f.length f.sectors)
    (hr : handle.file.InRange numBytes handle.file.seekPosition) :
    let n := count f.length numBytes handle.file.seekPosition.toNat
    let handles' := s.handles.set k { handle with
      file := handle.file.seek (int32 (handle.file.seekPosition + n)) }
    ∃ disk', step (.write k src numBytes, junk) s =
        .ok (.written n, { s with disk := disk', handles := handles' }) ∧
      Inv { s with disk := disk', handles := handles' } L freeMap ∧
      (∀ x, x ∉ f.sectors → disk' x = s.disk x) ∧
      ∀ q < f.length, fileByte disk' f.sectors q =
        if handle.file.seekPosition.toNat ≤ q ∧ q < handle.file.seekPosition.toNat + n then
          src (q - handle.file.seekPosition.toNat)
        else fileByte s.disk f.sectors q := by
  intro n handles'
  obtain ⟨disk', hwrite, htouched, hbytes⟩ := OpenFile.writeAt_of_inRange s.disk (junk 0) src hfile hr
  have hother : ∀ x, x ∉ f.sectors → disk' x = s.disk x := fun x hx =>
    htouched x fun h => hx (touched_subset h)
  refine ⟨disk', ?_, (h.setDisk hf hother).setHandle hget _, hother, hbytes⟩
  rw [step, hget]
  simp only [deref, OpenFile.write, bind, Except.bind]
  rw [hwrite]
  rfl

end

/-- The file name "a". -/
def nameA : CString := ⟨[97], by decide⟩

end Nachos.Filesys
