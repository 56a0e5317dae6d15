import Nachos.Filesys.Calls

/-!
# Consistency of the disk

`Consistent` is a property of the bytes on the disk alone: the free map marks
exactly the sectors of the headers that can be reached from sectors 0 and 1, no
sector is used twice, and the names in the directory are different.

* `consistent_run`: from a formatted disk on, every call leaves the disk
  consistent, as long as the requests to write are `InRange`;
* `writeAt_before_start`: a request that is not replaces the header of the
  directory.
-/

namespace Nachos.Filesys

open Nachos.Framework

/-! ## What the disk holds -/

/-- The data sectors that a header lists. -/
def FileHeader.dataSectors (hdr : FileHeader) : List Nat :=
  (List.range (divRoundUp hdr.numBytes.toNat sectorSize)).map fun i =>
    (wordAt hdr (8 + 4 * i)).toInt.toNat

/-- The sectors that the free map on the disk marks. -/
def freeMapOn (disk : Disk) : Finset Nat :=
  (BitMap.ofBytes numSectors (fileByte disk (FileHeader.dataSectors (disk freeMapSector)))).marked

/-- The directory on the disk. -/
def directoryOn (disk : Disk) : Directory :=
  fileByte disk (FileHeader.dataSectors (disk directorySector))

/-- A header sector and the data sectors it lists. -/
def sectorsAt (disk : Disk) (sector : Nat) : List Nat :=
  sector :: FileHeader.dataSectors (disk sector)

/-- The sectors of the free map, of the directory, and of each entry in use. -/
def sectorsOn (disk : Disk) : Nat → List Nat
  | 0 => sectorsAt disk freeMapSector
  | 1 => sectorsAt disk directorySector
  | i + 2 =>
    if i < numDirEntries ∧ (directoryOn disk).inUse i then
      sectorsAt disk ((directoryOn disk).sector i).toNat
    else []

/-- The free map marks exactly the sectors of the files, which are different and on
the disk; names in use are different. -/
structure Consistent (disk : Disk) : Prop where
  owned : Owned (sectorsOn disk) (freeMapOn disk)
  lt : ∀ i, ∀ s ∈ sectorsOn disk i, s < numSectors
  names : ∀ i < numDirEntries, ∀ j < numDirEntries, (directoryOn disk).inUse i →
    (directoryOn disk).inUse j →
    strncmp fileNameMaxLen ((directoryOn disk).name i) ((directoryOn disk).name j) = 0 → i = j

theorem IsFile.dataSectors_eq {hdr : FileHeader} {length : Nat} {sectors : List Nat}
    (hf : IsFile hdr length sectors) : hdr.dataSectors = sectors := by
  refine List.ext_getElem ?_ fun i h₁ h₂ => ?_
  · rw [FileHeader.dataSectors, List.length_map, List.length_range, hf.numBytes, Int.toNat_natCast,
      hf.sectors_length]
  · have hi := hf.dataSector i _ (List.getElem?_eq_getElem h₂)
    rw [FileHeader.dataSector] at hi
    split at hi
    · rw [show ((8 : Int) + 4 * i).toNat = 8 + 4 * i by omega] at hi
      simp only [FileHeader.dataSectors, List.getElem_map, List.getElem_range, Except.ok.inj hi,
        Int.toNat_natCast]
    · cases hi

section
variable {disk : Disk} {L : Layout} {freeMap : BitMap} (h : OnDisk disk L freeMap)
include h

theorem OnDisk.freeMapOn_eq : freeMapOn disk = freeMap.marked := by
  rw [freeMapOn, h.mapHdr.dataSectors_eq, h.mapData.ofBytes_eq]

theorem OnDisk.entry_directoryOn {i : Nat} (hi : i < numDirEntries) :
    (directoryOn disk).entry i = (L.files i).map fun f => (f.name, (f.header : Int)) := by
  rw [directoryOn, h.dirHdr.dataSectors_eq]
  exact h.dirData i hi

/-- An entry in use is a file of the layout. -/
theorem OnDisk.file_of_inUse {i : Nat} (hi : i < numDirEntries) (hu : (directoryOn disk).inUse i) :
    ∃ f, L.files i = some f ∧ (directoryOn disk).sector i = f.header ∧
      chars fileNameMaxLen ((directoryOn disk).name i) = f.name := by
  have he := h.entry_directoryOn hi
  rw [Directory.entry, if_pos hu] at he
  obtain ⟨f, hf, heq⟩ := Option.map_eq_some_iff.mp he.symm
  exact ⟨f, hf, (Prod.mk.inj heq).2.symm, (Prod.mk.inj heq).1.symm⟩

theorem OnDisk.inUse_of_file {i : Nat} {f : FileInfo} (hf : L.files i = some f) :
    (directoryOn disk).inUse i = true := by
  have he := h.entry_directoryOn (h.lt i f hf)
  by_contra hu
  rw [Directory.entry, if_neg hu, hf] at he
  cases he

theorem OnDisk.sectorsOn_eq : sectorsOn disk = L.holds := by
  funext i
  match i with
  | 0 => rw [sectorsOn, sectorsAt, h.mapHdr.dataSectors_eq]; rfl
  | 1 => rw [sectorsOn, sectorsAt, h.dirHdr.dataSectors_eq]; rfl
  | i + 2 =>
    rw [sectorsOn, Layout.holds]
    by_cases hu : i < numDirEntries ∧ (directoryOn disk).inUse i = true
    · obtain ⟨f, hf, hs, -⟩ := h.file_of_inUse hu.1 hu.2
      rw [if_pos hu, hs, Int.toNat_natCast, sectorsAt, (h.fileHdr i f hf).dataSectors_eq, hf]
      rfl
    · rw [if_neg hu]
      cases hf : L.files i with
      | none => rfl
      | some f =>
        exact absurd ⟨h.lt i f hf, h.inUse_of_file hf⟩ hu

/-- A disk with a layout is consistent. -/
theorem OnDisk.consistent : Consistent disk := by
  refine ⟨?_, fun i s hs => ?_, fun i hi j hj hui huj hcmp => ?_⟩
  · rw [h.sectorsOn_eq, h.freeMapOn_eq]
    exact h.owned
  · rw [h.sectorsOn_eq] at hs
    exact h.lt_numSectors hs
  · obtain ⟨f, hf, -, hfn⟩ := h.file_of_inUse hi hui
    obtain ⟨g, hg, -, hgn⟩ := h.file_of_inUse hj huj
    refine h.name_inj i j f g hf hg ?_
    rw [← hfn, ← hgn, strncmp_eq_zero.mp hcmp]

end

/-! ## Runs -/

/-- The state after a call. -/
def next (call : Op × Junk) (s : State) : Option State := (step call s).toOption.map Prod.snd

/-- The size a call asks for. -/
def Op.size : Op → Option Int
  | .create _ initialSize => some initialSize
  | _ => none

/-- The handle that a call uses. -/
def Op.handle : Op → Option Nat
  | .readAt k _ _ _ | .writeAt k _ _ _ | .seek k _ | .read k _ _ | .write k _ _ => some k
  | _ => none

/-- Files are created with a size they can have, and handles are used while their
file is not removed. -/
def Allowed (call : Op × Junk) (s : State) : Prop :=
  (∀ size ∈ call.1.size, 0 ≤ size ∧ size ≤ maxFileSize) ∧ ∀ k ∈ call.1.handle, s.live k = true

instance (call : Op × Junk) (s : State) : Decidable (Allowed call s) :=
  inferInstanceAs (Decidable (_ ∧ _))

/-- What a call asks to read or write: the file, `numBytes` and `position`. -/
def request : Op → State → Option (OpenFile × Int × Int)
  | .readAt k _ numBytes position, s | .writeAt k _ numBytes position, s =>
    s.handles[k]?.map fun h => (h.file, numBytes, position)
  | .read k _ numBytes, s | .write k _ numBytes, s =>
    s.handles[k]?.map fun h => (h.file, numBytes, h.file.seekPosition)
  | _, _ => none

/-- What a call asks to read or write is `InRange`. -/
def RequestInRange (call : Op × Junk) (s : State) : Prop :=
  ∀ r ∈ request call.1 s, r.1.InRange r.2.1 r.2.2

instance (call : Op × Junk) (s : State) : Decidable (RequestInRange call s) :=
  inferInstanceAs (Decidable (∀ r ∈ request call.1 s, _))

/-- No call stops the run, and the disk keeps a layout. -/
theorem next_inv (call : Op × Junk) (s : State) (h : ∃ L freeMap, Inv s L freeMap)
    (hg : Allowed call s ∧ RequestInRange call s) :
    ∃ t, next call s = some t ∧ ∃ L freeMap, Inv t L freeMap := by
  obtain ⟨L, freeMap, h⟩ := h
  obtain ⟨⟨hsize, hlive⟩, hrange⟩ := hg
  obtain ⟨op, junk⟩ := call
  have hnext : ∀ {r t}, step (op, junk) s = .ok (r, t) → next (op, junk) s = some t := by
    intro r t ht
    rw [next, ht]
    rfl
  cases op with
  | create name initialSize =>
    obtain ⟨hpos, hmax⟩ := hsize initialSize rfl
    obtain ⟨size, rfl⟩ : ∃ size : Nat, initialSize = size := ⟨initialSize.toNat, by omega⟩
    rcases step_create h junk name size (by omega) with ⟨hstep, -⟩ |
      ⟨i, f, disk', freeMap', -, -, -, -, -, -, hstep, hinv, -⟩
    · exact ⟨s, hnext hstep, L, freeMap, h⟩
    · exact ⟨_, hnext hstep, _, _, hinv⟩
  | remove name =>
    rcases step_remove h junk name with ⟨-, hstep⟩ | ⟨i, f, disk', freeMap', -, -, hstep, hinv, -⟩
    · exact ⟨s, hnext hstep, L, freeMap, h⟩
    · exact ⟨_, hnext hstep, _, _, hinv⟩
  | openFile name =>
    rcases step_openFile h junk name with ⟨i, f, -, -, hstep, hinv⟩ | ⟨-, hstep⟩
    · exact ⟨_, hnext hstep, _, _, hinv⟩
    · exact ⟨s, hnext hstep, L, freeMap, h⟩
  | remount =>
    obtain ⟨fs, hstep, hinv⟩ := step_remount h junk
    exact ⟨_, hnext hstep, _, _, hinv⟩
  | readAt k into numBytes position =>
    obtain ⟨handle, i, f, hget, -, hf, -, hfile⟩ := h.of_live (hlive k rfl)
    have hr := hrange (handle.file, numBytes, position) (by simp [request, hget])
    exact ⟨s, hnext (step_readAt junk into hget hfile hr), L, freeMap, h⟩
  | writeAt k src numBytes position =>
    obtain ⟨handle, i, f, hget, -, hf, -, hfile⟩ := h.of_live (hlive k rfl)
    have hr := hrange (handle.file, numBytes, position) (by simp [request, hget])
    obtain ⟨disk', hstep, hinv, -⟩ := step_writeAt junk src h hget hf hfile hr
    exact ⟨_, hnext hstep, _, _, hinv⟩
  | seek k position =>
    obtain ⟨handle, i, f, hget, -⟩ := h.of_live (hlive k rfl)
    obtain ⟨hstep, hinv⟩ := step_seek junk position h hget
    exact ⟨_, hnext hstep, _, _, hinv⟩
  | read k into numBytes =>
    obtain ⟨handle, i, f, hget, -, hf, -, hfile⟩ := h.of_live (hlive k rfl)
    have hr := hrange (handle.file, numBytes, handle.file.seekPosition) (by simp [request, hget])
    obtain ⟨hstep, hinv⟩ := step_read junk into h hget hfile hr
    exact ⟨_, hnext hstep, _, _, hinv⟩
  | write k src numBytes =>
    obtain ⟨handle, i, f, hget, -, hf, -, hfile⟩ := h.of_live (hlive k rfl)
    have hr := hrange (handle.file, numBytes, handle.file.seekPosition) (by simp [request, hget])
    obtain ⟨disk', hstep, hinv, -⟩ := step_write junk src h hget hf hfile hr
    exact ⟨_, hnext hstep, _, _, hinv⟩

/-- From a formatted disk on, calls with requests that are `InRange` do not stop and
leave the disk consistent; and so `Remove` finds the sectors of every file marked. -/
theorem consistent_run (disk : Disk) (junk : Junk) :
    ∃ s₀, start disk junk = .ok s₀ ∧ ∀ calls, Along next Allowed calls s₀ →
      Along next RequestInRange calls s₀ → ∃ s, run next calls s₀ = some s ∧ Consistent s.disk ∧
        ∀ junk name, ∃ r, s.fileSystem.remove s.disk junk name = .ok r := by
  obtain ⟨s₀, map, dir, freeMap, hstart, -, hinv⟩ := start_spec disk junk
  refine ⟨s₀, hstart, fun calls hallowed hrange => ?_⟩
  obtain ⟨s, hrun, L, freeMap, h⟩ := run_progress_along next_inv ⟨_, freeMap, hinv⟩
    (hallowed.and hrange)
  refine ⟨s, hrun, h.onDisk.consistent, fun junk name => ?_⟩
  rcases remove_spec h.onDisk h.mounted junk name with ⟨-, hremove⟩ | ⟨i, f, disk', _, -, -, hremove, -⟩
  · exact ⟨_, hremove⟩
  · exact ⟨_, hremove⟩

/-- A file is created, opened, written to across a sector boundary and removed. -/
def someCalls : List (Op × Junk) :=
  [(.create nameA 300, fun _ _ => 0), (.openFile nameA, fun _ _ => 0),
    (.writeAt 0 (fun _ => 7) 20 120, fun _ _ => 0), (.remount, fun _ _ => 0),
    (.remove nameA, fun _ _ => 0)]

theorem consistent_run_someCalls : ∃ s₀ s, start (fun _ _ => 0) (fun _ _ => 0) = .ok s₀ ∧
    run next someCalls s₀ = some s ∧ Consistent s.disk := by
  have heval : ((start (fun _ _ => 0) fun _ _ => 0).toOption.any fun s₀ =>
      Along next Allowed someCalls s₀ ∧ Along next RequestInRange someCalls s₀) = true := by
    decide +kernel
  obtain ⟨s₀, hstart, h⟩ := consistent_run (fun _ _ => 0) fun _ _ => 0
  rw [toOption_eq_some.mpr hstart, Option.any_some, decide_eq_true_eq] at heval
  obtain ⟨s, hrun, hcons, -⟩ := h someCalls heval.1 heval.2
  exact ⟨s₀, s, hstart, hrun, hcons⟩

/-! ## Writing before the start of a file -/

/-- A file of one sector is created and opened, and a sector is written at -128: the
bytes of a header of 200 bytes, whose data sectors are 0 and 0. -/
def callsBeforeStart : List (Op × Junk) :=
  [(.create nameA 128, fun _ _ => 0), (.openFile nameA, fun _ _ => 0),
    (.writeAt 0 (fun j => if j = 0 then 200 else 0) 128 (-128), fun _ _ => 0)]

/-- `dataSectors[-1]` is `numSectors`, here 1: the header of the directory is
replaced. -/
theorem writeAt_before_start : ∃ s₀ s, start (fun _ _ => 0) (fun _ _ => 0) = .ok s₀ ∧
    Along next Allowed callsBeforeStart s₀ ∧ run next callsBeforeStart s₀ = some s ∧
    ¬ Consistent s.disk := by
  have heval : ((start (fun _ _ => 0) fun _ _ => 0).toOption.any fun s₀ =>
      Along next Allowed callsBeforeStart s₀ ∧ (run next callsBeforeStart s₀).any fun s =>
        sectorsOn s.disk 1 = [1, 0, 0]) = true := by
    decide +kernel
  obtain ⟨s₀, _, _, _, hstart, -⟩ := start_spec (fun _ _ => 0) fun _ _ => 0
  rw [toOption_eq_some.mpr hstart, Option.any_some, decide_eq_true_eq] at heval
  obtain ⟨hallowed, hany⟩ := heval
  rw [Option.any_eq_true] at hany
  obtain ⟨s, hrun, hsectors⟩ := hany
  refine ⟨s₀, s, hstart, hallowed, hrun, fun hcons => ?_⟩
  have hnodup := hcons.owned.nodup 1
  rw [of_decide_eq_true hsectors] at hnodup
  exact absurd hnodup (by decide)

end Nachos.Filesys
