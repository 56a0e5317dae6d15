import Nachos.Filesys.Consistency

/-!
# Open files whose file has been removed (filesys/openfile.cc)

An `OpenFile` keeps the header that it read when it was opened. After `Remove` the sectors in it
are free, and `Create` hands them out again.

* `Held`: the header in every handle describes a file, which may be gone;
* `Inv.written`: what a write through a handle leaves alone, if it does not go to sectors that
  have been handed out again;
* `handles_apart`: runs in which every write is such a one;
* `handles_not_apart`: a run with another one.
-/

namespace Nachos.Filesys

open Nachos.Framework

/-- The handle that a call writes through. -/
def Op.writes : Op → Option Nat
  | .writeAt k _ _ _ | .write k _ _ => some k
  | _ => none

/-- The sectors that a request to write comes to. -/
def OpenFile.sectorsWritten (file : OpenFile) (numBytes position : Int) : List Nat :=
  touched file.hdr.dataSectors position.toNat
    (count file.hdr.numBytes.toNat numBytes position.toNat)

/-- Files are created with a size they can have, and handles are used that have been given out. -/
def Callable (call : Op × Junk) (s : State) : Prop :=
  (∀ size ∈ call.1.size, 0 ≤ size ∧ size ≤ maxFileSize) ∧ ∀ k ∈ call.1.handle, k < s.handles.length

instance (call : Op × Junk) (s : State) : Decidable (Callable call s) :=
  inferInstanceAs (Decidable (_ ∧ _))

/-- A write through a handle whose file has been removed goes to sectors that are free. -/
def WritesFree (call : Op × Junk) (s : State) : Prop :=
  ∀ k ∈ call.1.writes, ∀ handle ∈ s.handles[k]?, handle.removed = true →
    ∀ r ∈ request call.1 s, ∀ x ∈ r.1.sectorsWritten r.2.1 r.2.2, x ∉ freeMapOn s.disk

/-- What a write through the handle must leave as it is: the free map and the directory with their
headers, the header of every file, and all of every file that is not the handle's. -/
structure Apart (handle : Handle) (disk disk' : Disk) : Prop where
  system : ∀ i < 2, ∀ x ∈ sectorsOn disk i, disk' x = disk x
  headers : ∀ i < numDirEntries, ∀ n sector, (directoryOn disk).entry i = some (n, sector) →
    disk' sector.toNat = disk sector.toNat
  files : ∀ i < numDirEntries, ∀ n sector, (directoryOn disk).entry i = some (n, sector) →
    (handle.removed = true ∨ n ≠ fileName handle.name) →
      ∀ x ∈ sectorsAt disk sector.toNat, disk' x = disk x

/-! ## The headers in the handles -/

/-- The header in every handle describes a file. -/
def Held (s : State) : Prop :=
  ∀ handle ∈ s.handles,
    IsFile handle.file.hdr handle.file.hdr.numBytes.toNat handle.file.hdr.dataSectors

theorem IsFile.self {hdr : FileHeader} {length : Nat} {sectors : List Nat}
    (hf : IsFile hdr length sectors) : IsFile hdr hdr.numBytes.toNat hdr.dataSectors := by
  rw [hf.dataSectors_eq, hf.numBytes, Int.toNat_natCast]
  exact hf

theorem mem_set_hdr {handles : List Handle} {k : Nat} {handle handle' new : Handle}
    (hget : handles[k]? = some handle) (hnew : new.file.hdr = handle.file.hdr)
    (hin : handle' ∈ handles.set k new) : ∃ h ∈ handles, handle'.file.hdr = h.file.hdr := by
  rcases List.mem_or_eq_of_mem_set hin with hin | rfl
  · exact ⟨handle', hin, rfl⟩
  · exact ⟨handle, List.mem_of_getElem? hget, hnew⟩

/-- A call gives out a handle of `Open`, or keeps the headers. -/
theorem step_handles {op : Op} {junk : Junk} {s t : State} {r : Result}
    (h : step (op, junk) s = .ok (r, t)) {handle : Handle} (hin : handle ∈ t.handles) :
    (∃ h ∈ s.handles, handle.file.hdr = h.file.hdr) ∨
      ∃ name, s.fileSystem.openFile s.disk junk name = .ok (some handle.file) := by
  cases op with
  | create name initialSize =>
    obtain ⟨_, -, h⟩ := bind_eq_ok.mp h
    cases h
    exact .inl ⟨handle, hin, rfl⟩
  | remove name =>
    obtain ⟨⟨success, disk⟩, -, h⟩ := bind_eq_ok.mp h
    cases h
    left
    cases success with
    | false => exact ⟨handle, hin, rfl⟩
    | true =>
      obtain ⟨handle', hin', rfl⟩ := List.mem_map.mp hin
      refine ⟨handle', hin', ?_⟩
      split <;> rfl
  | openFile name =>
    obtain ⟨found, hopen, h⟩ := bind_eq_ok.mp h
    cases found with
    | none =>
      cases h
      exact .inl ⟨handle, hin, rfl⟩
    | some file =>
      cases h
      rcases List.mem_append.mp hin with hin | hin
      · exact .inl ⟨handle, hin, rfl⟩
      · obtain rfl := List.mem_singleton.mp hin
        exact .inr ⟨name, hopen⟩
  | readAt k into numBytes position =>
    obtain ⟨_, -, h⟩ := bind_eq_ok.mp h
    obtain ⟨_, -, h⟩ := bind_eq_ok.mp h
    cases h
    exact .inl ⟨handle, hin, rfl⟩
  | writeAt k src numBytes position =>
    obtain ⟨_, -, h⟩ := bind_eq_ok.mp h
    obtain ⟨_, -, h⟩ := bind_eq_ok.mp h
    cases h
    exact .inl ⟨handle, hin, rfl⟩
  | seek k position =>
    obtain ⟨_, hget, h⟩ := bind_eq_ok.mp h
    cases h
    refine .inl (mem_set_hdr (deref_eq_ok.mp hget) ?_ hin)
    rfl
  | read k into numBytes =>
    obtain ⟨_, hget, h⟩ := bind_eq_ok.mp h
    obtain ⟨_, hread, h⟩ := bind_eq_ok.mp h
    cases h
    refine .inl (mem_set_hdr (deref_eq_ok.mp hget) ?_ hin)
    obtain ⟨_, -, hread⟩ := bind_eq_ok.mp hread
    cases hread
    rfl
  | write k src numBytes =>
    obtain ⟨_, hget, h⟩ := bind_eq_ok.mp h
    obtain ⟨_, hwrite, h⟩ := bind_eq_ok.mp h
    cases h
    refine .inl (mem_set_hdr (deref_eq_ok.mp hget) ?_ hin)
    obtain ⟨_, -, hwrite⟩ := bind_eq_ok.mp hwrite
    cases hwrite
    rfl
  | remount =>
    obtain ⟨_, -, h⟩ := bind_eq_ok.mp h
    cases h
    exact .inl ⟨handle, hin, rfl⟩

theorem Held.step {call : Op × Junk} {s t : State} {L : Layout} {freeMap : BitMap} (hheld : Held s)
    (hinv : Inv s L freeMap) (h : next call s = some t) : Held t := by
  obtain ⟨⟨r, t'⟩, hstep, rfl⟩ := Option.map_eq_some_iff.mp h
  intro handle hin
  rcases step_handles (toOption_eq_some.mp hstep) hin with ⟨h', hin', heq⟩ | ⟨name, hopen⟩
  · rw [heq]
    exact hheld h' hin'
  · rcases openFile_spec hinv.onDisk hinv.mounted call.2 name with ⟨i, f, hf, -, hspec⟩ | ⟨-, hspec⟩
    · rw [hspec] at hopen
      rw [← Option.some.inj (Except.ok.inj hopen)]
      exact (hinv.onDisk.fileHdr i f hf).self
    · rw [hspec] at hopen
      cases hopen

/-! ## Writing -/

section
variable {s : State} {L : Layout} {freeMap : BitMap} {disk' : Disk} {handle : Handle}

/-- Sectors that are not marked do not matter. -/
theorem Inv.setFree (h : Inv s L freeMap) (hmarked : ∀ x ∈ freeMap.marked, disk' x = s.disk x) :
    Inv { s with disk := disk' } L freeMap := by
  have hholds : ∀ {i x}, x ∈ L.holds i → disk' x = s.disk x := fun hx => hmarked _ (h.onDisk.mem_marked hx)
  refine ⟨h.onDisk.congr (fun x hx => hx.elim hholds hholds) fun i f hf =>
    hholds (Layout.header_mem_holds hf), ⟨?_, ?_⟩, fun handle hin hlive => ?_⟩
  · rw [h.mounted.freeMapFile]
    exact (hholds (i := 0) List.mem_cons_self).symm
  · rw [h.mounted.directoryFile]
    exact (hholds (i := 1) List.mem_cons_self).symm
  · obtain ⟨i, f, hf, hname, hfile⟩ := h.handles handle hin hlive
    exact ⟨i, f, hf, hname, hfile.trans (hholds (Layout.header_mem_holds hf)).symm⟩

/-- A write that keeps what the layout holds, but for data of the handle's file. -/
theorem Inv.apart (h : Inv s L freeMap)
    (hsame : ∀ i, ∀ x ∈ L.holds i, disk' x = s.disk x ∨
      ∃ j f, i = j + 2 ∧ L.files j = some f ∧ x ∈ f.sectors ∧ handle.removed = false ∧
        f.name = fileName handle.name) : Apart handle s.disk disk' := by
  have hentry : ∀ {i n sector}, i < numDirEntries → (directoryOn s.disk).entry i = some (n, sector) →
      ∃ f, L.files i = some f ∧ f.name = n ∧ (f.header : Int) = sector := by
    intro i n sector hi he
    rw [h.onDisk.entry_directoryOn hi] at he
    obtain ⟨f, hf, heq⟩ := Option.map_eq_some_iff.mp he
    exact ⟨f, hf, (Prod.mk.inj heq).1, (Prod.mk.inj heq).2⟩
  refine ⟨fun i hi x hx => ?_, fun i hi n sector he => ?_, fun i hi n sector he hother x hx => ?_⟩
  · rw [h.onDisk.sectorsOn_eq] at hx
    rcases hsame i x hx with heq | ⟨j, -, hij, -⟩
    · exact heq
    · omega
  · obtain ⟨f, hf, -, rfl⟩ := hentry hi he
    rw [Int.toNat_natCast]
    rcases hsame (i + 2) f.header (Layout.header_mem_holds hf) with heq | ⟨j, g, hij, hg, hx, -⟩
    · exact heq
    · obtain rfl : i = j := by omega
      rw [hf] at hg
      cases hg
      exact absurd hx (h.onDisk.notMem_sectors hf)
  · obtain ⟨f, hf, rfl, rfl⟩ := hentry hi he
    rw [Int.toNat_natCast, sectorsAt, (h.onDisk.fileHdr i f hf).dataSectors_eq, ← Layout.holds_file hf] at hx
    rcases hsame (i + 2) x hx with heq | ⟨j, g, hij, hg, -, hlive, hname⟩
    · exact heq
    · obtain rfl : i = j := by omega
      rw [hf] at hg
      cases hg
      rcases hother with hremoved | hne
      · rw [hlive] at hremoved
        cases hremoved
      · exact absurd hname hne

/-- A write through a handle. -/
theorem Inv.written (h : Inv s L freeMap) (hin : handle ∈ s.handles) {numBytes position : Int}
    (hdisk : ∀ x, x ∉ handle.file.sectorsWritten numBytes position → disk' x = s.disk x)
    (hfree : handle.removed = true →
      ∀ x ∈ handle.file.sectorsWritten numBytes position, x ∉ freeMapOn s.disk) :
    Inv { s with disk := disk' } L freeMap ∧ Apart handle s.disk disk' := by
  rw [h.onDisk.freeMapOn_eq] at hfree
  cases hremoved : handle.removed with
  | true =>
    have hmarked : ∀ x ∈ freeMap.marked, disk' x = s.disk x := fun x hx =>
      hdisk x fun hin => hfree hremoved x hin hx
    exact ⟨h.setFree hmarked, h.apart fun i x hx => .inl (hmarked x (h.onDisk.mem_marked hx))⟩
  | false =>
    obtain ⟨j, f, hf, hname, hhdr⟩ := h.handles handle hin hremoved
    have hsectors : handle.file.hdr.dataSectors = f.sectors := by
      rw [hhdr]
      exact (h.onDisk.fileHdr j f hf).dataSectors_eq
    have hother : ∀ x, x ∉ f.sectors → disk' x = s.disk x := fun x hx => hdisk x fun hin =>
      hx (hsectors ▸ touched_subset hin)
    refine ⟨h.setDisk hf hother, h.apart fun i x hx => ?_⟩
    by_cases hmem : x ∈ f.sectors
    · have hij := h.onDisk.owned.eq_of_mem i (j + 2) x hx (Layout.mem_holds_of_mem hf hmem)
      exact .inr ⟨j, f, hij, hf, hmem, hremoved, hname⟩
    · exact .inl (hother x hmem)

end

/-! ## Runs -/

/-- The disk has a layout, and every handle a header of a file. -/
def Sound (s : State) : Prop := (∃ L freeMap, Inv s L freeMap) ∧ Held s

theorem next_eq_of_step {op : Op} {junk : Junk} {s t : State} {r : Result}
    (h : step (op, junk) s = .ok (r, t)) : next (op, junk) s = some t := by
  rw [next, h]
  rfl

theorem exists_handle {op : Op} {junk : Junk} {s : State} {k : Nat} (hcall : Callable (op, junk) s)
    (hk : op.handle = some k) : ∃ handle, s.handles[k]? = some handle :=
  ⟨_, List.getElem?_eq_getElem (hcall.2 k hk)⟩

/-- The request of a call that writes through `handle` is done, and keeps apart what it must. -/
theorem request_writes {op : Op} {junk : Junk} {s : State} {k : Nat} {L : Layout} {freeMap : BitMap}
    (h : Inv s L freeMap) (hheld : Held s) {handle : Handle} (hget : s.handles[k]? = some handle)
    (hw : op.writes = some k) {numBytes position : Int}
    (hreq : request op s = some (handle.file, numBytes, position)) (hrange : RequestInRange (op, junk) s)
    (hfree : WritesFree (op, junk) s) (src : Bytes) :
    ∃ disk', handle.file.writeAt s.disk (junk 0) src numBytes position =
        .ok ((count handle.file.hdr.numBytes.toNat numBytes position.toNat : Nat), disk') ∧
      Inv { s with disk := disk' } L freeMap ∧ Apart handle s.disk disk' := by
  have hin := List.mem_of_getElem? hget
  have hunused : handle.removed = true →
      ∀ x ∈ handle.file.sectorsWritten numBytes position, x ∉ freeMapOn s.disk :=
    fun hremoved => hfree k hw handle hget hremoved (handle.file, numBytes, position) hreq
  obtain ⟨disk', hwrite, hother, -⟩ := OpenFile.writeAt_of_inRange s.disk (junk 0) src (hheld handle hin)
    (hrange (handle.file, numBytes, position) hreq)
  exact ⟨disk', hwrite, h.written hin hother hunused⟩

/-- A write through a handle returns, and keeps apart what it must. -/
theorem next_writes {op : Op} {junk : Junk} {s : State} {k : Nat} (hs : Sound s) (hw : op.writes = some k)
    (hcall : Callable (op, junk) s) (hrange : RequestInRange (op, junk) s) (hfree : WritesFree (op, junk) s) :
    ∃ t handle, next (op, junk) s = some t ∧ s.handles[k]? = some handle ∧
      (∃ L freeMap, Inv t L freeMap) ∧ Apart handle s.disk t.disk := by
  obtain ⟨⟨L, freeMap, h⟩, hheld⟩ := hs
  cases op with
  | writeAt k' src numBytes position =>
    cases hw
    obtain ⟨handle, hget⟩ := exists_handle hcall rfl
    have hreq : request (.writeAt k src numBytes position) s = some (handle.file, numBytes, position) := by
      rw [request, hget]
      rfl
    obtain ⟨disk', hwrite, hinv, hapart⟩ := request_writes h hheld hget rfl hreq hrange hfree src
    have hstep : step (.writeAt k src numBytes position, junk) s =
        .ok (.written (count handle.file.hdr.numBytes.toNat numBytes position.toNat),
          { s with disk := disk' }) := by
      rw [step, hget, deref_some, ok_bind, hwrite]
      rfl
    exact ⟨_, handle, next_eq_of_step hstep, hget, ⟨L, freeMap, hinv⟩, hapart⟩
  | write k' src numBytes =>
    cases hw
    obtain ⟨handle, hget⟩ := exists_handle hcall rfl
    have hreq : request (.write k src numBytes) s = some (handle.file, numBytes, handle.file.seekPosition) := by
      rw [request, hget]
      rfl
    obtain ⟨disk', hwrite, hinv, hapart⟩ := request_writes h hheld hget rfl hreq hrange hfree src
    generalize count handle.file.hdr.numBytes.toNat numBytes handle.file.seekPosition.toNat = n at hwrite
    have hstep : step (.write k src numBytes, junk) s = .ok (.written n, { s with
        disk := disk'
        handles := s.handles.set k
          { handle with file := handle.file.seek (int32 (handle.file.seekPosition + n)) } }) := by
      rw [step, hget, deref_some, ok_bind, OpenFile.write, hwrite]
      rfl
    exact ⟨_, handle, next_eq_of_step hstep, hget, ⟨L, freeMap, hinv.setHandle hget _⟩, hapart⟩
  | _ => cases hw

/-- The other calls return. -/
theorem next_reads {op : Op} {junk : Junk} {s : State} (hs : Sound s) (hw : op.writes = none)
    (hcall : Callable (op, junk) s) (hrange : RequestInRange (op, junk) s) :
    ∃ t, next (op, junk) s = some t ∧ ∃ L freeMap, Inv t L freeMap := by
  obtain ⟨⟨L, freeMap, h⟩, hheld⟩ := hs
  have hany : op.handle = none → ∃ t, next (op, junk) s = some t ∧ ∃ L freeMap, Inv t L freeMap := by
    intro hnone
    refine next_inv (op, junk) s ⟨L, freeMap, h⟩ ⟨⟨hcall.1, fun k hk => ?_⟩, hrange⟩
    change k ∈ op.handle at hk
    rw [hnone] at hk
    cases hk
  cases op with
  | readAt k into numBytes position =>
    obtain ⟨handle, hget⟩ := exists_handle hcall rfl
    have hr := hrange (handle.file, numBytes, position) (by simp [request, hget])
    refine ⟨s, next_eq_of_step (step_readAt (f := ⟨[], 0, handle.file.hdr.numBytes.toNat,
      handle.file.hdr.dataSectors⟩) junk into hget ?_ hr), L, freeMap, h⟩
    exact hheld handle (List.mem_of_getElem? hget)
  | seek k position =>
    have hget := List.getElem?_eq_getElem (hcall.2 k rfl)
    obtain ⟨hstep, hinv⟩ := step_seek junk position h hget
    exact ⟨_, next_eq_of_step hstep, L, freeMap, hinv⟩
  | read k into numBytes =>
    obtain ⟨handle, hget⟩ := exists_handle hcall rfl
    have hr := hrange (handle.file, numBytes, handle.file.seekPosition) (by simp [request, hget])
    obtain ⟨hstep, hinv⟩ := step_read (f := ⟨[], 0, handle.file.hdr.numBytes.toNat,
      handle.file.hdr.dataSectors⟩) junk into h hget (hheld handle (List.mem_of_getElem? hget)) hr
    exact ⟨_, next_eq_of_step hstep, L, freeMap, hinv⟩
  | writeAt _ _ _ _ => cases hw
  | write _ _ _ => cases hw
  | create _ _ => exact hany rfl
  | remove _ => exact hany rfl
  | openFile _ => exact hany rfl
  | remount => exact hany rfl

theorem next_sound {call : Op × Junk} {s : State} (hs : Sound s)
    (hg : Callable call s ∧ RequestInRange call s ∧ WritesFree call s) :
    ∃ t, next call s = some t ∧ Sound t ∧
      ∀ k ∈ call.1.writes, ∀ handle ∈ s.handles[k]?, Apart handle s.disk t.disk := by
  obtain ⟨⟨L, freeMap, h⟩, hheld⟩ := hs
  obtain ⟨op, junk⟩ := call
  obtain ⟨hcall, hrange, hfree⟩ := hg
  cases hw : op.writes with
  | none =>
    obtain ⟨t, hnext, hinv⟩ := next_reads ⟨⟨L, freeMap, h⟩, hheld⟩ hw hcall hrange
    exact ⟨t, hnext, ⟨hinv, hheld.step h hnext⟩, fun k hk => by cases hk⟩
  | some k =>
    obtain ⟨t, handle, hnext, hget, hinv, hapart⟩ := next_writes ⟨⟨L, freeMap, h⟩, hheld⟩ hw hcall hrange hfree
    refine ⟨t, hnext, ⟨hinv, hheld.step h hnext⟩, fun k' hk' handle' hget' => ?_⟩
    cases hk'
    obtain rfl : handle = handle' := Option.some.inj (hget.symm.trans hget')
    exact hapart

/-- From a formatted disk on, as long as a write through a handle whose file has been removed goes
to sectors that have not been handed out again: no call stops, and no write changes the free map,
the directory, a header, or a file that is not the handle's. -/
theorem handles_apart (disk : Disk) (junk : Junk) :
    ∃ s₀, start disk junk = .ok s₀ ∧ ∀ calls, Along next Callable calls s₀ →
      Along next RequestInRange calls s₀ → Along next WritesFree calls s₀ →
      ∃ s, run next calls s₀ = some s ∧ ∀ call, Callable call s → RequestInRange call s →
        WritesFree call s → ∃ t, next call s = some t ∧
          ∀ k ∈ call.1.writes, ∀ handle ∈ s.handles[k]?, Apart handle s.disk t.disk := by
  obtain ⟨s₀, map, dir, freeMap, hstart, hhandles, hinv⟩ := start_spec disk junk
  have hsound : Sound s₀ := ⟨⟨_, freeMap, hinv⟩, fun h hin => by rw [hhandles] at hin; cases hin⟩
  refine ⟨s₀, hstart, fun calls hcall hrange hfree => ?_⟩
  obtain ⟨s, hrun, hs⟩ := run_progress_along (I := Sound) (fun call s hs hg =>
    (next_sound hs hg).imp fun t ht => ⟨ht.1, ht.2.1⟩) hsound (hcall.and (hrange.and hfree))
  refine ⟨s, hrun, fun call hcall hrange hfree => ?_⟩
  obtain ⟨t, hnext, -, hapart⟩ := next_sound hs ⟨hcall, hrange, hfree⟩
  exact ⟨t, hnext, hapart⟩

instance (call : Op × Junk) (s : State) : Decidable (WritesFree call s) :=
  inferInstanceAs (Decidable (∀ k ∈ call.1.writes, _))

/-- A file is created, opened, written to and removed, and written to once more. -/
def callsOfOne : List (Op × Junk) :=
  [(.create nameA 128, fun _ _ => 0), (.openFile nameA, fun _ _ => 0),
    (.writeAt 0 (fun _ => 7) 20 100, fun _ _ => 0), (.remove nameA, fun _ _ => 0)]

theorem handles_apart_callsOfOne : ∃ s₀ s t, start (fun _ _ => 0) (fun _ _ => 0) = .ok s₀ ∧
    run next callsOfOne s₀ = some s ∧
    next (.writeAt 0 (fun _ => 8) 20 100, fun _ _ => 0) s = some t ∧
    ∀ handle ∈ s.handles[0]?, Apart handle s.disk t.disk := by
  have heval : ((start (fun _ _ => 0) fun _ _ => 0).toOption.any fun s₀ =>
      Along next (fun call s => Callable call s ∧ RequestInRange call s ∧ WritesFree call s)
        callsOfOne s₀ ∧ (run next callsOfOne s₀).any fun s =>
        Callable (.writeAt 0 (fun _ => 8) 20 100, fun _ _ => 0) s ∧
        RequestInRange (.writeAt 0 (fun _ => 8) 20 100, fun _ _ => 0) s ∧
        WritesFree (.writeAt 0 (fun _ => 8) 20 100, fun _ _ => 0) s) = true := by
    decide +kernel
  obtain ⟨s₀, hstart, h⟩ := handles_apart (fun _ _ => 0) fun _ _ => 0
  rw [toOption_eq_some.mpr hstart, Option.any_some, decide_eq_true_eq] at heval
  obtain ⟨halong, hlast⟩ := heval
  obtain ⟨s, hrun, hnext⟩ := h callsOfOne (halong.mono fun _ _ h => h.1)
    (halong.mono fun _ _ h => h.2.1) (halong.mono fun _ _ h => h.2.2)
  rw [hrun, Option.any_some, decide_eq_true_eq] at hlast
  obtain ⟨t, hnext, hapart⟩ := hnext _ hlast.1 hlast.2.1 hlast.2.2
  exact ⟨s₀, s, t, hstart, hrun, hnext, hapart 0 rfl⟩

theorem nameB_ne_zero : ∀ c ∈ [(98 : BitVec 8)], c ≠ 0 := by decide

/-- The file name "b". -/
def nameB : CString := ⟨[98], nameB_ne_zero⟩

/-- A file is created, opened and removed, and another one created: it gets the same sectors. -/
def callsOfTwo : List (Op × Junk) :=
  [(.create nameA 128, fun _ _ => 0), (.openFile nameA, fun _ _ => 0), (.remove nameA, fun _ _ => 0),
    (.create nameB 128, fun _ _ => 0)]

/-- A write through the handle of the first one changes the other. -/
theorem handles_not_apart : ∃ s₀ s t handle, start (fun _ _ => 0) (fun _ _ => 0) = .ok s₀ ∧
    Along next Callable callsOfTwo s₀ ∧ Along next RequestInRange callsOfTwo s₀ ∧
    run next callsOfTwo s₀ = some s ∧ s.handles[0]? = some handle ∧ handle.file.InRange 1 0 ∧
    next (.writeAt 0 (fun _ => 7) 1 0, fun _ _ => 0) s = some t ∧ ¬ Apart handle s.disk t.disk := by
  have heval : ((start (fun _ _ => 0) fun _ _ => 0).toOption.any fun s₀ =>
      Along next (fun call s => Callable call s ∧ RequestInRange call s) callsOfTwo s₀ ∧
      (run next callsOfTwo s₀).any fun s => s.handles[0]?.any fun handle =>
        handle.removed = true ∧ handle.file.InRange 1 0 ∧
        (directoryOn s.disk).entry 0 = some ([98], 5) ∧ 6 ∈ sectorsAt s.disk 5 ∧
        (next (.writeAt 0 (fun _ => 7) 1 0, fun _ _ => 0) s).any fun t => t.disk 6 0 ≠ s.disk 6 0) = true := by
    decide +kernel
  obtain ⟨s₀, _, _, _, hstart, -⟩ := start_spec (fun _ _ => 0) fun _ _ => 0
  rw [toOption_eq_some.mpr hstart, Option.any_some, decide_eq_true_eq] at heval
  obtain ⟨halong, hrun⟩ := heval
  obtain ⟨s, hrun, hs⟩ := (Option.any_eq_true _ _).mp hrun
  obtain ⟨handle, hget, hd⟩ := (Option.any_eq_true _ _).mp hs
  obtain ⟨hremoved, hin, hentry, hmem, hnext⟩ := of_decide_eq_true hd
  obtain ⟨t, hnext, hne⟩ := (Option.any_eq_true _ _).mp hnext
  refine ⟨s₀, s, t, handle, hstart, halong.mono fun _ _ h => h.1, halong.mono fun _ _ h => h.2, hrun,
    hget, hin, hnext, fun hapart => ?_⟩
  have hsame := hapart.files 0 (by decide) [98] 5 hentry (.inl hremoved) 6 hmem
  exact of_decide_eq_true hne (congrFun hsame 0)

end Nachos.Filesys
