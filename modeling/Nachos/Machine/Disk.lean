import Nachos.Framework.Rotation
import Nachos.Framework.Run

/-!
# The latency of the disk (machine/disk.cc, machine/disk.h)

What `ComputeLatency` works out from the last request, the time at which the track buffer began to
be loaded, and the time of the request. What is read and written is in `Filesys/SynchDisk.lean`;
times do not overflow `int`.

* `computeLatency_eq`, `updateLast_bufferInit`: the routines, in terms of a rotating device;
* `Invariant`: where the track buffer is, between the requests;
* `disk_latency`: when a request is completed, in every run.
-/

namespace Nachos.Machine.Latency

open Nachos.Framework

/-- `RotationTime`, `SeekTime`, `SectorsPerTrack`, `NumTracks`, `NumSectors`. -/
def rotationTime : Int := 500
def seekTime : Int := 500
def sectorsPerTrack : Int := 32
def numTracks : Int := 32
def numSectors : Int := sectorsPerTrack * numTracks

/-- The data of `class Disk` that the latency depends on. -/
structure Disk where
  active : Bool
  lastSector : Int
  bufferInit : Int
deriving DecidableEq, Repr

/-- `Disk::TimeToSeek`: the result, and `*rotation`. -/
def timeToSeek (newSector totalTicks : Int) (d : Disk) : Int × Int :=
  let newTrack := newSector.tdiv sectorsPerTrack
  let oldTrack := d.lastSector.tdiv sectorsPerTrack
  let seek := ((newTrack - oldTrack).natAbs : Int) * seekTime
  let over_ := (totalTicks + seek).tmod rotationTime
  (seek, if over_ > 0 then rotationTime - over_ else 0)

/-- `Disk::ModuloDiff`. -/
def moduloDiff (to_ from_ : Int) : Int :=
  let toOffset := to_.tmod sectorsPerTrack
  let fromOffset := from_.tmod sectorsPerTrack
  ((toOffset - fromOffset) + sectorsPerTrack).tmod sectorsPerTrack

/-- The test for the track buffer in `ComputeLatency`. -/
def fromBuffer (newSector : Int) (writing : Bool) (totalTicks : Int) (d : Disk) : Bool :=
  let (seek, rotation) := timeToSeek newSector totalTicks d
  let timeAfter := totalTicks + seek + rotation
  writing = false ∧ seek = 0 ∧ (timeAfter - d.bufferInit).tdiv rotationTime >
    moduloDiff newSector (d.bufferInit.tdiv rotationTime)

/-- `Disk::ComputeLatency`. -/
def computeLatency (newSector : Int) (writing : Bool) (totalTicks : Int) (d : Disk) : Int :=
  let (seek, rotation) := timeToSeek newSector totalTicks d
  let timeAfter := totalTicks + seek + rotation
  if fromBuffer newSector writing totalTicks d then rotationTime
  else
    let rotation := rotation + moduloDiff newSector (timeAfter.tdiv rotationTime) * rotationTime
    seek + rotation + rotationTime

/-- `Disk::UpdateLast`. -/
def updateLast (newSector totalTicks : Int) (d : Disk) : Disk :=
  let (seek, rotate) := timeToSeek newSector totalTicks d
  { d with
    lastSector := newSector
    bufferInit := if seek ≠ 0 then totalTicks + seek + rotate else d.bufferInit }

/-- The clock, the disk, and when its interrupt is to occur. -/
structure State where
  totalTicks : Int
  disk : Disk
  interrupt : Option Int
deriving DecidableEq, Repr

/-- `ReadRequest` and `WriteRequest`, with the call of `Schedule`; `none` when an assertion fails. -/
def request (sectorNumber : Int) (writing : Bool) (s : State) : Option State :=
  let ticks := computeLatency sectorNumber writing s.totalTicks s.disk
  if s.disk.active then none
  else if ¬ (sectorNumber ≥ 0 ∧ sectorNumber < numSectors) then none
  else if ¬ ticks > 0 then none
  else some { s with
    disk := { updateLast sectorNumber s.totalTicks s.disk with active := true }
    interrupt := some (s.totalTicks + ticks) }

/-- What happens: time passes, a request, or the interrupt of the disk. -/
inductive Event
  | passes (ticks : Nat)
  | readRequest (sectorNumber : Int)
  | writeRequest (sectorNumber : Int)
  | handleInterrupt
deriving DecidableEq, Repr

def step : Event → State → Option State
  | .passes ticks, s => some { s with totalTicks := s.totalTicks + ticks }
  | .readRequest sectorNumber, s => request sectorNumber false s
  | .writeRequest sectorNumber, s => request sectorNumber true s
  | .handleInterrupt, s => match s.interrupt with
    | none => none
    | some w =>
      if w ≤ s.totalTicks then some { s with
        disk := { s.disk with active := false }
        interrupt := none }
      else none

/-- `Disk::Disk`. -/
def start : State := ⟨0, ⟨false, 0, 0⟩, none⟩

/-! ## The routines -/

variable {d : Disk} {newSector totalTicks : Int} {writing : Bool} {s u : State}

def IsSector (n : Int) : Prop := 0 ≤ n ∧ n < numSectors

instance (n : Int) : Decidable (IsSector n) := inferInstanceAs (Decidable (_ ∧ _))

/-- The time that the head needs to get to the track of a sector. -/
def seekFor (newSector : Int) (d : Disk) : Int :=
  seekTime * |newSector / sectorsPerTrack - d.lastSector / sectorsPerTrack|

theorem timeToSeek_eq (hnew : 0 ≤ newSector) (hlast : 0 ≤ d.lastSector) (hticks : 0 ≤ totalTicks) :
    timeToSeek newSector totalTicks d = (seekFor newSector d,
      roundUp rotationTime (totalTicks + seekFor newSector d) -
        (totalTicks + seekFor newSector d)) := by
  have hseek : (((newSector.tdiv sectorsPerTrack - d.lastSector.tdiv sectorsPerTrack).natAbs : Int) *
      seekTime) = seekFor newSector d := by
    rw [Int.tdiv_eq_ediv_of_nonneg hnew, Int.tdiv_eq_ediv_of_nonneg hlast, Int.natCast_natAbs,
      seekFor, mul_comm]
  have hnonneg : 0 ≤ seekFor newSector d := mul_nonneg (by decide) (abs_nonneg _)
  simp only [timeToSeek, hseek]
  rw [Int.tmod_eq_emod_of_nonneg (by omega), roundUp, add_sub_cancel_left]

theorem seekFor_nonneg (newSector : Int) (d : Disk) : 0 ≤ seekFor newSector d :=
  mul_nonneg (by decide) (abs_nonneg _)

/-- Past the slot `m`, the next slot of the sector. -/
theorem moduloDiff_eq {m : Int} (hnew : 0 ≤ newSector) (hm : 0 ≤ m) :
    moduloDiff newSector m = ahead sectorsPerTrack m newSector - m := by
  rw [moduloDiff, Int.tmod_eq_emod_of_nonneg hnew, Int.tmod_eq_emod_of_nonneg hm]
  have hto := Int.emod_nonneg newSector (show sectorsPerTrack ≠ 0 by decide)
  have hfrom := Int.emod_lt_of_pos m (show 0 < sectorsPerTrack by decide)
  rw [Int.tmod_eq_emod_of_nonneg (by omega), ahead, Int.add_emod_right, ← Int.sub_emod]
  omega

/-- The time at which the head gets to a boundary of sectors, on the track. -/
def timeAfter (newSector totalTicks : Int) (d : Disk) : Int :=
  roundUp rotationTime (totalTicks + seekFor newSector d)

theorem timeAfter_eq (newSector totalTicks : Int) (d : Disk) :
    totalTicks + seekFor newSector d + (timeAfter newSector totalTicks d -
      (totalTicks + seekFor newSector d)) = timeAfter newSector totalTicks d := by
  omega

theorem fromBuffer_iff (hnew : 0 ≤ newSector) (hlast : 0 ≤ d.lastSector) (hticks : 0 ≤ totalTicks)
    (hinit : 0 ≤ d.bufferInit) (hle : d.bufferInit ≤ totalTicks) :
    fromBuffer newSector writing totalTicks d = true ↔
      writing = false ∧ seekFor newSector d = 0 ∧
      ahead sectorsPerTrack (d.bufferInit / rotationTime) newSector - d.bufferInit / rotationTime <
        (timeAfter newSector totalTicks d - d.bufferInit) / rotationTime := by
  have hround : totalTicks + seekFor newSector d ≤ timeAfter newSector totalTicks d :=
    le_roundUp (by decide) _
  have hseek := seekFor_nonneg newSector d
  rw [fromBuffer, timeToSeek_eq hnew hlast hticks]
  simp only [decide_eq_true_eq]
  rw [← timeAfter, timeAfter_eq, Int.tdiv_eq_ediv_of_nonneg (by omega),
    Int.tdiv_eq_ediv_of_nonneg hinit,
    moduloDiff_eq hnew (Int.ediv_nonneg hinit (by decide))]

theorem computeLatency_of_fromBuffer (h : fromBuffer newSector writing totalTicks d = true) :
    computeLatency newSector writing totalTicks d = rotationTime := if_pos h

/-- Without the track buffer, the request is completed when the head has passed the sector. -/
theorem computeLatency_eq (hnew : 0 ≤ newSector) (hlast : 0 ≤ d.lastSector) (hticks : 0 ≤ totalTicks)
    (h : fromBuffer newSector writing totalTicks d = false) :
    totalTicks + computeLatency newSector writing totalTicks d =
      (ahead sectorsPerTrack (timeAfter newSector totalTicks d / rotationTime) newSector + 1) *
        rotationTime := by
  have hround : totalTicks + seekFor newSector d ≤ timeAfter newSector totalTicks d :=
    le_roundUp (by decide) _
  have hseek := seekFor_nonneg newSector d
  have hslots : timeAfter newSector totalTicks d / rotationTime * rotationTime =
      timeAfter newSector totalTicks d := Int.ediv_mul_cancel (dvd_roundUp (by decide) _)
  rw [computeLatency, h, timeToSeek_eq hnew hlast hticks]
  simp only [Bool.false_eq_true, if_false]
  rw [← timeAfter, timeAfter_eq, Int.tdiv_eq_ediv_of_nonneg (by omega),
    moduloDiff_eq hnew (Int.ediv_nonneg (by omega) (by decide))]
  linarith

theorem updateLast_bufferInit (hnew : 0 ≤ newSector) (hlast : 0 ≤ d.lastSector)
    (hticks : 0 ≤ totalTicks) : (updateLast newSector totalTicks d).bufferInit =
      if seekFor newSector d ≠ 0 then timeAfter newSector totalTicks d else d.bufferInit := by
  rw [updateLast, timeToSeek_eq hnew hlast hticks]
  show (if seekFor newSector d ≠ 0 then _ else _) = _
  rw [← timeAfter, timeAfter_eq]

/-! ## Requests -/

/-- Between two requests: where the track buffer is. It began to be loaded on a boundary of sectors,
and before the last request was completed. -/
structure Invariant (s : State) : Prop where
  totalTicks : 0 ≤ s.totalTicks
  lastSector : IsSector s.disk.lastSector
  nonneg : 0 ≤ s.disk.bufferInit
  boundary : rotationTime ∣ s.disk.bufferInit
  loading : s.disk.bufferInit ≤ s.interrupt.getD s.totalTicks
  active : s.disk.active = s.interrupt.isSome

/-- What the latency of a request means on a disk that rotates. -/
structure Rotates (s : State) (newSector : Int) (writing : Bool) : Prop where
  positive : 0 < computeLatency newSector writing s.totalTicks s.disk
  accepted : (request newSector writing s).isSome = true
  /-- The first time at which the head, after the seek, has passed the sector completely. -/
  completes : fromBuffer newSector writing s.totalTicks s.disk = false →
    IsLeast {x | rotationTime ∣ x ∧ s.totalTicks + seekFor newSector s.disk + rotationTime ≤ x ∧
        (x / rotationTime - 1) % sectorsPerTrack = newSector % sectorsPerTrack}
      (s.totalTicks + computeLatency newSector writing s.totalTicks s.disk)
  /-- The head passes the sector completely, in slot `k`, since the track buffer began to be loaded. -/
  buffered : fromBuffer newSector writing s.totalTicks s.disk = true →
    writing = false ∧ seekFor newSector s.disk = 0 ∧
    ∃ k, k % sectorsPerTrack = newSector % sectorsPerTrack ∧
      s.disk.bufferInit ≤ k * rotationTime ∧ (k + 1) * rotationTime ≤
        s.totalTicks + computeLatency newSector writing s.totalTicks s.disk

theorem Invariant.loaded (hs : Invariant s) (hidle : s.disk.active = false) :
    s.disk.bufferInit ≤ s.totalTicks := by
  have hloading := hs.loading
  have hactive := hs.active
  rw [hidle] at hactive
  cases hi : s.interrupt with
  | none =>
    rw [hi] at hloading
    exact hloading
  | some w =>
    rw [hi] at hactive
    cases hactive

/-- The time at which a request is completed, when the track buffer does not have the sector. -/
theorem Invariant.completes (hs : Invariant s) (hnew : 0 ≤ newSector)
    (h : fromBuffer newSector writing s.totalTicks s.disk = false) :
    IsLeast {x | rotationTime ∣ x ∧ s.totalTicks + seekFor newSector s.disk + rotationTime ≤ x ∧
        (x / rotationTime - 1) % sectorsPerTrack = newSector % sectorsPerTrack}
      (s.totalTicks + computeLatency newSector writing s.totalTicks s.disk) := by
  rw [computeLatency_eq hnew hs.lastSector.1 hs.totalTicks h]
  exact passed_isLeast (by decide) (by decide) (s.totalTicks + seekFor newSector s.disk) newSector

/-- With the track buffer, the head has passed the sector before the buffer is asked for it. -/
theorem Invariant.buffered (hs : Invariant s) (hidle : s.disk.active = false) (hnew : 0 ≤ newSector)
    (h : fromBuffer newSector writing s.totalTicks s.disk = true) :
    writing = false ∧ seekFor newSector s.disk = 0 ∧
    ∃ k, k % sectorsPerTrack = newSector % sectorsPerTrack ∧
      s.disk.bufferInit ≤ k * rotationTime ∧ (k + 1) * rotationTime ≤
        s.totalTicks + computeLatency newSector writing s.totalTicks s.disk := by
  rw [computeLatency_of_fromBuffer h]
  obtain ⟨hread, hseek, hpast⟩ := (fromBuffer_iff hnew hs.lastSector.1 hs.totalTicks hs.nonneg
    (hs.loaded hidle)).mp h
  refine ⟨hread, hseek, ahead sectorsPerTrack (s.disk.bufferInit / rotationTime) newSector,
    ahead_emod _ _ _, ?_, ?_⟩
  · have hslot : s.disk.bufferInit / rotationTime * rotationTime = s.disk.bufferInit :=
      Int.ediv_mul_cancel hs.boundary
    have hle := le_ahead (show 0 < sectorsPerTrack by decide) (s.disk.bufferInit / rotationTime)
      newSector
    simp only [rotationTime] at hslot hle ⊢
    omega
  · -- the head is at the next boundary in less than one rotation
    have hlt := roundUp_lt (show 0 < rotationTime by decide)
      (s.totalTicks + seekFor newSector s.disk)
    rw [← timeAfter, hseek] at hlt
    simp only [rotationTime] at hlt hpast ⊢
    omega

theorem Invariant.latency_pos (hs : Invariant s) (hnew : 0 ≤ newSector) :
    0 < computeLatency newSector writing s.totalTicks s.disk := by
  cases h : fromBuffer newSector writing s.totalTicks s.disk with
  | true =>
    rw [computeLatency_of_fromBuffer h]
    decide
  | false =>
    have hpassed := (hs.completes hnew h).1.2.1
    have hseek := seekFor_nonneg newSector s.disk
    have hrotation : 0 < rotationTime := by decide
    omega

/-- The track buffer begins to be loaded before the request is completed. -/
theorem Invariant.timeAfter_le (hs : Invariant s) (hnew : 0 ≤ newSector)
    (hseek : seekFor newSector s.disk ≠ 0) :
    timeAfter newSector s.totalTicks s.disk ≤
      s.totalTicks + computeLatency newSector writing s.totalTicks s.disk := by
  have hunbuffered : fromBuffer newSector writing s.totalTicks s.disk = false := by
    apply Bool.eq_false_iff.mpr
    intro h
    rw [fromBuffer, timeToSeek_eq hnew hs.lastSector.1 hs.totalTicks] at h
    exact hseek (of_decide_eq_true h).2.1
  have hpassed := hs.completes hnew hunbuffered
  -- the time of completion is a boundary after the seek
  refine (roundUp_isLeast (by decide) _).2 ⟨hpassed.1.1, ?_⟩
  have hrotation : 0 < rotationTime := by decide
  have hle := hpassed.1.2.1
  omega

theorem Invariant.rotates (hs : Invariant s) (hidle : s.disk.active = false)
    (hnew : IsSector newSector) (writing : Bool) : Rotates s newSector writing where
  positive := hs.latency_pos hnew.1
  accepted := by
    have hrange : newSector ≥ 0 ∧ newSector < numSectors := hnew
    have hpos : 0 < computeLatency newSector writing s.totalTicks s.disk := hs.latency_pos hnew.1
    rw [request, if_neg (by simp [hidle]), if_neg (not_not.mpr hrange), if_neg (not_not.mpr hpos)]
    rfl
  completes := hs.completes hnew.1
  buffered := hs.buffered hidle hnew.1

/-! ## Runs -/

theorem start_invariant : Invariant start := by
  constructor <;> decide

/-- What an accepted request does. -/
theorem request_cases (h : request newSector writing s = some u) :
    s.disk.active = false ∧ IsSector newSector ∧ u = { s with
      disk := { updateLast newSector s.totalTicks s.disk with active := true }
      interrupt := some (s.totalTicks + computeLatency newSector writing s.totalTicks s.disk) } := by
  rw [request] at h
  split at h
  · cases h
  · rename_i hidle
    split at h
    · cases h
    · rename_i hnew
      split at h
      · cases h
      · exact ⟨Bool.eq_false_iff.mpr hidle, not_not.mp hnew, (Option.some.inj h).symm⟩

theorem Invariant.request (hs : Invariant s) (h : request newSector writing s = some u) :
    Invariant u := by
  obtain ⟨hidle, hnew, rfl⟩ := request_cases h
  have hinit := updateLast_bufferInit hnew.1 hs.lastSector.1 hs.totalTicks
  have hpos : 0 < computeLatency newSector writing s.totalTicks s.disk := hs.latency_pos hnew.1
  have hround : s.totalTicks + seekFor newSector s.disk ≤
      timeAfter newSector s.totalTicks s.disk := le_roundUp (by decide) _
  have hseek := seekFor_nonneg newSector s.disk
  have hticks := hs.totalTicks
  refine ⟨hs.totalTicks, hnew, ?_, ?_, ?_, rfl⟩
  · show 0 ≤ (updateLast newSector s.totalTicks s.disk).bufferInit
    rw [hinit]
    split
    · omega
    · exact hs.nonneg
  · show rotationTime ∣ (updateLast newSector s.totalTicks s.disk).bufferInit
    rw [hinit]
    split
    · exact dvd_roundUp (by decide) _
    · exact hs.boundary
  · show (updateLast newSector s.totalTicks s.disk).bufferInit ≤ s.totalTicks + _
    rw [hinit]
    split
    · rename_i hmoved
      exact hs.timeAfter_le hnew.1 hmoved
    · have hloaded := hs.loaded hidle
      omega

theorem Invariant.step {e : Event} (hs : Invariant s) (h : step e s = some u) : Invariant u := by
  have hticks := hs.totalTicks
  have hloading := hs.loading
  cases e with
  | passes ticks =>
    cases h
    refine ⟨Int.add_nonneg hticks (Int.natCast_nonneg ticks), hs.lastSector, hs.nonneg, hs.boundary,
      ?_, hs.active⟩
    show s.disk.bufferInit ≤ s.interrupt.getD (s.totalTicks + ticks)
    cases hi : s.interrupt with
    | none =>
      rw [hi] at hloading
      exact le_add_of_le_of_nonneg hloading (Int.natCast_nonneg ticks)
    | some w =>
      rw [hi] at hloading
      exact hloading
  | readRequest sectorNumber => exact hs.request h
  | writeRequest sectorNumber => exact hs.request h
  | handleInterrupt =>
    simp only [Latency.step] at h
    split at h
    · cases h
    · rename_i w hi
      split at h
      · rename_i hdue
        cases h
        rw [hi] at hloading
        exact ⟨hticks, hs.lastSector, hs.nonneg, hs.boundary, le_trans hloading hdue, rfl⟩
      · cases h

theorem run_invariant_start {events : List Event} (hrun : run step events start = some s) :
    Invariant s :=
  run_invariant (fun _ _ _ hs h => Invariant.step hs h) start_invariant hrun

/-- In every run, a request for a sector of the disk that is made when the one before it has been
completed, is completed as on a disk that rotates. -/
theorem disk_latency {events : List Event} (hrun : run step events start = some s)
    (hidle : s.disk.active = false) (hnew : IsSector newSector) (writing : Bool) :
    Rotates s newSector writing :=
  (run_invariant_start hrun).rotates hidle hnew writing

theorem twoReads : run step [.passes 30, .readRequest 70, .passes 20000, .handleInterrupt] start =
    some ⟨20030, ⟨false, 70, 1500⟩, none⟩ := by
  decide +kernel

/-- Sector 70 is read, two tracks away; sector 65 can then be read from the track buffer. -/
theorem disk_latency_twoReads :
    fromBuffer 65 false 20030 ⟨false, 70, 1500⟩ = true ∧
      Rotates ⟨20030, ⟨false, 70, 1500⟩, none⟩ 65 false :=
  ⟨by decide +kernel, disk_latency twoReads rfl (by decide) false⟩

end Nachos.Machine.Latency
