import Nachos.Threads.Sections
import Nachos.Filesys.FileHeader

/-!
# `SynchDisk` (filesys/synchdisk.cc) on `Disk` (machine/disk.cc)

Threads that call `SynchDisk::ReadSector` and `SynchDisk::WriteSector`, each as
its script says, in any interleaving with the interrupts of the disk. The
semaphore is `semaphore` and the lock `lock` of `class SynchDisk`; a request
and the call of `P` after it are one step, since nothing in between turns
interrupts on. When an interrupt comes is not modelled, and so is neither what
`ComputeLatency` works it out from.

* `Invariant`: between two requests the disk and the semaphore are as they were
  at first; the thread that has made a request is alone with it;
* `synchDisk_serialises`: no assertion fails, and the requests, in the order in
  which the lock was acquired, read what was last written.
-/

namespace Nachos.Filesys

open Nachos.Framework Nachos.Threads

/-- `MagicSize`. -/
def magicSize : Nat := 4

/-- A call of a method of `SynchDisk`. -/
inductive DiskCall
  | readSector (sectorNumber : Int)
  | writeSector (sectorNumber : Int) (data : Bytes)

/-- A call whose request was made, and what its buffer holds then. -/
structure DiskRequest where
  thread : ThreadId
  call : DiskCall
  data : Bytes

/-- The data of `class Disk`, and how many interrupts it has scheduled. `requests` and `returned` are
not in the code: the requests ever made, and the calls that have gone past `semaphore->P()`, in
order. -/
structure DiskState where
  active : Bool
  file : Bytes
  pending : Nat
  requests : List DiskRequest
  returned : List DiskRequest

namespace SynchDisk

/-- Where a sector is in the UNIX file. -/
def offset (sectorNumber : Int) : Nat := (sectorSize * sectorNumber + magicSize).toNat

/-- `ASSERT((sectorNumber >= 0) && (sectorNumber < NumSectors))`. -/
def isSector (sectorNumber : Int) : Bool := 0 ≤ sectorNumber ∧ sectorNumber < numSectors

/-- `Disk::ReadRequest`; `none` when an assertion fails. -/
def readRequest (sectorNumber : Int) (d : DiskState) : Option (Bytes × DiskState) :=
  if d.active then none
  else if !isSector sectorNumber then none
  else some (fun i => d.file (offset sectorNumber + i),
    { d with active := true, pending := d.pending + 1 })

/-- `Disk::WriteRequest`. -/
def writeRequest (sectorNumber : Int) (data : Bytes) (d : DiskState) : Option DiskState :=
  if d.active then none
  else if !isSector sectorNumber then none
  else some { d with
    active := true
    pending := d.pending + 1
    file := splice d.file (offset sectorNumber) sectorSize data }

/-- The request of a call, recorded. -/
def request (t : ThreadId) (call : DiskCall) (d : DiskState) : Option (DiskRequest × DiskState) :=
  match call with
  | .readSector n => (readRequest n d).map fun r =>
    let q := ⟨t, call, r.1⟩
    (q, { r.2 with requests := d.requests ++ [q] })
  | .writeSector n data => (writeRequest n data d).map fun d' =>
    let q := ⟨t, call, data⟩
    (q, { d' with requests := d.requests ++ [q] })

/-- Where a thread is. -/
inductive Loc
  /-- The main thread, which forks a thread for each script. -/
  | main (scripts : List (List DiskCall))
  /-- Between two calls. -/
  | idle (calls : List DiskCall)
  /-- After `lock->Acquire()`. -/
  | locked (call : DiskCall) (calls : List DiskCall)
  /-- After `semaphore->P()`. -/
  | done (q : DiskRequest) (calls : List DiskCall)

/-- The threads, and `Disk::HandleInterrupt`, whose handler is `SynchDisk::RequestDone`. -/
def program : Program Unit Unit Empty DiskState Loc Unit where
  code t loc d := match loc with
    | .main [] => some (d, .finish, .main [])
    | .main (calls :: scripts) => some (d, .fork (.idle calls), .main scripts)
    | .idle [] => some (d, .finish, .idle [])
    | .idle (call :: calls) => some (d, .acquire (), .locked call calls)
    | .locked call calls => (request t call d).map fun r => (r.2, .P (), .done r.1 calls)
    | .done q calls => some ({ d with returned := d.returned ++ [q] }, .release (), .idle calls)
  handler _ d :=
    if d.pending = 0 then none
    else some ({ d with pending := d.pending - 1, active := false }, [()])

/-- A disk that holds `file`, and the main thread. -/
def start (file : Bytes) (scripts : List (List DiskCall)) : Core Unit Unit Empty DiskState Loc :=
  .new (fun _ => 0) ⟨false, file, 0, [], []⟩ (.main scripts)

/-! ## What the file holds -/

/-- What the last `WriteSector` among `qs` wrote. -/
def lastWrite (n : Int) (qs : List DiskRequest) : Option Bytes :=
  (qs.filterMap fun q => match q.call with
    | .readSector _ => none
    | .writeSector n' data => if n' = n then some data else none).getLast?

/-- What sector `n` holds after the requests `qs`. -/
def contents (file : Bytes) (n : Int) (qs : List DiskRequest) : Bytes :=
  (lastWrite n qs).getD fun i => file (offset n + i)

theorem offset_ne {n n' : Int} (hn : isSector n = true) (hn' : isSector n' = true) (hne : n' ≠ n)
    {i : Nat} (hi : i < sectorSize) :
    ¬ (offset n ≤ offset n' + i ∧ offset n' + i < offset n + sectorSize) := by
  simp only [isSector, decide_eq_true_eq] at hn hn'
  simp only [offset, sectorSize, magicSize, Nat.cast_ofNat] at hi ⊢
  omega

theorem contents_read (file : Bytes) (n : Int) (qs : List DiskRequest) {q : DiskRequest} {n' : Int}
    (hq : q.call = .readSector n') : contents file n (qs ++ [q]) = contents file n qs := by
  simp [contents, lastWrite, hq]

theorem contents_write (file : Bytes) (n : Int) (qs : List DiskRequest) {q : DiskRequest} {n' : Int}
    {data : Bytes} (hq : q.call = .writeSector n' data) :
    contents file n (qs ++ [q]) = if n' = n then data else contents file n qs := by
  by_cases hn : n' = n <;> simp [contents, lastWrite, hq, hn]

/-- The file holds what the requests wrote, and each of them that read has read what was last
written before it. -/
structure Recorded (file : Bytes) (d : DiskState) : Prop where
  holds : ∀ n, isSector n = true → ∀ i < sectorSize,
    d.file (offset n + i) = contents file n d.requests i
  reads : ∀ qs q qs' n, d.requests = qs ++ q :: qs' → q.call = .readSector n →
    ∀ i < sectorSize, q.data i = contents file n qs i

theorem eq_of_append_eq_snoc {α : Type} {as bs cs : List α} {a b : α} (h : as ++ [a] = bs ++ b :: cs) :
    (cs = [] ∧ as = bs ∧ a = b) ∨ ∃ ds, cs = ds ++ [a] ∧ as = bs ++ b :: ds := by
  cases cs using List.reverseRecOn with
  | nil =>
    obtain ⟨h₁, h₂⟩ := List.append_inj' h rfl
    exact .inl ⟨rfl, h₁, by simpa using h₂⟩
  | append_singleton ds c =>
    rw [← List.cons_append, ← List.append_assoc] at h
    obtain ⟨h₁, h₂⟩ := List.append_inj' h rfl
    obtain rfl : a = c := by simpa using h₂
    exact .inr ⟨ds, rfl, h₁⟩

theorem readRequest_eq_some {n : Int} {data : Bytes} {d d' : DiskState}
    (h : readRequest n d = some (data, d')) : isSector n = true ∧
      data = (fun i => d.file (offset n + i)) ∧
      d' = { d with active := true, pending := d.pending + 1 } := by
  unfold readRequest at h
  split at h
  · cases h
  · split at h
    · cases h
    next hsector =>
      simp only [Option.some.injEq, Prod.mk.injEq] at h
      exact ⟨by simpa using hsector, h.1.symm, h.2.symm⟩

theorem writeRequest_eq_some {n : Int} {data : Bytes} {d d' : DiskState}
    (h : writeRequest n data d = some d') : isSector n = true ∧ d' = { d with
      active := true
      pending := d.pending + 1
      file := splice d.file (offset n) sectorSize data } := by
  unfold writeRequest at h
  split at h
  · cases h
  · split at h
    · cases h
    next hsector => exact ⟨by simpa using hsector, (Option.some.inj h).symm⟩

/-- What a request does. -/
theorem request_eq_some {t : ThreadId} {call : DiskCall} {d d' : DiskState} {q : DiskRequest}
    (h : request t call d = some (q, d')) : q.thread = t ∧ q.call = call ∧
      d'.active = true ∧ d'.pending = d.pending + 1 ∧ d'.requests = d.requests ++ [q] ∧
      d'.returned = d.returned := by
  cases call with
  | readSector n =>
    obtain ⟨⟨data, d₁⟩, hread, heq⟩ := Option.map_eq_some_iff.mp h
    obtain ⟨-, -, rfl⟩ := readRequest_eq_some hread
    simp only [Prod.mk.injEq] at heq
    obtain ⟨rfl, rfl⟩ := heq
    exact ⟨rfl, rfl, rfl, rfl, rfl, rfl⟩
  | writeSector n data =>
    obtain ⟨d₁, hwrite, heq⟩ := Option.map_eq_some_iff.mp h
    obtain ⟨-, rfl⟩ := writeRequest_eq_some hwrite
    simp only [Prod.mk.injEq] at heq
    obtain ⟨rfl, rfl⟩ := heq
    exact ⟨rfl, rfl, rfl, rfl, rfl, rfl⟩

/-- The sector that a call is for. -/
def sector : DiskCall → Int
  | .readSector n => n
  | .writeSector n _ => n

theorem request_isSome {t : ThreadId} {call : DiskCall} {d : DiskState} (hactive : d.active = false)
    (hsector : isSector (sector call) = true) : ∃ q d', request t call d = some (q, d') := by
  cases call with
  | readSector n =>
    have hsector : isSector n = true := hsector
    simp [request, readRequest, hactive, hsector]
  | writeSector n data =>
    have hsector : isSector n = true := hsector
    simp [request, writeRequest, hactive, hsector]

theorem Recorded.request {t : ThreadId} {call : DiskCall} {file : Bytes} {d d' : DiskState}
    {q : DiskRequest} (hd : Recorded file d) (h : SynchDisk.request t call d = some (q, d')) :
    Recorded file d' := by
  have hlog := (request_eq_some h).2.2.2.2.1
  have hold {qs qs' : List DiskRequest} {q' : DiskRequest} {n : Int}
      (hlast : qs' = [] → d.requests = qs → q = q' → q'.call = .readSector n → ∀ i < sectorSize,
        q'.data i = contents file n qs i)
      (heq : d'.requests = qs ++ q' :: qs') (hcall : q'.call = .readSector n) :
      ∀ i < sectorSize, q'.data i = contents file n qs i := by
    obtain ⟨h₁, h₂, h₃⟩ | ⟨ds, -, h₂⟩ := eq_of_append_eq_snoc (hlog ▸ heq)
    · exact hlast h₁ h₂ h₃ hcall
    · exact hd.reads qs q' ds n h₂ hcall
  have hcall := (request_eq_some h).2.1
  cases call with
  | readSector n =>
    obtain ⟨⟨data, d₁⟩, hread, heq⟩ := Option.map_eq_some_iff.mp h
    obtain ⟨hsector, hdata, hd₁⟩ := readRequest_eq_some hread
    simp only [Prod.mk.injEq] at heq
    have hfile : d'.file = d.file := by rw [← heq.2, hd₁]
    have hq : q.data = data := by rw [← heq.1]
    refine ⟨fun n' hn' i hi => ?_, fun qs q' qs' n' heq' hcall' => hold ?_ heq' hcall'⟩
    · rw [hfile, hlog, contents_read file n' _ hcall]
      exact hd.holds n' hn' i hi
    · rintro - rfl rfl hcall'' i hi
      obtain rfl : n = n' := by simpa [hcall] using hcall''
      rw [hq, hdata]
      exact hd.holds n hsector i hi
  | writeSector n data =>
    obtain ⟨d₁, hwrite, heq⟩ := Option.map_eq_some_iff.mp h
    obtain ⟨hsector, hd₁⟩ := writeRequest_eq_some hwrite
    simp only [Prod.mk.injEq] at heq
    have hfile : d'.file = splice d.file (offset n) sectorSize data := by rw [← heq.2, hd₁]
    refine ⟨fun n' hn' i hi => ?_, fun qs q' qs' n' heq' hcall' => hold ?_ heq' hcall'⟩
    · rw [hfile, hlog, contents_write file n' _ hcall]
      by_cases hn : n = n'
      · rw [if_pos hn, ← hn, splice_apply_add hi]
      · rw [if_neg hn, splice_apply_of_notMem (offset_ne hsector hn' (Ne.symm hn) hi)]
        exact hd.holds n' hn' i hi
    · rintro - - rfl hcall''
      simp [hcall] at hcall''

/-! ## Runs -/

variable {s u : Core Unit Unit Empty DiskState Loc} {t : ThreadId}

/-- The places between `lock->Acquire()` and `lock->Release()`. -/
def inside : Loc → Bool
  | .locked _ _ => true
  | .done _ _ => true
  | _ => false

/-- What the code of thread `t` at a place does in one step. -/
inductive Does (t : ThreadId) (d : DiskState) :
    Loc → DiskState → Instr Unit Unit Empty Loc → Loc → Prop
  | ends : Does t d (.main []) d .finish (.main [])
  | forks (calls : List DiskCall) (scripts : List (List DiskCall)) :
    Does t d (.main (calls :: scripts)) d (.fork (.idle calls)) (.main scripts)
  | finishes : Does t d (.idle []) d .finish (.idle [])
  | acquires (call : DiskCall) (calls : List DiskCall) :
    Does t d (.idle (call :: calls)) d (.acquire ()) (.locked call calls)
  | requests (call : DiskCall) (calls : List DiskCall) (q : DiskRequest) (d' : DiskState)
      (h : request t call d = some (q, d')) :
    Does t d (.locked call calls) d' (.P ()) (.done q calls)
  | returns (q : DiskRequest) (calls : List DiskCall) :
    Does t d (.done q calls) { d with returned := d.returned ++ [q] } (.release ()) (.idle calls)

theorem code_does {t : ThreadId} {loc next : Loc} {d d' : DiskState} {i : Instr Unit Unit Empty Loc}
    (h : program.code t loc d = some (d', i, next)) : Does t d loc d' i next := by
  cases loc with
  | main scripts =>
    cases scripts with
    | nil => cases h; exact .ends
    | cons calls scripts => cases h; exact .forks calls scripts
  | idle calls =>
    cases calls with
    | nil => cases h; exact .finishes
    | cons call calls => cases h; exact .acquires call calls
  | locked call calls =>
    obtain ⟨⟨q, d₁⟩, hrequest, heq⟩ := Option.map_eq_some_iff.mp h
    cases heq
    exact .requests call calls q d₁ hrequest
  | done q calls => cases h; exact .returns q calls

theorem section_lock : Section program (.lock ()) inside (fun _ => 0) where
  code hcode := by
    cases code_does hcode <;> exact .of_test rfl rfl
  handler _ := ⟨by simp, rfl⟩

/-- The calls that a thread has still to make. -/
def Loc.calls : Loc → List DiskCall
  | .main scripts => scripts.flatten
  | .idle calls => calls
  | .locked call calls => call :: calls
  | .done _ calls => calls

/-- The calls are for sectors of the disk. -/
def Valid (calls : List DiskCall) : Prop := ∀ call ∈ calls, isSector (sector call) = true

/-- Where a thread can be. -/
def At : PC Unit Unit Empty Loc → Prop
  | .user loc => Valid loc.calls
  | .inP _ next => ∃ q calls, next = .done q calls ∧ Valid calls
  | .inAcquire _ next => ∃ call calls, next = .locked call calls ∧ Valid (call :: calls)
  | .inWait _ _ _ => False
  | .finished => True

theorem places : Places program At where
  code := by
    intro t loc m m' i next q hloc hcode hq
    cases code_does hcode with
    | ends | finishes =>
      cases hq with
      | finished => trivial
      | user h _ => cases h
    | forks calls scripts =>
      have hloc : Valid (calls ++ scripts.flatten) := hloc
      cases hq with
      | start _ => exact fun call h => hloc call (List.mem_append_left _ h)
      | user _ _ => exact fun call h => hloc call (List.mem_append_right _ h)
    | acquires call calls =>
      cases hq with
      | inAcquire _ => exact ⟨call, calls, rfl, hloc⟩
      | user _ _ => exact hloc
    | requests call calls r _ _ =>
      have hcalls : Valid calls := fun call h => hloc call (List.mem_cons_of_mem _ h)
      cases hq with
      | inP _ => exact ⟨r, calls, rfl, hcalls⟩
      | user _ _ => exact hcalls
    | returns r calls =>
      cases hq with
      | user _ _ => exact hloc
  inP := by
    rintro x next ⟨q, calls, rfl, hcalls⟩
    exact hcalls
  inAcquire := by
    rintro k next ⟨call, calls, rfl, hcalls⟩
    exact hcalls
  inWait h := h.elim

/-- No request is outstanding. -/
structure Quiet (s : Core Unit Unit Empty DiskState Loc) : Prop where
  active : s.mem.active = false
  pending : s.mem.pending = 0
  value : (s.sem ()).value = 0
  queue : (s.sem ()).queue = []
  returned : s.mem.requests = s.mem.returned

/-- How far the last request is, which thread `t` has made: it is outstanding and `t` sleeps; or it is
done, and `t` has still to get past `P`; or `t` has got past it. -/
inductive Progress (t : ThreadId) (s : Core Unit Unit Empty DiskState Loc) : Prop
  | outstanding (active : s.mem.active = true) (pending : s.mem.pending = 1)
    (value : (s.sem ()).value = 0) (queue : (s.sem ()).queue = [t])
  | completed (active : s.mem.active = false) (pending : s.mem.pending = 0)
    (value : (s.sem ()).value = 1) (queue : (s.sem ()).queue = []) {next : Loc}
    (pc : s.pc t = .inP () next)
  | past (active : s.mem.active = false) (pending : s.mem.pending = 0)
    (value : (s.sem ()).value = 0) (queue : (s.sem ()).queue = []) {loc : Loc}
    (pc : s.pc t = .user loc)

/-- `t` has made the request `q`, and not given the lock back. -/
def HasMade (t : ThreadId) (q : DiskRequest) (s : Core Unit Unit Empty DiskState Loc) : Prop :=
  ∃ calls, (s.pc t).place = some (.done q calls)

/-- What the disk and the threads keep to. -/
structure Invariant (file : Bytes) (s : Core Unit Unit Empty DiskState Loc) : Prop where
  queued : s.Queued
  guarded : Guarded (.lock ()) inside (fun _ => 0) s
  at_ : ∀ t, At (s.pc t)
  recorded : Recorded file s.mem
  quiet : (∀ t q, ¬ HasMade t q s) → Quiet s
  made : ∀ t q, HasMade t q s → q.thread = t ∧ s.mem.requests = s.mem.returned ++ [q] ∧ Progress t s

theorem HasMade.within {q : DiskRequest} (h : HasMade t q s) (hat : At (s.pc t)) :
    (s.pc t).within (.lock ()) inside = true := by
  obtain ⟨calls, h⟩ := h
  cases hpc : s.pc t with
  | user loc =>
    rw [hpc] at h
    obtain rfl := Option.some.inj h
    rfl
  | inP x next =>
    rw [hpc] at h
    obtain rfl := Option.some.inj h
    rfl
  | inAcquire k next =>
    rw [hpc] at h hat
    obtain ⟨call, calls', rfl, -⟩ := hat
    cases h
  | inWait x k next => exact x.elim
  | finished =>
    rw [hpc] at h
    cases h

variable {file : Bytes} {i : Instr Unit Unit Empty Loc} {m : DiskState}

/-- A thread that is inside is alone with its request. -/
theorem Invariant.alone (hs : Invariant file s) (ht : (s.pc t).within (.lock ()) inside = true)
    {t' : ThreadId} {q : DiskRequest} (h : HasMade t' q s) : t' = t :=
  hs.guarded.eq_of_within hs.queued ht (h.within (hs.at_ t'))

/-- A thread other than `t` that has made a request after a call of `t` had made it before. -/
theorem HasMade.of_call {t' : ThreadId} {q : DiskRequest} {next : Loc} (hs : s.Queued)
    (hstart : ∀ start, i = .fork start → ∃ calls, start = .idle calls) (hne : t' ≠ t)
    (h : HasMade t' q (Core.call t i next { s with mem := m }).2) : HasMade t' q s := by
  obtain hsame | ⟨start, hi, -, hpc⟩ := Core.call_pc (hs.withMem m) i next hne
  · exact h.imp fun calls h => hsame ▸ h
  · obtain ⟨calls, rfl⟩ := hstart start hi
    obtain ⟨calls', h⟩ := h
    rw [hpc] at h
    cases h

/-- What a step has to keep, besides what the sections and places keep by themselves. -/
structure Serves (file : Bytes) (s : Core Unit Unit Empty DiskState Loc) : Prop where
  recorded : Recorded file s.mem
  quiet : (∀ t q, ¬ HasMade t q s) → Quiet s
  made : ∀ t q, HasMade t q s → q.thread = t ∧ s.mem.requests = s.mem.returned ++ [q] ∧ Progress t s

/-- A call outside the section, or at its begin. -/
theorem Serves.calm {next : Loc} (hs : Invariant file s)
    (hstart : ∀ start, i = .fork start → ∃ calls, start = .idle calls)
    (hbefore : ∀ q, ¬ HasMade t q s)
    (hafter : ∀ q, ¬ HasMade t q (Core.call t i next s).2)
    (hsem : (Core.call t i next s).2.sem = s.sem) : Serves file (Core.call t i next s).2 := by
  have hmem : (Core.call t i next s).2.mem = s.mem := Core.call_mem i next s
  refine ⟨hmem ▸ hs.recorded, fun hnone => ?_, fun t' q h => ?_⟩
  · obtain ⟨h₁, h₂, h₃, h₄, h₅⟩ := hs.quiet fun t' q h => by
      by_cases hne : t' = t
      · exact hbefore q (hne ▸ h)
      · have hborn : s.pc t' ≠ .finished := fun hfin => by
          obtain ⟨calls, h⟩ := h
          rw [hfin] at h
          cases h
        refine hnone t' q ?_
        obtain ⟨calls, h⟩ := h
        exact ⟨calls, by rw [Core.call_pc_of_ne hs.queued i next hne hborn, h]⟩
    exact ⟨by rw [hmem, h₁], by rw [hmem, h₂], by rw [hsem, h₃], by rw [hsem, h₄], by rw [hmem, h₅]⟩
  · have hne : t' ≠ t := fun he => hafter q (he ▸ h)
    have hmade : HasMade t' q s := h.of_call (m := s.mem) hs.queued hstart hne
    have hborn : s.pc t' ≠ .finished := fun hfin => by
      obtain ⟨calls, h⟩ := hmade
      rw [hfin] at h
      cases h
    have hpc := Core.call_pc_of_ne hs.queued i next hne hborn
    obtain ⟨hthread, hlog, hprogress⟩ := hs.made t' q hmade
    refine ⟨hthread, by rw [hmem, hlog], ?_⟩
    cases hprogress with
    | outstanding h₁ h₂ h₃ h₄ =>
      exact .outstanding (by rw [hmem, h₁]) (by rw [hmem, h₂]) (by rw [hsem, h₃]) (by rw [hsem, h₄])
    | completed h₁ h₂ h₃ h₄ h₅ =>
      exact .completed (by rw [hmem, h₁]) (by rw [hmem, h₂]) (by rw [hsem, h₃]) (by rw [hsem, h₄])
        (hpc.trans h₅)
    | past h₁ h₂ h₃ h₄ h₅ =>
      exact .past (by rw [hmem, h₁]) (by rw [hmem, h₂]) (by rw [hsem, h₃]) (by rw [hsem, h₄])
        (hpc.trans h₅)

/-- The request, and `P`, which sleeps. -/
theorem Serves.request {call : DiskCall} {calls : List DiskCall} {q : DiskRequest}
    (hs : Invariant file s) (hpc : s.pc t = .user (.locked call calls))
    (hreq : SynchDisk.request t call s.mem = some (q, m)) :
    Serves file (Core.call t (.P ()) (.done q calls) { s with mem := m }).2 := by
  have hnone : ∀ t' q', ¬ HasMade t' q' s := fun t' q' h => by
    obtain rfl := hs.alone (t := t) (by rw [hpc]; rfl) h
    obtain ⟨calls', h⟩ := h
    rw [hpc] at h
    cases h
  obtain ⟨-, hpending, hvalue, hqueue, hlog⟩ := hs.quiet hnone
  obtain ⟨hthread, -, hactive', hpending', hrequests', hreturned'⟩ := request_eq_some hreq
  rw [Core.call, Core.testP_of_zero { s with mem := m } t hvalue]
  refine ⟨hs.recorded.request hreq, fun h => ?_, fun t' q' h => ?_⟩
  · exact absurd ⟨calls, by simp [PC.place]⟩ (h t q)
  · by_cases hne : t' = t
    · subst hne
      obtain ⟨calls', h⟩ := h
      simp only [Core.setPC_pc, Function.update_self, PC.place, Option.some.injEq, Loc.done.injEq] at h
      obtain ⟨rfl, -⟩ := h
      refine ⟨hthread, by simp [hrequests', hreturned', hlog], ?_⟩
      exact .outstanding hactive' (by simp [hpending', hpending]) (by simp [hvalue]) (by simp [hqueue])
    · refine absurd ?_ (hnone t' q')
      obtain ⟨calls', h⟩ := h
      exact ⟨calls', by simpa [hne] using h⟩

/-- `P` returns after the interrupt. -/
theorem Serves.returns {q : DiskRequest} {calls : List DiskCall} (hs : Invariant file s)
    (hawake : s.asleep t = false) (hpc : s.pc t = .inP () (.done q calls)) :
    Serves file (Core.call t (.P ()) (.done q calls) s).2 := by
  have hmade : HasMade t q s := ⟨calls, by rw [hpc]; rfl⟩
  obtain ⟨hthread, hlog, hprogress⟩ := hs.made t q hmade
  cases hprogress with
  | outstanding _ _ _ hqueue =>
    exact absurd (by simp [hqueue]) (hs.queued.not_mem hawake (.sem ()))
  | past _ _ _ _ hpc' => simp [hpc] at hpc'
  | completed hactive hpending hvalue hqueue _ =>
    rw [Core.call, Core.testP_of_ne_zero s t (by simp [hvalue])]
    refine ⟨hs.recorded, fun h => ?_, fun t' q' h => ?_⟩
    · exact absurd ⟨calls, by simp [PC.place]⟩ (h t q)
    · by_cases hne : t' = t
      · subst hne
        obtain ⟨calls', h⟩ := h
        simp only [Core.setPC_pc, Function.update_self, PC.place, Option.some.injEq,
          Loc.done.injEq] at h
        obtain ⟨rfl, -⟩ := h
        refine ⟨hthread, hlog, .past hactive hpending ?_ (by simpa using hqueue)
          (Function.update_self t' _ s.pc)⟩
        simp [hvalue, int32]
      · have hmade' : HasMade t' q' s := h.imp fun calls' h => by simpa [hne] using h
        exact absurd (hs.alone (hmade.within (hs.at_ t)) hmade') hne

/-- The call returns, and gives the lock back. -/
theorem Serves.release {q : DiskRequest} {calls : List DiskCall} (hs : Invariant file s)
    (hawake : s.asleep t = false) (hpc : s.pc t = .user (.done q calls)) :
    Serves file (Core.call t (.release ()) (.idle calls)
      { s with mem := { s.mem with returned := s.mem.returned ++ [q] } }).2 := by
  have hmade : HasMade t q s := ⟨calls, by rw [hpc]; rfl⟩
  obtain ⟨hthread, hlog, hprogress⟩ := hs.made t q hmade
  have hnone (t' : ThreadId) (q' : DiskRequest) : ¬ HasMade t' q' (Core.call t (.release ())
      (.idle calls) { s with mem := { s.mem with returned := s.mem.returned ++ [q] } }).2 := by
    intro h
    by_cases hne : t' = t
    · subst hne
      obtain ⟨calls', h⟩ := h
      simp [Core.call, PC.place] at h
    · have hmade' : HasMade t' q' s := h.of_call hs.queued (by simp) hne
      exact hne (hs.alone (hmade.within (hs.at_ t)) hmade')
  cases hprogress with
  | outstanding _ _ _ hqueue =>
    exact absurd (by simp [hqueue]) (hs.queued.not_mem hawake (.sem ()))
  | completed _ _ _ _ hpc' => simp [hpc] at hpc'
  | past hactive hpending hvalue hqueue _ =>
    refine ⟨⟨hs.recorded.holds, hs.recorded.reads⟩, fun _ => ⟨hactive, hpending, hvalue, hqueue, hlog⟩,
      fun t' q' h => absurd h (hnone t' q')⟩

theorem not_hasMade (loc : Loc) {q : DiskRequest} (h : (s.pc t).place = some loc)
    (hloc : ∀ q calls, loc ≠ .done q calls) : ¬ HasMade t q s := by
  rintro ⟨calls, h'⟩
  exact hloc q calls (Option.some.inj (h.symm.trans h'))

theorem Serves.acquire {call : DiskCall} {calls : List DiskCall} {loc : Loc} (hs : Invariant file s)
    (hborn : s.pc t ≠ .finished) (hplace : (s.pc t).place = some loc)
    (hloc : ∀ q calls, loc ≠ .done q calls) :
    Serves file (Core.call t (.acquire ()) (.locked call calls) s).2 := by
  refine Serves.calm hs (by simp) (fun q => not_hasMade _ hplace hloc) (fun q => ?_)
    (Core.testAcquire_sem s t () _)
  refine not_hasMade (.locked call calls) ?_ (by simp)
  exact (Core.call_place (.acquire ()) _ (Core.lt_numThreads hs.queued hborn).ne).1

theorem step_serves {e : Effect} (hs : Invariant file s) (h : s.step program t = some (e, u)) :
    Serves file u := by
  obtain ⟨hawake, i, m, next, hbegins, heq⟩ := Core.step_eq_some h
  rw [show u = (Core.call t i next { s with mem := m }).2 from congrArg Prod.snd heq]
  have hborn := hbegins.pc_ne_finished
  have hat := hs.at_ t
  cases hbegins with
  | inP hpc =>
    rw [hpc] at hat
    obtain ⟨q, calls, rfl, -⟩ := hat
    exact .returns hs hawake hpc
  | inAcquire hpc =>
    rw [hpc] at hat
    obtain ⟨call, calls, rfl, -⟩ := hat
    exact .acquire hs hborn (by rw [hpc]; rfl) (by simp)
  | inWait hpc =>
    rw [hpc] at hat
    exact hat.elim
  | @user loc _ _ _ hpc hcode =>
    have hplace : (s.pc t).place = some loc := by rw [hpc]; rfl
    cases code_does hcode with
    | ends | finishes =>
      exact .calm hs (by simp) (fun q => not_hasMade _ hplace (by simp))
        (fun q => by simp [HasMade, Core.call, PC.place]) rfl
    | forks calls scripts =>
      have hne := (Core.lt_numThreads hs.queued hborn).ne
      exact .calm hs (by simp) (fun q => not_hasMade _ hplace (by simp))
        (fun q => by simp [HasMade, Core.call, PC.place, hne]) rfl
    | acquires call calls => exact .acquire hs hborn hplace (by simp)
    | requests call calls q _ hreq => exact .request hs hpc hreq
    | returns q calls => exact .release hs hawake hpc

/-- The interrupt, which comes when a request is outstanding, and wakes the thread that made it. -/
theorem interrupt_serves {ts : List ThreadId} (hs : Invariant file s)
    (h : s.interrupt program () = some (ts, u)) : Serves file u := by
  obtain ⟨m, xs, hhandler, heq⟩ := Core.interrupt_eq_some h
  have hpending : s.mem.pending ≠ 0 := fun h0 => by simp [program, h0] at hhandler
  simp only [program, hpending, if_false, Option.some.injEq, Prod.mk.injEq] at hhandler
  obtain ⟨rfl, rfl⟩ := hhandler
  obtain rfl : u = _ := congrArg Prod.snd heq
  have hmade {t : ThreadId} {q : DiskRequest} (h : HasMade t q s) : s.mem.pending = 1 ∧
      (s.sem ()).value = 0 ∧ (s.sem ()).queue = [t] ∧ q.thread = t ∧
      s.mem.requests = s.mem.returned ++ [q] := by
    obtain ⟨hthread, hlog, hprogress⟩ := hs.made t q h
    cases hprogress with
    | outstanding _ h₂ h₃ h₄ => exact ⟨h₂, h₃, h₄, hthread, hlog⟩
    | completed _ h₂ => exact absurd h₂ hpending
    | past _ h₂ => exact absurd h₂ hpending
  refine ⟨⟨hs.recorded.holds, hs.recorded.reads⟩, fun hnone => ?_, fun t q h => ?_⟩
  · exact absurd (hs.quiet hnone).pending hpending
  · obtain ⟨h₁, h₂, h₃, hthread, hlog⟩ := hmade h
    have hqueue : t ∈ s.queue (.sem ()) := by simp [h₃]
    obtain ⟨next, hpc⟩ := Core.pc_of_mem_sem_queue hs.queued hqueue
    refine ⟨hthread, hlog, .completed rfl ?_ ?_ ?_ hpc⟩
    · simp [Core.signalAll, h₁]
    · simp [Core.signalAll, Semaphore.V, h₂, int32]
    · simp [Core.signalAll, Semaphore.V, h₃]

theorem Invariant.next {v : Move Unit} (hs : Invariant file s) (h : s.next program v = some u) :
    Invariant file u := by
  have hserves : Serves file u := by
    cases v with
    | thread t =>
      obtain ⟨⟨e, u'⟩, hstep, rfl⟩ := Option.map_eq_some_iff.mp h
      exact step_serves hs hstep
    | interrupt e =>
      obtain ⟨⟨ts, u'⟩, hint, rfl⟩ := Option.map_eq_some_iff.mp h
      exact interrupt_serves hs hint
  exact ⟨Core.next_queued hs.queued h, Core.next_guarded section_lock hs.queued hs.guarded h,
    Core.next_places places hs.queued hs.at_ h, hserves.recorded, hserves.quiet, hserves.made⟩

theorem start_invariant {scripts : List (List DiskCall)} (hvalid : ∀ calls ∈ scripts, Valid calls) :
    Invariant file (start file scripts) where
  queued := Core.new_queued _ _ _
  guarded := Core.new_guarded _ rfl Int.one_nonneg rfl
  at_ t := by
    by_cases ht : t = 0
    · subst ht
      intro call h
      obtain ⟨calls, hcalls, h⟩ := List.mem_flatten.mp h
      exact hvalid calls hcalls call h
    · simp [start, Core.new, ht, At]
  recorded := ⟨fun _ _ _ _ => rfl, fun qs q qs' n h => by simp [start, Core.new] at h⟩
  quiet _ := ⟨rfl, rfl, rfl, rfl, rfl⟩
  made t q h := by
    obtain ⟨calls, h⟩ := h
    by_cases ht : t = 0 <;> simp [start, Core.new, ht, PC.place] at h

/-! ## The result -/

theorem Invariant.quiet_of_locked (hs : Invariant file s) {call : DiskCall} {calls : List DiskCall}
    (hpc : s.pc t = .user (.locked call calls)) : Quiet s :=
  hs.quiet fun t' q h => by
    obtain rfl := hs.alone (t := t) (by rw [hpc]; rfl) h
    exact not_hasMade (.locked call calls) (by rw [hpc]; rfl) (by simp) h

theorem Invariant.progress (hs : Invariant file s) : Quiet s ∨ ∃ t q, HasMade t q s ∧
    q.thread = t ∧ s.mem.requests = s.mem.returned ++ [q] ∧ Progress t s := by
  by_cases h : ∃ t q, HasMade t q s
  · obtain ⟨t, q, h⟩ := h
    exact .inr ⟨t, q, h, hs.made t q h⟩
  · exact .inl (hs.quiet fun t q hq => h ⟨t, q, hq⟩)

/-- The holder of the lock makes one request, after all of those of the holders before it. -/
theorem Invariant.holder (hs : Invariant file s) :
    ((s.lock ()).free = true ∧ s.mem.requests = s.mem.returned) ∨
    ∃ t, (s.lock ()).free = false ∧ (s.lock ()).holder = some t ∧
      ((∃ call calls, s.pc t = .user (.locked call calls) ∧ s.mem.requests = s.mem.returned) ∨
        ∃ q, HasMade t q s ∧ q.thread = t ∧ s.mem.requests = s.mem.returned ++ [q]) := by
  cases hfree : (s.lock ()).free with
  | true =>
    refine .inl ⟨rfl, (hs.quiet fun t q h => ?_).returned⟩
    have hpos := Core.count_pos hs.queued rfl (h.within (hs.at_ t))
    have htotal := hs.guarded.total
    simp only [Core.permits_lock, hfree, if_true] at htotal
    omega
  | false =>
    obtain ⟨t, ht⟩ := hs.guarded.exists_within (by simp [hfree]) rfl
    refine .inr ⟨t, rfl, hs.guarded.holder () t rfl ht, ?_⟩
    have hat := hs.at_ t
    cases hpc : s.pc t with
    | user loc =>
      rw [hpc] at ht
      cases loc with
      | main _ | idle _ => simp [PC.within, PC.place, inside] at ht
      | locked call calls => exact .inl ⟨call, calls, rfl, (hs.quiet_of_locked hpc).returned⟩
      | done q calls =>
        have hmade : HasMade t q s := ⟨calls, by rw [hpc]; rfl⟩
        obtain ⟨hthread, hlog, -⟩ := hs.made t q hmade
        exact .inr ⟨q, hmade, hthread, hlog⟩
    | inP x next =>
      rw [hpc] at hat
      obtain ⟨q, calls, rfl, -⟩ := hat
      have hmade : HasMade t q s := ⟨calls, by rw [hpc]; rfl⟩
      obtain ⟨hthread, hlog, -⟩ := hs.made t q hmade
      exact .inr ⟨q, hmade, hthread, hlog⟩
    | inAcquire k next => simp [hpc, PC.within, PC.takes] at ht
    | inWait x k next => exact x.elim
    | finished => simp [hpc, PC.within, PC.place] at ht

theorem Invariant.code_isSome (hs : Invariant file s) {loc : Loc} (hpc : s.pc t = .user loc) :
    (program.code t loc s.mem).isSome := by
  cases loc with
  | main scripts => cases scripts <;> rfl
  | idle calls => cases calls <;> rfl
  | locked call calls =>
    have hat := hs.at_ t
    rw [hpc] at hat
    obtain ⟨q, d, h⟩ := request_isSome (t := t) (hs.quiet_of_locked hpc).active
      (hat call List.mem_cons_self)
    simp [program, h]
  | done q calls => rfl

/-- In every interleaving of threads that call `ReadSector` and `WriteSector` for sectors of the disk
with the interrupts of the disk: no assertion fails; one request at most is outstanding; the
semaphore is 0 or 1, and a thread in `P` is the one that made the last request, alone with it,
which is awake once the semaphore is 1; each holder of the lock makes one request, and makes it when
those of the holders before it have returned; and a request that reads reads the bytes that the
last request to write that sector has written, or those that were there at first. -/
theorem synchDisk_serialises {scripts : List (List DiskCall)} {ms : List (Move Unit)}
    (hvalid : ∀ calls ∈ scripts, ∀ call ∈ calls, isSector (sector call) = true)
    (h : run (Core.next program) ms (start file scripts) = some s) :
    (∀ t loc, s.pc t = .user loc → (program.code t loc s.mem).isSome) ∧
    (s.mem.pending ≤ 1 ∧ (s.mem.active = true ↔ s.mem.pending = 1)) ∧
    (0 ≤ (s.sem ()).value ∧ (s.sem ()).value ≤ 1) ∧
    (∀ t next, s.pc t = .inP () next → ∃ q calls, next = .done q calls ∧ q.thread = t ∧
      s.mem.requests = s.mem.returned ++ [q] ∧ ((s.sem ()).value = 1 ↔ s.asleep t = false)) ∧
    ((s.sem ()).value = 1 → ∃ t next, s.pc t = .inP () next) ∧
    (((s.lock ()).free = true ∧ s.mem.requests = s.mem.returned) ∨
      ∃ t, (s.lock ()).free = false ∧ (s.lock ()).holder = some t ∧
        ((∃ call calls, s.pc t = .user (.locked call calls) ∧ s.mem.requests = s.mem.returned) ∨
          ∃ q, HasMade t q s ∧ q.thread = t ∧ s.mem.requests = s.mem.returned ++ [q])) ∧
    (∀ qs q qs' n, s.mem.requests = qs ++ q :: qs' → q.call = .readSector n → ∀ i < sectorSize,
      q.data i = (lastWrite n qs).getD (fun i => file (offset n + i)) i) := by
  have hs : Invariant file s :=
    run_invariant (fun _ _ _ hs hstep => hs.next hstep) (start_invariant hvalid) h
  refine ⟨fun t loc hpc => hs.code_isSome hpc, ?_, ?_, fun t next hpc => ?_, fun hone => ?_,
    hs.holder, hs.recorded.reads⟩
  · obtain ⟨h₁, h₂, -⟩ | ⟨t, q, -, -, -, hprogress⟩ := hs.progress
    · simp [h₁, h₂]
    · cases hprogress with
      | outstanding h₁ h₂ _ _ => simp [h₁, h₂]
      | completed h₁ h₂ _ _ _ => simp [h₁, h₂]
      | past h₁ h₂ _ _ _ => simp [h₁, h₂]
  · obtain ⟨-, -, h₃, -⟩ | ⟨t, q, -, -, -, hprogress⟩ := hs.progress
    · simp [h₃]
    · cases hprogress with
      | outstanding _ _ h₃ _ => simp [h₃]
      | completed _ _ h₃ _ _ => simp [h₃]
      | past _ _ h₃ _ _ => simp [h₃]
  · have hat := hs.at_ t
    rw [hpc] at hat
    obtain ⟨q, calls, rfl, -⟩ := hat
    obtain ⟨hthread, hlog, hprogress⟩ := hs.made t q ⟨calls, by rw [hpc]; rfl⟩
    refine ⟨q, calls, rfl, hthread, hlog, ?_⟩
    cases hprogress with
    | outstanding _ _ h₃ h₄ => simp [h₃, h₄, Core.asleep, hpc, PC.waitsOn]
    | completed _ _ h₃ h₄ _ => simp [h₃, h₄, Core.asleep, hpc, PC.waitsOn]
    | past _ _ _ _ h₅ => simp [hpc] at h₅
  · obtain ⟨-, -, h₃, -⟩ | ⟨t, q, -, -, -, hprogress⟩ := hs.progress
    · simp [h₃] at hone
    · cases hprogress with
      | outstanding _ _ h₃ _ => simp [h₃] at hone
      | completed _ _ _ _ h₅ => exact ⟨t, _, h₅⟩
      | past _ _ h₃ _ _ => simp [h₃] at hone

/-- A thread writes sector 3 while another one waits for the lock to read it. -/
theorem synchDisk_serialises_two : ∃ s, run (Core.next program)
    [.thread 0, .thread 0, .thread 1, .thread 1, .thread 2, .interrupt (), .thread 1, .thread 1,
      .thread 2, .thread 2, .interrupt (), .thread 2, .thread 2]
    (start (fun _ => 0) [[.writeSector 3 fun _ => 7], [.readSector 3]]) = some s ∧
    s.mem.returned.map (·.thread) = [1, 2] ∧ s.mem.returned.map (·.data 0) = [7, 7] ∧
    (s.mem.pending ≤ 1 ∧ (s.mem.active = true ↔ s.mem.pending = 1)) := by
  have heval : ((run (Core.next program)
      [.thread 0, .thread 0, .thread 1, .thread 1, .thread 2, .interrupt (), .thread 1, .thread 1,
        .thread 2, .thread 2, .interrupt (), .thread 2, .thread 2]
      (start (fun _ => 0) [[.writeSector 3 fun _ => 7], [.readSector 3]])).any fun s =>
        s.mem.returned.map (·.thread) = [1, 2] ∧ s.mem.returned.map (·.data 0) = [7, 7]) = true := by
    decide +kernel
  obtain ⟨s, hs, hstate⟩ := (Option.any_eq_true _ _).mp heval
  obtain ⟨hthread, hdata⟩ := of_decide_eq_true hstate
  exact ⟨s, hs, hthread, hdata, (synchDisk_serialises (by simp [sector, isSector, numSectors]) hs).2.1⟩

end SynchDisk

end Nachos.Filesys
