import Nachos.Userprog.Image
import Nachos.Userprog.Isolation

/-!
# Executables that are loaded into their own frames (userprog/addrspace.cc)

`ReadFile` copies a segment of less than a page in one piece, to where its first
byte belongs. An executable without a small segment that crosses the end of a page
is written to the frames of its own table, and to no other.

* `readFileLoop_frames`, `load_frames`: what the loader leaves alone;
* `step_untouched_confined`: isolation, also from an `Exec` that succeeds.
-/

namespace Nachos

open Nachos.Framework

variable {table table' : List TranslationEntry} {memory memory' : Bytes} {numPages : Nat}

/-- `Translate` gives an address in a frame of the table. -/
theorem translateAddr_frame {a : Int} {p : Int} (hr : ∀ f ∈ frames table, f < numPhysPages)
    (h : translateAddr table numPages a = .ok (p, table')) (hp : 0 ≤ p) :
    0 ≤ a ∧ p.toNat / pageSize ∈ frames table ∧ p.toNat % pageSize = a.toNat % pageSize := by
  unfold translateAddr at h
  split at h
  next =>
    cases h
    exact absurd hp (by decide)
  next ha =>
    dsimp only at h
    split at h
    next =>
      cases h
      exact absurd hp (by decide)
    next =>
      obtain ⟨e, he, h⟩ := bind_eq_ok.mp h
      rw [deref_eq_ok] at he
      split at h
      next =>
        cases h
        have hmem : e.physicalPage.toNat ∈ frames table := List.mem_map_of_mem (List.mem_of_getElem? he)
        have hframe : e.physicalPage.toInt = e.physicalPage.toNat := toInt_eq_toNat (hr _ hmem)
        have hoff := Nat.mod_lt a.toNat (show 0 < pageSize by decide)
        have hnat : (e.physicalPage.toInt * (pageSize : Int) + ((a.toNat % pageSize : Nat) : Int)).toNat =
            e.physicalPage.toNat * pageSize + a.toNat % pageSize := by
          rw [hframe]
          omega
        rw [hnat]
        refine ⟨by omega, ?_, ?_⟩
        · rw [frame_add_div hoff]
          exact hmem
        · exact Nat.mul_add_mod_of_lt hoff
      next =>
        cases h
        exact absurd hp (by decide)

/-- The loop of `ReadFile` writes to the frames of the table, if what is left is at least a page or
lies in one. -/
theorem readFileLoop_frames {buffer : Bytes} {fuel read n : Nat} {v left : Int}
    (hr : ∀ f ∈ frames table, f < numPhysPages)
    (hin : left < pageSize → v.toNat % pageSize + left.toNat ≤ pageSize)
    (h : readFileLoop buffer numPages fuel v read left table memory = .ok (n, table', memory')) :
    ∀ x, x / pageSize ∉ frames table → memory' x = memory x := by
  induction fuel generalizing v read left table memory with
  | zero =>
    unfold readFileLoop at h
    split at h
    · cases h
    · cases h
      exact fun _ _ => rfl
  | succ fuel ih =>
    unfold readFileLoop at h
    split at h
    next hleft =>
      dsimp only at h
      obtain ⟨⟨a, t⟩, ht, h⟩ := bind_eq_ok.mp h
      obtain ⟨_, ha, h⟩ := bind_eq_ok.mp h
      have ha : 0 ≤ a := assert_eq_ok.mp ha
      obtain ⟨hv, hframe, hoff⟩ := translateAddr_frame hr ht ha
      have hframes : frames t = frames table := frames_congr (translateAddr_mapping ht)
      obtain ⟨u, rfl⟩ := Int.eq_ofNat_of_zero_le hv
      obtain ⟨l, rfl⟩ := Int.eq_ofNat_of_zero_le (Int.le_of_lt hleft)
      have hsize := readSize_eq u l
      generalize (if (l : Int) < pageSize then (l : Int) else pageSize - Int.tmod u pageSize) = c at hsize h
      subst hsize
      have hmod := Nat.mod_lt u (show 0 < pageSize by decide)
      simp only [Int.toNat_natCast, Int.ofNat_lt] at hin hoff h
      -- the chunk ends with the page, or before
      have hchunk : u % pageSize + chunk u l ≤ pageSize := by
        unfold chunk
        split
        next hlt => exact hin hlt
        next => omega
      have hr' := hr
      rw [← hframes] at hr'
      have hrest := ih hr' (fun hlt => ?_) (ite_error_eq_ok.mp h).2
      · intro x hx
        rw [hrest x (hframes ▸ hx)]
        refine splice_apply_of_notMem fun hmem => hx ?_
        have hpage : x / pageSize = a.toNat / pageSize := by
          unfold pageSize at *
          omega
        rw [hpage]
        exact hframe
      · by_cases hall : chunk u l < l
        · have halign := chunk_aligned hall
          rw [show ((u : Int) + chunk u l).toNat = u + chunk u l by omega, halign]
          omega
        · have hle := chunk_le u l
          have hzero : ((l : Int) - chunk u l).toNat = 0 := by omega
          rw [hzero]
          exact Nat.le_of_lt (Nat.mod_lt _ (by decide))
    next =>
      cases h
      exact fun _ _ => rfl

theorem readSegment_frames {s : Segment} {file : List (BitVec 8)} {junk : Bytes}
    (hr : ∀ f ∈ frames table, f < numPhysPages) (hs : s.Confined)
    (h : readSegment s file junk numPages table memory = .ok (table', memory')) :
    ∀ x, x / pageSize ∉ frames table → memory' x = memory x := by
  unfold readSegment at h
  split at h
  next hpos =>
    obtain ⟨⟨n, t, m⟩, h, hr'⟩ := bind_eq_ok.mp h
    cases hr'
    obtain ⟨buffer, -, h⟩ := bind_eq_ok.mp h
    refine readFileLoop_frames hr (fun hlt => ?_) h
    rcases hs with hbig | hfit
    · omega
    · have hsize := BitVec.toInt_eq_toNat_cond s.size
      have haddr := BitVec.toInt_eq_toNat_cond s.virtualAddr
      -- a negative address is 0 here, and not translated
      split at hsize <;> split at haddr <;> unfold pageSize at * <;> omega
  next =>
    cases h
    exact fun _ _ => rfl

/-- The loader writes to the frames of the new table. -/
theorem load_frames {noffH : NoffHeader} {file : List (BitVec 8)} {junk : Buffers} {b b' : BitMap}
    (hb : b.numBits = numPhysPages) (hroom : noffH.numPages ≤ b.numClear) (hn : noffH.Confined)
    (h : load noffH file junk b memory = .ok (table, b', memory')) :
    ∀ x, x / pageSize ∉ frames table → memory' x = memory x := by
  obtain ⟨t₀, b₀, m₀, hinit, ha, -, hmem⟩ := initializePageTable_spec hb hroom 0 memory
  simp only [load, hinit] at h
  obtain ⟨⟨t₁, m₁⟩, h₁, h⟩ := bind_eq_ok.mp h
  obtain ⟨⟨t₂, m₂⟩, h₂, h⟩ := bind_eq_ok.mp h
  cases h
  have hf₁ : frames t₁ = frames t₀ := frames_congr (readSegment_mapping h₁)
  have hf₂ : frames t₂ = frames t₁ := frames_congr (readSegment_mapping h₂)
  have hr : ∀ f ∈ frames t₀, f < numPhysPages := fun f hf => hb ▸ (ha.free f hf).1
  intro x hx
  rw [hf₂] at hx
  have hx₀ : x / pageSize ∉ frames t₀ := hf₁ ▸ hx
  calc m₂ x = m₁ x := readSegment_frames (hf₁ ▸ hr) hn.2 h₂ x hx
    _ = m₀ x := readSegment_frames hr hn.1 h₁ x hx₀
    _ = memory x := hmem x hx₀

namespace Kernel

variable {env : Env} {k k' : Kernel}

/-- The file that the system call `Exec` of the current thread names is confined. -/
def ExecConfined (env : Env) (e : Kernel) : Prop :=
  ∀ cur file, e.process e.currentThread = .ok cur →
    cur.space.namedFile env (e.registers 4) e.mainMemory = .ok (some file) →
    (fileHeader file env.buffers.header).Confined

/-- An `Exec` of a confined file leaves the frames of all others alone. -/
theorem exec_untouched_confined {q s : Nat} {Q : PCB} {S : AddrSpace} (ho : Owning k) (hQ : k.pcbs q = some Q)
    (hs : k.spaceOf Q.processThread = some s) (hS : k.spaces s = some S)
    (hne : Q.processThread ≠ k.currentThread) (hconf : ExecConfined env k) (he : k.exec env = .ok k') :
    Untouched k k' q Q s S := by
  obtain ⟨cur, S', r, hcur, hr, hcase⟩ := exec_cases he
  obtain ⟨hT, hcs, hcS, -, -⟩ := process_spec hcur
  have hspace : s ≠ cur.spaceId := by
    refine ho.linked.space_ne hQ hs ?_ hne
    rw [Kernel.spaceOf, hT]
    exact hcs
  obtain ⟨-, ⟨rfl, hnum, hmap⟩ | ⟨file, noffH, b₁, b₂, mem', rfl, hfile, hh, -, hcheck, hbits, hmarked, hload⟩⟩ :=
    AddrSpace.replace_spec hr
  · obtain ⟨-, rfl⟩ | ⟨vm, mem, heq, -⟩ := hcase
    · exact ⟨⟨Q, hQ, rfl⟩, hs, ⟨S, (Function.update_of_ne hspace _ _).trans hS, rfl⟩, fun _ _ => rfl⟩
    · cases heq
  · obtain ⟨heq, -⟩ | ⟨vm, mem, heq, rfl⟩ := hcase
    · cases heq
    cases heq
    refine ⟨⟨Q, hQ, rfl⟩, hs, ⟨S, (Function.update_of_ne hspace _ _).trans hS, rfl⟩, fun x hx => ?_⟩
    obtain ⟨-, rfl⟩ := readHeader_eq_ok.mp hh
    have hbits' := hbits.trans ho.frames.numBits
    have hroom := ho.frames.room hcS hcheck hbits hmarked
    have hframes := load_frames hbits' hroom (hconf cur file hcur hfile) hload
    obtain ⟨ha, -⟩ := load_spec hbits' hroom hload
    -- a frame of the new table was free, or one of the old table
    refine hframes x fun hnew => (ha.free _ hnew).2 ?_
    rw [hmarked, Finset.mem_sdiff, List.mem_toFinset]
    refine ⟨(ho.frames.owned.mem_used _).mpr ⟨s, by rw [framesOf_eq hS]; exact hx⟩, fun hold => hspace ?_⟩
    refine ho.frames.owned.eq_of_mem s cur.spaceId (x / pageSize) ?_ ?_
    · rw [framesOf_eq hS]
      exact hx
    · rw [framesOf_eq hcS]
      exact hold

/-- The step is not a `Kill` of process `q`, nor an `Exec` of a file that is not confined. -/
def SparesConfined (env : Env) (k : Kernel) (q : Nat) : Prop :=
  ∀ e, k.syscallEntry = some e →
    ((e.registers 2).toNat = 11 → e.getProcess (e.registers 4).toInt ≠ .ok (some q)) ∧
    ((e.registers 2).toNat = 2 → ExecConfined env e)

theorem step_untouched_confined {q s : Nat} {Q : PCB} {S : AddrSpace} (ho : Owning k) (hm : Mapped k)
    (hQ : k.pcbs q = some Q) (hs : k.spaceOf Q.processThread = some s) (hS : k.spaces s = some S)
    (hne : Q.processThread ≠ k.currentThread) (hspares : SparesConfined env k q)
    (h : Kernel.step env k = .ok k') : Untouched k k' q Q s S := by
  by_cases hexec : ∃ e, k.syscallEntry = some e ∧ (e.registers 2).toNat = 2
  · obtain ⟨e, he, hcode⟩ := hexec
    obtain ⟨hc, -, hu, -⟩ := syscallEntry_spec he
    have hu₁ := hu.untouched ho hQ hs hS (hm (by rw [hc]; nofun) (by rw [hc]; nofun)) hne
    obtain ⟨S₁, hS₁, hshape⟩ := hu₁.space
    have hframes : frames S₁.pageTable = frames S.pageTable :=
      frames_congr (congrArg (fun x => x.2.2) hshape)
    have hQ₁ : e.pcbs q = some Q := by rw [hu.quiet.pcbs, hQ]
    have hne₁ : Q.processThread ≠ e.currentThread := by
      obtain ⟨r, mem, spaces, c, rfl⟩ := hu.rest
      exact hne
    rw [step_of_syscallEntry env he, syscall, hcode] at h
    have hx := exec_untouched_confined (hu.quiet.owning ho) hQ₁ hu₁.spaceOf hS₁ hne₁
      ((hspares e he).2 hcode) h
    obtain ⟨S₂, hS₂, hshape₂⟩ := hx.space
    refine ⟨hx.pcb, hx.spaceOf, ⟨S₂, hS₂, hshape₂.trans hshape⟩, fun x hin => ?_⟩
    rw [hx.memory x (hframes ▸ hin), hu₁.memory x hin]
  · exact step_untouched ho hm hQ hs hS hne
      (fun e he => ⟨(hspares e he).1, fun hcode => absurd ⟨e, he, hcode⟩ hexec⟩) h

end Kernel

end Nachos
