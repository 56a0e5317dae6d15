import Nachos.Userprog.Kernel
import Nachos.Userprog.Loader

/-!
# Replacing an address space (userprog/addrspace.cc)

What `AddrSpace::Replace` does with the file it finds, for every content of it.

* `admission_refuses`: the check for memory, made on `unsigned int`s;
* `replace_refuses_iff`: it refuses the programs that do not fit, but also all
  that need fewer pages than the caller has.
-/

namespace Nachos

open Nachos.Framework

variable {table table' : List TranslationEntry} {space : AddrSpace} {env : Env}
  {virtualAddress : BitVec 32} {virtMem : BitMap} {memory : Bytes} {file : List (BitVec 8)}
  {junk : Bytes} {noffH : NoffHeader}

/-! ## The header -/

/-- The header in the buffer that `ReadAt` fills. -/
def fileHeader (file : List (BitVec 8)) (junk : Bytes) : NoffHeader :=
  let buffer : Bytes := fun i => (file[i]?).getD (junk i)
  ⟨wordAt buffer 0, segmentAt buffer 4, segmentAt buffer 16, segmentAt buffer 28⟩

theorem readHeader_eq : readHeader file junk =
    if (fileHeader file junk).noffMagic = noffMagic then .ok (fileHeader file junk)
    else .error .assertion := by
  have hread : readAt file junk 0 = .ok fun i => (file[i]?).getD (junk i) := by
    simp [readAt, assert, bind, Except.bind]
  have hswap : ∀ w : BitVec 32, ¬ (w ≠ noffMagic ∧ wordToHost w = noffMagic) := fun w h => h.1 h.2
  rw [readHeader, hread]
  simp only [bind, Except.bind, if_neg (hswap _), assert]
  by_cases hmagic : (fileHeader file junk).noffMagic = noffMagic
  · rw [if_pos hmagic, if_pos (show wordAt (fun i => (file[i]?).getD (junk i)) 0 = _ from hmagic)]
    rfl
  · rw [if_neg hmagic, if_neg (show wordAt (fun i => (file[i]?).getD (junk i)) 0 ≠ _ from hmagic)]

theorem readHeader_eq_ok : readHeader file junk = .ok noffH ↔
    (fileHeader file junk).noffMagic = noffMagic ∧ fileHeader file junk = noffH := by
  rw [readHeader_eq]
  split
  next h => rw [Except.ok.injEq, and_iff_right h]
  next h => exact iff_of_false nofun fun hin => h hin.1

/-- The sizes are not negative, and together with the stack they are an `unsigned int`. -/
structure NoffHeader.WellFormed (noffH : NoffHeader) : Prop where
  code : 0 ≤ noffH.code.size.toInt
  initData : 0 ≤ noffH.initData.size.toInt
  uninitData : 0 ≤ noffH.uninitData.size.toInt
  sum : noffH.code.size.toInt + noffH.initData.size.toInt + noffH.uninitData.size.toInt +
    userStackSize < 2 ^ 32

/-- The pages of a program, by the integers in its header. -/
def NoffHeader.newNumPages (noffH : NoffHeader) : Nat :=
  divRoundUp (noffH.code.size.toInt + noffH.initData.size.toInt + noffH.uninitData.size.toInt +
    userStackSize).toNat pageSize

theorem NoffHeader.WellFormed.numPages_eq (h : noffH.WellFormed) :
    noffH.numPages = noffH.newNumPages := by
  have hnat : ∀ {w : BitVec 32}, 0 ≤ w.toInt → w.toInt = w.toNat := by
    intro w hw
    rw [BitVec.toInt_eq_toNat_cond] at hw ⊢
    split at hw
    next hlt => rw [if_pos hlt]
    next =>
      have := w.isLt
      omega
  obtain ⟨h₁, h₂, h₃, hsum⟩ := h
  rw [hnat h₁, hnat h₂, hnat h₃] at hsum
  have hsize : (noffH.code.size + noffH.initData.size + noffH.uninitData.size +
      BitVec.ofNat 32 userStackSize).toNat = (noffH.code.size.toInt + noffH.initData.size.toInt +
        noffH.uninitData.size.toInt + userStackSize).toNat := by
    rw [hnat h₁, hnat h₂, hnat h₃]
    simp only [BitVec.toNat_add, BitVec.toNat_ofNat]
    unfold userStackSize at *
    omega
  simp only [NoffHeader.numPages, NoffHeader.newNumPages, hsize]

/-! ## Admission -/

theorem translateAddr_isOk {numPages : Nat} (hlen : table.length = numPages) (a : Int) :
    ∃ r, translateAddr table numPages a = .ok r := by
  unfold translateAddr
  by_cases ha : a < 0
  · exact ⟨_, if_pos ha⟩
  · rw [if_neg ha]
    dsimp only
    by_cases hn : numPages ≤ a.toNat / pageSize
    · exact ⟨_, if_pos hn⟩
    · rw [if_neg hn, List.getElem?_eq_getElem (by omega), deref_some, ok_bind]
      split
      · exact ⟨_, rfl⟩
      · exact ⟨_, rfl⟩

theorem readFileName_isOk {numPages : Nat} (memory : Bytes) (n : Nat)
    (hlen : table.length = numPages) (a : Int) :
    ∃ r, readFileName numPages memory n a table = .ok r := by
  induction n generalizing a table with
  | zero => exact ⟨_, rfl⟩
  | succ n ih =>
    obtain ⟨⟨p, t⟩, ht⟩ := translateAddr_isOk hlen a
    have hlen' : t.length = numPages := by
      rw [← hlen]
      simpa using congrArg List.length (translateAddr_mapping ht)
    obtain ⟨⟨name, t'⟩, hname⟩ := ih hlen' (a + 1)
    rw [readFileName, ht, ok_bind]
    dsimp only
    split
    · exact ⟨_, rfl⟩
    · split
      · exact ⟨_, rfl⟩
      · rw [hname, ok_bind]
        exact ⟨_, rfl⟩

theorem AddrSpace.namedFile_isOk (hlen : space.pageTable.length = space.numPages) (env : Env)
    (virtualAddress : BitVec 32) (memory : Bytes) :
    ∃ name, space.namedFile env virtualAddress memory = .ok (env.files name) := by
  obtain ⟨⟨name, t⟩, hname⟩ := readFileName_isOk memory 128 hlen virtualAddress.toInt
  exact ⟨_, by rw [namedFile, hname, ok_bind]⟩

theorem releasePhysicalMemory_isOk (table : List TranslationEntry) (hb : virtMem.numBits = numPhysPages)
    (hframes : ∀ f ∈ frames table, f < numPhysPages) :
    ∃ b, releasePhysicalMemory table virtMem = .ok b := by
  induction table generalizing virtMem with
  | nil => exact ⟨_, rfl⟩
  | cons e es ih =>
    have hlt : e.physicalPage.toNat < numPhysPages := hframes _ List.mem_cons_self
    rw [releasePhysicalMemory, List.foldlM_cons, toInt_eq_toNat hlt, BitMap.clear_eq (hb ▸ hlt),
      ok_bind]
    exact ih hb fun f hf => hframes f (List.mem_cons_of_mem _ hf)

/-- What the check for memory compares. -/
def newPages (newNumPages numPages : Nat) : Nat :=
  (BitVec.ofNat 32 newNumPages - BitVec.ofNat 32 numPages).toNat

/-- A difference of `unsigned int`s is large when it should be negative. -/
theorem admission_refuses {newNumPages numPages free : Nat} (hnew : newNumPages < 2 ^ 26)
    (hnum : numPages ≤ numPhysPages) (hfree : free ≤ numPhysPages) :
    newPages newNumPages numPages > free ↔ newNumPages < numPages ∨ numPages + free < newNumPages := by
  rw [newPages, BitVec.toNat_sub, BitVec.toNat_ofNat, BitVec.toNat_ofNat]
  unfold numPhysPages at *
  omega

theorem AddrSpace.replace_of_file {name : List (BitVec 8)}
    (hname : readFileName space.numPages memory 128 virtualAddress.toInt space.pageTable =
      .ok (name, table))
    (hfile : env.files ((name ++ env.junkName).takeWhile (· ≠ 0)) = some file) :
    space.replace env virtualAddress virtMem memory = (do
      let noffH ← readHeader file env.buffers.header
      if newPages noffH.numPages space.numPages > virtMem.numClear
      then .ok ({ space with pageTable := table }, none)
      else do
        let virtMem ← releasePhysicalMemory table virtMem
        let (table, virtMem, memory) ← load noffH file env.buffers virtMem memory
        .ok (⟨table, noffH.numPages, space.pcb⟩, some (virtMem, memory))) := by
  unfold AddrSpace.replace
  rw [hname]
  simp only [bind, Except.bind, hfile]
  rfl

/-- `Replace` refuses a program for lack of memory. -/
def AddrSpace.Refuses (space : AddrSpace) (env : Env) (virtualAddress : BitVec 32) (virtMem : BitMap)
    (memory : Bytes) : Prop :=
  ∃ space', space.replace env virtualAddress virtMem memory = .ok (space', none)

theorem AddrSpace.refuses_iff (hfile : space.namedFile env virtualAddress memory = .ok (some file))
    (hh : readHeader file env.buffers.header = .ok noffH) :
    space.Refuses env virtualAddress virtMem memory ↔
      newPages noffH.numPages space.numPages > virtMem.numClear := by
  obtain ⟨⟨name, table⟩, hname, hfile⟩ := bind_eq_ok.mp hfile
  unfold AddrSpace.Refuses
  rw [AddrSpace.replace_of_file hname (Except.ok.inj hfile), hh, ok_bind]
  constructor
  · rintro ⟨space', h⟩
    by_contra hroom
    rw [if_neg hroom] at h
    obtain ⟨b, -, h⟩ := bind_eq_ok.mp h
    obtain ⟨r, -, h⟩ := bind_eq_ok.mp h
    cases h
  · intro hroom
    rw [if_pos hroom]
    exact ⟨_, rfl⟩

/-- `Replace` refuses a well-formed program exactly when it does not fit in the free frames and
those given back, if and only if it needs as many pages as the caller has, or more. -/
theorem replace_refuses_iff (hbits : virtMem.numBits = numPhysPages)
    (hpages : space.numPages ≤ numPhysPages)
    (hfile : space.namedFile env virtualAddress memory = .ok (some file))
    (hh : readHeader file env.buffers.header = .ok noffH) (hw : noffH.WellFormed) :
    (space.Refuses env virtualAddress virtMem memory ↔
        noffH.newNumPages > space.numPages + virtMem.numClear) ↔
      space.numPages ≤ noffH.newNumPages := by
  have hfree : virtMem.numClear ≤ numPhysPages := by
    have := virtMem.numClear_add_card
    omega
  rw [AddrSpace.refuses_iff hfile hh, admission_refuses noffH.numPages_lt hpages hfree,
    hw.numPages_eq]
  omega

/-- An address space of `n` pages, in the first `n` frames. -/
def flatSpace (n : Nat) : AddrSpace :=
  ⟨(List.range n).map fun i => ⟨BitVec.ofNat 32 i, BitVec.ofNat 32 i, true, false, false, false⟩,
    n, none⟩

/-- The frame bitmap when nothing but `flatSpace n` is in memory. -/
def flatMem (n : Nat) : BitMap := (List.range n).foldl BitMap.markBit (.new numPhysPages fun _ => 0)

/-- A program with one instruction needs 9 pages. -/
theorem readHeader_one : readHeader (Kernel.noffImage [0x0000000c]) (fun _ => 0) =
    .ok ⟨noffMagic, ⟨0, 40, 4⟩, ⟨0, 0, 0⟩, ⟨0, 0, 0⟩⟩ := by decide +kernel

theorem wellFormed_one : NoffHeader.WellFormed ⟨noffMagic, ⟨0, 40, 4⟩, ⟨0, 0, 0⟩, ⟨0, 0, 0⟩⟩ :=
  ⟨by decide, by decide, by decide, by decide⟩

theorem flatSpace_length (n : Nat) : (flatSpace n).pageTable.length = (flatSpace n).numPages := by
  simp [flatSpace]

theorem namedFile_one (n : Nat) :
    (flatSpace n).namedFile (Kernel.plainEnv [0x0000000c] false) 0 (fun _ => 0) =
      .ok (some (Kernel.noffImage [0x0000000c])) := by
  obtain ⟨name, h⟩ := AddrSpace.namedFile_isOk (flatSpace_length n)
    (Kernel.plainEnv [0x0000000c] false) 0 fun _ => 0
  exact h

/-- A process of 8 pages starts it when there is room. -/
theorem replace_refuses_iff_one : ((flatSpace 8).Refuses (Kernel.plainEnv [0x0000000c] false) 0
    (flatMem 8) (fun _ => 0) ↔ 9 > 8 + (flatMem 8).numClear) :=
  (replace_refuses_iff (by decide) (by decide) (namedFile_one 8) readHeader_one
    wellFormed_one).mpr (by decide)

/-- A process of 10 pages cannot, though 32 frames would be free. -/
theorem not_replace_refuses_iff : ¬ ∀ (space : AddrSpace) env virtualAddress (virtMem : BitMap)
    memory file noffH, virtMem.numBits = numPhysPages → space.numPages ≤ numPhysPages →
    space.namedFile env virtualAddress memory = .ok (some file) →
    readHeader file env.buffers.header = .ok noffH → noffH.WellFormed →
    (space.Refuses env virtualAddress virtMem memory ↔
      noffH.newNumPages > space.numPages + virtMem.numClear) := by
  intro hall
  have hiff := hall (flatSpace 10) _ 0 (flatMem 10) _ _ _ (by decide) (by decide) (namedFile_one 10)
    readHeader_one wellFormed_one
  have hfits := hiff.mp ((AddrSpace.refuses_iff (namedFile_one 10) readHeader_one).mpr
    (by decide +kernel))
  exact absurd hfits (by decide +kernel)

end Nachos
