import Nachos.Userprog.ExecStart
import Nachos.Userprog.Image
import Nachos.Userprog.Progress

/-!
# When `Exec` fails (userprog/exception.cc, addrspace.cc)

`exec` promises -1 if any step fails. Most failures do return -1, before anything
has changed. Of what is wrong with a file, only a wrong magic number and some of
the addresses are noticed, by an assertion; a program that is cut off, or goes
over the end of its image, is taken for loaded.

* `FramesOwned.replace_isOk`: the files for which `Replace` returns;
* `ExecReplaced.loaded_iff`: whether what it has loaded then is the program;
* `exec_clean_iff`: when `Exec` loads the program or returns -1.
-/

namespace Nachos.Kernel

open Nachos.Framework

variable {env : Env} {k e k' : Kernel}

/-- The program counters. -/
def pcRegs : List (Fin 40) := [pcReg, nextPCReg, prevPCReg]

/-- The program in `file`, with this header, is in the space `s`, which was `S`: the header, the code
and the data are all in the file and in the image, the pages are in frames that were free or the
space's own, each byte of the image is where the page table puts it, and main memory is otherwise
as it was. -/
structure ProgramLoaded (e k' : Kernel) (s : Nat) (S : AddrSpace) (file : List (BitVec 8))
    (noffH : NoffHeader) (table : List TranslationEntry) : Prop where
  program : IsProgram file noffH
  space : k'.spaces s = some ⟨table, noffH.numPages, S.pcb⟩
  current : k'.pageTable = some s ∧ k'.pageTableSize = noffH.numPages
  length : table.length = noffH.numPages
  valid : ∀ t ∈ table, t.valid = true
  nodup : (frames table).Nodup
  free : ∀ f ∈ frames table, f < numPhysPages ∧ f ∉ e.virtMem.marked \ (frames S.pageTable).toFinset
  virtMem : k'.virtMem.marked = e.virtMem.marked \ (frames S.pageTable).toFinset ∪ (frames table).toFinset
  image : ∀ v p, physAddr table v = some p → k'.mainMemory p = noffH.image file v
  others : ∀ x, x / pageSize ∉ frames table → k'.mainMemory x = e.mainMemory x

/-- `Exec`, entered with `e`, has set `r2` to 1 and loaded the program in the file it names. -/
structure ExecLoaded (env : Env) (e k' : Kernel) : Prop where
  ret : k'.registers 2 = 1
  loaded : ∃ cur file table, e.process e.currentThread = .ok cur ∧
    cur.space.namedFile env (e.registers 4) e.mainMemory = .ok (some file) ∧
    ProgramLoaded e k' cur.spaceId cur.space file (fileHeader file env.buffers.header) table

/-- It has set `r2` to -1, and nothing else has changed but the program counters and use bits. -/
structure ExecRefused (e k' : Kernel) : Prop where
  ret : k'.registers 2 = -1
  registers : ∀ i, i ≠ 2 → i ∉ pcRegs → k'.registers i = e.registers i
  memory : k'.mainMemory = e.mainMemory
  virtMem : k'.virtMem = e.virtMem
  spaces : ∀ s, (k'.spaces s).map shape = (e.spaces s).map shape

/-- The system call that `k` is about to make, entered with `e`, does one of the two. -/
def ExecClean (env : Env) (k e : Kernel) : Prop :=
  ∃ k', step env k = .ok k' ∧ (ExecLoaded env e k' ∨ ExecRefused e k')

/-! ## What `Exec` does -/

/-- `Exec` has set `r2` to 1 and done what `Replace` does with a file that it takes. -/
structure ExecReplaced (env : Env) (e k' : Kernel) (cur : Process) (file : List (BitVec 8)) : Prop where
  ret : k'.registers 2 = 1
  process : e.process e.currentThread = .ok cur
  namedFile : cur.space.namedFile env (e.registers 4) e.mainMemory = .ok (some file)
  magic : (fileHeader file env.buffers.header).noffMagic = noffMagic
  admitted : newPages (fileHeader file env.buffers.header).numPages cur.space.numPages ≤ e.virtMem.numClear
  loaded : ∃ virtMem table, virtMem.numBits = e.virtMem.numBits ∧
    virtMem.marked = e.virtMem.marked \ (frames cur.space.pageTable).toFinset ∧
    load (fileHeader file env.buffers.header) file env.buffers virtMem e.mainMemory =
      .ok (table, k'.virtMem, k'.mainMemory) ∧
    k'.spaces cur.spaceId = some ⟨table, (fileHeader file env.buffers.header).numPages, cur.space.pcb⟩ ∧
    k'.pageTable = some cur.spaceId ∧
    k'.pageTableSize = (fileHeader file env.buffers.header).numPages

theorem FramesOwned.replace_isOk (h : FramesOwned k) (env : Env) {s : Nat} {S : AddrSpace}
    (hS : k.spaces s = some S) (virtualAddress : BitVec 32) :
    (∃ r, S.replace env virtualAddress k.virtMem k.mainMemory = .ok r) ↔
      ∀ file, S.namedFile env virtualAddress k.mainMemory = .ok (some file) →
        S.Loadable k.virtMem file env.buffers.header := by
  have hnum := h.numPages_le hS
  exact AddrSpace.replace_isOk h.numBits (h.length s S hS) (fun f hf => h.mem_lt hS hf) (by omega)
    fun b hn hm => h.numClear_release hS hn hm

theorem update_of_notMem (r : Registers) {i : Fin 40} (h : i ∉ pcRegs) : r.update i = r i := by
  simp only [pcRegs, List.mem_cons, List.not_mem_nil, or_false, not_or] at h
  rw [Registers.update, Registers.write_of_ne _ h.2.2, Registers.write_of_ne _ h.2.1,
    Registers.write_of_ne _ h.1]

theorem sysReturn_registers_of_ne (value : BitVec 32) {i : Fin 40} (h2 : i ≠ 2) (h : i ∉ pcRegs) :
    (k.sysReturn value).registers i = k.registers i := by
  rw [sysReturn]
  dsimp only
  rw [update_of_notMem _ h, Registers.write_of_ne _ h2]

/-- What a call that returns has done. -/
theorem exec_does (h : e.exec env = .ok k') :
    (∃ cur file, ExecReplaced env e k' cur file) ∨
      ExecRefused e k' ∧ ∃ cur, e.process e.currentThread = .ok cur ∧
        cur.space.Refuses env (e.registers 4) e.virtMem e.mainMemory := by
  obtain ⟨cur, S, r, hcur, hr, hcase⟩ := exec_cases h
  obtain ⟨hpcb, hspec⟩ := AddrSpace.replace_spec hr
  obtain ⟨-, -, hS, -, -⟩ := process_spec hcur
  rcases hcase with ⟨rfl, rfl⟩ | ⟨vm, mem, rfl, rfl⟩
  · rcases hspec with ⟨-, hnum, hmap⟩ | ⟨_, _, _, _, _, hsome, -⟩
    · refine .inr ⟨⟨rfl, fun i h2 h => sysReturn_registers_of_ne _ h2 h, rfl, rfl, fun s => ?_⟩,
        cur, hcur, S, hr⟩
      show (Function.update e.spaces cur.spaceId (some S) s).map shape = _
      by_cases hs : s = cur.spaceId
      · rw [hs, Function.update_self, hS, Option.map_some, Option.map_some]
        simp only [shape, hpcb, hnum, hmap]
      · rw [Function.update_of_ne hs]
    · cases hsome
  · rcases hspec with ⟨hnone, -⟩ | ⟨file, noffH, b, _, _, hsome, hnamed, hh, hnum, hroom, hn, hm, hload⟩
    · cases hnone
    · cases hsome
      obtain ⟨hmagic, rfl⟩ := readHeader_eq_ok.mp hh
      refine .inl ⟨cur, file, rfl, hcur, hnamed, hmagic, hroom, b, S.pageTable, hn, hm, hload, ?_, rfl, hnum⟩
      rw [← hnum, ← hpcb]
      exact Function.update_self _ _ _

/-- The files for which `Exec`, entered with `e`, does not stop the kernel. -/
def ExecReturns (env : Env) (e : Kernel) : Prop :=
  ∀ cur file, e.process e.currentThread = .ok cur →
    cur.space.namedFile env (e.registers 4) e.mainMemory = .ok (some file) →
    cur.space.Loadable e.virtMem file env.buffers.header

theorem exec_isOk (ho : Owning e) : (∃ k', e.exec env = .ok k') ↔ ExecReturns env e := by
  obtain ⟨cur, hcur⟩ := ho.current_ok
  obtain ⟨-, -, hS, -, -⟩ := process_spec hcur
  have hiff := ho.frames.replace_isOk env hS (e.registers 4)
  have hreturns : ExecReturns env e ↔ ∀ file,
      cur.space.namedFile env (e.registers 4) e.mainMemory = .ok (some file) →
      cur.space.Loadable e.virtMem file env.buffers.header := by
    constructor
    · exact fun h file => h cur file hcur
    · intro h cur' file hcur'
      rw [hcur] at hcur'
      cases hcur'
      exact h file
  rw [hreturns, ← hiff]
  constructor
  · rintro ⟨k', h⟩
    obtain ⟨cur', S, r, hcur', hr, -⟩ := exec_cases h
    rw [hcur] at hcur'
    cases hcur'
    exact ⟨_, hr⟩
  · rintro ⟨⟨S, r⟩, hr⟩
    rw [exec, hcur, ok_bind, hr, ok_bind]
    cases r with
    | none => exact ⟨_, rfl⟩
    | some r => exact ⟨_, rfl⟩

/-! ## Whether the program is loaded -/

section

variable {cur : Process} {file : List (BitVec 8)}

/-- A program that `Replace` has taken: where it is, and what main memory holds then. -/
theorem ExecReplaced.placed (ho : Owning e) (h : ExecReplaced env e k' cur file)
    (hp : IsProgram file (fileHeader file env.buffers.header)) :
    let noffH := fileHeader file env.buffers.header
    let old := frames cur.space.pageTable
    let fs := newFrames e.virtMem old noffH.numPages
    ∃ table, k'.spaces cur.spaceId = some ⟨table, noffH.numPages, cur.space.pcb⟩ ∧ Full fs table ∧
      fs.length = noffH.numPages ∧ fs.Nodup ∧
      (∀ f ∈ fs, f < numPhysPages ∧ f ∉ e.virtMem.marked \ old.toFinset) ∧
      k'.virtMem.marked = e.virtMem.marked \ old.toFinset ∪ fs.toFinset ∧
      k'.mainMemory = noffH.placed file fs (Segment.readAddr fs) e.mainMemory := by
  intro noffH old fs
  obtain ⟨b, table, hn, hm, hload, hspace, -, -⟩ := h.loaded
  obtain ⟨-, -, hS, -, -⟩ := process_spec h.process
  have hb := hn.trans ho.frames.numBits
  have hroom := ho.frames.room hS h.admitted hn hm
  obtain ⟨hcode, hdata⟩ := (load_isOk file env.buffers e.mainMemory hb hroom).mp ⟨_, hload⟩
  obtain ⟨t, b', heq, hfull, ha, hlen⟩ := load_eq hp env.buffers e.mainMemory hb hroom hcode hdata
  rw [hload] at heq
  simp only [Except.ok.injEq, Prod.mk.injEq] at heq
  obtain ⟨rfl, rfl, hmem⟩ := heq
  have hfs : fs = (freeFrames b.marked).take noffH.numPages := by rw [hm]; rfl
  rw [hfs]
  refine ⟨table, hspace, hfull, hlen, ha.nodup, fun f hf => ?_, ?_, hmem⟩
  · obtain ⟨hlt, hfree⟩ := ha.free f hf
    exact ⟨hb ▸ hlt, hm ▸ hfree⟩
  · rw [ha.marked, hm]

/-- What `Exec` takes is loaded if it is a program whose bytes are put where they belong, or look as
if they were. -/
theorem ExecReplaced.loaded_iff (ho : Owning e) (h : ExecReplaced env e k' cur file) :
    let noffH := fileHeader file env.buffers.header
    let fs := newFrames e.virtMem (frames cur.space.pageTable) noffH.numPages
    ExecLoaded env e k' ↔ IsProgram file noffH ∧
      noffH.placed file fs (Segment.readAddr fs) e.mainMemory =
        noffH.placed file fs (Segment.ownAddr fs) e.mainMemory := by
  intro noffH fs
  constructor
  · rintro ⟨-, cur', file', table', hcur', hnamed', hl⟩
    obtain rfl : cur = cur' := Except.ok.inj (h.process.symm.trans hcur')
    obtain rfl : file = file' := Option.some.inj (Except.ok.inj (h.namedFile.symm.trans hnamed'))
    obtain ⟨table, hspace, hfull, hlen, hd, -, -, hmem⟩ := h.placed ho hl.program
    obtain rfl : table = table' := by
      have heq := hspace.symm.trans hl.space
      simp only [Option.some.injEq, AddrSpace.mk.injEq] at heq
      exact heq.1
    refine ⟨hl.program, ?_⟩
    have hcode : noffH.code.InImage fs.length := by rw [hlen]; exact hl.program.code.2
    have hdata : noffH.initData.InImage fs.length := by rw [hlen]; exact hl.program.initData.2
    obtain ⟨himage, hothers⟩ := placed_ownAddr hd hcode hdata file e.mainMemory
    rw [← hmem]
    funext x
    by_cases hx : x / pageSize ∈ fs
    · obtain ⟨v, hv, rfl⟩ := exists_frameAddr hx
      rw [hl.image v _ (hfull.physAddr hv)]
      exact (himage v hv).symm
    · rw [hl.others x (by rwa [hfull.frames])]
      exact (hothers x hx).symm
  · rintro ⟨hp, hplaced⟩
    obtain ⟨table, hspace, hfull, hlen, hd, hfree, hmarked, hmem⟩ := h.placed ho hp
    obtain ⟨-, -, -, -, -, -, hcurrent⟩ := h.loaded
    have hcode : noffH.code.InImage fs.length := by rw [hlen]; exact hp.code.2
    have hdata : noffH.initData.InImage fs.length := by rw [hlen]; exact hp.initData.2
    obtain ⟨himage, hothers⟩ := placed_ownAddr hd hcode hdata file e.mainMemory
    refine ⟨h.ret, cur, file, table, h.process, h.namedFile, ?_⟩
    exact {
      program := hp
      space := hspace
      current := hcurrent
      length := hfull.length.trans hlen
      valid := hfull.valid
      nodup := hfull.frames ▸ hd
      free := hfull.frames ▸ hfree
      virtMem := hfull.frames ▸ hmarked
      image := by
        intro v p hv
        obtain ⟨hlt, rfl⟩ := hfull.physAddr_eq_some.mp hv
        rw [hmem, hplaced]
        exact himage v hlt
      others := by
        intro x hx
        rw [hmem, hplaced]
        exact hothers x (hfull.frames ▸ hx) }

end

/-- The file can be loaded into the space, and is then loaded as it should be: it has the magic number,
and if it is admitted, it is a program, its small segments do not go over the end of main memory, and
its bytes are put where they belong. -/
def Safe (space : AddrSpace) (virtMem : BitMap) (memory : Bytes) (file : List (BitVec 8)) (junk : Bytes) :
    Prop :=
  let noffH := fileHeader file junk
  let fs := newFrames virtMem (frames space.pageTable) noffH.numPages
  noffH.noffMagic = noffMagic ∧ (space.Admits virtMem noffH → IsProgram file noffH ∧
    (0 < noffH.code.size.toInt → noffH.code.InMemory fs) ∧
    (0 < noffH.initData.size.toInt → noffH.initData.InMemory fs) ∧
    noffH.placed file fs (Segment.readAddr fs) memory = noffH.placed file fs (Segment.ownAddr fs) memory)

/-- What a file has to be like for `Exec`, entered with `e`, to load or refuse it. -/
def ExecSafe (env : Env) (e : Kernel) : Prop :=
  ∀ cur file, e.process e.currentThread = .ok cur →
    cur.space.namedFile env (e.registers 4) e.mainMemory = .ok (some file) →
    Safe cur.space e.virtMem e.mainMemory file env.buffers.header

theorem FramesOwned.admits_iff (h : FramesOwned k) {s : Nat} {S : AddrSpace} (hS : k.spaces s = some S)
    (noffH : NoffHeader) :
    S.Admits k.virtMem noffH ↔ newPages noffH.numPages S.numPages ≤ k.virtMem.numClear := by
  have hnum := h.numPages_le hS
  have hrefuses := admission_refuses noffH.numPages_lt (show S.numPages ≤ numPhysPages by omega)
    (show k.virtMem.numClear ≤ numPhysPages by omega)
  rw [AddrSpace.Admits]
  omega

/-- A program that is admitted gets its frames. -/
theorem FramesOwned.length_newFrames (h : FramesOwned k) {s : Nat} {S : AddrSpace} {noffH : NoffHeader}
    (hS : k.spaces s = some S) (hadm : S.Admits k.virtMem noffH) :
    (newFrames k.virtMem (frames S.pageTable) noffH.numPages).length = noffH.numPages := by
  obtain ⟨b, hrel⟩ := releasePhysicalMemory_isOk S.pageTable h.numBits fun f hf => h.mem_lt hS hf
  obtain ⟨hn, hm⟩ := releasePhysicalMemory_spec hrel
  have hroom := h.room hS ((h.admits_iff hS noffH).mp hadm) hn hm
  obtain ⟨t, -, -, hfull, -, hlen⟩ := initializePageTable_full (hn.trans h.numBits) hroom k.mainMemory
  rw [newFrames, ← hm, ← hfull.length, hlen]

/-- For a program, all that can stop `ReadFile` is the end of main memory. -/
theorem FramesOwned.loadable_iff (h : FramesOwned k) {s : Nat} {S : AddrSpace} {file : List (BitVec 8)}
    {junk : Bytes} (hS : k.spaces s = some S) (hadm : S.Admits k.virtMem (fileHeader file junk))
    (hp : IsProgram file (fileHeader file junk)) :
    let noffH := fileHeader file junk
    let fs := newFrames k.virtMem (frames S.pageTable) noffH.numPages
    S.Loadable k.virtMem file junk ↔ (0 < noffH.code.size.toInt → noffH.code.InMemory fs) ∧
      (0 < noffH.initData.size.toInt → noffH.initData.InMemory fs) := by
  intro noffH fs
  have hlen : fs.length = noffH.numPages := h.length_newFrames hS hadm
  rw [AddrSpace.Loadable, and_iff_right hp.magic, forall_prop_of_true hadm,
    Segment.fits_iff (hlen.symm ▸ hp.code.2) hp.code.1,
    Segment.fits_iff (hlen.symm ▸ hp.initData.2) hp.initData.1]

/-- In every reachable state, `Exec` loads the program or returns -1 and leaves everything as it was,
exactly if there is no file under the name, or the file can be loaded and is then as it should be. -/
theorem exec_clean_iff {b : Boot} {envs : List Env} (hrun : runs b envs = some k)
    (he : k.syscallEntry = some e) (hcode : (e.registers 2).toNat = 2) :
    ExecClean env k e ↔ ExecSafe env e := by
  have ho : Owning e := (syscallEntry_spec he).2.2.1.quiet.owning (.run hrun)
  have hstep : step env k = e.exec env := by
    rw [step_of_syscallEntry env he, syscall, hcode]
    rfl
  rw [ExecClean, hstep]
  constructor
  · rintro ⟨k', h, hcase⟩ cur file hcur hnamed
    obtain ⟨-, -, hS, -, -⟩ := process_spec hcur
    have hload := (exec_isOk ho).mp ⟨k', h⟩ cur file hcur hnamed
    refine ⟨hload.1, fun hadm => ?_⟩
    obtain ⟨cur', file', hr⟩ | ⟨-, cur', hcur', hrefuses⟩ := exec_does h
    · obtain rfl : cur = cur' := Except.ok.inj (hcur.symm.trans hr.process)
      obtain rfl : file = file' := Option.some.inj (Except.ok.inj (hnamed.symm.trans hr.namedFile))
      obtain hl | hl := hcase
      · obtain ⟨hp, hplaced⟩ := (hr.loaded_iff ho).mp hl
        obtain ⟨hcode, hdata⟩ := (ho.frames.loadable_iff hS hadm hp).mp hload
        exact ⟨hp, hcode, hdata, hplaced⟩
      · exact absurd (hr.ret.symm.trans hl.ret) (by decide)
    · obtain rfl : cur = cur' := Except.ok.inj (hcur.symm.trans hcur')
      have hadm' := (ho.frames.admits_iff hS _).mp hadm
      have hmore := (AddrSpace.refuses_iff hnamed (readHeader_eq_ok.mpr ⟨hload.1, rfl⟩)).mp hrefuses
      omega
  · intro hsafe
    obtain ⟨k', h⟩ : ∃ k', e.exec env = .ok k' := by
      refine (exec_isOk ho).mpr fun cur file hcur hnamed => ?_
      obtain ⟨-, -, hS, -, -⟩ := process_spec hcur
      obtain ⟨hmagic, hadmitted⟩ := hsafe cur file hcur hnamed
      by_cases hadm : cur.space.Admits e.virtMem (fileHeader file env.buffers.header)
      · obtain ⟨hp, hcode, hdata, -⟩ := hadmitted hadm
        exact (ho.frames.loadable_iff hS hadm hp).mpr ⟨hcode, hdata⟩
      · exact ⟨hmagic, fun hadm' => absurd hadm' hadm⟩
    refine ⟨k', h, ?_⟩
    obtain ⟨cur, file, hr⟩ | ⟨hrefused, -⟩ := exec_does h
    · obtain ⟨-, -, hS, -, -⟩ := process_spec hr.process
      obtain ⟨hp, -, -, hplaced⟩ :=
        (hsafe cur file hr.process hr.namedFile).2 ((ho.frames.admits_iff hS _).mpr hr.admitted)
      exact .inl ((hr.loaded_iff ho).mpr ⟨hp, hplaced⟩)
    · exact .inr hrefused

/-- A program with 2 instructions and no data, which begins where its page begins. -/
theorem safe_execSelf (space : AddrSpace) (ho : Owning e) {s : Nat} (hS : e.spaces s = some space) :
    Safe space e.virtMem e.mainMemory (noffImage execSelf) fun _ => 0 := by
  have hh : fileHeader (noffImage execSelf) (fun _ => 0) =
      ⟨noffMagic, ⟨0, 40, 8⟩, ⟨0, 0, 0⟩, ⟨0, 0, 0⟩⟩ := by decide +kernel
  have hp : IsProgram (noffImage execSelf) (fileHeader (noffImage execSelf) fun _ => 0) := by
    rw [hh]
    constructor <;> decide +kernel
  have hconf : (fileHeader (noffImage execSelf) fun _ => 0).Confined := by
    rw [hh]
    decide
  refine ⟨hp.magic, fun hadm => ?_⟩
  have hlen := ho.frames.length_newFrames hS hadm
  have hr : ∀ f ∈ newFrames e.virtMem (frames space.pageTable)
      (fileHeader (noffImage execSelf) fun _ => 0).numPages, f < numPhysPages := by
    intro f hf
    exact List.mem_range.mp (List.mem_filter.mp (List.mem_of_mem_take hf)).1
  exact ⟨hp, hconf.1.inMemory hr (hlen.symm ▸ hp.code.2), hconf.2.inMemory hr (hlen.symm ▸ hp.initData.2),
    hconf.placed_eq (hlen.symm ▸ hp.code.2) (hlen.symm ▸ hp.initData.2) _ _⟩

/-- The state in which the program calls `Exec`, and the entry. -/
theorem execSelf_calls : ∃ k e, runs (plainBoot execSelf) ([false, false].map (plainEnv execSelf)) =
    some k ∧ k.syscallEntry = some e ∧ (e.registers 2).toNat = 2 := by
  let k := (runs (plainBoot execSelf) ([false, false].map (plainEnv execSelf))).get
    (by decide +kernel)
  let e := k.syscallEntry.get (by decide +kernel)
  exact ⟨k, e, (Option.some_get _).symm, (Option.some_get _).symm, by decide +kernel⟩

theorem exec_clean_execSelf :
    ∃ k e, runs (plainBoot execSelf) ([false, false].map (plainEnv execSelf)) = some k ∧
      k.syscallEntry = some e ∧ ExecClean (plainEnv execSelf false) k e := by
  obtain ⟨k, e, hrun, he, hcode⟩ := execSelf_calls
  have ho : Owning e := (syscallEntry_spec he).2.2.1.quiet.owning (.run hrun)
  refine ⟨k, e, hrun, he, (exec_clean_iff hrun he hcode).mpr fun cur file hcur hfile => ?_⟩
  obtain ⟨name, hname⟩ := AddrSpace.namedFile_spec hfile
  cases hname
  obtain ⟨-, -, hS, -, -⟩ := process_spec hcur
  exact safe_execSelf cur.space ho hS

/-- An empty file trips the assertion on the magic number. -/
theorem not_exec_clean : ¬ ∀ b envs env k e, runs b envs = some k → k.syscallEntry = some e →
    (e.registers 2).toNat = 2 → ExecClean env k e := by
  intro hall
  obtain ⟨k, e, hrun, he, hcode⟩ := execSelf_calls
  obtain ⟨k', hstep, -⟩ := hall _ _ { plainEnv execSelf false with files := fun _ => some [] } k e hrun
    he hcode
  have hstuck : ((runs (plainBoot execSelf) ([false, false].map (plainEnv execSelf))).bind fun k =>
      (step { plainEnv execSelf false with files := fun _ => some [] } k).toOption).isNone = true := by
    decide +kernel
  rw [hrun, Option.bind_some, hstep] at hstuck
  cases hstuck

end Nachos.Kernel
