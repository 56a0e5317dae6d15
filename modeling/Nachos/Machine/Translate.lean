import Nachos.Framework.Bytes
import Nachos.Framework.Stop
import Mathlib.Logic.Function.Basic

/-!
# The simulated machine (machine/machine.h, machine.cc, translate.cc)

Registers, main memory and the page table the hardware translates with. The
build has no TLB, and the host is little-endian, so `WordToHost` and its
siblings change nothing.

* `translate_spec`: an address that translates lies in the frame of a valid
  entry, and translating changes no mapping;
* `SameMapping`: what a user program can do to the machine, namely change
  registers, use and dirty bits, and the bytes of the frames it maps;
* `readMem_sameMapping`, `writeMem_sameMapping`: memory accesses are of that kind.
-/

namespace Nachos

open Nachos.Framework

/-- `PageSize`, the sector size of the disk. -/
def pageSize : Nat := 128

/-- `NumPhysPages`. -/
def numPhysPages : Nat := 32

/-- `MemorySize`. -/
def memorySize : Nat := numPhysPages * pageSize

inductive ExceptionType
  | syscall
  | pageFault
  | readOnly
  | busError
  | addressError
  | overflow
  | illegalInstr
  deriving DecidableEq, Repr

/-! ## Registers -/

/-- The 40 registers. -/
abbrev Registers := Fin 40 → BitVec 32

instance neZero_numTotalRegs : NeZero 40 := ⟨by decide⟩

def stackReg : Fin 40 := 29
def retAddrReg : Fin 40 := 31
def hiReg : Fin 40 := 32
def loReg : Fin 40 := 33
def pcReg : Fin 40 := 34
def nextPCReg : Fin 40 := 35
def prevPCReg : Fin 40 := 36
def loadReg : Fin 40 := 37
def loadValueReg : Fin 40 := 38
def badVAddrReg : Fin 40 := 39

/-- `Machine::WriteRegister`; `ReadRegister` is application. -/
def Registers.write (r : Registers) (num : Fin 40) (value : BitVec 32) : Registers :=
  Function.update r num value

/-- `Machine::DelayedLoad`. The target of the pending load is an index into the
register array that nothing checks. -/
def Registers.delayedLoad (r : Registers) (nextReg nextValue : BitVec 32) :
    Except Stop Registers :=
  if h : (r loadReg).toNat < 40 then
    .ok ((((r.write ⟨(r loadReg).toNat, h⟩ (r loadValueReg)).write loadReg nextReg).write
      loadValueReg nextValue).write 0 0)
  else .error .undefined

@[simp] theorem Registers.write_self (r : Registers) (i : Fin 40) (v : BitVec 32) :
    r.write i v i = v := by
  rw [Registers.write, Function.update_self]

theorem Registers.write_of_ne (r : Registers) {i j : Fin 40} (h : j ≠ i) (v : BitVec 32) :
    r.write i v j = r j := by
  rw [Registers.write, Function.update_of_ne h]

/-! ## Address translation -/

/-- `TranslationEntry`. -/
structure TranslationEntry where
  virtualPage : BitVec 32
  physicalPage : BitVec 32
  valid : Bool
  readOnly : Bool
  use : Bool
  dirty : Bool
  deriving DecidableEq, Repr

/-- The registers, the memory, and the array that `pageTable` points to. -/
structure Machine where
  registers : Registers
  mainMemory : Bytes
  pageTable : List TranslationEntry
  pageTableSize : Nat

/-- How an instruction can fail: it traps to the kernel, with the machine as it
was at `RaiseException`, or the simulation itself stops. -/
inductive Fault
  | exception (which : ExceptionType) (badVAddr : BitVec 32) (m : Machine)
  | stop (s : Stop)

/-- `Machine::Translate`. The exceptions it returns are raised by its callers
with the address translated. -/
def Machine.translate (m : Machine) (virtAddr : BitVec 32) (size : Nat) (writing : Bool) :
    Except Fault (Nat × Machine) :=
  if (size = 4 ∧ virtAddr &&& 0x3 ≠ 0) ∨ (size = 2 ∧ virtAddr &&& 0x1 ≠ 0) then
    .error (.exception .addressError virtAddr m)
  else
    let vpn := virtAddr.toNat / pageSize
    let offset := virtAddr.toNat % pageSize
    if m.pageTableSize ≤ vpn then .error (.exception .addressError virtAddr m)
    else
      match m.pageTable[vpn]? with
      | none => .error (.stop .undefined)
      | some entry =>
        if entry.valid = false then .error (.exception .pageFault virtAddr m)
        else if entry.readOnly ∧ writing then .error (.exception .readOnly virtAddr m)
        else if numPhysPages ≤ entry.physicalPage.toNat then
          .error (.exception .busError virtAddr m)
        else
          let physAddr := entry.physicalPage.toNat * pageSize + offset
          let entry := { entry with use := true, dirty := entry.dirty || writing }
          if physAddr + size ≤ memorySize then
            .ok (physAddr, { m with pageTable := m.pageTable.set vpn entry })
          else .error (.stop .assertion)

/-- `Machine::ReadMem`. -/
def Machine.readMem (m : Machine) (addr : BitVec 32) (size : Nat) :
    Except Fault (BitVec 32 × Machine) := do
  let (physicalAddress, m) ← m.translate addr size false
  match size with
  | 1 => .ok ((m.mainMemory physicalAddress).signExtend 32, m)
  | 2 => .ok ((halfAt m.mainMemory physicalAddress).setWidth 32, m)
  | 4 => .ok (wordAt m.mainMemory physicalAddress, m)
  | _ => .error (.stop .assertion)

/-- `Machine::WriteMem`. -/
def Machine.writeMem (m : Machine) (addr : BitVec 32) (size : Nat) (value : BitVec 32) :
    Except Fault Machine := do
  let (physicalAddress, m) ← m.translate addr size true
  match size with
  | 1 | 2 | 4 =>
    .ok { m with mainMemory := splice m.mainMemory physicalAddress size (bytesOf value) }
  | _ => .error (.stop .assertion)

/-! ## What a user program can change -/

/-- What of an entry decides which byte an address stands for. -/
def TranslationEntry.mapping (e : TranslationEntry) : BitVec 32 × Bool × Bool :=
  (e.physicalPage, e.valid, e.readOnly)

/-- The byte `x` of main memory is in the frame of a valid entry of the table. -/
def Maps (table : List TranslationEntry) (x : Nat) : Prop :=
  ∃ e ∈ table, e.valid = true ∧ e.physicalPage.toNat = x / pageSize

theorem maps_congr {t t' : List TranslationEntry}
    (h : t'.map TranslationEntry.mapping = t.map TranslationEntry.mapping) {x : Nat} :
    Maps t' x ↔ Maps t x := by
  have key : ∀ {t t' : List TranslationEntry},
      t'.map TranslationEntry.mapping = t.map TranslationEntry.mapping → Maps t' x → Maps t x := by
    rintro t t' h ⟨e, he, hv, hx⟩
    obtain ⟨d, hd, hde⟩ := List.mem_map.mp (h ▸ List.mem_map_of_mem he)
    simp only [TranslationEntry.mapping, Prod.mk.injEq] at hde
    exact ⟨d, hd, hde.2.1.trans hv, by rw [hde.1, hx]⟩
  exact ⟨key h, key h.symm⟩

/-- `m'` differs from `m` in registers, use and dirty bits, and bytes of mapped
frames only. -/
structure SameMapping (m m' : Machine) : Prop where
  size : m'.pageTableSize = m.pageTableSize
  table : m'.pageTable.map TranslationEntry.mapping = m.pageTable.map TranslationEntry.mapping
  memory : ∀ x, ¬ Maps m.pageTable x → m'.mainMemory x = m.mainMemory x

theorem SameMapping.refl (m : Machine) : SameMapping m m := ⟨rfl, rfl, fun _ _ => rfl⟩

theorem SameMapping.trans {m₁ m₂ m₃ : Machine} (h : SameMapping m₁ m₂) (h' : SameMapping m₂ m₃) :
    SameMapping m₁ m₃ where
  size := h'.size.trans h.size
  table := h'.table.trans h.table
  memory := fun x hx => (h'.memory x (by rwa [maps_congr h.table])).trans (h.memory x hx)

theorem SameMapping.of_registers {m m' : Machine} (h : SameMapping m m') (r : Registers) :
    SameMapping m { m' with registers := r } := ⟨h.size, h.table, h.memory⟩

theorem map_mapping_set {t : List TranslationEntry} {i : Nat} {e e' : TranslationEntry}
    (hi : t[i]? = some e) (he : e'.mapping = e.mapping) :
    (t.set i e').map TranslationEntry.mapping = t.map TranslationEntry.mapping := by
  obtain ⟨hlt, rfl⟩ := List.getElem?_eq_some_iff.mp hi
  have hlt' : i < (t.map TranslationEntry.mapping).length := by rwa [List.length_map]
  rw [List.map_set, he, ← List.getElem_map TranslationEntry.mapping (h := hlt'),
    List.set_getElem_self]

theorem toNat_and_three (v : BitVec 32) : (v &&& 0x3).toNat = v.toNat % 4 := by
  rw [BitVec.toNat_and]
  exact Nat.and_two_pow_sub_one_eq_mod v.toNat 2

theorem toNat_and_one (v : BitVec 32) : (v &&& 0x1).toNat = v.toNat % 2 := by
  rw [BitVec.toNat_and]
  exact Nat.and_two_pow_sub_one_eq_mod v.toNat 1

/-- An address that translates: where it leads, and that the mapping stays. -/
theorem translate_spec {virtAddr : BitVec 32} {size : Nat} {writing : Bool} {m m' : Machine}
    {physAddr : Nat} (h : m.translate virtAddr size writing = .ok (physAddr, m'))
    (hs : size = 1 ∨ size = 2 ∨ size = 4) :
    SameMapping m m' ∧ m'.mainMemory = m.mainMemory ∧ m'.registers = m.registers ∧
      ∀ i < size, Maps m.pageTable (physAddr + i) := by
  unfold Machine.translate at h
  split at h
  · cases h
  rename_i halign
  simp only at h
  split at h
  · cases h
  split at h
  · cases h
  rename_i entry hentry
  split at h
  · cases h
  rename_i hvalid
  split at h
  · cases h
  split at h
  · cases h
  split at h
  · cases h
    refine ⟨⟨rfl, map_mapping_set hentry rfl, fun _ _ => rfl⟩, rfl, rfl, fun i hi => ?_⟩
    refine ⟨entry, List.mem_of_getElem? hentry, by simpa using hvalid, ?_⟩
    -- an aligned access does not cross the end of its frame
    have hoff : virtAddr.toNat % pageSize + i < pageSize := by
      have h4 := toNat_and_three virtAddr
      have h2 := toNat_and_one virtAddr
      simp only [not_or, not_and, not_not] at halign
      unfold pageSize
      rcases hs with rfl | rfl | rfl
      · omega
      · rw [halign.2 rfl, show BitVec.toNat (0 : BitVec 32) = 0 from rfl] at h2
        omega
      · rw [halign.1 rfl, show BitVec.toNat (0 : BitVec 32) = 0 from rfl] at h4
        omega
    simp only [pageSize] at hoff ⊢
    omega
  · cases h

theorem Machine.readMem_sameMapping {m m' : Machine} {addr value : BitVec 32} {size : Nat}
    (h : m.readMem addr size = .ok (value, m')) : SameMapping m m' ∧ m'.registers = m.registers := by
  unfold readMem at h
  obtain ⟨⟨pa, m₁⟩, ht, h⟩ := bind_eq_ok.mp h
  simp only at h
  split at h
  · cases h
    have := translate_spec ht (.inl rfl)
    exact ⟨this.1, this.2.2.1⟩
  · cases h
    have := translate_spec ht (.inr (.inl rfl))
    exact ⟨this.1, this.2.2.1⟩
  · cases h
    have := translate_spec ht (.inr (.inr rfl))
    exact ⟨this.1, this.2.2.1⟩
  · cases h

theorem Machine.writeMem_sameMapping {m m' : Machine} {addr value : BitVec 32} {size : Nat}
    (h : m.writeMem addr size value = .ok m') : SameMapping m m' ∧ m'.registers = m.registers := by
  unfold writeMem at h
  obtain ⟨⟨pa, m₁⟩, ht, h⟩ := bind_eq_ok.mp h
  have hwrite : ∀ (hs : size = 1 ∨ size = 2 ∨ size = 4),
      SameMapping m { m₁ with mainMemory := splice m₁.mainMemory pa size (bytesOf value) } ∧
        m₁.registers = m.registers := by
    intro hs
    obtain ⟨hsame, hmem, hreg, hmaps⟩ := translate_spec ht hs
    refine ⟨⟨hsame.size, hsame.table, fun x hx => ?_⟩, hreg⟩
    rw [← hmem]
    refine splice_apply_of_notMem fun hin => hx ?_
    rw [show x = pa + (x - pa) by omega]
    exact hmaps _ (by omega)
  simp only at h
  split at h
  · cases h; exact hwrite (.inl rfl)
  · cases h; exact hwrite (.inr (.inl rfl))
  · cases h; exact hwrite (.inr (.inr rfl))
  · cases h

/-- An access that faults has changed nothing. -/
theorem Machine.translate_exception {m m' : Machine} {virtAddr badVAddr : BitVec 32} {size : Nat}
    {writing : Bool} {which : ExceptionType}
    (h : m.translate virtAddr size writing = .error (.exception which badVAddr m')) : m' = m := by
  unfold translate at h
  simp only at h
  repeat' split at h
  all_goals first | cases h; rfl | cases h

theorem Machine.readMem_exception {m m' : Machine} {addr badVAddr : BitVec 32} {size : Nat}
    {which : ExceptionType}
    (h : m.readMem addr size = .error (.exception which badVAddr m')) : m' = m := by
  unfold readMem at h
  cases ht : m.translate addr size false with
  | error f =>
    rw [ht] at h
    cases h
    exact translate_exception ht
  | ok p =>
    rw [ht] at h
    simp only [bind, Except.bind] at h
    split at h <;> cases h

theorem Machine.writeMem_exception {m m' : Machine} {addr badVAddr value : BitVec 32} {size : Nat}
    {which : ExceptionType}
    (h : m.writeMem addr size value = .error (.exception which badVAddr m')) : m' = m := by
  unfold writeMem at h
  cases ht : m.translate addr size true with
  | error f =>
    rw [ht] at h
    cases h
    exact translate_exception ht
  | ok p =>
    rw [ht] at h
    simp only [bind, Except.bind] at h
    split at h <;> cases h

end Nachos
