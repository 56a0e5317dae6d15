import Nachos.Machine.Memory
import Nachos.Machine.Step

/-!
# Programs without a page table (machine/translate.cc, machine/mipssim.cc)

A program whose pages are spread over main memory runs as if they were in order,
from address 0 on, and there was nothing else.

* `Machine.flat`: the machine with page `i` in frame `i`; `FlatOf`: such a machine, with
  any use and dirty bits;
* `readMem_alike`, `writeMem_alike`: an access is the same access there;
* `execute_alike`, `oneInstruction_alike`: so is an instruction, with the same result,
  exception or stop.
-/

namespace Nachos

open Nachos.Framework

variable {m m' f f' : Machine}

/-- The entry of page `i`, when it is in frame `i` and was not used. -/
def TranslationEntry.flat (i : Nat) (e : TranslationEntry) : TranslationEntry :=
  ⟨BitVec.ofNat 32 i, BitVec.ofNat 32 i, e.valid, e.readOnly, false, false⟩

/-- The bytes of the valid pages, by their virtual addresses. -/
def Machine.validMemory (m : Machine) : Bytes := fun x =>
  match m.pageTable[x / pageSize]? with
  | some e => if e.valid then m.mainMemory (e.physAddr x) else 0
  | none => 0

/-- The machine with page `i` in frame `i`, and zeros elsewhere. -/
def Machine.flat (m : Machine) : Machine :=
  ⟨m.registers, m.validMemory, m.pageTable.mapIdx TranslationEntry.flat, m.pageTableSize⟩

/-- `f` is the flat machine of `m`, up to use and dirty bits. -/
structure FlatOf (m f : Machine) : Prop where
  registers : f.registers = m.registers
  memory : f.mainMemory = m.validMemory
  table : ∀ i : Nat, (f.pageTable[i]?).map TranslationEntry.mapping =
    (m.pageTable[i]?).map fun e => (BitVec.ofNat 32 i, e.valid, e.readOnly)
  size : f.pageTableSize = m.pageTableSize

/-- The pages are in different frames, and there are no more of them than frames. -/
structure Machine.Fits (m : Machine) : Prop where
  maps : m.MapsInjectively
  size : m.pageTableSize ≤ numPhysPages

theorem flatOf_flat (m : Machine) : FlatOf m m.flat where
  registers := rfl
  memory := rfl
  table i := by
    show ((m.pageTable.mapIdx TranslationEntry.flat)[i]?).map _ = _
    rw [List.getElem?_mapIdx, Option.map_map]
    rfl
  size := rfl

theorem FlatOf.setRegisters (h : FlatOf m f) (r : Registers) :
    FlatOf { m with registers := r } { f with registers := r } :=
  ⟨rfl, h.memory, h.table, h.size⟩

theorem FlatOf.entry (h : FlatOf m f) {i : Nat} {e : TranslationEntry} (he : m.pageTable[i]? = some e) :
    ∃ d, f.pageTable[i]? = some d ∧ d.physicalPage = BitVec.ofNat 32 i ∧ d.valid = e.valid ∧
      d.readOnly = e.readOnly := by
  have htable := h.table i
  rw [he, Option.map_some, Option.map_eq_some_iff] at htable
  obtain ⟨d, hd, heq⟩ := htable
  simp only [TranslationEntry.mapping, Prod.mk.injEq] at heq
  exact ⟨d, hd, heq⟩

theorem physAddr_of_page {d : TranslationEntry} {x : Nat} (hd : d.physicalPage = BitVec.ofNat 32 (x / pageSize))
    (h : x / pageSize < numPhysPages) : d.physAddr x = x := by
  have hlt : x / pageSize < 2 ^ 32 := Nat.lt_trans h (by decide)
  unfold TranslationEntry.physAddr
  rw [hd, BitVec.toNat_ofNat, Nat.mod_eq_of_lt hlt]
  exact Nat.div_add_mod' x pageSize

theorem validMemory_of_entry {x : Nat} {e : TranslationEntry} (he : m.pageTable[x / pageSize]? = some e)
    (hv : e.valid = true) : m.validMemory x = m.mainMemory (e.physAddr x) := by
  unfold Machine.validMemory
  rw [he]
  exact if_pos hv

/-- A flat machine is the flat machine, but for these bits. -/
theorem FlatOf.flat_eq (h : FlatOf m f) (hm : m.Fits) : f.flat = m.flat := by
  have htable : f.pageTable.mapIdx TranslationEntry.flat = m.pageTable.mapIdx TranslationEntry.flat := by
    apply List.ext_getElem?
    intro i
    rw [List.getElem?_mapIdx, List.getElem?_mapIdx]
    have hi := h.table i
    cases he : m.pageTable[i]? with
    | none =>
      rw [he, Option.map_none, Option.map_eq_none_iff] at hi
      rw [hi]
    | some e =>
      obtain ⟨d, hd, -, hv, hr⟩ := h.entry he
      rw [hd]
      show some _ = some _
      rw [TranslationEntry.flat, TranslationEntry.flat, hv, hr]
  have hmemory : f.validMemory = m.validMemory := by
    funext x
    have hi := h.table (x / pageSize)
    unfold Machine.validMemory
    cases he : m.pageTable[x / pageSize]? with
    | none =>
      rw [he, Option.map_none, Option.map_eq_none_iff] at hi
      rw [hi]
    | some e =>
      obtain ⟨d, hd, hp, hv, -⟩ := h.entry he
      have hlt : x / pageSize < m.pageTable.length := (List.getElem?_eq_some_iff.mp he).1
      rw [hm.maps.length] at hlt
      rw [hd]
      dsimp only
      rw [hv, physAddr_of_page hp (Nat.lt_of_lt_of_le hlt hm.size), h.memory]
      by_cases hvalid : e.valid = true
      · rw [if_pos hvalid, if_pos hvalid, validMemory_of_entry he hvalid]
      · rw [if_neg hvalid, if_neg hvalid]
  unfold Machine.flat
  rw [h.registers, hmemory, htable, h.size]

theorem SameMapping.length (h : SameMapping m m') : m'.pageTable.length = m.pageTable.length := by
  have hlen := congrArg List.length h.table
  rwa [List.length_map, List.length_map] at hlen

theorem Machine.Fits.of_sameMapping (h : m.Fits) (hs : SameMapping m m') : m'.Fits := by
  refine ⟨⟨?_, fun e he hvalid => ?_, fun i j e e' hi hj hv hv' heq => ?_⟩, ?_⟩
  · rw [hs.length, hs.size]
    exact h.maps.length
  · obtain ⟨i, hi⟩ := List.mem_iff_getElem?.mp he
    obtain ⟨e₀, he₀, hp, hv⟩ := getElem?_of_mapping hs.table hi
    rw [← hp]
    exact h.maps.frame e₀ (List.mem_of_getElem? he₀) (hv.trans hvalid)
  · obtain ⟨e₀, he₀, hp, hv₀⟩ := getElem?_of_mapping hs.table hi
    obtain ⟨e₁, he₁, hp', hv₁⟩ := getElem?_of_mapping hs.table hj
    apply h.maps.injective i j e₀ e₁ he₀ he₁ (hv₀.trans hv) (hv₁.trans hv')
    rw [hp, hp', heq]
  · rw [hs.size]
    exact h.size

/-! ## Outcomes -/

/-- The same outcome: results that are related, the same exception in alike machines, or the
same stop. -/
def Alike {α β : Type} (R : α → β → Prop) : Except Fault α → Except Fault β → Prop
  | .ok a, .ok b => R a b
  | .error (.exception which badVAddr m), .error (.exception which' badVAddr' f) =>
    which' = which ∧ badVAddr' = badVAddr ∧ FlatOf m f
  | .error (.stop s), .error (.stop s') => s' = s
  | _, _ => False

section

variable {α β γ δ : Type} {R : α → β → Prop} {x₁ x₂ : Except Fault α} {y₁ y₂ : Except Fault β}

theorem alike_raise (h : FlatOf m f) (which : ExceptionType) (badVAddr : BitVec 32) :
    Alike R (.error (.exception which badVAddr m)) (.error (.exception which badVAddr f)) := ⟨rfl, rfl, h⟩

theorem alike_stop (s : Stop) : Alike R (.error (.stop s)) (.error (.stop s)) := rfl

theorem alike_ite {c : Prop} [Decidable c] (h₁ : Alike R x₁ y₁) (h₂ : Alike R x₂ y₂) :
    Alike R (if c then x₁ else x₂) (if c then y₁ else y₂) := by
  by_cases hc : c
  · rwa [if_pos hc, if_pos hc]
  · rwa [if_neg hc, if_neg hc]

theorem Alike.bind {S : γ → δ → Prop} {k : α → Except Fault γ} {k' : β → Except Fault δ}
    (h : Alike R x₁ y₁) (hk : ∀ a b, x₁ = .ok a → R a b → Alike S (k a) (k' b)) :
    Alike S (x₁ >>= k) (y₁ >>= k') := by
  cases x₁ with
  | ok a =>
    cases y₁ with
    | ok b => exact hk a b rfl h
    | error e => exact h.elim
  | error e =>
    cases y₁ with
    | ok b => cases e <;> exact h.elim
    | error e' =>
      cases e with
      | exception which badVAddr m =>
        cases e' with
        | exception which' badVAddr' f => exact h
        | stop s' => exact h.elim
      | stop s =>
        cases e' with
        | exception which' badVAddr' f => exact h.elim
        | stop s' => exact h

end

/-! ## Accesses -/

section

variable {virtAddr : BitVec 32} {size : Nat} {writing : Bool} {e d : TranslationEntry}

theorem touch_validMemory (he : m.pageTable[virtAddr.toNat / pageSize]? = some e) :
    (m.touch virtAddr e writing).validMemory = m.validMemory := by
  funext x
  have hlt := (List.getElem?_eq_some_iff.mp he).1
  unfold Machine.validMemory Machine.touch
  by_cases hx : virtAddr.toNat / pageSize = x / pageSize
  · rw [← hx, List.getElem?_set_self hlt, he]
    rfl
  · rw [List.getElem?_set_ne hx]

/-- Use and dirty bits do not matter. -/
theorem FlatOf.touch (h : FlatOf m f) (he : m.pageTable[virtAddr.toNat / pageSize]? = some e)
    (hd : f.pageTable[virtAddr.toNat / pageSize]? = some d) :
    FlatOf (m.touch virtAddr e writing) (f.touch virtAddr d writing) := by
  refine ⟨h.registers, ?_, fun i => ?_, h.size⟩
  · rw [touch_validMemory he]
    exact h.memory
  · have hlt := (List.getElem?_eq_some_iff.mp he).1
    have hlt' := (List.getElem?_eq_some_iff.mp hd).1
    have htable := h.table i
    unfold Machine.touch
    by_cases hi : virtAddr.toNat / pageSize = i
    · subst hi
      rw [he, hd] at htable
      rw [List.getElem?_set_self hlt, List.getElem?_set_self hlt']
      exact htable
    · rw [List.getElem?_set_ne hi, List.getElem?_set_ne hi]
      exact htable

/-- An access that translates does so in the flat machine, to the virtual address. -/
theorem FlatOf.translates (h : FlatOf m f) (hm : m.Fits) (hs : size = 1 ∨ size = 2 ∨ size = 4)
    (he : Translates m virtAddr size writing e) :
    ∃ d, Translates f virtAddr size writing d ∧ d.physAddr virtAddr.toNat = virtAddr.toNat := by
  obtain ⟨d, hd, hp, hv, hr⟩ := h.entry he.entry
  have hpage : virtAddr.toNat / pageSize < numPhysPages := Nat.lt_of_lt_of_le he.inTable hm.size
  have hphys := physAddr_of_page hp hpage
  refine ⟨d, ⟨he.aligned, ?_, hd, hv.trans he.valid, ?_, ?_, ?_⟩, hphys⟩
  · rw [h.size]
    exact he.inTable
  · rw [hr]
    exact he.writable
  · rw [hp, BitVec.toNat_ofNat, Nat.mod_eq_of_lt (Nat.lt_trans hpage (by decide))]
    exact hpage
  · rw [hphys]
    have hoff := offset_add_le hs ((aligned_iff hs).mp he.aligned)
    unfold numPhysPages at hpage
    unfold memorySize numPhysPages
    unfold pageSize at *
    omega

/-- What a translation gives in `m`, and in the flat machine. -/
structure TranslatesAlike (virtAddr : BitVec 32) (p p' : Nat × Machine) : Prop where
  address : p'.1 = virtAddr.toNat
  machine : FlatOf p.2 p'.2

theorem translate_alike (h : FlatOf m f) (hm : m.Fits) (hs : size = 1 ∨ size = 2 ∨ size = 4) :
    Alike (TranslatesAlike virtAddr) (m.translate virtAddr size writing)
      (f.translate virtAddr size writing) := by
  cases htr : m.translate virtAddr size writing with
  | ok p =>
    obtain ⟨e, he, rfl⟩ := translate_eq_ok.mp htr
    obtain ⟨d, hd, hphys⟩ := h.translates hm hs he
    rw [translate_eq_ok.mpr ⟨d, hd, rfl⟩]
    exact ⟨hphys, h.touch he.entry hd.entry⟩
  | error fault =>
    obtain ⟨which, rfl⟩ := hm.maps.translate_error hs htr
    suffices hsame : f.translate virtAddr size writing = .error (.exception which virtAddr f) by
      rw [hsame]
      exact alike_raise h _ _
    unfold Machine.translate at htr ⊢
    -- the same check fails
    split at htr
    next halign =>
      cases htr
      exact if_pos halign
    next halign =>
      rw [if_neg halign]
      simp only at htr ⊢
      rw [h.size]
      split at htr
      next hsize =>
        cases htr
        exact if_pos hsize
      next hsize =>
        rw [if_neg hsize]
        cases hentry : m.pageTable[virtAddr.toNat / pageSize]? with
        | none =>
          rw [hentry] at htr
          cases htr
        | some e =>
          obtain ⟨d, hd, -, hv, hr⟩ := h.entry hentry
          rw [hentry] at htr
          rw [hd]
          dsimp only at htr ⊢
          rw [hv, hr]
          split at htr
          next hvalid =>
            cases htr
            exact if_pos hvalid
          next hvalid =>
            have hframe := hm.maps.frame e (List.mem_of_getElem? hentry) (by simpa using hvalid)
            rw [if_neg hvalid]
            split at htr
            next hro =>
              cases htr
              exact if_pos hro
            next hro =>
              rw [if_neg (Nat.not_le.mpr hframe)] at htr
              split at htr <;> cases htr

theorem readMem_alike (h : FlatOf m f) (hm : m.Fits) (hs : size = 1 ∨ size = 2 ∨ size = 4) :
    Alike (fun p p' : BitVec 32 × Machine => p'.1 = p.1 ∧ FlatOf p.2 p'.2)
      (m.readMem virtAddr size) (f.readMem virtAddr size) := by
  unfold Machine.readMem
  refine (translate_alike h hm hs).bind fun p p' hp hpp => ?_
  obtain ⟨e, he, rfl⟩ := translate_eq_ok.mp hp
  obtain ⟨a, f₁⟩ := p'
  obtain ⟨rfl, hf₁⟩ := hpp
  dsimp only at hf₁ ⊢
  -- the bytes of the access are the same
  have hbytes : ∀ i < size, f₁.mainMemory (virtAddr.toNat + i) =
      (m.touch virtAddr e false).mainMemory (e.physAddr virtAddr.toNat + i) := by
    intro i hi
    obtain ⟨hpage, hoff⟩ := page_add hs ((aligned_iff hs).mp he.aligned) hi
    rw [hf₁.memory, touch_validMemory he.entry, validMemory_of_entry (hpage ▸ he.entry) he.valid]
    show m.mainMemory _ = m.mainMemory _
    congr 1
    simp only [TranslationEntry.physAddr, hoff, Nat.add_assoc]
  rcases hs with rfl | rfl | rfl
  · have h0 := hbytes 0 (by decide)
    rw [Nat.add_zero, Nat.add_zero] at h0
    exact ⟨congrArg (BitVec.signExtend 32) h0, hf₁⟩
  · refine ⟨?_, hf₁⟩
    show (halfAt _ _).setWidth 32 = (halfAt _ _).setWidth 32
    rw [halfAt_eq_littleEndian, littleEndian_congr hbytes, ← halfAt_eq_littleEndian]
  · exact ⟨wordAt_congr hbytes, hf₁⟩

theorem store_validMemory (hm : m.Fits) (hs : size = 1 ∨ size = 2 ∨ size = 4)
    (he : Translates m virtAddr size writing e) (value : BitVec 32) :
    (m.store (e.physAddr virtAddr.toNat) size value).validMemory =
      splice m.validMemory virtAddr.toNat size (bytesOf value) := by
  funext x
  -- a byte of the access is in the page of the access, which is valid
  have hin : (∀ d, m.pageTable[x / pageSize]? = some d → d.valid ≠ true) →
      ¬ (virtAddr.toNat ≤ x ∧ x < virtAddr.toNat + size) := by
    rintro hv ⟨h₁, h₂⟩
    obtain ⟨i, rfl⟩ := Nat.exists_eq_add_of_le h₁
    obtain ⟨hpage, -⟩ := page_add hs ((aligned_iff hs).mp he.aligned) (show i < size by omega)
    exact hv e (hpage ▸ he.entry) he.valid
  cases hentry : m.pageTable[x / pageSize]? with
  | none =>
    rw [splice_apply_of_notMem (hin fun d hd => by rw [hentry] at hd; cases hd)]
    simp only [Machine.validMemory, Machine.store, hentry]
  | some d =>
    by_cases hv : d.valid = true
    · have hstore := hm.maps.userMemory_store hs he value hentry hv
      have huser : ∀ n : Machine, n.pageTable = m.pageTable → n.validMemory x = n.userMemory x := by
        intro n hn
        simp only [Machine.validMemory, Machine.userMemory, hn, hentry, hv, ite_true]
      rw [huser (m.store _ _ _) rfl, hstore]
      unfold splice
      rw [huser m rfl]
    · rw [splice_apply_of_notMem (hin fun d' hd => by rw [hentry] at hd; exact Option.some.inj hd ▸ hv)]
      simp only [Machine.validMemory, Machine.store, hentry, if_neg hv]

theorem writeMem_alike (h : FlatOf m f) (hm : m.Fits) (hs : size = 1 ∨ size = 2 ∨ size = 4) (value : BitVec 32) :
    Alike FlatOf (m.writeMem virtAddr size value) (f.writeMem virtAddr size value) := by
  unfold Machine.writeMem
  refine (translate_alike h hm hs).bind fun p p' hp hpp => ?_
  obtain ⟨e, he, rfl⟩ := translate_eq_ok.mp hp
  obtain ⟨a, f₁⟩ := p'
  obtain ⟨rfl, hf₁⟩ := hpp
  dsimp only at hf₁ ⊢
  have hfits : (m.touch virtAddr e true).Fits :=
    hm.of_sameMapping ⟨rfl, touch_mapping he.entry, fun _ _ => rfl⟩
  have hlt := (List.getElem?_eq_some_iff.mp he.entry).1
  have htouch : Translates (m.touch virtAddr e true) virtAddr size true (e.touch true) :=
    ⟨he.aligned, he.inTable, List.getElem?_set_self hlt, he.valid, he.writable, he.frame, he.inMemory⟩
  have hstored : FlatOf ((m.touch virtAddr e true).store (e.physAddr virtAddr.toNat) size value)
      (f₁.store virtAddr.toNat size value) := by
    refine ⟨hf₁.registers, ?_, hf₁.table, hf₁.size⟩
    have hstore := store_validMemory hfits hs htouch value
    rw [← hf₁.memory] at hstore
    exact hstore.symm
  rcases hs with rfl | rfl | rfl <;> exact hstored

end

/-! ## Instructions -/

section

variable {α β : Type} {R : α → β → Prop} {addr value : BitVec 32} {size : Nat}

theorem alike_readMem {k : BitVec 32 × Machine → Except Fault α} {k' : BitVec 32 × Machine → Except Fault β}
    (h : FlatOf m f) (hm : m.Fits) (hs : size = 1 ∨ size = 2 ∨ size = 4)
    (hk : ∀ v m₁ f₁, FlatOf m₁ f₁ → m₁.Fits → m₁.registers = m.registers →
      Alike R (k (v, m₁)) (k' (v, f₁))) :
    Alike R (m.readMem addr size >>= k) (f.readMem addr size >>= k') := by
  refine (readMem_alike h hm hs).bind fun p p' hp hpp => ?_
  obtain ⟨v, m₁⟩ := p
  obtain ⟨v', f₁⟩ := p'
  obtain ⟨rfl, hf₁⟩ := hpp
  obtain ⟨hsame, hregs⟩ := Machine.readMem_sameMapping hp
  exact hk _ _ _ hf₁ (hm.of_sameMapping hsame) hregs

theorem alike_writeMem {k : Machine → Except Fault α} {k' : Machine → Except Fault β}
    (h : FlatOf m f) (hm : m.Fits) (hs : size = 1 ∨ size = 2 ∨ size = 4)
    (hk : ∀ m₁ f₁, FlatOf m₁ f₁ → Alike R (k m₁) (k' f₁)) :
    Alike R (m.writeMem addr size value >>= k) (f.writeMem addr size value >>= k') :=
  (writeMem_alike h hm hs value).bind fun _ _ _ hf₁ => hk _ _ hf₁

end

/-- The same execution, up to the common tail. -/
structure ExecutedAlike (e e' : Executed) : Prop where
  machine : FlatOf e.machine e'.machine
  pcAfter : e'.pcAfter = e.pcAfter
  nextLoadReg : e'.nextLoadReg = e.nextLoadReg
  nextLoadValue : e'.nextLoadValue = e.nextLoadValue

theorem alike_executed (h : FlatOf m f) (a b c : BitVec 32) :
    Alike ExecutedAlike (.ok ⟨m, a, b, c⟩) (.ok ⟨f, a, b, c⟩) := ⟨h, rfl, rfl, rfl⟩

theorem alike_registers (h : FlatOf m f) (r : Registers) (a b c : BitVec 32) :
    Alike ExecutedAlike (.ok ⟨{ m with registers := r }, a, b, c⟩) (.ok ⟨{ f with registers := r }, a, b, c⟩) :=
  alike_executed (h.setRegisters r) a b c

/-- The flat machine executes every instruction alike. -/
theorem execute_alike (h : FlatOf m f) (hm : m.Fits) (instr : Instruction) :
    Alike ExecutedAlike (m.execute instr) (f.execute instr) := by
  have h1 : 1 = 1 ∨ 1 = 2 ∨ 1 = 4 := .inl rfl
  have h2 : 2 = 1 ∨ 2 = 2 ∨ 2 = 4 := .inr (.inl rfl)
  have h4 : 4 = 1 ∨ 4 = 2 ∨ 4 = 4 := .inr (.inr rfl)
  obtain ⟨op, rs, rt, rd, extra⟩ := instr
  obtain ⟨r, memory, table, size⟩ := f
  obtain rfl : r = m.registers := h.registers
  cases op with
  | add | addi | sub => exact alike_ite (alike_raise h _ _) (alike_registers h _ _ _ _)
  | div | divu => exact alike_ite (alike_registers h _ _ _ _) (alike_registers h _ _ _ _)
  | lb | lbu =>
    exact alike_readMem h hm h1 fun v m₁ f₁ hf₁ _ _ =>
      alike_ite (alike_executed hf₁ _ _ _) (alike_executed hf₁ _ _ _)
  | lh | lhu =>
    exact alike_ite (alike_raise h _ _) (alike_readMem h hm h2 fun v m₁ f₁ hf₁ _ _ =>
      alike_ite (alike_executed hf₁ _ _ _) (alike_executed hf₁ _ _ _))
  | lw =>
    exact alike_ite (alike_raise h _ _) (alike_readMem h hm h4 fun v m₁ f₁ hf₁ _ _ =>
      alike_executed hf₁ _ _ _)
  | lwl | lwr =>
    exact alike_ite (alike_stop _) (alike_readMem h hm h4 fun v m₁ f₁ hf₁ _ _ => alike_executed hf₁ _ _ _)
  | sb => exact alike_writeMem h hm h1 fun m₁ f₁ hf₁ => alike_executed hf₁ _ _ _
  | sh => exact alike_writeMem h hm h2 fun m₁ f₁ hf₁ => alike_executed hf₁ _ _ _
  | sw => exact alike_writeMem h hm h4 fun m₁ f₁ hf₁ => alike_executed hf₁ _ _ _
  | swl | swr =>
    exact alike_ite (alike_stop _) (alike_readMem h hm h4 fun v m₁ f₁ hf₁ hm₁ _ =>
      alike_writeMem hf₁ hm₁ h4 fun m₂ f₂ hf₂ => alike_executed hf₂ _ _ _)
  | syscall | res | unimp => exact alike_raise h _ _
  | special | bcond => exact alike_stop _
  | _ => exact alike_registers h _ _ _ _

theorem finish_alike {e e' : Executed} (h : ExecutedAlike e e') : Alike FlatOf e.finish e'.finish := by
  unfold Executed.finish
  rw [h.machine.registers, h.nextLoadReg, h.nextLoadValue, h.pcAfter]
  cases e.machine.registers.delayedLoad e.nextLoadReg e.nextLoadValue with
  | ok r => exact h.machine.setRegisters _
  | error s => exact alike_stop s

/-- One instruction of a program is the same instruction in the flat machine. -/
theorem oneInstruction_alike (h : FlatOf m f) (hm : m.Fits) :
    Alike FlatOf m.oneInstruction f.oneInstruction := by
  rw [Machine.oneInstruction_eq, Machine.oneInstruction_eq, h.registers]
  refine alike_readMem h hm (.inr (.inr rfl)) fun v m₁ f₁ hf₁ hm₁ _ => ?_
  exact (execute_alike hf₁ hm₁ _).bind fun e e' _ he => finish_alike he

end Nachos
