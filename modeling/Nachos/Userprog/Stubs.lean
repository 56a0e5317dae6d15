import Mathlib.Tactic.FinCases
import Nachos.Machine.Decode
import Nachos.Userprog.UserMachine

/-!
# The stubs of the system calls (test/start.s)

A program calls the kernel through stubs. Each of them puts the number of its system
call in register 2, traps, and jumps back to its caller.

* `stub`: the code of one; `InStub`: where a process can be in it, `Returned`: when it is
  back;
* `InStub.step`: what can happen to a process in a stub;
* `stub_returns`: a process that is in a stub comes back with the result of the kernel in
  register 2, and with everything else as it was, or stays in it.
-/

namespace Nachos

open Nachos.Framework

variable {m : Machine} {r d : Registers} {a v pc nextPC raw : BitVec 32} {code : Fin 12}
  {P P' : UserMachine} {ev : UserMachine.Event} {es : List UserMachine.Event}

/-! ## Fetching -/

/-- The word that `Machine::OneInstruction` fetches at an address. -/
def Machine.fetch (m : Machine) (addr : BitVec 32) : Option (BitVec 32) :=
  (m.readMem addr 4).toOption.map Prod.fst

theorem fetch_eq_some : m.fetch a = some raw ↔
    ∃ e, Translates m a 4 false e ∧ wordAt m.mainMemory (e.physAddr a.toNat) = raw := by
  unfold Machine.fetch
  rw [Option.map_eq_some_iff]
  constructor
  · rintro ⟨p, hp, rfl⟩
    obtain ⟨p', htr, hp⟩ := bind_eq_ok.mp (toOption_eq_some.mp hp)
    obtain ⟨e, he, rfl⟩ := translate_eq_ok.mp htr
    cases hp
    exact ⟨e, he, rfl⟩
  · rintro ⟨e, he, rfl⟩
    refine ⟨(wordAt m.mainMemory (e.physAddr a.toNat), m.touch a e false), ?_, rfl⟩
    unfold Machine.readMem
    rw [translate_eq_ok.mpr ⟨e, he, rfl⟩]
    rfl

theorem fetch_setRegisters (m : Machine) (r : Registers) (addr : BitVec 32) :
    ({ m with registers := r } : Machine).fetch addr = m.fetch addr := by
  apply Option.ext
  intro w
  rw [fetch_eq_some, fetch_eq_some]
  constructor
  · rintro ⟨e, ⟨h₁, h₂, h₃, h₄, h₅, h₆, h₇⟩, hw⟩
    exact ⟨e, ⟨h₁, h₂, h₃, h₄, h₅, h₆, h₇⟩, hw⟩
  · rintro ⟨e, ⟨h₁, h₂, h₃, h₄, h₅, h₆, h₇⟩, hw⟩
    exact ⟨e, ⟨h₁, h₂, h₃, h₄, h₅, h₆, h₇⟩, hw⟩

/-- After the fetch, which sets a use bit, the instruction is executed. -/
theorem oneInstruction_of_fetch (h : m.fetch (m.registers pcReg) = some raw) :
    ∃ m₁ : Machine, m₁.registers = m.registers ∧ m₁.flat = m.flat ∧
      m.oneInstruction = m₁.execute (decode raw) >>= Executed.finish := by
  obtain ⟨e, he, rfl⟩ := fetch_eq_some.mp h
  refine ⟨m.touch (m.registers pcReg) e false, rfl, ?_, ?_⟩
  · exact Kernel.flat_congr rfl rfl (touch_mapping he.entry) fun _ _ => rfl
  · rw [Machine.oneInstruction_eq]
    unfold Machine.readMem
    rw [translate_eq_ok.mpr ⟨e, he, rfl⟩]
    rfl

/-! ## Instructions that only change registers -/

/-- The program counters go on. -/
def Registers.advance (r : Registers) (pcAfter : BitVec 32) : Registers :=
  ((r.write prevPCReg (r pcReg)).write pcReg (r nextPCReg)).write nextPCReg pcAfter

section

variable {r₁ : Registers} {pcAfter : BitVec 32} (hf : m.fetch (m.registers pcReg) = some raw)
  (hexec : ∀ m₁ : Machine, m₁.registers = m.registers →
    m₁.execute (decode raw) = .ok ⟨{ m₁ with registers := r₁ }, pcAfter, 0, 0⟩)
include hf hexec

theorem step_instruction (hflat : m.flat = m) (h : UserMachine.step .instruction ⟨m, none⟩ = some P') :
    ∃ r, r₁.delayedLoad 0 0 = .ok r ∧ P' = ⟨{ m with registers := r.advance pcAfter }, none⟩ := by
  obtain ⟨m₁, hregs, hm₁, hone⟩ := oneInstruction_of_fetch hf
  rw [hexec m₁ hregs, ok_bind] at hone
  dsimp only [UserMachine.step] at h
  cases hfin : m.oneInstruction with
  | error f =>
    rw [hfin] at h
    cases h
  | ok m' =>
    rw [hfin] at h hone
    obtain ⟨r, hr, rfl⟩ := finish_eq_ok.mp hone.symm
    refine ⟨r, hr, ?_⟩
    rw [← Option.some.inj h]
    show UserMachine.mk { m₁.flat with registers := r.advance pcAfter } none = _
    rw [hm₁, hflat]

/-- They do not trap. -/
theorem step_trap : UserMachine.step .trap ⟨m, none⟩ = none := by
  obtain ⟨m₁, hregs, -, hone⟩ := oneInstruction_of_fetch hf
  rw [hexec m₁ hregs, ok_bind] at hone
  unfold Executed.finish at hone
  cases hd : r₁.delayedLoad 0 0 with
  | error e =>
    have hstop : m.oneInstruction = .error (.stop e) := by
      rw [hone]
      dsimp only
      rw [hd]
      rfl
    simp only [UserMachine.step, hstop]
  | ok r =>
    have hok : m.oneInstruction = .ok { m₁ with registers := r.advance pcAfter } := by
      rw [hone]
      dsimp only
      rw [hd]
      rfl
    simp only [UserMachine.step, hok]

end

/-! ## The stubs -/

/-- `addiu $2,$0,code`, `syscall` and `j $31`, and the `nop` that the assembler puts behind a
jump. -/
def stub (code : Fin 12) : List (BitVec 32) :=
  [0x24020000 ||| BitVec.ofNat 32 code, 0x0000000c, 0x03e00008, 0x00000000]

/-- The stub is at address `a`. -/
def Machine.HasStub (m : Machine) (code : Fin 12) (a : BitVec 32) : Prop :=
  ∀ i : Fin 4, m.fetch (a + 4 * BitVec.ofNat 32 i) = (stub code)[i.val]?

instance (m : Machine) (code : Fin 12) (a : BitVec 32) : Decidable (m.HasStub code a) :=
  inferInstanceAs (Decidable (∀ _, _))

/-- The general registers but number 2 are those of `d`, and no load is pending. -/
structure Carries (d : Registers) (pc nextPC value : BitVec 32) (r : Registers) : Prop where
  pc : r pcReg = pc
  nextPC : r nextPCReg = nextPC
  value : r 2 = value
  settled : Settled r
  others : ∀ i : Fin 32, i ≠ 2 → r (gp i) = d (gp i)

/-- What is in the registers when the stub is entered: `d` when the pending load is done, which
is not one of register 2. -/
structure Enters (d : Registers) (a : BitVec 32) (r : Registers) : Prop where
  pc : r pcReg = a
  nextPC : r nextPCReg = a + 4
  zero : r 0 = 0
  loads : LoadsGeneral r
  load : r loadReg ≠ 2
  done : r.delayedLoad 0 0 = .ok d

/-- The kernel answered with `v`: in register 2, which `Yield` leaves as it is. -/
def Answered (code : Fin 12) (v : BitVec 32) (es : List UserMachine.Event) : Prop :=
  (code.val ∈ [2, 3, 9, 11] ∧ .reply v ∈ es) ∨ (code.val = 10 ∧ v = 10 ∧ .proceed ∈ es)

theorem Answered.append (h : Answered code v es) (es' : List UserMachine.Event) : Answered code v (es ++ es') :=
  h.imp (fun h => ⟨h.1, List.mem_append_left _ h.2⟩) fun h => ⟨h.1, h.2.1, List.mem_append_left _ h.2.2⟩

/-- Where a process can be in a stub, when `es` happened since it entered it. -/
inductive InStub (m : Machine) (d : Registers) (a : BitVec 32) (code : Fin 12) (es : List UserMachine.Event) :
    UserMachine → Prop
  | load (r : Registers) : Enters d a r → InStub m d a code es ⟨{ m with registers := r }, none⟩
  | trap (r : Registers) : Carries d (a + 4) (a + 8) (BitVec.ofNat 32 code) r →
      InStub m d a code es ⟨{ m with registers := r }, none⟩
  | kernel (r : Registers) : Carries d (a + 4) (a + 8) (BitVec.ofNat 32 code) r →
      InStub m d a code es ⟨{ m with registers := r }, some code⟩
  | jump (r : Registers) (v : BitVec 32) : Carries d (a + 8) (a + 12) v r → Answered code v es →
      InStub m d a code es ⟨{ m with registers := r }, none⟩
  | slot (r : Registers) (v : BitVec 32) : Carries d (a + 12) (d 31) v r → Answered code v es →
      InStub m d a code es ⟨{ m with registers := r }, none⟩

/-- The process is back at its caller, with `v` in register 2. -/
def Returned (m : Machine) (d : Registers) (v : BitVec 32) (P : UserMachine) : Prop :=
  ∃ r, Carries d (d 31) (d 31 + 4) v r ∧ P = ⟨{ m with registers := r }, none⟩

/-! ## What registers carry -/

theorem gp_two_ne {i : Fin 32} (h : i ≠ 2) : gp i ≠ 2 := fun heq =>
  h (Fin.ext (congrArg (fun j : Fin 40 => j.val) heq))

/-- A write to a control register other than the load registers. -/
theorem Carries.write (h : Carries d pc nextPC v r) {i : Fin 40} (hi : 32 ≤ i.val) (h₁ : i ≠ pcReg)
    (h₂ : i ≠ nextPCReg) (h₃ : i ≠ loadReg) (h₄ : i ≠ loadValueReg) (u : BitVec 32) :
    Carries d pc nextPC v (r.write i u) := by
  have hne : ∀ j : Fin 32, gp j ≠ i := fun j => gp_ne j hi
  refine ⟨?_, ?_, ?_, h.settled.write u (hne 0).symm h₃ h₄, fun j hj => ?_⟩
  · rw [Registers.write_of_ne _ h₁.symm, h.pc]
  · rw [Registers.write_of_ne _ h₂.symm, h.nextPC]
  · rw [Registers.write_of_ne _ (show (2 : Fin 40) ≠ i from hne 2), h.value]
  · rw [Registers.write_of_ne _ (hne j), h.others j hj]

theorem Carries.setPC (h : Carries d pc nextPC v r) (u : BitVec 32) : Carries d u nextPC v (r.write pcReg u) := by
  refine ⟨Registers.write_self _ _ _, ?_, ?_, h.settled.write u (by decide) (by decide) (by decide), fun j hj => ?_⟩
  · rw [Registers.write_of_ne _ (by decide), h.nextPC]
  · rw [Registers.write_of_ne _ (by decide), h.value]
  · rw [Registers.write_of_ne _ (gp_ne j (by decide)), h.others j hj]

theorem Carries.setNextPC (h : Carries d pc nextPC v r) (u : BitVec 32) :
    Carries d pc u v (r.write nextPCReg u) := by
  refine ⟨?_, Registers.write_self _ _ _, ?_, h.settled.write u (by decide) (by decide) (by decide), fun j hj => ?_⟩
  · rw [Registers.write_of_ne _ (by decide), h.pc]
  · rw [Registers.write_of_ne _ (by decide), h.value]
  · rw [Registers.write_of_ne _ (gp_ne j (by decide)), h.others j hj]

theorem Carries.setValue (h : Carries d pc nextPC v r) (u : BitVec 32) : Carries d pc nextPC u (r.write 2 u) := by
  refine ⟨?_, ?_, Registers.write_self _ _ _, h.settled.write u (by decide) (by decide) (by decide), fun j hj => ?_⟩
  · rw [Registers.write_of_ne _ (by decide), h.pc]
  · rw [Registers.write_of_ne _ (by decide), h.nextPC]
  · rw [Registers.write_of_ne _ (gp_two_ne hj), h.others j hj]

theorem Carries.advance (h : Carries d pc nextPC v r) (pcAfter : BitVec 32) :
    Carries d nextPC pcAfter v (r.advance pcAfter) := by
  have hprev := h.write (i := prevPCReg) (by decide) (by decide) (by decide) (by decide) (by decide) (r pcReg)
  rw [← h.nextPC]
  exact (hprev.setPC (r nextPCReg)).setNextPC pcAfter

/-- `update()` of the handler. -/
theorem Carries.update (h : Carries d pc nextPC v r) : Carries d (pc + 4) (nextPC + 4) v r.update := by
  have hpc := h.setPC (pc + 4)
  have hnext := hpc.setNextPC (nextPC + 4)
  have hprev := hnext.write (i := prevPCReg) (by decide) (by decide) (by decide) (by decide) (by decide)
    ((r.write pcReg (pc + 4)).write nextPCReg (nextPC + 4) prevPCReg + 4)
  unfold Registers.update
  dsimp only
  rw [h.pc, hpc.nextPC]
  exact hprev

theorem Enters.interrupt (h : Enters d a r) : Enters d a d := by
  have hsettled : Settled d := .of_delayedLoad h.done
  refine ⟨?_, ?_, hsettled.zero, ?_, ?_, hsettled.delayedLoad⟩
  · rw [h.loads.delayedLoad h.done (by decide) (by decide) (by decide), h.pc]
  · rw [h.loads.delayedLoad h.done (by decide) (by decide) (by decide), h.nextPC]
  · rw [LoadsGeneral, hsettled.load]
    decide
  · rw [hsettled.load]
    decide

/-- The first instruction of the stub, up to the program counters. -/
theorem Enters.carries (h : Enters d a r) {u : BitVec 32} {r' : Registers}
    (hr : (r.write 2 u).delayedLoad 0 0 = .ok r') : Carries d a (a + 4) u r' := by
  have hload : (r.write 2 u) loadReg = r loadReg := Registers.write_of_ne _ (by decide) u
  have hne : 2 ≠ (r loadReg).toNat := fun heq => h.load (BitVec.eq_of_toNat_eq heq.symm)
  have hgeneral : LoadsGeneral (r.write 2 u) := h.loads.write u (by decide)
  refine ⟨?_, ?_, ?_, .of_delayedLoad hr, fun i hi => ?_⟩
  · rw [hgeneral.delayedLoad hr (by decide) (by decide) (by decide), Registers.write_of_ne _ (by decide), h.pc]
  · rw [hgeneral.delayedLoad hr (by decide) (by decide) (by decide), Registers.write_of_ne _ (by decide), h.nextPC]
  · rw [delayedLoad_apply hr, if_neg (by decide), if_neg (by decide), if_neg (by decide), hload]
    exact (if_neg hne).trans (Registers.write_self _ _ _)
  · rw [delayedLoad_apply hr, delayedLoad_apply h.done, hload, Registers.write_of_ne _ (gp_two_ne hi),
      Registers.write_of_ne (i := 2) (j := loadValueReg) _ (by decide)]

/-! ## What happens in a stub -/

theorem decode_load (code : Fin 12) :
    decode (0x24020000 ||| BitVec.ofNat 32 code) = ⟨.addiu, 0, 2, 0, BitVec.ofNat 32 code⟩ := by
  fin_cases code <;> rfl

theorem fetch_stub (hstub : m.HasStub code a) (i : Fin 4) (hpc : r pcReg = a + 4 * BitVec.ofNat 32 i)
    (hw : (stub code)[i.val]? = some raw) :
    ({ m with registers := r } : Machine).fetch (r pcReg) = some raw := by
  rw [fetch_setRegisters, hpc, hstub i, hw]

theorem flat_setRegisters (hflat : m.flat = m) (r : Registers) :
    ({ m with registers := r } : Machine).flat = { m with registers := r } := by
  show { m.flat with registers := r } = _
  rw [hflat]

/-- Outside the kernel only two things happen, where there is no trap. -/
theorem step_outside (h : UserMachine.step ev ⟨m, none⟩ = some P')
    (htrap : UserMachine.step .trap ⟨m, none⟩ = none) : ev = .instruction ∨ ev = .interrupt := by
  cases ev with
  | instruction => exact .inl rfl
  | interrupt => exact .inr rfl
  | trap =>
    rw [htrap] at h
    cases h
  | ignore | proceed | reply value | replace memory table numPages => cases h

/-- With no load pending, an interrupt does nothing. -/
theorem step_interrupt {call : Option Nat} (hs : Settled m.registers)
    (h : UserMachine.step .interrupt ⟨m, call⟩ = some P') : P' = ⟨m, call⟩ := by
  simp only [UserMachine.step, hs.delayedLoad, Option.some.injEq] at h
  exact h.symm

theorem step_kernel (hr : Carries d (a + 4) (a + 8) (BitVec.ofNat 32 code) r)
    (h : UserMachine.step ev ⟨{ m with registers := r }, some code⟩ = some P') :
    InStub m d a code (es ++ [ev]) P' ∨
      (code.val = 2 ∧ ∃ memory table numPages, ev = .replace memory table numPages) := by
  have hback : ∀ {u r}, Carries d (a + 4) (a + 8) u r → Carries d (a + 8) (a + 12) u r.update := by
    intro u r hu
    have hc := hu.update
    rw [BitVec.add_assoc, BitVec.add_assoc] at hc
    exact hc
  cases ev with
  | instruction | trap => cases h
  | interrupt =>
    rw [step_interrupt hr.settled h]
    exact .inl (.kernel r hr)
  | ignore =>
    simp only [UserMachine.step] at h
    split at h
    next =>
      rw [← Option.some.inj h]
      exact .inl (.trap r hr)
    next => cases h
  | proceed =>
    simp only [UserMachine.step] at h
    split at h
    next hcode =>
      rw [hcode] at hr
      rw [← Option.some.inj h]
      exact .inl (.jump _ 10 (hback hr) (.inr ⟨hcode, rfl, List.mem_append_right _ List.mem_cons_self⟩))
    next => cases h
  | reply value =>
    simp only [UserMachine.step] at h
    split at h
    next hcode =>
      rw [← Option.some.inj h]
      exact .inl (.jump _ value (hback (hr.setValue value)) (.inl ⟨hcode, List.mem_append_right _ List.mem_cons_self⟩))
    next => cases h
  | replace memory table numPages =>
    simp only [UserMachine.step] at h
    split at h
    next hcode => exact .inr ⟨hcode, memory, table, numPages, rfl⟩
    next => cases h

section

variable (hflat : m.flat = m) (hstub : m.HasStub code a)
include hflat hstub

theorem step_load (hr : Enters d a r) (h : UserMachine.step ev ⟨{ m with registers := r }, none⟩ = some P') :
    InStub m d a code (es ++ [ev]) P' := by
  have hfetch : ({ m with registers := r } : Machine).fetch (r pcReg) = _ :=
    fetch_stub hstub 0 (by rw [hr.pc]; simp) rfl
  have hexec : ∀ m₁ : Machine, m₁.registers = r → m₁.execute (decode (0x24020000 ||| BitVec.ofNat 32 code)) =
      .ok ⟨{ m₁ with registers := r.write 2 (BitVec.ofNat 32 code) }, r nextPCReg + 4, 0, 0⟩ := by
    rintro m₁ rfl
    rw [decode_load]
    have hzero : m₁.registers (gp 0) + BitVec.ofNat 32 code = BitVec.ofNat 32 code := by
      rw [show m₁.registers (gp 0) = 0 from hr.zero]
      exact BitVec.zero_add _
    show Except.ok _ = _
    rw [hzero]
    rfl
  rcases step_outside h (step_trap hfetch hexec) with rfl | rfl
  · obtain ⟨r', hr', rfl⟩ := step_instruction hfetch hexec (flat_setRegisters hflat r) h
    have hnext : r nextPCReg + 4 = a + 8 := by
      rw [hr.nextPC, BitVec.add_assoc]
      rfl
    rw [hnext]
    exact .trap _ ((hr.carries hr').advance (a + 8))
  · simp only [UserMachine.step, hr.done, Option.some.injEq] at h
    exact h ▸ .load d hr.interrupt

theorem step_enter (hr : Carries d (a + 4) (a + 8) (BitVec.ofNat 32 code) r)
    (h : UserMachine.step ev ⟨{ m with registers := r }, none⟩ = some P') : InStub m d a code (es ++ [ev]) P' := by
  have hfetch : ({ m with registers := r } : Machine).fetch (r pcReg) = _ :=
    fetch_stub hstub 1 (by rw [hr.pc]; rfl) rfl
  obtain ⟨m₁, hregs, hm₁, hone⟩ := oneInstruction_of_fetch hfetch
  have hone : ({ m with registers := r } : Machine).oneInstruction = .error (.exception .syscall 0 m₁) := hone
  cases ev with
  | instruction =>
    simp only [UserMachine.step, hone] at h
    cases h
  | interrupt =>
    rw [step_interrupt hr.settled h]
    exact .trap r hr
  | trap =>
    have hbad := hr.write (i := badVAddrReg) (by decide) (by decide) (by decide) (by decide) (by decide) 0
    simp only [UserMachine.step, hone, hregs, hbad.settled.delayedLoad, hm₁, flat_setRegisters hflat] at h
    rw [hbad.value] at h
    have hcode : (BitVec.ofNat 32 code.val).toNat = code.val := by
      rw [BitVec.toNat_ofNat, Nat.mod_eq_of_lt (by omega)]
    rw [hcode] at h
    rw [← Option.some.inj h]
    exact .kernel _ hbad
  | ignore | proceed | reply value | replace memory table numPages => cases h

theorem step_jump (hr : Carries d (a + 8) (a + 12) v r) (ha : Answered code v es)
    (h : UserMachine.step ev ⟨{ m with registers := r }, none⟩ = some P') : InStub m d a code (es ++ [ev]) P' := by
  have hfetch : ({ m with registers := r } : Machine).fetch (r pcReg) = _ :=
    fetch_stub hstub 2 (by rw [hr.pc]; rfl) rfl
  have hexec : ∀ m₁ : Machine, m₁.registers = r → m₁.execute (decode 0x03e00008) =
      .ok ⟨{ m₁ with registers := r }, r 31, 0, 0⟩ := by
    rintro m₁ rfl
    rfl
  rcases step_outside h (step_trap hfetch hexec) with rfl | rfl
  · obtain ⟨r', hr', rfl⟩ := step_instruction hfetch hexec (flat_setRegisters hflat r) h
    rw [hr.settled.delayedLoad, Except.ok.injEq] at hr'
    subst hr'
    have hra : r 31 = d 31 := hr.others 31 (by decide)
    rw [hra]
    exact .slot _ v (hr.advance (d 31)) (ha.append _)
  · rw [step_interrupt hr.settled h]
    exact .jump r v hr (ha.append _)

theorem step_slot (hr : Carries d (a + 12) (d 31) v r) (ha : Answered code v es)
    (h : UserMachine.step ev ⟨{ m with registers := r }, none⟩ = some P') :
    InStub m d a code (es ++ [ev]) P' ∨ Returned m d v P' := by
  have hfetch : ({ m with registers := r } : Machine).fetch (r pcReg) = _ :=
    fetch_stub hstub 3 (by rw [hr.pc]; rfl) rfl
  have hexec : ∀ m₁ : Machine, m₁.registers = r → m₁.execute (decode 0) =
      .ok ⟨{ m₁ with registers := r.write 0 0 }, r nextPCReg + 4, 0, 0⟩ := by
    rintro m₁ rfl
    have hzero : m₁.registers (gp 0) <<< (0 : BitVec 32) = 0 := by
      rw [show m₁.registers (gp 0) = 0 from hr.settled.zero]
      rfl
    show Except.ok (Executed.mk { m₁ with
      registers := m₁.registers.write (gp 0) (m₁.registers (gp 0) <<< (0 : BitVec 32)) } _ 0 0) = _
    rw [hzero]
    rfl
  rcases step_outside h (step_trap hfetch hexec) with rfl | rfl
  · obtain ⟨r', hr', rfl⟩ := step_instruction hfetch hexec (flat_setRegisters hflat r) h
    rw [Registers.write_eq_self hr.settled.zero, hr.settled.delayedLoad, Except.ok.injEq] at hr'
    subst hr'
    rw [hr.nextPC]
    exact .inr ⟨_, hr.advance (d 31 + 4), rfl⟩
  · rw [step_interrupt hr.settled h]
    exact .inl (.slot r v hr (ha.append _))

/-- What can happen to a process in a stub: it stays in it, or is back; or `Exec` puts another
program in its place. -/
theorem InStub.step (hP : InStub m d a code es P) (h : UserMachine.step ev P = some P') :
    InStub m d a code (es ++ [ev]) P' ∨ (∃ v, Answered code v (es ++ [ev]) ∧ Returned m d v P') ∨
      (code.val = 2 ∧ ∃ memory table numPages, ev = .replace memory table numPages) := by
  cases hP with
  | load r hr => exact .inl (step_load hflat hstub hr h)
  | trap r hr => exact .inl (step_enter hflat hstub hr h)
  | kernel r hr => exact (step_kernel hr h).imp_right .inr
  | jump r v hr ha => exact .inl (step_jump hflat hstub hr ha h)
  | slot r v hr ha =>
    exact (step_slot hflat hstub hr ha h).imp_right fun hback => .inl ⟨v, ha.append _, hback⟩

end

/-- The machine of a process that entered a stub: it is in it, or came back, or `Exec` put
another program in its place. -/
theorem stub_run (hflat : m.flat = m) (hstub : m.HasStub code a) (henter : Enters d a m.registers)
    (h : run UserMachine.step es ⟨m, none⟩ = some P') :
    InStub m d a code es P' ∨
    (∃ n v R, run UserMachine.step (es.take n) ⟨m, none⟩ = some R ∧ Answered code v (es.take n) ∧
      Returned m d v R) ∨
    (code.val = 2 ∧ ∃ memory table numPages, .replace memory table numPages ∈ es) := by
  induction es using List.reverseRecOn generalizing P' with
  | nil =>
    cases h
    exact .inl (.load _ henter)
  | append_singleton es ev ih =>
    obtain ⟨P, hP, hev⟩ := run_snoc_eq_some.mp h
    rcases ih hP with hin | ⟨n, v, R, hR, ha, hback⟩ | ⟨hcode, memory, table, numPages, hmem⟩
    · rcases hin.step hflat hstub hev with hin | ⟨v, ha, hback⟩ | ⟨hcode, memory, table, numPages, rfl⟩
      · exact .inl hin
      · have hall : (es ++ [ev]).take (es ++ [ev]).length = es ++ [ev] := List.take_length
        exact .inr (.inl ⟨(es ++ [ev]).length, v, P', by rw [hall]; exact h, by rw [hall]; exact ha, hback⟩)
      · exact .inr (.inr ⟨hcode, memory, table, numPages, List.mem_append_right _ List.mem_cons_self⟩)
    · -- it came back before
      have htake : (es ++ [ev]).take (min n es.length) = es.take n := by
        rw [List.take_append_of_le_length (Nat.min_le_right _ _)]
        exact (List.take_eq_take_min).symm
      exact .inr (.inl ⟨min n es.length, v, R, by rw [htake]; exact hR, by rw [htake]; exact ha, hback⟩)
    · exact .inr (.inr ⟨hcode, memory, table, numPages, List.mem_append_left _ hmem⟩)

namespace Kernel

variable {k k' : Kernel} {q : Nat}

/-- A process enters a stub. In every later state, as long as it is there, it is in the stub, or
its machine came back from it: to its caller, with what the kernel answered in register 2 and
everything else as it was; or `Exec` put another program in its place. -/
theorem stub_returns {b : Boot} {envs envs' : List Env} (hruns : runs b envs = some k)
    (h : runFrom k envs' = some k') (hspares : Throughout (SparesMachine q) k envs')
    (hP : k.userMachine q = some ⟨m, none⟩) (hstub : m.HasStub code a) (henter : Enters d a m.registers)
    (hq' : k'.pcbs q ≠ none) :
    ∃ P' es, k'.userMachine q = some P' ∧ run UserMachine.step es ⟨m, none⟩ = some P' ∧
      (InStub m d a code es P' ∨
        (∃ n v R, run UserMachine.step (es.take n) ⟨m, none⟩ = some R ∧ Answered code v (es.take n) ∧
          Returned m d v R) ∨
        (code.val = 2 ∧ ∃ memory table numPages, .replace memory table numPages ∈ es)) := by
  obtain ⟨Q, s, S, r, p, hQ, -, hS, -, heq⟩ := userMachine_cases hP
  have hflat : m.flat = m := by
    rw [show m = _ from congrArg UserMachine.machine heq]
    exact (flatOf_flat _).flat_eq (fits (.run hruns) hS r k.mainMemory)
  obtain ⟨P, P', es, hP₀, hP', -, hes⟩ := runs_userMachine hruns h hspares (by rw [hQ]; exact Option.some_ne_none Q) hq'
  obtain rfl := Option.some.inj (hP.symm.trans hP₀)
  exact ⟨P', es, hP', hes, stub_run hflat hstub henter hes⟩

/-- A program that calls `Fork` at its start, through the stub at address 16; the child runs for a
while before the parent is back. -/
theorem stub_returns_fork :
    let code : List (BitVec 32) := [0x0c000004, 0x00000000, 0x08000002, 0x00000000] ++ stub 9
    let envs := [false, false, false, false, false, true, false, false, false, true, false, false, false,
      false].map (plainEnv code)
    ∃ k k' m d P' es, runs (plainBoot code) (List.replicate 4 (plainEnv code false)) = some k ∧
      k.userMachine 1 = some ⟨m, none⟩ ∧ m.registers 31 = 8 ∧ runFrom k envs = some k' ∧
      k'.userMachine 1 = some P' ∧ run UserMachine.step es ⟨m, none⟩ = some P' ∧
      (InStub m d 16 9 es P' ∨
        (∃ n v R, run UserMachine.step (es.take n) ⟨m, none⟩ = some R ∧ Answered 9 v (es.take n) ∧
          Returned m d v R) ∨
        ((9 : Fin 12).val = 2 ∧ ∃ memory table numPages, .replace memory table numPages ∈ es)) := by
  intro code envs
  have heval : (runs (plainBoot code) (List.replicate 4 (plainEnv code false))).any (fun k =>
      Along (fun env k => (Kernel.step env k).toOption) (fun env k =>
        (k.control.point.saved = true → env.timer = false) ∧
          k.syscallEntry.all fun e => (e.registers 2).toNat ≠ 2) envs k ∧
      (runFrom k envs).any (fun k' => (k'.pcbs 1).isSome) ∧
      (k.userMachine 1).any fun P => P.call = none ∧ P.machine.HasStub 9 16 ∧ P.machine.registers 31 = 8 ∧
        P.machine.registers pcReg = 16 ∧ P.machine.registers nextPCReg = 20 ∧ P.machine.registers 0 = 0 ∧
        P.machine.registers loadReg = 0 ∧
        (P.machine.registers.delayedLoad 0 0).toOption.isSome) = true := by
    decide +kernel
  obtain ⟨k, hk, heval⟩ := (Option.any_eq_true _ _).mp heval
  obtain ⟨hcalm, hq', heval⟩ := of_decide_eq_true heval
  obtain ⟨k', hk', hq'⟩ := (Option.any_eq_true _ _).mp hq'
  obtain ⟨⟨m, call⟩, hP, heval⟩ := (Option.any_eq_true _ _).mp heval
  obtain ⟨rfl, hstub, hra, hpc, hnext, hzero, hload, hdone⟩ := of_decide_eq_true heval
  obtain ⟨d, hd⟩ := Option.isSome_iff_exists.mp hdone
  have hspares : Throughout (SparesMachine 1) k envs := hcalm.mono fun env k h => .of_calm h.1 h.2
  have hload' : m.registers loadReg = 0 := hload
  have henter : Enters d 16 m.registers :=
    ⟨hpc, hnext, hzero, by rw [LoadsGeneral, hload']; decide, by rw [hload']; decide, toOption_eq_some.mp hd⟩
  obtain ⟨P', es, hstubs⟩ := stub_returns hk hk' hspares hP hstub henter (Option.isSome_iff_ne_none.mp hq')
  exact ⟨k, k', m, d, P', es, hk, hP, hra, hk', hstubs⟩

end Kernel

end Nachos
