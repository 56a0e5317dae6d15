import Nachos.Framework.Run
import Nachos.Machine.Exceptions

/-!
# The register file (machine/mipssim.cc)

The interpreter as in `MipsSim.lean`, before it is known that an index of `registers` is one:
the fields of an instruction are words, and each use of `registers` looks whether its index is
below `NumTotalRegs`.

* `decoded`: what `Decode` makes of a word;
* `execute_eq`, `oneInstruction_eq_mapError`, `handled_eq_mapError`: no index is outside, so that
  the interpreter is that of `MipsSim.lean`;
* `registers_safe`: over every sequence of instructions.
-/

namespace Nachos.RegisterFile

open Nachos.Framework

/-- What can end an instruction: a fault as before, an index of `registers` that is outside, or
`default:` in the `switch`. -/
inductive Ends
  | fault (f : Fault)
  | outside (num : BitVec 32)
  | default

/-- `registers[num]`. -/
def get (r : Registers) (num : BitVec 32) : Except Ends (BitVec 32) :=
  if h : num.toNat < 40 then .ok (r ⟨num.toNat, h⟩) else .error (.outside num)

/-- `registers[num] = value`. -/
def put (r : Registers) (num value : BitVec 32) : Except Ends Registers :=
  if h : num.toNat < 40 then .ok (r.write ⟨num.toNat, h⟩ value) else .error (.outside num)

/-- `Instruction`, with the types of the source. -/
structure Fields where
  opCode : OpCode
  rs : BitVec 32
  rt : BitVec 32
  rd : BitVec 32
  extra : BitVec 32

/-- `Instruction::Decode`. -/
def fields (value : BitVec 32) : Fields where
  opCode := (decode value).opCode
  rs := (value >>> 21) &&& 0x1f
  rt := (value >>> 16) &&& 0x1f
  rd := (value >>> 11) &&& 0x1f
  extra := (decode value).extra

/-- The format of `Decode`. -/
def format (value : BitVec 32) : Format :=
  (opTable.getD ((value >>> 26) &&& 0x3f).toNat (.res, .i)).2

/-- The `switch` of `Machine::OneInstruction`. -/
def execute (m : Machine) (instr : Fields) : Except Ends Executed :=
  let r := m.registers
  let extra := instr.extra
  let nextPC := r nextPCReg
  let pcAfter := nextPC + 4
  let branch := nextPC + indexToAddr extra
  let jump (r : Registers) (pcAfter : BitVec 32) : Except Ends Executed :=
    .ok ⟨{ m with registers := r }, pcAfter, 0, 0⟩
  let set (num value : BitVec 32) : Except Ends Executed := do jump (← put r num value) pcAfter
  let load (m : Machine) (value : BitVec 32) : Except Ends Executed :=
    .ok ⟨m, pcAfter, instr.rt, value⟩
  let store (m : Machine) : Except Ends Executed := .ok ⟨m, pcAfter, 0, 0⟩
  let link := r.write retAddrReg (nextPC + 4)
  let raise (which : ExceptionType) (badVAddr : BitVec 32) : Except Ends Executed :=
    .error (.fault (.exception which badVAddr m))
  -- `registers[rd] = f(registers[rs], registers[rt])`, and with an immediate
  let three (f : BitVec 32 → BitVec 32 → BitVec 32) : Except Ends Executed := do
    let rs ← get r instr.rs
    let rt ← get r instr.rt
    set instr.rd (f rs rt)
  let two (f : BitVec 32 → BitVec 32) : Except Ends Executed := do
    let rs ← get r instr.rs
    set instr.rt (f rs)
  let shift (f : BitVec 32 → BitVec 32) : Except Ends Executed := do
    let rt ← get r instr.rt
    set instr.rd (f rt)
  let branchIf (r : Registers) (c : BitVec 32 → Bool) : Except Ends Executed := do
    let rs ← get r instr.rs
    jump r (if c rs then branch else pcAfter)
  let readMem (m : Machine) (addr : BitVec 32) (size : Nat) := (m.readMem addr size).mapError .fault
  let writeMem (m : Machine) (addr : BitVec 32) (size : Nat) (value : BitVec 32) :=
    (m.writeMem addr size value).mapError .fault
  let multiply (signedArith : Bool) : Except Ends Executed := do
    let rs ← get r instr.rs
    let rt ← get r instr.rt
    jump ((r.write hiReg (mult rs rt signedArith).1).write loReg (mult rs rt signedArith).2) pcAfter
  let save (size : Nat) : Except Ends Executed := do
    let rs ← get r instr.rs
    let rt ← get r instr.rt
    store (← writeMem m (rs + extra) size rt)
  match instr.opCode with
  | .add => do
    let rs ← get r instr.rs
    let rt ← get r instr.rt
    let sum := rs + rt
    if (rs ^^^ rt) &&& signBit = 0 ∧ (rs ^^^ sum) &&& signBit ≠ 0 then raise .overflow 0
    else set instr.rd sum
  | .addi => do
    let rs ← get r instr.rs
    let sum := rs + extra
    if (rs ^^^ extra) &&& signBit = 0 ∧ (extra ^^^ sum) &&& signBit ≠ 0 then raise .overflow 0
    else set instr.rt sum
  | .addiu => two fun rs => rs + extra
  | .addu => three fun rs rt => rs + rt
  | .and => three fun rs rt => rs &&& rt
  | .andi => two fun rs => rs &&& (extra &&& 0xffff)
  | .beq => do
    let rs ← get r instr.rs
    let rt ← get r instr.rt
    jump r (if rs = rt then branch else pcAfter)
  | .bgezal => branchIf link fun rs => rs &&& signBit = 0
  | .bgez => branchIf r fun rs => rs &&& signBit = 0
  | .bgtz => branchIf r fun rs => 0 < rs
  | .blez => branchIf r fun rs => rs ≤ 0
  | .bltzal => branchIf link fun rs => rs &&& signBit ≠ 0
  | .bltz => branchIf r fun rs => rs &&& signBit ≠ 0
  | .bne => do
    let rs ← get r instr.rs
    let rt ← get r instr.rt
    jump r (if rs ≠ rt then branch else pcAfter)
  | .div | .divu => do
    let rt ← get r instr.rt
    if rt = 0 then jump ((r.write loReg 0).write hiReg 0) pcAfter
    else do
      let rs ← get r instr.rs
      jump ((r.write loReg (rs / rt)).write hiReg (rs % rt)) pcAfter
  | .jal => jump link ((pcAfter &&& 0xf0000000) ||| indexToAddr extra)
  | .j => jump r ((pcAfter &&& 0xf0000000) ||| indexToAddr extra)
  | .jalr => do
    let r ← put r instr.rd (nextPC + 4)
    jump r (← get r instr.rs)
  | .jr => do jump r (← get r instr.rs)
  | .lb | .lbu => do
    let rs ← get r instr.rs
    let (value, m) ← readMem m (rs + extra) 1
    if value &&& 0x80 ≠ 0 ∧ instr.opCode = .lb then load m (value ||| 0xffffff00)
    else load m (value &&& 0xff)
  | .lh | .lhu => do
    let rs ← get r instr.rs
    let tmp := rs + extra
    if tmp &&& 0x1 ≠ 0 then raise .addressError tmp
    else do
      let (value, m) ← readMem m tmp 2
      if value &&& 0x8000 ≠ 0 ∧ instr.opCode = .lh then load m (value ||| 0xffff0000)
      else load m (value &&& 0xffff)
  | .lui => set instr.rt (extra <<< 16)
  | .lw => do
    let rs ← get r instr.rs
    let tmp := rs + extra
    if tmp &&& 0x3 ≠ 0 then raise .addressError tmp
    else do
      let (value, m) ← readMem m tmp 4
      load m value
  | .lwl => do
    let rs ← get r instr.rs
    let tmp := rs + extra
    if tmp &&& 0x3 ≠ 0 then .error (.fault (.stop .assertion))
    else do
      let (value, m) ← readMem m tmp 4
      if r loadReg = instr.rt then load m value
      else do
        let _ ← get r instr.rt
        load m value
  | .lwr => do
    let rs ← get r instr.rs
    let tmp := rs + extra
    if tmp &&& 0x3 ≠ 0 then .error (.fault (.stop .assertion))
    else do
      let (value, m) ← readMem m tmp 4
      let pending ← if r loadReg = instr.rt then .ok (r loadValueReg) else get r instr.rt
      load m ((pending &&& 0xffffff00) ||| ((value >>> 24) &&& 0xff))
  | .mfhi => set instr.rd (r hiReg)
  | .mflo => set instr.rd (r loReg)
  | .mthi => do jump (r.write hiReg (← get r instr.rs)) pcAfter
  | .mtlo => do jump (r.write loReg (← get r instr.rs)) pcAfter
  | .mult => multiply true
  | .multu => multiply false
  | .nor => three fun rs rt => ~~~(rs ||| rt)
  | .or => do
    let rs ← get r instr.rs
    set instr.rd (rs ||| rs)
  | .ori => two fun rs => rs ||| (extra &&& 0xffff)
  | .sb => save 1
  | .sh => save 2
  | .sll => shift fun rt => rt <<< extra
  | .sllv => three fun rs rt => rt <<< (rs &&& 0x1f)
  | .slt | .sltu => three fun rs rt => if rs < rt then 1 else 0
  | .slti | .sltiu => two fun rs => if rs < extra then 1 else 0
  | .sra => shift fun rt => rt >>> extra
  | .srav => three fun rs rt => rt >>> (rs &&& 0x1f)
  | .srl => shift fun rt => rt.sshiftRight extra.toNat
  | .srlv => three fun rs rt => rt.sshiftRight (rs &&& 0x1f).toNat
  | .sub => do
    let rs ← get r instr.rs
    let rt ← get r instr.rt
    let diff := rs - rt
    if (rs ^^^ rt) &&& signBit ≠ 0 ∧ (rs ^^^ diff) &&& signBit ≠ 0 then raise .overflow 0
    else set instr.rd diff
  | .subu => three fun rs rt => rs - rt
  | .sw => save 4
  | .swl => do
    let rs ← get r instr.rs
    let tmp := rs + extra
    if tmp &&& 0x3 ≠ 0 then .error (.fault (.stop .assertion))
    else do
      let (_, m) ← readMem m (tmp &&& ~~~0x3) 4
      let rt ← get r instr.rt
      store (← writeMem m (tmp &&& ~~~0x3) 4 rt)
  | .swr => do
    let rs ← get r instr.rs
    let tmp := rs + extra
    if tmp &&& 0x3 ≠ 0 then .error (.fault (.stop .assertion))
    else do
      let (value, m) ← readMem m (tmp &&& ~~~0x3) 4
      let rt ← get r instr.rt
      store (← writeMem m (tmp &&& ~~~0x3) 4 ((value &&& 0xffffff) ||| (rt <<< 24)))
  | .syscall => raise .syscall 0
  | .xor => three fun rs rt => rs ^^^ rt
  | .xori => two fun rs => rs ^^^ (extra &&& 0xffff)
  | .res | .unimp => raise .illegalInstr 0
  | .special | .bcond => .error .default

/-- `Machine::DelayedLoad`. -/
def delayedLoad (r : Registers) (nextReg nextValue : BitVec 32) : Except Ends Registers := do
  let r ← put r (r loadReg) (r loadValueReg)
  .ok (((r.write loadReg nextReg).write loadValueReg nextValue).write 0 0)

/-- `Machine::OneInstruction`, until it returns or calls `RaiseException`. -/
def oneInstruction (m : Machine) : Except Ends Machine := do
  let (raw, m) ← (m.readMem (m.registers pcReg) 4).mapError .fault
  let e ← execute m (fields raw)
  let r ← delayedLoad e.machine.registers e.nextLoadReg e.nextLoadValue
  let r := r.write prevPCReg (r pcReg)
  let r := r.write pcReg (r nextPCReg)
  .ok { e.machine with registers := r.write nextPCReg e.pcAfter }

/-- `Machine::RaiseException`, up to the call of `ExceptionHandler`. -/
def raiseException (m : Machine) (badVAddr : BitVec 32) : Except Ends Machine := do
  let r ← delayedLoad (m.registers.write badVAddrReg badVAddr) 0 0
  .ok { m with registers := r }

/-- `Machine::OneInstruction`, with the exception that it may raise. -/
def handled (handler : ExceptionType → Machine → Except Stop Machine) (m : Machine) :
    Except Ends Machine :=
  match oneInstruction m with
  | .ok m' => .ok m'
  | .error (.fault (.exception which badVAddr m')) => do
    let m' ← raiseException m' badVAddr
    (handler which m').mapError fun s => .fault (.stop s)
  | .error e => .error e

/-! ## Decoding -/

/-- The fields that name these registers. -/
def words (instr : Instruction) : Fields where
  opCode := instr.opCode
  rs := BitVec.ofNat 32 instr.rs
  rt := BitVec.ofNat 32 instr.rt
  rd := BitVec.ofNat 32 instr.rd
  extra := instr.extra

theorem ofNat_regField (value : BitVec 32) (shift : Nat) :
    BitVec.ofNat 32 (regField value shift) = (value >>> shift) &&& 0x1f := by
  show BitVec.ofNat 32 ((value >>> shift) &&& 0x1f).toNat = _
  rw [BitVec.ofNat_toNat, BitVec.setWidth_eq]

theorem fields_eq (value : BitVec 32) : fields value = words (decode value) := by
  unfold fields words
  congr 1
  · exact (ofNat_regField value 21).symm
  · exact (ofNat_regField value 16).symm
  · exact (ofNat_regField value 11).symm

/-- What `Decode` makes of a word. -/
structure Decoded (value : BitVec 32) : Prop where
  opIndex : ((value >>> 26) &&& 0x3f).toNat < opTable.length
  specialIndex : (value &&& 0x3f).toNat < specialTable.length
  rs : (fields value).rs.toNat < 32
  rt : (fields value).rt.toNat < 32
  rd : (fields value).rd.toNat < 32
  shamt : format value = .r → (fields value).extra.toNat < 32
  /-- There is a case for the operation before `default:`. -/
  opCode : (fields value).opCode ≠ .special ∧ (fields value).opCode ≠ .bcond

theorem toNat_word (i : Fin 32) : (BitVec.ofNat 32 i).toNat = i.val := by
  have := i.isLt
  rw [BitVec.toNat_ofNat, Nat.mod_eq_of_lt (by omega)]

theorem toNat_and_six (v : BitVec 32) : (v &&& 0x3f).toNat < 64 := by
  rw [BitVec.toNat_and]
  exact Nat.lt_of_le_of_lt Nat.and_le_right (by decide)

theorem decoded (value : BitVec 32) : Decoded value where
  opIndex := toNat_and_six _
  specialIndex := toNat_and_six _
  rs := (regField value 21).isLt
  rt := (regField value 16).isLt
  rd := (regField value 11).isLt
  shamt := by
    intro hformat
    have hmem : opTable.getD ((value >>> 26) &&& 0x3f).toNat (.res, .i) ∈ opTable :=
      getD_mem (by decide)
    have hextra : (fields value).extra = (value >>> 6) &&& 0x1f := by
      show (decode value).extra = _
      unfold decode
      unfold format at hformat
      generalize opTable.getD ((value >>> 26) &&& 0x3f).toNat (.res, .i) = p at hformat
      obtain ⟨op, f⟩ := p
      obtain rfl := hformat
      rfl
    rw [hextra, toNat_and_thirty_one]
    exact Nat.mod_lt _ (by decide)
  opCode := by
    show (decode value).opCode ≠ .special ∧ (decode value).opCode ≠ .bcond
    rcases decode_cases value with ⟨hop, -⟩ | hop | ⟨-, hs, hb, -⟩
    · exact (specialTable_special _ hop).2
    · rcases hop with hop | hop <;> rw [hop] <;> decide
    · exact ⟨hs, hb⟩

/-! ## Execution -/

theorem get_word (r : Registers) (i : Fin 32) : get r (BitVec.ofNat 32 i) = .ok (r (gp i)) := by
  have hlt := i.isLt
  have hnat := toNat_word i
  rw [get, dif_pos (by omega)]
  congr 2
  exact Fin.ext hnat

theorem put_word (r : Registers) (i : Fin 32) (value : BitVec 32) :
    put r (BitVec.ofNat 32 i) value = .ok (r.write (gp i) value) := by
  have hlt := i.isLt
  have hnat := toNat_word i
  rw [put, dif_pos (by omega)]
  congr 2
  exact Fin.ext hnat

theorem mapError_bind {ε ε' α β : Type} (g : ε → ε') (x : Except ε α) (f : α → Except ε β) :
    (x >>= f).mapError g = x.mapError g >>= fun a => (f a).mapError g := by
  cases x <;> rfl

theorem mapError_ite {ε ε' α : Type} (g : ε → ε') (c : Prop) [Decidable c] (x y : Except ε α) :
    (if c then x else y).mapError g = if c then x.mapError g else y.mapError g := by
  split <;> rfl

/-- No index is outside, and of the operations only those that `Decode` replaces come to
`default:`. -/
theorem execute_eq (m : Machine) (instr : Instruction) (hs : instr.opCode ≠ .special)
    (hb : instr.opCode ≠ .bcond) : execute m (words instr) = (m.execute instr).mapError .fault := by
  obtain ⟨op, rs, rt, rd, extra⟩ := instr
  simp only [execute, Machine.execute, words, get_word, put_word, ok_bind, decide_eq_true_eq,
    ite_self]
  cases op with
  | special => exact absurd rfl hs
  | bcond => exact absurd rfl hb
  | lwr =>
    by_cases hload : m.registers loadReg = BitVec.ofNat 32 rt
    · simp only [mapError_bind, mapError_ite, if_pos hload]
      rfl
    · simp only [mapError_bind, mapError_ite, if_neg hload]
      rfl
  | _ => first
    | rfl
    | (simp only [mapError_bind, mapError_ite]; rfl)

theorem delayedLoad_eq {r : Registers} (hr : LoadsGeneral r) (nextReg nextValue : BitVec 32) :
    delayedLoad r nextReg nextValue =
      (r.delayedLoad nextReg nextValue).mapError fun s => .fault (.stop s) := by
  have hlt : (r loadReg).toNat < 40 := Nat.lt_of_lt_of_le hr (by decide)
  rw [delayedLoad, put, dif_pos hlt, Registers.delayedLoad, dif_pos hlt]
  rfl

/-- The load that is pending is still the one of the instruction before. -/
theorem execute_loadsGeneral {m : Machine} {instr : Instruction} {e : Executed}
    (hm : LoadsGeneral m.registers) (h : m.execute instr = .ok e) :
    LoadsGeneral e.machine.registers := by
  have hkept := (m.execute_leaves instr e h).registers loadReg (by decide) (by decide)
    fun d _ => (gp_ne d (by decide)).symm
  rw [LoadsGeneral, hkept]
  exact hm

theorem oneInstruction_eq_mapError {m : Machine} (hm : LoadsGeneral m.registers) :
    oneInstruction m = m.oneInstruction.mapError .fault := by
  rw [Machine.oneInstruction_eq, mapError_bind]
  unfold oneInstruction
  cases hfetch : m.readMem (m.registers pcReg) 4 with
  | error f => rfl
  | ok p =>
    have hop := (decoded p.1).opCode
    have hregisters : p.2.registers = m.registers := (readMem_unchanged hfetch).2
    show (execute p.2 (fields p.1) >>= _) = Except.mapError .fault (p.2.execute (decode p.1) >>= _)
    rw [mapError_bind, fields_eq, execute_eq p.2 (decode p.1) hop.1 hop.2]
    cases he : p.2.execute (decode p.1) with
    | error f => rfl
    | ok e =>
      have hload := execute_loadsGeneral (hregisters ▸ hm) he
      show (delayedLoad e.machine.registers e.nextLoadReg e.nextLoadValue >>= _) =
        Except.mapError .fault e.finish
      rw [delayedLoad_eq hload]
      unfold Executed.finish
      cases e.machine.registers.delayedLoad e.nextLoadReg e.nextLoadValue <;> rfl

theorem raiseException_eq {m : Machine} (hm : LoadsGeneral m.registers) (badVAddr : BitVec 32) :
    raiseException m badVAddr = (m.raiseException badVAddr).mapError fun s => .fault (.stop s) := by
  unfold raiseException Machine.raiseException
  rw [delayedLoad_eq (hm.write badVAddr (by decide)), mapError_bind]
  rfl

/-- With sound registers, no index is outside, and `default:` is not reached. -/
theorem handled_eq_mapError {m : Machine} (hm : m.registers.Sound)
    (handler : ExceptionType → Machine → Except Stop Machine) :
    handled handler m = (m.handled handler).mapError fun s => .fault (.stop s) := by
  unfold handled Machine.handled
  rw [oneInstruction_eq_mapError hm.load]
  cases hone : m.oneInstruction with
  | ok m' => rfl
  | error f =>
    cases f with
    | stop s => rfl
    | exception which badVAddr m' =>
      have hload : LoadsGeneral m'.registers := by
        rw [(m.oneInstruction_traps _ _ _ hone).2]
        exact hm.load
      show (raiseException m' badVAddr >>= _) = Except.mapError _ (m'.raiseException badVAddr >>= _)
      rw [raiseException_eq hload, mapError_bind]

/-! ## Runs -/

/-- What an instruction finds besides the registers, and what `ExceptionHandler` does: it leaves r0
and the pending load alone. -/
structure Around where
  mainMemory : Bytes
  pageTable : List TranslationEntry
  pageTableSize : Nat
  exceptionHandler : ExceptionType → Machine → Except Stop Machine
  leaves : ∀ which m m', exceptionHandler which m = .ok m' →
    m'.registers 0 = m.registers 0 ∧ m'.registers loadReg = m.registers loadReg

def Around.machine (a : Around) (r : Registers) : Machine :=
  ⟨r, a.mainMemory, a.pageTable, a.pageTableSize⟩

/-- One instruction; between two of them, memory and the page table may have been changed. -/
def step (a : Around) (r : Registers) : Option Registers :=
  (handled a.exceptionHandler (a.machine r)).toOption.map (·.registers)

theorem step_sound {a : Around} {r r' : Registers} (hr : r.Sound) (h : step a r = some r') :
    r'.Sound := by
  obtain ⟨m', hm', rfl⟩ := Option.map_eq_some_iff.mp h
  have hsound : (a.machine r).registers.Sound := hr
  rw [toOption_eq_some, handled_eq_mapError hsound] at hm'
  cases hold : (a.machine r).handled a.exceptionHandler with
  | error s =>
    rw [hold] at hm'
    cases hm'
  | ok m =>
    rw [hold] at hm'
    cases hm'
    refine hsound.handled (fun which m₁ m₂ hm₁ h₂ => ?_) hold
    obtain ⟨hzero, hload⟩ := a.leaves which m₁ m₂ h₂
    refine ⟨hzero.trans hm₁.zero, ?_⟩
    rw [LoadsGeneral, hload]
    exact hm₁.load

/-- At the boundary of two instructions. -/
structure Safe (r : Registers) : Prop where
  sound : r.Sound
  /-- Whatever the instruction, it is not ended by an index that is outside, nor by `default:`. -/
  ends : ∀ (a : Around) e, handled a.exceptionHandler (a.machine r) = .error e → ∃ s, e = .fault (.stop s)

theorem Safe.of_sound {r : Registers} (hr : r.Sound) : Safe r where
  sound := hr
  ends := by
    intro a e he
    have hsound : (a.machine r).registers.Sound := hr
    rw [handled_eq_mapError hsound] at he
    cases hold : (a.machine r).handled a.exceptionHandler with
    | ok m =>
      rw [hold] at he
      cases he
    | error s =>
      rw [hold] at he
      cases he
      exact ⟨s, rfl⟩

/-- From registers with r0 = 0 and `LoadReg` below 32, whatever the words are that are executed. -/
theorem registers_safe {r : Registers} (hzero : r 0 = 0) (hload : (r loadReg).toNat < 32) :
    (∀ value, Decoded value) ∧
      ∀ (instructions : List Around) (r' : Registers), run step instructions r = some r' → Safe r' :=
  ⟨decoded, fun _ _ hrun => .of_sound (run_invariant (fun _ _ _ => step_sound) ⟨hzero, hload⟩ hrun)⟩

/-- Page 0 in frame 0, with `lw r5, 0(r0)` and then no operation. -/
def loadWord : Around where
  mainMemory := fun x => if x = 2 then 0x05 else if x = 3 then 0x8c else 0
  pageTable := [⟨0, 0, true, false, false, false⟩]
  pageTableSize := 1
  exceptionHandler := fun _ m => .ok m
  leaves := by
    intro which m m' h
    cases h
    exact ⟨rfl, rfl⟩

/-- The word is loaded in the second instruction. -/
theorem registers_safe_loadWord :
    let r : Registers := fun i => if i = nextPCReg then 4 else 0
    (run step [loadWord, loadWord] r).isSome = true ∧
      ∀ r', run step [loadWord, loadWord] r = some r' → Safe r' :=
  ⟨by decide +kernel, fun r' hrun => (registers_safe (by decide) (by decide)).2 _ r' hrun⟩

end Nachos.RegisterFile
