import Nachos.Machine.Translate
import Mathlib.Tactic.IntervalCases

/-!
# The MIPS interpreter (machine/mipssim.cc, mipssim.h)

`oneInstruction` fetches, decodes and executes one user instruction. Registers
are `unsigned int` in the source, so the comparisons, divisions and right
shifts on them are unsigned; where the source goes through an `int` variable
(`SRL`, `SRLV`, `Mult`), the shift is arithmetic.

* `oneInstruction_sameMapping`: an instruction changes registers, use and dirty
  bits, and bytes of mapped frames only, also when it traps.
-/

namespace Nachos

open Nachos.Framework

/-! ## Decoding -/

/-- The values of `opCode`; `SPECIAL` and `BCOND` only stand in `opTable`. -/
inductive OpCode
  | add | addi | addiu | addu | and | andi | beq | bgez | bgezal | bgtz | blez | bltz | bltzal
  | bne | div | divu | j | jal | jalr | jr | lb | lbu | lh | lhu | lui | lw | lwl | lwr | mfhi
  | mflo | mthi | mtlo | mult | multu | nor | or | ori | sb | sh | sll | sllv | slt | slti
  | sltiu | sltu | sra | srav | srl | srlv | sub | subu | sw | swl | swr | xor | xori | syscall
  | unimp | res | special | bcond
  deriving DecidableEq, Repr

/-- `IFMT`, `JFMT`, `RFMT`. -/
inductive Format
  | i | j | r
  deriving DecidableEq, Repr

/-- `opTable`. -/
def opTable : List (OpCode × Format) :=
  [(.special, .r), (.bcond, .i), (.j, .j), (.jal, .j),
   (.beq, .i), (.bne, .i), (.blez, .i), (.bgtz, .i),
   (.addi, .i), (.addiu, .i), (.slti, .i), (.sltiu, .i),
   (.andi, .i), (.ori, .i), (.xori, .i), (.lui, .i),
   (.unimp, .i), (.unimp, .i), (.unimp, .i), (.unimp, .i),
   (.res, .i), (.res, .i), (.res, .i), (.res, .i),
   (.res, .i), (.res, .i), (.res, .i), (.res, .i),
   (.res, .i), (.res, .i), (.res, .i), (.res, .i),
   (.lb, .i), (.lh, .i), (.lwl, .i), (.lw, .i),
   (.lbu, .i), (.lhu, .i), (.lwr, .i), (.res, .i),
   (.sb, .i), (.sh, .i), (.swl, .i), (.sw, .i),
   (.res, .i), (.res, .i), (.swr, .i), (.res, .i),
   (.unimp, .i), (.unimp, .i), (.unimp, .i), (.unimp, .i),
   (.res, .i), (.res, .i), (.res, .i), (.res, .i),
   (.unimp, .i), (.unimp, .i), (.unimp, .i), (.unimp, .i),
   (.res, .i), (.res, .i), (.res, .i), (.res, .i)]

/-- `specialTable`. -/
def specialTable : List OpCode :=
  [.sll, .res, .srl, .sra, .sllv, .res, .srlv, .srav,
   .jr, .jalr, .res, .res, .syscall, .unimp, .res, .res,
   .mfhi, .mthi, .mflo, .mtlo, .res, .res, .res, .res,
   .mult, .multu, .div, .divu, .res, .res, .res, .res,
   .add, .addu, .sub, .subu, .and, .or, .xor, .nor,
   .res, .res, .slt, .sltu, .res, .res, .res, .res,
   .res, .res, .res, .res, .res, .res, .res, .res,
   .res, .res, .res, .res, .res, .res, .res, .res]

/-- `Instruction`, decoded. A register field of five bits names one of the 32
general-purpose registers. -/
structure Instruction where
  opCode : OpCode
  rs : Fin 32
  rt : Fin 32
  rd : Fin 32
  extra : BitVec 32

/-- The register field of `value` from bit `shift` on. -/
def regField (value : BitVec 32) (shift : Nat) : Fin 32 :=
  ⟨((value >>> shift) &&& 0x1f).toNat, by
    rw [BitVec.toNat_and]
    exact Nat.lt_of_le_of_lt Nat.and_le_right (by decide)⟩

/-- `Instruction::Decode`. -/
def decode (value : BitVec 32) : Instruction :=
  let (opCode, format) := opTable.getD ((value >>> 26) &&& 0x3f).toNat (.res, .i)
  let extra :=
    match format with
    | .i =>
      let extra := value &&& 0xffff
      if extra &&& 0x8000 ≠ 0 then extra ||| 0xffff0000 else extra
    | .r => (value >>> 6) &&& 0x1f
    | .j => value &&& 0x3ffffff
  let opCode :=
    match opCode with
    | .special => specialTable.getD (value &&& 0x3f).toNat .res
    | .bcond =>
      let i := value &&& 0x1f0000
      if i = 0 then .bltz
      else if i = 0x10000 then .bgez
      else if i = 0x100000 then .bltzal
      else if i = 0x110000 then .bgezal
      else .unimp
    | opCode => opCode
  ⟨opCode, regField value 21, regField value 16, regField value 11, extra⟩

/-! ## Multiplication -/

/-- The loop of `Mult`: `a`'s bits one at a time, `bHi:bLo` shifted along, the
result in `hi:lo`. -/
def multLoop : Nat → BitVec 32 → BitVec 32 → BitVec 32 → BitVec 32 → BitVec 32 →
    BitVec 32 × BitVec 32
  | 0, _, _, _, hi, lo => (hi, lo)
  | n + 1, a, bHi, bLo, hi, lo =>
    let lo' := lo + bLo
    let hi' := (if lo' < bLo then hi + 1 else hi) + bHi
    let bHi' := bHi <<< 1 ||| (if bLo &&& 0x80000000 ≠ 0 then 1 else 0)
    if a &&& 1 ≠ 0 then
      if a &&& 0xfffffffe = 0 then (hi', lo')
      else multLoop n (a.sshiftRight 1) bHi' (bLo <<< 1) hi' lo'
    else multLoop n (a.sshiftRight 1) bHi' (bLo <<< 1) hi lo

/-- `Mult`: the high and the low word of the product. -/
def mult (a b : BitVec 32) (signedArith : Bool) : BitVec 32 × BitVec 32 :=
  if a = 0 ∨ b = 0 then (0, 0)
  else
    let negative := signedArith && (a.msb != b.msb)
    let a := if signedArith && a.msb then -a else a
    let b := if signedArith && b.msb then -b else b
    let (hi, lo) := multLoop 32 a 0 b 0 0
    if negative then
      let lo := ~~~lo + 1
      (if lo = 0 then ~~~hi + 1 else ~~~hi, lo)
    else (hi, lo)

/-! ## Execution -/

/-- The index in the register file of a general-purpose register. -/
def gp (r : Fin 32) : Fin 40 := r.castLE (by decide)

/-- What the execution of an instruction leaves for the common tail: where to
go after the delay slot, and the load to do later. -/
structure Executed where
  machine : Machine
  pcAfter : BitVec 32
  nextLoadReg : BitVec 32
  nextLoadValue : BitVec 32

/-- `IndexToAddr`. -/
def indexToAddr (x : BitVec 32) : BitVec 32 := x <<< 2

def signBit : BitVec 32 := 0x80000000

/-- The `switch` of `Machine::OneInstruction`. -/
def Machine.execute (m : Machine) (instr : Instruction) : Except Fault Executed :=
  let r := m.registers
  let rs := r (gp instr.rs)
  let rt := r (gp instr.rt)
  let extra := instr.extra
  let nextPC := r nextPCReg
  let pcAfter := nextPC + 4
  let branch := nextPC + indexToAddr extra
  -- an instruction that writes one register, one that jumps, one that loads
  let set (num : Fin 40) (value : BitVec 32) : Except Fault Executed :=
    .ok ⟨{ m with registers := r.write num value }, pcAfter, 0, 0⟩
  let jump (r : Registers) (pcAfter : BitVec 32) : Except Fault Executed :=
    .ok ⟨{ m with registers := r }, pcAfter, 0, 0⟩
  let load (m : Machine) (value : BitVec 32) : Except Fault Executed :=
    .ok ⟨m, pcAfter, BitVec.ofNat 32 instr.rt, value⟩
  let store (m : Machine) : Except Fault Executed := .ok ⟨m, pcAfter, 0, 0⟩
  let link := r.write retAddrReg (nextPC + 4)
  let raise (which : ExceptionType) (badVAddr : BitVec 32) : Except Fault Executed :=
    .error (.exception which badVAddr m)
  -- the target of `LWL` and `LWR`, with the load still pending for it
  let pending := if r loadReg = BitVec.ofNat 32 instr.rt then r loadValueReg else rt
  match instr.opCode with
  | .add =>
    let sum := rs + rt
    if (rs ^^^ rt) &&& signBit = 0 ∧ (rs ^^^ sum) &&& signBit ≠ 0 then raise .overflow 0
    else set (gp instr.rd) sum
  | .addi =>
    let sum := rs + extra
    if (rs ^^^ extra) &&& signBit = 0 ∧ (extra ^^^ sum) &&& signBit ≠ 0 then raise .overflow 0
    else set (gp instr.rt) sum
  | .addiu => set (gp instr.rt) (rs + extra)
  | .addu => set (gp instr.rd) (rs + rt)
  | .and => set (gp instr.rd) (rs &&& rt)
  | .andi => set (gp instr.rt) (rs &&& (extra &&& 0xffff))
  | .beq => jump r (if rs = rt then branch else pcAfter)
  | .bgezal => jump link (if link (gp instr.rs) &&& signBit = 0 then branch else pcAfter)
  | .bgez => jump r (if rs &&& signBit = 0 then branch else pcAfter)
  | .bgtz => jump r (if 0 < rs then branch else pcAfter)
  | .blez => jump r (if rs ≤ 0 then branch else pcAfter)
  | .bltzal => jump link (if link (gp instr.rs) &&& signBit ≠ 0 then branch else pcAfter)
  | .bltz => jump r (if rs &&& signBit ≠ 0 then branch else pcAfter)
  | .bne => jump r (if rs ≠ rt then branch else pcAfter)
  | .div | .divu =>
    if rt = 0 then jump ((r.write loReg 0).write hiReg 0) pcAfter
    else jump ((r.write loReg (rs / rt)).write hiReg (rs % rt)) pcAfter
  | .jal => jump link ((pcAfter &&& 0xf0000000) ||| indexToAddr extra)
  | .j => jump r ((pcAfter &&& 0xf0000000) ||| indexToAddr extra)
  | .jalr =>
    let r := r.write (gp instr.rd) (nextPC + 4)
    jump r (r (gp instr.rs))
  | .jr => jump r rs
  | .lb | .lbu => do
    let (value, m) ← m.readMem (rs + extra) 1
    if value &&& 0x80 ≠ 0 ∧ instr.opCode = .lb then load m (value ||| 0xffffff00)
    else load m (value &&& 0xff)
  | .lh | .lhu =>
    let tmp := rs + extra
    if tmp &&& 0x1 ≠ 0 then raise .addressError tmp
    else do
      let (value, m) ← m.readMem tmp 2
      if value &&& 0x8000 ≠ 0 ∧ instr.opCode = .lh then load m (value ||| 0xffff0000)
      else load m (value &&& 0xffff)
  | .lui => set (gp instr.rt) (extra <<< 16)
  | .lw =>
    let tmp := rs + extra
    if tmp &&& 0x3 ≠ 0 then raise .addressError tmp
    else do
      let (value, m) ← m.readMem tmp 4
      load m value
  | .lwl =>
    let tmp := rs + extra
    -- the source asserts `(tmp & 0x3) == 0`, so of its four cases only this one is left
    if tmp &&& 0x3 ≠ 0 then .error (.stop .assertion)
    else do
      let (value, m) ← m.readMem tmp 4
      load m value
  | .lwr =>
    let tmp := rs + extra
    if tmp &&& 0x3 ≠ 0 then .error (.stop .assertion)
    else do
      let (value, m) ← m.readMem tmp 4
      load m ((pending &&& 0xffffff00) ||| ((value >>> 24) &&& 0xff))
  | .mfhi => set (gp instr.rd) (r hiReg)
  | .mflo => set (gp instr.rd) (r loReg)
  | .mthi => set hiReg rs
  | .mtlo => set loReg rs
  | .mult => jump ((r.write hiReg (mult rs rt true).1).write loReg (mult rs rt true).2) pcAfter
  | .multu => jump ((r.write hiReg (mult rs rt false).1).write loReg (mult rs rt false).2) pcAfter
  | .nor => set (gp instr.rd) (~~~(rs ||| rt))
  | .or => set (gp instr.rd) (rs ||| rs)
  | .ori => set (gp instr.rt) (rs ||| (extra &&& 0xffff))
  | .sb => do store (← m.writeMem (rs + extra) 1 rt)
  | .sh => do store (← m.writeMem (rs + extra) 2 rt)
  | .sll => set (gp instr.rd) (rt <<< extra)
  | .sllv => set (gp instr.rd) (rt <<< (rs &&& 0x1f))
  | .slt => set (gp instr.rd) (if rs < rt then 1 else 0)
  | .slti => set (gp instr.rt) (if rs < extra then 1 else 0)
  | .sltiu => set (gp instr.rt) (if rs < extra then 1 else 0)
  | .sltu => set (gp instr.rd) (if rs < rt then 1 else 0)
  | .sra => set (gp instr.rd) (rt >>> extra)
  | .srav => set (gp instr.rd) (rt >>> (rs &&& 0x1f))
  | .srl => set (gp instr.rd) (rt.sshiftRight extra.toNat)
  | .srlv => set (gp instr.rd) (rt.sshiftRight (rs &&& 0x1f).toNat)
  | .sub =>
    let diff := rs - rt
    if (rs ^^^ rt) &&& signBit ≠ 0 ∧ (rs ^^^ diff) &&& signBit ≠ 0 then raise .overflow 0
    else set (gp instr.rd) diff
  | .subu => set (gp instr.rd) (rs - rt)
  | .sw => do store (← m.writeMem (rs + extra) 4 rt)
  | .swl =>
    let tmp := rs + extra
    if tmp &&& 0x3 ≠ 0 then .error (.stop .assertion)
    else do
      let (_, m) ← m.readMem (tmp &&& ~~~0x3) 4
      store (← m.writeMem (tmp &&& ~~~0x3) 4 rt)
  | .swr =>
    let tmp := rs + extra
    if tmp &&& 0x3 ≠ 0 then .error (.stop .assertion)
    else do
      let (value, m) ← m.readMem (tmp &&& ~~~0x3) 4
      store (← m.writeMem (tmp &&& ~~~0x3) 4 ((value &&& 0xffffff) ||| (rt <<< 24)))
  | .syscall => raise .syscall 0
  | .xor => set (gp instr.rd) (rs ^^^ rt)
  | .xori => set (gp instr.rt) (rs ^^^ (extra &&& 0xffff))
  | .res | .unimp => raise .illegalInstr 0
  | .special | .bcond => .error (.stop .assertion)

/-- `Machine::OneInstruction`. -/
def Machine.oneInstruction (m : Machine) : Except Fault Machine := do
  let (raw, m) ← m.readMem (m.registers pcReg) 4
  let e ← m.execute (decode raw)
  -- the instruction went through: do the load pending from the one before, and go on
  let r ← (e.machine.registers.delayedLoad e.nextLoadReg e.nextLoadValue).mapError .stop
  let r := r.write prevPCReg (r pcReg)
  let r := r.write pcReg (r nextPCReg)
  .ok { e.machine with registers := r.write nextPCReg e.pcAfter }

/-! ## What an instruction can change -/

/-- The execution, from `m`, changes registers and mapped memory only, and has
left the registers alone if it traps. -/
structure Keeps {α : Type} (machine : α → Machine) (m : Machine) (x : Except Fault α) : Prop where
  ok : ∀ a, x = .ok a → SameMapping m (machine a)
  exception : ∀ which badVAddr m', x = .error (.exception which badVAddr m') →
    SameMapping m m' ∧ m'.registers = m.registers

variable {α β : Type} {f : α → Machine} {g : β → Machine} {m : Machine}

theorem keeps_ok {a : α} (h : SameMapping m (f a)) : Keeps f m (.ok a) :=
  ⟨fun _ ha => by cases ha; exact h, fun _ _ _ ha => by cases ha⟩

theorem keeps_raise (which : ExceptionType) (badVAddr : BitVec 32) :
    Keeps f m (.error (.exception which badVAddr m)) :=
  ⟨fun _ ha => (by cases ha), fun _ _ _ ha => by cases ha; exact ⟨.refl m, rfl⟩⟩

theorem keeps_stop (s : Stop) : Keeps f m (.error (.stop s)) :=
  ⟨fun _ ha => (by cases ha), fun _ _ _ ha => by cases ha⟩

theorem keeps_ite {c : Prop} [Decidable c] {x y : Except Fault α} (hx : Keeps f m x)
    (hy : Keeps f m y) : Keeps f m (if c then x else y) := by
  split
  · exact hx
  · exact hy

/-- A first part that leaves the registers alone, then the rest. -/
theorem keeps_bind {x : Except Fault β} {k : β → Except Fault α} (hx : Keeps g m x)
    (hreg : ∀ b, x = .ok b → (g b).registers = m.registers)
    (hk : ∀ b, x = .ok b → Keeps f (g b) (k b)) : Keeps f m (x >>= k) := by
  cases x with
  | error e => exact ⟨fun _ ha => (by cases ha), fun w b m' ha => hx.exception w b m' (by cases ha; rfl)⟩
  | ok b =>
    have hb := hx.ok b rfl
    refine ⟨fun a ha => hb.trans ((hk b rfl).ok a ha), fun w v m' ha => ?_⟩
    obtain ⟨hs, hr⟩ := (hk b rfl).exception w v m' ha
    exact ⟨hb.trans hs, hr.trans (hreg b rfl)⟩

theorem keeps_readMem {addr : BitVec 32} {size : Nat} {k : BitVec 32 × Machine → Except Fault α}
    (hk : ∀ p : BitVec 32 × Machine, Keeps f p.2 (k p)) : Keeps f m (m.readMem addr size >>= k) := by
  refine keeps_bind (g := Prod.snd) ⟨fun p hp => ?_, fun w b m' hp => ?_⟩ (fun p hp => ?_)
    fun p _ => hk p
  · exact (Machine.readMem_sameMapping hp).1
  · rw [Machine.readMem_exception hp]
    exact ⟨.refl m, rfl⟩
  · exact (Machine.readMem_sameMapping hp).2

theorem keeps_writeMem {addr value : BitVec 32} {size : Nat} {k : Machine → Except Fault α}
    (hk : ∀ m', Keeps f m' (k m')) : Keeps f m (m.writeMem addr size value >>= k) := by
  refine keeps_bind (g := id) ⟨fun p hp => ?_, fun w b m' hp => ?_⟩ (fun p hp => ?_)
    fun p _ => hk p
  · exact (Machine.writeMem_sameMapping hp).1
  · rw [Machine.writeMem_exception hp]
    exact ⟨.refl m, rfl⟩
  · exact (Machine.writeMem_sameMapping hp).2

theorem Machine.execute_keeps (m : Machine) (instr : Instruction) :
    Keeps Executed.machine m (m.execute instr) := by
  have hset : ∀ (r : Registers) (a b c : BitVec 32),
      Keeps Executed.machine m (.ok ⟨{ m with registers := r }, a, b, c⟩) :=
    fun r a b c => keeps_ok ((SameMapping.refl m).of_registers r)
  have hdone : ∀ (m' : Machine) (a b c : BitVec 32),
      Keeps Executed.machine m' (.ok ⟨m', a, b, c⟩) := fun m' a b c => keeps_ok (.refl m')
  unfold Machine.execute
  -- one case for each opcode: registers, a trap, a read or a write
  split <;> first
    | exact hset _ _ _ _
    | exact keeps_raise _ _
    | exact keeps_stop _
    | exact keeps_ite (keeps_raise _ _) (hset _ _ _ _)
    | exact keeps_ite (hset _ _ _ _) (hset _ _ _ _)
    | exact keeps_readMem fun p => keeps_ite (hdone _ _ _ _) (hdone _ _ _ _)
    | exact keeps_ite (keeps_raise _ _)
        (keeps_readMem fun p => keeps_ite (hdone _ _ _ _) (hdone _ _ _ _))
    | exact keeps_ite (keeps_raise _ _) (keeps_readMem fun p => hdone _ _ _ _)
    | exact keeps_ite (keeps_stop _) (keeps_readMem fun p => hdone _ _ _ _)
    | exact keeps_writeMem fun m' => hdone _ _ _ _
    | exact keeps_ite (keeps_stop _)
        (keeps_readMem fun p => keeps_writeMem fun m' => hdone _ _ _ _)

/-- An instruction changes registers, use and dirty bits, and bytes of mapped
frames only; one that traps has not changed the registers. -/
theorem Machine.oneInstruction_sameMapping (m : Machine) : Keeps id m m.oneInstruction := by
  unfold Machine.oneInstruction
  refine keeps_readMem fun p => ?_
  have hx := p.2.execute_keeps (decode p.1)
  simp only
  cases he : p.2.execute (decode p.1) with
  | error e =>
    rw [he] at hx
    exact ⟨fun _ ha => (by cases ha), fun w b m' ha => hx.exception w b m' (by cases ha; rfl)⟩
  | ok e =>
    have hm := hx.ok e he
    cases hd : e.machine.registers.delayedLoad e.nextLoadReg e.nextLoadValue with
    | error s => exact ⟨fun _ ha => by simp [bind, Except.bind, hd, Except.mapError] at ha,
        fun _ _ _ ha => by simp [bind, Except.bind, hd, Except.mapError] at ha⟩
    | ok r =>
      simp only [bind, Except.bind, hd, Except.mapError]
      exact keeps_ok (hm.of_registers _)

end Nachos
