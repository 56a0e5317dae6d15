import Mathlib.Data.BitVec
import Mathlib.Data.Set.BooleanAlgebra
import Mathlib.Logic.Function.Basic
import Mathlib.Order.CompletePartialOrder
import Mathlib.Tactic.Common
import Nachos.Framework.Run

/-!
# A few instructions of the i386

The eight registers, a memory of bytes addressed by words of 32 bits, and the
instructions that move words between them: `movl`, `pushl`, `popl`, `call` and
`ret`, in the operand order of the assembler (source first). A code says which
instruction stands at an address, and where the next one starts.

* `Mem.read_write`, `Mem.read_write_of_disjoint`, `Mem.write_of_notMem`: words
  read after a word is written;
* `Placed`: a list of instructions stands in the code;
* `run_ops`: a block that neither calls nor returns does what its operations do, one
  after the other, and goes on behind it.
-/

namespace Nachos.I386

open Nachos.Framework

abbrev Word := BitVec 32

/-! ## Memory -/

abbrev Mem := Word → BitVec 8

/-- The `n` bytes from `a`. -/
def span (a : Word) (n : Nat) : Set Word := {x | (x - a).toNat < n}

instance (a : Word) (n : Nat) (x : Word) : Decidable (x ∈ span a n) :=
  inferInstanceAs (Decidable ((x - a).toNat < n))

theorem mem_span {a x : Word} {n : Nat} : x ∈ span a n ↔ (x - a).toNat < n := Iff.rfl

theorem span_add_subset {a d : Word} {k n : Nat} (h : d.toNat + k ≤ n) : span (a + d) k ⊆ span a n := by
  intro x hx
  rw [mem_span] at hx ⊢
  have heq : x - a = (x - (a + d)) + d := by bv_omega
  rw [heq, BitVec.toNat_add]
  have := Nat.mod_le ((x - (a + d)).toNat + d.toNat) (2 ^ 32)
  omega

theorem span_subset {a : Word} {k n : Nat} (h : k ≤ n) : span a k ⊆ span a n :=
  fun _ hx => Nat.lt_of_lt_of_le hx h

/-- Neither range starts in the other. -/
theorem disjoint_span {a b : Word} {n k : Nat} (h : n ≤ (b - a).toNat) (h' : k ≤ (a - b).toNat) :
    Disjoint (span a n) (span b k) := by
  rw [Set.disjoint_left]
  intro x ha hb
  rw [mem_span] at ha hb
  bv_omega

/-- Words of one object at offsets four apart. -/
theorem disjoint_span_add {a d e : Word} (h : 4 ≤ (d - e).toNat ∧ 4 ≤ (e - d).toNat) :
    Disjoint (span (a + d) 4) (span (a + e) 4) := by
  apply disjoint_span
  · rw [show a + e - (a + d) = e - d by bv_omega]
    exact h.2
  · rw [show a + d - (a + e) = d - e by bv_omega]
    exact h.1

namespace Mem

/-- The word at `a`, the lowest byte first. -/
def read (m : Mem) (a : Word) : Word := m (a + 3) ++ m (a + 2) ++ m (a + 1) ++ m a

def write (m : Mem) (a v : Word) : Mem :=
  fun x => if (x - a).toNat < 4 then v.extractLsb' (8 * (x - a).toNat) 8 else m x

variable {m m' : Mem} {a b v : Word}

theorem write_of_notMem {x : Word} (h : x ∉ span a 4) : m.write a v x = m x := if_neg h

theorem read_congr (h : ∀ x ∈ span a 4, m x = m' x) : m.read a = m'.read a := by
  have hmem : ∀ d : Word, d.toNat < 4 → m (a + d) = m' (a + d) := by
    intro d hd
    apply h
    rw [mem_span]
    have heq : a + d - a = d := by bv_omega
    rw [heq]
    exact hd
  have h0 : m a = m' a := by
    apply h
    rw [mem_span, BitVec.sub_self]
    decide
  unfold read
  rw [hmem 3 (by decide), hmem 2 (by decide), hmem 1 (by decide), h0]

theorem read_write_of_disjoint (h : Disjoint (span b 4) (span a 4)) : (m.write a v).read b = m.read b :=
  read_congr fun _ hx => write_of_notMem (Set.disjoint_left.mp h hx)

@[simp] theorem read_write (m : Mem) (a v : Word) : (m.write a v).read a = v := by
  have hbyte : ∀ d : Word, d.toNat < 4 → m.write a v (a + d) = v.extractLsb' (8 * d.toNat) 8 := by
    intro d hd
    have heq : a + d - a = d := by bv_omega
    show (if (a + d - a).toNat < 4 then v.extractLsb' (8 * (a + d - a).toNat) 8 else m (a + d)) = _
    rw [heq, if_pos hd]
  have h0 : m.write a v a = v.extractLsb' 0 8 := by
    have h := hbyte 0 (by decide)
    simpa using h
  unfold read
  rw [hbyte 3 (by decide), hbyte 2 (by decide), hbyte 1 (by decide), h0]
  ext i hi
  simp only [BitVec.getElem_append, BitVec.getElem_extractLsb']
  rw [← BitVec.getLsbD_eq_getElem hi]
  split <;> [skip; split <;> [skip; split]] <;>
    · congr 1
      simp
      try omega

/-- A word written at another offset of the same object is not read. -/
theorem read_write_add {d e : Word} (h : 4 ≤ (e - d).toNat ∧ 4 ≤ (d - e).toNat) :
    (m.write (a + d) v).read (a + e) = m.read (a + e) :=
  read_write_of_disjoint (disjoint_span_add h)

/-- The memories are the same outside `S`. -/
def Agree (S : Set Word) (m m' : Mem) : Prop := ∀ x, x ∉ S → m x = m' x

theorem Agree.write {S : Set Word} (h : Agree S m m') (a v : Word) :
    Agree S (m.write a v) (m'.write a v) := by
  intro x hx
  unfold Mem.write
  rw [h x hx]

theorem Agree.read {S : Set Word} (h : Agree S m m') (hS : Disjoint (span a 4) S) : m.read a = m'.read a :=
  read_congr fun x hx => h x (Set.disjoint_left.mp hS hx)

end Mem

/-! ## Instructions -/

inductive Reg
  | eax | ebx | ecx | edx | esp | ebp | esi | edi
  deriving DecidableEq, Repr

abbrev Regs := Reg → Word

structure State where
  reg : Regs
  eip : Word
  mem : Mem

/-- The operations that go on to the next instruction. -/
inductive Op
  /-- `movl %src,%dst` -/
  | move (src dst : Reg)
  /-- `movl disp(%base),%dst` -/
  | load (disp : Word) (base dst : Reg)
  /-- `movl %src,disp(%base)` -/
  | store (src : Reg) (disp : Word) (base : Reg)
  /-- `movl addr,%dst` -/
  | loadAbs (addr : Word) (dst : Reg)
  /-- `movl %src,addr` -/
  | storeAbs (src : Reg) (addr : Word)
  /-- `pushl %src` -/
  | push (src : Reg)
  /-- `popl %dst` -/
  | pop (dst : Reg)
  deriving DecidableEq, Repr

inductive Instr
  | op (o : Op)
  /-- `call *%target` -/
  | call (target : Reg)
  | ret
  deriving DecidableEq, Repr

/-- `v` is put into a register. -/
def State.set (s : State) (r : Reg) (v : Word) : State := { s with reg := Function.update s.reg r v }

/-- `v` is put on the stack. -/
def State.pushed (s : State) (v : Word) : State :=
  { s with reg := Function.update s.reg .esp (s.reg .esp - 4), mem := s.mem.write (s.reg .esp - 4) v }

/-- The top of the stack is taken off. -/
def State.popped (s : State) : State := { s with reg := Function.update s.reg .esp (s.reg .esp + 4) }

@[simp] theorem State.set_eip (s : State) (r : Reg) (v : Word) : (s.set r v).eip = s.eip := rfl
@[simp] theorem State.set_mem (s : State) (r : Reg) (v : Word) : (s.set r v).mem = s.mem := rfl
@[simp] theorem State.set_reg (s : State) (r : Reg) (v : Word) :
    (s.set r v).reg = Function.update s.reg r v := rfl
@[simp] theorem State.pushed_eip (s : State) (v : Word) : (s.pushed v).eip = s.eip := rfl
@[simp] theorem State.pushed_mem (s : State) (v : Word) :
    (s.pushed v).mem = s.mem.write (s.reg .esp - 4) v := rfl
@[simp] theorem State.pushed_reg (s : State) (v : Word) :
    (s.pushed v).reg = Function.update s.reg .esp (s.reg .esp - 4) := rfl
@[simp] theorem State.popped_eip (s : State) : s.popped.eip = s.eip := rfl
@[simp] theorem State.popped_mem (s : State) : s.popped.mem = s.mem := rfl
@[simp] theorem State.popped_reg (s : State) :
    s.popped.reg = Function.update s.reg .esp (s.reg .esp + 4) := rfl

def Op.exec : Op → State → State
  | .move src dst, s => s.set dst (s.reg src)
  | .load disp base dst, s => s.set dst (s.mem.read (s.reg base + disp))
  | .store src disp base, s => { s with mem := s.mem.write (s.reg base + disp) (s.reg src) }
  | .loadAbs addr dst, s => s.set dst (s.mem.read addr)
  | .storeAbs src addr, s => { s with mem := s.mem.write addr (s.reg src) }
  | .push src, s => s.pushed (s.reg src)
  | .pop dst, s => s.popped.set dst (s.mem.read (s.reg .esp))

/-- One instruction, when the one behind it is at `next`. -/
def Instr.exec : Instr → Word → State → State
  | .op o, next, s => { o.exec s with eip := next }
  | .call target, next, s => { s.pushed next with eip := s.reg target }
  | .ret, _, s => { s.popped with eip := s.mem.read (s.reg .esp) }

/-- The operations, one after the other. -/
def execs (os : List Op) (s : State) : State := os.foldl (fun s o => o.exec s) s

@[simp] theorem execs_nil (s : State) : execs [] s = s := rfl

@[simp] theorem execs_cons (o : Op) (os : List Op) (s : State) : execs (o :: os) s = execs os (o.exec s) := rfl

theorem execs_append (os os' : List Op) (s : State) : execs (os ++ os') s = execs os' (execs os s) :=
  List.foldl_append

/-! ## Code -/

/-- The instruction at an address, and the address of the one behind it. -/
abbrev Code := Word → Option (Instr × Word)

def step (code : Code) (s : State) : Option State := (code s.eip).map fun i => i.1.exec i.2 s

/-- `n` instructions. -/
def steps (code : Code) : Nat → State → Option State
  | 0, s => some s
  | n + 1, s => (step code s).bind (steps code n)

theorem steps_add (code : Code) (n k : Nat) (s : State) :
    steps code (n + k) s = (steps code n s).bind (steps code k) := by
  induction n generalizing s with
  | zero => rw [Nat.zero_add]; rfl
  | succ n ih =>
    rw [Nat.succ_add]
    show (step code s).bind (steps code (n + k)) = ((step code s).bind (steps code n)).bind (steps code k)
    rw [Option.bind_assoc]
    congr 1
    funext t
    exact ih t

/-- The instructions stand in the code from `a` to `z`. -/
def Placed (code : Code) : Word → List Instr → Word → Prop
  | a, [], z => a = z
  | a, i :: is, z => ∃ b, code a = some (i, b) ∧ Placed code b is z

instance Placed.decidable {code : Code} :
    ∀ (a : Word) (is : List Instr) (z : Word), Decidable (Placed code a is z)
  | a, [], z => inferInstanceAs (Decidable (a = z))
  | a, i :: is, z =>
    match h : code a with
    | none => isFalse fun ⟨_, hb, _⟩ => by rw [h] at hb; cases hb
    | some (j, b) =>
      have : Decidable (Placed code b is z) := Placed.decidable b is z
      decidable_of_iff (j = i ∧ Placed code b is z)
        ⟨fun ⟨hj, hp⟩ => ⟨b, hj ▸ h, hp⟩, fun ⟨c, hc, hp⟩ => by
          rw [h] at hc
          obtain ⟨rfl, rfl⟩ := Prod.mk.inj (Option.some.inj hc)
          exact ⟨rfl, hp⟩⟩

theorem Placed.append {code : Code} {is js : List Instr} {a z : Word} (h : Placed code a (is ++ js) z) :
    ∃ b, Placed code a is b ∧ Placed code b js z := by
  induction is generalizing a with
  | nil => exact ⟨a, rfl, h⟩
  | cons i is ih =>
    obtain ⟨b, hb, h⟩ := h
    obtain ⟨c, hc, h⟩ := ih h
    exact ⟨c, ⟨b, hb, hc⟩, h⟩

theorem step_placed {code : Code} {i : Instr} {is : List Instr} {s : State} {z : Word}
    (h : Placed code s.eip (i :: is) z) :
    ∃ next, step code s = some (i.exec next s) ∧ Placed code next is z := by
  obtain ⟨b, hb, h⟩ := h
  refine ⟨b, ?_, h⟩
  unfold step
  rw [hb]
  rfl

theorem exec_with_eip (o : Op) (s : State) (a : Word) :
    o.exec { s with eip := a } = { o.exec s with eip := a } := by
  cases o <;> rfl

theorem execs_with_eip (os : List Op) (s : State) (a : Word) :
    execs os { s with eip := a } = { execs os s with eip := a } := by
  induction os generalizing s with
  | nil => rfl
  | cons o os ih => rw [execs_cons, execs_cons, exec_with_eip, ih]

/-- A block of operations runs to its end. -/
theorem run_ops {code : Code} {os : List Op} {s : State} {z : Word}
    (h : Placed code s.eip (os.map .op) z) : steps code os.length s = some { execs os s with eip := z } := by
  induction os generalizing s with
  | nil =>
    have hz : s.eip = z := h
    show some s = _
    rw [execs_nil, ← hz]
  | cons o os ih =>
    obtain ⟨next, hstep, h⟩ := step_placed h
    show (step code s).bind (steps code os.length) = _
    rw [hstep, Option.bind_some, ih h, execs_cons]
    show some { execs os { o.exec s with eip := next } with eip := z } = _
    rw [execs_with_eip]

theorem instr_exec_with_eip (i : Instr) (next : Word) (s : State) (a : Word) :
    i.exec next { s with eip := a } = i.exec next s := by
  cases i with
  | op o =>
    show { o.exec { s with eip := a } with eip := next } = { o.exec s with eip := next }
    rw [exec_with_eip]
  | call target => rfl
  | ret => rfl

/-- A block of operations, and the instruction behind it. -/
theorem run_ops_then {code : Code} {os : List Op} {i : Instr} {is : List Instr} {s : State} {z : Word}
    (h : Placed code s.eip (os.map .op ++ i :: is) z) :
    ∃ next, steps code (os.length + 1) s = some (i.exec next (execs os s)) ∧ Placed code next is z := by
  obtain ⟨b, hops, next, hi, his⟩ := h.append
  refine ⟨next, ?_, his⟩
  rw [steps_add, run_ops hops, Option.bind_some]
  show (step code { execs os s with eip := b }).bind (steps code 0) = _
  unfold step
  rw [hi, Option.map_some, Option.bind_some, instr_exec_with_eip]
  rfl

/-- A block of operations that ends in `ret`. -/
theorem run_routine {code : Code} {os : List Op} {s : State} {z : Word}
    (h : Placed code s.eip (os.map .op ++ [.ret]) z) :
    steps code (os.length + 1) s = some (Instr.ret.exec z (execs os s)) := by
  obtain ⟨next, hrun, -⟩ := run_ops_then h
  exact hrun

end Nachos.I386
