import Nachos.Machine.Memory
import Nachos.Machine.Step

/-!
# Delayed loads (machine/mipssim.cc)

What a load fetches is written to its register after the next instruction.
`Machine::OneInstruction` does that with `DelayedLoad`, once the next instruction
has written its own result.

* `execute_pendingValue`: an instruction does not look at the value that is pending;
* `Sequence`: instructions that go through one after another;
* `Sequence.inOrder`: the loads of a sequence are in program order, if no
  instruction writes the register of a load just before it.
-/

namespace Nachos

open Nachos.Framework

/-! ## The value that is pending -/

/-- The machine with another value pending. -/
def Machine.pendingValue (m : Machine) (u : BitVec 32) : Machine :=
  { m with registers := m.registers.write loadValueReg u }

def Executed.pendingValue (e : Executed) (u : BitVec 32) : Executed :=
  { e with machine := e.machine.pendingValue u }

/-- `LWR` merges what it loads into its target, and takes the target from the load that is
pending for it. -/
def Merges (r : Registers) (instr : Instruction) : Prop :=
  instr.opCode = .lwr ∧ r loadReg = BitVec.ofNat 32 instr.rt

section
variable {m : Machine} {u : BitVec 32}

theorem pendingValue_registers :
    (m.pendingValue u).registers = m.registers.write loadValueReg u := rfl

theorem translate_pendingValue {addr : BitVec 32} {size : Nat} {writing : Bool} {p : Nat × Machine}
    (h : m.translate addr size writing = .ok p) :
    (m.pendingValue u).translate addr size writing = .ok (p.1, p.2.pendingValue u) := by
  obtain ⟨e, he, rfl⟩ := translate_eq_ok.mp h
  exact translate_eq_ok.mpr ⟨e, ⟨he.aligned, he.inTable, he.entry, he.valid, he.writable, he.frame,
    he.inMemory⟩, rfl⟩

theorem readMem_pendingValue {addr : BitVec 32} {size : Nat} {p : BitVec 32 × Machine}
    (h : m.readMem addr size = .ok p) :
    (m.pendingValue u).readMem addr size = .ok (p.1, p.2.pendingValue u) := by
  unfold Machine.readMem at h ⊢
  obtain ⟨q, hq, h⟩ := bind_eq_ok.mp h
  rw [translate_pendingValue hq, ok_bind]
  simp only at h ⊢
  split at h <;> cases h <;> rfl

theorem writeMem_pendingValue {addr value : BitVec 32} {size : Nat} {m' : Machine}
    (h : m.writeMem addr size value = .ok m') :
    (m.pendingValue u).writeMem addr size value = .ok (m'.pendingValue u) := by
  unfold Machine.writeMem at h ⊢
  obtain ⟨q, hq, h⟩ := bind_eq_ok.mp h
  rw [translate_pendingValue hq, ok_bind]
  simp only at h ⊢
  split at h <;> cases h <;> rfl

/-- `x'` does what `x` does, if that goes through, with `u` pending. -/
def Blind (u : BitVec 32) (x x' : Except Fault Executed) : Prop :=
  ∀ e, x = .ok e → x' = .ok (e.pendingValue u)

theorem blind_ok {e e' : Executed} (h : e' = e.pendingValue u) : Blind u (.ok e) (.ok e') := by
  intro e₁ he
  cases he
  rw [h]

theorem blind_error (f : Fault) (x' : Except Fault Executed) : Blind u (.error f) x' :=
  fun _ he => by cases he

theorem blind_ite {c : Prop} [Decidable c] {x y x' y' : Except Fault Executed} (hx : Blind u x x')
    (hy : Blind u y y') : Blind u (if c then x else y) (if c then x' else y') := by
  split
  · exact hx
  · exact hy

theorem blind_readMem {addr : BitVec 32} {size : Nat}
    {k k' : BitVec 32 × Machine → Except Fault Executed}
    (hk : ∀ p : BitVec 32 × Machine, Blind u (k p) (k' (p.1, p.2.pendingValue u))) :
    Blind u (m.readMem addr size >>= k) ((m.pendingValue u).readMem addr size >>= k') := by
  intro e he
  obtain ⟨p, hp, he⟩ := bind_eq_ok.mp he
  rw [readMem_pendingValue hp]
  exact hk p e he

theorem blind_writeMem {addr value : BitVec 32} {size : Nat} {k k' : Machine → Except Fault Executed}
    (hk : ∀ p : Machine, Blind u (k p) (k' (p.pendingValue u))) :
    Blind u (m.writeMem addr size value >>= k) ((m.pendingValue u).writeMem addr size value >>= k') := by
  intro e he
  obtain ⟨p, hp, he⟩ := bind_eq_ok.mp he
  rw [writeMem_pendingValue hp]
  exact hk p e he

/-- An instruction that goes through does the same whatever is pending. -/
theorem execute_pendingValue {instr : Instruction} (hmerge : ¬ Merges m.registers instr) :
    Blind u (m.execute instr) ((m.pendingValue u).execute instr) := by
  have hread : ∀ (r : Registers) (i : Fin 32), r.write loadValueReg u (gp i) = r (gp i) :=
    fun r i => Registers.write_of_ne r (gp_ne i (by decide)) u
  have hnext : ∀ r : Registers, r.write loadValueReg u nextPCReg = r nextPCReg :=
    fun r => Registers.write_of_ne r (by decide) u
  have hhi : ∀ r : Registers, r.write loadValueReg u hiReg = r hiReg :=
    fun r => Registers.write_of_ne r (by decide) u
  have hlo : ∀ r : Registers, r.write loadValueReg u loReg = r loReg :=
    fun r => Registers.write_of_ne r (by decide) u
  have hload : ∀ r : Registers, r.write loadValueReg u loadReg = r loadReg :=
    fun r => Registers.write_of_ne r (by decide) u
  have hwrite : ∀ (r : Registers) (i : Fin 32) v,
      (r.write loadValueReg u).write (gp i) v = (r.write (gp i) v).write loadValueReg u :=
    fun r i v => Registers.write_comm (gp_ne i (by decide)).symm u v
  have hwriteHi : ∀ (r : Registers) v,
      (r.write loadValueReg u).write hiReg v = (r.write hiReg v).write loadValueReg u :=
    fun r v => Registers.write_comm (by decide) u v
  have hwriteLo : ∀ (r : Registers) v,
      (r.write loadValueReg u).write loReg v = (r.write loReg v).write loadValueReg u :=
    fun r v => Registers.write_comm (by decide) u v
  have hlink : ∀ (r : Registers) v,
      (r.write loadValueReg u).write retAddrReg v = (r.write retAddrReg v).write loadValueReg u :=
    fun r v => Registers.write_comm (by decide) u v
  obtain ⟨op, rs, rt, rd, extra⟩ := instr
  cases op with
  | lwr =>
    have hnone : m.registers loadReg ≠ BitVec.ofNat 32 rt := fun h => hmerge ⟨rfl, h⟩
    simp only [Machine.execute, pendingValue_registers, hread, hnext, hload, if_neg hnone]
    exact blind_ite (blind_error _ _) (blind_readMem fun p => blind_ok rfl)
  | _ =>
    simp only [Machine.execute, pendingValue_registers, hread, hnext, hhi, hlo, hwrite, hwriteHi,
      hwriteLo, hlink]
    -- a write or a jump, a trap, a load, a store
    first
      | exact blind_ok rfl
      | exact blind_error _ _
      | exact blind_ite (blind_error _ _) (blind_ok rfl)
      | exact blind_ite (blind_ok rfl) (blind_ok rfl)
      | exact blind_readMem fun p => blind_ite (blind_ok rfl) (blind_ok rfl)
      | exact blind_ite (blind_error _ _)
          (blind_readMem fun p => blind_ite (blind_ok rfl) (blind_ok rfl))
      | exact blind_ite (blind_error _ _) (blind_readMem fun p => blind_ok rfl)
      | exact blind_writeMem fun p => blind_ok rfl
      | exact blind_ite (blind_error _ _)
          (blind_readMem fun p => blind_writeMem fun p => blind_ok rfl)

end

/-- A load writes nothing at once. -/
theorem dest_of_target {instr : Instruction} {r : Fin 32} (ht : instr.target = some r) :
    instr.dest = none := by
  obtain ⟨op, rs, rt, rd, extra⟩ := instr
  cases op <;> first
    | rfl
    | cases ht

/-! ## Instructions one after another -/

/-- The instruction that `Machine::OneInstruction` executes, and what its execution leaves. -/
def Machine.executes (m : Machine) : Except Fault (Instruction × Executed) := do
  let (raw, m) ← m.readMem (m.registers pcReg) 4
  let e ← m.execute (decode raw)
  .ok (decode raw, e)

theorem Machine.executes_eq_ok {m : Machine} {instr : Instruction} {e : Executed} :
    m.executes = .ok (instr, e) ↔ ∃ raw m₁, m.readMem (m.registers pcReg) 4 = .ok (raw, m₁) ∧
      instr = decode raw ∧ m₁.execute instr = .ok e := by
  unfold executes
  constructor
  · intro h
    obtain ⟨⟨raw, m₁⟩, hfetch, h⟩ := bind_eq_ok.mp h
    obtain ⟨e', he, h⟩ := bind_eq_ok.mp h
    cases h
    exact ⟨raw, m₁, hfetch, rfl, he⟩
  · rintro ⟨raw, m₁, hfetch, rfl, he⟩
    refine bind_eq_ok.mpr ⟨(raw, m₁), hfetch, ?_⟩
    exact bind_eq_ok.mpr ⟨e, he, rfl⟩

/-- Instructions that go through one after another: no exception, and no interrupt between
them. -/
structure Sequence where
  length : Nat
  machine : Nat → Machine
  step : ∀ k < length, (machine k).oneInstruction = .ok (machine (k + 1))

namespace Sequence

/-- The instruction of a step. -/
def instr (s : Sequence) (k : Nat) : Instruction :=
  match (s.machine k).executes with
  | .ok p => p.1
  | .error _ => decode 0

/-- What its execution leaves. -/
def left (s : Sequence) (k : Nat) : Executed :=
  match (s.machine k).executes with
  | .ok p => p.2
  | .error _ => ⟨s.machine k, 0, 0, 0⟩

/-- Step `i` has written `r` before step `j`: at once, or as a load that is done after the
instruction that follows. -/
def Wrote (s : Sequence) (i j : Nat) (r : Fin 32) : Prop :=
  ((s.instr i).dest = some r ∧ i < j) ∨ ((s.instr i).target = some r ∧ i + 1 < j)

/-- The load of `r` by step `k` is in program order. -/
structure InOrder (s : Sequence) (k : Nat) (r : Fin 32) : Prop where
  /-- The next instruction finds in `r` what was there before the load. -/
  before : (s.machine (k + 1)).registers (gp r) =
    if r.val = ((s.machine k).registers loadReg).toNat then (s.machine k).registers loadValueReg
    else (s.machine k).registers (gp r)
  /-- It does the same whatever the value is. -/
  unseen : ¬ Merges (s.machine (k + 1)).registers (s.instr (k + 1)) → ∀ u,
    ((s.machine (k + 1)).pendingValue u).executes =
      .ok (s.instr (k + 1), (s.left (k + 1)).pendingValue u)
  /-- The instruction after it finds the value in `r`, and so do all until `r` is written. -/
  seen : ∀ j, k + 2 ≤ j → j ≤ s.length → (∀ i, k < i → ¬ s.Wrote i j r) →
    (s.machine j).registers (gp r) = (s.left k).nextLoadValue
  /-- What the next instruction writes to `r` at once remains there. -/
  result : (s.instr (k + 1)).dest = some r → ∀ j, k + 2 ≤ j → j ≤ s.length →
    (∀ i, k + 1 < i → ¬ s.Wrote i j r) →
    (s.machine j).registers (gp r) = (s.left (k + 1)).machine.registers (gp r)
  /-- So does what it loads. -/
  load : (s.instr (k + 1)).target = some r → ∀ j, k + 3 ≤ j → j ≤ s.length →
    (∀ i, k + 1 < i → ¬ s.Wrote i j r) →
    (s.machine j).registers (gp r) = (s.left (k + 1)).nextLoadValue
  /-- Every other register is as the next instruction leaves it. -/
  others : ∀ i : Fin 40, i ≠ 0 → i ≠ gp r → i.val < 34 →
    (s.machine (k + 2)).registers i = (s.left (k + 1)).machine.registers i

variable {s : Sequence} {k j : Nat} {r : Fin 32}

theorem executes (hk : k < s.length) : (s.machine k).executes = .ok (s.instr k, s.left k) ∧
    (s.left k).finish = .ok (s.machine (k + 1)) := by
  obtain ⟨raw, m₁, e, hfetch, he, hfinish⟩ := Machine.oneInstruction_eq_ok.mp (s.step k hk)
  have h : (s.machine k).executes = .ok (decode raw, e) :=
    Machine.executes_eq_ok.mpr ⟨raw, m₁, hfetch, rfl, he⟩
  unfold instr left
  rw [h]
  exact ⟨rfl, hfinish⟩

/-- What one step writes, from the state before it. -/
theorem leaves (hk : k < s.length) : Leaves (s.machine k) (s.instr k) (s.left k) := by
  obtain ⟨raw, m₁, hfetch, -, he⟩ := Machine.executes_eq_ok.mp (executes hk).1
  have hm := m₁.execute_leaves _ _ he
  exact ⟨fun i h₁ h₂ h₃ => (hm.registers i h₁ h₂ h₃).trans
    (congrFun (Machine.readMem_sameMapping hfetch).2 i), hm.nextLoadReg⟩

/-- The load that is pending after a step is its own. -/
theorem pending (hk : k < s.length) (ht : (s.instr k).target = some r) :
    (s.machine (k + 1)).registers loadReg = BitVec.ofNat 32 r ∧
      (s.machine (k + 1)).registers loadValueReg = (s.left k).nextLoadValue := by
  have hfinish := (executes hk).2
  refine ⟨?_, finish_loadValueReg hfinish⟩
  rw [finish_loadReg hfinish, (leaves hk).nextLoadReg, ht]
  rfl

theorem pending_toNat (hk : k < s.length) (r' : Fin 32) (hr : r' ≠ 0)
    (ht : (s.instr k).target ≠ some r') :
    r'.val ≠ ((s.machine (k + 1)).registers loadReg).toNat := by
  rw [finish_loadReg (executes hk).2, (leaves hk).nextLoadReg]
  cases htarget : (s.instr k).target with
  | none =>
    intro h
    exact hr (Fin.ext h)
  | some r =>
    intro h
    have hlt := r.isLt
    have hval : (BitVec.ofNat 32 r.val).toNat = r.val := by
      rw [BitVec.toNat_ofNat, Nat.mod_eq_of_lt (by omega)]
    rw [htarget] at ht
    exact ht (congrArg some (Fin.ext (hval.symm.trans h.symm)))

/-- A general register after a step: the load that was pending goes over the result. -/
theorem next (hk : k < s.length) (hr : r ≠ 0) : (s.machine (k + 1)).registers (gp r) =
    if r.val = ((s.machine k).registers loadReg).toNat then (s.machine k).registers loadValueReg
    else (s.left k).machine.registers (gp r) := by
  have hleaves := (leaves hk).registers
  have hne : ∀ (i : Fin 40) (d : Fin 32), 32 ≤ i.val → i ≠ gp d := fun i d hi => (gp_ne d hi).symm
  rw [finish_gp (executes hk).2 hr,
    hleaves loadReg (by decide) (by decide) fun d _ => hne _ d (by decide),
    hleaves loadValueReg (by decide) (by decide) fun d _ => hne _ d (by decide)]

/-- What a step does not write at once is as before. -/
theorem left_gp (hk : k < s.length) (hd : (s.instr k).dest ≠ some r) :
    (s.left k).machine.registers (gp r) = (s.machine k).registers (gp r) := by
  refine (leaves hk).registers _ (gp_ne r (by decide)) (gp_ne r (by decide)) fun d hd' hgp => hd ?_
  rw [hd']
  exact congrArg some (Fin.ext (congrArg (fun i : Fin 40 => i.val) hgp.symm))

/-- The value of a load is in its register two steps later, whatever the next instruction
wrote there. -/
theorem loaded (hk : k + 1 < s.length) (hr : r ≠ 0) (ht : (s.instr k).target = some r) :
    (s.machine (k + 2)).registers (gp r) = (s.left k).nextLoadValue := by
  obtain ⟨hreg, hvalue⟩ := pending (by omega) ht
  have hlt := r.isLt
  rw [next hk hr, hreg, hvalue, BitVec.toNat_ofNat, Nat.mod_eq_of_lt (by omega), if_pos rfl]

theorem Wrote.mono {i j' : Nat} (h : s.Wrote i j r) (hj : j ≤ j') : s.Wrote i j' r :=
  h.imp (fun h => ⟨h.1, by omega⟩) fun h => ⟨h.1, by omega⟩

/-- A register stays as it is while no step writes it. By induction on the steps: each has no
result for the register, and no load for it was pending. -/
theorem unwritten {n : Nat} (hr : r ≠ 0) (hn : n + 1 ≤ j) (hj : j ≤ s.length)
    (hno : ∀ i, n ≤ i → ¬ s.Wrote i j r) :
    (s.machine j).registers (gp r) = (s.machine (n + 1)).registers (gp r) := by
  induction j, hn using Nat.le_induction with
  | base => rfl
  | succ j hn ih =>
    have hdest : (s.instr j).dest ≠ some r := fun h => hno j (by omega) (.inl ⟨h, by omega⟩)
    obtain ⟨i, rfl⟩ := Nat.exists_eq_add_of_le' (show 1 ≤ j by omega)
    have htarget : (s.instr i).target ≠ some r := fun h => hno i (by omega) (.inr ⟨h, by omega⟩)
    rw [next hj hr, if_neg (pending_toNat (by omega) r hr htarget), left_gp hj hdest]
    exact ih (by omega) fun i hi h => hno i hi (h.mono (Nat.le_succ _))

/-- A load is seen until its register is written. -/
theorem loaded_until (hk : k + 1 < s.length) (hr : r ≠ 0) (ht : (s.instr k).target = some r)
    (hkj : k + 2 ≤ j) (hj : j ≤ s.length) (hno : ∀ i, k < i → ¬ s.Wrote i j r) :
    (s.machine j).registers (gp r) = (s.left k).nextLoadValue := by
  rw [← loaded hk hr ht]
  exact unwritten hr hkj hj fun i hi => hno i (by omega)

/-- In every sequence in which no instruction writes at once the register of the load just
before it, every load is in program order. -/
theorem inOrder (s : Sequence) (hs : ∀ k r, k + 1 < s.length → r ≠ 0 →
    (s.instr k).target = some r → (s.instr (k + 1)).dest ≠ some r) :
    ∀ k r, k + 1 < s.length → r ≠ 0 → (s.instr k).target = some r → s.InOrder k r := by
  intro k r hk hr ht
  have hlt := r.isLt
  have hk' : k < s.length := by omega
  obtain ⟨hreg, hvalue⟩ := pending hk' ht
  have hdest : (s.instr k).dest ≠ some r := by
    rw [dest_of_target ht]
    exact (Option.some_ne_none r).symm
  exact {
    before := by rw [next hk' hr, left_gp hk' hdest]
    unseen := by
      intro hmerge u
      obtain ⟨raw, m₁, hfetch, hraw, he⟩ := Machine.executes_eq_ok.mp (executes hk).1
      rw [← (Machine.readMem_sameMapping hfetch).2] at hmerge
      refine Machine.executes_eq_ok.mpr ⟨raw, m₁.pendingValue u, ?_, hraw,
        execute_pendingValue hmerge _ he⟩
      exact readMem_pendingValue hfetch
    seen := fun j hkj hj hno => loaded_until hk hr ht hkj hj hno
    result := fun hd => absurd hd (hs k r hk hr ht)
    load := by
      intro ht' j hkj hj hno
      exact loaded_until (by omega) hr ht' hkj hj hno
    others := by
      intro i h0 hne hi
      have hspecial : ∀ n : Fin 40, 34 ≤ n.val → i ≠ n := fun n hn hin =>
        absurd (hin ▸ hn) (Nat.not_le.mpr hi)
      have hpending : i.val ≠ r.val := fun h => hne (Fin.ext h)
      rw [finish_apply (executes hk).2 (hspecial _ (by decide)) (hspecial _ (by decide))
          (hspecial _ (by decide)), if_neg h0, if_neg (hspecial _ (by decide)),
        if_neg (hspecial _ (by decide)),
        (leaves hk).registers loadReg (by decide) (by decide)
          fun d _ => (gp_ne d (by decide)).symm, hreg, BitVec.toNat_ofNat,
        Nat.mod_eq_of_lt (by omega), if_neg hpending] }

end Sequence

/-- A page of memory that holds these words, executed from its start. -/
def withProgram (words : List (BitVec 32)) : Machine where
  registers := fun i => if i = nextPCReg then 4 else 0
  mainMemory := fun x => bytesOf (words.getD (x / 4) 0) (x % 4)
  pageTable := [⟨0, 0, true, false, false, false⟩]
  pageTableSize := 1

/-- The machine after one instruction. -/
def Machine.next (m : Machine) : Machine :=
  match m.oneInstruction with
  | .ok m' => m'
  | .error _ => m

theorem Machine.oneInstruction_next {m : Machine} (h : m.oneInstruction.isOk = true) :
    m.oneInstruction = .ok m.next := by
  unfold next
  cases hm : m.oneInstruction with
  | error f =>
    rw [hm] at h
    cases h
  | ok m' => rfl

/-- Two instructions, from the start of a program. -/
def Sequence.two (words : List (BitVec 32)) (h₀ : (withProgram words).oneInstruction.isOk = true)
    (h₁ : (withProgram words).next.oneInstruction.isOk = true) : Sequence where
  length := 2
  machine := fun k => Machine.next^[k] (withProgram words)
  step := by
    intro k hk
    rcases Nat.lt_succ_iff_lt_or_eq.mp hk with h | rfl
    · obtain rfl : k = 0 := by omega
      exact Machine.oneInstruction_next h₀
    · exact Machine.oneInstruction_next h₁

/-- `LW r1, 0(r0)`, then `ADDIU r2, r0, 5`. -/
theorem Sequence.inOrder_other : (Sequence.two [0x8c010000, 0x24020005] (by decide +kernel)
    (by decide +kernel)).InOrder 0 1 := by
  refine Sequence.inOrder _ ?_ 0 1 (by decide) (by decide) (by decide +kernel)
  intro k r hk hr ht hd
  have hzero : k = 0 := Nat.lt_one_iff.mp (Nat.lt_of_succ_lt_succ hk)
  subst hzero
  have hload : (Sequence.instr (Sequence.two [0x8c010000, 0x24020005] (by decide +kernel)
    (by decide +kernel)) 0).target = some 1 := by decide +kernel
  have hadd : (Sequence.instr (Sequence.two [0x8c010000, 0x24020005] (by decide +kernel)
    (by decide +kernel)) (0 + 1)).dest = some 2 := by decide +kernel
  rw [hload] at ht
  rw [hadd, ← ht] at hd
  exact absurd hd (by decide)

/-- `LW r1, 0(r0)`, then `ADDIU r1, r0, 5`: what is loaded goes over the sum. -/
theorem Sequence.not_inOrder : ¬ ∀ (s : Sequence) k r, k + 1 < s.length → r ≠ 0 →
    (s.instr k).target = some r → s.InOrder k r := by
  intro h
  have horder := h (Sequence.two [0x8c010000, 0x24010005] (by decide +kernel) (by decide +kernel)) 0 1
    (by decide) (by decide) (by decide +kernel)
  have hresult := horder.result (by decide +kernel) 2 (by decide) (by decide)
    fun i hi hwrote => by
      rcases hwrote with ⟨-, hlt⟩ | ⟨-, hlt⟩ <;> omega
  exact absurd hresult (by decide +kernel)

end Nachos
