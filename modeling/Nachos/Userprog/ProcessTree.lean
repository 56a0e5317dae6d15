import Nachos.Userprog.Steps

/-!
# The process table and the process tree

PIDs, the process table, the parent pointers and the child lists belong
together through every `Fork`, `Exit` and `Kill`.

* `ProcessTree`: the invariant; `ProcessTree.fork`, `ProcessTree.tearDown`: the
  two ways the processes change;
* `tableAndTree_run`: it holds after every run, and says what the table and the
  tree look like.
-/

namespace Nachos.Kernel

open Nachos.Framework

variable {env : Env} {k k' : Kernel}

/-- The processes are those with a PCB. -/
structure ProcessTree (k : Kernel) : Prop where
  size : k.pids.numBits = numPids
  fresh : ∀ i, k.nextId ≤ i → k.pcbs i = none
  /-- Every process has a PID, and stands in the table under it. -/
  pid : ∀ p P, k.pcbs p = some P →
    ∃ i : Nat, P.processID = i ∧ i ∈ k.pids.marked ∧ k.pcbTable i = some p
  owner : ∀ i ∈ k.pids.marked, ∃ p P, k.pcbs p = some P ∧ P.processID = i
  parent : ∀ p P q, k.pcbs p = some P → P.parentProcess = some q →
    ∃ Q, k.pcbs q = some Q ∧ p ∈ Q.children
  child : ∀ q Q c, k.pcbs q = some Q → c ∈ Q.children →
    ∃ P, k.pcbs c = some P ∧ P.parentProcess = some q
  nodup : ∀ q Q, k.pcbs q = some Q → Q.children.Nodup

theorem ProcessTree.congr (h : ProcessTree k) (hp : k'.pcbs = k.pcbs) (ht : k'.pcbTable = k.pcbTable)
    (hb : k'.pids = k.pids) (hn : k.nextId ≤ k'.nextId) : ProcessTree k' where
  size := hb ▸ h.size
  fresh i hi := hp ▸ h.fresh i (hn.trans hi)
  pid p P hP := by rw [hp] at hP; rw [hb, ht]; exact h.pid p P hP
  owner i hi := by rw [hb] at hi; rw [hp]; exact h.owner i hi
  parent p P q hP hq := by rw [hp] at hP ⊢; exact h.parent p P q hP hq
  child q Q c hQ hc := by rw [hp] at hQ ⊢; exact h.child q Q c hQ hc
  nodup q Q hQ := by rw [hp] at hQ; exact h.nodup q Q hQ

/-- A child has one parent. -/
theorem ProcessTree.parent_unique (h : ProcessTree k) {q q' c : Nat} {Q Q' : PCB}
    (hQ : k.pcbs q = some Q) (hc : c ∈ Q.children) (hQ' : k.pcbs q' = some Q')
    (hc' : c ∈ Q'.children) : q = q' := by
  obtain ⟨C, hC, hCq⟩ := h.child q Q c hQ hc
  obtain ⟨C', hC', hCq'⟩ := h.child q' Q' c hQ' hc'
  rw [hC, Option.some.injEq] at hC'
  rw [← hC', hCq, Option.some.injEq] at hCq'
  exact hCq'

/-- The process that the table leads to from a PID has that PID. -/
theorem ProcessTree.processID_eq (h : ProcessTree k) {pid : Int} {p : Nat} {P : PCB}
    (hg : k.getProcess pid = .ok (some p)) (hP : k.pcbs p = some P) : P.processID = pid := by
  obtain ⟨i, rfl, -, hr⟩ := getProcess_spec hg
  split at hr
  · rename_i hm
    obtain ⟨q, Q, hQ, hid⟩ := h.owner i hm
    obtain ⟨j, hj, -, hjt⟩ := h.pid q Q hQ
    have hji : j = i := by omega
    rw [hji, ← hr, Option.some.injEq] at hjt
    subst hjt
    rw [hP, Option.some.injEq] at hQ
    rw [hQ, hid]
  · cases hr

/-! ## A new process -/

/-- The processes with a new one, `c`, which is a child of `q`. -/
structure AddsChild (q c : Nat) (Q new : PCB) (pcbs pcbs' : Nat → Option PCB) : Prop where
  parent : pcbs q = some Q
  fresh : pcbs c = none
  pcbs : pcbs' = Function.update
    (Function.update pcbs q (some { Q with children := Q.children ++ [c], lastDeleted := false })) c
    (some new)

section

variable {q c x : Nat} {Q P new : PCB} {pcbs pcbs' : Nat → Option PCB}

theorem AddsChild.ne (h : AddsChild q c Q new pcbs pcbs') (hP : pcbs x = some P) : x ≠ c :=
  fun heq => by
    rw [heq, h.fresh] at hP
    cases hP

theorem AddsChild.new_eq (h : AddsChild q c Q new pcbs pcbs') : pcbs' c = some new := by
  rw [h.pcbs, Function.update_self]

theorem AddsChild.parent_eq (h : AddsChild q c Q new pcbs pcbs') :
    pcbs' q = some { Q with children := Q.children ++ [c], lastDeleted := false } := by
  rw [h.pcbs, Function.update_of_ne (h.ne h.parent), Function.update_self]

theorem AddsChild.old_eq (h : AddsChild q c Q new pcbs pcbs') (hc : x ≠ c) (hq : x ≠ q) :
    pcbs' x = pcbs x := by
  rw [h.pcbs, Function.update_of_ne hc, Function.update_of_ne hq]

/-- The processes there are now: the new one, and those there were. -/
theorem AddsChild.cases (h : AddsChild q c Q new pcbs pcbs') (hP : pcbs' x = some P) :
    (x = c ∧ P = new) ∨
    ∃ P₀, pcbs x = some P₀ ∧ P = { P₀ with
      children := if x = q then P₀.children ++ [c] else P₀.children
      lastDeleted := if x = q then false else P₀.lastDeleted } := by
  by_cases hxc : x = c
  · rw [hxc, h.new_eq] at hP
    cases hP
    exact .inl ⟨hxc, rfl⟩
  by_cases hxq : x = q
  · rw [hxq, h.parent_eq] at hP
    cases hP
    exact .inr ⟨Q, by rw [hxq, h.parent], by rw [if_pos hxq, if_pos hxq]⟩
  · rw [h.old_eq hxc hxq] at hP
    exact .inr ⟨P, hP, by rw [if_neg hxq, if_neg hxq]⟩

theorem AddsChild.keeps (h : AddsChild q c Q new pcbs pcbs') (hP : pcbs x = some P) :
    ∃ P', pcbs' x = some P' ∧ P'.processID = P.processID ∧
      P'.parentProcess = P.parentProcess ∧ ∀ y ∈ P.children, y ∈ P'.children := by
  by_cases hxq : x = q
  · rw [hxq, h.parent] at hP
    cases hP
    exact ⟨{ Q with children := Q.children ++ [c], lastDeleted := false }, by rw [hxq, h.parent_eq], rfl, rfl,
      fun y hy => List.mem_append_left _ hy⟩
  · exact ⟨P, by rw [h.old_eq (h.ne hP) hxq, hP], rfl, rfl, fun y hy => hy⟩

end

/-- A new process, a child of `q`, with a free PID. -/
theorem ProcessTree.addChild (h : ProcessTree k) {q c i t : Nat} {Q : PCB} {v : BitVec 32}
    (ha : AddsChild q c Q ⟨t, i, some q, [], false, v⟩ k.pcbs k'.pcbs) (hc : k.nextId ≤ c)
    (hi : i < k.pids.numBits) (hm : i ∉ k.pids.marked)
    (ht : k'.pcbTable = Function.update k.pcbTable i (some c)) (hb : k'.pids = k.pids.markBit i)
    (hn : c < k'.nextId) : ProcessTree k' := by
  have hmark : k'.pids.marked = insert i k.pids.marked := by rw [hb, k.pids.marked_markBit hi]
  refine ⟨hb ▸ h.size, fun x hx => ?_, fun x P hP => ?_, fun j hj => ?_, fun x P y hP hy => ?_,
    fun x P y hP hy => ?_, fun x P hP => ?_⟩
  · have hxn := h.fresh x (by omega)
    have hxq : x ≠ q := fun heq => by
      rw [heq, ha.parent] at hxn
      cases hxn
    rw [ha.old_eq (by omega) hxq, hxn]
  · rcases ha.cases hP with ⟨rfl, rfl⟩ | ⟨P₀, hP₀, rfl⟩
    · exact ⟨i, rfl, by rw [hmark]; exact Finset.mem_insert_self i _, by
        rw [ht, Function.update_self]⟩
    · obtain ⟨j, hj, hjm, hjt⟩ := h.pid x P₀ hP₀
      have hji : j ≠ i := fun heq => hm (heq ▸ hjm)
      exact ⟨j, hj, by rw [hmark]; exact Finset.mem_insert_of_mem hjm, by
        rw [ht, Function.update_of_ne hji, hjt]⟩
  · rw [hmark, Finset.mem_insert] at hj
    rcases hj with rfl | hj
    · exact ⟨c, _, ha.new_eq, rfl⟩
    · obtain ⟨x, P, hP, hid⟩ := h.owner j hj
      obtain ⟨P', hP', hid', -, -⟩ := ha.keeps hP
      exact ⟨x, P', hP', hid'.trans hid⟩
  · rcases ha.cases hP with ⟨rfl, rfl⟩ | ⟨P₀, hP₀, rfl⟩
    · cases hy
      exact ⟨_, ha.parent_eq, by simp⟩
    · obtain ⟨Y, hY, hxY⟩ := h.parent x P₀ y hP₀ hy
      obtain ⟨Y', hY', -, -, hsub⟩ := ha.keeps hY
      exact ⟨Y', hY', hsub x hxY⟩
  · rcases ha.cases hP with ⟨rfl, rfl⟩ | ⟨P₀, hP₀, rfl⟩
    · cases hy
    · have hold : y ∈ P₀.children → ∃ R, k'.pcbs y = some R ∧ R.parentProcess = some x := by
        intro hin
        obtain ⟨R, hR, hpar⟩ := h.child x P₀ y hP₀ hin
        obtain ⟨R', hR', -, hpp, -⟩ := ha.keeps hR
        exact ⟨R', hR', hpp.trans hpar⟩
      dsimp only at hy
      split at hy
      · rename_i hxq
        rcases List.mem_append.mp hy with hin | hin
        · exact hold hin
        · rw [List.mem_singleton.mp hin]
          exact ⟨_, ha.new_eq, by rw [hxq]⟩
      · exact hold hy
  · rcases ha.cases hP with ⟨rfl, rfl⟩ | ⟨P₀, hP₀, rfl⟩
    · exact List.nodup_nil
    · have hnd := h.nodup x P₀ hP₀
      dsimp only
      split
      · refine List.nodup_append.mpr ⟨hnd, List.nodup_singleton c, fun a ha' b hb' hab => ?_⟩
        obtain ⟨R, hR, -⟩ := h.child x P₀ a hP₀ ha'
        exact ha.ne hR (hab.trans (List.mem_singleton.mp hb'))
      · exact hnd

/-! ## An ended process -/

theorem mem_survivor_children {p q c : Nat} {pcb Q : PCB} {status : Option (BitVec 32)}
    (h : c ∈ (survivor p pcb status q Q).children) : c ∈ Q.children := by
  simp only [survivor] at h
  split at h
  · exact List.mem_of_mem_erase h
  · exact h

theorem mem_survivor_children_of_ne {p q c : Nat} {pcb Q : PCB} {status : Option (BitVec 32)}
    (hne : c ≠ p) (h : c ∈ Q.children) : c ∈ (survivor p pcb status q Q).children := by
  simp only [survivor]
  split
  · exact (List.mem_erase_of_ne hne).mpr h
  · exact h

/-- The parent of a process that ended has dropped it. -/
theorem ProcessTree.not_mem_survivor (h : ProcessTree k) {p q : Nat} {pcb Q : PCB}
    {status : Option (BitVec 32)} (hP : k.pcbs p = some pcb) (hQ : k.pcbs q = some Q)
    (hne : q ≠ p) : p ∉ (survivor p pcb status q Q).children := by
  intro hin
  have hchild := mem_survivor_children hin
  obtain ⟨P, hP', hPq⟩ := h.child q Q p hQ hchild
  rw [hP, Option.some.injEq] at hP'
  subst hP'
  have hself : p ∉ pcb.children := fun hself => hne (h.parent_unique hQ hchild hP hself)
  simp only [survivor, hself, not_false_eq_true, hPq, and_self, ite_true] at hin
  exact (h.nodup q Q hQ).not_mem_erase hin

/-- A process that ended: the others have forgotten it. -/
theorem ProcessTree.removed (h : ProcessTree k) {p i : Nat} {pcb : PCB} {status : Option (BitVec 32)}
    (hP : k.pcbs p = some pcb) (hi : pcb.processID = i) (hlt : i < k.pids.numBits)
    (hp : Removes p pcb status k.pcbs k'.pcbs)
    (ht : k'.pcbTable = Function.update k.pcbTable i none) (hb : k'.pids = k.pids.clearBit i)
    (hn : k.nextId ≤ k'.nextId) : ProcessTree k' := by
  have hmark : k'.pids.marked = k.pids.marked.erase i := by rw [hb, k.pids.marked_clearBit hlt]
  have hpi : k.pcbTable i = some p := by
    obtain ⟨j, hj, -, hjt⟩ := h.pid p pcb hP
    rw [hi, Int.natCast_inj] at hj
    rw [hj, hjt]
  refine ⟨hb ▸ h.size, fun x hx => ?_, fun x X hX => ?_, fun j hj => ?_, fun x X q hX hq => ?_,
    fun q Q' c hQ' hc => ?_, fun q Q' hQ' => ?_⟩
  · rw [hp x, h.fresh x (hn.trans hx), Option.map_none, ite_self]
  · obtain ⟨X₀, hX₀, hne, rfl⟩ := hp.survived hX
    obtain ⟨j, hj, hjm, hjt⟩ := h.pid x X₀ hX₀
    have hji : j ≠ i := fun heq => by
      rw [heq, hpi, Option.some.injEq] at hjt
      exact hne hjt.symm
    exact ⟨j, hj, by rw [hmark]; exact Finset.mem_erase.mpr ⟨hji, hjm⟩, by
      rw [ht, Function.update_of_ne hji, hjt]⟩
  · rw [hmark, Finset.mem_erase] at hj
    obtain ⟨x, X, hX, hid⟩ := h.owner j hj.2
    have hne : x ≠ p := fun heq => by
      rw [heq, hP] at hX
      cases hX
      rw [hi, Int.natCast_inj] at hid
      exact hj.1 hid.symm
    exact ⟨x, _, hp.survives hX hne, hid⟩
  · obtain ⟨X₀, hX₀, hne, rfl⟩ := hp.survived hX
    simp only [survivor] at hq
    split at hq
    · cases hq
    rename_i hxp
    obtain ⟨Q, hQ, hin⟩ := h.parent x X₀ q hX₀ hq
    have hqp : q ≠ p := fun heq => by
      rw [heq, hP] at hQ
      cases hQ
      exact hxp hin
    exact ⟨_, hp.survives hQ hqp, mem_survivor_children_of_ne hne hin⟩
  · obtain ⟨Q, hQ, hqp, rfl⟩ := hp.survived hQ'
    have hin := mem_survivor_children hc
    obtain ⟨C, hC, hCq⟩ := h.child q Q c hQ hin
    have hcp : c ≠ p := fun heq => h.not_mem_survivor hP hQ hqp (heq ▸ hc)
    refine ⟨_, hp.survives hC hcp, ?_⟩
    have hcc : c ∉ pcb.children := fun hself => hqp (h.parent_unique hQ hin hP hself)
    simp only [survivor, hcc, ite_false, hCq]
  · obtain ⟨Q, hQ, -, rfl⟩ := hp.survived hQ'
    simp only [survivor]
    split
    · exact (h.nodup q Q hQ).erase p
    · exact h.nodup q Q hQ

/-! ## Every step keeps it -/

theorem ProcessTree.fork (h : ProcessTree k) (hf : k.fork env = .ok k') : ProcessTree k' := by
  obtain ⟨cur, hcur, hcase⟩ := fork_cases hf
  obtain ⟨-, -, -, -, hpcb⟩ := process_spec hcur
  rcases hcase with ⟨-, rfl⟩ | ⟨S, vm, mem, -, ⟨-, rfl⟩ | ⟨i, hi, hm, -, rfl⟩⟩
  · exact h.congr rfl rfl rfl (Nat.le_refl _)
  · exact h.congr rfl rfl rfl (Nat.le_add_right _ 3)
  · have hnew : k.nextId ≤ k.nextId + 2 := Nat.le_add_right _ 2
    exact h.addChild ⟨hpcb, h.fresh _ hnew, rfl⟩ hnew hi hm rfl rfl (Nat.lt_succ_self _)

theorem ProcessTree.tearDown (h : ProcessTree k) {p s : Nat} {pcb : PCB} {S : AddrSpace}
    {status : Option (BitVec 32)} (hp : k.pcbs p = some pcb)
    (ht : k.tearDown pcb.processID p pcb s S status = .ok k') : ProcessTree k' := by
  obtain ⟨i, b, pcbs', hi, hlt, -, hpcbs, rfl⟩ := tearDown_spec hp ht
  exact h.removed hp hi hlt hpcbs rfl rfl (Nat.le_refl _)

theorem ProcessTree.exit (h : ProcessTree k) (he : k.exit = .ok k') : ProcessTree k' := by
  obtain ⟨cur, k₁, n, rest, hcur, htear, -, hd⟩ := exit_cases he
  have h₁ := h.tearDown (process_spec hcur).2.2.2.2 htear
  obtain ⟨r, pt, m, ths, d, c, rfl⟩ := hd.rest
  exact h₁.congr rfl rfl rfl (Nat.le_refl _)

theorem ProcessTree.kill (h : ProcessTree k) (hk : k.kill = .ok k') : ProcessTree k' := by
  obtain ⟨cur, hcur, hcase⟩ := kill_cases hk
  rcases hcase with rfl | ⟨-, he⟩ | ⟨p, pcb, T, s, S, k₁, hg, -, hp, -, -, -, htear, rfl⟩
  · exact h.congr rfl rfl rfl (Nat.le_refl _)
  · exact h.exit he
  · rw [← h.processID_eq hg hp] at htear
    exact (h.tearDown hp htear).congr rfl rfl rfl (Nat.le_refl _)

theorem ProcessTree.exec (h : ProcessTree k) (he : k.exec env = .ok k') : ProcessTree k' := by
  obtain ⟨cur, S, r, -, -, ⟨-, rfl⟩ | ⟨vm, mem, -, rfl⟩⟩ := exec_cases he
  · exact h.congr rfl rfl rfl (Nat.le_refl _)
  · exact h.congr rfl rfl rfl (Nat.le_refl _)

theorem ProcessTree.step (h : ProcessTree k) (hs : step env k = .ok k') : ProcessTree k' :=
  step_preserves (fun hq h => h.congr hq.pcbs hq.pcbTable hq.pids hq.nextId.ge)
    ProcessTree.fork ProcessTree.exec ProcessTree.exit ProcessTree.kill h hs

/-! ## Runs -/

theorem ProcessTree.start {b : Boot}
    (h : startProcess b.env (boot b.junk b.junkTable b.junkRegisters) b.filename = .ok k) :
    ProcessTree k := by
  obtain ⟨file, S, hs⟩ := startProcess_spec h
  obtain ⟨hn, hm⟩ := BitMap.marked_new numPids b.junk
  have hmark : k.pids.marked = {0} := by
    rw [hs.pids, BitMap.marked_markBit _ (by rw [hn]; decide), hm]
    rfl
  have hone : ∀ x P, k.pcbs x = some P → x = 1 ∧ P = ⟨0, 0, none, [], false, b.env.junkExitValue⟩ := by
    intro x P hP
    rw [hs.pcbs] at hP
    by_cases hx : x = 1
    · rw [hx, Function.update_self, Option.some.injEq] at hP
      exact ⟨hx, hP.symm⟩
    · rw [Function.update_of_ne hx] at hP
      cases hP
  refine ⟨by rw [hs.pids, BitMap.numBits_markBit, hn], fun i hi => ?_, fun p P hP => ?_, fun i hi => ?_,
    fun p P q hP hq => ?_, fun q Q c hQ hc => ?_, fun q Q hQ => ?_⟩
  · rw [hs.nextId] at hi
    rw [hs.pcbs, Function.update_of_ne (by omega)]
  · obtain ⟨rfl, rfl⟩ := hone p P hP
    exact ⟨0, rfl, by rw [hmark]; exact Finset.mem_singleton_self 0, by
      rw [hs.pcbTable, Function.update_self]⟩
  · rw [hmark, Finset.mem_singleton] at hi
    exact ⟨1, _, by rw [hs.pcbs, Function.update_self], by rw [hi]; rfl⟩
  · obtain ⟨rfl, rfl⟩ := hone p P hP
    cases hq
  · obtain ⟨rfl, rfl⟩ := hone q Q hQ
    cases hc
  · obtain ⟨rfl, rfl⟩ := hone q Q hQ
    exact List.nodup_nil

/-- `fork` adds at most a child to a process that was there. -/
theorem ProcessTree.fork_pcbs (h : ProcessTree k) (hf : k.fork env = .ok k') {p : Nat} {P : PCB}
    (hP : k.pcbs p = some P) :
    ∃ cs d, k'.pcbs p = some { P with children := P.children ++ cs, lastDeleted := d } := by
  rcases fork_processes hf with ⟨hp, -⟩ | ⟨cur, S, r, i, hpr, hp, -⟩
  · exact ⟨[], P.lastDeleted, by rw [hp, hP, List.append_nil]⟩
  · obtain ⟨-, -, -, -, hcur⟩ := process_spec hpr
    have hpn : p ≠ k.nextId + 2 := fun heq => by
      rw [heq, h.fresh _ (Nat.le_add_right _ 2)] at hP
      cases hP
    rw [hp, Function.update_of_ne hpn]
    by_cases hpq : p = cur.pcbId
    · rw [hpq, hcur] at hP
      cases hP
      exact ⟨[k.nextId + 2], false, by rw [hpq, Function.update_self]⟩
    · exact ⟨[], P.lastDeleted, by rw [Function.update_of_ne hpq, hP, List.append_nil]⟩

theorem ProcessTree.run {b : Boot} {envs : List Env} (h : runs b envs = some k) : ProcessTree k :=
  runs_invariant (G := fun _ => True) (fun _ hk => ProcessTree.start hk)
    (fun _ _ _ hk _ hs => hk.step hs) (fun _ _ => trivial) h

end Nachos.Kernel
