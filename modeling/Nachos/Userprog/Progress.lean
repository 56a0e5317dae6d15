import Nachos.Userprog.Frames
import Nachos.Userprog.Replace

/-!
# Where the kernel does not stop (userprog/exception.cc, threads/scheduler.cc)

In every state that can be reached, the pointers that a system call follows lead
somewhere, and the assertions hold on the way.

* `Owning.current_ok`: the pointers from the running thread to its process;
* `Owning.tearDown_isOk`, `Steady.yield_isOk`, `Steady.exit_isOk`: ending a process and
  changing threads;
* `Steady`: what the loop of `join` and the deletion of finished threads rely on;
  it holds after every run (`Steady.run`).
-/

namespace Nachos.Kernel

open Nachos.Framework

variable {env : Env} {k k' : Kernel}

/-! ## Finding processes -/

theorem getProcess_of_notMem {i : Nat} (hi : i < k.pids.numBits) (hm : i ∉ k.pids.marked) :
    k.getProcess i = .ok none := by
  rw [getProcess, BitMap.test_eq hi, decide_eq_false hm]
  rfl

/-- A process that is alive is found under its PID. -/
theorem ProcessTree.getProcess_eq (h : ProcessTree k) {p : Nat} {P : PCB} (hP : k.pcbs p = some P) :
    k.getProcess P.processID = .ok (some p) := by
  obtain ⟨i, hi, hm, ht⟩ := h.pid p P hP
  have hlt := Finset.mem_range.mp (k.pids.marked_subset hm)
  rw [getProcess, hi, BitMap.test_eq hlt, decide_eq_true hm]
  show Except.ok (k.pcbTable (i : Int).toNat) = _
  rw [Int.toNat_natCast, ht]

/-- The thread of a process leads to it. -/
theorem Owning.process_ok (ho : Owning k) {p : Nat} {P : PCB} (hP : k.pcbs p = some P) :
    ∃ pr, k.process P.processThread = .ok pr ∧ pr.pcb = P := by
  obtain ⟨s, S, hs, hS, hSp⟩ := ho.linked.link p P hP
  obtain ⟨T, hT, hTs⟩ := Option.bind_eq_some_iff.mp hs
  refine ⟨⟨T, s, S, p, P⟩, ?_, rfl⟩
  simp only [process, hT, deref, bind, Except.bind, hTs, hS, hSp, hP]

theorem Owning.eq_of_thread (ho : Owning k) {p q : Nat} {P Q : PCB} (hP : k.pcbs p = some P)
    (hQ : k.pcbs q = some Q) (hth : P.processThread = Q.processThread) : p = q := by
  obtain ⟨s, S, hs, -, -⟩ := ho.linked.link p P hP
  exact ho.linked.eq_of_space hP hQ hs (hth ▸ hs)

/-- So the running thread leads to the process it belongs to. -/
theorem Owning.current_ok (ho : Owning k) : ∃ cur, k.process k.currentThread = .ok cur := by
  obtain ⟨p, P, hP, hth⟩ := (ho.linked.runnable k.currentThread).mp List.mem_cons_self
  obtain ⟨cur, hcur, -⟩ := ho.process_ok hP
  exact ⟨cur, hth ▸ hcur⟩

/-! ## Ending a process -/

theorem nullParent_foldlM_isOk {cs : List Nat} {pcbs : Nat → Option PCB}
    (h : ∀ c ∈ cs, pcbs c ≠ none) : ∃ pcbs', cs.foldlM nullParent pcbs = .ok pcbs' := by
  induction cs generalizing pcbs with
  | nil => exact ⟨_, rfl⟩
  | cons c cs ih =>
    obtain ⟨P, hP⟩ := Option.ne_none_iff_exists'.mp (h c List.mem_cons_self)
    rw [List.foldlM_cons, nullParent, hP, deref_some, ok_bind, ok_bind]
    refine ih fun x hx => ?_
    by_cases hxc : x = c
    · rw [hxc, Function.update_self]
      exact Option.some_ne_none _
    · rw [Function.update_of_ne hxc]
      exact h x (List.mem_cons_of_mem _ hx)

theorem leaveParent_isOk {pcbs : Nat → Option PCB} {p : Nat} {status : Option (BitVec 32)}
    {parent : Option Nat} (h : ∀ q, parent = some q → pcbs q ≠ none) :
    ∃ pcbs', leaveParent pcbs p status parent = .ok pcbs' := by
  cases parent with
  | none => exact ⟨_, rfl⟩
  | some q =>
    obtain ⟨Q, hQ⟩ := Option.ne_none_iff_exists'.mp (h q rfl)
    rw [leaveParent, hQ, deref_some, ok_bind]
    exact ⟨_, rfl⟩

/-- Its children, its parent, its PID and its frames are all there. -/
theorem Owning.tearDown_isOk (ho : Owning k) {p s : Nat} {P : PCB} {S : AddrSpace}
    (hP : k.pcbs p = some P) (hS : k.spaces s = some S) (status : Option (BitVec 32)) :
    ∃ k', k.tearDown P.processID p P s S status = .ok k' := by
  obtain ⟨pcbs₁, hfold⟩ : ∃ pcbs₁, P.children.foldlM nullParent k.pcbs = .ok pcbs₁ := by
    refine nullParent_foldlM_isOk fun c hc => ?_
    obtain ⟨C, hC, -⟩ := ho.tree.child p P c hP hc
    rw [hC]
    exact Option.some_ne_none C
  have hnull := nullParent_foldlM hfold
  obtain ⟨pcbs₂, hparent⟩ : ∃ pcbs₂, leaveParent pcbs₁ p status
      (if p ∈ P.children then none else P.parentProcess) = .ok pcbs₂ := by
    refine leaveParent_isOk fun q hq => ?_
    split at hq
    · cases hq
    · obtain ⟨Q, hQ, -⟩ := ho.tree.parent p P q hP hq
      rw [hnull, hQ]
      exact Option.some_ne_none _
  obtain ⟨i, hi, hm, -⟩ := ho.tree.pid p P hP
  have hlt := Finset.mem_range.mp (k.pids.marked_subset hm)
  obtain ⟨b, hrel⟩ := releasePhysicalMemory_isOk S.pageTable ho.frames.numBits
    fun f hf => ho.frames.mem_lt hS hf
  rw [tearDown, hfold, ok_bind, hnull, hP, Option.map_some, deref_some, ok_bind, hparent, ok_bind,
    hi, BitMap.clear_eq hlt, ok_bind, hrel, ok_bind]
  exact ⟨_, rfl⟩

/-! ## Changing threads -/

theorem ne_none_of_place {x y : Option Thread} (h : x.map Thread.place = y.map Thread.place)
    (hy : y ≠ none) : x ≠ none := by
  rintro rfl
  rw [Option.map_none, eq_comm, Option.map_eq_none_iff] at h
  exact hy h

theorem Saves.exists_place {T N : Thread} {ths : Nat → Option Thread} {t : Nat} (h : Saves k T ths)
    (hN : k.threads t = some N) : ∃ N', ths t = some N' ∧ Thread.place N' = Thread.place N := by
  have hplace := h.place t
  rw [hN, Option.map_some, Option.map_eq_some_iff] at hplace
  exact hplace

/-- The thread that runs next has an address space, and the thread to be destroyed is another. -/
theorem dispatch_isOk {n s : Nat} {S : AddrSpace} (hcur : k.threads k.currentThread ≠ none)
    (hn : k.spaceOf n = some s) (hS : k.spaces s = some S)
    (hd : ∀ t, k.threadToBeDestroyed = some t → k.threads t ≠ none ∧ t ≠ n) :
    ∃ k', k.dispatch n = .ok k' := by
  obtain ⟨T, hT⟩ := Option.ne_none_iff_exists'.mp hcur
  obtain ⟨N, hN, hNs⟩ := Option.bind_eq_some_iff.mp hn
  obtain ⟨ths, hths, hsaves⟩ := saves_spec hT
  obtain ⟨N', hN', heq⟩ := hsaves.exists_place hN
  have hspace : N'.space = N.space := congrArg Prod.fst heq
  rw [dispatch, hT, deref_some, ok_bind, hths]
  dsimp only
  rw [hN', deref_some, ok_bind]
  cases hres : N'.resume with
  | none => exact ⟨_, rfl⟩
  | some p =>
    obtain ⟨k₂, hreap, hspaces⟩ : ∃ k₂, reap { k with threads := ths, currentThread := n } = .ok k₂ ∧
        k₂.spaces = k.spaces := by
      unfold reap
      dsimp only
      cases ht : k.threadToBeDestroyed with
      | none => exact ⟨_, rfl, rfl⟩
      | some t =>
        obtain ⟨U, hU⟩ := Option.ne_none_iff_exists'.mp (ne_none_of_place (hsaves.place t)
          (hd t ht).1)
        dsimp only
        rw [hU, deref_some, ok_bind, assert, if_pos (hd t ht).2, ok_bind]
        exact ⟨_, rfl, rfl⟩
    dsimp only
    rw [hreap, ok_bind, hspace, hNs]
    dsimp only
    rw [hspaces, hS, deref_some, ok_bind]
    exact ⟨_, rfl⟩

/-- Where the threads go on after it: as before, but one may have been destroyed. -/
theorem dispatch_place {n : Nat} (h : k.dispatch n = .ok k') :
    (∀ t, k'.threads t = none ∨ (k'.threads t).map Thread.place = (k.threads t).map Thread.place) ∧
    (k'.threadToBeDestroyed = none ∨ k'.threadToBeDestroyed = k.threadToBeDestroyed ∧
      ∀ t, (k'.threads t).map Thread.place = (k.threads t).map Thread.place) ∧
    (k'.control = .tick .threadRoot ∨ ∃ N p, k.threads n = some N ∧ N.resume = some p ∧
      k'.control = .tick p) := by
  unfold dispatch at h
  obtain ⟨T, hT, h⟩ := bind_eq_ok.mp h
  rw [deref_eq_ok] at hT
  obtain ⟨ths, hths, hsaves⟩ := saves_spec hT
  rw [hths] at h
  obtain ⟨N, hN, h⟩ := bind_eq_ok.mp h
  rw [deref_eq_ok] at hN
  obtain ⟨N₀, hN₀, heq⟩ : ∃ N₀, k.threads n = some N₀ ∧
      Thread.place N₀ = Thread.place N := by
    have hplace := hsaves.place n
    rw [show ths n = some N from hN, Option.map_some, eq_comm, Option.map_eq_some_iff] at hplace
    exact hplace
  have hresume : N₀.resume = N.resume := congrArg Prod.snd heq
  dsimp only at h
  split at h
  next =>
    cases h
    exact ⟨fun t => .inr (hsaves.place t), .inr ⟨rfl, hsaves.place⟩, .inl rfl⟩
  next p hres =>
    obtain ⟨k₂, hreap, h⟩ := bind_eq_ok.mp h
    obtain ⟨ths', rfl, -, hgone⟩ := reap_spec hreap
    have hthreads : ∀ t, ths' t = none ∨
        (ths' t).map Thread.place = (k.threads t).map Thread.place := by
      intro t
      obtain hnone | hsame := hgone t
      · exact .inl hnone
      · exact .inr ((congrArg _ hsame).trans (hsaves.place t))
    split at h
    next =>
      cases h
      exact ⟨hthreads, .inl rfl, .inr ⟨N₀, p, hN₀, hresume.trans hres, rfl⟩⟩
    next =>
      obtain ⟨S, -, h⟩ := bind_eq_ok.mp h
      cases h
      exact ⟨hthreads, .inl rfl, .inr ⟨N₀, p, hN₀, hresume.trans hres, rfl⟩⟩

/-! ## What holds between the calls -/

/-- The local `pid` of `join` is an index of the process table. -/
def Point.InTable : Point → Prop
  | .joinLoop pid _ => 0 ≤ pid ∧ pid < numPids
  | _ => True

/-- The thread to be destroyed is there, and whoever waits in `join` does so for a possible PID. -/
structure Steady (k : Kernel) : Prop where
  doomed : ∀ t, k.threadToBeDestroyed = some t → k.threads t ≠ none
  control : ∀ p, k.control = .tick p ∨ k.control = .run p → Point.InTable p
  resume : ∀ t T p, k.threads t = some T → T.resume = some p → Point.InTable p

/-- Nothing has changed in the threads but their registers. -/
theorem Steady.congr (h : Steady k)
    (hplace : ∀ t, (k'.threads t).map Thread.place = (k.threads t).map Thread.place)
    (hd : k'.threadToBeDestroyed = k.threadToBeDestroyed)
    (hc : ∀ p, k'.control = .tick p ∨ k'.control = .run p → Point.InTable p) : Steady k' where
  doomed t ht := ne_none_of_place (hplace t) (h.doomed t (hd ▸ ht))
  control := hc
  resume t T p hT hp := by
    have heq := hplace t
    rw [hT, Option.map_some, eq_comm, Option.map_eq_some_iff] at heq
    obtain ⟨T₀, hT₀, heq⟩ := heq
    exact h.resume t T₀ p hT₀ ((congrArg Prod.snd heq).trans hp)

theorem Steady.dispatch {n : Nat} (h : Steady k) (hd : k.dispatch n = .ok k') : Steady k' := by
  obtain ⟨hthreads, hdest, hcontrol⟩ := dispatch_place hd
  refine ⟨fun t ht => ?_, fun p hp => ?_, fun t T p hT hp => ?_⟩
  · rcases hdest with hnone | ⟨heq, hplace⟩
    · rw [hnone] at ht
      cases ht
    · exact ne_none_of_place (hplace t) (h.doomed t (heq ▸ ht))
  · rcases hcontrol with hc | ⟨N, q, hN, hq, hc⟩
    · rw [hc] at hp
      rcases hp with hp | hp <;> cases hp
      trivial
    · rw [hc] at hp
      rcases hp with hp | hp <;> cases hp
      exact h.resume n N p hN hq
  · rcases hthreads t with hnone | heq
    · rw [hnone] at hT
      cases hT
    · rw [hT, Option.map_some, eq_comm, Option.map_eq_some_iff] at heq
      obtain ⟨T₀, hT₀, heq⟩ := heq
      exact h.resume t T₀ p hT₀ ((congrArg Prod.snd heq).trans hp)

theorem Steady.yield {p : Point} (h : Steady k) (hp : Point.InTable p) (hy : k.yield p = .ok k') :
    Steady k' := by
  unfold Kernel.yield at hy
  split at hy
  · cases hy
    refine h.congr (fun _ => rfl) rfl fun q hq => ?_
    rcases hq with hq | hq <;> cases hq
    exact hp
  next n rest hr =>
    obtain ⟨_, -, hy⟩ := bind_eq_ok.mp hy
    obtain ⟨T, hT, hy⟩ := bind_eq_ok.mp hy
    rw [deref_eq_ok] at hT
    refine Steady.dispatch (k := { k with readyList := rest ++ [k.currentThread], lastDeleted := false }.setThread
      k.currentThread { T with resume := some p })
      ⟨fun t ht => ?_, h.control, fun t U q hU hq => ?_⟩ hy
    · show Function.update k.threads k.currentThread _ t ≠ none
      by_cases htc : t = k.currentThread
      · rw [htc, Function.update_self]
        exact Option.some_ne_none _
      · rw [Function.update_of_ne htc]
        exact h.doomed t ht
    · change Function.update k.threads k.currentThread _ t = some U at hU
      by_cases htc : t = k.currentThread
      · rw [htc, Function.update_self] at hU
        cases hU
        cases hq
        exact hp
      · rw [Function.update_of_ne htc] at hU
        exact h.resume t U q hU hq

theorem Steady.finish (h : Steady k) (hcur : k.threads k.currentThread ≠ none)
    (hf : k.finish = .ok k') : Steady k' := by
  unfold Kernel.finish at hf
  split at hf
  · cases hf
  next n rest _ =>
    refine Steady.dispatch (k := { k with
      threadToBeDestroyed := some k.currentThread, readyList := rest })
      ⟨fun t ht => ?_, h.control, h.resume⟩ hf
    cases ht
    exact hcur

/-- Only the running thread goes on, at a point that is as it should be. -/
theorem Steady.goes {q : Point} (h : Steady k) (hthreads : k'.threads = k.threads)
    (hd : k'.threadToBeDestroyed = k.threadToBeDestroyed)
    (hc : k'.control = .tick q ∨ k'.control = .run q) (hq : Point.InTable q) : Steady k' := by
  refine h.congr (fun t => by rw [hthreads]) hd fun p hp => ?_
  rcases hc with hc | hc <;> rw [hc] at hp <;> rcases hp with hp | hp <;> cases hp <;> exact hq

theorem Steady.exit (h : Steady k) (he : k.exit = .ok k') : Steady k' := by
  unfold Kernel.exit at he
  obtain ⟨cur, hcur, he⟩ := bind_eq_ok.mp he
  obtain ⟨hT, -, -, -, hP⟩ := process_spec hcur
  obtain ⟨k₁, htear, he⟩ := bind_eq_ok.mp he
  obtain ⟨i, b, pcbs', -, -, -, -, rfl⟩ := tearDown_spec hP htear
  refine Steady.finish (k := { k with
    pcbs := pcbs', pcbTable := Function.update k.pcbTable i none, pids := k.pids.clearBit i
    virtMem := b, spaces := Function.update k.spaces cur.spaceId none }) ⟨h.doomed, h.control, h.resume⟩
    (fun hnone => ?_) he
  rw [show k.threads k.currentThread = none from hnone] at hT
  cases hT

theorem Steady.kill (h : Steady k) (hk : k.kill = .ok k') : Steady k' := by
  obtain ⟨cur, -, rfl | ⟨-, he⟩ | ⟨p, P, T, s, S, k₁, -, -, hP, hT, -, -, htear, rfl⟩⟩ := kill_cases hk
  · exact h.goes rfl rfl (.inl rfl) trivial
  · exact h.exit he
  · obtain ⟨i, b, pcbs', -, -, -, -, rfl⟩ := tearDown_spec hP htear
    refine ⟨fun t ht => ?_, fun q hq => ?_, h.resume⟩
    · cases ht
      exact fun hnone => by
        rw [show k.threads P.processThread = none from hnone] at hT
        cases hT
    · rcases hq with hq | hq <;> cases hq
      trivial

theorem Steady.fork (h : Steady k) (hf : k.fork env = .ok k') : Steady k' := by
  obtain ⟨cur, hcur, hcase⟩ := fork_cases hf
  obtain ⟨hT, -⟩ := process_spec hcur
  -- the registers of the caller are saved
  have hsaved : Steady (k.setThread k.currentThread { cur.thread with userRegisters := k.registers }) := by
    refine h.congr (fun t => ?_) rfl h.control
    show (Function.update k.threads k.currentThread _ t).map Thread.place = _
    by_cases ht : t = k.currentThread
    · rw [ht, Function.update_self, hT]
      rfl
    · rw [Function.update_of_ne ht]
  -- a new thread has not run yet
  have hnew : ∀ {k₁ k₂ : Kernel} {n : Nat} {r : Registers} {s : Option Nat} {q : Point}, Steady k₁ →
      k₂.threads = Function.update k₁.threads n (some ⟨r, s, none⟩) →
      k₂.threadToBeDestroyed = k₁.threadToBeDestroyed → k₂.control = .tick q → Point.InTable q →
      Steady k₂ := by
    intro k₁ k₂ n r s q h₁ hthreads hd hc hq
    refine ⟨fun t ht => ?_, fun p hp => ?_, fun t T p hT hp => ?_⟩
    · rw [hthreads]
      by_cases htn : t = n
      · rw [htn, Function.update_self]
        exact Option.some_ne_none _
      · rw [Function.update_of_ne htn]
        exact h₁.doomed t (hd ▸ ht)
    · rw [hc] at hp
      rcases hp with hp | hp <;> cases hp
      exact hq
    · rw [hthreads] at hT
      by_cases htn : t = n
      · rw [htn, Function.update_self] at hT
        cases hT
        cases hp
      · rw [Function.update_of_ne htn] at hT
        exact h₁.resume t T p hT hp
  rcases hcase with ⟨-, rfl⟩ | ⟨S, vm, mem, -, ⟨-, rfl⟩ | ⟨i, -, -, -, rfl⟩⟩
  · exact hsaved.goes rfl rfl (.inl rfl) trivial
  · exact hnew hsaved rfl rfl rfl trivial
  · exact hnew hsaved (Function.update_idem _ _ _) rfl rfl trivial

theorem Steady.step (h : Steady k) (ho : Owning k) (hs : Kernel.step env k = .ok k') : Steady k' := by
  rcases step_cases hs with ⟨p, hc, hs⟩ | ⟨p, hp, hc, hs⟩ | ⟨-, hc', hu⟩ | ⟨e, he, hs⟩
  · have hpt := h.control p (.inl hc)
    unfold oneTick at hs
    split at hs
    · obtain ⟨r, -, hs⟩ := bind_eq_ok.mp hs
      exact Steady.yield (k := { k with registers := r }) ⟨h.doomed, h.control, h.resume⟩ hpt hs
    · cases hs
      exact h.goes rfl rfl (.inr rfl) hpt
  · have hpt := h.control p (.inr hc)
    cases p with
    | user => exact absurd rfl hp
    | yieldTail =>
      cases hs
      exact h.goes rfl rfl (.inl rfl) trivial
    | joinLoop pid c =>
      rcases joinLoop_cases hs with ⟨x, -, hy⟩ | ⟨-, cur, -, rfl⟩
      · exact h.yield hpt hy
      · exact h.goes rfl rfl (.inl rfl) trivial
    | forkTail pid =>
      obtain ⟨T, -, hs⟩ := bind_eq_ok.mp hs
      cases hs
      exact h.goes rfl rfl (.inl rfl) trivial
    | threadRoot =>
      obtain ⟨T, -, hs⟩ := bind_eq_ok.mp hs
      obtain ⟨s, -, hs⟩ := bind_eq_ok.mp hs
      obtain ⟨S, -, hs⟩ := bind_eq_ok.mp hs
      cases hs
      exact h.goes rfl rfl (.inr rfl) trivial
  · obtain ⟨r, mem, spaces, c, rfl⟩ := hu.rest
    exact h.goes rfl rfl (.inl hc') trivial
  · obtain ⟨-, hc, hu, -⟩ := syscallEntry_spec he
    have ho : Owning e := hu.quiet.owning ho
    replace h : Steady e := by
      obtain ⟨r, mem, spaces, c, rfl⟩ := hu.rest
      exact h.goes rfl rfl (.inr hc) trivial
    rcases syscall_cases hs with ⟨-, hs⟩ | ⟨-, hs⟩ | ⟨-, hs⟩ | ⟨-, rfl⟩ |
        ⟨-, hs⟩ | ⟨-, hs⟩ | ⟨-, hs⟩
    · exact h.exit hs
    · obtain ⟨cur, S, r, -, -, ⟨-, rfl⟩ | ⟨vm, mem, -, rfl⟩⟩ := exec_cases hs
      · exact h.goes rfl rfl (.inl rfl) trivial
      · exact h.goes rfl rfl (.inl rfl) trivial
    · obtain ⟨cur, -, rfl | ⟨c, hpid, hg, -, rfl⟩⟩ := join_cases hs
      · exact h.goes rfl rfl (.inl rfl) trivial
      · obtain ⟨i, hi, hlt, -⟩ := getProcess_spec hg
        rw [ho.tree.size] at hlt
        refine h.goes rfl rfl (.inr rfl) ⟨hpid, ?_⟩
        omega
    · exact h.goes rfl rfl (.inl rfl) trivial
    · exact h.fork hs
    · exact h.yield (p := .yieldTail) trivial hs
    · exact h.kill hs

theorem Steady.start {b : Boot}
    (h : startProcess b.env (boot b.junk b.junkTable b.junkRegisters) b.filename = .ok k) :
    Steady k := by
  obtain ⟨file, S, hs⟩ := startProcess_spec h
  refine ⟨fun t ht => ?_, fun p hp => ?_, fun t T p hT hp => ?_⟩
  · rw [hs.threadToBeDestroyed] at ht
    cases ht
  · rw [hs.control] at hp
    rcases hp with hp | hp <;> cases hp
    trivial
  · rw [hs.threads] at hT
    by_cases ht : t = 0
    · rw [ht, Function.update_self] at hT
      cases hT
      cases hp
    · rw [Function.update_of_ne ht] at hT
      cases hT

theorem Steady.run {b : Boot} {envs : List Env} (h : runs b envs = some k) : Steady k :=
  (runs_invariant (I := fun k => Owning k ∧ Steady k) (G := fun _ => True)
    (fun _ hk => ⟨.start hk, .start hk⟩)
    (fun _ _ _ hk _ hs => ⟨hk.1.step hs, hk.2.step hk.1 hs⟩) (fun _ _ => trivial) h).2

/-! ## Calls that return -/

/-- A thread that is ready has an address space, and is not to be destroyed. -/
theorem Linked.ready_isOk (hl : Linked k) {n : Nat} (hn : n ∈ k.readyList) :
    ∃ s S, k.spaceOf n = some s ∧ k.spaces s = some S ∧ k.threadToBeDestroyed ≠ some n := by
  have hmem : n ∈ k.currentThread :: k.readyList := List.mem_cons_of_mem _ hn
  obtain ⟨p, P, hP, rfl⟩ := (hl.runnable n).mp hmem
  obtain ⟨s, S, hs, hS, -⟩ := hl.link p P hP
  exact ⟨s, S, hs, hS, hl.not_doomed hmem⟩

/-- `ReadyToRun` in `Thread::Yield`, which has taken a thread off the ready list, appends to a list whose
`last` points to a deleted element. -/
def YieldsToFreed (k : Kernel) : Prop := k.lastDeleted = true ∧ 2 ≤ k.readyList.length

theorem yield_freed (h : YieldsToFreed k) (p : Point) : k.yield p = .error .freed := by
  obtain ⟨hlast, hlen⟩ := h
  unfold Kernel.yield
  split
  next hr =>
    rw [hr] at hlen
    exact absurd hlen (by decide)
  next n rest hr =>
    rw [hr, List.length_cons] at hlen
    have hne : rest ≠ [] := List.ne_nil_of_length_pos (by omega)
    rw [useLast, if_pos ⟨hlast, hne⟩]
    rfl

theorem Steady.yield_isOk (h : Steady k) (hl : Linked k) (hlast : ¬ YieldsToFreed k) (p : Point) :
    ∃ k', k.yield p = .ok k' := by
  unfold Kernel.yield
  split
  · exact ⟨_, rfl⟩
  next n rest hr =>
    have huse : useLast k.lastDeleted rest = .ok () := by
      refine if_neg fun hfreed => hlast ⟨hfreed.1, ?_⟩
      have := List.length_pos_of_ne_nil hfreed.2
      rw [hr, List.length_cons]
      omega
    rw [huse, ok_bind]
    obtain ⟨s, S, hs, hS, hdoom⟩ := hl.ready_isOk (n := n) (hr ▸ List.mem_cons_self)
    obtain ⟨T, hT⟩ := Option.ne_none_iff_exists'.mp
      (hl.threads_ne_none (t := k.currentThread) List.mem_cons_self)
    rw [hT, deref_some, ok_bind]
    refine dispatch_isOk (s := s) (S := S) ?_ ?_ hS fun t ht => ⟨?_, ?_⟩
    · show Function.update k.threads k.currentThread _ k.currentThread ≠ none
      rw [Function.update_self]
      exact Option.some_ne_none _
    · rw [spaceOf_setThread]
      split
      next heq =>
        rw [heq, spaceOf, hT, Option.bind_some] at hs
        exact hs
      next => exact hs
    · show Function.update k.threads k.currentThread _ t ≠ none
      by_cases htc : t = k.currentThread
      · rw [htc, Function.update_self]
        exact Option.some_ne_none _
      · rw [Function.update_of_ne htc]
        exact h.doomed t ht
    · rintro rfl
      exact hdoom ht

/-- A process that exits halts Nachos when no other thread is ready, and else another one runs. -/
theorem Owning.exit_isOk (ho : Owning k) : k.exit = .error .halt ∨ ∃ k', k.exit = .ok k' := by
  obtain ⟨cur, hcur⟩ := ho.current_ok
  obtain ⟨hT, hTs, hS, -, hP⟩ := process_spec hcur
  obtain ⟨k₁, htear⟩ := ho.tearDown_isOk hP hS (some (k.registers 4))
  obtain ⟨i, b, pcbs', -, -, -, -, rfl⟩ := tearDown_spec hP htear
  rw [Kernel.exit, hcur, ok_bind, htear, ok_bind, finish]
  dsimp only
  cases hr : k.readyList with
  | nil => exact .inl rfl
  | cons n rest =>
    have hn : n ∈ k.readyList := hr ▸ List.mem_cons_self
    obtain ⟨s, S, hs, hS', -⟩ := ho.linked.ready_isOk hn
    have hne : n ≠ k.currentThread := fun heq =>
      (List.nodup_cons.mp ho.linked.nodup).1 (heq ▸ hn)
    -- the address space deleted is that of the process that exits
    have hsne : s ≠ cur.spaceId := by
      intro heq
      obtain ⟨q, Q, hQ, hQt⟩ := (ho.linked.runnable n).mp (List.mem_cons_of_mem _ hn)
      have hcurt := ho.linked.process_eq List.mem_cons_self hcur
      have hcs : k.spaceOf cur.pcb.processThread = some s := by
        rw [hcurt, spaceOf, hT, Option.bind_some, hTs, heq]
      have hq := ho.linked.eq_of_space hQ hP (hQt ▸ hs) hcs
      subst hq
      rw [hP] at hQ
      cases hQ
      exact hne (hQt.symm.trans hcurt)
    refine .inr (dispatch_isOk (s := s) (S := S) ?_ hs ?_ fun t ht => ?_)
    · show k.threads k.currentThread ≠ none
      rw [hT]
      exact Option.some_ne_none _
    · exact (Function.update_of_ne hsne _ _).trans hS'
    · cases ht
      refine ⟨?_, hne.symm⟩
      show k.threads k.currentThread ≠ none
      rw [hT]
      exact Option.some_ne_none _

/-- The process table under a number that is an index of it. -/
theorem Owning.getProcess_isOk (ho : Owning k) {pid : Int} (h₀ : 0 ≤ pid) (h₁ : pid < numPids) :
    (k.getProcess pid = .ok none ∧ ∀ p P, k.pcbs p = some P → P.processID ≠ pid) ∨
      ∃ p P, k.getProcess pid = .ok (some p) ∧ k.pcbs p = some P ∧ P.processID = pid := by
  obtain ⟨i, rfl⟩ := Int.eq_ofNat_of_zero_le h₀
  have hlt : i < k.pids.numBits := by
    rw [ho.tree.size]
    omega
  by_cases hm : i ∈ k.pids.marked
  · obtain ⟨p, P, hP, hid⟩ := ho.tree.owner i hm
    exact .inr ⟨p, P, hid ▸ ho.tree.getProcess_eq hP, hP, hid⟩
  · refine .inl ⟨getProcess_of_notMem hlt hm, fun p P hP hid => ?_⟩
    obtain ⟨j, hj, hjm, -⟩ := ho.tree.pid p P hP
    rw [hid] at hj
    exact hm (Int.ofNat.inj hj ▸ hjm)

/-- Any other number trips the assertion of `BitMap::Test`. -/
theorem Owning.getProcess_trips (ho : Owning k) {pid : Int} (h : ¬ (0 ≤ pid ∧ pid < numPids)) :
    k.getProcess pid = .error .assertion := by
  rw [getProcess, BitMap.test, assert, ho.tree.size, if_neg h]
  rfl

end Nachos.Kernel
