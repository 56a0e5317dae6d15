import Nachos.Network.AtRest
import Nachos.Threads.Renaming

/-!
# Programs whose calls may fail (network/post.cc)

`Send` asserts that the mail is not too long, and `Send` and `Receive` that the mailbox
exists. A program that would fail an assertion can be stopped before it does
(`Script.guard`); as long as no assertion has failed, nobody can tell the difference:

* `guard_valid`: a guarded program makes valid calls only;
* `run_guard`: a run of any programs is a run of the guarded ones, so that what holds of
  valid programs in every run holds of all.
-/

namespace Nachos.Network

open Nachos.Framework Nachos.Threads

variable {numBoxes : Int} {h : Host} {x : Setup} {n n' : Net}

/-- The program, which is done where an assertion would fail. -/
def Script.guard (numBoxes : Int) : Script → Script
  | .done => .done
  | .send pktHdr mailHdr data next =>
    if mailHdr.length.toNat ≤ maxMailSize ∧ 0 ≤ mailHdr.to_.toInt ∧ mailHdr.to_.toInt < numBoxes then
      .send pktHdr mailHdr data (next.guard numBoxes)
    else .done
  | .receive box next =>
    if 0 ≤ box.toInt ∧ box.toInt < numBoxes then .receive box fun letter => (next letter).guard numBoxes
    else .done

theorem guard_valid (script : Script) : (script.guard numBoxes).Valid numBoxes := by
  induction script with
  | done => exact .done
  | send pktHdr mailHdr data next ih =>
    unfold Script.guard
    split
    next hcond => exact .send hcond.1 hcond.2 ih
    next => exact .done
  | receive box next ih =>
    unfold Script.guard
    split
    next hcond => exact .receive hcond ih
    next => exact .done

/-- The places of a guarded program. -/
def Loc.guard (numBoxes : Int) : Loc → Loc
  | .boot scripts => .boot (scripts.map (·.guard numBoxes))
  | .main scripts => .main (scripts.map (·.guard numBoxes))
  | .idle script => .idle (script.guard numBoxes)
  | .sendLocked pktHdr buffer letter next => .sendLocked pktHdr buffer letter (next.guard numBoxes)
  | .sent next => .sent (next.guard numBoxes)
  | .remove box next => .remove box fun letter => (next letter).guard numBoxes
  | .got mail next => .got mail fun letter => (next letter).guard numBoxes
  | .await => .await
  | .deliver => .deliver
  | .append mail => .append mail
  | .signalled box => .signalled box

/-- A call that passes its assertions is the same when it is guarded. -/
theorem call_guard {script : Script} {m m' : Office} {i : Instr Sem Lock MailBoxAddress Loc} {next : Loc}
    (hcode : h.call script m = some (m', i, next)) :
    h.call (script.guard h.numBoxes) m = some (m', i.map (Loc.guard h.numBoxes), next.guard h.numBoxes) := by
  cases script with
  | done =>
    cases hcode
    rfl
  | send pktHdr mailHdr data next =>
    unfold Host.call at hcode
    dsimp only at hcode
    split at hcode
    next hcond =>
      cases hcode
      have hguard : mailHdr.length.toNat ≤ maxMailSize ∧ 0 ≤ mailHdr.to_.toInt ∧ mailHdr.to_.toInt < h.numBoxes :=
        ⟨hcond.1, of_decide_eq_true hcond.2⟩
      rw [Script.guard, if_pos hguard]
      exact if_pos hcond
    next => cases hcode
  | receive box next =>
    unfold Host.call at hcode
    dsimp only at hcode
    split at hcode
    next hcond =>
      cases hcode
      have hguard : 0 ≤ box.toInt ∧ box.toInt < h.numBoxes := of_decide_eq_true hcond
      rw [Script.guard, if_pos hguard]
      exact if_pos hcond
    next => cases hcode

theorem renames_guard (h : Host) : Renames h.program h.program (Loc.guard h.numBoxes) where
  handler := rfl
  code := by
    intro t loc m m' i next hcode
    cases loc with
    | boot scripts =>
      cases hcode
      rfl
    | main scripts =>
      cases scripts with
      | nil =>
        cases hcode
        rfl
      | cons script scripts =>
        cases hcode
        rfl
    | idle script =>
      have hcall : h.call script m = some (m', i, next) := hcode
      exact call_guard hcall
    | sendLocked pktHdr buffer letter script =>
      obtain ⟨m₁, hsend, heq⟩ := Option.map_eq_some_iff.mp hcode
      cases heq
      exact Option.map_eq_some_iff.mpr ⟨m₁, hsend, rfl⟩
    | sent script =>
      cases hcode
      rfl
    | remove box f =>
      have hcode : removeLoop box f m = (m', i, next) := Option.some.inj hcode
      cases hlist : m.messages box with
      | nil =>
        simp only [removeLoop, hlist] at hcode
        cases hcode
        simp only [Host.program, Loc.guard, removeLoop, hlist]
        rfl
      | cons mail rest =>
        simp only [removeLoop, hlist] at hcode
        cases hcode
        simp only [Host.program, Loc.guard, removeLoop, hlist]
        rfl
    | got mail f =>
      unfold Host.program at hcode ⊢
      dsimp only [Loc.guard] at hcode ⊢
      split at hcode
      next hlen =>
        rw [if_pos hlen]
        exact call_guard hcode
      next => cases hcode
    | await =>
      cases hcode
      rfl
    | deliver =>
      have hcode : h.deliver m = some (m', i, next) := hcode
      have hgoal : h.deliver m = some (m', i.map (Loc.guard h.numBoxes), next.guard h.numBoxes) := by
        rw [hcode]
        unfold Host.deliver at hcode
        dsimp only at hcode
        split at hcode
        · cases hcode
          rfl
        · cases hcode
      exact hgoal
    | append mail =>
      cases hcode
      rfl
    | signalled box =>
      cases hcode
      rfl

/-! ## Networks -/

def Setup.guard (x : Setup) : Setup := { x with
  scripts := fun a => (x.scripts a).map (·.guard x.numBoxes) }

def Net.guard (n : Net) (numBoxes : Int) : Net := fun a => (n a).map (Loc.guard numBoxes)

theorem move_guard (n : Net) (v : NetMove) : (n.guard numBoxes).move v = n.move v := by
  cases v with
  | thread _ _ | sendDone _ => rfl
  | poll a source => cases source <;> rfl

theorem next_guard {v : NetMove} (hnext : x.next v n = some n') :
    x.guard.next v (n.guard x.numBoxes) = some (n'.guard x.numBoxes) := by
  obtain ⟨a, w, u, hmove, hu, rfl⟩ := next_eq_some hnext
  have hmap := Core.next_map (renames_guard (x.host a)) hu
  unfold Setup.next
  rw [move_guard, hmove]
  show (((n.guard x.numBoxes) a).next (x.host a).program w).bind _ = _
  rw [show ((n.guard x.numBoxes) a).next (x.host a).program w = _ from hmap]
  refine congrArg some ?_
  funext b
  unfold Net.guard
  by_cases hb : b = a
  · subst hb
    rw [Function.update_self, Function.update_self]
    rfl
  · rw [Function.update_of_ne hb, Function.update_of_ne hb]

theorem start_guard (x : Setup) : x.start.guard x.numBoxes = x.guard.start := by
  funext a
  exact Core.new_map _ _ _

/-- A run in which no assertion fails is a run of the guarded programs. -/
theorem run_guard {ms : List NetMove} (hrun : run x.next ms x.start = some n) :
    run x.guard.next ms x.guard.start = some (n.guard x.numBoxes) := by
  rw [← start_guard]
  generalize x.start = n₀ at hrun
  induction ms generalizing n₀ with
  | nil =>
    rw [run_nil, Option.some.injEq] at hrun
    rw [run_nil, hrun]
  | cons v ms ih =>
    obtain ⟨n₁, hnext, hrun⟩ := run_cons_eq_some.mp hrun
    exact run_cons_eq_some.mpr ⟨_, next_guard hnext, ih n₁ hrun⟩

/-- Other than at a call, a guarded program fails the assertions that the program fails. -/
theorem code_isSome_of_guard {t : ThreadId} {loc : Loc} {m : Office} (hidle : ∀ script, loc ≠ .idle script)
    (hgot : ∀ mail f, loc ≠ .got mail f)
    (hsome : (h.program.code t (loc.guard numBoxes) m).isSome) : (h.program.code t loc m).isSome := by
  cases loc with
  | idle script => exact absurd rfl (hidle script)
  | got mail f => exact absurd rfl (hgot mail f)
  | main scripts => cases scripts <;> rfl
  | sendLocked pktHdr buffer letter script =>
    unfold Host.program at hsome ⊢
    dsimp only [Loc.guard] at hsome ⊢
    rwa [Option.isSome_map] at hsome ⊢
  | deliver => exact hsome
  | boot _ | sent _ | remove _ _ | await | append _ | signalled _ => rfl

theorem allAsleep_guard {a : NetworkAddress} (hsleep : (n a).AllAsleep) : (n.guard numBoxes a).AllAsleep := by
  intro t hborn
  rw [Net.guard, Core.asleep_map]
  refine hsleep t fun hpc => hborn ?_
  rw [Net.guard, Core.map_pc, hpc]
  rfl

theorem setup_guard_valid (x : Setup) (a : NetworkAddress) :
    ∀ script ∈ x.guard.scripts a, script.Valid x.guard.numBoxes := by
  intro script hmem
  obtain ⟨script, -, rfl⟩ := List.mem_map.mp hmem
  exact guard_valid script

/-- What a machine has received, another has sent, whatever the programs are. -/
theorem mem_posts_of_received {ms : List NetMove} {a : NetworkAddress} {k : MailBoxAddress} {letter : Letter}
    (hrun : run x.next ms x.start = some n) (hletter : letter ∈ (n a).mem.received k) :
    letter ∈ (n letter.pktHdr.from_).mem.posts.map Prod.fst ∧ letter.pktHdr.to_ = a ∧ letter.mailHdr.to_ = k := by
  have hn := run_alive (setup_guard_valid x) (run_guard hrun)
  have hmem : letter ∈ ((n a).mem.received k).filter (·.pktHdr.from_ = letter.pktHdr.from_) :=
    List.mem_filter.mpr ⟨hletter, decide_eq_true rfl⟩
  obtain ⟨hposts, haddr⟩ := List.mem_filter.mp ((hn.linked.received_sublist letter.pktHdr.from_ a k).subset hmem)
  exact ⟨hposts, of_decide_eq_true haddr⟩

end Nachos.Network
