import Nachos.Network.Delivery
import Nachos.Threads.AllAsleep

/-!
# When nothing moves any more (network/post.cc, threads/synch.cc)

A machine is at rest when none of its threads can take a step and its network has no
`SendDone` pending. Then no wakeup was lost: the postal worker waits for mail, and all
other threads that have not finished wait in `Receive`, each at a mailbox that is empty.

* `Live`: the sections of the locks, and who is still to test for what it waits for;
* `next_live`: every move keeps it;
* `AtRest.waits`: where the threads are at rest;
* `postOffice_at_rest`: what a thread that waits for good has received.
-/

namespace Nachos.Network

open Nachos.Framework Nachos.Threads

variable {h : Host} {m m' : Office} {loc next : Loc} {i : Instr Sem Lock MailBoxAddress Loc}
variable {s u : Core Sem Lock MailBoxAddress Office Loc} {t : ThreadId} {box : MailBoxAddress}

/-! ## Places and sections -/

/-- Where the calls that can sleep return to. -/
def At : PC Sem Lock MailBoxAddress Loc → Prop
  | .inP .available next => next = .deliver
  | .inP .sent next => ∃ script, next = .sent script
  | .inAcquire .send next => ∃ pktHdr buffer letter script, next = .sendLocked pktHdr buffer letter script
  | .inAcquire (.box k) next => (∃ f, next = .remove k f) ∨ ∃ mail, next = .append mail ∧ mail.mailHdr.to_ = k
  | .inWait k l next => l = .box k ∧ ∃ f, next = .remove k f
  | _ => True

/-- Between `sendLock->Acquire()` and `sendLock->Release()`. -/
def insideSend : Loc → Bool
  | .sendLocked _ _ _ _ | .sent _ => true
  | _ => false

/-- Between `lock->Acquire()` and `lock->Release()` of the list of a mailbox. -/
def insideBox (box : MailBoxAddress) : Loc → Bool
  | .remove k _ => k = box
  | .append mail => mail.mailHdr.to_ = box
  | .signalled k => k = box
  | _ => false

section

variable (box k : MailBoxAddress)

@[simp] theorem insideBox_remove (f : Letter → Script) : insideBox box (.remove k f) = decide (k = box) := rfl
@[simp] theorem insideBox_append (mail : Mail) :
    insideBox box (.append mail) = decide (mail.mailHdr.to_ = box) := rfl
@[simp] theorem insideBox_signalled : insideBox box (.signalled k) = decide (k = box) := rfl
@[simp] theorem insideBox_got (mail : Mail) (f : Letter → Script) : insideBox box (.got mail f) = false := rfl
@[simp] theorem insideBox_await : insideBox box .await = false := rfl
@[simp] theorem insideBox_deliver : insideBox box .deliver = false := rfl

end

/-- Outside of all sections. -/
structure Idle (loc : Loc) : Prop where
  send : insideSend loc = false
  box : ∀ box, insideBox box loc = false

/-- In the loop of `SynchList::Remove`. -/
def removes (box : MailBoxAddress) : Loc → Bool
  | .remove k _ => k = box
  | _ => false

/-- What a step of a thread does, as far as it matters who wakes whom up. -/
inductive Calls (m : Office) : Loc → Office → Instr Sem Lock MailBoxAddress Loc → Loc → Prop
  | forks {loc start : Loc} {scripts} (hidle : Idle loc) (hstart : Idle start) :
    Calls m loc m (.fork start) (.main scripts)
  | finishes {loc next : Loc} (hidle : Idle loc) :
    Calls m loc m .finish next
  | asks {loc : Loc} {pktHdr buffer letter script} (hidle : Idle loc) :
    Calls m loc m (.acquire .send) (.sendLocked pktHdr buffer letter script)
  | opens {loc : Loc} {k f} (hidle : Idle loc) :
    Calls m loc m (.acquire (.box k)) (.remove k f)
  | sends {pktHdr buffer letter script} {m' : Office} (hmessages : m'.messages = m.messages)
    (hsendDones : m'.sendDones = m.sendDones + 1) :
    Calls m (.sendLocked pktHdr buffer letter script) m' (.P .sent) (.sent script)
  | returns {script} : Calls m (.sent script) m (.release .send) (.idle script)
  | waits {k f} (hempty : m.messages k = []) : Calls m (.remove k f) m (.wait k (.box k)) (.remove k f)
  | takes {k f mail rest} {m' : Office} (hlist : m.messages k = mail :: rest)
    (hmessages : m'.messages = Function.update m.messages k rest) (hsendDones : m'.sendDones = m.sendDones) :
    Calls m (.remove k f) m' (.release (.box k)) (.got mail f)
  | awaits : Calls m .await m (.P .available) .deliver
  | delivers (mail : Mail) {m' : Office} (hmessages : m'.messages = m.messages) (hsendDones : m'.sendDones = m.sendDones) :
    Calls m .deliver m' (.acquire (.box mail.mailHdr.to_)) (.append mail)
  | puts {mail : Mail} : Calls m (.append mail) (putMail mail m) (.signal mail.mailHdr.to_ (.box mail.mailHdr.to_))
      (.signalled mail.mailHdr.to_)
  | signals {k} : Calls m (.signalled k) m (.release (.box k)) .await

theorem call_calls {script : Script} (hcode : h.call script m = some (m', i, next))
    (hidle : Idle loc) : Calls m loc m' i next := by
  cases script with
  | done =>
    cases hcode
    exact .finishes hidle
  | send pktHdr mailHdr data script =>
    unfold Host.call at hcode
    dsimp only at hcode
    split at hcode
    · cases hcode
      exact .asks hidle
    · cases hcode
  | receive k f =>
    unfold Host.call at hcode
    dsimp only at hcode
    split at hcode
    · cases hcode
      exact .opens hidle
    · cases hcode

theorem code_calls (hcode : h.program.code t loc m = some (m', i, next)) : Calls m loc m' i next := by
  cases loc with
  | boot scripts =>
    cases hcode
    exact .forks ⟨rfl, fun _ => rfl⟩ ⟨rfl, fun _ => rfl⟩
  | main scripts =>
    cases scripts with
    | nil =>
      cases hcode
      exact .finishes ⟨rfl, fun _ => rfl⟩
    | cons script scripts =>
      cases hcode
      exact .forks ⟨rfl, fun _ => rfl⟩ ⟨rfl, fun _ => rfl⟩
  | idle script =>
    have hcall : h.call script m = some (m', i, next) := hcode
    exact call_calls hcall ⟨rfl, fun _ => rfl⟩
  | sendLocked pktHdr buffer letter script =>
    obtain ⟨m₁, hsend, heq⟩ := Option.map_eq_some_iff.mp hcode
    unfold Host.networkSend at hsend
    split at hsend
    · cases hsend
      cases heq
      exact .sends rfl rfl
    · cases hsend
  | sent script =>
    cases hcode
    exact .returns
  | remove k f =>
    have hcode : removeLoop k f m = (m', i, next) := Option.some.inj hcode
    cases hlist : m.messages k with
    | nil =>
      simp only [removeLoop, hlist] at hcode
      cases hcode
      exact .waits hlist
    | cons mail rest =>
      simp only [removeLoop, hlist] at hcode
      cases hcode
      exact .takes hlist rfl rfl
  | got mail f =>
    unfold Host.program at hcode
    dsimp only at hcode
    split at hcode
    · exact call_calls hcode ⟨rfl, fun _ => rfl⟩
    · cases hcode
  | await =>
    cases hcode
    exact .awaits
  | deliver =>
    have hcode : h.deliver m = some (m', i, next) := hcode
    unfold Host.deliver at hcode
    dsimp only at hcode
    split at hcode
    · cases hcode
      exact .delivers ⟨_, _, _⟩ rfl rfl
    · cases hcode
  | append mail =>
    cases hcode
    exact .puts
  | signalled k =>
    cases hcode
    exact .signals

/-! ## Sections -/

section

variable (hcalls : Calls m loc m' i next)
include hcalls

theorem Calls.send : i.keepsTo (.lock .send) insideSend loc next = true := by
  cases hcalls with
  | forks hidle hstart =>
    show (false == insideSend loc && !insideSend _) = true
    rw [hidle.send, hstart.send]
    rfl
  | finishes hidle | opens hidle =>
    show (false == insideSend loc && true) = true
    rw [hidle.send]
    rfl
  | asks hidle =>
    show (!insideSend loc && true && true) = true
    rw [hidle.send]
    rfl
  | _ => rfl

theorem Calls.inBox (box : MailBoxAddress) : i.keepsTo (.lock (.box box)) (insideBox box) loc next = true := by
  cases hcalls with
  | forks hidle hstart =>
    show (false == insideBox box loc && !insideBox box _) = true
    rw [hidle.box, hstart.box]
    rfl
  | finishes hidle | asks hidle =>
    show (false == insideBox box loc && true) = true
    rw [hidle.box]
    rfl
  | @opens _ k _ hidle =>
    by_cases hk : k = box <;>
      simp [Instr.keepsTo, Instr.takes, Instr.gives, Instr.goesOn, Core.forked, hidle.box box, hk]
  | @waits k _ _ | @takes k _ _ _ _ _ _ _ | @signals k =>
    by_cases hk : k = box <;>
      simp [Instr.keepsTo, Instr.takes, Instr.gives, Instr.goesOn, Instr.waits, Core.forked, hk]
  | @delivers mail _ _ _ =>
    by_cases hk : mail.mailHdr.to_ = box <;>
      simp [Instr.keepsTo, Instr.takes, Instr.gives, Instr.goesOn, Core.forked, hk]
  | puts => simp [Instr.keepsTo, Instr.takes, Instr.gives, Instr.goesOn, Core.forked]
  | sends _ _ | returns | awaits => rfl

/-- Where a call leaves the thread, and where a thread begins. -/
theorem Calls.lands {q : PC Sem Lock MailBoxAddress Loc} (hlands : i.Lands next q) : At q := by
  cases hcalls with
  | forks _ _ => cases hlands <;> trivial
  | finishes _ => cases hlands <;> trivial
  | asks _ =>
    cases hlands with
    | inAcquire _ => exact ⟨_, _, _, _, rfl⟩
    | user _ _ => trivial
  | opens _ =>
    cases hlands with
    | inAcquire _ => exact .inl ⟨_, rfl⟩
    | user _ _ => trivial
  | sends _ _ =>
    cases hlands with
    | inP _ => exact ⟨_, rfl⟩
    | user _ _ => trivial
  | waits _ =>
    cases hlands with
    | inWait _ _ => exact ⟨rfl, _, rfl⟩
    | user _ hw => cases hw
  | awaits =>
    cases hlands with
    | inP _ => rfl
    | user _ _ => trivial
  | delivers _ _ _ =>
    cases hlands with
    | inAcquire _ => exact .inr ⟨_, rfl, rfl⟩
    | user _ _ => trivial
  | returns | takes _ _ _ | puts | signals =>
    cases hlands
    trivial

end

theorem section_send : Section h.program (.lock .send) insideSend fun _ => 0 where
  code hcode := .of_test (code_calls hcode).send rfl
  handler _ := ⟨fun _ _ => by simp, rfl⟩

theorem section_box (box : MailBoxAddress) : Section h.program (.lock (.box box)) (insideBox box) fun _ => 0 where
  code hcode := .of_test ((code_calls hcode).inBox box) rfl
  handler _ := ⟨fun _ _ => by simp, rfl⟩

theorem places : Places h.program At where
  code _ hcode hlands := (code_calls hcode).lands hlands
  inP _ := trivial
  inAcquire _ := trivial
  inWait hat := by
    obtain ⟨rfl, f, rfl⟩ := hat
    exact .inl ⟨f, rfl⟩

/-! ## `messageSent` -/

/-- In the loop of `messageSent->P()`. -/
def awaitsSent (q : PC Sem Lock MailBoxAddress Loc) : Bool := q.takes = some (.sem .sent)

/-- Each thread in `messageSent->P()` has a permit to come, or there already. -/
structure Sending (s : Core Sem Lock MailBoxAddress Office Loc) : Prop where
  total : (s.sem .sent).value + (s.mem.sendDones : Int) = s.count awaitsSent
  nonneg : 0 ≤ (s.sem .sent).value

/-- A call that does not use `messageSent`. -/
theorem Sending.call (hsending : Sending s) (hs : s.Queued) (hborn : s.pc t ≠ .finished)
    (htakes : i.takes ≠ some (.sem .sent)) (hgives : i.gives ≠ some (.sem .sent))
    (hout : awaitsSent (s.pc t) = false) (hdones : m.sendDones = s.mem.sendDones) (next : Loc) :
    Sending (Core.call t i next { s with mem := m }).2 := by
  have hsem := Core.call_sem_of_ne (s := { s with mem := m }) (t := t) i next htakes hgives
  have hplace := (Core.call_place (s := { s with mem := m }) i next (Core.lt_numThreads hs hborn).ne).2
  have hout' : awaitsSent ((Core.call t i next { s with mem := m }).2.pc t) = false := by
    unfold awaitsSent
    rw [decide_eq_false_iff_not]
    rcases hplace with h | h | h <;> rw [h]
    · simp
    · exact htakes
    · exact hgives
  have hforked : ((Core.forked i).any fun start => awaitsSent (.user start)) = false := by
    cases Core.forked i <;> rfl
  have hcount := Core.call_count (f := awaitsSent) (hs.withMem m) hborn i next
  rw [hout', hforked] at hcount
  change _ + (awaitsSent (s.pc t)).toNat = s.count awaitsSent + _ + _ at hcount
  rw [hout] at hcount
  have hmem : (Core.call t i next { s with mem := m }).2.mem = m := Core.call_mem _ _ _
  have htotal := hsending.total
  refine ⟨?_, ?_⟩
  · rw [hsem, hmem, hdones, htotal]
    simp only [Bool.toNat_false, Nat.add_zero] at hcount
    rw [hcount]
  · rw [hsem]
    exact hsending.nonneg

/-- `messageSent->P()`, by a thread that has just scheduled a `SendDone`, or once more. -/
theorem Sending.P (hsending : Sending s) (hs : s.Queued) (hborn : s.pc t ≠ .finished)
    (hone : s.count awaitsSent ≤ 1)
    (hdones : m.sendDones + (awaitsSent (s.pc t)).toNat = s.mem.sendDones + 1) (next : Loc) :
    Sending (Core.call t (.P .sent) next { s with mem := m }).2 := by
  have hcount := Core.call_count (f := awaitsSent) (hs.withMem m) hborn (.P .sent) next
  have hforked : ((Core.forked (.P .sent : Instr Sem Lock MailBoxAddress Loc)).any
    fun start => awaitsSent (.user start)) = false := rfl
  rw [hforked] at hcount
  change _ + (awaitsSent (s.pc t)).toNat = s.count awaitsSent + _ + _ at hcount
  have hmem : (Core.call t (.P .sent) next { s with mem := m }).2.mem = m := Core.call_mem _ _ _
  have htotal := hsending.total
  have hnonneg := hsending.nonneg
  by_cases hv : (s.sem .sent).value = 0
  · have hu := Core.testP_of_zero { s with mem := m } t hv next
    have hin : awaitsSent ((Core.call t (.P .sent) next { s with mem := m }).2.pc t) = true := by
      simp [Core.call, hu, awaitsSent, PC.takes]
    have hsem : ((Core.call t (.P .sent) next { s with mem := m }).2.sem .sent).value = 0 := by
      simp [Core.call, hu, hv]
    rw [hin] at hcount
    refine ⟨?_, hsem.ge⟩
    rw [hsem, hmem]
    simp only [Bool.toNat_true, Bool.toNat_false] at hcount
    omega
  · have hu := Core.testP_of_ne_zero { s with mem := m } t hv next
    have hin : awaitsSent ((Core.call t (.P .sent) next { s with mem := m }).2.pc t) = false := by
      simp [Core.call, hu, awaitsSent, PC.takes]
    have hv1 : (s.sem .sent).value = 1 := by omega
    have hsem : ((Core.call t (.P .sent) next { s with mem := m }).2.sem .sent).value = 0 := by
      simp [Core.call, hu, hv1, int32]
    rw [hin] at hcount
    refine ⟨?_, hsem.ge⟩
    rw [hsem, hmem]
    simp only [Bool.toNat_false] at hcount
    omega

/-- Only `Network::Send` schedules a `SendDone`, and only `Send` waits for it. -/
theorem Calls.sendDones (hcalls : Calls m loc m' i next) :
    (i = .P .sent ∧ m'.sendDones = m.sendDones + 1) ∨
    (i.takes ≠ some (.sem .sent) ∧ i.gives ≠ some (.sem .sent) ∧ m'.sendDones = m.sendDones) := by
  cases hcalls with
  | sends _ hdones => exact .inl ⟨rfl, hdones⟩
  | takes _ _ hdones | delivers _ _ hdones => exact .inr ⟨by simp [Instr.takes], by simp [Instr.gives], hdones⟩
  | _ => exact .inr ⟨by simp [Instr.takes], by simp [Instr.gives], rfl⟩

theorem step_sending {e : Effect} (hsending : Sending s) (hs : s.Queued) (hone : s.count awaitsSent ≤ 1)
    (hstep : s.step h.program t = some (e, u)) : Sending u := by
  obtain ⟨-, i, m, next, hbegins, heq⟩ := Core.step_eq_some hstep
  rw [show u = (Core.call t i next { s with mem := m }).2 from congrArg Prod.snd heq]
  have hborn := hbegins.pc_ne_finished
  cases hbegins with
  | @user loc _ _ _ hpc hcode =>
    have hout : awaitsSent (s.pc t) = false := by
      rw [hpc]
      rfl
    rcases (code_calls hcode).sendDones with ⟨rfl, hdones⟩ | ⟨htakes, hgives, hdones⟩
    · exact hsending.P hs hborn hone (by rw [hout]; exact hdones) next
    · exact hsending.call hs hborn htakes hgives hout hdones next
  | @inP x next hpc =>
    cases x with
    | sent => exact hsending.P hs hborn hone (by rw [hpc]; rfl) next
    | available =>
      exact hsending.call hs hborn (by simp [Instr.takes]) (by simp [Instr.gives]) (by rw [hpc]; rfl) rfl next
  | inAcquire hpc | inWait hpc =>
    exact hsending.call hs hborn (by simp [Instr.takes]) (by simp [Instr.gives])
      (by rw [hpc]; simp [awaitsSent, PC.takes]) rfl next

/-- A poll of the socket wakes the postal worker, or nobody. -/
theorem poll_eq_some {packet : Option (NetworkAddress × Bytes)} {xs : List Sem}
    (hhandler : h.checkPktAvail packet m = some (m', xs)) : Sem.sent ∉ xs ∧
      ∃ hdr inbox arrived, m' = { m with inHdr := hdr, inbox := inbox, arrived := arrived } := by
  unfold Host.checkPktAvail at hhandler
  split at hhandler
  · cases hhandler
    exact ⟨List.not_mem_nil, _, _, _, rfl⟩
  · split at hhandler
    · cases hhandler
      exact ⟨List.not_mem_nil, _, _, _, rfl⟩
    · dsimp only at hhandler
      split at hhandler
      · cases hhandler
        exact ⟨by decide, _, _, _, rfl⟩
      · cases hhandler

theorem sendDone_eq_some {xs : List Sem} (hhandler : sendDone m = some (m', xs)) :
    xs = [.sent] ∧ ∃ dones, dones + 1 = m.sendDones ∧
      m' = { m with sendDones := dones, sendBusy := false } := by
  unfold sendDone at hhandler
  split at hhandler
  · cases hhandler
  next hdones =>
    cases hhandler
    exact ⟨rfl, _, Nat.sub_add_cancel (Nat.pos_of_ne_zero hdones), rfl⟩

/-- No interrupt touches the mailboxes, or what was sent. -/
theorem handler_frame {ev : Ev} {xs : List Sem} (hhandler : h.program.handler ev m = some (m', xs)) :
    m'.messages = m.messages ∧ m'.posts = m.posts ∧ m'.received = m.received := by
  cases ev with
  | sendDone =>
    obtain ⟨-, dones, -, rfl⟩ := sendDone_eq_some hhandler
    exact ⟨rfl, rfl, rfl⟩
  | poll packet =>
    obtain ⟨-, hdr, inbox, arrived, rfl⟩ := poll_eq_some hhandler
    exact ⟨rfl, rfl, rfl⟩

/-- `SendDone` gives a permit in place of itself. -/
theorem interrupt_sending {ev : Ev} {ts : List ThreadId} (hsending : Sending s) (hone : s.count awaitsSent ≤ 1)
    (hint : s.interrupt h.program ev = some (ts, u)) : Sending u := by
  obtain ⟨m, xs, hhandler, heq⟩ := Core.interrupt_eq_some hint
  obtain rfl : u = (Core.signalAll xs { s with mem := m }).2 := congrArg Prod.snd heq
  obtain ⟨hmem, hpc, hnum, -, hsem⟩ := Core.signalAll_frame xs { s with mem := m }
  have hcount : (Core.signalAll xs { s with mem := m }).2.count awaitsSent = s.count awaitsSent :=
    Core.total_congr_pc hpc hnum
  have htotal := hsending.total
  have hnonneg := hsending.nonneg
  cases ev with
  | sendDone =>
    obtain ⟨rfl, dones, hdones, rfl⟩ := sendDone_eq_some hhandler
    have hzero : (s.sem .sent).value = 0 := by omega
    have hval : ((Core.signalAll [.sent] { s with mem := { s.mem with
        sendDones := dones, sendBusy := false } }).2.sem .sent).value = 1 := by
      simp [Core.signalAll, Semaphore.V, hzero, int32]
    refine ⟨?_, by rw [hval]; decide⟩
    rw [hval, hcount, hmem, ← htotal, hzero, ← hdones]
    push_cast
    omega
  | poll packet =>
    obtain ⟨hnot, hdr, inbox, arrived, rfl⟩ := poll_eq_some hhandler
    have hsame := hsem _ hnot
    refine ⟨?_, by rw [hsame]; exact hnonneg⟩
    rw [hsame, hcount, hmem]
    exact htotal

/-! ## `listEmpty` -/

/-- While threads sleep for mail in a mailbox, the letters in it are no more than the threads in the loop
of `Remove` that do not sleep. -/
def Covered (k : MailBoxAddress) (s : Core Sem Lock MailBoxAddress Office Loc) : Prop :=
  (s.cond k).queue ≠ [] →
    (s.mem.messages k).length + (s.cond k).queue.length ≤ s.countAt (removes k)

theorem removes_of_outside {k : MailBoxAddress} (hloc : insideBox k loc = false) : removes k loc = false := by
  cases loc with
  | remove _ _ => exact hloc
  | _ => rfl

/-- Who sleeps for mail is in the loop of `Remove`. -/
theorem place_of_mem_queue (hs : s.Queued) (hat : ∀ t, At (s.pc t)) {k : MailBoxAddress}
    (ht : t ∈ (s.cond k).queue) : (s.pc t).place.any (removes k) = true := by
  have hwaits := hs.waits (.cond k) t ht
  have hat := hat t
  cases hpc : s.pc t with
  | inWait c l next =>
    rw [hpc] at hwaits hat
    obtain rfl : c = k := by simpa [PC.waitsOn] using hwaits
    obtain ⟨-, f, rfl⟩ := hat
    simp [PC.place, removes]
  | user _ | inP _ _ | inAcquire _ _ | finished =>
    rw [hpc] at hwaits
    simp [PC.waitsOn] at hwaits

theorem queue_le (hs : s.Queued) (hat : ∀ t, At (s.pc t)) (k : MailBoxAddress) :
    (s.cond k).queue.length ≤ s.countAt (removes k) := by
  rw [Core.countAt_eq_count]
  exact Core.length_le_count hs rfl (hs.nodup (.cond k)) fun _ => place_of_mem_queue hs hat

theorem Covered.keep {k : MailBoxAddress} (hcovered : Covered k s)
    (hmessages : u.mem.messages k = s.mem.messages k) (hcond : u.cond k = s.cond k)
    (hcount : s.countAt (removes k) ≤ u.countAt (removes k)) : Covered k u := by
  intro hqueue
  rw [hcond] at hqueue ⊢
  rw [hmessages]
  exact (hcovered hqueue).trans hcount

theorem call_cond_of_ne (i : Instr Sem Lock MailBoxAddress Loc) (next : Loc)
    (hwait : ∀ c k, i ≠ .wait c k) (hsignal : ∀ c k, i ≠ .signal c k) (hbroadcast : ∀ c k, i ≠ .broadcast c k) :
    (Core.call t i next s).2.cond = s.cond := by
  cases i with
  | P x =>
    by_cases hv : (s.sem x).value = 0
    · simp [Core.call, Core.testP_of_zero s t hv]
    · simp [Core.call, Core.testP_of_ne_zero s t hv]
  | acquire k => exact Core.testAcquire_cond s t k next
  | wait c k => exact absurd rfl (hwait c k)
  | signal c k => exact absurd rfl (hsignal c k)
  | broadcast c k => exact absurd rfl (hbroadcast c k)
  | V _ | release _ | fork _ | yield | setLevel _ | finish => rfl

theorem call_covered (hs : s.Queued) (hpc : s.pc t = .user loc) (hcalls : Calls s.mem loc m i next)
    (hu : (Core.call t i next { s with mem := m }).2.Queued)
    (hat : ∀ t', At ((Core.call t i next { s with mem := m }).2.pc t')) {k : MailBoxAddress}
    (hcovered : Covered k s) : Covered k (Core.call t i next { s with mem := m }).2 := by
  have hborn : s.pc t ≠ .finished := by simp [hpc]
  have hcount := Core.call_totalAt (hs.withMem m) hborn i next fun loc => (removes k loc).toNat
  change _ + (s.pc t).place.elim 0 (fun loc => (removes k loc).toNat) =
    s.countAt (removes k) + _ + _ at hcount
  rw [hpc] at hcount
  change (Core.call t i next { s with mem := m }).2.countAt (removes k) + (removes k loc).toNat = _ at hcount
  have hmem : (Core.call t i next { s with mem := m }).2.mem = m := Core.call_mem _ _ _
  have hcond := call_cond_of_ne (t := t) (s := { s with mem := m }) i next
  generalize hv : (Core.call t i next { s with mem := m }).2 = v at hcount hmem hcond hu hat ⊢
  -- a step outside of the loop of `Remove`, that wakes nobody up
  have hkeep (hloc : removes k loc = false) (hmessages : m.messages = s.mem.messages)
      (hcond : v.cond = s.cond) : Covered k v := by
    refine hcovered.keep (by rw [hmem, hmessages]) (by rw [hcond]) ?_
    rw [hloc, Bool.toNat_false] at hcount
    omega
  generalize hm : s.mem = m₀ at hcalls hkeep
  cases hcalls with
  | forks hidle _ | finishes hidle | asks hidle | opens hidle =>
    exact hkeep (removes_of_outside (hidle.box k)) rfl (hcond (by simp) (by simp) (by simp))
  | sends hmessages _ | delivers _ hmessages _ =>
    exact hkeep rfl hmessages (hcond (by simp) (by simp) (by simp))
  | returns | awaits | signals => exact hkeep rfl rfl (hcond (by simp) (by simp) (by simp))
  | @waits k' f hempty =>
    by_cases hk : k' = k
    · subst hk
      intro _
      rw [hmem, hempty, List.length_nil, Nat.zero_add]
      exact queue_le hu hat k'
    · refine hcovered.keep (by rw [hmem, hm]) ?_ ?_
      · rw [← hv]
        simp [Core.call, Ne.symm hk]
      · simp only [Core.forked, Option.elim_none, Nat.add_zero, Instr.goesOn, if_true] at hcount
        omega
  | @takes k' f mail rest m' hlist hmessages _ =>
    have hcond : v.cond = s.cond := hcond (by simp) (by simp) (by simp)
    by_cases hk : k' = k
    · subst hk
      intro hqueue
      rw [hcond] at hqueue ⊢
      have hold := hcovered hqueue
      rw [hm, hlist, List.length_cons] at hold
      rw [hmem, hmessages, Function.update_self]
      simp only [removes, decide_true, Bool.toNat_true, Bool.toNat_false, Core.forked, Option.elim_none,
        Nat.add_zero, Instr.goesOn, if_true] at hcount
      omega
    · have hloc : removes k (.remove k' f) = false := decide_eq_false hk
      rw [hloc, Bool.toNat_false] at hcount
      refine hcovered.keep ?_ (by rw [hcond]) (by omega)
      rw [hmem, hmessages, hm, Function.update_of_ne (Ne.symm hk)]
  | @puts mail =>
    have hle : s.countAt (removes k) ≤ v.countAt (removes k) := by
      change _ + 0 = _ at hcount
      omega
    by_cases hk : mail.mailHdr.to_ = k
    · have hqueue : (v.cond k).queue = (s.cond k).queue.tail := by
        rw [← hv, ← hk]
        simp [Core.call, Condition.signal]
      have hmessages : (v.mem.messages k).length = (s.mem.messages k).length + 1 := by
        rw [hmem, hm, ← hk]
        simp [putMail]
      intro hne
      rw [hqueue] at hne ⊢
      rw [hmessages, List.length_tail]
      have hold : (s.cond k).queue ≠ [] := fun h => hne (by rw [h]; rfl)
      have hpos := List.length_pos_iff.mpr hold
      have hcov := hcovered hold
      omega
    · refine hcovered.keep ?_ ?_ hle
      · rw [hmem, hm]
        exact Function.update_of_ne (Ne.symm hk) _ _
      · rw [← hv]
        simp [Core.call, Ne.symm hk]

theorem step_covered {e : Effect} (hs : s.Queued) (hat : ∀ t, At (s.pc t))
    (hcovered : ∀ k, Covered k s) (hstep : s.step h.program t = some (e, u)) (k : MailBoxAddress) :
    Covered k u := by
  have hnext : s.next h.program (.thread t) = some u := Option.map_eq_some_iff.mpr ⟨(e, u), hstep, rfl⟩
  have hu := Core.step_queued hs hstep
  have hat' := Core.next_places places hs hat hnext
  obtain ⟨-, i, m, next, hbegins, heq⟩ := Core.step_eq_some hstep
  obtain rfl : u = (Core.call t i next { s with mem := m }).2 := congrArg Prod.snd heq
  by_cases hpc : ∃ loc, s.pc t = .user loc
  · obtain ⟨loc, hpc⟩ := hpc
    cases hbegins with
    | @user loc' _ _ _ hpc' hcode =>
      obtain rfl := PC.user.inj (hpc'.symm.trans hpc)
      exact call_covered hs hpc (code_calls hcode) hu hat' (hcovered k)
    | inP hpc' | inAcquire hpc' | inWait hpc' => cases hpc'.symm.trans hpc
  · obtain ⟨hmem, -, htotal, -⟩ := Core.step_resumes hs (fun loc h => hpc ⟨loc, h⟩) hstep
    have hcond : (Core.call t i next { s with mem := m }).2.cond = s.cond := by
      cases hbegins with
      | user hpc' _ => exact absurd ⟨_, hpc'⟩ hpc
      | inP _ | inAcquire _ | inWait _ => exact call_cond_of_ne _ _ (by simp) (by simp) (by simp)
    exact (hcovered k).keep (by rw [hmem]) (by rw [hcond]) (htotal _).ge

theorem interrupt_covered {ev : Ev} {ts : List ThreadId} {k : MailBoxAddress} (hcovered : Covered k s)
    (hint : s.interrupt h.program ev = some (ts, u)) : Covered k u := by
  obtain ⟨m, xs, hhandler, heq⟩ := Core.interrupt_eq_some hint
  obtain ⟨hmem, -⟩ := Core.signalAll_frame xs { s with mem := m }
  rw [← show u = (Core.signalAll xs { s with mem := m }).2 from congrArg Prod.snd heq] at hmem
  refine hcovered.keep ?_ (by rw [(Core.interrupt_frame hint).2.1]) (Core.interrupt_countAt _ hint).ge
  rw [hmem]
  exact congrFun (handler_frame hhandler).1 k

/-- The worker goes on for ever. -/
theorem step_worker {e : Effect} (hs : Invariant h s) (hstep : s.step h.program t = some (e, u)) :
    u.countAt isWorker = s.countAt isWorker := by
  obtain ⟨-, -, htotal⟩ | ⟨loc, m, i, next, hcode, hmem, hmoves⟩ := Core.step_moves hs.queued hstep
  · exact htotal _
  · have hdoes : Does h s.mem loc m i next := code_does hcode (hs.fits t loc (by rw [hmoves.pc]; rfl))
    have htotal := hmoves.total fun loc => (isWorker loc).toNat
    have hworker := hdoes.worker hs.kept (hs.full_of_moves hmoves)
    unfold Core.countAt
    cases hgoes : i.goesOn <;> cases hforked : Core.forked i <;>
      simp [hgoes, hforked] at htotal hworker <;> omega

/-! ## The invariant -/

/-- What holds of a machine, so that nobody waits in vain. -/
structure Live (h : Host) (s : Core Sem Lock MailBoxAddress Office Loc) : Prop where
  handles : Invariant h s
  synchronized : s.Synchronized
  at_ : ∀ t, At (s.pc t)
  send : Guarded (.lock .send) insideSend (fun _ => 0) s
  box : ∀ k, Guarded (.lock (.box k)) (insideBox k) (fun _ => 0) s
  retried : ∀ x, s.Retried x
  sending : Sending s
  covered : ∀ k, Covered k s
  worker : s.countAt isWorker = 1

/-- One thread at most is in `messageSent->P()`, since it has `sendLock`. -/
theorem Live.count_le_one (hs : Live h s) : s.count awaitsSent ≤ 1 := by
  have htotal := hs.send.total
  have hpermits := hs.send.permits
  have hle : s.count awaitsSent ≤ s.count (PC.within (.lock .send) insideSend) := by
    refine Core.count_le_count fun t ht => ?_
    have hat := hs.at_ t
    cases hpc : s.pc t with
    | inP x next =>
      rw [hpc] at ht hat
      obtain rfl : x = .sent := by simpa [awaitsSent, PC.takes] using ht
      obtain ⟨script, rfl⟩ := hat
      rfl
    | user _ | inAcquire _ _ | inWait _ _ _ | finished =>
      rw [hpc] at ht
      simp [awaitsSent, PC.takes] at ht
  omega

/-- There is one permit at most. -/
theorem Live.value (hs : Live h s) (x : Sem) : 0 ≤ (s.sem x).value ∧ (s.sem x).value ≤ 1 := by
  cases x with
  | available => exact ⟨hs.handles.available.permits, hs.handles.available.permits_le_one⟩
  | sent =>
    have htotal := hs.sending.total
    have hone := hs.count_le_one
    exact ⟨hs.sending.nonneg, by omega⟩

theorem start_live {scripts : List Script} (hvalid : ∀ script ∈ scripts, script.Valid h.numBoxes) :
    Live h (h.start scripts) where
  handles := start_invariant hvalid
  synchronized := Core.new_synchronized _ _ _
  at_ t := by
    by_cases ht : t = 0
    · simp [Host.start, Core.new, At, ht]
    · simp [Host.start, Core.new, At, ht]
  send := Core.new_guarded _ rfl Int.one_nonneg rfl
  box _ := Core.new_guarded _ rfl Int.one_nonneg rfl
  retried _ _ hqueue := absurd rfl hqueue
  sending := by
    refine ⟨?_, le_rfl⟩
    have hcount : (h.start scripts).count awaitsSent = 0 := by
      refine Core.count_eq_zero fun t => ?_
      by_cases h0 : t = 0 <;> simp [Host.start, Core.new, awaitsSent, PC.takes, h0]
    rw [hcount]
    rfl
  covered _ hqueue := absurd rfl hqueue
  worker := Core.new_totalAt _ _ _ _

theorem next_live {v : Move Ev} (hs : Live h s) (hgood : ∀ p, v = .interrupt (.poll (some p)) → Good h p)
    (hnext : s.next h.program v = some u) : Live h u where
  handles := next_invariant hs.handles hgood hnext
  synchronized := Core.next_synchronized hs.synchronized hnext
  at_ := Core.next_places places hs.handles.queued hs.at_ hnext
  send := Core.next_guarded section_send hs.handles.queued hs.send hnext
  box k := Core.next_guarded (section_box k) hs.handles.queued (hs.box k) hnext
  retried x := Core.next_retried hs.handles.queued (hs.value x).1 (hs.value x).2 (hs.retried x) hnext
  sending := by
    cases v with
    | thread t =>
      obtain ⟨⟨e, u'⟩, hstep, rfl⟩ := Option.map_eq_some_iff.mp hnext
      exact step_sending hs.sending hs.handles.queued hs.count_le_one hstep
    | interrupt ev =>
      obtain ⟨⟨ts, u'⟩, hint, rfl⟩ := Option.map_eq_some_iff.mp hnext
      exact interrupt_sending hs.sending hs.count_le_one hint
  covered := by
    cases v with
    | thread t =>
      obtain ⟨⟨e, u'⟩, hstep, rfl⟩ := Option.map_eq_some_iff.mp hnext
      exact step_covered hs.handles.queued hs.at_ hs.covered hstep
    | interrupt ev =>
      obtain ⟨⟨ts, u'⟩, hint, rfl⟩ := Option.map_eq_some_iff.mp hnext
      exact fun k => interrupt_covered (hs.covered k) hint
  worker := by
    cases v with
    | thread t =>
      obtain ⟨⟨e, u'⟩, hstep, rfl⟩ := Option.map_eq_some_iff.mp hnext
      exact (step_worker hs.handles hstep).trans hs.worker
    | interrupt ev =>
      obtain ⟨⟨ts, u'⟩, hint, rfl⟩ := Option.map_eq_some_iff.mp hnext
      exact (Core.interrupt_countAt _ hint).trans hs.worker

/-! ## A machine at rest -/

section

variable (hs : Live h s) (hsleep : s.AllAsleep) (hdones : s.mem.sendDones = 0)
include hs hsleep

/-- The lists of the mailboxes are free: nobody sleeps between `Acquire` and `Release`. -/
theorem Live.box_queue (k : MailBoxAddress) : (s.lock (.box k)).queue = [] := by
  refine hsleep.lock_queue (hs.synchronized.retested _) (hs.box k) rfl fun t hin => ?_
  have hat := hs.at_ t
  cases hpc : s.pc t with
  | user _ => exact Core.asleep_of_user hpc
  | inP x next =>
    rw [hpc] at hat hin
    cases x with
    | available =>
      obtain rfl : next = .deliver := hat
      cases hin
    | sent =>
      obtain ⟨script, rfl⟩ := hat
      cases hin
  | inAcquire l next =>
    rw [hpc] at hat hin
    cases l with
    | send =>
      obtain ⟨pktHdr, buffer, letter, script, rfl⟩ := hat
      cases hin
    | box k' =>
      obtain ⟨f, rfl⟩ | ⟨mail, rfl, rfl⟩ := hat <;> simp [PC.within, PC.takes, PC.place] at hin
  | inWait c l next =>
    rw [hpc] at hat hin
    obtain ⟨rfl, f, rfl⟩ := hat
    simp [PC.within, PC.takes, PC.place] at hin
  | finished => simp [Core.asleep, hpc, PC.waitsOn]

/-- Whoever waits for mail waits at an empty mailbox. -/
theorem Live.empty {k : MailBoxAddress} {l : Lock} {next : Loc} (hpc : s.pc t = .inWait k l next) :
    s.mem.messages k = [] := by
  have hmem : t ∈ (s.cond k).queue := (Core.asleep_of_inWait hpc).mp (hsleep t (by simp [hpc]))
  have hcovered := hs.covered k (List.ne_nil_of_mem hmem)
  have hcount : s.countAt (removes k) ≤ (s.cond k).queue.length := by
    rw [Core.countAt_eq_count]
    refine Core.count_le_length fun t' ht' => ?_
    have hat := hs.at_ t'
    cases hpc' : s.pc t' with
    | user loc => exact absurd hpc' (hsleep.not_user loc)
    | inP x next =>
      rw [hpc'] at hat ht'
      cases x with
      | available =>
        obtain rfl : next = .deliver := hat
        cases ht'
      | sent =>
        obtain ⟨script, rfl⟩ := hat
        cases ht'
    | inAcquire l' next =>
      have hasleep := (Core.asleep_of_inAcquire hpc').mp (hsleep t' (by simp [hpc']))
      cases l' with
      | send =>
        rw [hpc'] at hat ht'
        obtain ⟨pktHdr, buffer, letter, script, rfl⟩ := hat
        cases ht'
      | box k' =>
        rw [hs.box_queue hsleep k'] at hasleep
        cases hasleep
    | inWait c l' next =>
      have hasleep := (Core.asleep_of_inWait hpc').mp (hsleep t' (by simp [hpc']))
      rw [hpc'] at hat ht'
      obtain ⟨-, f, rfl⟩ := hat
      obtain rfl : c = k := by simpa [PC.place, removes] using ht'
      exact hasleep
    | finished =>
      rw [hpc'] at ht'
      cases ht'
  have hlen : (s.mem.messages k).length = 0 := by omega
  exact List.eq_nil_of_length_eq_zero hlen

include hdones

/-- Nobody waits for a `SendDone`. -/
theorem Live.sent_queue : (s.sem .sent).queue = [] := by
  by_contra hqueue
  obtain ⟨t, ht⟩ := List.exists_mem_of_ne_nil _ hqueue
  obtain ⟨next, hpc⟩ := Core.pc_of_mem_sem_queue hs.handles.queued ht
  have hin : awaitsSent (s.pc t) = true := by simp [awaitsSent, hpc, PC.takes]
  have hpos := Core.count_pos hs.handles.queued rfl hin
  have htotal := hs.sending.total
  have hle := (hs.value .sent).2
  exact hqueue (hsleep.sem_queue (hs.retried .sent) (by omega))

/-- Nobody waits for `sendLock`. -/
theorem Live.send_queue : (s.lock .send).queue = [] := by
  refine hsleep.lock_queue (hs.synchronized.retested _) hs.send rfl fun t hin => ?_
  have hat := hs.at_ t
  cases hpc : s.pc t with
  | user _ => exact Core.asleep_of_user hpc
  | inP x next =>
    cases x with
    | available =>
      rw [hpc] at hat hin
      obtain rfl : next = .deliver := hat
      cases hin
    | sent => simp [Core.asleep, hpc, PC.waitsOn, hs.sent_queue hsleep hdones]
  | inAcquire l next =>
    rw [hpc] at hat hin
    cases l with
    | send => simp [PC.within, PC.takes] at hin
    | box k =>
      obtain ⟨f, rfl⟩ | ⟨mail, rfl, -⟩ := hat <;> cases hin
  | inWait c l next =>
    rw [hpc] at hat hin
    obtain ⟨rfl, f, rfl⟩ := hat
    cases hin
  | finished => simp [Core.asleep, hpc, PC.waitsOn]

/-- Where the threads are. -/
theorem Live.waits (t : ThreadId) : s.pc t = .finished ∨ s.pc t = .inP .available .deliver ∨
    ∃ k f, s.pc t = .inWait k (.box k) (.remove k f) ∧ s.mem.messages k = [] := by
  have hat := hs.at_ t
  cases hpc : s.pc t with
  | user loc => exact absurd hpc (hsleep.not_user loc)
  | inP x next =>
    rw [hpc] at hat
    cases x with
    | available =>
      obtain rfl : next = .deliver := hat
      exact .inr (.inl rfl)
    | sent =>
      have hmem := (Core.asleep_of_inP hpc).mp (hsleep t (by simp [hpc]))
      rw [hs.sent_queue hsleep hdones] at hmem
      cases hmem
  | inAcquire l next =>
    have hmem := (Core.asleep_of_inAcquire hpc).mp (hsleep t (by simp [hpc]))
    have hqueue : (s.lock l).queue = [] := by
      cases l with
      | send => exact hs.send_queue hsleep hdones
      | box k => exact hs.box_queue hsleep k
    rw [hqueue] at hmem
    cases hmem
  | inWait k l next =>
    rw [hpc] at hat
    obtain ⟨rfl, f, rfl⟩ := hat
    exact .inr (.inr ⟨k, f, rfl, hs.empty hsleep hpc⟩)
  | finished => exact .inl rfl

/-- The worker waits for mail, and there is none in the network's buffer. -/
theorem Live.buffer : s.mem.inHdr.length = 0 := by
  obtain ⟨t, loc, hplace, hworker⟩ := Core.exists_of_countAt_pos (s := s) (f := isWorker) (by rw [hs.worker]; decide)
  have hwithin : s.count (PC.within (.sem .available) isDeliver) = 0 := by
    refine Core.count_eq_zero fun t' => ?_
    obtain hpc | hpc | ⟨k, f, hpc, -⟩ := hs.waits hsleep hdones t' <;> rw [hpc] <;> rfl
  obtain hpc | hpc | ⟨k, f, hpc, -⟩ := hs.waits hsleep hdones t
  · rw [hpc] at hplace
    cases hplace
  · have hmem := (Core.asleep_of_inP hpc).mp (hsleep t (by simp [hpc]))
    have hvalue : (s.sem .available).value ≠ 1 := fun hone =>
      List.ne_nil_of_mem hmem (hsleep.sem_queue (hs.retried .available) hone)
    have htotal := hs.handles.available.total
    have hbounds := hs.value .available
    rw [Core.permits_sem] at htotal
    by_contra hfull
    have hlacking : lacking s.mem = 0 := if_neg hfull
    omega
  · rw [hpc] at hplace
    cases hplace
    cases hworker

/-- All that was read from the socket is in the mailboxes. -/
theorem Live.delivered : s.mem.arrived.map (letterAt ·.2) = s.mem.delivered := by
  rw [hs.handles.kept.buffered, Office.buffered, if_pos (hs.buffer hsleep hdones), List.append_nil]
  refine hs.handles.atRest fun t loc hplace => ?_
  obtain hpc | hpc | ⟨k, f, hpc, -⟩ := hs.waits hsleep hdones t <;> rw [hpc] at hplace <;> cases hplace <;> rfl

end

/-! ## Machines at rest -/

variable {x : Setup} {n n' : Net} {a b : NetworkAddress}

/-- No thread of the machine can take a step, and no `SendDone` is to come. -/
structure AtRest (x : Setup) (n : Net) (a : NetworkAddress) : Prop where
  thread : ∀ t, x.next (.thread a t) n = none
  sendDone : x.next (.sendDone a) n = none

theorem next_thread (x : Setup) (n : Net) (a : NetworkAddress) (t : ThreadId) : x.next (.thread a t) n =
    ((n a).next (x.host a).program (.thread t)).map (Function.update n a) := by
  show ((n a).next (x.host a).program (.thread t)).bind (fun s => some (Function.update n a s)) = _
  cases (n a).next (x.host a).program (.thread t) <;> rfl

/-- What holds of all machines. -/
structure Alive (x : Setup) (n : Net) : Prop where
  linked : Linked x n
  live : ∀ a, Live (x.host a) (n a)

theorem next_alive {v : NetMove} (hn : Alive x n) (hnext : x.next v n = some n') : Alive x n' := by
  obtain ⟨a, w, u, hmove, hu, rfl⟩ := next_eq_some hnext
  refine ⟨next_linked hn.linked hnext, fun b => ?_⟩
  by_cases hb : b = a
  · subst hb
    rw [Function.update_self]
    exact next_live (hn.live b) (fun p hw => (hn.linked.good_of_move hmove hw).1) hu
  · rw [Function.update_of_ne hb]
    exact hn.live b

theorem run_alive {ms : List NetMove} (hvalid : ∀ a, ∀ script ∈ x.scripts a, script.Valid x.numBoxes)
    (hrun : run x.next ms x.start = some n) : Alive x n :=
  run_invariant (fun _ _ _ hn hnext => next_alive hn hnext)
    ⟨start_linked hvalid, fun a => start_live (hvalid a)⟩ hrun

/-- At rest all threads sleep, when no assertion stops them. -/
theorem AtRest.allAsleep (hrest : AtRest x n a)
    (hsome : ∀ t loc, (n a).pc t = .user loc → ((x.host a).program.code t loc (n a).mem).isSome) :
    (n a).AllAsleep ∧ (n a).mem.sendDones = 0 := by
  refine ⟨fun t hborn => ?_, ?_⟩
  · by_contra hawake
    have hawake : (n a).asleep t = false := Bool.eq_false_iff.mpr hawake
    have hstep := hrest.thread t
    rw [next_thread, Option.map_eq_none_iff, Core.next, Option.map_eq_none_iff, Core.step, hawake] at hstep
    cases hpc : (n a).pc t with
    | user loc =>
      obtain ⟨r, hr⟩ := Option.isSome_iff_exists.mp (hsome t loc hpc)
      simp [hpc, hr] at hstep
    | inP _ _ | inAcquire _ _ | inWait _ _ _ => simp [hpc] at hstep
    | finished => exact hborn hpc
  · by_contra hdones
    have hstep := hrest.sendDone
    simp [Setup.next, Net.move, Core.next, Core.interrupt, Host.program, Network.sendDone, hdones] at hstep

/-- What one machine has sent to a mailbox of another, and what has become of it, when that one has put
all it has read into its mailboxes. -/
theorem posts_of_delivered {ms : List NetMove} {k : MailBoxAddress}
    (hvalid : ∀ a, ∀ script ∈ x.scripts a, script.Valid x.numBoxes)
    (hrun : run x.next ms x.start = some n)
    (hdelivered : (n b).mem.arrived.map (letterAt ·.2) = (n b).mem.delivered)
    (hreliable : 1 ≤ x.reliability a) (hflight : n.flight a b = []) :
    (((n a).mem.posts.map Prod.fst).filter fun l => l.pktHdr.to_ = b ∧ l.mailHdr.to_ = k) =
      ((n b).mem.received k ++ ((n b).mem.messages k).map Mail.letter).filter (·.pktHdr.from_ = a) := by
  obtain ⟨-, -, hboxes, hposts, -⟩ := postOffice_delivers hvalid hrun
  have hposts := hposts a b hreliable
  rw [hflight, List.map_nil, List.append_nil, hdelivered] at hposts
  rw [← hboxes b k, List.filter_filter]
  calc (((n a).mem.posts.map Prod.fst).filter fun l => l.pktHdr.to_ = b ∧ l.mailHdr.to_ = k)
      = (((n a).mem.posts.map Prod.fst).filter (·.pktHdr.to_ = b)).filter (·.mailHdr.to_ = k) := by
        rw [List.filter_filter]
        exact List.filter_congr fun l _ => by rw [Bool.decide_and, Bool.and_comm]
    _ = ((n b).mem.delivered.filter (·.pktHdr.from_ = a)).filter (·.mailHdr.to_ = k) := by rw [hposts]
    _ = _ := by
        rw [List.filter_filter]
        exact List.filter_congr fun l _ => Bool.and_comm _ _

/-- On a machine where nothing moves any more, the threads that have not finished are the postal worker,
which waits for mail, and threads that wait in `Receive` at an empty mailbox; so that no `Send` is left
undone. What a machine has sent it and not lost, and what is not in flight, has been received or is
in the mailbox it is for, in order. -/
theorem postOffice_at_rest {ms : List NetMove}
    (hvalid : ∀ a, ∀ script ∈ x.scripts a, script.Valid x.numBoxes)
    (hrun : run x.next ms x.start = some n) (hrest : AtRest x n b) :
    (∀ t, (n b).pc t = .finished ∨ (n b).pc t = .inP .available .deliver ∨
      ∃ k f, (n b).pc t = .inWait k (.box k) (.remove k f) ∧ (n b).mem.messages k = []) ∧
    ∀ a k, 1 ≤ x.reliability a → n.flight a b = [] →
      (((n a).mem.posts.map Prod.fst).filter fun l => l.pktHdr.to_ = b ∧ l.mailHdr.to_ = k) =
        ((n b).mem.received k ++ ((n b).mem.messages k).map Mail.letter).filter (·.pktHdr.from_ = a) := by
  have hn := run_alive hvalid hrun
  -- no assertion fails
  obtain ⟨hsleep, hdones⟩ := hrest.allAsleep fun t loc => (hn.live b).handles.code_isSome
  refine ⟨(hn.live b).waits hsleep hdones, fun a k => ?_⟩
  exact posts_of_delivered hvalid hrun ((hn.live b).delivered hsleep hdones)

/-- Machine 1 sends two bytes to mailbox 0 of machine 2, where a thread waits for mail twice. -/
def waitsTwice : Setup := { twoMachines with
  scripts := fun a => if a = 2 then [.receive 0 fun _ => .receive 0 fun _ => .done] else twoMachines.scripts a }

theorem waitsTwice_valid (a : NetworkAddress) :
    ∀ script ∈ waitsTwice.scripts a, script.Valid waitsTwice.numBoxes := by
  intro script hmem
  by_cases ha : a = 2
  · have hmem : script ∈ waitsTwice.scripts 2 := ha ▸ hmem
    rw [List.mem_singleton.mp hmem]
    exact .receive (by decide) fun _ => .receive (by decide) fun _ => .done
  · refine twoMachines_valid a script ?_
    have hsame : waitsTwice.scripts a = twoMachines.scripts a := if_neg ha
    exact hsame ▸ hmem

theorem atRest_of_lt (hs : (n a).Queued) (hthread : ∀ t < (n a).numThreads, (x.next (.thread a t) n).isNone = true)
    (hdone : (x.next (.sendDone a) n).isNone = true) : AtRest x n a := by
  refine ⟨fun t => ?_, Option.isNone_iff_eq_none.mp hdone⟩
  by_cases ht : t < (n a).numThreads
  · exact Option.isNone_iff_eq_none.mp (hthread t ht)
  · rw [next_thread, Core.next_finished (hs.unborn t (Nat.le_of_not_lt ht))]
    rfl

theorem postOffice_at_rest_waitsTwice : ∃ n, run waitsTwice.next
    [.thread 1 0, .thread 1 0, .thread 1 2, .thread 1 2, .thread 2 0, .thread 2 0, .thread 2 0, .thread 2 1,
      .thread 2 2, .thread 2 2, .poll 2 (some 1), .thread 2 1, .thread 2 1, .thread 2 1, .thread 2 1, .thread 2 1,
      .thread 2 2, .thread 2 2, .thread 2 2, .thread 2 2]
    waitsTwice.start = some n ∧ AtRest waitsTwice n 2 ∧ (n 2).mem.received 0 = [⟨⟨2, 1, 14⟩, ⟨0, 1, 2⟩, [72, 105]⟩] ∧
    ∀ t, (n 2).pc t = .finished ∨ (n 2).pc t = .inP .available .deliver ∨
      ∃ k f, (n 2).pc t = .inWait k (.box k) (.remove k f) ∧ (n 2).mem.messages k = [] := by
  have heval : ((run waitsTwice.next
      [.thread 1 0, .thread 1 0, .thread 1 2, .thread 1 2, .thread 2 0, .thread 2 0, .thread 2 0, .thread 2 1,
        .thread 2 2, .thread 2 2, .poll 2 (some 1), .thread 2 1, .thread 2 1, .thread 2 1, .thread 2 1, .thread 2 1,
        .thread 2 2, .thread 2 2, .thread 2 2, .thread 2 2]
      waitsTwice.start).any fun n => (n 2).mem.received 0 = [⟨⟨2, 1, 14⟩, ⟨0, 1, 2⟩, [72, 105]⟩] ∧
        (∀ t < (n 2).numThreads, (waitsTwice.next (.thread 2 t) n).isNone = true) ∧
        (waitsTwice.next (.sendDone 2) n).isNone = true) = true := by
    decide +kernel
  obtain ⟨n, hn, hstate⟩ := (Option.any_eq_true _ _).mp heval
  obtain ⟨hreceived, hthread, hdone⟩ := of_decide_eq_true hstate
  have hrest : AtRest waitsTwice n 2 := atRest_of_lt ((run_alive waitsTwice_valid hn).live 2).handles.queued hthread hdone
  exact ⟨n, hn, hrest, hreceived, (postOffice_at_rest waitsTwice_valid hn hrest).1⟩

end Nachos.Network
