import Nachos.Network.Packet
import Nachos.Threads.Sections
import Mathlib.Data.Rat.Defs
import Mathlib.Algebra.Order.Ring.Rat

/-!
# A machine with a post office (network/post.cc on machine/network.cc)

Threads that call `PostOffice::Send` and `PostOffice::Receive`, each as its
script says, the postal worker, which runs `PostOffice::PostalDelivery`, and
the interrupts of the network device, in any interleaving. A datagram is read
from the socket by an interrupt that carries it (`Ev.poll`); when interrupts
come is not modelled. `sendBusy` is never set in the code.
-/

namespace Nachos.Network

open Nachos.Framework Nachos.Threads

/-- What a program does with its post office: the calls of `Send` and `Receive` of one thread, which
may depend on what it has received. -/
inductive Script
  | done
  | send (pktHdr : PacketHeader) (mailHdr : MailHeader) (data : Bytes) (next : Script)
  | receive (box : MailBoxAddress) (next : Letter → Script)

/-- The arguments of `PostOffice::PostOffice`, the results of the calls of `Random`, and what is in
memory that is allocated. `reliability` is a `double` in the code, which a rational number stands for. -/
structure Host where
  netAddr : NetworkAddress
  reliability : Rat
  numBoxes : Int
  random : Nat → Nat
  junk : Nat → Bytes

/-- `messageAvailable` and `messageSent`. -/
inductive Sem
  | available
  | sent
deriving DecidableEq, Repr

/-- `sendLock`, and the lock of the list of a mailbox, whose condition is `listEmpty`. -/
inductive Lock
  | send
  | box (k : MailBoxAddress)
deriving DecidableEq, Repr

/-- The interrupts of the device: `CheckPktAvail`, which finds a datagram on the socket or not, and
`SendDone`. The datagram comes with the machine that sent it. -/
inductive Ev
  | poll (packet : Option (NetworkAddress × Bytes))
  | sendDone

/-- The data of `class Network`, of `PostalDelivery` and of the mailboxes, and how many interrupts
`SendDone` are scheduled. `sends` counts the calls of `Network::Send`. From `posts` on it is not in
the code: the letters that `PostOffice::Send` gave to `Network::Send` and whether that lost them, the
datagrams put on the socket and read from it, the letters taken from the network's buffer, those put in a mailbox, and
those that `Receive` took out of each mailbox; all in order. -/
structure Office where
  inHdr : PacketHeader
  inbox : Bytes
  sendBusy : Bool
  sendDones : Nat
  sends : Nat
  buffer : Bytes
  messages : MailBoxAddress → List Mail
  posts : List (Letter × Bool)
  wire : List (NetworkAddress × Bytes)
  arrived : List (NetworkAddress × Bytes)
  taken : List Letter
  delivered : List Letter
  received : MailBoxAddress → List Letter

/-- Where a thread is. -/
inductive Loc
  /-- The main thread in the constructor, which forks the postal worker. -/
  | boot (scripts : List Script)
  /-- The main thread, which forks a thread for each script. -/
  | main (scripts : List Script)
  /-- Between two calls. -/
  | idle (script : Script)
  /-- `Send`, after `sendLock->Acquire()`. `letter` is not in the code: what `Send` was called with. -/
  | sendLocked (pktHdr : PacketHeader) (buffer : Bytes) (letter : Letter) (next : Script)
  /-- `Send`, after `messageSent->P()`. -/
  | sent (next : Script)
  /-- `SynchList::Remove`, at the test of the loop. -/
  | remove (box : MailBoxAddress) (next : Letter → Script)
  /-- `MailBox::Get`, after `SynchList::Remove`. -/
  | got (mail : Mail) (next : Letter → Script)
  /-- `PostalDelivery`, at the head of its loop. -/
  | await
  /-- `PostalDelivery`, after `messageAvailable->P()`. -/
  | deliver
  /-- `SynchList::Append`, after `lock->Acquire()`. -/
  | append (mail : Mail)
  /-- `SynchList::Append`, after `listEmpty->Signal(lock)`. -/
  | signalled (box : MailBoxAddress)

/-- `Network::Receive`. -/
def networkReceive (m : Office) : PacketHeader × Office :=
  let hdr := m.inHdr
  (hdr, { m with
    inHdr := { hdr with length := 0 }
    buffer := if hdr.length ≠ 0 then splice m.buffer 0 hdr.length.toNat m.inbox else m.buffer })

/-- `Network::SendDone`, and `PostOffice::PacketSent`. -/
def sendDone (m : Office) : Option (Office × List Sem) :=
  if m.sendDones = 0 then none
  else some ({ m with sendDones := m.sendDones - 1, sendBusy := false }, [.sent])

namespace Host

variable (h : Host)

/-- `chanceToWork`. -/
def chanceToWork : Rat :=
  if h.reliability < 0 then 0 else if h.reliability > 1 then 1 else h.reliability

/-- `Network::Send` loses its `n`-th packet. -/
def loses (n : Nat) : Bool := ((h.random n % 100 : Nat) : Rat) ≥ h.chanceToWork * 100

/-- The mailbox exists. -/
def isBox (box : MailBoxAddress) : Bool := 0 ≤ box.toInt ∧ box.toInt < h.numBoxes

/-- `Network::Send`; `none` when the assertion fails. -/
def networkSend (hdr : PacketHeader) (data : Bytes) (m : Office) : Option Office :=
  if m.sendBusy = false ∧ 0 < hdr.length.toNat ∧ hdr.length.toNat ≤ maxPacketSize ∧
      hdr.from_ = h.netAddr then
    some { m with
      sendDones := m.sendDones + 1
      sends := m.sends + 1
      wire := if h.loses m.sends then m.wire
        else m.wire ++ [(hdr.to_, packPacket (h.junk m.sends) hdr data)] }
  else none

/-- `Network::CheckPktAvail`, and `PostOffice::IncomingPacket`. -/
def checkPktAvail (packet : Option (NetworkAddress × Bytes)) (m : Office) :
    Option (Office × List Sem) :=
  if m.inHdr.length ≠ 0 then some (m, [])
  else match packet with
  | none => some (m, [])
  | some (source, d) =>
    let hdr := packetHeaderAt d 0
    if hdr.to_ = h.netAddr ∧ hdr.length.toNat ≤ maxPacketSize then
      some ({ m with
        inHdr := hdr
        inbox := splice m.inbox 0 hdr.length.toNat fun i => d (sizeofHeader + i)
        arrived := m.arrived ++ [(source, d)] }, [.available])
    else none

/-- `PostOffice::Send` up to `sendLock->Acquire()`, and `PostOffice::Receive` up to
`lock->Acquire()`; `none` when an assertion fails. -/
def call (script : Script) (m : Office) :
    Option (Office × Instr Sem Lock MailBoxAddress Loc × Loc) :=
  match script with
  | .done => some (m, .finish, .idle .done)
  | .send pktHdr mailHdr data next =>
    if mailHdr.length.toNat ≤ maxMailSize ∧ h.isBox mailHdr.to_ then
      let pktHdr := { pktHdr with
        from_ := h.netAddr
        length := mailHdr.length + BitVec.ofNat 32 sizeofHeader }
      some (m, .acquire .send, .sendLocked pktHdr (packMail (h.junk m.sends) mailHdr data)
        ⟨pktHdr, mailHdr, bytesAt data 0 mailHdr.length.toNat⟩ next)
    else none
  | .receive box next =>
    if h.isBox box then some (m, .acquire (.box box), .remove box next) else none

/-- `PostalDelivery` from `network->Receive` up to `lock->Acquire()`, with `MailBox::Put`. -/
def deliver (m : Office) : Option (Office × Instr Sem Lock MailBoxAddress Loc × Loc) :=
  let (pktHdr, m) := networkReceive m
  let mailHdr := mailHeaderAt m.buffer 0
  if h.isBox mailHdr.to_ ∧ mailHdr.length.toNat ≤ maxMailSize then
    let mail := ⟨pktHdr, mailHdr, splice (h.junk m.taken.length) 0 mailHdr.length.toNat
      fun i => m.buffer (sizeofHeader + i)⟩
    some ({ m with taken := m.taken ++ [mail.letter] }, .acquire (.box mailHdr.to_), .append mail)
  else none

end Host

/-- `SynchList::Remove` from the test of its loop. -/
def removeLoop (box : MailBoxAddress) (next : Letter → Script) (m : Office) :
    Office × Instr Sem Lock MailBoxAddress Loc × Loc :=
  match m.messages box with
  | [] => (m, .wait box (.box box), .remove box next)
  | mail :: rest => ({ m with
      messages := Function.update m.messages box rest
      received := Function.update m.received box (m.received box ++ [mail.letter]) },
    .release (.box box), .got mail next)

/-- `SynchList::Append` from `lock->Acquire()` on. -/
def putMail (mail : Mail) (m : Office) : Office :=
  let box := mail.mailHdr.to_
  { m with
    messages := Function.update m.messages box (m.messages box ++ [mail])
    delivered := m.delivered ++ [mail.letter] }

/-- The threads of a machine, and the interrupts of its network. -/
def Host.program (h : Host) : Program Sem Lock MailBoxAddress Office Loc Ev where
  code _ loc m := match loc with
    | .boot scripts => some (m, .fork .await, .main scripts)
    | .main [] => some (m, .finish, .main [])
    | .main (script :: scripts) => some (m, .fork (.idle script), .main scripts)
    | .idle script => h.call script m
    | .sendLocked pktHdr buffer letter next => (h.networkSend pktHdr buffer m).map fun m' =>
      ({ m' with posts := m.posts ++ [(letter, h.loses m.sends)] }, .P .sent, .sent next)
    | .sent next => some (m, .release .send, .idle next)
    | .remove box next => some (removeLoop box next m)
    | .got mail next =>
      -- the assertion at the end of `Receive`
      if mail.mailHdr.length.toNat ≤ maxMailSize then h.call (next mail.letter) m else none
    | .await => some (m, .P .available, .deliver)
    | .deliver => h.deliver m
    | .append mail => some (putMail mail m, .signal mail.mailHdr.to_ (.box mail.mailHdr.to_),
      .signalled mail.mailHdr.to_)
    | .signalled box => some (m, .release (.box box), .await)
  handler e m := match e with
    | .poll packet => h.checkPktAvail packet m
    | .sendDone => sendDone m

/-- The post office as it is made. -/
def Office.new (junk : Bytes) : Office :=
  ⟨⟨0, 0, 0⟩, junk, false, 0, 0, junk, fun _ => [], [], [], [], [], [], fun _ => []⟩

/-- A machine as its post office is made. -/
def Host.start (h : Host) (scripts : List Script) : Core Sem Lock MailBoxAddress Office Loc :=
  .new (fun _ => 0) (.new (h.junk 0)) (.boot scripts)

/-! ## What a step does -/

/-- The calls of a program are for mailboxes that exist, and `Send` has no more than `MaxMailSize`
bytes to send. -/
inductive Script.Valid (numBoxes : Int) : Script → Prop
  | done : Valid numBoxes .done
  | send {pktHdr mailHdr data next} (hlen : mailHdr.length.toNat ≤ maxMailSize)
    (hbox : 0 ≤ mailHdr.to_.toInt ∧ mailHdr.to_.toInt < numBoxes) (hnext : Valid numBoxes next) :
    Valid numBoxes (.send pktHdr mailHdr data next)
  | receive {box next} (hbox : 0 ≤ box.toInt ∧ box.toInt < numBoxes)
    (hnext : ∀ letter, Valid numBoxes (next letter)) : Valid numBoxes (.receive box next)

/-- A letter that a post office takes. -/
structure Letter.Fine (numBoxes : Int) (letter : Letter) : Prop where
  isBox : 0 ≤ letter.mailHdr.to_.toInt ∧ letter.mailHdr.to_.toInt < numBoxes
  length_le : letter.mailHdr.length.toNat ≤ maxMailSize
  length_eq : letter.pktHdr.length.toNat = letter.mailHdr.length.toNat + sizeofHeader

/-- What a thread has made sure of on its way to a place. -/
def Fits (h : Host) : Loc → Prop
  | .boot scripts => ∀ script ∈ scripts, script.Valid h.numBoxes
  | .main scripts => ∀ script ∈ scripts, script.Valid h.numBoxes
  | .idle script => script.Valid h.numBoxes
  | .sendLocked pktHdr buffer letter next => letterOf pktHdr buffer = letter ∧
    letter.Fine h.numBoxes ∧ pktHdr.from_ = h.netAddr ∧ next.Valid h.numBoxes
  | .sent next => next.Valid h.numBoxes
  | .remove _ next => ∀ letter, (next letter).Valid h.numBoxes
  | .got mail next => mail.mailHdr.length.toNat ≤ maxMailSize ∧
    ∀ letter, (next letter).Valid h.numBoxes
  | .append mail => mail.mailHdr.length.toNat ≤ maxMailSize
  | .await => True
  | .deliver => True
  | .signalled _ => True

def isDeliver : Loc → Bool
  | .deliver => true
  | _ => false

def isAppend : Loc → Bool
  | .append _ => true
  | _ => false

/-- The postal worker, or the main thread as long as it has not forked it. -/
def isWorker : Loc → Bool
  | .boot _ | .await | .deliver | .append _ | .signalled _ => true
  | _ => false

/-- The places before and after a step of a thread other than from `deliver` and to `append`. -/
structure Steps (h : Host) (loc : Loc) (i : Instr Sem Lock MailBoxAddress Loc) (next : Loc) : Prop where
  available : i.keepsTo (.sem .available) isDeliver loc next = true
  worker : (i.goesOn && isWorker next).toNat +
    ((Core.forked i).any isWorker).toNat = (isWorker loc).toNat
  append : isAppend next = false ∧ ∀ start, i = .fork start → isAppend start = false
  fits : Fits h next ∧ ∀ start, i = .fork start → Fits h start

/-- What the code of a thread does to the office. -/
inductive Does (h : Host) (m : Office) :
    Loc → Office → Instr Sem Lock MailBoxAddress Loc → Loc → Prop
  | goesOn {loc i next} (hsteps : Steps h loc i next) (hloc : isAppend loc = false) :
    Does h m loc m i next
  | sends {pktHdr buffer letter next m'} (hfits : Fits h (.sendLocked pktHdr buffer letter next))
    (hsend : h.networkSend pktHdr buffer m = some m') :
    Does h m (.sendLocked pktHdr buffer letter next)
      { m' with posts := m.posts ++ [(letter, h.loses m.sends)] } (.P .sent) (.sent next)
  | removes {box next mail rest} (hfits : Fits h (.remove box next))
    (hlist : m.messages box = mail :: rest) :
    Does h m (.remove box next) (removeLoop box next m).1 (.release (.box box)) (.got mail next)
  | delivers {m' i next} (hdeliver : h.deliver m = some (m', i, next)) : Does h m .deliver m' i next
  | puts {mail} (hfits : Fits h (.append mail)) :
    Does h m (.append mail) (putMail mail m) (.signal mail.mailHdr.to_ (.box mail.mailHdr.to_))
      (.signalled mail.mailHdr.to_)

variable {h : Host} {m m' : Office} {loc next : Loc} {i : Instr Sem Lock MailBoxAddress Loc}
variable {t : ThreadId}

theorem call_steps (loc : Loc) {script : Script} (hcode : h.call script m = some (m', i, next))
    (hscript : script.Valid h.numBoxes) (hloc : isWorker loc = false) :
    m' = m ∧ Steps h loc i next := by
  have hnot {l : Loc} (hl : isWorker l = false) : isDeliver l = false ∧ isAppend l = false := by
    cases l <;> first | exact ⟨rfl, rfl⟩ | cases hl
  -- none of the places is the worker's, and no call is `P` or `V` on `messageAvailable`
  have hsteps {i : Instr Sem Lock MailBoxAddress Loc} {next : Loc} (hnext : isWorker next = false)
      (htakes : i.takes ≠ some (.sem .available)) (hgives : i.gives ≠ some (.sem .available))
      (hfork : ∀ start, i ≠ .fork start) (hfits : Fits h next) : Steps h loc i next := by
    have hforked : Core.forked i = none := by
      cases i with
      | fork start => exact absurd rfl (hfork start)
      | _ => rfl
    refine ⟨?_, ?_, ⟨(hnot hnext).2, fun start hi => absurd hi (hfork start)⟩, hfits,
      fun start hi => absurd hi (hfork start)⟩
    · simp [Instr.keepsTo, htakes, hgives, hforked, (hnot hnext).1, (hnot hloc).1]
    · simp [hnext, hloc, hforked]
  cases hscript with
  | done =>
    cases hcode
    exact ⟨rfl, hsteps rfl nofun nofun nofun .done⟩
  | @send pktHdr mailHdr data script hlen hbox hvalid =>
    have hsend : mailHdr.length.toNat ≤ maxMailSize ∧ h.isBox mailHdr.to_ = true :=
      ⟨hlen, decide_eq_true hbox⟩
    simp only [Host.call, if_pos hsend] at hcode
    cases hcode
    refine ⟨rfl, hsteps rfl nofun nofun nofun ⟨letterOf_packMail _ _ _ _, ⟨hbox, hlen, ?_⟩, rfl,
      hvalid⟩⟩
    simp only [maxMailSize, maxPacketSize, maxWireSize, sizeofHeader] at hlen
    simp only [BitVec.toNat_add, BitVec.toNat_ofNat, sizeofHeader]
    omega
  | @receive box k hbox hvalid =>
    have hreceive : h.isBox box = true := decide_eq_true hbox
    simp only [Host.call, if_pos hreceive] at hcode
    cases hcode
    exact ⟨rfl, hsteps rfl nofun nofun nofun hvalid⟩

theorem code_does (hcode : h.program.code t loc m = some (m', i, next)) (hfits : Fits h loc) :
    Does h m loc m' i next := by
  cases loc with
  | boot scripts =>
    cases hcode
    exact .goesOn ⟨rfl, rfl, ⟨rfl, by rintro _ ⟨⟩; rfl⟩, hfits, by rintro _ ⟨⟩; trivial⟩ rfl
  | main scripts =>
    cases scripts with
    | nil => cases hcode; exact .goesOn ⟨rfl, rfl, ⟨rfl, nofun⟩, hfits, nofun⟩ rfl
    | cons script scripts =>
      cases hcode
      refine .goesOn ⟨rfl, rfl, ⟨rfl, by rintro _ ⟨⟩; rfl⟩, fun x hx => ?_, ?_⟩ rfl
      · exact hfits x (List.mem_cons_of_mem _ hx)
      · rintro _ ⟨⟩
        exact hfits script List.mem_cons_self
  | idle script =>
    obtain ⟨rfl, hsteps⟩ := call_steps (.idle script) hcode hfits rfl
    exact .goesOn hsteps rfl
  | sendLocked pktHdr buffer letter script =>
    obtain ⟨m₁, hsend, heq⟩ := Option.map_eq_some_iff.mp hcode
    cases heq
    exact .sends hfits hsend
  | sent script => cases hcode; exact .goesOn ⟨rfl, rfl, ⟨rfl, nofun⟩, hfits, nofun⟩ rfl
  | remove box k =>
    have hcode : removeLoop box k m = (m', i, next) := Option.some.inj hcode
    cases hlist : m.messages box with
    | nil =>
      simp only [removeLoop, hlist] at hcode
      cases hcode
      exact .goesOn ⟨rfl, rfl, ⟨rfl, nofun⟩, hfits, nofun⟩ rfl
    | cons mail rest =>
      have hdoes : Does h m (.remove box k) _ _ _ := .removes hfits hlist
      simp only [removeLoop, hlist] at hcode hdoes
      cases hcode
      exact hdoes
  | got mail k =>
    simp only [Host.program, if_pos hfits.1] at hcode
    obtain ⟨rfl, hsteps⟩ := call_steps (.got mail k) hcode (hfits.2 _) rfl
    exact .goesOn hsteps rfl
  | await => cases hcode; exact .goesOn ⟨rfl, rfl, ⟨rfl, nofun⟩, trivial, nofun⟩ rfl
  | deliver => exact .delivers hcode
  | append mail => cases hcode; exact .puts hfits
  | signalled box => cases hcode; exact .goesOn ⟨rfl, rfl, ⟨rfl, nofun⟩, trivial, nofun⟩ rfl

end Nachos.Network
