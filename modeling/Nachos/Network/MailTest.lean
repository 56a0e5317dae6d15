import Nachos.Network.Assertions

/-!
# Two machines that greet each other (network/nettest.cc)

`MailTest` sends a message to mailbox 0 of another machine, waits for one in its own
mailbox 0, acknowledges it in the mailbox that the message asks for, and waits for the
acknowledgement of its own message in mailbox 1.

* `Stage`: how far a machine has come, by what it has sent and received;
* `next_stages`: every move of the network keeps the stages;
* `mailTest_handshake`: what a machine hears, whoever talks to whom, and whatever is lost;
* `mailTest_completes`: between machines that talk to each other, nobody waits for good.

A program that sets out to acknowledge a letter in a mailbox that does not exist would
fail an assertion; the runs are those where no assertion fails.
-/

namespace Nachos.Network.MailTest

open Nachos.Framework Nachos.Threads

/-- A string, with its `'\0'`. -/
def bytes (s : List Char) : List (BitVec 8) := s.map (fun c => BitVec.ofNat 8 c.toNat) ++ [0]

/-- `data`. -/
def data : List (BitVec 8) :=
  bytes ['H', 'e', 'l', 'l', 'o', ' ', 't', 'h', 'e', 'r', 'e', '!']

/-- `ack`. -/
def ack : List (BitVec 8) := bytes ['G', 'o', 't', ' ', 'i', 't', '!']

/-- `MailTest`, after the second `Send`. -/
def afterAck : Script := .receive 1 fun _ => .done

/-- `MailTest`, after the first `Receive`. `Send` sets the other fields of `outPktHdr`. -/
def reply (letter : Letter) : Script :=
  .send ⟨letter.pktHdr.from_, 0, 0⟩ ⟨letter.mailHdr.from_, 1, BitVec.ofNat 32 ack.length⟩ (ofList ack) afterAck

/-- `MailTest`, after the first `Send`. -/
def afterData : Script := .receive 0 reply

/-- `MailTest`. -/
def mailTest (farAddr : NetworkAddress) : Script :=
  .send ⟨farAddr, 0, 0⟩ ⟨0, 1, BitVec.ofNat 32 data.length⟩ (ofList data) afterData

/-- Each machine runs `MailTest` with its `farAddr`, if it has one. -/
def RunsMailTest (farAddr : NetworkAddress → Option NetworkAddress) (x : Setup) : Prop :=
  ∀ a, x.scripts a = (farAddr a).toList.map mailTest

/-- The message of `a` to `b`. -/
def greeting (a b : NetworkAddress) : Letter :=
  ⟨⟨b, a, 25⟩, ⟨0, 1, 13⟩, data⟩

/-- What `a` answers to a letter. -/
def answer (a : NetworkAddress) (letter : Letter) : Letter :=
  ⟨⟨letter.pktHdr.from_, a, 20⟩, ⟨letter.mailHdr.from_, 1, 8⟩, ack⟩

/-! ## Stages -/

/-- How far `MailTest` has come. -/
inductive Stage
  | begins
  | greeted
  | heard (letter : Letter)
  | answered (letter : Letter)
  | through (letter letter' : Letter)

namespace Stage

/-- What the machine `a` has sent. -/
def posts (a : NetworkAddress) (farAddr : Option NetworkAddress) : Stage → List Letter
  | .begins => []
  | .greeted | .heard _ => farAddr.toList.map (greeting a)
  | .answered letter | .through letter _ => farAddr.toList.map (greeting a) ++ [answer a letter]

/-- What is received in mailbox 0. -/
def heard0 : Stage → List Letter
  | .begins | .greeted => []
  | .heard letter | .answered letter | .through letter _ => [letter]

/-- What is received in mailbox 1. -/
def heard1 : Stage → List Letter
  | .through _ letter => [letter]
  | _ => []

/-- The place of the thread that runs `MailTest`, or that has still to fork it. -/
inductive At (a b : NetworkAddress) : Stage → Loc → Prop
  | boots : At a b .begins (.boot [mailTest b])
  | forks : At a b .begins (.main [mailTest b])
  | starts : At a b .begins (.idle (mailTest b))
  | greets {pktHdr buffer} : At a b .begins (.sendLocked pktHdr buffer (greeting a b) afterData)
  | sent : At a b .greeted (.sent afterData)
  | returns : At a b .greeted (.idle afterData)
  | listens : At a b .greeted (.remove 0 reply)
  | hears {mail : Mail} : At a b (.heard mail.letter) (.got mail reply)
  | answers {letter pktHdr buffer} :
    At a b (.heard letter) (.sendLocked pktHdr buffer (answer a letter) afterAck)
  | answered {letter} : At a b (.answered letter) (.sent afterAck)
  | asks {letter} : At a b (.answered letter) (.idle afterAck)
  | waits {letter} : At a b (.answered letter) (.remove 1 fun _ => .done)
  | ends {letter} {mail : Mail} : At a b (.through letter mail.letter) (.got mail fun _ => .done)

end Stage

/-- The place of a thread that runs a program, or has still to fork one. -/
def isClient : Loc → Bool
  | .boot scripts | .main scripts => scripts ≠ []
  | .idle _ | .sendLocked _ _ _ _ | .sent _ | .remove _ _ | .got _ _ => true
  | .await | .deliver | .append _ | .signalled _ => false

/-- What the office has sent and received at a stage. -/
structure Stage.Records (a : NetworkAddress) (farAddr : Option NetworkAddress) (stage : Stage) (m : Office) :
    Prop where
  posts : m.posts.map Prod.fst = stage.posts a farAddr
  received0 : m.received 0 = stage.heard0
  received1 : m.received 1 = stage.heard1
  others : ∀ k, k ≠ 0 → k ≠ 1 → m.received k = []

/-- A machine at a stage. -/
structure Plays (a : NetworkAddress) (farAddr : Option NetworkAddress) (stage : Stage)
    (s : Core Sem Lock MailBoxAddress Office Loc) : Prop where
  queued : s.Queued
  records : stage.Records a farAddr s.mem
  client : ∀ t loc, (s.pc t).place = some loc → isClient loc = true → ∃ b ∈ farAddr, stage.At a b loc
  one : s.countAt isClient ≤ 1
  none : s.countAt isClient = 0 → (farAddr = none ∧ stage = .begins) ∨ ∃ letter letter', stage = .through letter letter'

variable {h : Host} {farAddr : Option NetworkAddress} {stage : Stage} {m m' : Office} {loc next : Loc}
variable {i : Instr Sem Lock MailBoxAddress Loc} {s u : Core Sem Lock MailBoxAddress Office Loc} {t : ThreadId}
variable {a b : NetworkAddress}

theorem Stage.Records.congr (hm : stage.Records a farAddr m) (hposts : m'.posts = m.posts)
    (hreceived : m'.received = m.received) : stage.Records a farAddr m' := by
  obtain ⟨h₁, h₂, h₃, h₄⟩ := hm
  constructor
  · rw [hposts, h₁]
  · rw [hreceived, h₂]
  · rw [hreceived, h₃]
  · rw [hreceived]
    exact h₄

/-- What the clients of a machine are after a step: how many, and where. -/
structure Clients (i : Instr Sem Lock MailBoxAddress Loc) (next : Loc) (P : Loc → Prop) (k : Nat) : Prop where
  stays : i.goesOn = true → isClient next = true → P next
  begins : ∀ start, i = .fork start → isClient start = true → P start
  count : (i.goesOn && isClient next).toNat + ((Core.forked i).any isClient).toNat = k

/-- A thread goes on that is no client. -/
theorem clients_none {P : Loc → Prop} (hforked : Core.forked i = none) (hclient : isClient next = false) :
    Clients i next P 0 where
  stays _ hnext := by
    rw [hclient] at hnext
    cases hnext
  begins start hi := by
    subst hi
    cases hforked
  count := by rw [hclient, hforked, Bool.and_false]; rfl

/-- A step of another thread: it neither sends nor receives. -/
theorem other_code (hcode : h.program.code t loc m = some (m', i, next)) (hloc : isClient loc = false) :
    m'.posts = m.posts ∧ m'.received = m.received ∧ Clients i next (fun _ => False) 0 := by
  cases loc with
  | idle _ | sendLocked _ _ _ _ | sent _ | remove _ _ | got _ _ => cases hloc
  | boot scripts =>
    cases hcode
    obtain rfl : scripts = [] := by simpa [isClient] using hloc
    refine ⟨rfl, rfl, ⟨fun _ hclient => Bool.noConfusion hclient, fun start hi hclient => ?_, rfl⟩⟩
    cases hi
    cases hclient
  | main scripts =>
    obtain rfl : scripts = [] := by simpa [isClient] using hloc
    cases hcode
    refine ⟨rfl, rfl, ⟨fun hgoes => Bool.noConfusion hgoes, fun start hi => ?_, rfl⟩⟩
    cases hi
  | deliver =>
    have hcode : h.deliver m = some (m', i, next) := hcode
    unfold Host.deliver at hcode
    dsimp only at hcode
    split at hcode
    · cases hcode
      exact ⟨rfl, rfl, clients_none rfl rfl⟩
    · cases hcode
  | await | append _ | signalled _ =>
    cases hcode
    exact ⟨rfl, rfl, clients_none rfl rfl⟩

/-- `Send`, with a mail header and data that are to make a letter. -/
theorem call_send {pktHdr : PacketHeader} {mailHdr : MailHeader} {data : Bytes} {script : Script}
    (hcode : h.call (.send pktHdr mailHdr data script) m = some (m', i, next)) :
    m' = m ∧ i = .acquire .send ∧ ∃ pktHdr' buffer, next = .sendLocked pktHdr' buffer
      ⟨⟨pktHdr.to_, h.netAddr, mailHdr.length + BitVec.ofNat 32 sizeofHeader⟩, mailHdr,
        bytesAt data 0 mailHdr.length.toNat⟩ script := by
  unfold Host.call at hcode
  dsimp only at hcode
  split at hcode
  · cases hcode
    exact ⟨rfl, rfl, _, _, rfl⟩
  · cases hcode

theorem call_receive {box : MailBoxAddress} {f : Letter → Script}
    (hcode : h.call (.receive box f) m = some (m', i, next)) :
    m' = m ∧ i = .acquire (.box box) ∧ next = .remove box f := by
  unfold Host.call at hcode
  dsimp only at hcode
  split at hcode
  · cases hcode
    exact ⟨rfl, rfl, rfl⟩
  · cases hcode

theorem networkSend_frame {pktHdr : PacketHeader} {buffer : Bytes}
    (hsend : h.networkSend pktHdr buffer m = some m') : m'.received = m.received := by
  unfold Host.networkSend at hsend
  split at hsend
  · cases hsend
    rfl
  · cases hsend

/-- One client goes on, with the stage that its step leads to. -/
theorem clients_one {P : Loc → Prop} (hgoes : i.goesOn = true) (hforked : Core.forked i = none)
    (hclient : isClient next = true) (hnext : P next) : Clients i next P 1 where
  stays _ _ := hnext
  begins start hi := by
    subst hi
    cases hforked
  count := by rw [hgoes, hclient, hforked]; rfl

/-- A step of the client. -/
theorem client_code (hcode : h.program.code t loc m = some (m', i, next)) (hb : farAddr = some b)
    (hm : stage.Records h.netAddr farAddr m) (hat : stage.At h.netAddr b loc) :
    ∃ stage' : Stage, stage'.Records h.netAddr farAddr m' ∧
      (Clients i next (fun loc => stage'.At h.netAddr b loc) 1 ∨
        Clients i next (fun loc => stage'.At h.netAddr b loc) 0 ∧ ∃ letter letter', stage' = .through letter letter') := by
  subst hb
  cases hat with
  | boots =>
    cases hcode
    refine ⟨.begins, hm, .inl ⟨fun _ _ => .forks, fun start hi hclient => ?_, rfl⟩⟩
    cases hi
    cases hclient
  | forks =>
    cases hcode
    refine ⟨.begins, hm, .inl ⟨fun _ hclient => ?_, fun start hi _ => ?_, rfl⟩⟩
    · cases hclient
    · cases hi
      exact .starts
  | starts =>
    obtain ⟨rfl, rfl, pktHdr, buffer, rfl⟩ := call_send hcode
    exact ⟨.begins, hm, .inl (clients_one rfl rfl rfl .greets)⟩
  | greets =>
    obtain ⟨m₁, hsend, heq⟩ := Option.map_eq_some_iff.mp hcode
    cases heq
    refine ⟨.greeted, ⟨?_, ?_, ?_, ?_⟩, .inl (clients_one rfl rfl rfl .sent)⟩
    · show (m.posts ++ _).map Prod.fst = _
      rw [List.map_append, hm.posts]
      rfl
    · exact (congrFun (networkSend_frame hsend) 0).trans hm.received0
    · exact (congrFun (networkSend_frame hsend) 1).trans hm.received1
    · exact fun k h0 h1 => (congrFun (networkSend_frame hsend) k).trans (hm.others k h0 h1)
  | sent =>
    cases hcode
    exact ⟨.greeted, hm, .inl (clients_one rfl rfl rfl .returns)⟩
  | returns =>
    obtain ⟨rfl, rfl, rfl⟩ := call_receive hcode
    exact ⟨.greeted, hm, .inl (clients_one rfl rfl rfl .listens)⟩
  | listens =>
    have hcode : removeLoop 0 reply m = (m', i, next) := Option.some.inj hcode
    unfold removeLoop at hcode
    split at hcode
    · cases hcode
      exact ⟨.greeted, hm, .inl (clients_one rfl rfl rfl .listens)⟩
    next mail rest hlist =>
      cases hcode
      refine ⟨.heard mail.letter, ⟨hm.posts, ?_, ?_, fun k h0 h1 => ?_⟩, .inl (clients_one rfl rfl rfl .hears)⟩
      · show Function.update m.received 0 (m.received 0 ++ [mail.letter]) 0 = [mail.letter]
        rw [Function.update_self, hm.received0]
        rfl
      · show Function.update m.received 0 (m.received 0 ++ [mail.letter]) 1 = []
        rw [Function.update_of_ne (by decide)]
        exact hm.received1
      · exact (Function.update_of_ne h0 _ _).trans (hm.others k h0 h1)
  | @hears mail =>
    unfold Host.program at hcode
    dsimp only at hcode
    split at hcode
    · obtain ⟨rfl, rfl, pktHdr, buffer, rfl⟩ := call_send hcode
      exact ⟨.heard mail.letter, hm, .inl (clients_one rfl rfl rfl .answers)⟩
    · cases hcode
  | @answers letter _ _ =>
    obtain ⟨m₁, hsend, heq⟩ := Option.map_eq_some_iff.mp hcode
    cases heq
    refine ⟨.answered letter, ⟨?_, ?_, ?_, ?_⟩, .inl (clients_one rfl rfl rfl .answered)⟩
    · show (m.posts ++ _).map Prod.fst = _
      rw [List.map_append, hm.posts]
      rfl
    · exact (congrFun (networkSend_frame hsend) 0).trans hm.received0
    · exact (congrFun (networkSend_frame hsend) 1).trans hm.received1
    · exact fun k h0 h1 => (congrFun (networkSend_frame hsend) k).trans (hm.others k h0 h1)
  | @answered letter =>
    cases hcode
    exact ⟨.answered letter, hm, .inl (clients_one rfl rfl rfl .asks)⟩
  | @asks letter =>
    obtain ⟨rfl, rfl, rfl⟩ := call_receive hcode
    exact ⟨.answered letter, hm, .inl (clients_one rfl rfl rfl .waits)⟩
  | @waits letter =>
    have hcode : removeLoop 1 (fun _ => .done) m = (m', i, next) := Option.some.inj hcode
    unfold removeLoop at hcode
    split at hcode
    · cases hcode
      exact ⟨.answered letter, hm, .inl (clients_one rfl rfl rfl .waits)⟩
    next mail rest hlist =>
      cases hcode
      refine ⟨.through letter mail.letter, ⟨hm.posts, ?_, ?_, fun k h0 h1 => ?_⟩,
        .inl (clients_one rfl rfl rfl .ends)⟩
      · show Function.update m.received 1 (m.received 1 ++ [mail.letter]) 0 = [letter]
        rw [Function.update_of_ne (by decide)]
        exact hm.received0
      · show Function.update m.received 1 (m.received 1 ++ [mail.letter]) 1 = [mail.letter]
        rw [Function.update_self, hm.received1]
        rfl
      · exact (Function.update_of_ne h1 _ _).trans (hm.others k h0 h1)
  | @ends letter mail =>
    unfold Host.program at hcode
    dsimp only at hcode
    split at hcode
    · cases hcode
      refine ⟨.through letter mail.letter, hm, .inr ⟨⟨fun hgoes => ?_, fun start hi => ?_, rfl⟩, _, _, rfl⟩⟩
      · cases hgoes
      · cases hi
    · cases hcode

/-! ## Runs -/

/-- A machine goes from stage to stage. -/
theorem next_plays {v : Move Ev} (hs : Plays h.netAddr farAddr stage s) (hnext : s.next h.program v = some u) :
    ∃ stage', Plays h.netAddr farAddr stage' u := by
  have hqueued := Core.next_queued hs.queued hnext
  cases v with
  | interrupt ev =>
    obtain ⟨⟨ts, u'⟩, hint, rfl⟩ := Option.map_eq_some_iff.mp hnext
    have hcount := Core.interrupt_countAt isClient hint
    obtain ⟨m, xs, hhandler, heq⟩ := Core.interrupt_eq_some hint
    obtain ⟨hmem, hpc, -, -, -⟩ := Core.signalAll_frame xs { s with mem := m }
    rw [← show u' = (Core.signalAll xs { s with mem := m }).2 from congrArg Prod.snd heq] at hmem hpc
    have hmem : u'.mem = m := hmem
    have hpc : u'.pc = s.pc := hpc
    obtain ⟨-, hposts, hreceived⟩ := handler_frame hhandler
    refine ⟨stage, hqueued, ?_, ?_, hcount.trans_le hs.one, fun hzero => hs.none (hcount.symm.trans hzero)⟩
    · rw [hmem]
      exact hs.records.congr hposts hreceived
    · rw [hpc]
      exact hs.client
  | thread t =>
    obtain ⟨⟨e, u'⟩, hstep, rfl⟩ := Option.map_eq_some_iff.mp hnext
    obtain ⟨hmem, hplace, htotal⟩ | ⟨loc, m, i, next, hcode, hmem, hmoves⟩ := Core.step_moves hs.queued hstep
    · have hcount : u'.countAt isClient = s.countAt isClient := htotal _
      refine ⟨stage, hqueued, hmem ▸ hs.records, fun t' loc' => ?_, hcount.trans_le hs.one,
        fun hzero => hs.none (hcount.symm.trans hzero)⟩
      rw [hplace t']
      exact hs.client t' loc'
    · have hloc : (s.pc t).place = some loc := by
        rw [hmoves.pc]
        rfl
      have hcount {k : Nat} {P : Loc → Prop} (hclients : Clients i next P k) :
          u'.countAt isClient + (isClient loc).toNat = s.countAt isClient + k := by
        have htotal := hmoves.total fun loc => (isClient loc).toNat
        have hk := hclients.count
        unfold Core.countAt
        cases hgoes : i.goesOn <;> cases hforked : Core.forked i <;> simp [hgoes, hforked] at htotal hk <;> omega
      cases hclient : isClient loc with
      | false =>
        obtain ⟨hposts, hreceived, hclients⟩ := other_code hcode hclient
        have hcount := hcount hclients
        rw [hclient] at hcount
        have hcount : u'.countAt isClient = s.countAt isClient := hcount
        refine ⟨stage, hqueued, hmem ▸ hs.records.congr hposts hreceived, fun t' loc' hpc hloc' => ?_,
          hcount.trans_le hs.one, fun hzero => hs.none (hcount.symm.trans hzero)⟩
        obtain ⟨-, hsame⟩ | ⟨-, hgoes, rfl⟩ | ⟨-, hfork, -⟩ := hmoves.place_cases hpc
        · exact hs.client t' loc' hsame hloc'
        · exact (hclients.stays hgoes hloc').elim
        · exact (hclients.begins loc' hfork hloc').elim
      | true =>
        obtain ⟨b, hb, hat⟩ := hs.client t loc hloc hclient
        obtain ⟨stage', hrecords, hclients⟩ := client_code hcode hb hs.records hat
        have hone := hs.one
        -- no other thread is a client
        have hclient' {k : Nat} (hclients : Clients i next (fun loc => stage'.At h.netAddr b loc) k)
            (t' : ThreadId) (loc' : Loc) (hpc : (u'.pc t').place = some loc') (hloc' : isClient loc' = true) :
            ∃ b ∈ farAddr, stage'.At h.netAddr b loc' := by
          obtain ⟨hne, hsame⟩ | ⟨-, hgoes, rfl⟩ | ⟨-, hfork, -⟩ := hmoves.place_cases hpc
          · exact absurd (Core.eq_of_countAt_le_one hs.queued hone hloc hclient hsame hloc') hne
          · exact ⟨b, hb, hclients.stays hgoes hloc'⟩
          · exact ⟨b, hb, hclients.begins loc' hfork hloc'⟩
        have hpos := Core.countAt_pos hs.queued hloc hclient
        rw [hclient] at hcount
        obtain hclients | ⟨hclients, hover⟩ := hclients
        · have hcount := hcount hclients
          have hcount : u'.countAt isClient = s.countAt isClient := Nat.add_right_cancel hcount
          exact ⟨stage', hqueued, hmem ▸ hrecords, hclient' hclients, hcount.trans_le hone,
            fun hzero => absurd (hcount.symm.trans hzero) hpos.ne'⟩
        · have hcount := hcount hclients
          have hzero : u'.countAt isClient ≤ 1 := (Nat.le_succ _).trans (hcount.trans_le hone)
          exact ⟨stage', hqueued, hmem ▸ hrecords, hclient' hclients, hzero, fun _ => .inr hover⟩

theorem start_plays (h : Host) (farAddr : Option NetworkAddress) :
    Plays h.netAddr farAddr .begins (h.start (farAddr.toList.map mailTest)) where
  queued := Core.new_queued _ _ _
  records := ⟨rfl, rfl, rfl, fun _ _ _ => rfl⟩
  client t loc hpc hloc := by
    by_cases ht : t = 0
    · subst ht
      obtain rfl := Option.some.inj hpc
      cases farAddr with
      | none => cases hloc
      | some b => exact ⟨b, rfl, .boots⟩
    · simp [Host.start, Core.new, ht, PC.place] at hpc
  one := by
    rw [show (h.start _).countAt isClient = _ from Core.new_totalAt _ _ _ _]
    exact Bool.toNat_le _
  none hzero := by
    rw [show (h.start _).countAt isClient = _ from Core.new_totalAt _ _ _ _] at hzero
    cases farAddr with
    | none => exact .inl ⟨rfl, rfl⟩
    | some b => cases hzero

variable {x : Setup} {n n' : Net} {far : NetworkAddress → Option NetworkAddress}

/-- All machines are at some stage. -/
def Stages (far : NetworkAddress → Option NetworkAddress) (n : Net) : Prop :=
  ∀ a, ∃ stage, Plays a (far a) stage (n a)

theorem next_stages {v : NetMove} (hn : Stages far n) (hnext : x.next v n = some n') : Stages far n' := by
  obtain ⟨a, w, u, -, hu, rfl⟩ := next_eq_some hnext
  intro b
  by_cases hb : b = a
  · subst hb
    rw [Function.update_self]
    obtain ⟨stage, hs⟩ := hn b
    exact next_plays (h := x.host b) hs hu
  · rw [Function.update_of_ne hb]
    exact hn b

theorem run_stages {ms : List NetMove} (hscripts : RunsMailTest far x)
    (hrun : run x.next ms x.start = some n) : Stages far n := by
  refine run_invariant (fun _ _ _ hn hnext => next_stages hn hnext) (fun a => ⟨.begins, ?_⟩) hrun
  have hstart := start_plays (x.host a) (far a)
  rw [← hscripts a] at hstart
  exact hstart

/-! ## What is heard -/

/-- What a machine at a stage has sent. -/
theorem Plays.mem_posts {letter : Letter} (hs : Plays a farAddr stage s)
    (hletter : letter ∈ s.mem.posts.map Prod.fst) : (∃ b ∈ farAddr, letter = greeting a b) ∨
      ∃ heard, s.mem.received 0 = [heard] ∧ letter = answer a heard := by
  rw [hs.records.posts] at hletter
  rw [hs.records.received0]
  cases stage with
  | begins => cases hletter
  | greeted | heard _ =>
    obtain ⟨b, hb, rfl⟩ := List.mem_map.mp hletter
    exact .inl ⟨b, Option.mem_toList.mp hb, rfl⟩
  | answered heard | through heard _ =>
    obtain hletter | hletter := List.mem_append.mp hletter
    · obtain ⟨b, hb, rfl⟩ := List.mem_map.mp hletter
      exact .inl ⟨b, Option.mem_toList.mp hb, rfl⟩
    · exact .inr ⟨heard, rfl, List.mem_singleton.mp hletter⟩

/-- Whoever is past the first `Send` has sent its message. -/
theorem Plays.greeting_mem (hs : Plays a (some b) stage s) (hstage : stage ≠ .begins) :
    greeting a b ∈ s.mem.posts.map Prod.fst := by
  rw [hs.records.posts]
  cases stage with
  | begins => exact absurd rfl hstage
  | greeted | heard _ | answered _ | through _ _ => exact List.mem_cons_self

/-- Whoever is past the second `Send` has answered what it has heard. -/
theorem Plays.answer_mem (hs : Plays a farAddr stage s) {letter : Letter}
    (hstage : stage = .answered letter ∨ ∃ letter', stage = .through letter letter') :
    s.mem.received 0 = [letter] ∧ answer a letter ∈ s.mem.posts.map Prod.fst := by
  rw [hs.records.posts, hs.records.received0]
  obtain rfl | ⟨letter', rfl⟩ := hstage
  · exact ⟨rfl, List.mem_append_right _ (List.mem_singleton_self _)⟩
  · exact ⟨rfl, List.mem_append_right _ (List.mem_singleton_self _)⟩

section

variable {ms : List NetMove} (hscripts : RunsMailTest far x) (hrun : run x.next ms x.start = some n)
include hscripts hrun

/-- All letters are to be answered in mailbox 1. -/
theorem from_of_received {letter : Letter} {k : MailBoxAddress} (hletter : letter ∈ (n a).mem.received k) :
    letter.mailHdr.from_ = 1 := by
  obtain ⟨hposts, -, -⟩ := mem_posts_of_received hrun hletter
  obtain ⟨stage, hs⟩ := run_stages hscripts hrun letter.pktHdr.from_
  obtain ⟨b, -, heq⟩ | ⟨heard, -, heq⟩ := hs.mem_posts hposts
  · rw [heq]
    rfl
  · rw [heq]
    rfl

theorem received0_eq {letter : Letter} (hletter : letter ∈ (n a).mem.received 0) :
    ∃ c, far c = some a ∧ letter = greeting c a := by
  obtain ⟨hposts, hto, hbox⟩ := mem_posts_of_received hrun hletter
  obtain ⟨stage, hs⟩ := run_stages hscripts hrun letter.pktHdr.from_
  obtain ⟨b, hb, heq⟩ | ⟨heard, hheard, heq⟩ := hs.mem_posts hposts
  · obtain rfl : b = a := by
      rw [heq] at hto
      exact hto
    exact ⟨letter.pktHdr.from_, hb, heq⟩
  · -- an acknowledgement is not for mailbox 0
    have hone : heard.mailHdr.from_ = 1 :=
      from_of_received hscripts hrun (a := letter.pktHdr.from_) (k := 0) (by rw [hheard]; exact List.mem_singleton_self _)
    have hzero : heard.mailHdr.from_ = 0 := by
      rw [heq] at hbox
      exact hbox
    rw [hone] at hzero
    cases hzero

theorem received1_eq {letter : Letter} (hletter : letter ∈ (n a).mem.received 1) :
    ∃ b, far a = some b ∧ letter = answer b (greeting a b) ∧ (n b).mem.received 0 = [greeting a b] := by
  obtain ⟨hposts, hto, hbox⟩ := mem_posts_of_received hrun hletter
  obtain ⟨stage, hs⟩ := run_stages hscripts hrun letter.pktHdr.from_
  generalize letter.pktHdr.from_ = c at hposts hs
  obtain ⟨b, -, heq⟩ | ⟨heard, hheard, heq⟩ := hs.mem_posts hposts
  · -- a message is not for mailbox 1
    rw [heq] at hbox
    cases hbox
  · have hmem : heard ∈ (n c).mem.received 0 := by rw [hheard]; exact List.mem_singleton_self _
    obtain ⟨d, hd, rfl⟩ := received0_eq hscripts hrun hmem
    obtain rfl : d = a := by
      rw [heq] at hto
      exact hto
    exact ⟨c, hd, heq, hheard⟩

end

/-- Whoever is to talk to whom, and whatever is lost: what a machine has received in mailbox 0 is
nothing, or one message of a machine that is to talk to it; and what it has received in mailbox 1 is
nothing, or one acknowledgement, by the machine that it talks to, of its message, which that machine has
received; and there is nothing else. -/
theorem mailTest_handshake {ms : List NetMove} (hscripts : RunsMailTest far x)
    (hrun : run x.next ms x.start = some n) (a : NetworkAddress) :
    ((n a).mem.received 0 = [] ∨ ∃ c, far c = some a ∧ (n a).mem.received 0 = [greeting c a]) ∧
    ((n a).mem.received 1 = [] ∨ ∃ b, far a = some b ∧ (n a).mem.received 1 = [answer b (greeting a b)] ∧
      (n b).mem.received 0 = [greeting a b]) ∧
    ∀ k, k ≠ 0 → k ≠ 1 → (n a).mem.received k = [] := by
  obtain ⟨stage, hs⟩ := run_stages hscripts hrun a
  refine ⟨?_, ?_, hs.records.others⟩
  · have heard0 (letter : Letter) (hmem : letter ∈ (n a).mem.received 0) := received0_eq hscripts hrun hmem
    rw [hs.records.received0] at heard0 ⊢
    cases stage with
    | begins | greeted => exact .inl rfl
    | heard letter | answered letter | through letter _ =>
      obtain ⟨c, hc, rfl⟩ := heard0 _ (List.mem_singleton_self _)
      exact .inr ⟨c, hc, rfl⟩
  · have heard1 (letter : Letter) (hmem : letter ∈ (n a).mem.received 1) := received1_eq hscripts hrun hmem
    rw [hs.records.received1] at heard1 ⊢
    cases stage with
    | begins | greeted | heard _ | answered _ => exact .inl rfl
    | through _ letter =>
      obtain ⟨b, hb, rfl, hheard⟩ := heard1 _ (List.mem_singleton_self _)
      exact .inr ⟨b, hb, rfl, hheard⟩

/-! ## Nobody waits for good -/

/-- `Send` and `Receive` pass their assertions, as far as they depend on their arguments only. -/
theorem call_send_isSome {pktHdr : PacketHeader} {mailHdr : MailHeader} {data : Bytes} {script : Script}
    (hlen : mailHdr.length.toNat ≤ maxMailSize) (hbox : 0 ≤ mailHdr.to_.toInt ∧ mailHdr.to_.toInt < h.numBoxes) :
    (h.call (.send pktHdr mailHdr data script) m).isSome := by
  simp [Host.call, Host.isBox, hlen, hbox]

theorem call_receive_isSome {box : MailBoxAddress} {f : Letter → Script}
    (hbox : 0 ≤ box.toInt ∧ box.toInt < h.numBoxes) : (h.call (.receive box f) m).isSome := by
  simp [Host.call, Host.isBox, hbox]

section

variable {ms : List NetMove} (hscripts : RunsMailTest far x) (hboxes : 2 ≤ x.numBoxes)
  (hrun : run x.next ms x.start = some n)
include hscripts hboxes hrun

/-- No assertion fails where there are mailboxes 0 and 1. -/
theorem code_isSome (hpc : (n a).pc t = .user loc) : ((x.host a).program.code t loc (n a).mem).isSome := by
  obtain ⟨stage, hs⟩ := run_stages hscripts hrun a
  have hlive := (run_alive (setup_guard_valid x) (run_guard hrun)).live a
  have hplace : ((n a).pc t).place = some loc := by
    rw [hpc]
    rfl
  have hguard : ((n.guard x.numBoxes a).pc t) = .user (loc.guard x.numBoxes) := by
    rw [Net.guard, Core.map_pc, hpc]
    rfl
  have hbox0 : (0 : Int) ≤ (0 : MailBoxAddress).toInt ∧ (0 : MailBoxAddress).toInt < x.numBoxes :=
    ⟨le_rfl, by rw [show (0 : MailBoxAddress).toInt = 0 from rfl]; omega⟩
  have hbox1 : (0 : Int) ≤ (1 : MailBoxAddress).toInt ∧ (1 : MailBoxAddress).toInt < x.numBoxes :=
    ⟨by decide, by rw [show (1 : MailBoxAddress).toInt = 1 from by decide]; omega⟩
  cases loc with
  | idle script =>
    obtain ⟨b, -, hat⟩ := hs.client t _ hplace rfl
    cases hat with
    | starts => exact call_send_isSome (by decide) hbox0
    | returns => exact call_receive_isSome hbox0
    | asks => exact call_receive_isSome hbox1
  | got mail f =>
    obtain ⟨b, -, hat⟩ := hs.client t _ hplace rfl
    have hlen : mail.mailHdr.length.toNat ≤ maxMailSize :=
      (hlive.handles.fits t (.got mail _) (by rw [hguard]; rfl)).1
    unfold Host.program
    dsimp only
    rw [if_pos hlen]
    cases hat with
    | hears =>
      have hone : mail.letter.mailHdr.from_ = 1 := from_of_received hscripts hrun (a := a) (k := 0) (by
        rw [hs.records.received0]
        exact List.mem_singleton_self _)
      exact call_send_isSome (show (BitVec.ofNat 32 ack.length).toNat ≤ maxMailSize by decide) (hone ▸ hbox1)
    | ends => rfl
  | boot _ | main _ | sendLocked _ _ _ _ | sent _ | remove _ _ | await | deliver | append _ | signalled _ =>
    exact code_isSome_of_guard (by simp) (by simp) (hlive.handles.code_isSome hguard)

theorem allAsleep_of_atRest (hrest : AtRest x n a) :
    (n.guard x.numBoxes a).AllAsleep ∧ (n.guard x.numBoxes a).mem.sendDones = 0 := by
  obtain ⟨hsleep, hdones⟩ := hrest.allAsleep fun t loc => code_isSome hscripts hboxes hrun
  exact ⟨allAsleep_guard hsleep, hdones⟩

/-- Where a machine is that is at rest. -/
theorem stage_of_atRest (hrest : AtRest x n a) (hs : Plays a (some b) stage (n a)) :
    (stage = .greeted ∧ (n a).mem.messages 0 = []) ∨
    (∃ letter, stage = .answered letter ∧ (n a).mem.messages 1 = []) ∨
    ∃ letter letter', stage = .through letter letter' := by
  have hlive := (run_alive (setup_guard_valid x) (run_guard hrun)).live a
  obtain ⟨hsleep, hdones⟩ := allAsleep_of_atRest hscripts hboxes hrun hrest
  by_cases hzero : (n a).countAt isClient = 0
  · obtain ⟨hnone, -⟩ | hover := hs.none hzero
    · cases hnone
    · exact .inr (.inr hover)
  · obtain ⟨t, loc, hplace, hclient⟩ := Core.exists_of_countAt_pos (Nat.pos_of_ne_zero hzero)
    obtain ⟨b, -, hat⟩ := hs.client t loc hplace hclient
    have hguard : ((n.guard x.numBoxes a).pc t).place = some (loc.guard x.numBoxes) := by
      rw [Net.guard, Core.map_pc]
      cases hpc : (n a).pc t <;> rw [hpc] at hplace <;> cases hplace <;> rfl
    obtain hpc | hpc | ⟨k, f, hpc, hmessages⟩ := hlive.waits hsleep hdones t
    · rw [hpc] at hguard
      cases hguard
    · rw [hpc] at hguard
      cases hat <;> cases hguard
    · rw [hpc] at hguard
      cases hat with
      | listens =>
        cases hguard
        exact .inl ⟨rfl, hmessages⟩
      | @waits letter =>
        cases hguard
        exact .inr (.inl ⟨letter, rfl, hmessages⟩)
      | _ => cases hguard

/-- What one machine has sent to another one that is at rest. -/
theorem posts_of_atRest (hrest : AtRest x n a) (hreliable : 1 ≤ x.reliability b) (hflight : n.flight b a = [])
    {k : MailBoxAddress} (hmessages : (n a).mem.messages k = []) (hreceived : (n a).mem.received k = [])
    {letter : Letter} (hletter : letter ∈ (n b).mem.posts.map Prod.fst) :
    ¬ (letter.pktHdr.to_ = a ∧ letter.mailHdr.to_ = k) := by
  intro haddr
  have hlive := (run_alive (setup_guard_valid x) (run_guard hrun)).live a
  obtain ⟨hsleep, hdones⟩ := allAsleep_of_atRest hscripts hboxes hrun hrest
  have hposts := posts_of_delivered (a := b) (k := k) (setup_guard_valid x) (run_guard hrun)
    (hlive.delivered hsleep hdones) hreliable hflight
  have hmem : letter ∈ ((n b).mem.posts.map Prod.fst).filter fun l => l.pktHdr.to_ = a ∧ l.mailHdr.to_ = k :=
    List.mem_filter.mpr ⟨hletter, decide_eq_true haddr⟩
  rw [show ((n b).mem.posts.map Prod.fst).filter _ = _ from hposts] at hmem
  rw [show (n.guard x.numBoxes a).mem = (n a).mem from rfl, hmessages, hreceived] at hmem
  cases hmem

end

/-- Machines that talk to each other, and lose nothing: once each has its acknowledgement, or is at rest
with nothing on the way to it, each has got the message of the other one, and the acknowledgement of
its own. So nobody waits for good. -/
theorem mailTest_completes {ms : List NetMove} (hscripts : RunsMailTest far x) (hboxes : 2 ≤ x.numBoxes)
    (hreliable : ∀ a, 1 ≤ x.reliability a) (hsymm : ∀ a b, far a = some b → far b = some a)
    (hrun : run x.next ms x.start = some n)
    (hend : ∀ a b, far a = some b → (n a).mem.received 1 ≠ [] ∨ AtRest x n a ∧ n.flight b a = []) :
    ∀ a b, far a = some b →
      (n a).mem.received 0 = [greeting b a] ∧ (n a).mem.received 1 = [answer b (greeting a b)] := by
  -- nobody waits for an acknowledgement for good
  have hack {a b : NetworkAddress} (hab : far a = some b) : (n a).mem.received 1 ≠ [] := by
    intro hnone
    obtain hack | ⟨hrest, hflight⟩ := hend a b hab
    · exact hack hnone
    have hba := hsymm a b hab
    obtain ⟨stage, hs⟩ := run_stages hscripts hrun a
    obtain ⟨stage', hs'⟩ := run_stages hscripts hrun b
    rw [hab] at hs
    rw [hba] at hs'
    obtain ⟨rfl, hmessages⟩ | ⟨letter, rfl, hmessages⟩ | ⟨letter, letter', rfl⟩ :=
      stage_of_atRest hscripts hboxes hrun hrest hs
    · -- `a` waits for the message of `b`, which has not sent it, and so is not at rest
      have hbegins : stage' = .begins := by
        by_contra hlater
        exact posts_of_atRest hscripts hboxes hrun hrest (hreliable b) hflight hmessages hs.records.received0
          (hs'.greeting_mem hlater) ⟨rfl, rfl⟩
      subst hbegins
      obtain hack' | ⟨hrest', -⟩ := hend b a hba
      · exact hack' hs'.records.received1
      · obtain ⟨h, -⟩ | ⟨_, h, -⟩ | ⟨_, _, h⟩ := stage_of_atRest hscripts hboxes hrun hrest' hs' <;> cases h
    · -- `a` waits for the acknowledgement of `b`, which has not sent it
      have hnot (heard : Letter) (hlater : stage' = .answered heard ∨ ∃ letter', stage' = .through heard letter') :
          False := by
        obtain ⟨hheard, hmem⟩ := hs'.answer_mem hlater
        have hheard : heard ∈ (n b).mem.received 0 := by
          rw [hheard]
          exact List.mem_singleton_self _
        obtain ⟨c, hc, rfl⟩ := received0_eq hscripts hrun hheard
        have hca : c = a := Option.some.inj ((hsymm c b hc).symm.trans hba)
        exact posts_of_atRest hscripts hboxes hrun hrest (hreliable b) hflight hmessages hnone hmem ⟨hca, rfl⟩
      obtain hack' | ⟨hrest', hflight'⟩ := hend b a hba
      · rw [hs'.records.received1] at hack'
        cases stage' with
        | through heard letter' => exact hnot heard (.inr ⟨letter', rfl⟩)
        | _ => exact hack' rfl
      · obtain ⟨rfl, hmessages'⟩ | ⟨heard, hheard, -⟩ | ⟨heard, letter', hover⟩ :=
          stage_of_atRest hscripts hboxes hrun hrest' hs'
        · -- it waits for the message of `a` in turn, which is there
          exact posts_of_atRest hscripts hboxes hrun hrest' (hreliable a) hflight' hmessages'
            hs'.records.received0 (hs.greeting_mem (by simp)) ⟨rfl, rfl⟩
        · exact hnot heard (.inl hheard)
        · exact hnot heard (.inr ⟨letter', hover⟩)
    · rw [hs.records.received1] at hnone
      cases hnone
  intro a b hab
  obtain hnone | ⟨c, hc, hreceived, -⟩ := (mailTest_handshake hscripts hrun a).2.1
  · exact absurd hnone (hack hab)
  obtain rfl : c = b := Option.some.inj (hc.symm.trans hab)
  obtain hnone | ⟨d, hd, -, hheard⟩ := (mailTest_handshake hscripts hrun c).2.1
  · exact absurd hnone (hack (hsymm a c hab))
  obtain rfl : d = a := Option.some.inj (hd.symm.trans (hsymm a c hab))
  exact ⟨hheard, hreceived⟩

/-- Machines 0 and 1 talk to each other, as in `nachos -m 0 -o 1` and `nachos -m 1 -o 0`. -/
def otherMachine (a : NetworkAddress) : Option NetworkAddress :=
  if a = 0 then some 1 else if a = 1 then some 0 else none

def nettest : Setup where
  numBoxes := 10
  reliability _ := 1
  random _ _ := 7
  junk _ _ _ := 255
  scripts a := (otherMachine a).toList.map mailTest

theorem otherMachine_symm (a b : NetworkAddress) (hab : otherMachine a = some b) : otherMachine b = some a := by
  unfold otherMachine at hab
  split at hab
  next ha =>
    cases hab
    rw [ha]
    rfl
  next =>
    split at hab
    next ha =>
      cases hab
      rw [ha]
      rfl
    next => cases hab

/-- Both machines run until nothing moves. -/
def nettestMoves : List NetMove :=
  [0, 0, 0, 2, 2].map (.thread 0) ++ .sendDone 0 :: [2, 2, 2, 2].map (.thread 0) ++
  [0, 0, 0, 1, 2, 2].map (.thread 1) ++ .sendDone 1 :: [2, 2, 2, 2].map (.thread 1) ++
  .poll 0 (some 1) :: [1, 1, 1, 2, 1, 2, 2, 2, 2].map (.thread 0) ++ .sendDone 0 ::
    [2, 2, 2, 2, 1].map (.thread 0) ++
  .poll 1 (some 0) :: [1, 1, 1, 1, 1, 2, 2, 2, 2].map (.thread 1) ++ .sendDone 1 ::
    [2, 2, 2, 2].map (.thread 1) ++
  .poll 0 (some 1) :: [1, 1, 1, 2, 1, 2, 2, 2, 1].map (.thread 0) ++
  .poll 1 (some 0) :: [1, 1, 1, 1, 1, 2, 2, 2].map (.thread 1)

theorem run_nettestMoves : ((run nettest.next nettestMoves nettest.start).any fun n =>
    (n 0).mem.received 1 = [⟨⟨0, 1, 20⟩, ⟨1, 1, 8⟩, ack⟩] ∧
    (∀ t < (n 1).numThreads, (nettest.next (.thread 1 t) n).isNone = true) ∧
    (nettest.next (.sendDone 1) n).isNone = true ∧ n.flight 0 1 = []) = true := by
  decide +kernel

theorem mailTest_handshake_nettest : ∃ n, run nettest.next nettestMoves nettest.start = some n ∧
    (n 0).mem.received 1 ≠ [] ∧
    ((n 0).mem.received 1 = [] ∨ ∃ b, otherMachine 0 = some b ∧
      (n 0).mem.received 1 = [answer b (greeting 0 b)] ∧ (n b).mem.received 0 = [greeting 0 b]) := by
  obtain ⟨n, hn, hstate⟩ := (Option.any_eq_true _ _).mp run_nettestMoves
  obtain ⟨hreceived, -⟩ := of_decide_eq_true hstate
  have hack : (n 0).mem.received 1 ≠ [] := by
    rw [hreceived]
    exact List.cons_ne_nil _ _
  exact ⟨n, hn, hack, (mailTest_handshake (fun _ => rfl) hn 0).2.1⟩

theorem mailTest_completes_nettest : ∃ n, run nettest.next nettestMoves nettest.start = some n ∧
    AtRest nettest n 1 ∧ (n 0).mem.received 0 = [greeting 1 0] ∧ (n 0).mem.received 1 = [answer 1 (greeting 0 1)] ∧
    (n 1).mem.received 0 = [greeting 0 1] ∧ (n 1).mem.received 1 = [answer 0 (greeting 1 0)] := by
  obtain ⟨n, hn, hstate⟩ := (Option.any_eq_true _ _).mp run_nettestMoves
  obtain ⟨hreceived, hthread, hdone, hflight⟩ := of_decide_eq_true hstate
  have hscripts : RunsMailTest otherMachine nettest := fun _ => rfl
  obtain ⟨stage, hs⟩ := run_stages hscripts hn 1
  have hrest : AtRest nettest n 1 := atRest_of_lt hs.queued hthread hdone
  have hend (a b : NetworkAddress) (hab : otherMachine a = some b) :
      (n a).mem.received 1 ≠ [] ∨ AtRest nettest n a ∧ n.flight b a = [] := by
    unfold otherMachine at hab
    split at hab
    next ha =>
      subst ha
      rw [hreceived]
      exact .inl (List.cons_ne_nil _ _)
    next =>
      split at hab
      next ha =>
        subst ha
        cases hab
        exact .inr ⟨hrest, hflight⟩
      next => cases hab
  have hall := mailTest_completes hscripts (by decide) (fun _ => le_rfl) otherMachine_symm hn hend
  exact ⟨n, hn, hrest, (hall 0 1 rfl).1, (hall 0 1 rfl).2, (hall 1 0 rfl).1, (hall 1 0 rfl).2⟩

end Nachos.Network.MailTest
