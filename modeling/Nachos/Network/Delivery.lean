import Nachos.Network.Handling

/-!
# Machines that send each other mail (network/post.cc, machine/network.cc)

A `Net` has a machine at every network address. What one machine has put on its
socket for another and that one has not read yet is in flight; it is read in
the order in which it was sent, and neither lost nor changed on the way. A move
is a move of one machine; where that reads a datagram from its socket, it is
the next one in flight from some machine.

* `Linked`: what a machine has read from another one is what that one has put
  on its socket first;
* `postOffice_delivers`: `Receive` returns the letters of each machine in the
  order in which they were sent, none twice, and as they were sent.
-/

namespace Nachos.Network

open Nachos.Framework Nachos.Threads

/-- The arguments of the post offices, which all have the same number of mailboxes, and what the
threads of each machine do. As in a `Host`, the numbers of `reliability` stand for `double`s. -/
structure Setup where
  numBoxes : Int
  reliability : NetworkAddress → Rat
  random : NetworkAddress → Nat → Nat
  junk : NetworkAddress → Nat → Bytes
  scripts : NetworkAddress → List Script

def Setup.host (x : Setup) (a : NetworkAddress) : Host :=
  ⟨a, x.reliability a, x.numBoxes, x.random a, x.junk a⟩

/-- The machines. -/
abbrev Net := NetworkAddress → Core Sem Lock MailBoxAddress Office Loc

def Setup.start (x : Setup) : Net := fun a => (x.host a).start (x.scripts a)

/-- What `a` has put on its socket for `b`. -/
def Net.wire (n : Net) (a b : NetworkAddress) : List Bytes :=
  ((n a).mem.wire.filter (·.1 = b)).map Prod.snd

/-- What `b` has read from its socket that came from `a`. -/
def Net.arrived (n : Net) (a b : NetworkAddress) : List Bytes :=
  ((n b).mem.arrived.filter (·.1 = a)).map Prod.snd

/-- What is in flight from `a` to `b`. -/
def Net.flight (n : Net) (a b : NetworkAddress) : List Bytes :=
  (n.wire a b).drop (n.arrived a b).length

/-- What can happen next: a step of a thread, `SendDone`, or a poll of the socket, which finds a
datagram of `source` on it or none. -/
inductive NetMove
  | thread (a : NetworkAddress) (t : ThreadId)
  | sendDone (a : NetworkAddress)
  | poll (a : NetworkAddress) (source : Option NetworkAddress)
deriving DecidableEq, Repr

/-- The machine that moves, and its move. -/
def Net.move (n : Net) : NetMove → Option (NetworkAddress × Move Ev)
  | .thread a t => some (a, .thread t)
  | .sendDone a => some (a, .interrupt .sendDone)
  | .poll a none => some (a, .interrupt (.poll none))
  | .poll a (some source) => (n.flight source a).head?.map fun d =>
    (a, .interrupt (.poll (some (source, d))))

/-- One move of an interleaving of all machines. -/
def Setup.next (x : Setup) (v : NetMove) (n : Net) : Option Net := do
  let r ← n.move v
  let s ← (n r.1).next (x.host r.1).program r.2
  return Function.update n r.1 s

/-! ## The invariant -/

variable {x : Setup} {n n' : Net} {h : Host} {m m' : Office}
variable {loc next : Loc} {i : Instr Sem Lock MailBoxAddress Loc}
variable {s u : Core Sem Lock MailBoxAddress Office Loc} {t : ThreadId}

/-- A thread reads nothing from the socket. -/
theorem Does.logs (hdoes : Does h m loc m' i next) (hm : Kept h m)
    (hfull : loc = .deliver → m.inHdr.length ≠ 0) :
    m.wire <+: m'.wire ∧ m'.arrived = m.arrived := by
  cases hdoes with
  | goesOn _ _ => exact ⟨List.prefix_rfl, rfl⟩
  | sends hfits hsend =>
    obtain ⟨rfl, hfine, hfrom, -⟩ := hfits
    cases (networkSend_eq hm hfine hfrom).symm.trans hsend
    refine ⟨?_, rfl⟩
    show m.wire <+: if h.loses m.sends then m.wire else _
    split
    · exact List.prefix_rfl
    · exact List.prefix_append _ _
  | removes _ hlist => simp [removeLoop, hlist]
  | delivers hdeliver =>
    obtain ⟨mail, heq, -, -⟩ := deliver_eq hm (hfull rfl)
    cases heq.symm.trans hdeliver
    exact ⟨List.prefix_rfl, rfl⟩
  | puts _ => exact ⟨List.prefix_rfl, rfl⟩

/-- What a move of a machine does to its socket. -/
theorem next_logs {v : Move Ev} (hs : Invariant h s)
    (hgood : ∀ p, v = .interrupt (.poll (some p)) → Good h p)
    (hnext : s.next h.program v = some u) :
    s.mem.wire <+: u.mem.wire ∧ (u.mem.arrived = s.mem.arrived ∨
      ∃ p, v = .interrupt (.poll (some p)) ∧ u.mem.arrived = s.mem.arrived ++ [p]) := by
  cases v with
  | thread t =>
    obtain ⟨⟨e, u'⟩, hstep, rfl⟩ := Option.map_eq_some_iff.mp hnext
    obtain ⟨hmem, -⟩ | ⟨loc, m, i, next, hcode, hmem, hmoves⟩ := Core.step_moves hs.queued hstep
    · simp [hmem]
    · have hdoes := code_does hcode (hs.fits t loc (by rw [hmoves.pc]; rfl))
      obtain ⟨hwire, harrived⟩ := hdoes.logs hs.kept (hs.full_of_moves hmoves)
      exact ⟨hmem ▸ hwire, .inl (hmem ▸ harrived)⟩
  | interrupt ev =>
    obtain ⟨⟨ts, u'⟩, hint, rfl⟩ := Option.map_eq_some_iff.mp hnext
    obtain ⟨m, xs, hhandler, heq⟩ := Core.interrupt_eq_some hint
    have hmem : u'.mem = m := by
      rw [show u' = (Core.signalAll xs { s with mem := m }).2 from congrArg Prod.snd heq]
      exact (Core.signalAll_frame xs { s with mem := m }).1
    show s.mem.wire <+: u'.mem.wire ∧ (u'.mem.arrived = s.mem.arrived ∨ _)
    rw [hmem]
    cases ev with
    | sendDone =>
      simp only [Host.program, sendDone] at hhandler
      split at hhandler
      · cases hhandler
      · cases hhandler
        exact ⟨List.prefix_rfl, .inl rfl⟩
    | poll packet =>
      have hgood' : ∀ p, packet = some p → Good h p := fun p hp => hgood p (by rw [hp])
      obtain ⟨heq, -⟩ | ⟨p, rfl, -, heq⟩ := checkPktAvail_eq (m := s.mem) packet hgood'
      · cases heq.symm.trans hhandler
        exact ⟨List.prefix_rfl, .inl rfl⟩
      · cases heq.symm.trans hhandler
        exact ⟨List.prefix_rfl, .inr ⟨p, rfl, rfl⟩⟩

/-- What holds of all machines. -/
structure Linked (x : Setup) (n : Net) : Prop where
  machine : ∀ a, Invariant (x.host a) (n a)
  inOrder : ∀ a b, n.arrived a b <+: n.wire a b

/-- What is in flight is good. -/
theorem Linked.good (hn : Linked x n) {a b : NetworkAddress} {d : Bytes} (hd : d ∈ n.wire a b) :
    Good (x.host b) (a, d) := by
  obtain ⟨w, hw, rfl⟩ := List.mem_map.mp hd
  obtain ⟨hw, hto⟩ := List.mem_filter.mp hw
  obtain ⟨hfine, hto', hfrom⟩ := (hn.machine a).kept.wire w hw
  exact ⟨hfine, hto'.trans (of_decide_eq_true hto), hfrom⟩

theorem Linked.good_of_move (hn : Linked x n) {v : NetMove} {a : NetworkAddress} {w : Move Ev}
    (hmove : n.move v = some (a, w)) {p : NetworkAddress × Bytes}
    (hw : w = .interrupt (.poll (some p))) :
    Good (x.host a) p ∧ (n.flight p.1 a).head? = some p.2 := by
  subst hw
  cases v with
  | thread _ _ | sendDone _ => cases hmove
  | poll b source =>
    cases source with
    | none => cases hmove
    | some source =>
      obtain ⟨d, hd, heq⟩ := Option.map_eq_some_iff.mp hmove
      cases heq
      exact ⟨hn.good (List.mem_of_mem_drop (List.mem_of_head? hd)), hd⟩

theorem prefix_snoc {α : Type} {l w : List α} {d : α} (h : l <+: w)
    (hd : (w.drop l.length).head? = some d) : l ++ [d] <+: w := by
  obtain ⟨r, rfl⟩ := h
  rw [List.drop_left] at hd
  obtain ⟨r', rfl⟩ : ∃ r', r = d :: r' := by
    cases r with
    | nil => cases hd
    | cons e r' => exact ⟨r', by rw [Option.some.inj hd]⟩
  exact ⟨r', by simp⟩

theorem next_eq_some {v : NetMove} (hnext : x.next v n = some n') :
    ∃ a w u, n.move v = some (a, w) ∧ (n a).next (x.host a).program w = some u ∧
      n' = Function.update n a u := by
  obtain ⟨⟨a, w⟩, hmove, hnext⟩ := Option.bind_eq_some_iff.mp hnext
  obtain ⟨u, hu, heq⟩ := Option.bind_eq_some_iff.mp hnext
  exact ⟨a, w, u, hmove, hu, (Option.some.inj heq).symm⟩

/-- What one machine puts on its socket it leaves there. -/
theorem wire_prefix_update {a : NetworkAddress} (hwire : (n a).mem.wire <+: u.mem.wire)
    (b c : NetworkAddress) : n.wire b c <+: Net.wire (Function.update n a u) b c := by
  unfold Net.wire
  by_cases hb : b = a
  · subst hb
    rw [Function.update_self]
    exact (hwire.filter _).map _
  · rw [Function.update_of_ne hb]

theorem next_linked {v : NetMove} (hn : Linked x n) (hnext : x.next v n = some n') :
    Linked x n' := by
  obtain ⟨a, w, u, hmove, hu, rfl⟩ := next_eq_some hnext
  have hgood (p : NetworkAddress × Bytes) (hw : w = .interrupt (.poll (some p))) :=
    (hn.good_of_move hmove hw).1
  obtain ⟨hwire, harrived⟩ := next_logs (hn.machine a) hgood hu
  refine ⟨fun b => ?_, fun b c => ?_⟩
  · by_cases hb : b = a
    · subst hb
      rw [Function.update_self]
      exact next_invariant (hn.machine b) hgood hu
    · rw [Function.update_of_ne hb]
      exact hn.machine b
  · have hold := (hn.inOrder b c).trans (wire_prefix_update hwire b c)
    by_cases hc : c = a
    · subst hc
      obtain hsame | ⟨p, hw, hsnoc⟩ := harrived
      · have heq : Net.arrived (Function.update n c u) b c = n.arrived b c := by
          unfold Net.arrived
          rw [Function.update_self, hsame]
        rwa [heq]
      · obtain ⟨-, hhead⟩ := hn.good_of_move hmove hw
        by_cases hb : p.1 = b
        · -- the datagram that was read
          subst hb
          have heq : Net.arrived (Function.update n c u) p.1 c = n.arrived p.1 c ++ [p.2] := by
            unfold Net.arrived
            simp [hsnoc]
          rw [heq]
          exact (prefix_snoc (hn.inOrder p.1 c) hhead).trans (wire_prefix_update hwire p.1 c)
        · have heq : Net.arrived (Function.update n c u) b c = n.arrived b c := by
            unfold Net.arrived
            simp [hsnoc, hb]
          rwa [heq]
    · have heq : Net.arrived (Function.update n a u) b c = n.arrived b c := by
        unfold Net.arrived
        rw [Function.update_of_ne hc]
      rwa [heq]

theorem start_linked (hvalid : ∀ a, ∀ script ∈ x.scripts a, script.Valid x.numBoxes) :
    Linked x x.start :=
  ⟨fun a => start_invariant (hvalid a), fun _ _ => List.nil_prefix⟩

/-! ## The result -/

/-- What `a` has put on its socket for `b` are the letters it has sent and not lost. -/
theorem Linked.letters_wire (hn : Linked x n) (a b : NetworkAddress) :
    (n.wire a b).map letterAt =
      (((n a).mem.posts.filter (!·.2)).map Prod.fst).filter (·.pktHdr.to_ = b) := by
  rw [← (hn.machine a).kept.posts, List.filter_map, Net.wire, List.map_map]
  congr 1
  refine List.filter_congr fun w hw => ?_
  rw [Function.comp_apply, ((hn.machine a).kept.wire w hw).2.1]

/-- The letters that `b` has read from its socket, by the machine they say they are from. -/
theorem Linked.letters_arrived (hn : Linked x n) (a b : NetworkAddress) :
    (n.arrived a b).map letterAt =
      ((n b).mem.arrived.map (letterAt ·.2)).filter (·.pktHdr.from_ = a) := by
  rw [List.filter_map, Net.arrived, List.map_map]
  congr 1
  refine List.filter_congr fun p hp => ?_
  rw [Function.comp_apply, ((hn.machine b).kept.arrived p hp).from_]

/-- What was read from the socket, as far as it has got. -/
theorem Invariant.letters (hs : Invariant h s) : ∃ hand : List Letter,
    s.mem.arrived.map (letterAt ·.2) = s.mem.delivered ++ hand ++ s.mem.buffered ∧
    hand.length ≤ 1 ∧ ∀ letter ∈ hand, ∃ t mail, (s.pc t).place = some (.append mail) ∧
      mail.letter = letter := by
  by_cases hhand : ∃ t mail, (s.pc t).place = some (.append mail)
  · obtain ⟨t, mail, hpc⟩ := hhand
    refine ⟨[mail.letter], ?_, le_rfl, fun letter hmem => ⟨t, mail, hpc, ?_⟩⟩
    · rw [hs.kept.buffered, hs.inHand t mail hpc]
    · exact (List.mem_singleton.mp hmem).symm
  · refine ⟨[], ?_, Nat.zero_le _, by simp⟩
    rw [hs.kept.buffered, List.append_nil, hs.atRest fun t loc hpc => ?_]
    by_contra happend
    obtain ⟨mail, rfl⟩ := isAppend_eq_true_iff.mp (by simpa using happend)
    exact hhand ⟨t, mail, hpc⟩

theorem call_isSome {script : Script} (hscript : script.Valid h.numBoxes) :
    (h.call script m).isSome := by
  cases hscript with
  | done => rfl
  | send hlen hbox _ => simp [Host.call, Host.isBox, hlen, hbox]
  | receive hbox _ => simp [Host.call, Host.isBox, hbox]

/-- No assertion fails. -/
theorem Invariant.code_isSome (hs : Invariant h s) (hpc : s.pc t = .user loc) :
    (h.program.code t loc s.mem).isSome := by
  have hfits := hs.fits t loc (by rw [hpc]; rfl)
  cases loc with
  | main scripts => cases scripts <;> rfl
  | idle script => exact call_isSome hfits
  | sendLocked pktHdr buffer letter script =>
    obtain ⟨rfl, hfine, hfrom, -⟩ := hfits
    simp [Host.program, networkSend_eq hs.kept hfine hfrom]
  | got mail k =>
    simp only [Host.program, if_pos hfits.1]
    exact call_isSome (hfits.2 _)
  | deliver =>
    obtain ⟨mail, heq, -, -⟩ := deliver_eq hs.kept (hs.full hpc)
    simp [Host.program, heq]
  | boot _ | sent _ | remove _ _ | await | append _ | signalled _ => rfl

theorem Linked.poll_isSome (hn : Linked x n) {a b : NetworkAddress} (hflight : n.flight a b ≠ []) :
    (x.next (.poll b (some a)) n).isSome := by
  obtain ⟨d, hd⟩ := Option.ne_none_iff_exists'.mp fun hnone =>
    hflight (List.head?_eq_none_iff.mp hnone)
  have hgood : Good (x.host b) (a, d) := hn.good (List.mem_of_mem_drop (List.mem_of_head? hd))
  have hsome : ((x.host b).checkPktAvail (some (a, d)) (n b).mem).isSome := by
    obtain ⟨heq, -⟩ | ⟨p, -, -, heq⟩ := checkPktAvail_eq (m := (n b).mem) (some (a, d))
      fun p hp => Option.some.inj hp ▸ hgood
    · rw [heq]; rfl
    · rw [heq]; rfl
  simp only [Setup.next, Net.move, hd, Option.map_some, Option.bind_eq_bind, Option.bind_some,
    Core.next, Core.interrupt, Host.program]
  obtain ⟨r, hr⟩ := Option.isSome_iff_exists.mp hsome
  simp [hr]

/-- `Network::Send` loses nothing if it is to be reliable. -/
theorem loses_eq_false (hreliable : 1 ≤ h.reliability) (k : Nat) : h.loses k = false := by
  have hchance : h.chanceToWork = 1 := by
    unfold Host.chanceToWork
    rw [if_neg (not_lt.mpr (zero_le_one.trans hreliable))]
    split
    · rfl
    · next hle => exact le_antisymm (not_lt.mp hle) hreliable
  have hlt : h.random k % 100 < 100 := Nat.mod_lt _ (by decide)
  have hlt : ((h.random k % 100 : Nat) : Rat) < 100 := by exact_mod_cast hlt
  simp only [Host.loses, hchance, one_mul, decide_eq_false_iff_not, ge_iff_le, not_le]
  exact hlt

theorem Kept.posts_eq (hm : Kept h m) (hreliable : 1 ≤ h.reliability) :
    m.posts.filter (!·.2) = m.posts := by
  refine List.filter_eq_self.mpr fun post hmem => ?_
  cases hlost : post.2 with
  | false => rfl
  | true =>
    obtain ⟨k, hk⟩ := hm.lost post hmem hlost
    rw [loses_eq_false hreliable k] at hk
    cases hk

/-- The letters taken out of a mailbox are the first of those that were read from the socket for it. -/
theorem Invariant.received_of_arrived (hs : Invariant h s) (k : MailBoxAddress) :
    s.mem.received k <+: (s.mem.arrived.map (letterAt ·.2)).filter (·.mailHdr.to_ = k) := by
  obtain ⟨hand, heq, -⟩ := hs.letters
  rw [heq, List.append_assoc, List.filter_append, hs.kept.boxes k, List.append_assoc]
  exact List.prefix_append _ _

theorem Linked.received_sublist (hn : Linked x n) (a b : NetworkAddress) (k : MailBoxAddress) :
    (((n b).mem.received k).filter (·.pktHdr.from_ = a)).Sublist
      (((n a).mem.posts.map Prod.fst).filter fun l => l.pktHdr.to_ = b ∧ l.mailHdr.to_ = k) := by
  have harrived : ((n b).mem.received k).filter (·.pktHdr.from_ = a) <+:
      ((n.arrived a b).map letterAt).filter (·.mailHdr.to_ = k) := by
    rw [hn.letters_arrived, List.filter_filter]
    refine ((hn.machine b).received_of_arrived k).filter _ |>.trans ?_
    rw [List.filter_filter]
    exact (List.filter_congr fun l _ => Bool.and_comm _ _) ▸ List.prefix_rfl
  have hwire : ((n.arrived a b).map letterAt).filter (·.mailHdr.to_ = k) <+:
      ((n.wire a b).map letterAt).filter (·.mailHdr.to_ = k) := ((hn.inOrder a b).map _).filter _
  have hposts : (((n.wire a b).map letterAt).filter (·.mailHdr.to_ = k)).Sublist
      ((((n a).mem.posts.map Prod.fst).filter (·.pktHdr.to_ = b)).filter (·.mailHdr.to_ = k)) := by
    rw [hn.letters_wire]
    exact ((List.filter_sublist.map _).filter _).filter _
  have hboth : (((n a).mem.posts.map Prod.fst).filter (·.pktHdr.to_ = b)).filter
      (·.mailHdr.to_ = k) = ((n a).mem.posts.map Prod.fst).filter
        fun l => l.pktHdr.to_ = b ∧ l.mailHdr.to_ = k := by
    rw [List.filter_filter]
    exact List.filter_congr fun l _ => by rw [Bool.decide_and, Bool.and_comm]
  rw [← hboth]
  exact (harrived.trans hwire).sublist.trans hposts

/-- In every interleaving of machines whose threads call `Send` and `Receive` for mailboxes that exist
and with no more than `MaxMailSize` bytes, and of the interrupts of their networks: what `Receive`
takes out of a mailbox, of the letters of one machine, are letters that this machine has sent to
this mailbox, in that order and none twice, with headers and payload as they were sent; what a
machine has read from its socket has been put into the mailbox it is for, once and in order, but
for one letter that the postal worker is about to put and one in the network's buffer, and what was
put into a mailbox was taken out of it or is still there; with reliability 1 what a machine has sent
to another has been read there, or is in flight; and no assertion fails, also when the next datagram
in flight is read. -/
theorem postOffice_delivers {ms : List NetMove}
    (hvalid : ∀ a, ∀ script ∈ x.scripts a, script.Valid x.numBoxes)
    (hrun : run x.next ms x.start = some n) :
    (∀ a b k, (((n b).mem.received k).filter (·.pktHdr.from_ = a)).Sublist
      (((n a).mem.posts.map Prod.fst).filter fun l => l.pktHdr.to_ = b ∧ l.mailHdr.to_ = k)) ∧
    (∀ b, ∃ hand : List Letter,
      (n b).mem.arrived.map (letterAt ·.2) = (n b).mem.delivered ++ hand ++ (n b).mem.buffered ∧
      hand.length ≤ 1 ∧ ∀ letter ∈ hand, ∃ t mail, ((n b).pc t).place = some (.append mail) ∧
        mail.letter = letter) ∧
    (∀ b k, (n b).mem.delivered.filter (·.mailHdr.to_ = k) =
      (n b).mem.received k ++ ((n b).mem.messages k).map Mail.letter) ∧
    (∀ a b, 1 ≤ x.reliability a → ((n a).mem.posts.map Prod.fst).filter (·.pktHdr.to_ = b) =
      ((n b).mem.arrived.map (letterAt ·.2)).filter (·.pktHdr.from_ = a) ++
        (n.flight a b).map letterAt) ∧
    (∀ a t loc, (n a).pc t = .user loc → ((x.host a).program.code t loc (n a).mem).isSome) ∧
    (∀ a b, n.flight a b ≠ [] → (x.next (.poll b (some a)) n).isSome) := by
  have hn : Linked x n :=
    run_invariant (fun _ _ _ hn hnext => next_linked hn hnext) (start_linked hvalid) hrun
  refine ⟨hn.received_sublist, fun b => (hn.machine b).letters, fun b => (hn.machine b).kept.boxes,
    fun a b hreliable => ?_, fun a t loc => (hn.machine a).code_isSome, fun a b => hn.poll_isSome⟩
  have hposts := hn.letters_wire a b
  rw [(hn.machine a).kept.posts_eq hreliable] at hposts
  obtain ⟨rest, hrest⟩ := hn.inOrder a b
  rw [← hposts, ← hn.letters_arrived, Net.flight, ← hrest, List.drop_left, List.map_append]

/-- Machine 1 sends two bytes to mailbox 0 of machine 2, where a thread waits for them. -/
def twoMachines : Setup where
  numBoxes := 10
  reliability _ := 1
  random _ _ := 7
  junk _ _ _ := 255
  scripts a :=
    if a = 1 then [.send ⟨2, 0, 0⟩ ⟨0, 1, 2⟩ (fun i => if i = 0 then 72 else 105) .done]
    else if a = 2 then [.receive 0 fun _ => .done]
    else []

theorem twoMachines_valid (a : NetworkAddress) :
    ∀ script ∈ twoMachines.scripts a, script.Valid twoMachines.numBoxes := by
  intro script hmem
  unfold twoMachines at hmem
  dsimp only at hmem
  split at hmem
  · rw [List.mem_singleton.mp hmem]
    exact .send (by decide) (by decide) .done
  · split at hmem
    · rw [List.mem_singleton.mp hmem]
      exact .receive (by decide) fun _ => .done
    · cases hmem

theorem postOffice_delivers_twoMachines : ∃ n, run twoMachines.next
    [.thread 1 0, .thread 1 0, .thread 1 2, .thread 1 2, .thread 2 0, .thread 2 0, .thread 2 1,
      .thread 2 2, .thread 2 2, .poll 2 (some 1), .thread 2 1, .thread 2 1, .poll 2 none,
      .thread 2 1, .sendDone 1, .thread 2 1, .thread 2 2, .thread 2 2, .thread 1 2, .thread 1 2]
    twoMachines.start = some n ∧
    (n 2).mem.received 0 = [⟨⟨2, 1, 14⟩, ⟨0, 1, 2⟩, [72, 105]⟩] ∧
    (((n 2).mem.received 0).filter (·.pktHdr.from_ = 1)).Sublist
      (((n 1).mem.posts.map Prod.fst).filter fun l => l.pktHdr.to_ = 2 ∧ l.mailHdr.to_ = 0) := by
  have heval : ((run twoMachines.next
      [.thread 1 0, .thread 1 0, .thread 1 2, .thread 1 2, .thread 2 0, .thread 2 0, .thread 2 1,
        .thread 2 2, .thread 2 2, .poll 2 (some 1), .thread 2 1, .thread 2 1, .poll 2 none,
        .thread 2 1, .sendDone 1, .thread 2 1, .thread 2 2, .thread 2 2, .thread 1 2, .thread 1 2]
      twoMachines.start).any fun n =>
        (n 2).mem.received 0 = [⟨⟨2, 1, 14⟩, ⟨0, 1, 2⟩, [72, 105]⟩]) = true := by
    decide +kernel
  obtain ⟨n, hn, hreceived⟩ := (Option.any_eq_true _ _).mp heval
  exact ⟨n, hn, of_decide_eq_true hreceived, (postOffice_delivers twoMachines_valid hn).1 1 2 0⟩

end Nachos.Network
