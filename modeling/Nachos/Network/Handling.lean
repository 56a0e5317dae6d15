import Nachos.Network.PostOffice

/-!
# What becomes of the letters on one machine (network/post.cc)

Every letter read from the socket is in the network's buffer, in the hands of
the postal worker, in the mailbox it is for, or was received, and the letters
pass these stations in order.

* `Kept`: what holds of the data of the office; `Invariant`: also of the
  threads, above all that the worker has got past `messageAvailable->P()` only
  while there is a packet in the buffer;
* `next_invariant`: every move of an interleaving keeps it, as long as the
  datagrams are for this machine (`Good`).
-/

namespace Nachos.Network

open Nachos.Framework Nachos.Threads

variable {h : Host} {m m' : Office} {loc next : Loc} {i : Instr Sem Lock MailBoxAddress Loc}
variable {s u : Core Sem Lock MailBoxAddress Office Loc} {t : ThreadId}

/-- The letter in the network's buffer, if there is one. -/
def Office.buffered (m : Office) : List Letter :=
  if m.inHdr.length = 0 then [] else [letterOf m.inHdr m.inbox]

/-- A datagram for this machine, from the machine it says. -/
structure Good (h : Host) (packet : NetworkAddress × Bytes) : Prop where
  fine : (letterAt packet.2).Fine h.numBoxes
  to_ : (letterAt packet.2).pktHdr.to_ = h.netAddr
  from_ : (letterAt packet.2).pktHdr.from_ = packet.1

theorem Good.length_ne_zero {packet : NetworkAddress × Bytes} (hp : Good h packet) :
    (packetHeaderAt packet.2 0).length ≠ 0 := fun h0 => by
  have hlen : (packetHeaderAt packet.2 0).length.toNat = _ := hp.fine.length_eq
  rw [h0] at hlen
  simp [sizeofHeader] at hlen

/-- What holds of the data of the office. -/
structure Kept (h : Host) (m : Office) : Prop where
  arrived : ∀ packet ∈ m.arrived, Good h packet
  buffered : m.arrived.map (letterAt ·.2) = m.taken ++ m.buffered
  boxes : ∀ k, m.delivered.filter (·.mailHdr.to_ = k) = m.received k ++ (m.messages k).map Mail.letter
  mails : ∀ k, ∀ mail ∈ m.messages k, mail.mailHdr.length.toNat ≤ maxMailSize
  sendBusy : m.sendBusy = false
  posts : m.wire.map (letterAt ·.2) = (m.posts.filter (!·.2)).map Prod.fst
  lost : ∀ post ∈ m.posts, post.2 = true → ∃ n, h.loses n = true
  wire : ∀ w ∈ m.wire, (letterAt w.2).Fine h.numBoxes ∧ (letterAt w.2).pktHdr.to_ = w.1 ∧
    (letterAt w.2).pktHdr.from_ = h.netAddr

theorem Kept.fine (hm : Kept h m) (hfull : m.inHdr.length ≠ 0) :
    (letterOf m.inHdr m.inbox).Fine h.numBoxes := by
  have hmem : letterOf m.inHdr m.inbox ∈ m.arrived.map (letterAt ·.2) := by
    rw [hm.buffered, Office.buffered, if_neg hfull]
    simp
  obtain ⟨packet, hpacket, heq⟩ := List.mem_map.mp hmem
  exact heq ▸ (hm.arrived packet hpacket).fine

/-- The office after `Network::Receive`, with the letter taken. -/
def Office.take (m : Office) : Office := { m with
  inHdr := { m.inHdr with length := 0 }
  buffer := splice m.buffer 0 m.inHdr.length.toNat m.inbox
  taken := m.taken ++ [letterOf m.inHdr m.inbox] }

theorem Mail.letter_splice (junk data : Bytes) (pktHdr : PacketHeader) :
    (⟨pktHdr, mailHeaderAt data 0, splice junk 0 (mailHeaderAt data 0).length.toNat
      fun i => data (sizeofHeader + i)⟩ : Mail).letter = letterOf pktHdr data := by
  unfold Mail.letter letterOf
  congr 1
  refine bytesAt_congr fun i hi => ?_
  show splice junk 0 (mailHeaderAt data 0).length.toNat (fun i => data (sizeofHeader + i)) (0 + i) = _
  rw [splice_apply_add hi]

/-- The worker takes the letter that is in the network's buffer. -/
theorem deliver_eq (hm : Kept h m) (hfull : m.inHdr.length ≠ 0) :
    ∃ mail, h.deliver m = some (m.take, .acquire (.box mail.mailHdr.to_), .append mail) ∧
      mail.letter = letterOf m.inHdr m.inbox ∧ mail.mailHdr.length.toNat ≤ maxMailSize := by
  obtain ⟨hbox, hle, hlen⟩ := hm.fine hfull
  have hletter : letterOf m.inHdr (splice m.buffer 0 m.inHdr.length.toNat m.inbox) =
      letterOf m.inHdr m.inbox := by
    refine letterOf_congr hlen fun i hi => ?_
    rw [splice_apply_of_mem (Nat.zero_le _) (by omega), Nat.sub_zero]
  have hhdr : mailHeaderAt (splice m.buffer 0 m.inHdr.length.toNat m.inbox) 0 =
      mailHeaderAt m.inbox 0 := congrArg Letter.mailHdr hletter
  have hcond : h.isBox (mailHeaderAt m.inbox 0).to_ = true ∧
      (mailHeaderAt m.inbox 0).length.toNat ≤ maxMailSize := ⟨decide_eq_true hbox, hle⟩
  have hmail := Mail.letter_splice (h.junk m.taken.length)
    (splice m.buffer 0 m.inHdr.length.toNat m.inbox) m.inHdr
  rw [hletter, hhdr] at hmail
  refine ⟨⟨m.inHdr, mailHeaderAt m.inbox 0, splice (h.junk m.taken.length) 0
    (mailHeaderAt m.inbox 0).length.toNat fun i =>
      splice m.buffer 0 m.inHdr.length.toNat m.inbox (sizeofHeader + i)⟩, ?_, hmail, hle⟩
  simp only [Host.deliver, networkReceive, if_pos hfull, hhdr, if_pos hcond, hmail]
  rfl

theorem Kept.take (hm : Kept h m) (hfull : m.inHdr.length ≠ 0) : Kept h m.take where
  arrived := hm.arrived
  buffered := by
    have hold := hm.buffered
    rw [Office.buffered, if_neg hfull] at hold
    show m.arrived.map (letterAt ·.2) = (m.taken ++ [letterOf m.inHdr m.inbox]) ++ []
    rw [hold, List.append_nil]
  boxes := hm.boxes
  mails := hm.mails
  sendBusy := hm.sendBusy
  posts := hm.posts
  lost := hm.lost
  wire := hm.wire

theorem Kept.put (hm : Kept h m) {mail : Mail} (hmail : mail.mailHdr.length.toNat ≤ maxMailSize) :
    Kept h (putMail mail m) where
  arrived := hm.arrived
  buffered := hm.buffered
  boxes k := by
    show (m.delivered ++ [mail.letter]).filter (·.mailHdr.to_ = k) = m.received k ++
      (Function.update m.messages mail.mailHdr.to_ _ k).map Mail.letter
    rw [List.filter_append, hm.boxes k]
    by_cases hk : mail.mailHdr.to_ = k
    · subst hk
      simp [Mail.letter]
    · rw [Function.update_of_ne (Ne.symm hk)]
      simp [Mail.letter, hk]
  mails k mail' hmem := by
    have hmem : mail' ∈ Function.update m.messages mail.mailHdr.to_
      (m.messages mail.mailHdr.to_ ++ [mail]) k := hmem
    by_cases hk : k = mail.mailHdr.to_
    · subst hk
      rw [Function.update_self] at hmem
      obtain hmem | hmem := List.mem_append.mp hmem
      · exact hm.mails _ mail' hmem
      · rwa [List.mem_singleton.mp hmem]
    · rw [Function.update_of_ne hk] at hmem
      exact hm.mails k mail' hmem
  sendBusy := hm.sendBusy
  posts := hm.posts
  lost := hm.lost
  wire := hm.wire

theorem Kept.remove (hm : Kept h m) {box : MailBoxAddress} {k : Letter → Script} {mail : Mail}
    {rest : List Mail} (hlist : m.messages box = mail :: rest) :
    Kept h (removeLoop box k m).1 := by
  have hm' : (removeLoop box k m).1 = { m with
      messages := Function.update m.messages box rest
      received := Function.update m.received box (m.received box ++ [mail.letter]) } := by
    simp only [removeLoop, hlist]
  rw [hm']
  refine ⟨hm.arrived, hm.buffered, fun j => ?_, fun j mail' hmem => ?_, hm.sendBusy, hm.posts,
    hm.lost, hm.wire⟩
  · by_cases hj : j = box
    · subst hj
      simp [hm.boxes j, hlist]
    · simp [hm.boxes j, hj]
  · by_cases hj : j = box
    · subst hj
      simp only [Function.update_self] at hmem
      exact hm.mails j mail' (hlist ▸ List.mem_cons_of_mem _ hmem)
    · simp only [Function.update_of_ne hj] at hmem
      exact hm.mails j mail' hmem

/-- `Network::Send` does not fail, and puts the letter on the socket, unless it loses it. -/
theorem networkSend_eq {pktHdr : PacketHeader} {buffer : Bytes} (hm : Kept h m)
    (hfine : (letterOf pktHdr buffer).Fine h.numBoxes) (hfrom : pktHdr.from_ = h.netAddr) :
    h.networkSend pktHdr buffer m = some { m with
      sendDones := m.sendDones + 1
      sends := m.sends + 1
      wire := if h.loses m.sends then m.wire
        else m.wire ++ [(pktHdr.to_, packPacket (h.junk m.sends) pktHdr buffer)] } := by
  obtain ⟨-, hle, hlen⟩ := hfine
  refine if_pos ⟨hm.sendBusy, ?_, ?_, hfrom⟩
  · have : pktHdr.length.toNat = (letterOf pktHdr buffer).mailHdr.length.toNat + sizeofHeader := hlen
    simp only [sizeofHeader] at this
    omega
  · have : pktHdr.length.toNat = (letterOf pktHdr buffer).mailHdr.length.toNat + sizeofHeader := hlen
    simp only [maxMailSize, maxPacketSize] at hle ⊢
    simp only [sizeofHeader, maxWireSize] at this hle ⊢
    omega

theorem Kept.send {pktHdr : PacketHeader} {buffer : Bytes} (hm : Kept h m)
    (hfine : (letterOf pktHdr buffer).Fine h.numBoxes) (hfrom : pktHdr.from_ = h.netAddr)
    (hsend : h.networkSend pktHdr buffer m = some m') :
    Kept h { m' with posts := m.posts ++ [(letterOf pktHdr buffer, h.loses m.sends)] } := by
  cases (networkSend_eq hm hfine hfrom).symm.trans hsend
  have hletter : letterAt (packPacket (h.junk m.sends) pktHdr buffer) = letterOf pktHdr buffer :=
    letterAt_packPacket (h.junk m.sends) buffer hfine.length_eq
  refine ⟨hm.arrived, hm.buffered, hm.boxes, hm.mails, hm.sendBusy, ?_, fun post hmem hlost => ?_, ?_⟩
  · show List.map _ (if h.loses m.sends then m.wire else _) = _
    cases hloses : h.loses m.sends with
    | true => simp [hm.posts]
    | false => simp [hm.posts, hletter]
  · obtain hmem | hmem := List.mem_append.mp hmem
    · exact hm.lost post hmem hlost
    · rw [List.mem_singleton.mp hmem] at hlost
      exact ⟨m.sends, hlost⟩
  · show ∀ w ∈ (if h.loses m.sends then m.wire else _), _
    cases hloses : h.loses m.sends with
    | true => exact hm.wire
    | false =>
      intro w hw
      obtain hw | hw := List.mem_append.mp hw
      · exact hm.wire w hw
      · rw [List.mem_singleton.mp hw]
        dsimp only
        rw [hletter]
        exact ⟨hfine, rfl, hfrom⟩

/-- `CheckPktAvail` reads a packet into the network's buffer, or does nothing. -/
theorem checkPktAvail_eq (packet : Option (NetworkAddress × Bytes))
    (hgood : ∀ p, packet = some p → Good h p) :
    (h.checkPktAvail packet m = some (m, []) ∧ (m.inHdr.length ≠ 0 ∨ packet = none)) ∨
    ∃ p, packet = some p ∧ m.inHdr.length = 0 ∧ h.checkPktAvail packet m = some ({ m with
      inHdr := packetHeaderAt p.2 0
      inbox := splice m.inbox 0 (packetHeaderAt p.2 0).length.toNat fun i => p.2 (sizeofHeader + i)
      arrived := m.arrived ++ [p] }, [.available]) := by
  by_cases hfull : m.inHdr.length = 0
  · cases packet with
    | none => exact .inl ⟨by simp [Host.checkPktAvail, hfull], .inr rfl⟩
    | some p =>
      have hp := hgood p rfl
      have hcond : (packetHeaderAt p.2 0).to_ = h.netAddr ∧
          (packetHeaderAt p.2 0).length.toNat ≤ maxPacketSize := by
        refine ⟨hp.to_, ?_⟩
        have hlen : (packetHeaderAt p.2 0).length.toNat = _ := hp.fine.length_eq
        have hle := hp.fine.length_le
        simp only [maxMailSize, maxPacketSize, sizeofHeader, maxWireSize] at hlen hle ⊢
        omega
      refine .inr ⟨p, rfl, hfull, ?_⟩
      simp [Host.checkPktAvail, hfull, hcond]
  · exact .inl ⟨if_pos hfull, .inl hfull⟩

theorem Kept.arrive {p : NetworkAddress × Bytes} (hm : Kept h m) (hp : Good h p)
    (hempty : m.inHdr.length = 0) : Kept h { m with
      inHdr := packetHeaderAt p.2 0
      inbox := splice m.inbox 0 (packetHeaderAt p.2 0).length.toNat fun i => p.2 (sizeofHeader + i)
      arrived := m.arrived ++ [p] } := by
  have hlen : (packetHeaderAt p.2 0).length.toNat = _ := hp.fine.length_eq
  have hletter : letterOf (packetHeaderAt p.2 0) (splice m.inbox 0
      (packetHeaderAt p.2 0).length.toNat fun i => p.2 (sizeofHeader + i)) = letterAt p.2 := by
    refine letterOf_congr hlen fun i hi => ?_
    rw [splice_apply_of_mem (Nat.zero_le _) (by omega), Nat.sub_zero]
  refine ⟨fun packet hmem => ?_, ?_, hm.boxes, hm.mails, hm.sendBusy, hm.posts, hm.lost,
    hm.wire⟩
  · obtain hmem | hmem := List.mem_append.mp hmem
    · exact hm.arrived packet hmem
    · rwa [List.mem_singleton.mp hmem]
  · have hold := hm.buffered
    rw [Office.buffered, if_pos hempty, List.append_nil] at hold
    rw [Office.buffered, if_neg hp.length_ne_zero, hletter]
    simp [hold]

/-! ## The threads -/

/-- A packet less than there could be in the network's buffer. -/
def lacking (m : Office) : Nat := if m.inHdr.length = 0 then 1 else 0

/-- What holds of a machine. -/
structure Invariant (h : Host) (s : Core Sem Lock MailBoxAddress Office Loc) : Prop where
  queued : s.Queued
  available : Guarded (.sem .available) isDeliver lacking s
  worker : s.countAt isWorker ≤ 1
  fits : ∀ t loc, (s.pc t).place = some loc → Fits h loc
  kept : Kept h s.mem
  inHand : ∀ t mail, (s.pc t).place = some (.append mail) →
    s.mem.taken = s.mem.delivered ++ [mail.letter]
  atRest : (∀ t loc, (s.pc t).place = some loc → isAppend loc = false) →
    s.mem.taken = s.mem.delivered

/-- Past `messageAvailable->P()` there is a packet in the network's buffer. -/
theorem Invariant.full (hs : Invariant h s) (hpc : s.pc t = .user .deliver) :
    s.mem.inHdr.length ≠ 0 := by
  intro hempty
  have htotal := hs.available.total
  have hpermits := hs.available.permits
  have hpos := Core.count_pos (f := PC.within (.sem .available) isDeliver) hs.queued rfl
    (show (s.pc t).within (.sem .available) isDeliver = true by rw [hpc]; rfl)
  have hlacking : lacking s.mem = 1 := if_pos hempty
  omega

theorem Does.available (hdoes : Does h m loc m' i next) (hm : Kept h m)
    (hfull : loc = .deliver → m.inHdr.length ≠ 0) :
    i.KeepsTo (.sem .available) isDeliver loc (lacking m) next (lacking m') := by
  cases hdoes with
  | goesOn hsteps _ => exact .of_test hsteps.available rfl
  | sends hfits hsend =>
    obtain ⟨rfl, hfine, hfrom, -⟩ := hfits
    cases (networkSend_eq hm hfine hfrom).symm.trans hsend
    exact .of_test rfl rfl
  | removes _ hlist =>
    refine .of_test rfl ?_
    simp only [removeLoop, hlist]
    rfl
  | delivers hdeliver =>
    obtain ⟨mail, heq, -, -⟩ := deliver_eq hm (hfull rfl)
    cases heq.symm.trans hdeliver
    have hlacking : lacking m = 0 := if_neg (hfull rfl)
    refine ⟨fun h => ?_, fun h => ?_, fun _ _ => ⟨fun h => ?_, ?_⟩, fun _ h => ?_⟩
    · cases h
    · cases h
    · cases h
    · rw [hlacking]
      rfl
    · cases h
  | puts _ => exact .of_test rfl rfl

theorem Does.worker (hdoes : Does h m loc m' i next) (hm : Kept h m)
    (hfull : loc = .deliver → m.inHdr.length ≠ 0) :
    (i.goesOn && isWorker next).toNat + ((Core.forked i).any isWorker).toNat =
      (isWorker loc).toNat := by
  cases hdoes with
  | goesOn hsteps _ => exact hsteps.worker
  | sends _ _ | removes _ _ | puts _ => rfl
  | delivers hdeliver =>
    obtain ⟨mail, heq, -, -⟩ := deliver_eq hm (hfull rfl)
    cases heq.symm.trans hdeliver
    rfl

theorem Does.fits (hdoes : Does h m loc m' i next) (hm : Kept h m)
    (hfull : loc = .deliver → m.inHdr.length ≠ 0) :
    Fits h next ∧ ∀ start, i = .fork start → Fits h start := by
  cases hdoes with
  | goesOn hsteps _ => exact hsteps.fits
  | sends hfits _ => exact ⟨hfits.2.2.2, nofun⟩
  | removes hfits hlist => exact ⟨⟨hm.mails _ _ (hlist ▸ List.mem_cons_self), hfits⟩, nofun⟩
  | delivers hdeliver =>
    obtain ⟨mail, heq, -, hle⟩ := deliver_eq hm (hfull rfl)
    cases heq.symm.trans hdeliver
    exact ⟨hle, nofun⟩
  | puts _ => exact ⟨trivial, nofun⟩

theorem Does.kept (hdoes : Does h m loc m' i next) (hm : Kept h m)
    (hfull : loc = .deliver → m.inHdr.length ≠ 0) : Kept h m' := by
  cases hdoes with
  | goesOn _ _ => exact hm
  | sends hfits hsend =>
    obtain ⟨rfl, hfine, hfrom, -⟩ := hfits
    exact hm.send hfine hfrom hsend
  | removes _ hlist => exact hm.remove hlist
  | delivers hdeliver =>
    obtain ⟨mail, heq, -, -⟩ := deliver_eq hm (hfull rfl)
    cases heq.symm.trans hdeliver
    exact hm.take (hfull rfl)
  | puts hfits => exact hm.put hfits

/-- Only the worker takes letters and puts them into mailboxes. -/
theorem Does.hand (hdoes : Does h m loc m' i next) (hm : Kept h m)
    (hfull : loc = .deliver → m.inHdr.length ≠ 0) :
    (m'.taken = m.taken ∧ m'.delivered = m.delivered ∧ isAppend loc = false ∧
      isAppend next = false ∧ ∀ start, i = .fork start → isAppend start = false) ∨
    (∃ mail, loc = .deliver ∧ (Core.forked i) = none ∧ i.goesOn = true ∧ next = .append mail ∧
      m'.taken = m.taken ++ [mail.letter] ∧ m'.delivered = m.delivered) ∨
    ∃ mail, loc = .append mail ∧ (Core.forked i) = none ∧ isAppend next = false ∧
      m'.taken = m.taken ∧ m'.delivered = m.delivered ++ [mail.letter] := by
  cases hdoes with
  | goesOn hsteps hloc => exact .inl ⟨rfl, rfl, hloc, hsteps.append⟩
  | sends hfits hsend =>
    obtain ⟨rfl, hfine, hfrom, -⟩ := hfits
    cases (networkSend_eq hm hfine hfrom).symm.trans hsend
    exact .inl ⟨rfl, rfl, rfl, rfl, nofun⟩
  | removes _ hlist =>
    refine .inl ⟨?_, ?_, rfl, rfl, nofun⟩ <;> simp only [removeLoop, hlist]
  | delivers hdeliver =>
    obtain ⟨mail, heq, hletter, -⟩ := deliver_eq hm (hfull rfl)
    cases heq.symm.trans hdeliver
    exact .inr (.inl ⟨mail, rfl, rfl, rfl, rfl, by rw [hletter]; rfl, rfl⟩)
  | puts _ => exact .inr (.inr ⟨_, rfl, rfl, rfl, rfl, rfl⟩)

theorem isWorker_of_isAppend (hloc : isAppend loc = true) : isWorker loc = true := by
  cases loc <;> first | rfl | cases hloc

/-- Nobody but the worker is about to put a letter into a mailbox. -/
theorem Invariant.not_isAppend (hs : Invariant h s) (hpc : (s.pc t).place = some loc)
    (hworker : isWorker loc = true) {t' : ThreadId} (hne : t' ≠ t) {loc' : Loc}
    (hpc' : (s.pc t').place = some loc') : isAppend loc' = false := by
  by_contra happend
  have hworker' : isWorker loc' = true := isWorker_of_isAppend (by simpa using happend)
  exact hne (Core.eq_of_countAt_le_one hs.queued hs.worker hpc hworker hpc' hworker')

theorem isAppend_eq_true_iff : isAppend loc = true ↔ ∃ mail, loc = .append mail := by
  cases loc <;> simp [isAppend]

theorem Invariant.full_of_moves (hs : Invariant h s) (hmoves : Core.Moves t loc i next s u)
    (hloc : loc = .deliver) : s.mem.inHdr.length ≠ 0 := hs.full (hloc ▸ hmoves.pc)

section

variable (hs : Invariant h s) (hmoves : Core.Moves t loc i next s u)
variable (hdoes : Does h s.mem loc u.mem i next)

include hs hmoves hdoes

/-- The letter in the worker's hands, after a step. -/
theorem moves_hand :
    (∀ t mail, (u.pc t).place = some (.append mail) →
      u.mem.taken = u.mem.delivered ++ [mail.letter]) ∧
    ((∀ t loc, (u.pc t).place = some loc → isAppend loc = false) →
      u.mem.taken = u.mem.delivered) := by
  have hplace : (s.pc t).place = some loc := by rw [hmoves.pc]; rfl
  have happend {start : Loc} (hi : i = .fork start) (hforked : Core.forked i = none) : False := by
    rw [hi] at hforked
    cases hforked
  obtain ⟨htaken, hdelivered, hloc, hnext, hstart⟩ | ⟨mail, rfl, hi, hgoes, rfl, htaken, hdelivered⟩ |
    ⟨mail, rfl, hi, hnext, htaken, hdelivered⟩ :=
    hdoes.hand hs.kept (hs.full_of_moves hmoves)
  · rw [htaken, hdelivered]
    refine ⟨fun t' mail hpc => ?_, fun hrest => hs.atRest fun t' loc' hpc => ?_⟩
    · obtain ⟨-, hsame⟩ | ⟨-, -, rfl⟩ | ⟨-, hfork, -⟩ := hmoves.place_cases hpc
      · exact hs.inHand t' mail hsame
      · cases hnext
      · cases hstart _ hfork
    · by_cases hne : t' = t
      · rw [hne, hplace] at hpc
        exact Option.some.inj hpc ▸ hloc
      · obtain hsame | ⟨start, -, -, -, hborn⟩ := hmoves.others t' hne
        · exact hrest t' loc' (hsame.trans hpc)
        · cases hborn.symm.trans hpc
  · have hrest := hs.atRest fun t' loc' hpc => by
      by_cases hne : t' = t
      · rw [hne, hplace] at hpc
        exact Option.some.inj hpc ▸ rfl
      · exact hs.not_isAppend hplace rfl hne hpc
    have hself : (u.pc t).place = some (.append mail) := by rw [hmoves.place, if_pos hgoes]
    rw [htaken, hdelivered, hrest]
    refine ⟨fun t' mail' hpc => ?_, fun hnone => ?_⟩
    · obtain ⟨hne, hsame⟩ | ⟨-, -, heq⟩ | ⟨-, hfork, -⟩ := hmoves.place_cases hpc
      · cases hs.not_isAppend hplace rfl hne hsame
      · rw [Loc.append.inj heq]
      · exact (happend hfork hi).elim
    · cases hnone t _ hself
  · have hhand := hs.inHand t mail hplace
    rw [htaken, hdelivered, hhand]
    refine ⟨fun t' mail' hpc => ?_, fun _ => rfl⟩
    obtain ⟨hne, hsame⟩ | ⟨-, -, rfl⟩ | ⟨-, hfork, -⟩ := hmoves.place_cases hpc
    · cases hs.not_isAppend hplace rfl hne hsame
    · cases hnext
    · exact (happend hfork hi).elim

theorem moves_fits (t' : ThreadId) (loc' : Loc) (hpc : (u.pc t').place = some loc') : Fits h loc' := by
  obtain ⟨hnext, hstart⟩ := hdoes.fits hs.kept (hs.full_of_moves hmoves)
  exact hmoves.forall_place hs.fits hnext hstart t' loc' hpc

theorem moves_worker : u.countAt isWorker ≤ 1 := by
  have htotal := hmoves.total fun loc => (isWorker loc).toNat
  have hworker := hdoes.worker hs.kept (hs.full_of_moves hmoves)
  have hold := hs.worker
  unfold Core.countAt at hold ⊢
  cases hgoes : i.goesOn <;> cases hforked : Core.forked i <;>
    simp [hgoes, hforked] at htotal hworker <;> omega

end

theorem step_invariant {e : Effect} (hs : Invariant h s) (hstep : s.step h.program t = some (e, u)) :
    Invariant h u := by
  have havailable : Guarded (.sem .available) isDeliver lacking u :=
    Core.step_guarded hs.queued (fun loc m i next hpc hcode =>
      (code_does hcode (hs.fits t loc (by rw [hpc]; rfl))).available hs.kept
        fun hloc => hs.full (hloc ▸ hpc)) hs.available hstep
  obtain ⟨hmem, hplace, htotal⟩ | ⟨loc, m, i, next, hcode, hmem, hmoves⟩ :=
    Core.step_moves hs.queued hstep
  · refine ⟨Core.step_queued hs.queued hstep, havailable, ?_, ?_, hmem ▸ hs.kept, ?_, ?_⟩
    · rw [Core.countAt, htotal]
      exact hs.worker
    · exact fun t' loc hpc => hs.fits t' loc (hplace t' ▸ hpc)
    · rw [hmem]
      exact fun t' mail hpc => hs.inHand t' mail (hplace t' ▸ hpc)
    · rw [hmem]
      exact fun hrest => hs.atRest fun t' loc hpc => hrest t' loc ((hplace t').trans hpc)
  · have hdoes : Does h s.mem loc u.mem i next :=
      hmem ▸ code_does hcode (hs.fits t loc (by rw [hmoves.pc]; rfl))
    have hhand := moves_hand hs hmoves hdoes
    exact ⟨Core.step_queued hs.queued hstep, havailable, moves_worker hs hmoves hdoes,
      moves_fits hs hmoves hdoes, hdoes.kept hs.kept (hs.full_of_moves hmoves), hhand.1, hhand.2⟩

/-- What an interrupt leaves of the invariant to prove. -/
theorem interrupt_invariant {ev : Ev} {ts : List ThreadId} {xs : List Sem} (hs : Invariant h s)
    (hint : s.interrupt h.program ev = some (ts, u))
    (hhandler : h.program.handler ev s.mem = some (m, xs))
    (havailable : Guarded (.sem .available) isDeliver lacking u) (hkept : Kept h m)
    (htaken : m.taken = s.mem.taken) (hdelivered : m.delivered = s.mem.delivered) :
    Invariant h u := by
  obtain ⟨m', xs', hhandler', heq⟩ := Core.interrupt_eq_some hint
  cases hhandler.symm.trans hhandler'
  obtain ⟨hmem, hpc, hnum, -, -⟩ := Core.signalAll_frame xs { s with mem := m }
  rw [← show u = (Core.signalAll xs { s with mem := m }).2 from congrArg Prod.snd heq] at hmem hpc hnum
  have hmem : u.mem = m := hmem
  have hpc : u.pc = s.pc := hpc
  refine ⟨Core.interrupt_queued hs.queued hint, havailable, ?_, ?_, hmem ▸ hkept, ?_, ?_⟩
  · unfold Core.countAt Core.totalAt
    rw [Core.total_congr_pc hpc hnum]
    exact hs.worker
  · rw [hpc]
    exact hs.fits
  · rw [hpc, hmem, htaken, hdelivered]
    exact hs.inHand
  · rw [hpc, hmem, htaken, hdelivered]
    exact hs.atRest

theorem sendDone_invariant {ts : List ThreadId} (hs : Invariant h s)
    (hint : s.interrupt h.program .sendDone = some (ts, u)) : Invariant h u := by
  obtain ⟨m, xs, hhandler, -⟩ := Core.interrupt_eq_some hint
  have hhandler' := hhandler
  simp only [Host.program, sendDone] at hhandler'
  split at hhandler'
  · cases hhandler'
  · cases hhandler'
    have hk := hs.kept
    exact interrupt_invariant hs hint hhandler
      (Core.interrupt_guarded hs.available hint hhandler (by simp) rfl)
      ⟨hk.arrived, hk.buffered, hk.boxes, hk.mails, rfl, hk.posts, hk.lost, hk.wire⟩ rfl rfl

theorem poll_invariant {packet : Option (NetworkAddress × Bytes)} {ts : List ThreadId}
    (hs : Invariant h s) (hgood : ∀ p, packet = some p → Good h p)
    (hint : s.interrupt h.program (.poll packet) = some (ts, u)) : Invariant h u := by
  obtain ⟨heq, -⟩ | ⟨p, hp, hempty, heq⟩ := checkPktAvail_eq (m := s.mem) packet hgood
  · exact interrupt_invariant hs hint heq
      (Core.interrupt_guarded hs.available hint heq (by simp) rfl) hs.kept rfl rfl
  · have hgood := hgood p hp
    refine interrupt_invariant hs hint heq
      (Core.interrupt_guarded_V hs.available hint heq ?_) (hs.kept.arrive hgood hempty) rfl rfl
    show (if s.mem.inHdr.length = 0 then 1 else 0) =
      (if (packetHeaderAt p.2 0).length = 0 then 1 else 0) + 1
    rw [if_pos hempty, if_neg hgood.length_ne_zero]

theorem next_invariant {v : Move Ev} (hs : Invariant h s)
    (hgood : ∀ p, v = .interrupt (.poll (some p)) → Good h p)
    (hnext : s.next h.program v = some u) : Invariant h u := by
  cases v with
  | thread t =>
    obtain ⟨⟨e, u'⟩, hstep, rfl⟩ := Option.map_eq_some_iff.mp hnext
    exact step_invariant hs hstep
  | interrupt ev =>
    obtain ⟨⟨ts, u'⟩, hint, rfl⟩ := Option.map_eq_some_iff.mp hnext
    cases ev with
    | sendDone => exact sendDone_invariant hs hint
    | poll packet => exact poll_invariant hs (fun p hp => hgood p (by rw [hp])) hint

theorem start_invariant {scripts : List Script}
    (hvalid : ∀ script ∈ scripts, script.Valid h.numBoxes) : Invariant h (h.start scripts) where
  queued := Core.new_queued _ _ _
  available := Core.new_guarded _ rfl le_rfl rfl
  worker := (Core.new_totalAt _ _ _ _).le
  fits t loc hpc := by
    by_cases ht : t = 0
    · subst ht
      obtain rfl := Option.some.inj hpc
      exact hvalid
    · simp [Host.start, Core.new, ht, PC.place] at hpc
  kept := ⟨by simp [Host.start, Core.new, Office.new], rfl, fun _ => rfl,
    by simp [Host.start, Core.new, Office.new], rfl, rfl, by simp [Host.start, Core.new, Office.new],
    by simp [Host.start, Core.new, Office.new]⟩
  inHand t mail hpc := by
    by_cases ht : t = 0 <;> simp [Host.start, Core.new, ht, PC.place] at hpc
  atRest _ := rfl

end Nachos.Network
