import Nachos.Framework.Bytes
import Mathlib.Data.List.Basic

/-!
# Packets and mail (machine/network.h, network/post.h)

A `Mail` travels as the data of a packet: a `PacketHeader`, a `MailHeader` and
the payload, put one after another by copying bytes into buffers of a fixed
size, whose other bytes are whatever was there before (`junk`). A `Letter` is
what of all this is not junk.

* `letterOf_packMail`, `letterAt_packPacket`: what `PostOffice::Send` and
  `Network::Send` put together reads back as it was.
-/

namespace Nachos.Network

open Nachos.Framework

/-- A machine ID: an `int`. -/
abbrev NetworkAddress := BitVec 32

/-- A mailbox ID: an `int`. -/
abbrev MailBoxAddress := BitVec 32

/-- `class PacketHeader`. `length` is the bytes of packet data, without the packet header. -/
structure PacketHeader where
  to_ : NetworkAddress
  from_ : NetworkAddress
  length : BitVec 32
deriving DecidableEq, Repr

/-- `class MailHeader`. `length` is the bytes of message data, without the mail header. -/
structure MailHeader where
  to_ : MailBoxAddress
  from_ : MailBoxAddress
  length : BitVec 32
deriving DecidableEq, Repr

/-- `sizeof(PacketHeader)` and `sizeof(MailHeader)`. -/
def sizeofHeader : Nat := 12

/-- `MaxWireSize`. -/
def maxWireSize : Nat := 64

/-- `MaxPacketSize`. -/
def maxPacketSize : Nat := maxWireSize - sizeofHeader

/-- `MaxMailSize`. -/
def maxMailSize : Nat := maxPacketSize - sizeofHeader

/-- The bytes of three words. -/
def words (x y z : BitVec 32) : Bytes := fun i =>
  if i < 4 then bytesOf x i else if i < 8 then bytesOf y (i - 4) else bytesOf z (i - 8)

/-- The bytes of a header. -/
def PacketHeader.bytes (hdr : PacketHeader) : Bytes := words hdr.to_ hdr.from_ hdr.length

def MailHeader.bytes (hdr : MailHeader) : Bytes := words hdr.to_ hdr.from_ hdr.length

/-- `*(PacketHeader *)(m + a)`. -/
def packetHeaderAt (m : Bytes) (a : Nat) : PacketHeader :=
  ⟨wordAt m a, wordAt m (a + 4), wordAt m (a + 8)⟩

/-- `*(MailHeader *)(m + a)`. -/
def mailHeaderAt (m : Bytes) (a : Nat) : MailHeader :=
  ⟨wordAt m a, wordAt m (a + 4), wordAt m (a + 8)⟩

/-- The `n` bytes from `a` on. -/
def bytesAt (m : Bytes) (a n : Nat) : List (BitVec 8) := (List.range n).map fun i => m (a + i)

/-- `class Mail`. -/
structure Mail where
  pktHdr : PacketHeader
  mailHdr : MailHeader
  data : Bytes

/-- The headers and the payload of a mail. -/
structure Letter where
  pktHdr : PacketHeader
  mailHdr : MailHeader
  data : List (BitVec 8)
deriving DecidableEq, Repr

def Mail.letter (mail : Mail) : Letter :=
  ⟨mail.pktHdr, mail.mailHdr, bytesAt mail.data 0 mail.mailHdr.length.toNat⟩

/-- `PostOffice::Send`: the mail header, and the data after it. -/
def packMail (junk : Bytes) (mailHdr : MailHeader) (data : Bytes) : Bytes :=
  splice (splice junk 0 sizeofHeader mailHdr.bytes) sizeofHeader mailHdr.length.toNat data

/-- `Network::Send`: the packet header, and the data after it. -/
def packPacket (junk : Bytes) (hdr : PacketHeader) (data : Bytes) : Bytes :=
  splice (splice junk 0 sizeofHeader hdr.bytes) sizeofHeader hdr.length.toNat data

/-- The letter in a packet with header `hdr` and data `data`. -/
def letterOf (hdr : PacketHeader) (data : Bytes) : Letter :=
  ⟨hdr, mailHeaderAt data 0, bytesAt data sizeofHeader (mailHeaderAt data 0).length.toNat⟩

/-- The letter in a datagram. -/
def letterAt (d : Bytes) : Letter :=
  letterOf (packetHeaderAt d 0) fun i => d (sizeofHeader + i)

/-! ## Reading back -/

section

variable {m m' : Bytes} {a b n : Nat}

theorem bytesAt_congr (h : ∀ i < n, m (a + i) = m' (b + i)) : bytesAt m a n = bytesAt m' b n :=
  List.map_congr_left fun i hi => h i (List.mem_range.mp hi)

theorem mailHeaderAt_congr (h : ∀ i < sizeofHeader, m (a + i) = m' (b + i)) :
    mailHeaderAt m a = mailHeaderAt m' b := by
  have hword (j : Nat) (hj : j + 4 ≤ 12) : wordAt m (a + j) = wordAt m' (b + j) :=
    wordAt_congr fun i hi => by
      have := h (j + i) (by unfold sizeofHeader; omega)
      rwa [← Nat.add_assoc, ← Nat.add_assoc] at this
  simp only [mailHeaderAt, hword 4 (by omega), hword 8 (by omega),
    show wordAt m a = wordAt m' b from hword 0 (by omega)]

/-- A word of a header reads back as written. -/
theorem wordAt_words {x y z : BitVec 32} (h : ∀ i < sizeofHeader, m (a + i) = words x y z i) :
    wordAt m a = x ∧ wordAt m (a + 4) = y ∧ wordAt m (a + 8) = z := by
  have hword (j : Nat) (v : BitVec 32) (hj : j + 4 ≤ 12)
      (hv : ∀ i < 4, words x y z (j + i) = bytesOf v i) : wordAt m (a + j) = v := by
    rw [← wordAt_bytesOf v]
    refine wordAt_congr fun i hi => ?_
    rw [Nat.add_assoc, h (j + i) (by unfold sizeofHeader; omega), hv i hi, Nat.zero_add]
  refine ⟨hword 0 x (by omega) fun i hi => ?_, hword 4 y (by omega) fun i hi => ?_,
    hword 8 z (by omega) fun i hi => ?_⟩
  · simp [words, hi]
  · simp [words, show ¬ 4 + i < 4 by omega, show 4 + i < 8 by omega]
  · simp [words, show ¬ 8 + i < 4 by omega]

end

theorem packPacket_header {junk data : Bytes} {hdr : PacketHeader} {i : Nat} (hi : i < sizeofHeader) :
    packPacket junk hdr data i = hdr.bytes i := by
  unfold packPacket
  rw [splice_apply_of_notMem (by omega), splice_apply_of_mem (by omega) (by omega), Nat.sub_zero]

theorem packPacket_data {junk data : Bytes} {hdr : PacketHeader} {i : Nat}
    (hi : i < hdr.length.toNat) : packPacket junk hdr data (sizeofHeader + i) = data i :=
  splice_apply_add hi

theorem packMail_header {junk data : Bytes} {hdr : MailHeader} {i : Nat} (hi : i < sizeofHeader) :
    packMail junk hdr data i = hdr.bytes i := by
  unfold packMail
  rw [splice_apply_of_notMem (by omega), splice_apply_of_mem (by omega) (by omega), Nat.sub_zero]

theorem packMail_data {junk data : Bytes} {hdr : MailHeader} {i : Nat}
    (hi : i < hdr.length.toNat) : packMail junk hdr data (sizeofHeader + i) = data i :=
  splice_apply_add hi

theorem mailHeaderAt_packMail (junk data : Bytes) (hdr : MailHeader) :
    mailHeaderAt (packMail junk hdr data) 0 = hdr := by
  obtain ⟨h₁, h₂, h₃⟩ := wordAt_words (m := packMail junk hdr data) (a := 0) fun i hi => by
    rw [Nat.zero_add]
    exact packMail_header hi
  exact congr (congr (congrArg MailHeader.mk h₁) h₂) h₃

theorem packetHeaderAt_packPacket (junk data : Bytes) (hdr : PacketHeader) :
    packetHeaderAt (packPacket junk hdr data) 0 = hdr := by
  obtain ⟨h₁, h₂, h₃⟩ := wordAt_words (m := packPacket junk hdr data) (a := 0) fun i hi => by
    rw [Nat.zero_add]
    exact packPacket_header hi
  exact congr (congr (congrArg PacketHeader.mk h₁) h₂) h₃

/-- The letter depends on the data of a packet only as far as the packet is long. -/
theorem letterOf_congr {hdr : PacketHeader} {data data' : Bytes}
    (hlen : hdr.length.toNat = (mailHeaderAt data 0).length.toNat + sizeofHeader)
    (h : ∀ i < hdr.length.toNat, data' i = data i) : letterOf hdr data' = letterOf hdr data := by
  have hmail : mailHeaderAt data' 0 = mailHeaderAt data 0 :=
    mailHeaderAt_congr fun i hi => by rw [Nat.zero_add]; exact h i (by omega)
  unfold letterOf
  rw [hmail, bytesAt_congr fun i hi => h (sizeofHeader + i) (by omega)]

/-- The letter of a packet sent. -/
theorem letterOf_packMail (junk data : Bytes) (pktHdr : PacketHeader) (mailHdr : MailHeader) :
    letterOf pktHdr (packMail junk mailHdr data) =
      ⟨pktHdr, mailHdr, bytesAt data 0 mailHdr.length.toNat⟩ := by
  unfold letterOf
  rw [mailHeaderAt_packMail]
  congr 1
  refine bytesAt_congr fun i hi => ?_
  rw [packMail_data hi, Nat.zero_add]

/-- The letter of a packet that arrives is the one of the packet sent. -/
theorem letterAt_packPacket (junk data : Bytes) {pktHdr : PacketHeader}
    (hlen : pktHdr.length.toNat = (mailHeaderAt data 0).length.toNat + sizeofHeader) :
    letterAt (packPacket junk pktHdr data) = letterOf pktHdr data := by
  unfold letterAt
  rw [packetHeaderAt_packPacket]
  exact letterOf_congr hlen fun i hi => packPacket_data hi

end Nachos.Network
