import ReliableDatagram.Bits.Compressed
import ReliableDatagram.Counter
import ReliableDatagram.Limits
import ReliableDatagram.Priority
import ReliableDatagram.Reliability

/-!
# Packets and their size

A packet is one message or one fragment of a message. The lengths given here are predictions, made
from the fields alone and without encoding anything: a frame asks for them before it takes a packet.
-/
namespace ReliableDatagram

structure Place where
  channel : Nat := 0
  index : OrderingIndex := default
  deriving DecidableEq, Repr

/-- Which part of which split message a packet is. -/
structure Part where
  id : SplitId
  index : Nat
  count : Nat
  deriving DecidableEq, Repr

/-- The payload may be longer than its bit length asks for; what lies behind is not sent. A place is
present when the mode uses a channel. The priority is known to the sender only. -/
structure Packet where
  sequence : SequenceNumber
  reliability : Reliability
  place : Option Place
  part : Option Part
  priority : Priority
  bitLength : Nat
  payload : Bytes
  deriving DecidableEq, Repr

namespace Packet

/-- Bytes of the payload that are in use, the last one perhaps in part. -/
def payloadLength (p : Packet) : Nat := bytesForBits p.bitLength

def body (p : Packet) : Bytes := p.payload.take p.payloadLength

/-- Width in bytes of the number and the count of a part. -/
def partWidth : Nat := 4

/-- Width in bytes of the bit length of a payload. -/
def lengthWidth : Nat := 2

/-- Bits of the fields that every packet has and of those that its mode asks for. -/
def fixedHeaderBits (r : Reliability) : Nat :=
  Limits.ackBits + Reliability.width + 1 + if r.usesChannel then Limits.channelBits + 16 else 0

/-- Bits in front of the payload, without the padding. -/
def headerBits (p : Packet) : Nat :=
  let partBits := match p.part with
    | some part =>
      16 + Compressed.size partWidth part.index + Compressed.size partWidth part.count
    | none => 0
  fixedHeaderBits p.reliability + partBits + Compressed.size lengthWidth p.bitLength

/-- Bits that the packet takes when it is written behind `offset` bits, padding included. -/
def bitsAt (p : Packet) (offset : Nat) : Nat :=
  bytesForBits (offset + p.headerBits) * 8 - offset + p.payloadLength * 8

/-- No header of a packet of this mode is longer, padding included. -/
def maxHeaderBytes (r : Reliability) (isPart : Bool) : Nat :=
  let partBits := if isPart then 16 + 2 * Compressed.size partWidth 0xFFFFFFFF else 0
  bytesForBits (fixedHeaderBits r + partBits + Compressed.size lengthWidth 0xFFFF + 7)

end Packet
end ReliableDatagram
