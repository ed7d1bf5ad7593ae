import ReliableDatagram.Bits.Writer
import ReliableDatagram.Wire.Packet

/-!
# Entries of a frame

A frame is a row of entries, each an acknowledgement or a packet. An entry starts at any bit; only
the payload of a packet is aligned to a byte. `Entry.write` and `Entry.read` are the two directions.
-/
namespace ReliableDatagram

namespace Packet

/-- Everything in front of the padding. A packet that lacks the place its mode asks for is written
with the first place of channel zero, and a channel is cut to its low bits. -/
def header (p : Packet) : List Bool :=
  let place := p.place.getD {}
  p.sequence.toBits ++ [false] ++ p.reliability.toBits
    ++ (if p.reliability.usesChannel then
          Bits.ofNat Limits.channelBits place.channel ++ place.index.toBits
        else [])
    ++ (match p.part with
        | some part =>
          true :: part.id.toBits ++ Compressed.encode partWidth part.index
            ++ Compressed.encode partWidth part.count
        | none => [false])
    ++ Compressed.encode lengthWidth p.bitLength

def write (w : BitWriter) (p : Packet) : BitWriter := (w.write p.header).writeBytes p.body

end Packet

inductive Entry where
  | ack (sequence : SequenceNumber)
  | data (packet : Packet)
  deriving DecidableEq, Repr

namespace Entry

def sequence : Entry → SequenceNumber
  | ack s => s
  | data p => p.sequence

def isAck : Entry → Bool
  | ack _ => true
  | data _ => false

/-- Bits that the entry takes when it is written behind `offset` bits. -/
def bitsAt (e : Entry) (offset : Nat) : Nat :=
  match e with
  | ack _ => Limits.ackBits
  | data p => p.bitsAt offset

def write (w : BitWriter) : Entry → BitWriter
  | ack s => w.write (s.toBits ++ [true])
  | data p => p.write w

def readPlace (r : Reliability) : Decoder (Option Place) := do
  if r.usesChannel then
    let channel ← Decoder.readBits Limits.channelBits
    let index ← Counter.read
    return some { channel, index }
  else return none

def readPart : Decoder (Option Part) := do
  if ← Decoder.readBit then
    let id ← Counter.read
    let index ← Compressed.read Packet.partWidth
    let count ← Compressed.read Packet.partWidth
    if count = 0 ∨ count ≤ index then throw (.invalidSplit index count)
    return some { id, index, count }
  else return none

/-- What follows the sequence number of a packet. -/
def readPacket (sequence : SequenceNumber) : Decoder Packet := do
  let reliability ← Reliability.read
  let place ← readPlace reliability
  let part ← readPart
  let bitLength ← Compressed.read Packet.lengthWidth
  let length := bytesForBits bitLength
  if bitLength = 0 ∨ Limits.maximumMtu ≤ length then throw (.invalidPayloadLength bitLength)
  let payload ← Decoder.readBytes length
  return { sequence, reliability, place, part, priority := .medium, bitLength, payload }

def read : Decoder Entry := do
  let sequence ← Counter.read
  if ← Decoder.readBit then return ack sequence
  return data (← readPacket sequence)

end Entry
end ReliableDatagram
