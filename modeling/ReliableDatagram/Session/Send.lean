import ReliableDatagram.Session.State

/-!
# Submitting messages

A message that fits one frame becomes one packet. Any other is cut into chunks of equal size, the last one
excepted, and the fragments are sent reliably whatever the mode of the message. A refused message leaves no
trace. A `Message` is a payload together with the way it is to be delivered.
-/
namespace ReliableDatagram

structure Chunk where
  bytes : Bytes
  bitLength : Nat
  deriving DecidableEq, Repr

namespace Chunk

/-- At most `fuel` chunks of `size` bytes, the last one taking all bits that are left. -/
def cutWith : (fuel : Nat) → (payload : Bytes) → (bitLength size : Nat) → List Chunk
  | 0, _, _, _ => []
  | n + 1, payload, bitLength, size =>
    let length := bytesForBits bitLength
    if length = 0 then []
    else if length ≤ size then [⟨payload.take length, bitLength⟩]
    else
      ⟨payload.take size, size * 8⟩ :: cutWith n (payload.drop size) (bitLength - size * 8) size

/-- The first `bitLength` bits of a payload in chunks of `size` bytes; none if chunks are empty. -/
def cut (payload : Bytes) (bitLength size : Nat) : List Chunk :=
  if size = 0 then [] else cutWith (bytesForBits bitLength) payload bitLength size

end Chunk

/-- Chunks of `size` bytes that `length` bytes make, without bound if chunks are empty. -/
def chunkCount? (length size : Nat) : Option Nat :=
  if size = 0 then none else some ((length + size - 1) / size)

inductive SendError where
  | emptyPayload
  | invalidChannel (channel : Nat)
  | deadConnection
  | tooManySplits (parts : Nat)
  /-- The limit on parts admits any number of them, but frames have no room for even one byte of a
  part. Nothing can go on from here, the session neither. -/
  | noRoom
  deriving DecidableEq, Repr

def SendError.message : SendError → String
  | emptyPayload => "Refusing to send an empty payload."
  | invalidChannel channel => "Ordering channel " ++ toString channel ++ " is out of range."
  | deadConnection => "The connection is dead."
  | tooManySplits parts => "Payload would be split into " ++ toString parts ++ " parts."
  | noRoom => ""

inductive Shape where
  | whole
  | cut (size : Nat)
  deriving DecidableEq, Repr

/-- The shape of a message of `length` bytes. Frames without room for a fragment count as asking for
the largest number of parts. -/
def Config.shape (c : Config) (length : Nat) (r : Reliability) : Except SendError Shape :=
  if length + Packet.maxHeaderBytes r false ≤ c.frameBudget then .ok .whole
  else
    let size := c.frameBudget - Packet.maxHeaderBytes r.asReliable true
    let parts := (chunkCount? length size).getD Limits.largestCount
    if c.maxSplitParts < parts then .error (.tooManySplits parts)
    else if size = 0 then .error .noRoom
    else .ok (.cut size)

namespace Session

/-- The next place on a channel, for a mode that has one. -/
def takePlace (s : Session) (r : Reliability) (channel : Nat) : Option Place × Session :=
  if r.usesChannel then
    let c := Channel.ofNat channel
    let (index, indices) := (s.writes.get c).take r
    (some { channel, index }, { s with writes := s.writes.set c indices })
  else (none, s)

/-- Puts packets behind those of their priority. -/
def enqueue (s : Session) (priority : Priority) (packets : List Packet) : Session :=
  { s with
    nextSequence := s.nextSequence.advance packets.length
    queues := s.queues.modify priority (packets.foldl Fifo.push) }

def sendWhole (s : Session) (payload : Bytes) (bitLength : Nat) (priority : Priority)
    (reliability : Reliability) (channel : Nat) : Session :=
  let (place, s) := s.takePlace reliability channel
  let packet : Packet :=
    { sequence := s.nextSequence, reliability, place, part := none, priority, bitLength, payload }
  (s.enqueue priority [packet]).count fun c =>
    { c with unsplitMessagesSent := c.unsplitMessagesSent + 1 }

def sendParts (s : Session) (chunks : List Chunk) (priority : Priority)
    (reliability : Reliability) (channel : Nat) : Session :=
  let (place, s) := s.takePlace reliability channel
  let count := chunks.length
  let packets := chunks.zipIdx.map fun (chunk, index) =>
    ({ sequence := s.nextSequence.advance index
       reliability
       place
       part := some { id := s.nextSplitId, index, count }
       priority
       bitLength := chunk.bitLength
       payload := chunk.bytes } : Packet)
  ({ s.enqueue priority packets with nextSplitId := s.nextSplitId.next }).count fun c =>
    { c with
      splitMessagesSent := c.splitMessagesSent + 1
      totalSplits := c.totalSplits + count }

/-- Queues the first `bitLength` bits of a payload. -/
def sendBits (s : Session) (payload : Bytes) (bitLength : Nat) (priority : Priority)
    (reliability : Reliability) (channel : Nat) : Except SendError Session := do
  if s.isDead then throw .deadConnection
  let bitLength := min bitLength (min (8 * payload.length) Limits.largestBitLength)
  if bitLength = 0 then throw .emptyPayload
  if Limits.channels ≤ channel then throw (.invalidChannel channel)
  match ← s.config.shape (bytesForBits bitLength) reliability with
  | .whole => return s.sendWhole payload bitLength priority reliability channel
  | .cut size =>
    let chunks := Chunk.cut payload bitLength size
    return s.sendParts chunks priority reliability.asReliable channel

def send (s : Session) (payload : Bytes) (priority : Priority) (reliability : Reliability)
    (channel : Nat) : Except SendError Session :=
  if Limits.largestBitLength < 8 * payload.length then
    .error (.tooManySplits (payload.length / max s.config.frameBudget 1))
  else s.sendBits payload (8 * payload.length) priority reliability channel

end Session

structure Message where
  payload : Bytes
  reliability : Reliability := .reliableOrdered
  channel : Nat := 0
  priority : Priority := .medium
  deriving DecidableEq, Repr

namespace Message

def ofText (text : String) : Message := { payload := text.toUTF8.toList }

/-- What can be checked before a message reaches a session. -/
def validate (m : Message) : Except SendError Unit :=
  if m.payload.isEmpty then .error .emptyPayload
  else if Limits.channels ≤ m.channel then .error (.invalidChannel m.channel)
  else .ok ()

end Message

def Session.sendMessage (s : Session) (m : Message) : Except SendError Session :=
  s.send m.payload m.priority m.reliability m.channel

end ReliableDatagram
