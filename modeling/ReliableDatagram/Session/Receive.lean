import ReliableDatagram.Session.State
import ReliableDatagram.Wire.Frame

/-!
# Taking in datagrams

The entries of a datagram are handled one by one. A malformed entry ends the datagram and is
reported; what stood in front of it has been handled. A reliable packet is acknowledged even when it
has been seen before, since the acknowledgement may be what was lost.
-/
namespace ReliableDatagram
namespace Session

/-- The packet in flight that `sequence` acknowledges needs no repetition, nor does anything older
that it makes useless. -/
def handleAck (s : Session) (sequence : SequenceNumber) (now : Instant) : Session :=
  let s := s.count fun c => { c with acksReceived := c.acksReceived + 1 }
  match s.resend.acknowledge sequence with
  | (none, _) =>
    s.count fun c => { c with duplicateAcksReceived := c.duplicateAcksReceived + 1 }
  | (some acked, resend) =>
    let resend := match acked.reliability, acked.place with
      | .reliableSequenced, some place => (resend.dropSuperseded place.channel place.index).2
      | _, _ => resend
    { s with resend, lastAck := if resend.isEmpty then none else some now }

def deliver (s : Session) (m : Delivery) : Session :=
  { s with output := s.output.push m }.count fun c =>
    { c with messagesReceived := c.messagesReceived + 1 }

/-- Drops incomplete unreliable messages that are too old. -/
def purgeSplits (s : Session) (now : Instant) : Session :=
  let (purged, reassembler) := s.reassembler.purgeExpired now s.config.splitExpiry
  { s with reassembler }.count fun c => { c with splitGroupsPurged := c.splitGroupsPurged + purged }

/-- Holds a fragment until its message is complete, and passes anything else on. -/
def reassemble (s : Session) (p : Packet) (now : Instant) : Option Packet × Session :=
  let (result, reassembler) := s.reassembler.insert p now
  let s := { s with reassembler }
  match result with
  | .complete whole => (some whole, s)
  | .pending => (none, s)
  | .rejected | .overflow =>
    (none, s.count fun c => { c with invalidMessagesReceived := c.invalidMessagesReceived + 1 })

/-- A sequenced packet counts only if nothing newer was delivered before it came, nor while it was
in pieces. -/
def acceptSequenced (s : Session) (p : Packet) (place : Place) (now : Instant) : Session :=
  let channel := Channel.ofNat place.channel
  let outOfOrder (s : Session) : Session :=
    s.count fun c => { c with sequencedOutOfOrder := c.sequencedOutOfOrder + 1 }
  if (s.lanes.get channel).isSequencedStale place.index then outOfOrder s
  else
    match s.reassemble p now with
    | (none, s) => s
    | (some whole, s) =>
      match s.lanes.acceptSequenced? channel place.index with
      | none => outOfOrder s
      | some lanes =>
        let read := (lanes.get channel).sequenced
        let reassembler := (s.reassembler.dropSuperseded place.channel read).2
        let s := { s with lanes, reassembler }.count fun c =>
          { c with sequencedInOrder := c.sequencedInOrder + 1 }
        s.deliver (.ofPacket whole)

/-- A complete ordered message goes through its lane, perhaps with others that waited for it. -/
def acceptOrdered (s : Session) (whole : Packet) (place : Place) : Session :=
  let m := Delivery.ofPacket whole
  let (arrival, lanes) := s.lanes.acceptOrdered (.ofNat place.channel) place.index m
  let s := { s with lanes, output := (arrival.delivered m).foldl Fifo.push s.output }
  match arrival with
  | .inOrder followers => s.count fun c =>
    { c with
      orderedInOrder := c.orderedInOrder + 1
      messagesReceived := c.messagesReceived + 1 + followers.length }
  | .buffered | .stale => s.count fun c => { c with orderedOutOfOrder := c.orderedOutOfOrder + 1 }

/-- A packet that has not been seen before. -/
def acceptNew (s : Session) (p : Packet) (now : Instant) : Session :=
  let s := if p.part.isSome then s.purgeSplits now else s
  if p.reliability.isSequenced then
    match p.place with
    | none => s
    | some place => s.acceptSequenced p place now
  else
    match s.reassemble p now with
    | (none, s) => s
    | (some whole, s) =>
      if p.reliability.isOrdered then
        match p.place with
        | none => s
        | some place => s.acceptOrdered whole place
      else s.deliver (.ofPacket whole)

def handlePacket (s : Session) (p : Packet) (now : Instant) : Session :=
  let acks := if p.reliability.isReliable then
      s.acks.push { sequence := p.sequence, due := now + s.config.ackCoalesce }
    else s.acks
  let (arrival, arrivals) := s.arrivals.record p.sequence now
  let s := { s with acks, arrivals }
  match arrival with
  | .new => s.acceptNew p now
  | .duplicate =>
    s.count fun c => { c with duplicateMessagesReceived := c.duplicateMessagesReceived + 1 }

def handleEntry (now : Instant) (s : Session) : Entry → Session
  | .ack sequence => s.handleAck sequence now
  | .data p => s.handlePacket p now

/-- Takes in one datagram, and reports its malformed entry if it has one. -/
def handleDatagram (s : Session) (data : Bytes) (now : Instant) : Except Malformed Unit × Session :=
  if s.isDead then (.ok (), s)
  else
    let (entries, error?) := Frame.read data
    let s := s.count fun c =>
      { c with
        framesReceived := c.framesReceived + 1
        bitsReceived := c.bitsReceived + data.length * 8 }
    let s := entries.foldl (handleEntry now) s
    let window := (s.window.onAcks now (entries.countP Entry.isAck) s.hasBacklog).2
    let s := { s with window }
    match error? with
    | none => (.ok (), s)
    | some e =>
      (.error e, s.count fun c =>
        { c with invalidMessagesReceived := c.invalidMessagesReceived + 1 })

end Session
end ReliableDatagram
