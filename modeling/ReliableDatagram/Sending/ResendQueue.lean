import ReliableDatagram.Fifo
import ReliableDatagram.Wire.Packet

/-!
# Packets in flight

The reliable packets that were sent and not yet acknowledged. `order` keeps sequence numbers in the
order of sending, `entries` the packets themselves. An acknowledged packet leaves its number behind in
`order`: such a stale number is skipped when it comes to the front, and all of them are removed when
they have become too many. A number that is pushed while an old one of its own is still in `order`
takes the earlier place again.
-/
namespace ReliableDatagram

structure ResendEntry where
  packet : Packet
  due : Instant
  deriving DecidableEq, Repr

structure ResendQueue where
  order : List SequenceNumber := []
  entries : List ResendEntry := []
  deriving DecidableEq, Repr

namespace ResendQueue

def empty : ResendQueue := {}

def length (q : ResendQueue) : Nat := q.entries.length

def isEmpty (q : ResendQueue) : Bool := q.entries.isEmpty

def find? (q : ResendQueue) (s : SequenceNumber) : Option ResendEntry :=
  q.entries.find? (·.packet.sequence = s)

def contains (q : ResendQueue) (s : SequenceNumber) : Bool := (q.find? s).isSome

/-- The queue without the packet numbered `s`; its place in the order stays. -/
def erase (q : ResendQueue) (s : SequenceNumber) : ResendQueue :=
  { q with entries := q.entries.filter (·.packet.sequence ≠ s) }

def push (q : ResendQueue) (p : Packet) (due : Instant) : ResendQueue :=
  { order := q.order ++ [p.sequence]
    entries := (q.erase p.sequence).entries ++ [{ packet := p, due }] }

/-- Removes the stale numbers once they clearly outnumber the packets. -/
def compact (q : ResendQueue) : ResendQueue :=
  if 2 * q.length + 16 < q.order.length then { q with order := q.order.filter q.contains } else q

def acknowledge (q : ResendQueue) (s : SequenceNumber) : Option Packet × ResendQueue :=
  match q.find? s with
  | none => (none, q)
  | some e => (some e.packet, (q.erase s).compact)

/-- The queue without stale numbers at its front. -/
def skipStale (q : ResendQueue) : ResendQueue :=
  { q with order := q.order.dropWhile (!q.contains ·) }

def peekDue (q : ResendQueue) (now : Instant) : Option Packet × ResendQueue :=
  let q := q.skipStale
  match q.order with
  | [] => (none, q)
  | s :: _ => (((q.find? s).filter (·.due ≤ now)).map (·.packet), q)

def popFront (q : ResendQueue) : Option Packet × ResendQueue :=
  let q := q.skipStale
  match q.order with
  | [] => (none, q)
  | s :: order => ((q.find? s).map (·.packet), { q.erase s with order })

/-- Made useless by the arrival of a newer message of the channel. -/
def isSuperseded (channel : Nat) (index : OrderingIndex) (p : Packet) : Bool :=
  match p.place with
  | some o =>
    p.reliability = .reliableSequenced && (o.channel = channel && o.index.isOlderThan index)
  | none => false

/-- Drops the reliable sequenced packets of a channel that are older than `index`, and counts them. -/
def dropSuperseded (q : ResendQueue) (channel : Nat) (index : OrderingIndex) : Nat × ResendQueue :=
  let kept := { q with entries := q.entries.filter (!isSuperseded channel index ·.packet) }
  let dropped := q.length - kept.length
  (dropped, if 0 < dropped then kept.compact else kept)

/-- Payload bits that wait for an acknowledgement. -/
def pendingBits (q : ResendQueue) : Nat := total (·.packet.bitLength) q.entries

end ResendQueue
end ReliableDatagram
