import ReliableDatagram.Limits
import ReliableDatagram.Fifo
import ReliableDatagram.Wire.Packet

/-!
# Putting fragments together

The fragments of messages that are not complete yet, in one group for each split id. Every held
fragment is charged with its payload and a fixed overhead, and the sum of the charges is bounded. A
fragment that completes its message is taken even beyond the bound.
-/
namespace ReliableDatagram

structure FragmentGroup where
  /-- The fragments by ascending part number. -/
  parts : List (Nat × Packet)
  count : Nat
  bytes : Nat
  firstSeen : Instant
  /-- The mode and the place of the first fragment that came. -/
  reliable : Bool
  sequenced : Option Place
  deriving DecidableEq, Repr

inductive Reassembly where
  | complete (packet : Packet)
  | pending
  /-- At odds with the limits, or with the fragments that are already held. -/
  | rejected
  /-- There is no room for it. -/
  | overflow
  deriving DecidableEq, Repr

structure Reassembler where
  maxParts : Nat
  maxBytes : Nat
  groups : List (SplitId × FragmentGroup) := []
  bytes : Nat := 0
  deriving DecidableEq, Repr

namespace FragmentGroup

def start (p : Packet) (part : Part) (now : Instant) : FragmentGroup :=
  { parts := [], count := part.count, bytes := 0, firstSeen := now
    reliable := p.reliability.isReliable
    sequenced := if p.reliability.isSequenced then p.place else none }

/-- Puts a fragment in front of those with a higher number. -/
def insertPart (index : Nat) (p : Packet) : List (Nat × Packet) → List (Nat × Packet)
  | [] => [(index, p)]
  | (i, q) :: parts =>
    if index < i then (index, p) :: (i, q) :: parts else (i, q) :: insertPart index p parts

/-- All fragments as one packet: the first one with the payloads of all. The bit length is a sum of
32-bit words. -/
def assemble : List (Nat × Packet) → Option Packet
  | [] => none
  | parts@((_, first) :: _) =>
    some { first with
      part := none
      bitLength := total (·.2.bitLength) parts % (Limits.largestBitLength + 1)
      payload := parts.flatMap (·.2.body) }

end FragmentGroup

namespace Reassembler

/-- What a held fragment is charged with. -/
def cost (p : Packet) : Nat := p.payloadLength + Limits.fragmentOverhead

def pending (r : Reassembler) : Nat := total (·.2.parts.length) r.groups

def isEmpty (r : Reassembler) : Bool := r.groups.isEmpty

def group? (r : Reassembler) (id : SplitId) : Option FragmentGroup := r.groups.lookup id

def eraseGroup (r : Reassembler) (id : SplitId) : List (SplitId × FragmentGroup) :=
  r.groups.filter (·.1 ≠ id)

/-- Adds a fragment that its group does not hold yet. -/
def add (r : Reassembler) (g : FragmentGroup) (part : Part) (p : Packet) :
    Reassembly × Reassembler :=
  let completes := g.parts.length + 1 = g.count
  if ¬completes ∧ r.maxBytes < r.bytes + cost p then (.overflow, r)
  else
    let parts := FragmentGroup.insertPart part.index p g.parts
    if parts.length < g.count then
      let g := { g with parts, bytes := g.bytes + cost p }
      (.pending, { r with groups := (part.id, g) :: r.eraseGroup part.id, bytes := r.bytes + cost p })
    else
      let r := { r with
        groups := r.eraseGroup part.id, bytes := r.bytes + cost p - (g.bytes + cost p) }
      match FragmentGroup.assemble parts with
      | some whole => (.complete whole, r)
      | none => (.pending, r)

/-- Takes a packet. One that is no fragment passes through. -/
def insert (r : Reassembler) (p : Packet) (now : Instant) : Reassembly × Reassembler :=
  match p.part with
  | none => (.complete p, r)
  | some part =>
    if r.maxParts < part.count ∨ part.count ≤ part.index then (.rejected, r)
    else
      match r.group? part.id with
      | none => r.add (.start p part now) part p
      | some g =>
        if g.count ≠ part.count then (.rejected, r)
        else if g.parts.any (·.1 = part.index) then (.pending, r)
        else r.add g part p

/-- Drops the groups of which `doomed` holds, and counts them. -/
def dropWhere (r : Reassembler) (doomed : FragmentGroup → Bool) : Nat × Reassembler :=
  let groups := r.groups.filter (!doomed ·.2)
  let freed := total (·.2.bytes) (r.groups.filter (doomed ·.2))
  (r.groups.length - groups.length, { r with groups, bytes := r.bytes - freed })

/-- Drops unreliable messages that have waited for longer than `expiry`; reliable ones will be
completed by sending their fragments again. -/
def purgeExpired (r : Reassembler) (now : Instant) (expiry : Duration) : Nat × Reassembler :=
  r.dropWhere fun g => !g.reliable && expiry < elapsed g.firstSeen now

/-- Drops sequenced messages of a channel that are older than `read`. -/
def dropSuperseded (r : Reassembler) (channel : Nat) (read : OrderingIndex) : Nat × Reassembler :=
  r.dropWhere fun g =>
    g.sequenced.any fun place => place.channel = channel && place.index.isOlderThan read

def clear (r : Reassembler) : Reassembler := { r with groups := [], bytes := 0 }

end Reassembler
end ReliableDatagram
