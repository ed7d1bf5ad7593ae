import Std.Data.TreeMap
import ReliableDatagram.Channel
import ReliableDatagram.Fifo

/-!
# Order on arrival

The receiving side of the channels. A lane knows the index that comes next in order and the index
behind the newest sequenced message. Ordered messages that came too early wait in it under their
index.
-/
namespace ReliableDatagram

structure Lane (α : Type) where
  ordered : OrderingIndex := default
  sequenced : OrderingIndex := default
  waiting : Std.TreeMap UInt16 α := ∅

/-- What becomes of an ordered message on arrival. -/
inductive OrderedArrival (α : Type) where
  /-- Delivered, and behind it the messages that had waited for it. -/
  | inOrder (followers : List α)
  /-- Held until the gap in front of it is filled. -/
  | buffered
  /-- Behind the lane, or already waiting. -/
  | stale
  deriving DecidableEq, Repr

namespace Lane

variable {α : Type}

/-- Something newer on this lane has been delivered. -/
def isSequencedStale (l : Lane α) (index : OrderingIndex) : Bool := index.isOlderThan l.sequenced

/-- The lane after a sequenced message, unless that came too late. -/
def acceptSequenced? (l : Lane α) (index : OrderingIndex) : Option (Lane α) :=
  if l.isSequencedStale index then none else some { l with sequenced := index.next }

/-- Takes out the waiting messages that are next in order, at most `fuel` of them. -/
def releaseWith : (fuel : Nat) → Lane α → List α × Lane α
  | 0, l => ([], l)
  | n + 1, l =>
    match l.waiting[l.ordered.value]? with
    | none => ([], l)
    | some a =>
      let waiting := l.waiting.erase l.ordered.value
      let (released, l') := releaseWith n { l with ordered := l.ordered.next, waiting }
      (a :: released, l')

def release (l : Lane α) : List α × Lane α := releaseWith l.waiting.size l

def acceptOrdered (l : Lane α) (index : OrderingIndex) (a : α) : OrderedArrival α × Lane α :=
  if index = l.ordered then
    let (followers, l') := { l with ordered := l.ordered.next }.release
    (.inOrder followers, l')
  else if index.isOlderThan l.ordered || l.waiting.contains index.value then (.stale, l)
  else (.buffered, { l with waiting := l.waiting.insert index.value a })

/-- Forgets the waiting messages; the counters stay. -/
def clear (l : Lane α) : Lane α := { l with waiting := ∅ }

end Lane

/-- The messages that an ordered arrival makes deliverable, in order. -/
def OrderedArrival.delivered {α : Type} (a : α) : OrderedArrival α → List α
  | inOrder followers => a :: followers
  | buffered | stale => []

abbrev Lanes (α : Type) := PerChannel (Lane α)

namespace Lanes

variable {α : Type}

def initial : Lanes α := PerChannel.replicate {}

def acceptSequenced? (t : Lanes α) (c : Channel) (index : OrderingIndex) : Option (Lanes α) :=
  ((t.get c).acceptSequenced? index).map (t.set c)

def acceptOrdered (t : Lanes α) (c : Channel) (index : OrderingIndex) (a : α) :
    OrderedArrival α × Lanes α :=
  let (arrival, lane) := (t.get c).acceptOrdered index a
  (arrival, t.set c lane)

/-- Messages that wait on any channel. -/
def waiting (t : Lanes α) : Nat := total (·.waiting.size) t.toList

def clear (t : Lanes α) : Lanes α := t.map Lane.clear

end Lanes
end ReliableDatagram
