import ReliableDatagram.Counter
import ReliableDatagram.Limits
import ReliableDatagram.Reliability

/-!
# Channels

There are thirty-two channels, and one value for each of them is held in a `PerChannel`. On the
sending side a channel has two counters, one for its ordered and one for its sequenced messages.
-/
namespace ReliableDatagram

abbrev Channel := Fin Limits.channels

/-- The channel of a number, of which the low five bits count. -/
def Channel.ofNat (n : Nat) : Channel := ⟨n % Limits.channels, Nat.mod_lt n (by decide)⟩

structure PerChannel (α : Type) where
  values : Vector α Limits.channels

namespace PerChannel

variable {α : Type}

def replicate (a : α) : PerChannel α := ⟨Vector.replicate Limits.channels a⟩

def get (t : PerChannel α) (c : Channel) : α := t.values[c]

def set (t : PerChannel α) (c : Channel) (a : α) : PerChannel α := ⟨t.values.set c a⟩

def map {β : Type} (f : α → β) (t : PerChannel α) : PerChannel β := ⟨t.values.map f⟩

def toList (t : PerChannel α) : List α := t.values.toList

@[simp] theorem get_replicate (a : α) (c : Channel) : (replicate a).get c = a := by
  simp [replicate, get]

@[simp] theorem get_set (t : PerChannel α) (c d : Channel) (a : α) :
    (t.set c a).get d = if d = c then a else t.get d := by
  simp only [set, get, Fin.getElem_fin, Vector.getElem_set, Fin.ext_iff, eq_comm]

@[simp] theorem get_map {β : Type} (f : α → β) (t : PerChannel α) (c : Channel) :
    (t.map f).get c = f (t.get c) := by
  simp [map, get]

end PerChannel

/-- The next indices that a sender will give out on one channel. -/
structure WriteIndices where
  ordered : OrderingIndex := default
  sequenced : OrderingIndex := default
  deriving DecidableEq, Repr

namespace WriteIndices

/-- The next index of a mode; both sequenced modes share a counter. -/
def take (w : WriteIndices) (r : Reliability) : OrderingIndex × WriteIndices :=
  if r.isSequenced then (w.sequenced, { w with sequenced := w.sequenced.next })
  else (w.ordered, { w with ordered := w.ordered.next })

end WriteIndices
end ReliableDatagram
