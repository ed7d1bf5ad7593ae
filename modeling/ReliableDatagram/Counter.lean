import ReliableDatagram.Bits.Reader

/-!
# Wrapping counters

The sixteen-bit counters of the protocol. Packets are numbered by a `SequenceNumber`, messages of one
channel by an `OrderingIndex`, and the fragments of one message share a `SplitId`. They wrap around,
so an order between two of them has a meaning only while they lie less than half the range apart.
-/
namespace ReliableDatagram

inductive CounterKind where
  | sequence
  | ordering
  | split
  deriving DecidableEq, Repr

structure Counter (kind : CounterKind) where
  value : UInt16
  deriving DecidableEq, Repr

/-- Numbers the packets of one direction of a connection. -/
abbrev SequenceNumber := Counter .sequence

/-- Numbers the ordered or the sequenced messages of one channel. -/
abbrev OrderingIndex := Counter .ordering

/-- Shared by the fragments of one message; it may be reused after it has wrapped. -/
abbrev SplitId := Counter .split

namespace Counter

variable {kind : CounterKind}

instance : Inhabited (Counter kind) := ⟨⟨0⟩⟩

instance : ToString (Counter kind) := ⟨fun c => toString c.value⟩

def ofNat (n : Nat) : Counter kind := ⟨UInt16.ofNat n⟩

def toNat (c : Counter kind) : Nat := c.value.toNat

def next (c : Counter kind) : Counter kind := ⟨c.value + 1⟩

def advance (c : Counter kind) (n : Nat) : Counter kind := ⟨c.value + UInt16.ofNat n⟩

def prev (c : Counter kind) : Counter kind := ⟨c.value - 1⟩

/-- Forward steps from `base` to `c`. -/
def distanceFrom (c base : Counter kind) : UInt16 := c.value - base.value

/-- Strictly behind `reference` by less than half the range. -/
def isOlderThan (c reference : Counter kind) : Bool :=
  let behind := reference.distanceFrom c
  behind != 0 && behind < 0x8000

def toBits (c : Counter kind) : List Bool := Bits.ofNat 16 c.toNat

def read : Decoder (Counter kind) := do return ofNat (← Decoder.readBits 16)

end Counter
end ReliableDatagram
