import ReliableDatagram.Bits.Reader

/-!
# Delivery modes

A mode says whether a message is sent again until it is acknowledged, and whether its channel keeps
all messages in order (`isOrdered`) or only moves forward (`isSequenced`).
-/
namespace ReliableDatagram

inductive Reliability where
  | unreliable
  | unreliableSequenced
  | reliable
  | reliableOrdered
  | reliableSequenced
  deriving DecidableEq, Repr

namespace Reliability

/-- Kept and sent again until acknowledged. -/
def isReliable : Reliability → Bool
  | unreliable | unreliableSequenced => false
  | reliable | reliableOrdered | reliableSequenced => true

/-- Delivered in the order of sending, waiting for what is missing. -/
def isOrdered : Reliability → Bool
  | reliableOrdered => true
  | _ => false

/-- Only what is newer than everything delivered before is delivered. -/
def isSequenced : Reliability → Bool
  | unreliableSequenced | reliableSequenced => true
  | _ => false

/-- A channel and an index travel with the packet. -/
def usesChannel (r : Reliability) : Bool := r.isOrdered || r.isSequenced

/-- The guarantees as one number: reliable 1, ordered 2, sequenced 4. -/
def flags (r : Reliability) : Nat :=
  r.isReliable.toNat + 2 * r.isOrdered.toNat + 4 * r.isSequenced.toNat

/-- The mode of a fragment: a single lost fragment would lose the whole message. -/
def asReliable : Reliability → Reliability
  | unreliable => reliable
  | unreliableSequenced => reliableSequenced
  | r => r

def code : Reliability → Nat
  | unreliable => 0
  | unreliableSequenced => 1
  | reliable => 2
  | reliableOrdered => 3
  | reliableSequenced => 4

def ofCode : Nat → Except Malformed Reliability
  | 0 => .ok unreliable
  | 1 => .ok unreliableSequenced
  | 2 => .ok reliable
  | 3 => .ok reliableOrdered
  | 4 => .ok reliableSequenced
  | n => .error (.unknownReliability n)

def name : Reliability → String
  | unreliable => "Unreliable"
  | unreliableSequenced => "UnreliableSequenced"
  | reliable => "Reliable"
  | reliableOrdered => "ReliableOrdered"
  | reliableSequenced => "ReliableSequenced"

def width : Nat := 3

def toBits (r : Reliability) : List Bool := Bits.ofNat width r.code

def read : Decoder Reliability := do
  match ofCode (← Decoder.readBits width) with
  | .ok r => return r
  | .error e => throw e

theorem ofCode_code (r : Reliability) : ofCode r.code = .ok r := by cases r <;> rfl

end Reliability
end ReliableDatagram
