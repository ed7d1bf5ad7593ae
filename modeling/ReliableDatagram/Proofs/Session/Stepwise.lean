import ReliableDatagram.Proofs.Session.Send

/-!
# Sending step by step

`Session.sendBits` gives the session after all changes, or an error. Here the same is done one change
after the other: places, numbers and ids are taken from the session when they are needed, packets are
queued one by one, and an error leaves behind what was changed before it. The two agree, so an error comes
before any change.
-/
namespace ReliableDatagram

/-- A computation that changes a session as it goes, and keeps the changes when it fails. -/
abbrev Sending := EStateM SendError Session

namespace Sending

def takeSequence : Sending SequenceNumber :=
  modifyGet fun s => (s.nextSequence, { s with nextSequence := s.nextSequence.next })

def takeSplitId : Sending SplitId :=
  modifyGet fun s => (s.nextSplitId, { s with nextSplitId := s.nextSplitId.next })

def takePlace (r : Reliability) (channel : Nat) : Sending (Option Place) :=
  modifyGet (·.takePlace r channel)

def push (p : Packet) : Sending Unit :=
  modify fun s => { s with queues := s.queues.modify p.priority (·.push p) }

def ofExcept {α : Type} : Except SendError α → Sending α
  | .ok a => pure a
  | .error e => throw e

/-- Queues the fragments from part `index` on. -/
def pushParts (priority : Priority) (r : Reliability) (place : Option Place) (id : SplitId) (count : Nat) :
    (index : Nat) → List Chunk → Sending Unit
  | _, [] => pure ()
  | index, chunk :: chunks => do
    let sequence ← takeSequence
    push
      { sequence, reliability := r, place, part := some { id, index, count }, priority
        bitLength := chunk.bitLength, payload := chunk.bytes }
    pushParts priority r place id count (index + 1) chunks

def sendWhole (payload : Bytes) (bitLength : Nat) (priority : Priority) (r : Reliability)
    (channel : Nat) : Sending Unit := do
  let place ← takePlace r channel
  let sequence ← takeSequence
  push { sequence, reliability := r, place, part := none, priority, bitLength, payload }
  modify (·.count fun c => { c with unsplitMessagesSent := c.unsplitMessagesSent + 1 })

def sendParts (chunks : List Chunk) (priority : Priority) (r : Reliability) (channel : Nat) :
    Sending Unit := do
  let place ← takePlace r channel
  let id ← takeSplitId
  pushParts priority r place id chunks.length 0 chunks
  modify (·.count fun c =>
    { c with
      splitMessagesSent := c.splitMessagesSent + 1
      totalSplits := c.totalSplits + chunks.length })

def sendBits (payload : Bytes) (bitLength : Nat) (priority : Priority) (r : Reliability)
    (channel : Nat) : Sending Unit := do
  if (← get).isDead then throw .deadConnection
  let bits := Session.effectiveBits payload bitLength
  if bits = 0 then throw .emptyPayload
  if Limits.channels ≤ channel then throw (.invalidChannel channel)
  match ← ofExcept ((← get).config.shape (bytesForBits bits) r) with
  | .whole => sendWhole payload bits priority r channel
  | .cut size => sendParts (Chunk.cut payload bits size) priority r.asReliable channel

end Sending

namespace Counter

variable {kind : CounterKind}

theorem advance_zero (c : Counter kind) : c.advance 0 = c := by
  simp [advance]

theorem next_advance (c : Counter kind) (n : Nat) : (c.advance n).next = c.advance (n + 1) := by
  simp [advance, next, UInt16.ofNat_add, UInt16.add_assoc]

theorem advance_next (c : Counter kind) (n : Nat) : c.next.advance n = c.advance (n + 1) := by
  simp only [advance, next, UInt16.ofNat_add, UInt16.add_assoc, UInt16.add_comm 1]
  rfl

end Counter

namespace Session

theorem enqueue_nil (s : Session) (priority : Priority) : s.enqueue priority [] = s := by
  have hqueues : s.queues.modify priority ([].foldl Fifo.push) = s.queues := by
    cases priority <;> rfl
  rw [enqueue, hqueues, List.length_nil, Counter.advance_zero]

/-- The first packet is queued before the others. -/
theorem enqueue_cons (s : Session) (priority : Priority) (p : Packet) (packets : List Packet) :
    ({ s with
        nextSequence := s.nextSequence.next
        queues := s.queues.modify priority (·.push p) } : Session).enqueue priority packets =
      s.enqueue priority (p :: packets) := by
  have hqueues : (s.queues.modify priority (·.push p)).modify priority (packets.foldl Fifo.push) =
      s.queues.modify priority ((p :: packets).foldl Fifo.push) := by
    cases priority <;> rfl
  rw [enqueue, enqueue, hqueues, Counter.advance_next, List.length_cons]

/-- A message is refused for the first of these reasons, or sent in the shape that it has. -/
theorem sendBits_eq_ite (s : Session) (payload : Bytes) (bitLength : Nat) (priority : Priority)
    (r : Reliability) (channel : Nat) : s.sendBits payload bitLength priority r channel =
      if s.isDead = true then .error .deadConnection
      else if effectiveBits payload bitLength = 0 then .error .emptyPayload
      else if Limits.channels ≤ channel then .error (.invalidChannel channel)
      else match s.config.shape (bytesForBits (effectiveBits payload bitLength)) r with
        | .error e => .error e
        | .ok .whole => .ok (s.sendWhole payload (effectiveBits payload bitLength) priority r channel)
        | .ok (.cut size) => .ok (s.sendParts (Chunk.cut payload (effectiveBits payload bitLength) size)
            priority r.asReliable channel) := by
  rw [sendBits]
  by_cases hdead : s.isDead = true
  · rw [if_pos hdead, if_pos hdead]
    rfl
  rw [if_neg hdead, if_neg hdead]
  change (if effectiveBits payload bitLength = 0 then _ else _) = _
  by_cases hbits : effectiveBits payload bitLength = 0
  · rw [if_pos hbits, if_pos hbits]
    rfl
  rw [if_neg hbits, if_neg hbits]
  change (if Limits.channels ≤ channel then _ else _) = _
  by_cases hchannel : Limits.channels ≤ channel
  · rw [if_pos hchannel, if_pos hchannel]
    rfl
  rw [if_neg hchannel, if_neg hchannel]
  change (s.config.shape (bytesForBits (effectiveBits payload bitLength)) r >>= _) = _
  cases s.config.shape (bytesForBits (effectiveBits payload bitLength)) r with
  | error e => rfl
  | ok shape => cases shape <;> rfl

end Session

namespace Sending

/-- The fragments of a message, one for each chunk, numbered from `base` on. -/
def fragments (priority : Priority) (r : Reliability) (place : Option Place) (id : SplitId) (count : Nat)
    (base : SequenceNumber) (chunks : List (Chunk × Nat)) : List Packet :=
  chunks.map fun (chunk, index) =>
    { sequence := base.advance index, reliability := r, place, part := some { id, index, count }, priority
      bitLength := chunk.bitLength, payload := chunk.bytes }

theorem pushParts_eq {priority : Priority} {r : Reliability} {place : Option Place} {id : SplitId}
    {count index : Nat} {base : SequenceNumber} (chunks : List Chunk) (s : Session)
    (hnext : s.nextSequence = base.advance index) :
    (pushParts priority r place id count index chunks).run s =
      .ok () (s.enqueue priority
        (fragments priority r place id count base (chunks.zipIdx index))) := by
  induction chunks generalizing s index with
  | nil =>
    rw [List.zipIdx_nil, fragments, List.map_nil, Session.enqueue_nil]
    rfl
  | cons chunk chunks ih =>
    simp only [pushParts, EStateM.run_bind, takeSequence, EStateM.run_modifyGet, push, EStateM.run_modify]
    rw [ih _ (by rw [hnext, Counter.next_advance]), Session.enqueue_cons, List.zipIdx_cons, hnext]
    rfl

theorem sendWhole_eq (s : Session) (payload : Bytes) (bitLength : Nat) (priority : Priority)
    (r : Reliability) (channel : Nat) : (sendWhole payload bitLength priority r channel).run s =
      .ok () (s.sendWhole payload bitLength priority r channel) := rfl

theorem sendParts_eq (s : Session) (chunks : List Chunk) (priority : Priority) (r : Reliability)
    (channel : Nat) : (sendParts chunks priority r channel).run s =
      .ok () (s.sendParts chunks priority r channel) := by
  simp only [sendParts, EStateM.run_bind, takePlace, EStateM.run_modifyGet, takeSplitId,
    EStateM.run_modify]
  rw [pushParts_eq chunks _ (Counter.advance_zero _).symm]
  rfl

/-- Step by step the same comes about, and an error leaves the session as it was. -/
theorem sendBits_eq (s : Session) (payload : Bytes) (bitLength : Nat) (priority : Priority)
    (r : Reliability) (channel : Nat) : (sendBits payload bitLength priority r channel).run s =
      match s.sendBits payload bitLength priority r channel with
      | .ok s' => .ok () s'
      | .error e => .error e s := by
  rw [Session.sendBits_eq_ite, sendBits]
  simp only [EStateM.run_bind, EStateM.run_get]
  by_cases hdead : s.isDead = true
  · simp only [if_pos hdead]
    rfl
  by_cases hbits : Session.effectiveBits payload bitLength = 0
  · simp only [if_neg hdead, if_pos hbits]
    rfl
  by_cases hchannel : Limits.channels ≤ channel
  · simp only [if_neg hdead, if_neg hbits, if_pos hchannel]
    rfl
  simp only [if_neg hdead, if_neg hbits, if_neg hchannel, EStateM.run_bind, EStateM.run_get]
  cases s.config.shape (bytesForBits (Session.effectiveBits payload bitLength)) r with
  | error e => rfl
  | ok shape =>
    cases shape with
    | whole => exact sendWhole_eq ..
    | cut size => exact sendParts_eq ..

end Sending
end ReliableDatagram
