import ReliableDatagram.Priority
import ReliableDatagram.Limits
import ReliableDatagram.Fifo

/-!
# Statistics of a session

`Counters` only grow while a session runs. `Statistics` are a snapshot: the counters, and the sizes of
the queues at that moment.
-/
namespace ReliableDatagram

structure Counters where
  /-- First transmissions; the fragments of a message count one by one. -/
  messagesSent : PerPriority Nat := .replicate 0
  messageDataBitsSent : PerPriority Nat := .replicate 0
  messageTotalBitsSent : PerPriority Nat := .replicate 0
  unsplitMessagesSent : Nat := 0
  splitMessagesSent : Nat := 0
  /-- Fragments that messages were cut into. -/
  totalSplits : Nat := 0
  messagesResent : Nat := 0
  resentBits : Nat := 0
  acksSent : Nat := 0
  /-- Frames that the acknowledgements at hand filled up. -/
  ackOnlyFramesSent : Nat := 0
  framesSent : Nat := 0
  bitsSent : Nat := 0
  framesReceived : Nat := 0
  bitsReceived : Nat := 0
  acksReceived : Nat := 0
  /-- Acknowledgements of nothing that is in flight. -/
  duplicateAcksReceived : Nat := 0
  messagesReceived : Nat := 0
  duplicateMessagesReceived : Nat := 0
  invalidMessagesReceived : Nat := 0
  sequencedInOrder : Nat := 0
  sequencedOutOfOrder : Nat := 0
  orderedInOrder : Nat := 0
  orderedOutOfOrder : Nat := 0
  splitGroupsPurged : Nat := 0
  deriving DecidableEq, Repr

structure Statistics extends Counters where
  connectionStart : Instant
  sendBuffer : PerPriority Nat
  acksPending : Nat
  resendQueueLength : Nat
  resendBitsPending : Nat
  reassemblyPending : Nat
  /-- Numbers that the peer skipped and that have neither come nor expired. -/
  receiveHoles : Nat
  orderingWaiting : Nat
  outputQueueLength : Nat
  windowSize : Nat
  lossyWindowSize : Nat
  deriving DecidableEq, Repr

namespace Counters

def totalMessagesSent (c : Counters) : Nat := total id c.messagesSent.toList

/-- Repeated transmissions for each first one. -/
def resendRatio (c : Counters) : Float :=
  let sent := c.totalMessagesSent
  if sent = 0 then 0 else Float.ofNat c.messagesResent / Float.ofNat sent

end Counters
end ReliableDatagram
