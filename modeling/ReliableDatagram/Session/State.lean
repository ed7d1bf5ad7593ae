import ReliableDatagram.Fifo
import ReliableDatagram.Receiving.ArrivalLog
import ReliableDatagram.Receiving.Lanes
import ReliableDatagram.Receiving.Reassembly
import ReliableDatagram.Sending.ResendQueue
import ReliableDatagram.Sending.Window
import ReliableDatagram.Session.Config
import ReliableDatagram.Session.Statistics

/-!
# Sessions

The state of one connection. A session touches no socket and reads no clock: messages are submitted
to it, it answers with the frames to transmit, and it turns the datagrams that arrive into messages.
-/
namespace ReliableDatagram

inductive DisconnectReason where
  | timedOut
  | closedLocally
  | killed
  deriving DecidableEq, Repr

def DisconnectReason.message : DisconnectReason → String
  | timedOut => "timed out"
  | closedLocally => "closed locally"
  | killed => "killed"

/-- A complete message for the application. Messages without a channel are on channel zero. -/
structure Delivery where
  payload : Bytes
  bitLength : Nat
  reliability : Reliability
  channel : Nat
  deriving DecidableEq, Repr

def Delivery.ofPacket (p : Packet) : Delivery :=
  { payload := p.payload, bitLength := p.bitLength, reliability := p.reliability
    channel := (p.place.map (·.channel)).getD 0 }

structure PendingAck where
  sequence : SequenceNumber
  due : Instant
  deriving DecidableEq, Repr

structure Session where
  config : Config
  start : Instant
  nextSequence : SequenceNumber := default
  nextSplitId : SplitId := default
  writes : PerChannel WriteIndices := .replicate {}
  lanes : Lanes Delivery := .initial
  arrivals : ArrivalLog
  queues : PerPriority (Fifo Packet) := .replicate .empty
  resend : ResendQueue := .empty
  acks : Fifo PendingAck := .empty
  reassembler : Reassembler
  output : Fifo Delivery := .empty
  window : Window
  /-- Runs while reliable data is unacknowledged: the last acknowledgement, or the first
  transmission into an empty resend queue. -/
  lastAck : Option Instant := none
  dead : Option DisconnectReason := none
  counters : Counters := {}

namespace Session

def new (config : Config) (now : Instant) : Session :=
  { config
    start := now
    arrivals := { timeout := config.connectionTimeout }
    reassembler := { maxParts := config.maxSplitParts, maxBytes := config.maxReassemblyBytes }
    window := .initial config.windowCooldown }

def count (s : Session) (f : Counters → Counters) : Session := { s with counters := f s.counters }

def isDead (s : Session) : Bool := s.dead.isSome

def receive? (s : Session) : Option (Delivery × Session) :=
  s.output.pop?.map fun (m, output) => (m, { s with output })

def receiveAll (s : Session) : List Delivery × Session :=
  (s.output.toList, { s with output := .empty })

/-- Nothing is sent or held any more. The first reason stays, and so do the messages that were
complete. -/
def die (s : Session) (reason : DisconnectReason) : Session :=
  { s with
    dead := some (s.dead.getD reason)
    queues := .replicate .empty
    resend := .empty
    acks := .empty
    reassembler := s.reassembler.clear
    lanes := s.lanes.clear
    arrivals := s.arrivals.clear
    lastAck := none }

def kill (s : Session) : Session := s.die .killed

/-- Ends the session and drops the messages that were not received yet. -/
def close (s : Session) : Session := { s.die .closedLocally with output := .empty }

def resendDelay (s : Session) : Duration := s.config.resendDelay

/-- The delay of acknowledgements and the cooldown of the window follow. -/
def setResendDelay (s : Session) (delay : Duration) : Session :=
  let config := s.config.withResendDelay delay
  { s with config, window := { s.window with cooldown := config.windowCooldown } }

/-- Packets wait to be sent for the first time. -/
def hasBacklog (s : Session) : Bool := s.queues.toList.any (!·.isEmpty)

/-- Something is queued, in flight, or waiting to be read. -/
def hasPendingData (s : Session) : Bool :=
  s.hasBacklog || !s.acks.isEmpty || !s.resend.isEmpty || !s.output.isEmpty
    || 0 < s.lanes.waiting || !s.reassembler.isEmpty

/-- The packets in flight fill the window. -/
def isThrottled (s : Session) : Bool := s.window.isFull s.resend.length

def statistics (s : Session) : Statistics :=
  { s.counters with
    connectionStart := s.start
    sendBuffer := s.queues.map Fifo.length
    acksPending := s.acks.length
    resendQueueLength := s.resend.length
    resendBitsPending := s.resend.pendingBits
    reassemblyPending := s.reassembler.pending
    receiveHoles := s.arrivals.holes
    orderingWaiting := s.lanes.waiting
    outputQueueLength := s.output.length
    windowSize := s.window.size
    lossyWindowSize := s.window.lossy }

end Session
end ReliableDatagram
