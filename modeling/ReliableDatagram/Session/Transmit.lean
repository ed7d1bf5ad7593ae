import ReliableDatagram.Session.State
import ReliableDatagram.Wire.Frame

/-!
# Building frames

A session that is asked to transmit first looks at its timeout and then fills one frame after the
other. A frame takes, in this order, the acknowledgements that are due, the packets that are overdue,
fresh packets by priority while the window is open, and at last whatever acknowledgements still fit.
-/
namespace ReliableDatagram

/-- A frame under construction, and the session that it is filled from. -/
structure Filling where
  session : Session
  frame : FrameBuilder
  /-- A packet was sent again since the transmission began. -/
  lost : Bool

namespace Session

/-- Enough acknowledgements have piled up, or the oldest has waited long enough. -/
def acksDue (s : Session) (now : Instant) : Bool :=
  match s.acks.toList with
  | [] => false
  | a :: _ => Limits.minimumWindow ≤ s.acks.length || a.due ≤ now

end Session

namespace Filling

/-- Puts acknowledgements into a frame as long as they fit, and returns the others. -/
def pushAcks : FrameBuilder → List PendingAck → FrameBuilder × List PendingAck
  | f, [] => (f, [])
  | f, a :: acks =>
    if f.fits (.ack a.sequence) then pushAcks (f.push (.ack a.sequence)) acks else (f, a :: acks)

/-- Moves acknowledgements from the session to the frame as long as they fit. -/
def takeAcks (d : Filling) : Filling :=
  let (frame, left) := pushAcks d.frame d.session.acks.toList
  let sent := d.session.acks.length - left.length
  let s := { d.session with acks := .ofList left }
  { d with
    frame
    session := s.count fun c => { c with acksSent := c.acksSent + sent } }

/-- The overdue packet at the front is sent again and goes to the back of the queue. The first one of
a transmission counts as a loss. -/
def sendAgain (d : Filling) (now : Instant) (p : Packet) : Filling :=
  let s := d.session
  let resend := s.resend.popFront.2.push p (now + s.config.resendDelay)
  let window := if d.lost then s.window else s.window.onLoss now
  { frame := d.frame.push (.data p)
    lost := true
    session := { s with resend, window }.count fun c =>
      { c with
        messagesResent := c.messagesResent + 1
        resentBits := c.resentBits + p.bitLength } }

/-- Sends overdue packets again, at most `fuel` of them; says whether the frame could not take one. -/
def resendWith (now : Instant) : (fuel : Nat) → Filling → Bool × Filling
  | 0, d => (false, d)
  | n + 1, d =>
    let (overdue, resend) := d.session.resend.peekDue now
    let d := { d with session := { d.session with resend } }
    match overdue with
    | none => (false, d)
    | some p =>
      if d.frame.fits (.data p) then resendWith now n (d.sendAgain now p) else (true, d)

/-- Sends overdue packets again. A packet just sent is not overdue, so each is sent at most once. -/
def resendOverdue (d : Filling) (now : Instant) : Bool × Filling :=
  resendWith now (d.session.resend.length + 1) d

/-- A packet leaves its queue for the first time; a reliable one is kept until acknowledged. -/
def sendFirst (d : Filling) (now : Instant) (priority : Priority) (p : Packet) : Filling :=
  let before := d.frame.bitLength
  let frame := d.frame.push (.data p)
  let s := d.session.count fun c =>
    { c with
      messagesSent := c.messagesSent.modify priority (· + 1)
      messageDataBitsSent := c.messageDataBitsSent.modify priority (· + p.bitLength)
      messageTotalBitsSent :=
        c.messageTotalBitsSent.modify priority (· + (frame.bitLength - before)) }
  { d with
    frame
    session :=
      if p.reliability.isReliable then
        { s with
          lastAck := some (s.lastAck.getD now)
          resend := s.resend.push p (now + s.config.resendDelay) }
      else s }

/-- Sends the packets of one queue until the window closes, which the first component says, or one
does not fit. The packets that are left come last. -/
def sendQueued (now : Instant) (priority : Priority) :
    List Packet → Filling → Bool × Filling × List Packet
  | [], d => (false, d, [])
  | p :: queue, d =>
    if d.session.isThrottled then (true, d, p :: queue)
    else if d.frame.fits (.data p) then sendQueued now priority queue (d.sendFirst now priority p)
    else (false, d, p :: queue)

/-- Sends fresh packets by priority while the window is open. -/
def sendFresh (now : Instant) : List Priority → Filling → Filling
  | [], d => d
  | priority :: others, d =>
    let (closed, d, queue) := sendQueued now priority (d.session.queues.get priority).toList d
    let queues := d.session.queues.set priority (.ofList queue)
    let d := { d with session := { d.session with queues } }
    if closed then d else sendFresh now others d

/-- Fills a frame. Acknowledgements that are due come alone when they leave no room. -/
def fill (now : Instant) (d : Filling) : Filling :=
  let due := d.session.acksDue now
  let d := if due then d.takeAcks else d
  if due && !d.session.acks.isEmpty then
    { d with session := d.session.count fun c =>
        { c with ackOnlyFramesSent := c.ackOnlyFramesSent + 1 } }
  else
    match d.resendOverdue now with
    | (true, d) => d
    | (false, d) =>
      let d := sendFresh now Priority.all d
      if due || d.frame.isEmpty then d else d.takeAcks

end Filling

namespace Session

/-- There is something to send. A closed window holds back neither acknowledgements nor overdue
packets, without which it would never open again. -/
def isFrameReady (s : Session) (now : Instant) : Bool × Session :=
  if !s.isThrottled || s.acksDue now then (true, s)
  else
    let (overdue, resend) := s.resend.peekDue now
    (overdue.isSome, { s with resend })

/-- At most `fuel` frames; `lost` says whether a packet was already sent again. -/
def buildFrames (now : Instant) : (fuel : Nat) → (lost : Bool) → Session → List Frame × Session
  | 0, _, s => ([], s)
  | n + 1, lost, s =>
    match s.isFrameReady now with
    | (false, s) => ([], s)
    | (true, s) =>
      let d := Filling.fill now { session := s, frame := .ofMaxBytes s.config.frameBudget, lost }
      if d.frame.isEmpty then ([], d.session)
      else
        let frame := d.frame.finish
        let s := d.session.count fun c =>
          { c with
            framesSent := c.framesSent + 1
            bitsSent := c.bitsSent + frame.bytes.length * 8 }
        let (frames, s) := buildFrames now n d.lost s
        (frame :: frames, s)

/-- Everything that could still go into a frame. -/
def unsent (s : Session) : Nat :=
  s.acks.length + s.resend.length + total Fifo.length s.queues.toList

/-- Reliable data has been unacknowledged for longer than the connection lives. -/
def hasTimedOut (s : Session) (now : Instant) : Bool :=
  match s.lastAck with
  | none => false
  | some t => !s.resend.isEmpty && s.config.connectionTimeout < elapsed t now

/-- The frames to transmit now. Each of them takes something that is `unsent`. -/
def transmit (s : Session) (now : Instant) : List Frame × Session :=
  if s.isDead then ([], s)
  else if s.hasTimedOut now then ([], s.die .timedOut)
  else buildFrames now (s.unsent + 1) false s

end Session
end ReliableDatagram
