import ReliableDatagram.Session.Receive
import ReliableDatagram.Session.Transmit

/-!
# Two sessions over a network

A `Link` is one direction of a network that drops, repeats and delays datagrams. Its decisions come from
a pseudo-random sequence, so a run can be repeated from its seed. An `Exchange` is two sessions that are
joined by a lossy link in each direction, and `Exchange.step` is what happens between them in one step.
-/
namespace ReliableDatagram

structure Link where
  state : UInt64
  dropPercent : Nat
  duplicatePercent : Nat
  /-- Every copy is delayed by fewer milliseconds than this. -/
  delayMillis : Nat
  delayMillis_pos : 0 < delayMillis
  /-- The copies on their way, with the instants at which they arrive. -/
  inFlight : List (Instant × Bytes) := []
  deriving DecidableEq, Repr

namespace Link

/-- A link on which nothing is on its way. Copies are not delayed if `delayMillis` is zero or one. -/
def new (seed : UInt64) (dropPercent duplicatePercent delayMillis : Nat) : Link :=
  { state := seed, dropPercent, duplicatePercent
    delayMillis := max delayMillis 1, delayMillis_pos := Nat.le_max_right .. }

/-- The next state of the pseudo-random sequence. -/
def nextState (x : UInt64) : UInt64 :=
  let x := x ^^^ (x <<< 13)
  let x := x ^^^ (x >>> 7)
  x ^^^ (x <<< 17)

def roll (l : Link) (bound : Nat) : Nat × Link :=
  let state := nextState l.state
  (state.toNat % bound, { l with state })

def launch (l : Link) (data : Bytes) (now : Instant) : Link :=
  let (delay, l) := l.roll l.delayMillis
  { l with inFlight := l.inFlight ++ [(now + Duration.ofMillis delay, data)] }

/-- Sends a datagram: not at all, once or twice. -/
def push (l : Link) (data : Bytes) (now : Instant) : Link :=
  let (drop, l) := l.roll 100
  if drop < l.dropPercent then l
  else
    let (duplicate, l) := l.roll 100
    let l := l.launch data now
    if duplicate < l.duplicatePercent then l.launch data now else l

/-- Takes out the copies that have arrived, in the order of sending. -/
def due (l : Link) (now : Instant) : List Bytes × Link :=
  let (ready, later) := l.inFlight.partition (·.1 ≤ now)
  (ready.map (·.2), { l with inFlight := later })

end Link
structure Exchange where
  a : Session
  b : Session
  ab : Link
  ba : Link

/-- What one step of an exchange did. -/
structure ExchangeStep where
  framesOfA : List Frame
  framesOfB : List Frame
  arrivalsAtA : Nat
  arrivalsAtB : Nat
  receivedByA : List Delivery
  receivedByB : List Delivery

def Session.handleDatagrams (s : Session) (data : List Bytes) (now : Instant) : Session :=
  data.foldl (fun s d => (s.handleDatagram d now).2) s

namespace Exchange

/-- Both sides transmit, then what is due arrives at `b` and at `a`, then both applications receive
everything. -/
def step (x : Exchange) (now : Instant) : ExchangeStep × Exchange :=
  let (framesOfA, a) := x.a.transmit now
  let (framesOfB, b) := x.b.transmit now
  let ab := framesOfA.foldl (fun l f => l.push f.bytes now) x.ab
  let ba := framesOfB.foldl (fun l f => l.push f.bytes now) x.ba
  let (toB, ab) := ab.due now
  let b := b.handleDatagrams toB now
  let (toA, ba) := ba.due now
  let a := a.handleDatagrams toA now
  let (receivedByA, a) := a.receiveAll
  let (receivedByB, b) := b.receiveAll
  ({ framesOfA, framesOfB, arrivalsAtA := toA.length, arrivalsAtB := toB.length,
     receivedByA, receivedByB },
   { a, b, ab, ba })

end Exchange
end ReliableDatagram
