import ReliableDatagram.Endpoint
import ReliableDatagram.Session.Receive
import ReliableDatagram.Session.Send
import ReliableDatagram.Session.Transmit

/-!
# The table of peers

One session for each peer. Messages that sessions complete are gathered in one queue, tagged with
their peer, and so are the events that the owner of the table should react to.
-/
namespace ReliableDatagram

inductive PeerEvent where
  /-- The session died or was destroyed, and is gone. -/
  | lost (peer : Address) (reason : DisconnectReason)
  /-- A datagram had a malformed entry; what stood in front of it was handled. -/
  | malformed (peer : Address) (error : Malformed)
  deriving DecidableEq, Repr

def PeerEvent.peer : PeerEvent → Address
  | lost a _ | malformed a _ => a

/-- A message was addressed to a peer without a session. -/
structure UnknownPeer where
  peer : Address
  deriving DecidableEq, Repr

def UnknownPeer.message (e : UnknownPeer) : String :=
  "No connection state for peer " ++ toString e.peer ++ "."

structure PeerTable where
  config : Config
  /-- In the order of creation, no peer twice. -/
  sessions : List (Address × Session) := []
  received : Fifo (Address × Delivery) := .empty
  events : Fifo PeerEvent := .empty

namespace PeerTable

def new (config : Config) : PeerTable := { config }

def size (t : PeerTable) : Nat := t.sessions.length

def isEmpty (t : PeerTable) : Bool := t.sessions.isEmpty

def session? (t : PeerTable) (peer : Address) : Option Session := t.sessions.lookup peer

def contains (t : PeerTable) (peer : Address) : Bool := (t.session? peer).isSome

def setSession (t : PeerTable) (peer : Address) (s : Session) : PeerTable :=
  { t with sessions := t.sessions.map fun entry => if entry.1 = peer then (peer, s) else entry }

def create (t : PeerTable) (peer : Address) (now : Instant) : Bool × PeerTable :=
  if t.contains peer then (false, t)
  else (true, { t with sessions := t.sessions ++ [(peer, .new t.config now)] })

def destroy (t : PeerTable) (peer : Address) : Bool × PeerTable :=
  if t.contains peer then
    (true, { t with
      sessions := t.sessions.filter (·.1 ≠ peer)
      events := t.events.push (.lost peer .closedLocally) })
  else (false, t)

/-- Kills a session, which the next tick removes. -/
def kill (t : PeerTable) (peer : Address) : Bool × PeerTable :=
  match t.session? peer with
  | some s => (true, t.setSession peer s.kill)
  | none => (false, t)

/-- Queues a message. One that the session refuses is dropped without an error. So is one for which frames
have no room at all (`SendError.noRoom`), although no session can go on from there: the table has no answer
for it. -/
def send (t : PeerTable) (peer : Address) (m : Message) : Except UnknownPeer PeerTable :=
  match t.session? peer with
  | none => .error { peer }
  | some s =>
    match s.sendMessage m with
    | .ok s => .ok (t.setSession peer s)
    | .error _ => .ok t

/-- Hands a datagram to the session of its peer; that of an unknown peer is ignored. -/
def handleDatagram (t : PeerTable) (peer : Address) (data : Bytes) (now : Instant) : PeerTable :=
  match t.session? peer with
  | none => t
  | some s =>
    let (result, s) := s.handleDatagram data now
    let events := match result with
      | .ok () => t.events
      | .error e => t.events.push (.malformed peer e)
    let (messages, s) := s.receiveAll
    let received := (messages.map (peer, ·)).foldl Fifo.push t.received
    { t.setSession peer s with events, received }

/-- The frames to transmit to every peer now. Sessions that are dead are removed. -/
def tick (t : PeerTable) (now : Instant) : List (Address × Frame) × PeerTable :=
  let ticked := t.sessions.map fun (peer, s) => (peer, s.transmit now)
  let frames := ticked.flatMap fun (peer, frames, _) => frames.map (peer, ·)
  let sessions := ticked.map fun (peer, _, s) => (peer, s)
  let lost := sessions.filterMap fun (peer, s) => s.dead.map (PeerEvent.lost peer)
  (frames, { t with
    sessions := sessions.filter (!·.2.isDead)
    events := lost.foldl Fifo.push t.events })

def receive? (t : PeerTable) : Option ((Address × Delivery) × PeerTable) :=
  t.received.pop?.map fun (m, received) => (m, { t with received })

def receiveAll (t : PeerTable) : List (Address × Delivery) × PeerTable :=
  (t.received.toList, { t with received := .empty })

def pollEvent? (t : PeerTable) : Option (PeerEvent × PeerTable) :=
  t.events.pop?.map fun (e, events) => (e, { t with events })

def drainEvents (t : PeerTable) : List PeerEvent × PeerTable :=
  (t.events.toList, { t with events := .empty })

end PeerTable
end ReliableDatagram
