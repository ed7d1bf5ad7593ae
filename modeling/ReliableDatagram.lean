import ReliableDatagram.Endpoint
import ReliableDatagram.Network.Exchange
import ReliableDatagram.Peers.Table
import ReliableDatagram.Proofs.Wire.Fields
import ReliableDatagram.Proofs.Wire.RoundTrip
import ReliableDatagram.Proofs.Wire.Frames
import ReliableDatagram.Proofs.Counting
import ReliableDatagram.Proofs.Receiving.DuplicateLog
import ReliableDatagram.Proofs.Sending.Chunks
import ReliableDatagram.Proofs.Sending.Shipment
import ReliableDatagram.Proofs.Receiving.Fragments
import ReliableDatagram.Proofs.Receiving.LaneOrder
import ReliableDatagram.Proofs.Receiving.Inbox
import ReliableDatagram.Proofs.Session.Receive
import ReliableDatagram.Proofs.Sending.InFlight
import ReliableDatagram.Proofs.Session.Send
import ReliableDatagram.Proofs.Session.Transmit
import ReliableDatagram.Proofs.Session.Outbox
import ReliableDatagram.Proofs.Network.Run
import ReliableDatagram.Proofs.Network.Delivery
import ReliableDatagram.Proofs.Network.Completeness
import ReliableDatagram.Proofs.Wire.Sizes
import ReliableDatagram.Proofs.Party.Legality
import ReliableDatagram.Proofs.Party.Retention
import ReliableDatagram.Proofs.Session.EventLog
import ReliableDatagram.Proofs.Party.History
import ReliableDatagram.Proofs.Party.Exhaustion
import ReliableDatagram.Proofs.Sending.Deadlines
import ReliableDatagram.Proofs.Session.Timing
import ReliableDatagram.Proofs.Party.Changes
import ReliableDatagram.Proofs.Party.Punctuality
import ReliableDatagram.Proofs.Wire.Decoded
import ReliableDatagram.Proofs.Receiving.Accounting
import ReliableDatagram.Proofs.Checked.Reading
import ReliableDatagram.Proofs.Checked.Holding
import ReliableDatagram.Proofs.Checked.Handling
import ReliableDatagram.Proofs.Party.Resilience
import ReliableDatagram.Proofs.Session.Output
import ReliableDatagram.Proofs.Peers.Sessions
import ReliableDatagram.Proofs.Peers.Run
import ReliableDatagram.Proofs.Peers.Isolation
import ReliableDatagram.Proofs.Peers.Lifecycle
import ReliableDatagram.Proofs.Network.Superseding
import ReliableDatagram.Proofs.Party.Death
import ReliableDatagram.Proofs.Session.Timer
import ReliableDatagram.Proofs.Party.Timeout
import ReliableDatagram.Proofs.Session.Precedence
import ReliableDatagram.Proofs.Party.Precedence
import ReliableDatagram.Proofs.Receiving.NewArrivals
import ReliableDatagram.Proofs.Receiving.OrderedArrivals
import ReliableDatagram.Proofs.Session.Traffic
import ReliableDatagram.Proofs.Party.Traffic
import ReliableDatagram.Proofs.Sending.FlowControl
import ReliableDatagram.Proofs.Session.FlowControl
import ReliableDatagram.Proofs.Party.FlowControl
import ReliableDatagram.Proofs.Party.Refusal
import ReliableDatagram.Proofs.Receiving.Rejoining
import ReliableDatagram.Proofs.Receiving.Provenance
import ReliableDatagram.Proofs.Party.Provenance
import ReliableDatagram.Proofs.Session.Intake
import ReliableDatagram.Proofs.Party.SequencedGroups
import ReliableDatagram.Proofs.Party.Lengths
import ReliableDatagram.Proofs.Session.Stepwise
import ReliableDatagram.Proofs.Session.Submission
import ReliableDatagram.Proofs.Receiving.Newest
import ReliableDatagram.Proofs.Network.Overtaking
import ReliableDatagram.Proofs.Wire.Truncation
import ReliableDatagram.Proofs.Wire.Normalisation
import ReliableDatagram.Proofs.Session.Framing
import ReliableDatagram.Proofs.Checked.Sending
import ReliableDatagram.Proofs.Wire.Room
import ReliableDatagram.Proofs.Sending.PlainQueue
import ReliableDatagram.Proofs.Sending.Growth
import ReliableDatagram.Proofs.Wire.Streams
import ReliableDatagram.Proofs.Party.AckFrames
