import ReliableDatagram.Proofs.Checked.Holding
import ReliableDatagram.Proofs.Session.Timing
import ReliableDatagram.Proofs.Wire.Decoded

/-!
# Taking in datagrams, with checks

Every entry that was read from a datagram is handled without going wrong, and leaves the books of the
reassembler balanced for the next one. So the checks never fail, and what the session does with a
datagram is what it does with checks.
-/
namespace ReliableDatagram.Checked

/-! ### The steps with checks -/

def dropSuperseded (q : ResendQueue) (channel : Nat) (index : OrderingIndex) :
    Option (Nat × ResendQueue) := do
  let kept := { q with entries := q.entries.filter (!ResendQueue.isSuperseded channel index ·.packet) }
  let dropped ← sub q.length kept.length
  return (dropped, if 0 < dropped then kept.compact else kept)

def handleAck (s : Session) (sequence : SequenceNumber) (now : Instant) : Option Session := do
  let s := s.count fun c => { c with acksReceived := c.acksReceived + 1 }
  match s.resend.acknowledge sequence with
  | (none, _) =>
    return s.count fun c => { c with duplicateAcksReceived := c.duplicateAcksReceived + 1 }
  | (some acked, resend) =>
    let resend ← match acked.reliability, acked.place with
      | .reliableSequenced, some place =>
        (dropSuperseded resend place.channel place.index).map Prod.snd
      | _, _ => some resend
    return { s with resend, lastAck := if resend.isEmpty then none else some now }

def purgeSplits (s : Session) (now : Instant) : Option Session := do
  let (purged, reassembler) ← dropWhere s.reassembler fun g =>
    !g.reliable && s.config.splitExpiry < elapsed g.firstSeen now
  return { s with reassembler }.count fun c =>
    { c with splitGroupsPurged := c.splitGroupsPurged + purged }

def reassemble (s : Session) (p : Packet) (now : Instant) : Option (Option Packet × Session) := do
  let (result, reassembler) ← insert s.reassembler p now
  let s := { s with reassembler }
  match result with
  | .complete whole => return (some whole, s)
  | .pending => return (none, s)
  | .rejected | .overflow =>
    return (none, s.count fun c => { c with invalidMessagesReceived := c.invalidMessagesReceived + 1 })

def acceptSequenced (s : Session) (p : Packet) (place : Place) (now : Instant) : Option Session := do
  let c ← channel place.channel
  let outOfOrder (s : Session) : Session :=
    s.count fun c => { c with sequencedOutOfOrder := c.sequencedOutOfOrder + 1 }
  if (s.lanes.get c).isSequencedStale place.index then return outOfOrder s
  match ← reassemble s p now with
  | (none, s) => return s
  | (some whole, s) =>
    match s.lanes.acceptSequenced? c place.index with
    | none => return outOfOrder s
    | some lanes =>
      let read := (lanes.get c).sequenced
      let (_, reassembler) ← dropWhere s.reassembler fun g =>
        g.sequenced.any fun other => other.channel = place.channel && other.index.isOlderThan read
      let s := { s with lanes, reassembler }.count fun c =>
        { c with sequencedInOrder := c.sequencedInOrder + 1 }
      return s.deliver (.ofPacket whole)

def acceptOrdered (s : Session) (whole : Packet) (place : Place) : Option Session := do
  let m := Delivery.ofPacket whole
  let (arrival, lanes) ← acceptOnLane s.lanes place.channel place.index m
  let s := { s with lanes, output := (arrival.delivered m).foldl Fifo.push s.output }
  match arrival with
  | .inOrder followers => return s.count fun c =>
    { c with
      orderedInOrder := c.orderedInOrder + 1
      messagesReceived := c.messagesReceived + 1 + followers.length }
  | .buffered | .stale =>
    return s.count fun c => { c with orderedOutOfOrder := c.orderedOutOfOrder + 1 }

/-- A fragment is an occasion to drop what is too old. -/
def purgeFor (s : Session) (p : Packet) (now : Instant) : Option Session :=
  if p.part.isSome then purgeSplits s now else some s

def acceptNew (s : Session) (p : Packet) (now : Instant) : Option Session := do
  let s ← purgeFor s p now
  if p.reliability.isSequenced then
    match p.place with
    | none => return s
    | some place => acceptSequenced s p place now
  else
    match ← reassemble s p now with
    | (none, s) => return s
    | (some whole, s) =>
      if p.reliability.isOrdered then
        match p.place with
        | none => return s
        | some place => acceptOrdered s whole place
      else return s.deliver (.ofPacket whole)

def handlePacket (s : Session) (p : Packet) (now : Instant) : Option Session := do
  let acks := if p.reliability.isReliable then
      s.acks.push { sequence := p.sequence, due := now + s.config.ackCoalesce }
    else s.acks
  let (arrival, arrivals) ← record s.arrivals p.sequence now
  let s := { s with acks, arrivals }
  match arrival with
  | .new => acceptNew s p now
  | .duplicate =>
    return s.count fun c => { c with duplicateMessagesReceived := c.duplicateMessagesReceived + 1 }

def handleEntry (now : Instant) (s : Session) : Entry → Option Session
  | .ack sequence => handleAck s sequence now
  | .data p => handlePacket s p now

/-- Takes in one datagram. -/
def handleDatagram (s : Session) (data : Bytes) (now : Instant) :
    Option (Except Malformed Unit × Session) := do
  if s.isDead then return (.ok (), s)
  let (entries, error?) ← readFrame data
  let s := s.count fun c =>
    { c with
      framesReceived := c.framesReceived + 1
      bitsReceived := c.bitsReceived + data.length * 8 }
  let s ← entries.foldlM (handleEntry now) s
  let window := (s.window.onAcks now (entries.countP Entry.isAck) s.hasBacklog).2
  let s := { s with window }
  match error? with
  | none => return (.ok (), s)
  | some e =>
    return (.error e, s.count fun c =>
      { c with invalidMessagesReceived := c.invalidMessagesReceived + 1 })

/-! ### Why they do not fail -/

/-- The books are balanced, and a message that was held in fragments fits. -/
structure Secure (r : Reassembler) : Prop where
  balanced : r.Balanced Packet.WellFormed
  roomy : Roomy r

/-- The checks succeed, with this session, and leave it secure. -/
def Succeeds (answer : Option Session) (s : Session) : Prop :=
  answer = some s ∧ Secure s.reassembler

namespace Secure

variable {r : Reassembler} {p : Packet}

theorem insert (h : Secure r) (hp : p.WellFormed) (now : Instant) : Secure (r.insert p now).2 := by
  refine ⟨h.balanced.insert hp now, ?_⟩
  rw [Roomy, Reassembler.maxBytes_insert]
  exact h.roomy

theorem dropWhere (h : Secure r) (doomed : FragmentGroup → Bool) : Secure (r.dropWhere doomed).2 :=
  ⟨h.balanced.dropWhere doomed, h.roomy⟩

theorem purgeExpired (h : Secure r) (now : Instant) (expiry : Duration) :
    Secure (r.purgeExpired now expiry).2 := h.dropWhere _

theorem dropSuperseded (h : Secure r) (channel : Nat) (read : OrderingIndex) :
    Secure (r.dropSuperseded channel read).2 := h.dropWhere _

end Secure

variable {s : Session} {p whole : Packet} {place : Place} {now : Instant}

theorem dropSuperseded_eq (q : ResendQueue) (channel : Nat) (index : OrderingIndex) :
    dropSuperseded q channel index = some (q.dropSuperseded channel index) := by
  have hle : (q.entries.filter (!ResendQueue.isSuperseded channel index ·.packet)).length ≤ q.length :=
    List.length_filter_le ..
  rw [dropSuperseded, ResendQueue.dropSuperseded]
  dsimp only [ResendQueue.length] at hle ⊢
  rw [sub_of_le hle]
  rfl

theorem handleAck_eq (s : Session) (q : SequenceNumber) (now : Instant) :
    handleAck s q now = some (s.handleAck q now) := by
  rw [handleAck, Session.handleAck]
  dsimp only [Session.count]
  generalize s.resend.acknowledge q = answer
  obtain ⟨_ | acked, resend⟩ := answer
  · rfl
  · simp only [dropSuperseded_eq, Option.map_some]
    cases acked.reliability <;> cases acked.place <;> rfl

theorem purgeSplits_succeeds (h : Secure s.reassembler) (now : Instant) :
    Succeeds (purgeSplits s now) (s.purgeSplits now) := by
  refine ⟨?_, h.purgeExpired now s.config.splitExpiry⟩
  rw [purgeSplits, dropWhere_eq h.balanced]
  rfl

theorem reassemble_eq (h : Secure s.reassembler) (hp : p.WellFormed) (now : Instant) :
    reassemble s p now = some (s.reassemble p now) ∧ Secure (s.reassemble p now).2.reassembler := by
  have hinsert := h.insert hp now
  rw [reassemble, insert_eq h.balanced h.roomy hp, Session.reassemble]
  generalize s.reassembler.insert p now = answer at hinsert
  obtain ⟨result, r⟩ := answer
  cases result <;> exact ⟨rfl, hinsert⟩

theorem acceptSequenced_succeeds (h : Secure s.reassembler) (hp : p.WellFormed)
    (hplace : place.channel < Limits.channels) (now : Instant) :
    Succeeds (acceptSequenced s p place now) (s.acceptSequenced p place now) := by
  obtain ⟨heq, hsecure⟩ := reassemble_eq h hp now
  rw [acceptSequenced, channel_of_lt hplace, Session.acceptSequenced]
  simp only [Option.pure_def, Option.bind_eq_bind, Option.bind_some]
  split_ifs
  · exact ⟨rfl, h⟩
  · rw [heq, Option.bind_some]
    generalize s.reassemble p now = answer at hsecure
    obtain ⟨_ | whole, s'⟩ := answer
    · exact ⟨rfl, hsecure⟩
    · dsimp only
      cases s'.lanes.acceptSequenced? (.ofNat place.channel) place.index with
      | none => exact ⟨rfl, hsecure⟩
      | some lanes =>
        refine ⟨?_, hsecure.dropSuperseded place.channel (lanes.get (.ofNat place.channel)).sequenced⟩
        dsimp only
        rw [dropWhere_eq hsecure.balanced]
        rfl

theorem acceptOrdered_succeeds (h : Secure s.reassembler) (hplace : place.channel < Limits.channels)
    (whole : Packet) : Succeeds (acceptOrdered s whole place) (s.acceptOrdered whole place) := by
  rw [acceptOrdered, acceptOnLane_eq _ hplace, Session.acceptOrdered]
  simp only [Option.pure_def, Option.bind_eq_bind, Option.bind_some]
  generalize s.lanes.acceptOrdered (.ofNat place.channel) place.index (.ofPacket whole) = answer
  obtain ⟨arrival, lanes⟩ := answer
  cases arrival <;> exact ⟨rfl, h⟩

theorem acceptNew_succeeds (h : Secure s.reassembler) (hp : p.WellFormed) (now : Instant) :
    Succeeds (acceptNew s p now) (s.acceptNew p now) := by
  have hpurge : Succeeds (purgeFor s p now) (if p.part.isSome then s.purgeSplits now else s) := by
    rw [purgeFor]
    split_ifs
    · exact purgeSplits_succeeds h now
    · exact ⟨rfl, h⟩
  obtain ⟨heq, hsecure⟩ := hpurge
  rw [acceptNew, heq, Session.acceptNew]
  simp only [Option.pure_def, Option.bind_eq_bind, Option.bind_some]
  generalize (if p.part.isSome then s.purgeSplits now else s) = s' at hsecure
  by_cases hsequenced : p.reliability.isSequenced = true
  · rw [if_pos hsequenced, if_pos hsequenced]
    cases hplace : p.place with
    | none => exact ⟨rfl, hsecure⟩
    | some place => exact acceptSequenced_succeeds hsecure hp (hp.channel_lt place hplace) now
  · obtain ⟨heq, hsecure⟩ := reassemble_eq hsecure hp now
    rw [if_neg hsequenced, if_neg hsequenced, heq, Option.bind_some]
    generalize s'.reassemble p now = answer at hsecure
    obtain ⟨_ | whole, s''⟩ := answer
    · exact ⟨rfl, hsecure⟩
    · dsimp only
      split_ifs
      · cases hplace : p.place with
        | none => exact ⟨rfl, hsecure⟩
        | some place => exact acceptOrdered_succeeds hsecure (hp.channel_lt place hplace) whole
      · exact ⟨rfl, hsecure⟩

theorem handlePacket_succeeds (h : Secure s.reassembler) (hp : p.WellFormed) (now : Instant) :
    Succeeds (handlePacket s p now) (s.handlePacket p now) := by
  rw [handlePacket, record_eq, Session.handlePacket]
  simp only [Option.pure_def, Option.bind_eq_bind, Option.bind_some]
  generalize s.arrivals.record p.sequence now = answer
  obtain ⟨arrival, arrivals⟩ := answer
  cases arrival with
  | new =>
    refine acceptNew_succeeds ?_ hp now
    exact h
  | duplicate => exact ⟨rfl, h⟩

theorem handleEntry_succeeds (h : Secure s.reassembler) {e : Entry} (he : e.WellFormed)
    (now : Instant) : Succeeds (handleEntry now s e) (s.handleEntry now e) := by
  cases e with
  | ack q =>
    have hsame : (s.handleAck q now).reassembler = s.reassembler :=
      congrArg Inbox.reassembler (s.inbox_handleAck q now)
    exact ⟨handleAck_eq s q now, hsame ▸ h⟩
  | data p => exact handlePacket_succeeds h he now

theorem handleEntries_succeeds (h : Secure s.reassembler) {entries : List Entry}
    (hentries : ∀ e ∈ entries, e.WellFormed) (now : Instant) :
    Succeeds (entries.foldlM (handleEntry now) s) (entries.foldl (Session.handleEntry now) s) := by
  induction entries generalizing s with
  | nil => exact ⟨rfl, h⟩
  | cons e entries ih =>
    obtain ⟨heq, hsecure⟩ := handleEntry_succeeds h (hentries e (by simp)) now
    rw [List.foldlM_cons, heq]
    exact ih hsecure fun e' he' => hentries e' (by simp [he'])

/-- Whatever arrives and whenever, no check fails. -/
theorem handleDatagram_eq (h : Secure s.reassembler) (data : Bytes) (now : Instant) :
    handleDatagram s data now = some (s.handleDatagram data now) ∧
      Secure (s.handleDatagram data now).2.reassembler := by
  have hread : ∀ e ∈ (Frame.read data).1, e.WellFormed := fun e he =>
    (Frame.wellFormed_of_mem_read he).1
  rw [handleDatagram, readFrame_eq, Session.handleDatagram]
  simp only [Option.pure_def, Option.bind_eq_bind, Option.bind_some]
  split_ifs
  · exact ⟨rfl, h⟩
  · generalize Frame.read data = answer at hread
    obtain ⟨entries, error?⟩ := answer
    have hcounted : Secure (s.countDatagram data.length).reassembler := h
    obtain ⟨heq, hsecure⟩ := handleEntries_succeeds hcounted hread now
    dsimp only at heq hsecure ⊢
    rw [← Session.countDatagram, heq]
    cases error? <;> exact ⟨rfl, hsecure⟩

end ReliableDatagram.Checked
