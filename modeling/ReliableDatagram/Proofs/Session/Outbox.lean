import ReliableDatagram.Proofs.Session.Receive
import ReliableDatagram.Proofs.Session.Transmit

/-!
# What arrivals do to the sending side

The `Outbox` of a session is all of it that has no part in making messages out of packets. A packet
that arrives is logged there and acknowledged, and an acknowledgement that arrives takes packets out of
flight.
-/
namespace ReliableDatagram

/-- What a session has counted of its transmissions. -/
structure Traffic where
  sent : PerPriority Nat
  resent : Nat
  acks : Nat
  ackOnly : Nat
  frames : Nat
  bits : Nat

structure Outbox where
  config : Config
  arrivals : ArrivalLog
  queues : PerPriority (Fifo Packet)
  resend : ResendQueue
  acks : Fifo PendingAck
  ledger : Session.Ledger
  traffic : Traffic
  dead : Option DisconnectReason
  maxParts : Nat
  maxBytes : Nat

namespace Session

def traffic (s : Session) : Traffic :=
  { sent := s.counters.messagesSent
    resent := s.counters.messagesResent
    acks := s.counters.acksSent
    ackOnly := s.counters.ackOnlyFramesSent
    frames := s.counters.framesSent
    bits := s.counters.bitsSent }

def outbox (s : Session) : Outbox :=
  { config := s.config
    arrivals := s.arrivals
    queues := s.queues
    resend := s.resend
    acks := s.acks
    ledger := s.ledger
    traffic := s.traffic
    dead := s.dead
    maxParts := s.reassembler.maxParts
    maxBytes := s.reassembler.maxBytes }

variable {s s' : Session} {P : Entry → Prop} {p : Packet}

/-- Making messages out of packets changes nothing but what it is done with. -/
structure Assembles (s s' : Session) : Prop where
  exists_eq : ∃ lanes reassembler output counters, s' = { s with lanes, reassembler, output, counters }
  maxParts_eq : s'.reassembler.maxParts = s.reassembler.maxParts
  maxBytes_eq : s'.reassembler.maxBytes = s.reassembler.maxBytes
  ledger_eq : s'.ledger = s.ledger
  traffic_eq : s'.traffic = s.traffic

namespace Assembles

theorem refl (s : Session) : s.Assembles s := ⟨⟨_, _, _, _, rfl⟩, rfl, rfl, rfl, rfl⟩

theorem trans {s'' : Session} (h : s.Assembles s') (h' : s'.Assembles s'') : s.Assembles s'' := by
  obtain ⟨lanes, reassembler, output, counters, rfl⟩ := h.exists_eq
  obtain ⟨lanes', reassembler', output', counters', rfl⟩ := h'.exists_eq
  exact ⟨⟨lanes', reassembler', output', counters', rfl⟩, h'.maxParts_eq.trans h.maxParts_eq,
    h'.maxBytes_eq.trans h.maxBytes_eq, h'.ledger_eq.trans h.ledger_eq,
    h'.traffic_eq.trans h.traffic_eq⟩

theorem outbox_eq (h : s.Assembles s') : s'.outbox = s.outbox := by
  have hledger := h.ledger_eq
  have htraffic := h.traffic_eq
  obtain ⟨lanes, reassembler, output, counters, rfl⟩ := h.exists_eq
  have hparts : reassembler.maxParts = s.reassembler.maxParts := h.maxParts_eq
  have hbytes : reassembler.maxBytes = s.reassembler.maxBytes := h.maxBytes_eq
  simp only [outbox, hparts, hbytes, hledger, htraffic]

theorem lastAck_eq (h : s.Assembles s') : s'.lastAck = s.lastAck := by
  obtain ⟨lanes, reassembler, output, counters, rfl⟩ := h.exists_eq
  rfl

theorem window_eq (h : s.Assembles s') : s'.window = s.window := by
  obtain ⟨lanes, reassembler, output, counters, rfl⟩ := h.exists_eq
  rfl

end Assembles

theorem assembles_deliver (s : Session) (m : Delivery) : s.Assembles (s.deliver m) :=
  ⟨⟨_, _, _, _, rfl⟩, rfl, rfl, rfl, rfl⟩

theorem assembles_purgeSplits (s : Session) (now : Instant) : s.Assembles (s.purgeSplits now) :=
  ⟨⟨_, _, _, _, rfl⟩, rfl, rfl, rfl, rfl⟩

theorem assembles_reassemble (s : Session) (p : Packet) (now : Instant) :
    s.Assembles (s.reassemble p now).2 := by
  have hparts := s.reassembler.maxParts_insert p now
  have hbytes := s.reassembler.maxBytes_insert p now
  rw [reassemble]
  generalize s.reassembler.insert p now = answer at hparts hbytes
  obtain ⟨result, r'⟩ := answer
  cases result <;> exact ⟨⟨_, _, _, _, rfl⟩, hparts, hbytes, rfl, rfl⟩

theorem assembles_acceptOrdered (s : Session) (whole : Packet) (place : Place) :
    s.Assembles (s.acceptOrdered whole place) := by
  rw [acceptOrdered]
  dsimp only
  split <;> exact ⟨⟨_, _, _, _, rfl⟩, rfl, rfl, rfl, rfl⟩

theorem assembles_acceptSequenced (s : Session) (p : Packet) (place : Place) (now : Instant) :
    s.Assembles (s.acceptSequenced p place now) := by
  rw [acceptSequenced]
  dsimp only
  split_ifs
  · exact ⟨⟨_, _, _, _, rfl⟩, rfl, rfl, rfl, rfl⟩
  · have hreassemble := s.assembles_reassemble p now
    generalize s.reassemble p now = answer at hreassemble
    obtain ⟨whole, s'⟩ := answer
    cases whole with
    | none => exact hreassemble
    | some whole =>
      dsimp only
      split <;> exact hreassemble.trans ⟨⟨_, _, _, _, rfl⟩, rfl, rfl, rfl, rfl⟩

theorem assembles_acceptNew (s : Session) (p : Packet) (now : Instant) :
    s.Assembles (s.acceptNew p now) := by
  rw [acceptNew]
  generalize hs₁ : (if p.part.isSome then s.purgeSplits now else s) = s₁
  have hpurge : s.Assembles s₁ := by
    rw [← hs₁]
    split_ifs
    · exact s.assembles_purgeSplits now
    · exact .refl s
  by_cases hq : p.reliability.isSequenced = true
  · rw [if_pos hq]
    cases p.place with
    | none => exact hpurge
    | some place => exact hpurge.trans (s₁.assembles_acceptSequenced p place now)
  · rw [if_neg hq]
    have hreassemble := hpurge.trans (s₁.assembles_reassemble p now)
    generalize s₁.reassemble p now = answer at hreassemble
    obtain ⟨whole, s'⟩ := answer
    cases whole with
    | none => exact hreassemble
    | some whole =>
      dsimp only
      split_ifs with ho
      · cases p.place with
        | none => exact hreassemble
        | some place => exact hreassemble.trans (s'.assembles_acceptOrdered whole place)
      · exact hreassemble.trans (s'.assembles_deliver _)

theorem outbox_handlePacket (s : Session) (p : Packet) (now : Instant) :
    ∃ acks, (s.handlePacket p now).outbox =
        { s.outbox with arrivals := (s.arrivals.record p.sequence now).2, acks } ∧
      ∀ a ∈ acks.toList, a ∈ s.acks.toList ∨ a.sequence = p.sequence := by
  rw [handlePacket]
  generalize s.arrivals.record p.sequence now = answer
  obtain ⟨arrival, arrivals⟩ := answer
  dsimp only
  generalize hacks : (if p.reliability.isReliable = true then
    s.acks.push { sequence := p.sequence, due := now + s.config.ackCoalesce } else s.acks) = acks
  refine ⟨acks, ?_, fun a ha => ?_⟩
  · cases arrival with
    | new => exact (assembles_acceptNew ..).outbox_eq
    | duplicate => rfl
  · rw [← hacks] at ha
    split_ifs at ha
    · rw [Fifo.toList_push] at ha
      rcases List.mem_append.mp ha with ha | ha
      · exact Or.inl ha
      · exact Or.inr (by rw [List.mem_singleton.mp ha])
    · exact Or.inl ha

theorem outbox_handleAck (s : Session) (q : SequenceNumber) (now : Instant) :
    (s.handleAck q now).outbox = { s.outbox with resend := (s.handleAck q now).resend } := by
  rw [handleAck]
  dsimp only
  split <;> rfl

theorem entries_handleAck (s : Session) (q : SequenceNumber) (now : Instant) :
    (s.handleAck q now).resend.entries = s.resend.entries.filter (!s.resend.frees q ·.packet) := by
  have hacknowledge := s.resend.entries_acknowledge q
  rw [handleAck]
  dsimp only [count]
  cases hfind : s.resend.find? q with
  | none =>
    have hnone : s.resend.acknowledge q = (none, s.resend) := by rw [ResendQueue.acknowledge, hfind]
    rw [hnone] at hacknowledge ⊢
    simp only [ResendQueue.frees, hfind, Bool.or_false]
    simpa using hacknowledge
  | some e =>
    have hsome : s.resend.acknowledge q = (some e.packet, (s.resend.acknowledge q).2) := by
      rw [ResendQueue.acknowledge, hfind]
    rw [hsome]
    simp only [ResendQueue.frees, hfind]
    generalize e.packet.reliability = r, e.packet.place = place
    cases r with
    | reliableSequenced =>
      cases place with
      | none => simpa using hacknowledge
      | some place =>
        rw [ResendQueue.entries_dropSuperseded, hacknowledge, List.filter_filter]
        simp [Bool.and_comm]
    | _ => simpa using hacknowledge

theorem packets_handleAck (s : Session) (q : SequenceNumber) (now : Instant) :
    (s.handleAck q now).resend.packets = s.resend.packets.filter (!s.resend.frees q ·) := by
  rw [ResendQueue.packets, entries_handleAck, ResendQueue.packets, List.filter_map]
  rfl

theorem sound_handleAck (h : s.resend.Sound) (q : SequenceNumber) (now : Instant) :
    (s.handleAck q now).resend.Sound := by
  have hacknowledge := h.acknowledge q
  rw [handleAck]
  dsimp only [count]
  split
  · exact h
  · rename_i heq
    rw [heq] at hacknowledge
    split
    · exact hacknowledge.dropSuperseded ..
    · exact hacknowledge

/-- An entry leaves alone what it has no business with. -/
structure Handles (s s' : Session) : Prop where
  config_eq : s'.config = s.config
  queues_eq : s'.queues = s.queues
  timeout_eq : s'.arrivals.timeout = s.arrivals.timeout
  ledger_eq : s'.ledger = s.ledger
  traffic_eq : s'.traffic = s.traffic
  dead_eq : s'.dead = s.dead
  maxParts_eq : s'.reassembler.maxParts = s.reassembler.maxParts
  maxBytes_eq : s'.reassembler.maxBytes = s.reassembler.maxBytes

theorem Handles.refl (s : Session) : s.Handles s := ⟨rfl, rfl, rfl, rfl, rfl, rfl, rfl, rfl⟩

theorem Handles.trans {s'' : Session} (h : s.Handles s') (h' : s'.Handles s'') : s.Handles s'' :=
  ⟨h'.config_eq.trans h.config_eq, h'.queues_eq.trans h.queues_eq, h'.timeout_eq.trans h.timeout_eq,
    h'.ledger_eq.trans h.ledger_eq, h'.traffic_eq.trans h.traffic_eq, h'.dead_eq.trans h.dead_eq,
    h'.maxParts_eq.trans h.maxParts_eq, h'.maxBytes_eq.trans h.maxBytes_eq⟩

theorem handles_handleEntry (s : Session) (e : Entry) (now : Instant) :
    s.Handles (s.handleEntry now e) := by
  cases e with
  | ack q =>
    have houtbox := s.outbox_handleAck q now
    have harrivals : (s.handleAck q now).arrivals = s.arrivals := congrArg Outbox.arrivals houtbox
    exact ⟨congrArg Outbox.config houtbox, congrArg Outbox.queues houtbox,
      congrArg ArrivalLog.timeout harrivals, congrArg Outbox.ledger houtbox,
      congrArg Outbox.traffic houtbox, congrArg Outbox.dead houtbox, congrArg Outbox.maxParts houtbox,
      congrArg Outbox.maxBytes houtbox⟩
  | data p =>
    obtain ⟨acks, houtbox, -⟩ := s.outbox_handlePacket p now
    have harrivals : (s.handlePacket p now).arrivals = (s.arrivals.record p.sequence now).2 :=
      congrArg Outbox.arrivals houtbox
    refine ⟨congrArg Outbox.config houtbox, congrArg Outbox.queues houtbox, ?_,
      congrArg Outbox.ledger houtbox, congrArg Outbox.traffic houtbox, congrArg Outbox.dead houtbox,
      congrArg Outbox.maxParts houtbox, congrArg Outbox.maxBytes houtbox⟩
    rw [handleEntry, harrivals, ArrivalLog.timeout_record]

theorem stocks_handleEntry (h : s.Stocks P) {e : Entry}
    (he : ∀ p, e = .data p → P (.ack p.sequence)) (now : Instant) : (s.handleEntry now e).Stocks P := by
  cases e with
  | ack q =>
    have houtbox := s.outbox_handleAck q now
    have hqueues : (s.handleAck q now).queues = s.queues := congrArg Outbox.queues houtbox
    have hacks : (s.handleAck q now).acks = s.acks := congrArg Outbox.acks houtbox
    refine ⟨hqueues ▸ h.queued, fun p hp => ?_, hacks ▸ h.acks⟩
    rw [handleEntry, packets_handleAck] at hp
    exact h.inFlight p (List.mem_filter.mp hp).1
  | data q =>
    obtain ⟨acks, houtbox, hnew⟩ := s.outbox_handlePacket q now
    have hqueues : (s.handlePacket q now).queues = s.queues := congrArg Outbox.queues houtbox
    have hresend : (s.handlePacket q now).resend = s.resend := congrArg Outbox.resend houtbox
    have hacks : (s.handlePacket q now).acks = acks := congrArg Outbox.acks houtbox
    refine ⟨hqueues ▸ h.queued, hresend ▸ h.inFlight, fun a ha => ?_⟩
    rw [handleEntry, hacks] at ha
    rcases hnew a ha with hold | hsequence
    · exact h.acks a hold
    · rw [hsequence]
      exact he q rfl

end Session

/-- What arriving entries do to the packets in flight: some of them are let go, for reasons that the
entries give, and nothing else happens to them. -/
structure ResendQueue.Thins (q q' : ResendQueue) (entries : List Entry) : Prop where
  sublist : q'.entries.Sublist q.entries
  sound : q.Sound → q'.Sound
  kept : ∀ x ∈ q.packets, x ∈ q'.packets ∨ ∃ s, .ack s ∈ entries ∧ q.Releases s x
  gone : ∀ s, .ack s ∈ entries → ∀ x ∈ q'.packets, x.sequence ≠ s

namespace ResendQueue.Thins

variable {q q' q'' : ResendQueue} {entries later : List Entry}

theorem subset (h : q.Thins q' entries) : q'.packets ⊆ q.packets := (h.sublist.map _).subset

theorem refl (q : ResendQueue) : q.Thins q [] :=
  ⟨List.Sublist.refl _, id, fun _ hx => Or.inl hx, by simp⟩

theorem trans (h : q.Thins q' entries) (h' : q'.Thins q'' later) : q.Thins q'' (entries ++ later) := by
  refine ⟨h'.sublist.trans h.sublist, fun hq => h'.sound (h.sound hq), fun x hx => ?_, fun s hs => ?_⟩
  · rcases h.kept x hx with hx | ⟨s, hs, hreleases⟩
    · rcases h'.kept x hx with hx | ⟨s, hs, hreleases⟩
      · exact Or.inl hx
      · exact Or.inr ⟨s, List.mem_append_right _ hs, hreleases.mono h.subset⟩
    · exact Or.inr ⟨s, List.mem_append_left _ hs, hreleases⟩
  · rcases List.mem_append.mp hs with hs | hs
    · exact fun x hx => h.gone s hs x (h'.subset hx)
    · exact h'.gone s hs

end ResendQueue.Thins

namespace Session

variable {s s' : Session} {P : Entry → Prop} {p : Packet}

theorem thins_handleEntry (s : Session) (e : Entry) (now : Instant) :
    s.resend.Thins (s.handleEntry now e).resend [e] := by
  cases e with
  | ack q =>
    have hpackets := s.packets_handleAck q now
    refine ⟨?_, fun h => sound_handleAck h q now, fun x hx => ?_, fun s' hs' x hx => ?_⟩
    · rw [handleEntry, entries_handleAck]
      exact List.filter_sublist ..
    · by_cases hfrees : s.resend.frees q x = true
      · exact Or.inr ⟨q, by simp, ResendQueue.releases_of_frees hfrees⟩
      · refine Or.inl ?_
        rw [handleEntry, hpackets]
        exact List.mem_filter.mpr ⟨hx, by simpa using hfrees⟩
    · obtain rfl : s' = q := by simpa using hs'
      rw [handleEntry, hpackets] at hx
      intro hsequence
      simp [ResendQueue.frees, hsequence] at hx
  | data q =>
    obtain ⟨acks, houtbox, -⟩ := s.outbox_handlePacket q now
    have hresend : (s.handlePacket q now).resend = s.resend := congrArg Outbox.resend houtbox
    rw [handleEntry, hresend]
    exact ⟨List.Sublist.refl _, id, fun _ hx => Or.inl hx, by simp⟩

theorem handleEntries_spec (h : s.Stocks P) {entries : List Entry}
    (hentries : ∀ p, .data p ∈ entries → P (.ack p.sequence)) (now : Instant) :
    (entries.foldl (handleEntry now) s).Stocks P ∧ s.Handles (entries.foldl (handleEntry now) s) ∧
      s.resend.Thins (entries.foldl (handleEntry now) s).resend entries := by
  induction entries generalizing s with
  | nil => exact ⟨h, Handles.refl s, .refl _⟩
  | cons e entries ih =>
    have he : ∀ p, e = .data p → P (.ack p.sequence) := fun p hp => hentries p (by simp [hp])
    obtain ⟨hstocks, hhandles, hthins⟩ :=
      ih (stocks_handleEntry h he now) fun p hp => hentries p (by simp [hp])
    exact ⟨hstocks, (s.handles_handleEntry e now).trans hhandles,
      (s.thins_handleEntry e now).trans hthins⟩

theorem stocks_true (s : Session) : s.Stocks fun _ => True :=
  ⟨fun _ _ _ => trivial, fun _ _ => trivial, fun _ _ => trivial⟩

theorem thins_handleEntries (s : Session) (entries : List Entry) (now : Instant) :
    s.resend.Thins (entries.foldl (handleEntry now) s).resend entries :=
  (handleEntries_spec s.stocks_true (fun _ _ => trivial) now).2.2

theorem handles_handleEntries (s : Session) (entries : List Entry) (now : Instant) :
    s.Handles (entries.foldl (handleEntry now) s) :=
  (handleEntries_spec s.stocks_true (fun _ _ => trivial) now).2.1

/-- The entries of a datagram that the session takes notice of: none if it is dead. -/
def heeded (s : Session) (data : Bytes) : List Entry := if s.isDead then [] else (Frame.read data).1

theorem handleDatagram_spec (h : s.Stocks P) {data : Bytes}
    (hentries : s.isDead = false → ∀ p, .data p ∈ (Frame.read data).1 → P (.ack p.sequence))
    (now : Instant) : (s.handleDatagram data now).2.Stocks P ∧ s.Handles (s.handleDatagram data now).2 ∧
      s.resend.Thins (s.handleDatagram data now).2.resend (s.heeded data) := by
  rcases s.handleDatagram_cases data now with ⟨hdead, heq⟩ | ⟨halive, window, invalid, heq⟩
  · rw [heq, heeded, if_pos hdead]
    exact ⟨h, Handles.refl s, .refl _⟩
  · have hcounted : (s.countDatagram data.length).Stocks P := ⟨h.queued, h.inFlight, h.acks⟩
    obtain ⟨hstocks, hhandles, hthins⟩ := handleEntries_spec hcounted (hentries halive) now
    rw [heq, heeded, if_neg (by simp [halive])]
    refine ⟨⟨hstocks.queued, hstocks.inFlight, hstocks.acks⟩, ?_, hthins⟩
    exact ⟨hhandles.config_eq, hhandles.queues_eq, hhandles.timeout_eq, hhandles.ledger_eq,
      hhandles.traffic_eq, hhandles.dead_eq, hhandles.maxParts_eq, hhandles.maxBytes_eq⟩

section handleDatagram

variable (s) (data : Bytes) (now : Instant)

/-- Without regard to what the session has in stock. -/
theorem handles_thins_handleDatagram : s.Handles (s.handleDatagram data now).2 ∧
    s.resend.Thins (s.handleDatagram data now).2.resend (s.heeded data) :=
  (handleDatagram_spec s.stocks_true (fun _ _ _ => trivial) now).2

theorem handles_handleDatagram : s.Handles (s.handleDatagram data now).2 :=
  (s.handles_thins_handleDatagram data now).1

theorem thins_handleDatagram :
    s.resend.Thins (s.handleDatagram data now).2.resend (s.heeded data) :=
  (s.handles_thins_handleDatagram data now).2

end handleDatagram

/-- Only an acknowledgement takes a packet out of flight, unless it is a sequenced one. -/
theorem mem_packets_handleDatagram {data : Bytes} {now : Instant} (hp : p ∈ s.resend.packets)
    (hr : p.reliability ≠ .reliableSequenced) (hack : .ack p.sequence ∉ (Frame.read data).1) :
    p ∈ (s.handleDatagram data now).2.resend.packets := by
  rcases (s.thins_handleDatagram data now).kept p hp with hkept | ⟨q, hq, hreleases⟩
  · exact hkept
  · have hsubset : s.heeded data ⊆ (Frame.read data).1 := by
      rw [heeded]
      split_ifs <;> simp
    rw [hreleases.sequence_eq hr] at hack
    exact absurd (hsubset hq) hack

end Session
end ReliableDatagram
