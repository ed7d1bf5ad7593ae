import ReliableDatagram.Proofs.Network.Delivery

/-!
# Superseded packets

On the acknowledgement of a sequenced packet a sender drops the older ones of the channel that are still
in flight. What is dropped would be lost on the receiver: something newer has come out there, or the
receiver has given the numbers up. There is one exception. The acknowledgement may be that of a fragment,
whose message is not complete at the receiver.
-/
namespace ReliableDatagram
namespace Session

/-- If the packet came now, it would leave no trace in the session but its arrival. -/
def Discards (s : Session) (p : Packet) : Prop :=
  ∀ now, ∃ log, (s.handlePacket p.decoded now).inbox = { s.inbox with arrivals := log }

/-- Something newer has come out on the channel of the packet. -/
def IsPast (s : Session) (p : Packet) : Prop :=
  ∃ place, p.place = some place ∧
    (s.lanes.get (.ofNat place.channel)).isSequencedStale place.index = true

variable {s : Session} {p : Packet} {ms : List Shipment} {seen : Set Nat} {m : Shipment} {j : Nat}
  {c : Chunk}

theorem isPast_packet (hq : m.reliability.isSequenced = true) :
    s.IsPast (m.packet j c) ↔ s.lanes.IsPast m := by
  have hplace : (m.packet j c).place = some { channel := m.channel, index := .ofNat m.index } :=
    place_eq (by simp [Reliability.usesChannel, hq])
  constructor
  · rintro ⟨place, hp, hstale⟩
    obtain rfl := Option.some.inj (hplace.symm.trans hp)
    exact hstale
  · exact fun hstale => ⟨_, hplace, hstale⟩

/-- A number behind the log is taken for one that has come before. -/
theorem discards_of_behind {n : Nat} (hsequence : p.sequence = .ofNat n) (hn : n < s.arrivals.base)
    (hspan : s.arrivals.base ≤ Counter.span) : s.Discards p := by
  intro now
  have hrecord : s.arrivals.record p.decoded.sequence now = (.duplicate, s.arrivals) := by
    have hoffset := ArrivalLog.offset_of_lt hn hspan
    rw [← hsequence] at hoffset
    rw [ArrivalLog.record]
    exact if_pos hoffset
  rw [handlePacket, hrecord]
  exact ⟨s.arrivals, rfl⟩

theorem discards_of_isPast (holds : s.reassembler.Holds ms seen)
    (hq : p.reliability.isSequenced = true) (h : s.IsPast p) : s.Discards p := by
  intro now
  obtain ⟨place, hplace, hstale⟩ := h
  rw [handlePacket]
  generalize s.arrivals.record p.decoded.sequence now = answer
  obtain ⟨arrival, log⟩ := answer
  refine ⟨log, ?_⟩
  cases arrival with
  | duplicate => rfl
  | new =>
    dsimp only
    generalize (if p.decoded.reliability.isReliable = true then _ else _) = acks
    rw [acceptNew]
    generalize hs' : (if p.decoded.part.isSome then
      ({ s with acks, arrivals := log } : Session).purgeSplits now else _) = s'
    have hinbox : s'.inbox = { s.inbox with arrivals := log } := by
      rw [← hs']
      split_ifs
      · exact inbox_purgeSplits (s := { s with acks, arrivals := log }) holds now
      · rfl
    have hlanes : s'.lanes = s.lanes := congrArg Inbox.lanes hinbox
    have hreliability : p.decoded.reliability = p.reliability := rfl
    have hplace' : p.decoded.place = some place := hplace
    rw [hreliability, if_pos hq, hplace', ← hinbox]
    dsimp only
    rw [acceptSequenced, hlanes]
    dsimp only
    rw [if_pos hstale]
    rfl

end Session

/-- A packet that is superseded belongs to an older message of the channel. -/
theorem Manifest.precedes_of_isSuperseded {ms : List Shipment} {m m' : Shipment} {j : Nat} {c : Chunk}
    {place : Place} (hms : Manifest ms) (hspan : total Shipment.size ms ≤ Counter.span) (hm : m ∈ ms)
    (hm' : m' ∈ ms) (hq : m'.reliability.isSequenced = true) (hplace : m'.place = some place)
    (h : ResendQueue.isSuperseded place.channel place.index (m.packet j c) = true) :
    m.Precedes m' := by
  rw [Session.place_eq (by simp [Reliability.usesChannel, hq])] at hplace
  cases hplace
  obtain ⟨hq', hchannel, holder⟩ : m.reliability.isSequenced = true ∧ m.channel = m'.channel ∧
      (.ofNat m.index : OrderingIndex).isOlderThan (.ofNat m'.index) = true := by
    cases hr : m.reliability <;>
      simp_all [ResendQueue.isSuperseded, Shipment.packet, Shipment.place, Reliability.usesChannel,
        Reliability.isOrdered, Reliability.isSequenced]
  have hon : m.isSequencedOn (Channel.ofNat m'.channel) = true :=
    Shipment.isSequencedOn_iff.mpr ⟨hq', by rw [hchannel]⟩
  have hon' : m'.isSequencedOn (Channel.ofNat m'.channel) = true :=
    Shipment.isSequencedOn_iff.mpr ⟨hq, rfl⟩
  refine ⟨hon, hon', (Counter.isOlderThan_ofNat ?_ ?_).mp holder⟩
  · exact Nat.le_of_lt (hms.index_lt_span hspan hm hon)
  · exact Nat.le_of_lt (hms.index_lt_span hspan hm' hon')

/-- A sequenced packet has arrived. What is older on its channel would be lost, or the packet is a
fragment, which is held unless it was refused. -/
theorem Session.discards_of_arrived {s : Session} {ms : List Shipment} {arrived : Arrivals}
    {seen : Set Nat} {returned : List Delivery} {out : List Shipment} {m m' : Shipment} {j j' : Nat}
    {c c' : Chunk} (h : s.inbox.Receives ms arrived seen returned out) (hms : Manifest ms)
    (hspan : total Shipment.size ms ≤ Counter.span) (hm : m ∈ ms) (hc : m.chunks[j]? = some c)
    (hm' : m' ∈ ms) (hc' : m'.chunks[j']? = some c') (holder : m'.Precedes m)
    (harrived : m.first + j ∈ arrived.map Prod.fst) :
    s.Discards (m'.packet j' c') ∧
        (s.IsPast (m'.packet j' c') ∨ GivenUp s.arrivals.timeout arrived (m.first + j)) ∨
      (m.packet j c).part ≠ none ∧
        (s.HoldsFragment (m.packet j c) ∨ s.counters.invalidMessagesReceived ≠ 0) := by
  by_cases hseen : m.first + j ∈ seen
  · rcases h.sequenced m hm holder.sequenced_newer j (Shipment.lt_size hc) hseen with
      hpast | hheld | ⟨hsplit, hrefused⟩
    · have hpast' : s.IsPast (m'.packet j' c') := (isPast_packet holder.sequenced).mpr
        (h.lanes.isPast_of_lt hms hspan hm' hm holder.on holder.on_newer holder.lt hpast)
      exact Or.inl ⟨discards_of_isPast h.holds holder.sequenced hpast', Or.inl hpast'⟩
    · have hfragment := holdsFragment_packet h.holds hms hspan hm hc hheld
      exact Or.inr ⟨hfragment.part_ne_none, Or.inl hfragment⟩
    · exact Or.inr ⟨by simpa [Shipment.packet] using hsplit, Or.inr hrefused⟩
  -- the log has left the number behind, and so all lower ones
  · have hbehind := (h.tracks.arrived_seen _ harrived).resolve_right hseen
    have hgiven := (h.tracks.seen_or_givenUp harrived).resolve_left hseen
    have hlower : m'.first + j' < m.first + j := by
      have := hms.last_le_first hm' hm holder.on holder.on_newer holder.lt
      have := Shipment.lt_size hc'
      omega
    refine Or.inl ⟨?_, Or.inr hgiven⟩
    exact discards_of_behind rfl (Nat.lt_trans hlower hbehind)
      (Nat.le_trans (Nat.le_trans (Nat.le_add_right ..) h.tracks.end_le) hspan)

namespace Party

/-- The frame `f` arrives, and its acknowledgement of `q` takes `x` out of flight, which has another
number. -/
def Drops (p : Party) (f : Frame) (now : Instant) (q : SequenceNumber) (x : Packet) : Prop :=
  ∃ before after, p.session.heeded f.bytes = before ++ .ack q :: after ∧
    let s := before.foldl (Session.handleEntry now) (p.session.countDatagram f.bytes.length)
    x ∈ s.resend.packets ∧ x ∉ (s.handleAck q now).resend.packets ∧ x.sequence ≠ q

variable {p : Party} {f : Frame} {now : Instant} {q : SequenceNumber} {x : Packet}

/-- The acknowledgement is the first entry of the datagram. -/
theorem drops_of_first {after : List Entry} (hheeded : p.session.heeded f.bytes = .ack q :: after)
    (hx : x ∈ p.session.resend.packets)
    (hgone : x ∉ ((p.session.countDatagram f.bytes.length).handleAck q now).resend.packets)
    (hne : x.sequence ≠ q) : p.Drops f now q x :=
  ⟨[], after, hheeded, hx, hgone, hne⟩

/-- The number is that of a sequenced packet in flight, which is newer and on the same channel. -/
theorem Drops.exists_newer (h : p.Drops f now q x) : x ∈ p.session.resend.packets ∧
    ∃ y ∈ p.session.resend.packets, y.sequence = q ∧ y.reliability = .reliableSequenced ∧
      ∃ place, y.place = some place ∧ ResendQueue.isSuperseded place.channel place.index x = true := by
  obtain ⟨before, after, -, hx, hgone, hne⟩ := h
  have hthins := (p.session.countDatagram f.bytes.length).thins_handleEntries before now
  generalize before.foldl (Session.handleEntry now) _ = s at hx hgone hthins
  have hfrees : s.resend.frees q x = true := by
    by_contra hkept
    rw [Session.packets_handleAck] at hgone
    exact hgone (List.mem_filter.mpr ⟨hx, by simpa using hkept⟩)
  obtain ⟨y, hy, hrest⟩ := (ResendQueue.releases_of_frees hfrees).resolve_left hne
  exact ⟨hthins.subset hx, y, hthins.subset hy, hrest⟩

theorem Drops.ack_mem (h : p.Drops f now q x) (hf : f.Encoded)
    (hentries : ∀ e ∈ f.entries, e.WellFormed) : Entry.ack q ∈ f.entries := by
  obtain ⟨before, after, hheeded, -⟩ := h
  have hack : .ack q ∈ p.session.heeded f.bytes := by simp [hheeded]
  rw [Session.heeded] at hack
  split_ifs at hack
  · cases hack
  · rw [Frame.read_encoded hf hentries] at hack
    exact Entry.ack_mem_decoded.mp hack

end Party

namespace Network

/-- What `a` drops when a newer packet is acknowledged would be lost on `b`: something newer has come out
on the channel, or the acknowledged number had been given up when it came, and the older one with it.
Otherwise the acknowledged packet is a fragment, and `b` has not put its message together: it holds the
fragment, or it has refused fragments for want of room. -/
theorem Reachable.discards_of_superseded {n : Network} (h : n.Reachable)
    (hspan : n.a.session.numbersTaken ≤ Counter.span) (halive : n.b.session.isDead = false) :
    ∀ f ∈ n.b.emitted, ∀ now q x, n.a.Drops f now q x →
      ∃ y ∈ n.a.session.resend.packets, y.sequence = q ∧ y.reliability = .reliableSequenced ∧
        (∃ place, y.place = some place ∧
          ResendQueue.isSuperseded place.channel place.index x = true) ∧
        (n.b.session.Discards x ∧ (n.b.session.IsPast x ∨
            GivenUp n.b.session.config.connectionTimeout n.b.arrived q.toNat) ∨
          y.part ≠ none ∧ (n.b.session.HoldsFragment y ∨
            n.b.session.counters.invalidMessagesReceived ≠ 0)) := by
  obtain ⟨ms, ms', ha, hb, hgets⟩ := h.sound
  have hms := ha.sends.manifest
  rw [ha.sends.numbers_eq] at hspan
  obtain ⟨out, hout⟩ := hgets hspan
  obtain ⟨htimeout, seen, hreceives⟩ := hout.alive halive
  intro f hf now q x hdrops
  obtain ⟨hx, y, hy, rfl, hreliability, place, hplace, hsuperseded⟩ := hdrops.exists_newer
  refine ⟨y, hy, rfl, hreliability, ⟨place, hplace, hsuperseded⟩, ?_⟩
  obtain ⟨hencoded, hentries⟩ := hb.emitted f hf
  have hack := hdrops.ack_mem hencoded fun e he => (hentries e he).wellFormed
  have harrived : y.sequence.toNat ∈ n.b.arrived.map Prod.fst := hentries _ hack
  obtain ⟨m, hm, hpm⟩ := ha.stocks.inFlight y hy
  obtain ⟨j, c, hc, rfl⟩ := Shipment.mem_packets.mp hpm
  obtain ⟨m', hm', hpm'⟩ := ha.stocks.inFlight x hx
  obtain ⟨j', c', hc', rfl⟩ := Shipment.mem_packets.mp hpm'
  have hq : m.reliability.isSequenced = true := by
    rw [show m.reliability = .reliableSequenced from hreliability]
    rfl
  have holder := hms.precedes_of_isSuperseded hspan hm' hm hq hplace hsuperseded
  have hnumber : (m.packet j c).sequence.toNat = m.first + j :=
    Counter.toNat_ofNat_of_le (by
      have := hms.lt_total hm (Shipment.owns_add (Shipment.lt_size hc))
      omega)
  rw [hnumber] at harrived ⊢
  rw [← htimeout]
  exact Session.discards_of_arrived hreceives hms hspan hm hc hm' hc' holder harrived

/-- The first of two messages is lost, and the second one comes. -/
def jumped : Network := fresh.run
  [(.a, .send [7] .medium .reliableSequenced 0), (.a, .update 0),
   (.a, .send [8] .medium .reliableSequenced 0), (.a, .update 1),
   (.b, .handle [0, 1, 64, 0, 0, 184, 8] 2), (.b, .update 1000000000)]

theorem discards_of_superseded_jumped :
    jumped.Reachable ∧ jumped.a.session.numbersTaken ≤ Counter.span ∧
      jumped.b.session.isDead = false ∧
      (∃ f ∈ jumped.b.emitted, ∃ x, jumped.a.Drops f 1000000001 (.ofNat 1) x) ∧
      ∀ f ∈ jumped.b.emitted, ∀ now q x, jumped.a.Drops f now q x →
        ∃ y ∈ jumped.a.session.resend.packets, y.sequence = q ∧
          y.reliability = .reliableSequenced ∧
          (∃ place, y.place = some place ∧
            ResendQueue.isSuperseded place.channel place.index x = true) ∧
          (jumped.b.session.Discards x ∧ (jumped.b.session.IsPast x ∨
              GivenUp jumped.b.session.config.connectionTimeout jumped.b.arrived q.toNat) ∨
            y.part ≠ none ∧ (jumped.b.session.HoldsFragment y ∨
              jumped.b.session.counters.invalidMessagesReceived ≠ 0)) := by
  have hreachable : jumped.Reachable := reachable_fresh.run (by decide +kernel)
  have hspan : jumped.a.session.numbersTaken ≤ Counter.span := by decide +kernel
  have halive : jumped.b.session.isDead = false := by decide +kernel
  refine ⟨hreachable, hspan, halive, ?_, hreachable.discards_of_superseded hspan halive⟩
  have hdropped : ∃ f ∈ jumped.b.emitted, ∃ x ∈ jumped.a.session.resend.packets,
      jumped.a.session.heeded f.bytes = [.ack (.ofNat 1)] ∧
      x ∉ ((jumped.a.session.countDatagram f.bytes.length).handleAck (.ofNat 1)
        1000000001).resend.packets ∧ x.sequence ≠ .ofNat 1 := by
    decide +kernel
  obtain ⟨f, hf, x, hx, hheeded, hgone, hne⟩ := hdropped
  exact ⟨f, hf, x, Party.drops_of_first hheeded hx hgone hne⟩

/-- The first of two messages is late, and the second one is split. Only a part of it comes. -/
def torn : Network := ({ a := .new (Config.default.withMtu 64) 0, b := .new .default 0 } : Network).run
  [(.a, .send [7] .medium .reliableSequenced 0), (.a, .update 0),
   (.a, .send (List.replicate 30 1) .medium .reliableSequenced 0), (.a, .update 1),
   (.b, .handle ([0, 1, 64, 0, 0, 192, 0, 60, 60, 168, 128] ++ List.replicate 17 1) 2),
   (.b, .update 1000000000)]

/-- On the acknowledgement of a fragment a packet is dropped that would come out if it came. -/
theorem not_discards_of_superseded_torn :
    torn.Reachable ∧ torn.a.session.numbersTaken ≤ Counter.span ∧
      torn.a.session.isDead = false ∧ torn.b.session.isDead = false ∧
      torn.b.session.counters.invalidMessagesReceived = 0 ∧
      ∃ f ∈ torn.b.emitted, ∃ q x, torn.a.Drops f 1000000001 q x ∧
        ¬torn.b.session.IsPast x ∧ ¬torn.b.session.Discards x := by
  refine ⟨(Reachable.start _ _ 0 0).run (by decide +kernel), by decide +kernel, by decide +kernel,
    by decide +kernel, by decide +kernel, ?_⟩
  have hdropped : ∃ f ∈ torn.b.emitted, ∃ x ∈ torn.a.session.resend.packets,
      torn.a.session.heeded f.bytes = [.ack (.ofNat 1)] ∧
      x ∉ ((torn.a.session.countDatagram f.bytes.length).handleAck (.ofNat 1)
        1000000001).resend.packets ∧ x.sequence ≠ .ofNat 1 ∧
      x.place = some { channel := 0, index := .ofNat 0 } ∧
      (torn.b.session.handlePacket x.decoded 0).output.toList ≠ torn.b.session.output.toList := by
    decide +kernel
  have hread : (torn.b.session.lanes.get (.ofNat 0)).isSequencedStale (.ofNat 0) = false := by
    decide +kernel
  obtain ⟨f, hf, x, hx, hheeded, hgone, hne, hplace, hcomes⟩ := hdropped
  refine ⟨f, hf, .ofNat 1, x, Party.drops_of_first hheeded hx hgone hne, ?_, fun hdiscards => ?_⟩
  · rintro ⟨place, hp, hstale⟩
    obtain rfl := Option.some.inj (hplace.symm.trans hp)
    rw [hread] at hstale
    cases hstale
  · obtain ⟨log, hinbox⟩ := hdiscards 0
    exact hcomes (congrArg Inbox.output hinbox)

end Network
end ReliableDatagram
