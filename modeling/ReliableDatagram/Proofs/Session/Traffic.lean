import ReliableDatagram.Proofs.Session.Output
import ReliableDatagram.Proofs.Session.Timer

/-!
# What the counters tell of the traffic

A session that lives loses and counts twice no packet and no acknowledgement. It `Tallies` the entries
it has heard, the frames it has finished and the entries of the one that is being filled, if its
counters and its queues account for all of them.
-/
namespace ReliableDatagram

theorem PerPriority.total_modify_succ (t : PerPriority Nat) (p : Priority) :
    total id (t.modify p (· + 1)).toList = total id t.toList + 1 := by
  have hset := t.total_set p (t.get p + 1) id
  simp only [modify, id] at hset ⊢
  omega

theorem PerPriority.total_length_enqueue {α : Type} (t : PerPriority (Fifo α)) (p : Priority) (l : List α) :
    total Fifo.length (t.modify p (l.foldl Fifo.push)).toList = total Fifo.length t.toList + l.length := by
  have hset := t.total_set p (l.foldl Fifo.push (t.get p)) Fifo.length
  have hlength : (l.foldl Fifo.push (t.get p)).length = (t.get p).length + l.length := by
    simp [← Fifo.length_toList]
  simp only [modify, hlength] at hset ⊢
  omega

namespace Session

structure Tallies (s : Session) (heard : List Entry) (frames : List Frame) (unfinished : List Entry) :
    Prop where
  submitted : s.counters.totalMessagesSent + s.backlog = s.numbersTaken
  acknowledged : s.counters.acksSent + s.acks.length = heard.countP Entry.isReliable
  data_eq : (frames.flatMap (·.entries) ++ unfinished).countP (!·.isAck) =
    s.counters.totalMessagesSent + s.counters.messagesResent
  acks_eq : (frames.flatMap (·.entries) ++ unfinished).countP Entry.isAck = s.counters.acksSent
  frames_eq : frames.length = s.counters.framesSent
  bits_eq : total (fun f => f.bytes.length * 8) frames = s.counters.bitsSent

variable {s s' : Session} {heard : List Entry} {frames : List Frame} {unfinished : List Entry}

theorem tallies_new (config : Config) (start : Instant) : (new config start).Tallies [] [] [] := by
  constructor <;> rfl

/-- Nothing is transmitted. What is queued is numbered, and what is heard is acknowledged. -/
theorem Tallies.still (h : s.Tallies heard frames unfinished) {heard' : List Entry}
    (htraffic : s'.traffic = s.traffic)
    (hsubmitted : s'.backlog + s.numbersTaken = s.backlog + s'.numbersTaken)
    (hheard : s'.acks.length + heard.countP Entry.isReliable =
      s.acks.length + heard'.countP Entry.isReliable) : s'.Tallies heard' frames unfinished := by
  have hsent : s'.counters.totalMessagesSent = s.counters.totalMessagesSent :=
    congrArg (fun t : Traffic => total id t.sent.toList) htraffic
  have hresent : s'.counters.messagesResent = s.counters.messagesResent := congrArg Traffic.resent htraffic
  have hacks : s'.counters.acksSent = s.counters.acksSent := congrArg Traffic.acks htraffic
  have hframes : s'.counters.framesSent = s.counters.framesSent := congrArg Traffic.frames htraffic
  have hbits : s'.counters.bitsSent = s.counters.bitsSent := congrArg Traffic.bits htraffic
  have hold := h.submitted
  have hold' := h.acknowledged
  constructor
  · omega
  · omega
  · rw [hsent, hresent, h.data_eq]
  · rw [hacks, h.acks_eq]
  · rw [hframes, h.frames_eq]
  · rw [hbits, h.bits_eq]

/-- Nothing that is counted is touched. -/
theorem Tallies.congr (h : s.Tallies heard frames unfinished) (hledger : s'.ledger = s.ledger)
    (htraffic : s'.traffic = s.traffic) (hacks : s'.acks.toList = s.acks.toList)
    (hqueues : ∀ p, (s'.queues.get p).toList = (s.queues.get p).toList) :
    s'.Tallies heard frames unfinished := by
  have hnumbers : s'.numbersTaken = s.numbersTaken := congrArg Ledger.numbersTaken hledger
  apply h.still htraffic
  · rw [backlog_congr hqueues, hnumbers]
  · simp [← Fifo.length_toList, hacks]

/-- An entry goes from the session into the frame. -/
theorem Tallies.push (h : s.Tallies heard frames unfinished) (e : Entry) (hledger : s'.ledger = s.ledger)
    (hsubmitted : s'.counters.totalMessagesSent + s'.backlog = s.counters.totalMessagesSent + s.backlog)
    (hpending : s'.counters.acksSent + s'.acks.length = s.counters.acksSent + s.acks.length)
    (hdata : s'.counters.totalMessagesSent + s'.counters.messagesResent =
      s.counters.totalMessagesSent + s.counters.messagesResent + if e.isAck then 0 else 1)
    (hacks : s'.counters.acksSent = s.counters.acksSent + if e.isAck then 1 else 0)
    (hframes : s'.counters.framesSent = s.counters.framesSent)
    (hbits : s'.counters.bitsSent = s.counters.bitsSent) :
    s'.Tallies heard frames (unfinished ++ [e]) := by
  have hnumbers : s'.numbersTaken = s.numbersTaken := congrArg Ledger.numbersTaken hledger
  constructor
  · rw [hsubmitted, hnumbers, h.submitted]
  · rw [hpending, h.acknowledged]
  · rw [hdata, ← h.data_eq, ← List.append_assoc, List.countP_append, List.countP_singleton]
    cases e.isAck <;> rfl
  · rw [hacks, ← h.acks_eq, ← List.append_assoc, List.countP_append, List.countP_singleton]
  · rw [hframes, h.frames_eq]
  · rw [hbits, h.bits_eq]

end Session

/-! ### Transmitting -/

namespace Filling

variable {d d' : Filling} {now : Instant} {heard : List Entry} {frames : List Frame}

/-- A packet that is sent for the first time is counted once. -/
theorem traffic_sendFirst (d : Filling) (now : Instant) (priority : Priority) (p : Packet) :
    (d.sendFirst now priority p).session.traffic =
      { d.session.traffic with sent := d.session.counters.messagesSent.modify priority (· + 1) } := by
  rw [sendFirst]
  split_ifs <;> rfl

theorem Step.tallies (h : Step now d d')
    (ht : d.session.Tallies heard frames d.frame.entries.toList) :
    d'.session.Tallies heard frames d'.frame.entries.toList := by
  have hledger : d'.session.ledger = d.session.ledger := congrArg Session.Standing.ledger h.standing
  cases h with
  | tidy hacks hqueues hresend => exact ht.congr rfl rfl hacks hqueues
  | ackOnly => exact ⟨ht.submitted, ht.acknowledged, ht.data_eq, ht.acks_eq, ht.frames_eq, ht.bits_eq⟩
  | @ack a acks hacks hfits =>
    have hlength : d.session.acks.length = (Fifo.ofList acks).length + 1 := by
      simp [← Fifo.length_toList, hacks]
    have hpending : d.session.counters.acksSent + 1 + (Fifo.ofList acks).length =
        d.session.counters.acksSent + d.session.acks.length := by omega
    simpa [FrameBuilder.push] using ht.push (.ack a.sequence) hledger rfl hpending rfl rfl rfl rfl
  | @again p hdue hfits =>
    simpa [FrameBuilder.push, sendAgain] using ht.push (.data p) hledger rfl rfl rfl rfl rfl rfl
  | @first priority p queue hqueue hopen hfits =>
    have htraffic := (d.withQueue priority queue).traffic_sendFirst now priority p
    have hbacklog := backlog_sendFirst hqueue now
    have hpending := (d.withQueue priority queue).acks_sendFirst now priority p
    have hframe : ((d.withQueue priority queue).sendFirst now priority p).frame.entries.toList =
        d.frame.entries.toList ++ [.data p] := Array.toList_push
    generalize (d.withQueue priority queue).sendFirst now priority p = d' at *
    have hsent : d'.session.counters.totalMessagesSent = d.session.counters.totalMessagesSent + 1 :=
      (congrArg (fun t : Traffic => total id t.sent.toList) htraffic).trans
        (d.session.counters.messagesSent.total_modify_succ priority)
    have hresent : d'.session.counters.messagesResent = d.session.counters.messagesResent :=
      congrArg Traffic.resent htraffic
    have hacks : d'.session.counters.acksSent = d.session.counters.acksSent :=
      congrArg Traffic.acks htraffic
    rw [hframe]
    refine ht.push (.data p) hledger ?_ ?_ ?_ hacks (congrArg Traffic.frames htraffic)
      (congrArg Traffic.bits htraffic)
    · omega
    · rw [hacks, hpending]
      rfl
    · rw [hsent, hresent, Nat.add_right_comm]
      rfl

end Filling

theorem Transmission.Step.tallies {t t' : Transmission} {now : Instant} {heard : List Entry}
    {frames : List Frame} (h : Step now t t')
    (ht : t.filling.session.Tallies heard (frames ++ t.frames) t.filling.frame.entries.toList) :
    t'.filling.session.Tallies heard (frames ++ t'.frames) t'.filling.frame.entries.toList := by
  cases h with
  | fill hfill => exact hfill.tallies ht
  | close =>
    have hentries : (frames ++ t.close.frames).flatMap (·.entries) ++ t.close.filling.frame.entries.toList =
        (frames ++ t.frames).flatMap (·.entries) ++ t.filling.frame.entries.toList := by
      simp [Transmission.close, FrameBuilder.finish, FrameBuilder.ofMaxBytes]
    refine ⟨ht.submitted, ht.acknowledged, ?_, ?_, ?_, ?_⟩
    · rw [hentries]
      exact ht.data_eq
    · rw [hentries]
      exact ht.acks_eq
    · show _ = t.filling.session.counters.framesSent + 1
      simp [← ht.frames_eq, Transmission.close, Nat.add_assoc]
    · show _ = t.filling.session.counters.bitsSent + t.filling.frame.finish.bytes.length * 8
      simp [← ht.bits_eq, Transmission.close, Nat.add_assoc]

namespace Session

variable {s s' : Session} {heard : List Entry} {frames : List Frame} {now : Instant}

theorem Tallies.transmit (h : s.Tallies heard frames []) (halive : (s.transmit now).2.isDead = false) :
    (s.transmit now).2.Tallies heard (frames ++ (s.transmit now).1) [] := by
  rcases s.transmit_cases now with ⟨hdead, heq⟩ | ⟨-, -, heq⟩ | ⟨-, -, d, hempty, hd, hsteps⟩
  · rw [heq, hdead] at halive
    cases halive
  · rw [heq] at halive
    cases halive
  · have hstart : (Transmission.start s false).filling.session.Tallies heard
        (frames ++ (Transmission.start s false).frames)
        (Transmission.start s false).filling.frame.entries.toList := by
      simpa [Transmission.start, FrameBuilder.ofMaxBytes] using h
    have hkept := hsteps.keep (fun _ _ hstep ht => hstep.tallies ht) hstart
    have hnil : d.frame.entries.toList = [] := d.frame.isEmpty_iff.mp hempty
    rwa [hd, hnil] at hkept

/-! ### Taking in -/

theorem length_acks_handleEntry (s : Session) (e : Entry) (now : Instant) :
    (s.handleEntry now e).acks.length = s.acks.length + [e].countP Entry.isReliable := by
  cases e with
  | ack q =>
    have hacks : (s.handleAck q now).acks = s.acks := congrArg Outbox.acks (s.outbox_handleAck q now)
    simp [handleEntry, hacks, Entry.isReliable]
  | data p =>
    rw [handleEntry, acks_handlePacket]
    split_ifs with hreliable <;> simp [← Fifo.length_toList, Entry.isReliable, hreliable]

theorem length_acks_handleEntries (s : Session) (entries : List Entry) (now : Instant) :
    (entries.foldl (handleEntry now) s).acks.length =
      s.acks.length + entries.countP Entry.isReliable := by
  induction entries generalizing s with
  | nil => simp
  | cons e entries ih =>
    rw [List.foldl_cons, ih, length_acks_handleEntry, Nat.add_assoc, ← List.countP_append,
      List.singleton_append]

theorem Tallies.handleDatagram (h : s.Tallies heard frames []) (data : Bytes) (now : Instant) :
    (s.handleDatagram data now).2.Tallies (heard ++ s.heeded data) frames [] := by
  have hhandles := s.handles_handleDatagram data now
  have hnumbers : (s.handleDatagram data now).2.numbersTaken = s.numbersTaken :=
    congrArg Ledger.numbersTaken hhandles.ledger_eq
  have hbacklog : (s.handleDatagram data now).2.backlog = s.backlog :=
    backlog_congr fun p => by rw [hhandles.queues_eq]
  have hlength : (s.handleDatagram data now).2.acks.length =
      s.acks.length + (s.heeded data).countP Entry.isReliable := by
    rw [heeded]
    rcases s.handleDatagram_cases data now with ⟨hdead, heq⟩ | ⟨halive, window, invalid, heq⟩
    · simp [heq, hdead]
    · rw [heq, if_neg (Bool.eq_false_iff.mp halive)]
      exact length_acks_handleEntries ..
  apply h.still hhandles.traffic_eq
  · rw [hbacklog, hnumbers]
  · rw [hlength, List.countP_append]
    omega

/-! ### Submitting -/

theorem Tallies.enqueue (h : s.Tallies heard frames []) (priority : Priority) (packets : List Packet)
    (hqueues : s'.queues = s.queues.modify priority (packets.foldl Fifo.push))
    (hnumbers : s'.numbersTaken = s.numbersTaken + packets.length) (htraffic : s'.traffic = s.traffic)
    (hacks : s'.acks = s.acks) : s'.Tallies heard frames [] := by
  have hqueued := s.queues.total_length_enqueue priority packets
  apply h.still htraffic
  · simp only [backlog, hqueues, hqueued, hnumbers]
    omega
  · rw [hacks]

theorem Tallies.takePlace (h : s.Tallies heard frames []) (r : Reliability) (channel : Nat) :
    (s.takePlace r channel).2.Tallies heard frames [] := by
  rw [Session.takePlace]
  split_ifs
  · exact h.still rfl rfl rfl
  · exact h

theorem traffic_takePlace (s : Session) (r : Reliability) (channel : Nat) :
    (s.takePlace r channel).2.traffic = s.traffic := by
  rw [Session.takePlace]
  split_ifs <;> rfl

theorem traffic_sendBits {payload : Bytes} {bitLength : Nat} {priority : Priority} {r : Reliability}
    {channel : Nat} (hs : s.sendBits payload bitLength priority r channel = .ok s') :
    s'.traffic = s.traffic := by
  obtain ⟨-, -, -, ⟨-, rfl⟩ | ⟨size, -, rfl⟩⟩ := sendBits_ok hs
  · exact s.traffic_takePlace r channel
  · exact s.traffic_takePlace r.asReliable channel

/-- A message that is accepted is queued, packet by packet. -/
theorem Tallies.sendBits (h : s.Tallies heard frames []) {payload : Bytes} {bitLength : Nat}
    {priority : Priority} {r : Reliability} {channel : Nat}
    (hs : s.sendBits payload bitLength priority r channel = .ok s') : s'.Tallies heard frames [] := by
  obtain ⟨-, -, -, ⟨-, rfl⟩ | ⟨size, -, rfl⟩⟩ := sendBits_ok hs
  · have hplaced := h.takePlace r channel
    rw [sendWhole]
    exact hplaced.enqueue priority [_] rfl (Nat.add_right_comm ..) rfl rfl
  · have hplaced := h.takePlace r.asReliable channel
    rw [sendParts]
    refine hplaced.enqueue priority _ rfl ?_ rfl rfl
    simp [numbersTaken, Session.count, Session.enqueue, Nat.add_assoc]

end Session
end ReliableDatagram
