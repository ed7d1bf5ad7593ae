import ReliableDatagram.Proofs.Receiving.LaneOrder
import ReliableDatagram.Session.Send

/-!
# Accepted messages become shipments

`Session.Sends` ties the counters of a session to the shipments that it has accepted. A message that
is accepted extends them by one shipment, whose delivery brings the accepted bits, and puts the
packets of this shipment into a queue. Nothing else of the session changes.
-/
namespace ReliableDatagram

/-- What a session has accepted: the payload, of which so many bits count, and the numbers of its
packets. -/
structure Accepted where
  payload : Bytes
  bitLength : Nat
  reliability : Reliability
  channel : Nat
  first : Nat
  size : Nat
  deriving DecidableEq, Repr

/-- The message arrives as it was accepted. Fragments travel reliably whatever the mode. -/
structure Delivery.Conveys (d : Delivery) (a : Accepted) : Prop where
  payload_eq : d.payload = a.payload.take (bytesForBits a.bitLength)
  bitLength_eq : d.bitLength = a.bitLength
  reliability_eq : d.reliability = a.reliability ∨ d.reliability = a.reliability.asReliable
  channel_eq : d.channel = if a.reliability.usesChannel then a.channel else 0

structure Shipment.Carries (m : Shipment) (a : Accepted) : Prop where
  conveys : m.delivery.Conveys a
  reliability_eq : m.reliability = a.reliability ∨ m.reliability = a.reliability.asReliable
  channel_eq : m.channel = a.channel
  first_eq : m.first = a.first
  size_eq : m.size = a.size

namespace Reliability

@[simp] theorem isOrdered_asReliable (r : Reliability) : r.asReliable.isOrdered = r.isOrdered := by
  cases r <;> rfl

@[simp] theorem isSequenced_asReliable (r : Reliability) : r.asReliable.isSequenced = r.isSequenced := by
  cases r <;> rfl

@[simp] theorem usesChannel_asReliable (r : Reliability) : r.asReliable.usesChannel = r.usesChannel := by
  cases r <;> rfl

@[simp] theorem isReliable_asReliable (r : Reliability) : r.asReliable.isReliable = true := by
  cases r <;> rfl

end Reliability

namespace Config

variable {c : Config} {length : Nat} {r : Reliability}

theorem frameBudget_lt (c : Config) : c.frameBudget < Limits.maximumMtu := by
  have := c.mtu_le
  simp only [frameBudget, Limits.udpHeader, Limits.maximumMtu] at *
  omega

theorem length_lt_of_shape_whole (h : c.shape length r = .ok .whole) : length < Limits.maximumMtu := by
  have hbudget := c.frameBudget_lt
  unfold shape at h
  dsimp only at h
  split_ifs at h with hfits
  · omega
  · cases h

theorem size_of_shape_cut {size : Nat} (h : c.shape length r = .ok (.cut size)) :
    0 < size ∧ size < Limits.maximumMtu := by
  have hbudget := c.frameBudget_lt
  unfold shape at h
  dsimp only at h
  split_ifs at h with hfits hparts hsize
  · cases h
  · obtain rfl := Shape.cut.inj (Except.ok.inj h)
    omega

end Config

namespace Session

/-- Sequence numbers that the session has given out, the packets of all accepted messages. -/
def numbersTaken (s : Session) : Nat := s.counters.unsplitMessagesSent + s.counters.totalSplits

/-- What the session knows of the messages it has accepted. -/
structure Ledger where
  nextSequence : SequenceNumber
  nextSplitId : SplitId
  writes : PerChannel WriteIndices
  numbersTaken : Nat

def ledger (s : Session) : Ledger :=
  { nextSequence := s.nextSequence
    nextSplitId := s.nextSplitId
    writes := s.writes
    numbersTaken := s.numbersTaken }

/-- The counters stand behind these shipments. -/
structure Sends (s : Session) (ms : List Shipment) : Prop where
  manifest : Manifest ms
  sequence_eq : s.nextSequence = .ofNat (total Shipment.size ms)
  splitId_eq : s.nextSplitId = .ofNat (ms.countP (·.splitId.isSome))
  ordered_eq : ∀ c : Channel, (s.writes.get c).ordered = .ofNat (ms.countP (Shipment.isOrderedOn c))
  sequenced_eq : ∀ c : Channel,
    (s.writes.get c).sequenced = .ofNat (ms.countP (Shipment.isSequencedOn c))
  numbers_eq : s.numbersTaken = total Shipment.size ms

theorem Sends.congr {s s' : Session} {ms : List Shipment} (h : s.Sends ms) (hs : s'.ledger = s.ledger) :
    s'.Sends ms := by
  have hsequence : s'.nextSequence = s.nextSequence := congrArg Ledger.nextSequence hs
  have hsplitId : s'.nextSplitId = s.nextSplitId := congrArg Ledger.nextSplitId hs
  have hwrites : s'.writes = s.writes := congrArg Ledger.writes hs
  have hnumbers : s'.numbersTaken = s.numbersTaken := congrArg Ledger.numbersTaken hs
  exact ⟨h.manifest, hsequence ▸ h.sequence_eq, hsplitId ▸ h.splitId_eq, hwrites ▸ h.ordered_eq,
    hwrites ▸ h.sequenced_eq, hnumbers ▸ h.numbers_eq⟩

theorem sends_new (config : Config) (now : Instant) : (new config now).Sends [] := by
  refine ⟨.nil, rfl, rfl, fun c => ?_, fun c => ?_, rfl⟩
  · simp [new]
  · simp [new]

/-- What an accepted message changes: counters, and one queue. -/
structure Extends (s s' : Session) (m : Shipment) : Prop where
  config_eq : s'.config = s.config
  lanes_eq : s'.lanes = s.lanes
  arrivals_eq : s'.arrivals = s.arrivals
  queues_eq : s'.queues = s.queues.modify m.priority (m.packets.foldl Fifo.push)
  resend_eq : s'.resend = s.resend
  acks_eq : s'.acks = s.acks
  window_eq : s'.window = s.window
  reassembler_eq : s'.reassembler = s.reassembler
  output_eq : s'.output = s.output
  dead_eq : s'.dead = s.dead
  invalid_eq : s'.counters.invalidMessagesReceived = s.counters.invalidMessagesReceived

variable {s s' : Session} {payload : Bytes} {bitLength : Nat} {priority : Priority} {r : Reliability}
  {channel : Nat}

/-- The bits of a payload that are sent when `bitLength` of them are asked for. -/
def effectiveBits (payload : Bytes) (bitLength : Nat) : Nat :=
  min bitLength (min (8 * payload.length) Limits.largestBitLength)

theorem sendBits_ok (h : s.sendBits payload bitLength priority r channel = .ok s') :
    s.isDead = false ∧ 0 < effectiveBits payload bitLength ∧ channel < Limits.channels ∧
      ((s.config.shape (bytesForBits (effectiveBits payload bitLength)) r = .ok .whole ∧
          s' = s.sendWhole payload (effectiveBits payload bitLength) priority r channel) ∨
        ∃ size, s.config.shape (bytesForBits (effectiveBits payload bitLength)) r = .ok (.cut size) ∧
          s' = s.sendParts (Chunk.cut payload (effectiveBits payload bitLength) size) priority
            r.asReliable channel) := by
  unfold sendBits at h
  by_cases hdead : s.isDead = true
  · rw [if_pos hdead] at h
    cases h
  rw [if_neg hdead] at h
  change (if effectiveBits payload bitLength = 0 then _ else _) = _ at h
  by_cases hzero : effectiveBits payload bitLength = 0
  · rw [if_pos hzero] at h
    cases h
  rw [if_neg hzero] at h
  change (if Limits.channels ≤ channel then _ else _) = _ at h
  by_cases hchannel : Limits.channels ≤ channel
  · rw [if_pos hchannel] at h
    cases h
  rw [if_neg hchannel] at h
  change (s.config.shape (bytesForBits (effectiveBits payload bitLength)) r >>= _) = _ at h
  refine ⟨by simpa using hdead, Nat.pos_of_ne_zero hzero, Nat.not_le.mp hchannel, ?_⟩
  cases hshape : s.config.shape (bytesForBits (effectiveBits payload bitLength)) r with
  | error e =>
    rw [hshape] at h
    cases h
  | ok shape =>
    rw [hshape] at h
    cases shape with
    | whole =>
      cases h
      exact Or.inl ⟨rfl, rfl⟩
    | cut size =>
      cases h
      exact Or.inr ⟨size, rfl, rfl⟩

theorem send_ok (h : s.send payload priority r channel = .ok s') :
    s.sendBits payload (8 * payload.length) priority r channel = .ok s' := by
  unfold send at h
  split_ifs at h
  exact h

def nextIndex (ms : List Shipment) (r : Reliability) (channel : Nat) : Nat :=
  if r.isSequenced then ms.countP (Shipment.isSequencedOn channel)
  else ms.countP (Shipment.isOrderedOn channel)

variable {ms : List Shipment} {m : Shipment}

theorem takePlace_eq (h : s.Sends ms) (hindex : m.index = nextIndex ms m.reliability m.channel) :
    ∃ writes : PerChannel WriteIndices,
      s.takePlace m.reliability m.channel = (m.place, { s with writes }) ∧
      ∀ c : Channel,
        (writes.get c).ordered = .ofNat ((ms ++ [m]).countP (Shipment.isOrderedOn c)) ∧
        (writes.get c).sequenced = .ofNat ((ms ++ [m]).countP (Shipment.isSequencedOn c)) := by
  have hval := m.val_channel
  have hordered := h.ordered_eq (.ofNat m.channel)
  have hsequenced := h.sequenced_eq (.ofNat m.channel)
  rw [hval] at hordered hsequenced
  rw [takePlace]
  dsimp only
  simp only [List.countP_append, List.countP_singleton, Shipment.isOrderedOn_iff,
    Shipment.isSequencedOn_iff]
  by_cases hu : m.reliability.usesChannel = true
  · rw [if_pos hu, Shipment.place, if_pos hu]
    by_cases hq : m.reliability.isSequenced = true
    · have ho : ¬m.reliability.isOrdered = true := by
        intro ho
        rw [Reliability.not_isSequenced_of_isOrdered ho] at hq
        cases hq
      rw [nextIndex, if_pos hq] at hindex
      refine ⟨_, by rw [WriteIndices.take, if_pos hq, hsequenced, hindex], fun c => ?_⟩
      rw [PerChannel.get_set]
      by_cases hc : c = .ofNat m.channel
      · subst hc
        simp [hq, ho, hordered, hval]
      · simp [hc, h.ordered_eq c, h.sequenced_eq c]
    · have ho : m.reliability.isOrdered = true := by
        simpa [Reliability.usesChannel, hq] using hu
      rw [nextIndex, if_neg hq] at hindex
      refine ⟨_, by rw [WriteIndices.take, if_neg hq, hordered, hindex], fun c => ?_⟩
      rw [PerChannel.get_set]
      by_cases hc : c = .ofNat m.channel
      · subst hc
        simp [hq, ho, hsequenced, hval]
      · simp [hc, h.ordered_eq c, h.sequenced_eq c]
  · have hnone : m.reliability.isOrdered = false ∧ m.reliability.isSequenced = false := by
      simpa [Reliability.usesChannel] using hu
    rw [if_neg hu, Shipment.place, if_neg hu]
    refine ⟨s.writes, rfl, fun c => ?_⟩
    simp [hnone, h.ordered_eq c, h.sequenced_eq c]

theorem follows_of_nextIndex (hfirst : m.first = total Shipment.size ms)
    (hindex : m.index = nextIndex ms m.reliability m.channel)
    (hid : ∀ id, m.splitId = some id → id = ms.countP (·.splitId.isSome)) : m.Follows ms := by
  refine ⟨hfirst, fun ho => ?_, fun hq => ?_, hid⟩
  · rw [hindex, nextIndex, Reliability.not_isSequenced_of_isOrdered ho]
    rfl
  · rw [hindex, nextIndex, if_pos hq]

/-- A message that fits one frame becomes a shipment of one packet. -/
theorem sends_sendWhole (h : s.Sends ms) (hpos : 0 < bitLength) (hbits : bitLength ≤ 8 * payload.length)
    (hmax : bitLength ≤ Limits.largestBitLength) (hmtu : bytesForBits bitLength < Limits.maximumMtu)
    (hchannel : channel < Limits.channels) :
    ∃ m : Shipment, m.Follows ms ∧ (s.sendWhole payload bitLength priority r channel).Sends (ms ++ [m]) ∧
      s.Extends (s.sendWhole payload bitLength priority r channel) m ∧
      m.Carries
        { payload, bitLength, reliability := r, channel, first := s.numbersTaken, size := m.size } := by
  let m : Shipment :=
    { first := total Shipment.size ms
      reliability := r
      channel
      index := nextIndex ms r channel
      splitId := none
      priority
      chunks := [⟨payload, bitLength⟩]
      chunks_ne_nil := List.cons_ne_nil _ _
      length_of_whole := fun _ => rfl
      isReliable_of_split := fun hne => absurd rfl hne
      channel_lt := hchannel
      total_le := by simpa using hmax
      chunk_fits := by
        intro c hc
        obtain rfl := List.mem_singleton.mp hc
        exact ⟨hpos, hmtu, Chunk.bytesForBits_le hbits⟩ }
  have hfollows : m.Follows ms := follows_of_nextIndex rfl rfl (by simp [m])
  obtain ⟨writes, htake, hwrites⟩ := takePlace_eq (m := m) h rfl
  have hsend : s.sendWhole payload bitLength priority r channel =
      (({ s with writes }.enqueue priority m.packets).count fun c =>
        { c with unsplitMessagesSent := c.unsplitMessagesSent + 1 }) := by
    have htake' : s.takePlace r channel = (m.place, { s with writes }) := htake
    rw [sendWhole, htake']
    simp [m, Shipment.packets, Shipment.packet, h.sequence_eq]
  rw [hsend]
  refine ⟨m, hfollows, ⟨.snoc h.manifest hfollows, ?_, ?_, fun c => (hwrites c).1,
    fun c => (hwrites c).2, ?_⟩, by constructor <;> rfl, ⟨⟨?_, ?_, Or.inl rfl, ?_⟩, Or.inl rfl, rfl,
      h.numbers_eq.symm, rfl⟩⟩
  · show s.nextSequence.advance m.packets.length = _
    rw [h.sequence_eq, Counter.advance_ofNat, total_append]
    rfl
  · show s.nextSplitId = _
    rw [h.splitId_eq, List.countP_append]
    rfl
  · have hnumbers := h.numbers_eq
    simp only [numbersTaken, enqueue, count, total_append, total_cons, total_nil] at hnumbers ⊢
    have hsize : m.size = 1 := rfl
    omega
  · simp [Shipment.delivery, m, Chunk.used]
  · simp [Shipment.delivery, m]
  · simp only [Shipment.delivery, Shipment.place, m]
    split_ifs <;> rfl

/-- Any other message becomes a shipment of fragments. -/
theorem sends_sendParts (h : s.Sends ms) {size : Nat} (hsize : 0 < size)
    (hmtu : size < Limits.maximumMtu) (hpos : 0 < bitLength) (hbits : bitLength ≤ 8 * payload.length)
    (hmax : bitLength ≤ Limits.largestBitLength) (hchannel : channel < Limits.channels) :
    let chunks := Chunk.cut payload bitLength size
    ∃ m : Shipment, m.Follows ms ∧
      (s.sendParts chunks priority r.asReliable channel).Sends (ms ++ [m]) ∧
      s.Extends (s.sendParts chunks priority r.asReliable channel) m ∧
      m.Carries
        { payload, bitLength, reliability := r, channel, first := s.numbersTaken, size := m.size } := by
  intro chunks
  let m : Shipment :=
    { first := total Shipment.size ms
      reliability := r.asReliable
      channel
      index := nextIndex ms r.asReliable channel
      splitId := some (ms.countP (·.splitId.isSome))
      priority
      chunks
      chunks_ne_nil := Chunk.cut_ne_nil hsize hpos
      length_of_whole := fun hnone => nomatch hnone
      isReliable_of_split := fun _ => Reliability.isReliable_asReliable r
      channel_lt := hchannel
      total_le := by rwa [Chunk.total_cut hsize]
      chunk_fits := by
        intro c hc
        obtain ⟨hpos, hle, hlen⟩ := Chunk.mem_cut hsize hbits c hc
        exact ⟨hpos, by omega, by omega⟩ }
  have hfollows : m.Follows ms := follows_of_nextIndex rfl rfl (by simp [m])
  obtain ⟨writes, htake, hwrites⟩ := takePlace_eq (m := m) h rfl
  have hsend : s.sendParts chunks priority r.asReliable channel =
      (({ { s with writes }.enqueue priority m.packets with nextSplitId := s.nextSplitId.next }).count
        fun c =>
          { c with
            splitMessagesSent := c.splitMessagesSent + 1
            totalSplits := c.totalSplits + chunks.length }) := by
    have htake' : s.takePlace r.asReliable channel = (m.place, { s with writes }) := htake
    rw [sendParts, htake']
    simp [m, Shipment.packets, Shipment.packet, Shipment.size, h.sequence_eq, h.splitId_eq]
  rw [hsend]
  refine ⟨m, hfollows, ⟨.snoc h.manifest hfollows, ?_, ?_, fun c => (hwrites c).1,
    fun c => (hwrites c).2, ?_⟩, by constructor <;> rfl, ⟨⟨?_, ?_, Or.inr rfl, ?_⟩, Or.inr rfl, rfl,
      h.numbers_eq.symm, rfl⟩⟩
  · show s.nextSequence.advance m.packets.length = _
    rw [h.sequence_eq, Counter.advance_ofNat, total_append]
    simp [Shipment.packets, Shipment.size]
  · show s.nextSplitId.next = _
    rw [h.splitId_eq, Counter.next_ofNat, List.countP_append]
    rfl
  · have hnumbers := h.numbers_eq
    simp only [numbersTaken, enqueue, count, total_append, total_cons, total_nil] at hnumbers ⊢
    have hsize : m.size = chunks.length := rfl
    omega
  · exact Chunk.flatMap_used_cut hsize hbits
  · exact Chunk.total_cut hsize
  · simp only [Shipment.delivery, Shipment.place, m, Reliability.usesChannel_asReliable]
    split_ifs <;> rfl

/-- An accepted message extends the shipments by one of its own. -/
theorem sends_sendBits (h : s.Sends ms)
    (hs : s.sendBits payload bitLength priority r channel = .ok s') :
    ∃ m : Shipment, m.Follows ms ∧ s'.Sends (ms ++ [m]) ∧ s.Extends s' m ∧
      m.Carries
        { payload
          bitLength := effectiveBits payload bitLength
          reliability := r
          channel
          first := s.numbersTaken
          size := s'.numbersTaken - s.numbersTaken } := by
  have hbits : effectiveBits payload bitLength ≤ 8 * payload.length := by
    simp only [effectiveBits]
    omega
  have hmax : effectiveBits payload bitLength ≤ Limits.largestBitLength := by
    simp only [effectiveBits]
    omega
  obtain ⟨-, hpos, hchannel, hcases⟩ := sendBits_ok hs
  have hspec : ∃ m : Shipment, m.Follows ms ∧ s'.Sends (ms ++ [m]) ∧ s.Extends s' m ∧
      m.Carries
        { payload
          bitLength := effectiveBits payload bitLength
          reliability := r
          channel
          first := s.numbersTaken
          size := m.size } := by
    rcases hcases with ⟨hshape, rfl⟩ | ⟨size, hshape, rfl⟩
    · exact sends_sendWhole h hpos hbits hmax (Config.length_lt_of_shape_whole hshape) hchannel
    · obtain ⟨hsize, hmtu⟩ := Config.size_of_shape_cut hshape
      exact sends_sendParts h hsize hmtu hpos hbits hmax hchannel
  obtain ⟨m, hm, hsends, hextends, hcarries⟩ := hspec
  have hsize : s'.numbersTaken - s.numbersTaken = m.size := by
    rw [hsends.numbers_eq, h.numbers_eq, total_append, total_cons, total_nil]
    omega
  exact ⟨m, hm, hsends, hextends, hsize ▸ hcarries⟩

end Session
end ReliableDatagram
