import ReliableDatagram.Proofs.Party.Legality
import ReliableDatagram.Proofs.Session.Stepwise

/-!
# What is queued for a message

A message is refused, and nothing changes, or it is queued as packets that carry its bits and no others.
They are numbered on, at one place on their channel, and they are one packet or at least two fragments,
each of which fits a frame.
-/
namespace ReliableDatagram

/-- Chunks of equal size make as many as the length holds, rounded up. -/
theorem Chunk.length_cutWith {fuel : Nat} {payload : Bytes} {bits size : Nat} (hs : 0 < size)
    (hf : bytesForBits bits ≤ fuel) :
    (cutWith fuel payload bits size).length = (bytesForBits bits + size - 1) / size := by
  fun_induction cutWith fuel payload bits size with
  | case1 payload bits size =>
    rw [Nat.le_zero.mp hf, Nat.zero_add, Nat.div_eq_of_lt (Nat.sub_one_lt (Nat.ne_of_gt hs))]
    rfl
  | case2 n payload bits size length h0 =>
    have : bytesForBits bits = 0 := h0
    rw [this, Nat.zero_add, Nat.div_eq_of_lt (Nat.sub_one_lt (Nat.ne_of_gt hs))]
    rfl
  | case3 n payload bits size length h0 hle =>
    have hpos : 0 < bytesForBits bits := Nat.pos_of_ne_zero h0
    have hone : bytesForBits bits + size - 1 = bytesForBits bits - 1 + size := by omega
    have hless : bytesForBits bits - 1 < size := Nat.lt_of_lt_of_le (Nat.sub_one_lt h0) hle
    rw [hone, Nat.add_div_right _ hs, Nat.div_eq_of_lt hless]
    rfl
  | case4 n payload bits size length h0 hle ih =>
    have hlt : size < bytesForBits bits := Nat.not_le.mp hle
    have hsub := bytesForBits_sub hlt
    have hnext : bytesForBits bits + size - 1 = bytesForBits bits - size + size - 1 + size := by omega
    rw [List.length_cons, ih hs (by omega), hsub, hnext, Nat.add_div_right _ hs]

theorem Chunk.length_cut {payload : Bytes} {bits size : Nat} (hs : 0 < size) :
    (cut payload bits size).length = (bytesForBits bits + size - 1) / size := by
  rw [cut_eq hs]
  exact length_cutWith hs (Nat.le_refl _)

namespace Config

variable {c : Config} {length size : Nat} {r : Reliability}

theorem shape_whole_iff :
    c.shape length r = .ok .whole ↔ length + Packet.maxHeaderBytes r false ≤ c.frameBudget := by
  refine ⟨le_frameBudget_of_shape_whole, fun h => ?_⟩
  rw [shape, if_pos h]

/-- Fragments with room for a byte or more are as many as the length asks for. -/
theorem shape_of_size_pos (hover : ¬length + Packet.maxHeaderBytes r false ≤ c.frameBudget)
    (hsize : size = c.frameBudget - Packet.maxHeaderBytes r.asReliable true) (hpos : 0 < size) :
    c.shape length r =
      if c.maxSplitParts < (length + size - 1) / size then
        .error (.tooManySplits ((length + size - 1) / size))
      else .ok (.cut size) := by
  have hparts : (chunkCount? length size).getD Limits.largestCount = (length + size - 1) / size := by
    rw [chunkCount?, if_neg (Nat.ne_of_gt hpos)]
    rfl
  rw [shape, if_neg hover]
  dsimp only
  rw [← hsize, hparts, if_neg (Nat.ne_of_gt hpos)]

theorem shape_cut_iff : c.shape length r = .ok (.cut size) ↔
    c.frameBudget < length + Packet.maxHeaderBytes r false ∧
      size = c.frameBudget - Packet.maxHeaderBytes r.asReliable true ∧ 0 < size ∧
      (length + size - 1) / size ≤ c.maxSplitParts := by
  constructor
  · intro h
    have hover : ¬length + Packet.maxHeaderBytes r false ≤ c.frameBudget := by
      intro hfits
      rw [shape_whole_iff.mpr hfits] at h
      cases h
    have hpos := (size_of_shape_cut h).1
    have hsize : size = c.frameBudget - Packet.maxHeaderBytes r.asReliable true := by
      unfold shape at h
      dsimp only at h
      split_ifs at h
      exact (Shape.cut.inj (Except.ok.inj h)).symm
    rw [shape_of_size_pos hover hsize hpos] at h
    split_ifs at h with hmany
    exact ⟨Nat.not_le.mp hover, hsize, hpos, Nat.not_lt.mp hmany⟩
  · rintro ⟨hover, hsize, hpos, hparts⟩
    rw [shape_of_size_pos (Nat.not_le.mpr hover) hsize hpos, if_neg (Nat.not_lt.mpr hparts)]

/-- A limit on the parts leaves no message without an answer. -/
theorem shape_ne_noRoom (h : c.maxSplitParts < Limits.largestCount) :
    c.shape length r ≠ .error .noRoom := by
  intro hshape
  rw [shape] at hshape
  split_ifs at hshape with hfits
  dsimp only at hshape
  split_ifs at hshape with hmany hsize
  · cases hshape
  · rw [chunkCount?, if_pos hsize] at hmany
    exact hmany h

/-- Fragments have the longer header, and that of a whole message left no room: so there are two or more. -/
theorem two_le_of_over (hover : c.frameBudget < length + Packet.maxHeaderBytes r false)
    (hsize : size = c.frameBudget - Packet.maxHeaderBytes r.asReliable true) (hpos : 0 < size) :
    2 ≤ (length + size - 1) / size := by
  have hheader : Packet.maxHeaderBytes r false ≤ Packet.maxHeaderBytes r.asReliable true := by
    cases r <;> decide
  exact (Nat.le_div_iff_mul_le hpos).mpr (by omega)

end Config

namespace Sending

variable {priority : Priority} {r : Reliability} {place : Option Place} {id : SplitId} {count : Nat}
  {base : SequenceNumber} {chunks : List Chunk}

theorem getElem?_fragments {i : Nat} {p : Packet}
    (h : (fragments priority r place id count base chunks.zipIdx)[i]? = some p) :
    ∃ chunk, chunks[i]? = some chunk ∧ p =
      { sequence := base.advance i, reliability := r, place, part := some { id, index := i, count }
        priority, bitLength := chunk.bitLength, payload := chunk.bytes } := by
  simp only [fragments, List.getElem?_map, List.getElem?_zipIdx, Option.map_map] at h
  obtain ⟨chunk, hchunk, rfl⟩ := Option.map_eq_some_iff.mp h
  exact ⟨chunk, hchunk, by simp⟩

theorem flatMap_body_fragments :
    (fragments priority r place id count base chunks.zipIdx).flatMap Packet.body =
      chunks.flatMap Chunk.used := by
  conv_rhs => rw [← List.zipIdx_map_fst 0 chunks, List.flatMap_map]
  rw [fragments, List.flatMap_map]
  rfl

theorem total_bitLength_fragments :
    total Packet.bitLength (fragments priority r place id count base chunks.zipIdx) =
      total Chunk.bitLength chunks := by
  conv_rhs => rw [← List.zipIdx_map_fst 0 chunks, total_map]
  rw [fragments, total_map]

end Sending

namespace Session

/-- The place that a message of this mode takes on the channel, and the counters behind it. -/
structure Places (s : Session) (r : Reliability) (channel : Nat) (place : Option Place)
    (writes : PerChannel WriteIndices) : Prop where
  unused : r.usesChannel = false → place = none ∧ writes = s.writes
  ordered : r.isOrdered = true →
    let w := s.writes.get (.ofNat channel)
    place = some { channel, index := w.ordered } ∧
      writes = s.writes.set (.ofNat channel) { w with ordered := w.ordered.next }
  sequenced : r.isSequenced = true →
    let w := s.writes.get (.ofNat channel)
    place = some { channel, index := w.sequenced } ∧
      writes = s.writes.set (.ofNat channel) { w with sequenced := w.sequenced.next }

/-- The message is one packet of its own mode. -/
structure PostsWhole (s s' : Session) (r : Reliability) (packets : List Packet) : Prop where
  length_eq : packets.length = 1
  part_eq : ∀ p ∈ packets, p.part = none
  reliability_eq : ∀ p ∈ packets, p.reliability = r
  nextSplitId_eq : s'.nextSplitId = s.nextSplitId
  counters_eq : s'.counters =
    { s.counters with unsplitMessagesSent := s.counters.unsplitMessagesSent + 1 }

/-- The message is in reliable fragments under one new id. -/
structure PostsParts (s s' : Session) (r : Reliability) (packets : List Packet) : Prop where
  two_le : 2 ≤ packets.length
  part_eq : ∀ (i : Nat) (p : Packet), packets[i]? = some p →
    p.part = some { id := s.nextSplitId, index := i, count := packets.length }
  reliability_eq : ∀ p ∈ packets, p.reliability = r.asReliable ∧ p.reliability.isReliable = true
  nextSplitId_eq : s'.nextSplitId = s.nextSplitId.next
  counters_eq : s'.counters =
    { s.counters with
      splitMessagesSent := s.counters.splitMessagesSent + 1
      totalSplits := s.counters.totalSplits + packets.length }

/-- The first `bits` bits of the payload are queued as these packets, and nothing else is done. -/
structure Posts (s s' : Session) (payload : Bytes) (bits : Nat) (priority : Priority) (r : Reliability)
    (channel : Nat) (packets : List Packet) : Prop where
  queue_eq : (s'.queues.get priority).toList = (s.queues.get priority).toList ++ packets
  other_queues : ∀ other, other ≠ priority → s'.queues.get other = s.queues.get other
  priority_eq : ∀ p ∈ packets, p.priority = priority
  sequence_eq : ∀ (i : Nat) (p : Packet), packets[i]? = some p → p.sequence = s.nextSequence.advance i
  nextSequence_eq : s'.nextSequence = s.nextSequence.advance packets.length
  place : ∃ place, s.Places r channel place s'.writes ∧ ∀ p ∈ packets, p.place = place
  parts :
    (bytesForBits bits + Packet.maxHeaderBytes r false ≤ s.config.frameBudget ∧
      s.PostsWhole s' r packets) ∨
    (s.config.frameBudget < bytesForBits bits + Packet.maxHeaderBytes r false ∧
      s.PostsParts s' r packets)
  payload_eq : packets.flatMap Packet.body = payload.take (bytesForBits bits)
  bits_eq : total Packet.bitLength packets = bits
  fits : ∀ p ∈ packets, (FrameBuilder.ofMaxBytes s.config.frameBudget).fits (.data p) = true
  rest_eq : s' =
    { s with
      queues := s'.queues
      nextSequence := s'.nextSequence
      nextSplitId := s'.nextSplitId
      writes := s'.writes
      counters := s'.counters }

variable {s s' : Session} {payload : Bytes} {bits size : Nat} {priority : Priority} {r : Reliability}
  {channel : Nat}

theorem exists_places (s : Session) (r : Reliability) (channel : Nat) :
    ∃ place writes, s.takePlace r channel = (place, { s with writes }) ∧
      s.Places r channel place writes := by
  by_cases hu : r.usesChannel = true
  · have hnot : r.usesChannel = false → ∀ {P : Prop}, P := fun h => by rw [hu] at h; cases h
    refine ⟨_, _, by rw [takePlace, if_pos hu], ⟨fun h => hnot h, fun ho => ?_, fun hq => ?_⟩⟩
    · have hq := Reliability.not_isSequenced_of_isOrdered ho
      simp [WriteIndices.take, hq]
    · simp [WriteIndices.take, hq]
  · have hnone : r.isOrdered = false ∧ r.isSequenced = false := by
      simpa [Reliability.usesChannel] using hu
    refine ⟨none, s.writes, by rw [takePlace, if_neg hu], ⟨fun _ => ⟨rfl, rfl⟩, fun ho => ?_, fun hq => ?_⟩⟩
    · rw [hnone.1] at ho
      cases ho
    · rw [hnone.2] at hq
      cases hq

theorem Places.of_asReliable {place : Option Place} {writes : PerChannel WriteIndices}
    (h : s.Places r.asReliable channel place writes) : s.Places r channel place writes :=
  ⟨fun hu => h.unused (by simpa using hu), fun ho => h.ordered (by simpa using ho),
    fun hq => h.sequenced (by simpa using hq)⟩

theorem posts_sendWhole (hroom : bytesForBits bits + Packet.maxHeaderBytes r false ≤ s.config.frameBudget) :
    ∃ packets, s.Posts (s.sendWhole payload bits priority r channel) payload bits priority r channel
      packets := by
  obtain ⟨place, writes, htake, hplaces⟩ := s.exists_places r channel
  let p : Packet :=
    { sequence := s.nextSequence, reliability := r, place, part := none, priority, bitLength := bits
      payload }
  have hsend : s.sendWhole payload bits priority r channel =
      (({ s with writes }.enqueue priority [p]).count fun c =>
        { c with unsplitMessagesSent := c.unsplitMessagesSent + 1 }) := by
    rw [sendWhole, htake]
  have hone : ∀ {P : Packet → Prop}, P p → ∀ q ∈ [p], P q := fun hp q hq => List.mem_singleton.mp hq ▸ hp
  rw [hsend]
  refine ⟨[p], ?_, fun other hother => ?_, hone rfl, fun i q hq => ?_, rfl, ⟨place, hplaces, hone rfl⟩,
    Or.inl ⟨hroom, rfl, hone rfl, hone rfl, rfl, rfl⟩, ?_, ?_, hone ?_, rfl⟩
  · simp [enqueue, count, PerPriority.modify]
  · simp [enqueue, count, PerPriority.modify, hother]
  · cases i with
    | zero =>
      obtain rfl := Option.some.inj hq
      exact (Counter.advance_zero _).symm
    | succ i => cases hq
  · simp [Packet.body, Packet.payloadLength, p]
  · simp [p]
  · exact Packet.fitsAlone_of_le hroom

theorem posts_sendParts (hbits : bits ≤ 8 * payload.length)
    (hshape : s.config.shape (bytesForBits bits) r = .ok (.cut size)) :
    ∃ packets, s.Posts (s.sendParts (Chunk.cut payload bits size) priority r.asReliable channel) payload bits
      priority r channel packets := by
  obtain ⟨hover, hsize, hpos, -⟩ := Config.shape_cut_iff.mp hshape
  have hroom := Config.le_frameBudget_of_shape_cut hshape
  obtain ⟨place, writes, htake, hplaces⟩ := s.exists_places r.asReliable channel
  generalize hchunks : Chunk.cut payload bits size = chunks
  let packets := Sending.fragments priority r.asReliable place s.nextSplitId chunks.length s.nextSequence
    chunks.zipIdx
  have hsend : s.sendParts chunks priority r.asReliable channel =
      (({ { s with writes }.enqueue priority packets with nextSplitId := s.nextSplitId.next }).count
        fun c =>
          { c with
            splitMessagesSent := c.splitMessagesSent + 1
            totalSplits := c.totalSplits + chunks.length }) := by
    rw [sendParts, htake]
    rfl
  have hlength : packets.length = chunks.length := by simp [packets, Sending.fragments]
  have hcount : chunks.length = (bytesForBits bits + size - 1) / size := hchunks ▸ Chunk.length_cut hpos
  have hmem : ∀ p ∈ packets, ∃ chunk i, chunk ∈ chunks ∧ p =
      { sequence := s.nextSequence.advance i, reliability := r.asReliable, place
        part := some { id := s.nextSplitId, index := i, count := chunks.length }, priority
        bitLength := chunk.bitLength, payload := chunk.bytes } := by
    intro p hp
    obtain ⟨i, hi⟩ := List.mem_iff_getElem?.mp hp
    obtain ⟨chunk, hchunk, rfl⟩ := Sending.getElem?_fragments hi
    exact ⟨chunk, i, List.mem_of_getElem? hchunk, rfl⟩
  have hparts : s.PostsParts (s.sendParts chunks priority r.asReliable channel) r packets := by
    rw [hsend]
    refine ⟨?_, fun i p hp => ?_, fun p hp => ?_, rfl, by rw [hlength]; rfl⟩
    · rw [hlength, hcount]
      exact Config.two_le_of_over hover hsize hpos
    · obtain ⟨chunk, -, rfl⟩ := Sending.getElem?_fragments hp
      rw [hlength]
    · obtain ⟨chunk, i, -, rfl⟩ := hmem p hp
      exact ⟨rfl, Reliability.isReliable_asReliable r⟩
  refine ⟨packets, ?_, fun other hother => ?_, fun p hp => ?_, fun i p hp => ?_, ?_,
    ⟨place, ?_, fun p hp => ?_⟩, Or.inr ⟨hover, hparts⟩, ?_, ?_, fun p hp => ?_, ?_⟩
  · simp [hsend, enqueue, count, PerPriority.modify]
  · simp [hsend, enqueue, count, PerPriority.modify, hother]
  · obtain ⟨chunk, i, -, rfl⟩ := hmem p hp
    rfl
  · obtain ⟨chunk, -, rfl⟩ := Sending.getElem?_fragments hp
    rfl
  · rw [hsend]
    rfl
  · rw [hsend]
    exact hplaces.of_asReliable
  · obtain ⟨chunk, i, -, rfl⟩ := hmem p hp
    rfl
  · rw [Sending.flatMap_body_fragments, ← hchunks, Chunk.flatMap_used_cut hpos hbits]
  · rw [Sending.total_bitLength_fragments, ← hchunks, Chunk.total_cut hpos]
  · obtain ⟨chunk, i, hchunk, rfl⟩ := hmem p hp
    have hle := (Chunk.mem_cut hpos hbits chunk (hchunks ▸ hchunk)).2.1
    exact Packet.fitsAlone_of_le (Nat.le_trans (Nat.add_le_add_right hle _) hroom)
  · rw [hsend]
    rfl

/-- Sending is atomic and exact. A message is accepted just when the session lives, there are bits to send,
the channel exists and the message fits one frame or not too many. If it is refused, nothing was changed
on the way. If it is accepted, the packets that carry its bits are queued, and that is all. -/
theorem sendBits_exact (s : Session) (hlimit : s.config.maxSplitParts < Limits.largestCount)
    {bitLength : Nat} (hword : bitLength ≤ Limits.largestBitLength) (payload : Bytes) (priority : Priority)
    (r : Reliability) (channel : Nat) :
    let bits := min bitLength (8 * payload.length)
    let length := bytesForBits bits
    let size := s.config.frameBudget - Packet.maxHeaderBytes r.asReliable true
    ((∃ s', s.sendBits payload bitLength priority r channel = .ok s') ↔
      s.isDead = false ∧ 0 < bits ∧ channel < Limits.channels ∧
        (length + Packet.maxHeaderBytes r false ≤ s.config.frameBudget ∨
          0 < size ∧ (length + size - 1) / size ≤ s.config.maxSplitParts)) ∧
    (∀ e, s.sendBits payload bitLength priority r channel = .error e → e ≠ .noRoom ∧
      (Sending.sendBits payload bitLength priority r channel).run s = .error e s) ∧
    ∀ s', s.sendBits payload bitLength priority r channel = .ok s' →
      (Sending.sendBits payload bitLength priority r channel).run s = .ok () s' ∧
      ∃ packets, s.Posts s' payload bits priority r channel packets := by
  intro bits length size
  have hbits : effectiveBits payload bitLength = bits := by
    simp only [effectiveBits, bits]
    omega
  refine ⟨⟨?_, ?_⟩, fun e he => ⟨?_, by rw [Sending.sendBits_eq, he]⟩,
    fun s' hs => ⟨by rw [Sending.sendBits_eq, hs], ?_⟩⟩
  · rintro ⟨s', hs⟩
    obtain ⟨halive, hpos, hchannel, hcases⟩ := sendBits_ok hs
    rw [hbits] at hpos hcases
    refine ⟨halive, hpos, hchannel, ?_⟩
    rcases hcases with ⟨hshape, -⟩ | ⟨_, hshape, -⟩
    · exact Or.inl (Config.shape_whole_iff.mp hshape)
    · obtain ⟨-, rfl, hsize, hparts⟩ := Config.shape_cut_iff.mp hshape
      exact Or.inr ⟨hsize, hparts⟩
  · rintro ⟨halive, hpos, hchannel, hroom⟩
    rw [sendBits_eq_ite, hbits, if_neg (by simp [halive]), if_neg (Nat.ne_of_gt hpos),
      if_neg (Nat.not_le.mpr hchannel)]
    by_cases hfits : length + Packet.maxHeaderBytes r false ≤ s.config.frameBudget
    · rw [Config.shape_whole_iff.mpr hfits]
      exact ⟨_, rfl⟩
    · obtain ⟨hsize, hparts⟩ := hroom.resolve_left hfits
      rw [Config.shape_cut_iff.mpr ⟨Nat.not_le.mp hfits, rfl, hsize, hparts⟩]
      exact ⟨_, rfl⟩
  · rintro rfl
    rw [sendBits_eq_ite] at he
    split_ifs at he
    · cases he
    · cases he
    · cases he
    · cases hshape : s.config.shape (bytesForBits (effectiveBits payload bitLength)) r with
      | error e =>
        rw [hshape] at he
        obtain rfl := Except.error.inj he
        exact Config.shape_ne_noRoom hlimit hshape
      | ok shape =>
        rw [hshape] at he
        cases shape <;> cases he
  · obtain ⟨-, -, -, hcases⟩ := sendBits_ok hs
    rw [hbits] at hcases
    rcases hcases with ⟨hshape, rfl⟩ | ⟨_, hshape, rfl⟩
    · exact posts_sendWhole (Config.shape_whole_iff.mp hshape)
    · exact posts_sendParts (Nat.min_le_right ..) hshape

/-- Over a narrow link 60 bytes are cut and queued on one channel, and refused on one that does not exist. -/
theorem sendBits_exact_narrow :
    let s := Session.new (Config.default.withMtu 64) 0
    let payload := List.replicate 60 7
    s.config.maxSplitParts < Limits.largestCount ∧
      (480 ≤ Limits.largestBitLength ∧
        (Sending.sendBits payload 480 .high .reliableOrdered 32).run s = .error (.invalidChannel 32) s) ∧
      ∃ s', s.sendBits payload 480 .high .reliableOrdered 3 = .ok s' ∧
        ∃ packets, s.Posts s' payload 480 .high .reliableOrdered 3 packets := by
  intro s payload
  have hlimit : s.config.maxSplitParts < Limits.largestCount := by decide
  have hword : 480 ≤ Limits.largestBitLength := by decide
  obtain ⟨-, hrefused, -⟩ := sendBits_exact s hlimit hword payload .high .reliableOrdered 32
  obtain ⟨haccepted, -, hposts⟩ := sendBits_exact s hlimit hword payload .high .reliableOrdered 3
  obtain ⟨s', hs⟩ := haccepted.mpr (by decide)
  exact ⟨hlimit, ⟨hword, (hrefused _ rfl).2⟩, s', hs, (hposts s' hs).2⟩

end Session
end ReliableDatagram
