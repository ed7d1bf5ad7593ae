import Mathlib.Data.List.Nodup
import Mathlib.Data.List.Perm.Subperm
import ReliableDatagram.Proofs.Counting
import ReliableDatagram.Proofs.Sending.Chunks
import ReliableDatagram.Proofs.Wire.RoundTrip
import ReliableDatagram.Session.State

/-!
# Messages on their way

A `Shipment` is an accepted message as it travels: its chunks, one packet for each of them, numbered
without gap from `first` on, and the delivery that a receiver is to make of them. A `Manifest` is all
that a sender has accepted, in order. Its counters never wrap in the text below, so numbers, places on
a channel and split ids are plain naturals, and each of them names one shipment.
-/
namespace ReliableDatagram

/-- Of two ascending lists, one that lies within the other and is no shorter is the same. -/
theorem eq_of_ascending {α : Type} {f : α → Nat} {l l' : List α} (hsub : l ⊆ l')
    (hl : l.Pairwise fun x y => f x < f y) (hl' : l'.Pairwise fun x y => f x < f y)
    (hlen : l'.length ≤ l.length) : l = l' := by
  have hnodup : l.Nodup := hl.imp fun h he => Nat.ne_of_lt h (congrArg f he)
  have hperm : l.Perm l' := (hnodup.subperm hsub).perm_of_length_le hlen
  refine hperm.eq_of_pairwise ?_ hl hl'
  intro x y _ _ hxy hyx
  exact absurd hxy (Nat.lt_asymm hyx)

structure Shipment where
  /-- The number of the first packet. -/
  first : Nat
  /-- The mode in which the packets travel. -/
  reliability : Reliability
  channel : Nat
  /-- The place among the messages of its kind on the channel. -/
  index : Nat
  splitId : Option Nat
  priority : Priority
  chunks : List Chunk
  chunks_ne_nil : chunks ≠ []
  length_of_whole : splitId = none → chunks.length = 1
  isReliable_of_split : splitId ≠ none → reliability.isReliable = true
  channel_lt : channel < Limits.channels
  total_le : total Chunk.bitLength chunks ≤ Limits.largestBitLength
  chunk_fits : ∀ c ∈ chunks, 0 < c.bitLength ∧ bytesForBits c.bitLength < Limits.maximumMtu ∧
    bytesForBits c.bitLength ≤ c.bytes.length

namespace Shipment

variable (m : Shipment)

def size : Nat := m.chunks.length

/-- The packet with this number belongs to the shipment. -/
def Owns (n : Nat) : Prop := m.first ≤ n ∧ n < m.first + m.size

def place : Option Place :=
  if m.reliability.usesChannel then some { channel := m.channel, index := .ofNat m.index } else none

def packet (j : Nat) (c : Chunk) : Packet :=
  { sequence := .ofNat (m.first + j)
    reliability := m.reliability
    place := m.place
    part := m.splitId.map fun id => { id := .ofNat id, index := j, count := m.size }
    priority := m.priority
    bitLength := c.bitLength
    payload := c.bytes }

def packets : List Packet := m.chunks.zipIdx.map fun (c, j) => m.packet j c

/-- What a receiver is to make of the shipment. -/
def delivery : Delivery :=
  { payload := m.chunks.flatMap Chunk.used
    bitLength := total Chunk.bitLength m.chunks
    reliability := m.reliability
    channel := (m.place.map (·.channel)).getD 0 }

/-- The packets as they arrive, each under its part number. -/
def parts : List (Nat × Packet) := m.chunks.zipIdx.map fun (c, j) => (j, (m.packet j c).decoded)

theorem size_pos : 0 < m.size := List.length_pos_iff.mpr m.chunks_ne_nil

theorem owns_first : m.Owns m.first := ⟨Nat.le_refl _, Nat.lt_add_of_pos_right m.size_pos⟩

variable {m}

theorem mem_packets {p : Packet} :
    p ∈ m.packets ↔ ∃ j c, m.chunks[j]? = some c ∧ p = m.packet j c := by
  simp only [packets, List.mem_map, Prod.exists, List.mem_zipIdx_iff_getElem?]
  constructor
  · rintro ⟨c, j, hc, rfl⟩
    exact ⟨j, c, hc, rfl⟩
  · rintro ⟨j, c, hc, rfl⟩
    exact ⟨c, j, hc, rfl⟩

theorem lt_size {j : Nat} {c : Chunk} (h : m.chunks[j]? = some c) : j < m.size :=
  (List.getElem?_eq_some_iff.mp h).1

theorem owns_add {j : Nat} (h : j < m.size) : m.Owns (m.first + j) := by
  simp only [Owns]
  omega

theorem exists_chunk {n : Nat} (h : m.Owns n) : ∃ j c, m.chunks[j]? = some c ∧ n = m.first + j := by
  obtain ⟨j, rfl⟩ := Nat.exists_eq_add_of_le h.1
  have hj : j < m.chunks.length := Nat.lt_of_add_lt_add_left h.2
  exact ⟨j, m.chunks[j], List.getElem?_eq_getElem hj, rfl⟩

theorem size_lt : m.size < 2 ^ 32 := by
  have h₁ := Chunk.length_le_total fun c hc => (m.chunk_fits c hc).1
  have h₂ := m.total_le
  simp only [Limits.largestBitLength, size] at h₁ h₂ ⊢
  omega

theorem wellFormed_packet {j : Nat} {c : Chunk} (h : m.chunks[j]? = some c) :
    (m.packet j c).WellFormed := by
  obtain ⟨hpos, hlt, hle⟩ := m.chunk_fits c (List.mem_of_getElem? h)
  refine ⟨?_, ?_, ?_, ?_, hpos, hlt, hle⟩
  · simp only [packet, place]
    split_ifs with hu <;> simp [hu]
  · intro place hplace
    simp only [packet, Shipment.place, Option.mem_def] at hplace
    split_ifs at hplace
    cases hplace
    exact m.channel_lt
  · intro part hpart
    obtain ⟨id, -, rfl⟩ := Option.map_eq_some_iff.mp hpart
    exact lt_size h
  · intro part hpart
    obtain ⟨id, -, rfl⟩ := Option.map_eq_some_iff.mp hpart
    exact size_lt

theorem body_packet (j : Nat) (c : Chunk) : (m.packet j c).body = c.used := rfl

theorem body_decoded (p : Packet) : p.decoded.body = p.body := by
  simp [Packet.body, Packet.decoded, Packet.payloadLength, List.take_take]

theorem ofPacket_whole {c : Chunk} (h : m.splitId = none) (hc : m.chunks[0]? = some c) :
    Delivery.ofPacket (m.packet 0 c).decoded = m.delivery := by
  have hone : m.chunks = [c] := by
    obtain ⟨d, hd⟩ := List.length_eq_one_iff.mp (m.length_of_whole h)
    rw [hd] at hc ⊢
    simpa using hc
  simp only [Delivery.ofPacket, delivery, Packet.decoded, body_packet, hone]
  simp [packet]

@[simp] theorem length_parts : m.parts.length = m.size := by simp [parts, size]

theorem map_fst_parts : m.parts.map Prod.fst = List.range m.size := by
  rw [parts, List.map_map, List.range_eq_range']
  exact List.zipIdx_map_snd 0 m.chunks

theorem parts_pairwise : m.parts.Pairwise fun x y => x.1 < y.1 := by
  rw [← List.pairwise_map, map_fst_parts]
  exact List.pairwise_lt_range

theorem mem_parts {x : Nat × Packet} :
    x ∈ m.parts ↔ ∃ c, m.chunks[x.1]? = some c ∧ x.2 = (m.packet x.1 c).decoded := by
  obtain ⟨j, p⟩ := x
  simp only [parts, List.mem_map, Prod.exists, List.mem_zipIdx_iff_getElem?, Prod.mk.injEq]
  constructor
  · rintro ⟨c, j, hc, rfl, rfl⟩
    exact ⟨c, hc, rfl⟩
  · rintro ⟨c, hc, rfl⟩
    exact ⟨c, j, hc, rfl, rfl⟩

/-- Ascending parts of a shipment, as many as it has, are all of them. -/
theorem eq_parts {l : List (Nat × Packet)} (hmem : ∀ x ∈ l, x ∈ m.parts)
    (hsorted : l.Pairwise fun x y => x.1 < y.1) (hlen : m.size ≤ l.length) : l = m.parts :=
  eq_of_ascending hmem hsorted parts_pairwise (by rwa [length_parts])

theorem total_parts : total (·.2.bitLength) m.parts = total Chunk.bitLength m.chunks := by
  have key : ∀ (l : List Chunk) (k : Nat), total (fun x : Nat × Packet => x.2.bitLength)
      ((l.zipIdx k).map fun (c, j) => (j, (m.packet j c).decoded)) = total Chunk.bitLength l := by
    intro l
    induction l with
    | nil => intro k; rfl
    | cons c l ih =>
      intro k
      rw [List.zipIdx_cons, List.map_cons, total_cons, total_cons, ih]
      rfl
  exact key m.chunks 0

theorem flatMap_body_parts : m.parts.flatMap (·.2.body) = m.chunks.flatMap Chunk.used := by
  have key : ∀ (l : List Chunk) (k : Nat), List.flatMap (fun x : Nat × Packet => x.2.body)
      ((l.zipIdx k).map fun (c, j) => (j, (m.packet j c).decoded)) = l.flatMap Chunk.used := by
    intro l
    induction l with
    | nil => intro k; rfl
    | cons c l ih =>
      intro k
      rw [List.zipIdx_cons, List.map_cons, List.flatMap_cons, List.flatMap_cons, ih, body_decoded]
      rfl
  exact key m.chunks 0

/-- All parts together make the delivery. -/
theorem assemble_parts :
    ∃ whole, FragmentGroup.assemble m.parts = some whole ∧ Delivery.ofPacket whole = m.delivery := by
  obtain ⟨c, rest, hc⟩ := List.exists_cons_of_ne_nil m.chunks_ne_nil
  have hcons : ∃ tail, m.parts = (0, (m.packet 0 c).decoded) :: tail := by
    rw [parts, hc]
    exact ⟨_, rfl⟩
  obtain ⟨tail, htail⟩ := hcons
  have hmod : total Chunk.bitLength m.chunks % (Limits.largestBitLength + 1) =
      total Chunk.bitLength m.chunks := Nat.mod_eq_of_lt (Nat.lt_succ_of_le m.total_le)
  refine ⟨_, by rw [htail, FragmentGroup.assemble], ?_⟩
  rw [← htail]
  simp only [Delivery.ofPacket, delivery, total_parts, flatMap_body_parts, hmod, packet,
    Packet.decoded]

end Shipment

/-- The modes and channels of which the messages stand in one order. -/
def Reliability.isOrderedOn (r : Reliability) (channel c : Nat) : Bool :=
  r.isOrdered && channel == c

def Reliability.isSequencedOn (r : Reliability) (channel c : Nat) : Bool :=
  r.isSequenced && channel == c

theorem Reliability.not_isSequenced_of_isOrdered {r : Reliability} (h : r.isOrdered = true) :
    r.isSequenced = false := by
  cases r <;> simp_all [isOrdered, isSequenced]

theorem Reliability.not_isOrdered_of_isSequenced {r : Reliability} (h : r.isSequenced = true) :
    r.isOrdered = false := by
  cases r <;> simp_all [isOrdered, isSequenced]

namespace Shipment

def isOrderedOn (c : Nat) (m : Shipment) : Bool := m.reliability.isOrderedOn m.channel c

def isSequencedOn (c : Nat) (m : Shipment) : Bool := m.reliability.isSequencedOn m.channel c

/-- The numbers that a sender takes next, behind all that it has accepted. -/
structure Follows (m : Shipment) (ms : List Shipment) : Prop where
  first_eq : m.first = total size ms
  ordered : m.reliability.isOrdered = true → m.index = ms.countP (isOrderedOn m.channel)
  sequenced : m.reliability.isSequenced = true → m.index = ms.countP (isSequencedOn m.channel)
  splitId_eq : ∀ id, m.splitId = some id → id = ms.countP (·.splitId.isSome)

end Shipment

/-- All that a sender has accepted, in order. -/
inductive Manifest : List Shipment → Prop
  | nil : Manifest []
  | snoc {ms : List Shipment} {m : Shipment} (h : Manifest ms) (hm : m.Follows ms) :
      Manifest (ms ++ [m])

namespace Manifest

variable {ms : List Shipment}

theorem last_le (h : Manifest ms) : ∀ m ∈ ms, m.first + m.size ≤ total Shipment.size ms := by
  induction h with
  | nil => simp
  | snoc h hm ih =>
    intro m' hm'
    rw [total_append, total_cons, total_nil]
    rcases List.mem_append.mp hm' with hmem | hmem
    · have := ih m' hmem
      omega
    · obtain rfl := List.mem_singleton.mp hmem
      have := hm.first_eq
      omega

theorem lt_total (h : Manifest ms) {m : Shipment} (hm : m ∈ ms) {n : Nat} (hn : m.Owns n) :
    n < total Shipment.size ms :=
  Nat.lt_of_lt_of_le hn.2 (h.last_le m hm)

theorem eq_of_owns (h : Manifest ms) {m m' : Shipment} (hm : m ∈ ms) (hm' : m' ∈ ms) {n : Nat}
    (hn : m.Owns n) (hn' : m'.Owns n) : m = m' := by
  induction h with
  | nil => simp at hm
  | snoc h hlast ih =>
    have hfirst := hlast.first_eq
    rcases List.mem_append.mp hm with hl | hl <;> rcases List.mem_append.mp hm' with hr | hr
    · exact ih hl hr
    · obtain rfl := List.mem_singleton.mp hr
      have := h.lt_total hl hn
      have := hn'.1
      omega
    · obtain rfl := List.mem_singleton.mp hl
      have := h.lt_total hr hn'
      have := hn.1
      omega
    · rw [List.mem_singleton.mp hl, List.mem_singleton.mp hr]

theorem nodup (h : Manifest ms) : ms.Nodup := by
  induction h with
  | nil => exact List.nodup_nil
  | snoc h hm ih =>
    refine List.nodup_append.mpr ⟨ih, by simp, ?_⟩
    rintro a ha b hb rfl
    obtain rfl := List.mem_singleton.mp hb
    have := h.lt_total ha a.owns_first
    have := hm.first_eq
    omega

theorem exists_owner (h : Manifest ms) {n : Nat} (hn : n < total Shipment.size ms) :
    ∃ m ∈ ms, m.Owns n := by
  induction h with
  | nil => simp at hn
  | @snoc ms last h hlast ih =>
    rw [total_append, total_cons, total_nil] at hn
    rcases Nat.lt_or_ge n (total Shipment.size ms) with hlt | hge
    · obtain ⟨m, hm, ho⟩ := ih hlt
      exact ⟨m, by simp [hm], ho⟩
    · have := hlast.first_eq
      exact ⟨last, by simp, by omega, by omega⟩

/-- The packets are numbered without gap. -/
theorem map_sequence (h : Manifest ms) : (ms.flatMap Shipment.packets).map (·.sequence) =
    (List.range (total Shipment.size ms)).map Counter.ofNat := by
  induction h with
  | nil => rfl
  | @snoc ms m h hm ih =>
    have hpackets : m.packets.map (·.sequence) =
        (List.range m.size).map fun j => Counter.ofNat (total Shipment.size ms + j) := by
      rw [List.range_eq_range', Shipment.size, ← List.zipIdx_map_snd 0 m.chunks, List.map_map,
        Shipment.packets, List.map_map, ← hm.first_eq]
      rfl
    rw [List.flatMap_append, List.map_append, ih, total_append, total_cons, total_nil, Nat.add_zero,
      List.range_add, List.map_append, List.map_map, List.flatMap_singleton, hpackets]
    rfl

theorem nodup_sequences (h : Manifest ms) (hperiod : total Shipment.size ms ≤ Counter.period) :
    ((ms.flatMap Shipment.packets).map (·.sequence)).Nodup := by
  rw [h.map_sequence]
  refine List.Nodup.map_on (fun j hj k hk hjk => ?_) List.nodup_range
  rw [List.mem_range] at hj hk
  exact Counter.eq_of_ofNat_eq (by omega) (by omega) hjk

/-- A packet that has arrived is one part of one shipment. -/
theorem eq_of_parts (h : Manifest ms) (hspan : total Shipment.size ms ≤ Counter.span)
    {m m' : Shipment} (hm : m ∈ ms) (hm' : m' ∈ ms) {x x' : Nat × Packet} (hx : x ∈ m.parts)
    (hx' : x' ∈ m'.parts) (heq : x.2 = x'.2) : m = m' ∧ x.1 = x'.1 := by
  obtain ⟨c, hc, hxc⟩ := Shipment.mem_parts.mp hx
  obtain ⟨c', hc', hxc'⟩ := Shipment.mem_parts.mp hx'
  have hown := Shipment.owns_add (Shipment.lt_size hc)
  have hown' := Shipment.owns_add (Shipment.lt_size hc')
  have hlt := h.lt_total hm hown
  have hlt' := h.lt_total hm' hown'
  have hsequence : (.ofNat (m.first + x.1) : SequenceNumber) = .ofNat (m'.first + x'.1) := by
    rw [hxc, hxc'] at heq
    exact congrArg Packet.sequence heq
  have hnumber := (Counter.ofNat_inj (by omega) (by omega)).mp hsequence
  obtain rfl := h.eq_of_owns hm hm' hown (hnumber ▸ hown')
  exact ⟨rfl, by omega⟩

/-- The shipments of one order are counted without gap. -/
theorem map_index_filter (h : Manifest ms) {p : Shipment → Bool}
    (hp : ∀ m front, p m = true → m.Follows front → m.index = front.countP p) :
    (ms.filter p).map Shipment.index = List.range (ms.countP p) := by
  induction h with
  | nil => rfl
  | @snoc ms last h hlast ih =>
    rw [List.filter_append, List.map_append, ih, List.countP_append]
    by_cases hpl : p last = true
    · simp [hpl, hp last ms hpl hlast, List.range_succ]
    · simp [hpl]

theorem index_ordered {m : Shipment} {front : List Shipment} {c : Nat}
    (hm : m.isOrderedOn c = true) (h : m.Follows front) :
    m.index = front.countP (Shipment.isOrderedOn c) := by
  simp only [Shipment.isOrderedOn, Reliability.isOrderedOn, Bool.and_eq_true, beq_iff_eq] at hm
  obtain ⟨hr, rfl⟩ := hm
  exact h.ordered hr

theorem index_sequenced {m : Shipment} {front : List Shipment} {c : Nat}
    (hm : m.isSequencedOn c = true) (h : m.Follows front) :
    m.index = front.countP (Shipment.isSequencedOn c) := by
  simp only [Shipment.isSequencedOn, Reliability.isSequencedOn, Bool.and_eq_true, beq_iff_eq] at hm
  obtain ⟨hr, rfl⟩ := hm
  exact h.sequenced hr

theorem map_index_ordered (h : Manifest ms) (c : Nat) :
    (ms.filter (Shipment.isOrderedOn c)).map Shipment.index =
      List.range (ms.countP (Shipment.isOrderedOn c)) :=
  h.map_index_filter fun _ _ => index_ordered

theorem map_index_sequenced (h : Manifest ms) (c : Nat) :
    (ms.filter (Shipment.isSequencedOn c)).map Shipment.index =
      List.range (ms.countP (Shipment.isSequencedOn c)) :=
  h.map_index_filter fun _ _ => index_sequenced

/-- What is older among the sequenced messages of a channel has the lower numbers. -/
theorem last_le_first (h : Manifest ms) {m m' : Shipment} (hm : m ∈ ms) (hm' : m' ∈ ms) {c : Nat}
    (hc : m.isSequencedOn c = true) (hc' : m'.isSequencedOn c = true) (hlt : m.index < m'.index) :
    m.first + m.size ≤ m'.first := by
  induction h with
  | nil => simp at hm
  | snoc h hlast ih =>
    rcases List.mem_append.mp hm with hl | hl <;> rcases List.mem_append.mp hm' with hr | hr
    · exact ih hl hr
    · obtain rfl := List.mem_singleton.mp hr
      rw [hlast.first_eq]
      exact h.last_le m hl
    · obtain rfl := List.mem_singleton.mp hl
      have hmem := List.mem_map_of_mem (f := Shipment.index) (List.mem_filter.mpr ⟨hr, hc'⟩)
      rw [h.map_index_sequenced, List.mem_range] at hmem
      rw [index_sequenced hc hlast] at hlt
      omega
    · rw [List.mem_singleton.mp hl, List.mem_singleton.mp hr] at hlt
      exact absurd hlt (Nat.lt_irrefl _)

theorem length_le_total (ms : List Shipment) : ms.length ≤ total Shipment.size ms := by
  induction ms with
  | nil => simp
  | cons m ms ih =>
    have := m.size_pos
    simp only [List.length_cons, total_cons]
    omega

theorem countP_le_total (p : Shipment → Bool) (ms : List Shipment) :
    ms.countP p ≤ total Shipment.size ms :=
  Nat.le_trans List.countP_le_length (length_le_total ms)

theorem splitId_lt (h : Manifest ms) {m : Shipment} (hm : m ∈ ms) {id : Nat}
    (hid : m.splitId = some id) : id < ms.countP (·.splitId.isSome) := by
  induction h with
  | nil => simp at hm
  | @snoc ms last h hlast ih =>
    rw [List.countP_append]
    rcases List.mem_append.mp hm with hm | hm
    · have := ih hm
      omega
    · obtain rfl := List.mem_singleton.mp hm
      rw [hlast.splitId_eq id hid]
      simp [hid]

theorem eq_of_splitId (h : Manifest ms) {m m' : Shipment} (hm : m ∈ ms) (hm' : m' ∈ ms) {id : Nat}
    (hid : m.splitId = some id) (hid' : m'.splitId = some id) : m = m' := by
  induction h with
  | nil => simp at hm
  | snoc h hlast ih =>
    rcases List.mem_append.mp hm with hl | hl <;> rcases List.mem_append.mp hm' with hr | hr
    · exact ih hl hr
    · obtain rfl := List.mem_singleton.mp hr
      have := h.splitId_lt hl hid
      have := hlast.splitId_eq id hid'
      omega
    · obtain rfl := List.mem_singleton.mp hl
      have := h.splitId_lt hr hid'
      have := hlast.splitId_eq id hid
      omega
    · rw [List.mem_singleton.mp hl, List.mem_singleton.mp hr]

end Manifest
end ReliableDatagram
