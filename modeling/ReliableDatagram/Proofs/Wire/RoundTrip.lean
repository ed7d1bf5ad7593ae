import ReliableDatagram.Proofs.Wire.Fields

/-!
# Entries, read back

An entry that is written behind `offset` bits appends `Entry.encoding offset`, of which the padding in
front of the payload depends on the offset. A reader that stands at the same place in a byte reads
the entry from these bits and stops behind them, whatever follows: `Entry.read_of_toBits`.
-/
namespace ReliableDatagram

/-- Bits that are missing from the last byte of so many. -/
def paddingOf (bits : Nat) : Nat := bytesForBits bits * 8 - bits

theorem paddingOf_lt (bits : Nat) : paddingOf bits < 8 := by
  simp only [paddingOf, bytesForBits]
  omega

theorem add_paddingOf_mod (bits : Nat) : (bits + paddingOf bits) % 8 = 0 := by
  simp only [paddingOf, bytesForBits]
  omega

theorem BitWriter.padding_eq (w : BitWriter) : w.padding = paddingOf w.bitLength := by
  have hlt := w.openBits_lt
  simp only [padding, paddingOf, bytesForBits, bitLength, List.isEmpty_iff]
  split_ifs with h
  · simp only [h, List.length_nil]
    omega
  · have := List.length_pos_iff.mpr h
    omega

/-- The bytes are as many as the bits ask for. -/
theorem BitWriter.length_toBytes (w : BitWriter) : w.toBytes.length = bytesForBits w.bitLength := by
  have hlength := congrArg List.length w.ofBytes_toBytes
  rw [Bits.length_ofBytes, List.length_append, length_toBits, List.length_replicate, padding_eq] at hlength
  simp only [paddingOf, bytesForBits] at hlength ⊢
  omega

namespace Packet

/-- What arrives of a packet: the bytes in use, and no priority. -/
def decoded (p : Packet) : Packet := { p with priority := .medium, payload := p.body }

/-- Every field has a form on the wire. The count of parts is a 32-bit word. -/
structure WellFormed (p : Packet) : Prop where
  place_isSome : p.place.isSome = p.reliability.usesChannel
  channel_lt : ∀ place ∈ p.place, place.channel < Limits.channels
  index_lt : ∀ part ∈ p.part, part.index < part.count
  count_lt : ∀ part ∈ p.part, part.count < 2 ^ 32
  bitLength_pos : 0 < p.bitLength
  payloadLength_lt : p.payloadLength < Limits.maximumMtu
  payloadLength_le : p.payloadLength ≤ p.payload.length

instance (p : Packet) : Decidable p.WellFormed :=
  decidable_of_iff (p.place.isSome = p.reliability.usesChannel ∧
      (∀ place ∈ p.place, place.channel < Limits.channels) ∧
      (∀ part ∈ p.part, part.index < part.count) ∧ (∀ part ∈ p.part, part.count < 2 ^ 32) ∧
      0 < p.bitLength ∧ p.payloadLength < Limits.maximumMtu ∧ p.payloadLength ≤ p.payload.length)
    ⟨fun ⟨h₁, h₂, h₃, h₄, h₅, h₆, h₇⟩ => ⟨h₁, h₂, h₃, h₄, h₅, h₆, h₇⟩,
      fun ⟨h₁, h₂, h₃, h₄, h₅, h₆, h₇⟩ => ⟨h₁, h₂, h₃, h₄, h₅, h₆, h₇⟩⟩

def placeBits (p : Packet) : List Bool :=
  if p.reliability.usesChannel then
    Bits.ofNat Limits.channelBits (p.place.getD {}).channel ++ (p.place.getD {}).index.toBits
  else []

def partBits (p : Packet) : List Bool :=
  match p.part with
  | some part =>
    true :: part.id.toBits ++ Compressed.encode partWidth part.index
      ++ Compressed.encode partWidth part.count
  | none => [false]

def encoding (p : Packet) (offset : Nat) : List Bool :=
  p.header ++ List.replicate (paddingOf (offset + p.header.length)) false ++ Bits.ofBytes p.body

theorem header_eq (p : Packet) :
    p.header = p.sequence.toBits ++ (false :: (p.reliability.toBits ++ (p.placeBits ++
      (p.partBits ++ Compressed.encode lengthWidth p.bitLength)))) := by
  show p.sequence.toBits ++ [false] ++ p.reliability.toBits ++ p.placeBits ++ p.partBits ++ _ = _
  simp only [List.append_assoc, List.cons_append, List.nil_append]

theorem toBits_write (p : Packet) (w : BitWriter) :
    (p.write w).toBits = w.toBits ++ p.encoding w.bitLength := by
  have hl : (w.write p.header).bitLength = w.bitLength + p.header.length := by
    rw [← BitWriter.length_toBits, BitWriter.toBits_write, List.length_append,
      BitWriter.length_toBits]
  rw [write, BitWriter.toBits_writeBytes, BitWriter.padding_eq, hl, BitWriter.toBits_write]
  simp [encoding]

theorem encoding_length_mod (p : Packet) (offset : Nat) :
    (offset + (p.encoding offset).length) % 8 = 0 := by
  have := add_paddingOf_mod (offset + p.header.length)
  simp only [encoding, List.length_append, List.length_replicate, Bits.length_ofBytes]
  omega

theorem WellFormed.length_body {p : Packet} (h : p.WellFormed) :
    p.body.length = p.payloadLength := by
  simp [body, h.payloadLength_le]

theorem WellFormed.bitLength_lt {p : Packet} (h : p.WellFormed) : p.bitLength < 2 ^ 16 := by
  have := h.payloadLength_lt
  simp only [payloadLength, bytesForBits, Limits.maximumMtu] at this
  omega

end Packet

namespace Entry

def decoded : Entry → Entry
  | ack s => ack s
  | data p => data p.decoded

def WellFormed : Entry → Prop
  | ack _ => True
  | data p => p.WellFormed

instance : DecidablePred WellFormed
  | ack _ => inferInstanceAs (Decidable True)
  | data p => inferInstanceAs (Decidable p.WellFormed)

def encoding (offset : Nat) : Entry → List Bool
  | ack s => s.toBits ++ [true]
  | data p => p.encoding offset

theorem toBits_write (e : Entry) (w : BitWriter) :
    (e.write w).toBits = w.toBits ++ e.encoding w.bitLength := by
  cases e with
  | ack s => exact BitWriter.toBits_write w _
  | data p => exact p.toBits_write w

theorem le_length_encoding (e : Entry) (offset : Nat) : 17 ≤ (e.encoding offset).length := by
  cases e with
  | ack s => simp [encoding, Counter.toBits]
  | data p =>
    simp only [encoding, Packet.encoding, Packet.header_eq, Counter.toBits, List.length_append,
      List.length_cons, Bits.length_ofNat]
    omega

theorem reads_readPlace {p : Packet} (h : p.WellFormed) :
    Decoder.Reads (readPlace p.reliability) p.placeBits p.place := by
  unfold readPlace Packet.placeBits
  have hsome := h.place_isSome
  by_cases hc : p.reliability.usesChannel = true
  · obtain ⟨place, hplace⟩ := Option.isSome_iff_exists.mp (hsome.trans hc)
    have hchannel : place.channel < 2 ^ Limits.channelBits := h.channel_lt place hplace
    rw [if_pos hc, if_pos hc, hplace, Option.getD_some]
    refine Decoder.Reads.bind (Decoder.reads_readBits hchannel) ?_
    exact (Counter.reads_read place.index).map fun index =>
      some ({ channel := place.channel, index } : Place)
  · rw [Bool.not_eq_true] at hc
    rw [hc] at hsome
    rw [hc, Option.isNone_iff_eq_none.mp (Option.isSome_eq_false_iff.mp hsome)]
    exact Decoder.Reads.pure none

theorem reads_readPart {p : Packet} (h : p.WellFormed) :
    Decoder.Reads readPart p.partBits p.part := by
  unfold readPart Packet.partBits
  cases hp : p.part with
  | none => exact (Decoder.reads_readBit false).bind (Decoder.Reads.pure none)
  | some part =>
    have hindex := h.index_lt part hp
    have hcount := h.count_lt part hp
    have hvalid : ¬(part.count = 0 ∨ part.count ≤ part.index) := by omega
    have hindex' : part.index < 2 ^ (8 * Packet.partWidth) := by
      simp only [Packet.partWidth]
      omega
    have hbits : true :: part.id.toBits ++ Compressed.encode Packet.partWidth part.index
        ++ Compressed.encode Packet.partWidth part.count =
        [true] ++ (part.id.toBits ++ (Compressed.encode Packet.partWidth part.index
          ++ (Compressed.encode Packet.partWidth part.count ++ []))) := by simp
    dsimp only
    rw [hbits]
    refine Decoder.Reads.bind (Decoder.reads_readBit true) ?_
    refine Decoder.Reads.bind (Counter.reads_read part.id) ?_
    refine Decoder.Reads.bind (Compressed.reads_read (by decide) hindex') ?_
    refine Decoder.Reads.bind (Compressed.reads_read (by decide) hcount) ?_
    simp only [if_neg hvalid]
    exact Decoder.Reads.pure _

/-- The sequence number and the flag have been read; what follows is the rest of the packet. -/
theorem readPacket_of_toBits {p : Packet} (h : p.WellFormed) {r : BitReader}
    {pad tail : List Bool} (hpad : pad.length < 8) (htail : tail.length % 8 = 0)
    (hr : r.toBits = p.reliability.toBits ++ (p.placeBits ++ (p.partBits ++
      (Compressed.encode Packet.lengthWidth p.bitLength ++ (pad ++ Bits.ofBytes p.body ++ tail))))) :
    ∃ r', readPacket p.sequence r = .ok p.decoded r' ∧ r'.toBits = tail := by
  obtain ⟨r₁, h₁, t₁⟩ := p.reliability.reads_read r _ hr
  obtain ⟨r₂, h₂, t₂⟩ := reads_readPlace h r₁ _ t₁
  obtain ⟨r₃, h₃, t₃⟩ := reads_readPart h r₂ _ t₂
  obtain ⟨r₄, h₄, t₄⟩ := @Compressed.reads_read Packet.lengthWidth _ (by decide)
    h.bitLength_lt r₃ _ t₃
  obtain ⟨r₅, h₅, t₅⟩ := Decoder.readBytes_of_toBits t₄ hpad htail
  rw [h.length_body] at h₅
  have hlength : ¬(p.bitLength = 0 ∨ Limits.maximumMtu ≤ bytesForBits p.bitLength) := by
    have := h.bitLength_pos
    have := h.payloadLength_lt
    simp only [Packet.payloadLength] at this
    omega
  refine ⟨r₅, ?_, t₅⟩
  unfold readPacket
  rw [Decoder.bind_ok h₁, Decoder.bind_ok h₂, Decoder.bind_ok h₃, Decoder.bind_ok h₄]
  simp only [if_neg hlength]
  exact Decoder.bind_ok h₅

theorem read_of_toBits {e : Entry} (h : e.WellFormed) {r : BitReader} {offset : Nat}
    {tail : List Bool} (hr : r.toBits = e.encoding offset ++ tail)
    (ho : (offset + r.remaining) % 8 = 0) :
    ∃ r', read r = .ok e.decoded r' ∧ r'.toBits = tail := by
  cases e with
  | ack s =>
    rw [encoding, List.append_assoc] at hr
    obtain ⟨r₁, h₁, t₁⟩ := s.reads_read r _ hr
    obtain ⟨r₂, h₂, t₂⟩ := Decoder.reads_readBit true r₁ _ t₁
    refine ⟨r₂, ?_, t₂⟩
    unfold read
    rw [Decoder.bind_ok h₁, Decoder.bind_ok h₂]
    rfl
  | data p =>
    have htail : tail.length % 8 = 0 := by
      have hlen := congrArg List.length hr
      have := p.encoding_length_mod offset
      rw [BitReader.length_toBits, List.length_append] at hlen
      simp only [encoding] at hlen
      omega
    simp only [encoding, Packet.encoding, Packet.header_eq, List.append_assoc,
      List.cons_append] at hr
    obtain ⟨r₁, h₁, t₁⟩ := p.sequence.reads_read r _ hr
    obtain ⟨r₂, h₂, t₂⟩ := Decoder.reads_readBit false r₁ _ t₁
    rw [← List.append_assoc (List.replicate _ _)] at t₂
    obtain ⟨r₃, h₃, t₃⟩ := readPacket_of_toBits h (by simpa using paddingOf_lt _) htail t₂
    refine ⟨r₃, ?_, t₃⟩
    unfold read
    rw [Decoder.bind_ok h₁, Decoder.bind_ok h₂]
    exact Decoder.bind_ok h₃

theorem built_readPlace (r : Reliability) : Decoder.Built (readPlace r) := by
  refine .ite ?_ (.pure none)
  exact (Decoder.Built.readBits Limits.channelBits).bind fun channel =>
    Counter.built_read.bind fun (index : OrderingIndex) => .pure (some ({ channel, index } : Place))

theorem built_readPart : Decoder.Built readPart := by
  refine Decoder.Built.readBit.bind fun b => .ite ?_ (.pure none)
  refine Counter.built_read.bind fun id => (Compressed.built_read Packet.partWidth).bind fun index =>
    (Compressed.built_read Packet.partWidth).bind fun count => .ite ?_ (.pure _)
  exact (Decoder.Built.throw _).bind fun _ => .pure _

theorem built_readPacket (s : SequenceNumber) : Decoder.Built (readPacket s) := by
  refine Reliability.built_read.bind fun r => (built_readPlace r).bind fun place =>
    built_readPart.bind fun part => (Compressed.built_read Packet.lengthWidth).bind fun bitLength =>
      .ite ?_ ?_
  · exact (Decoder.Built.throw _).bind fun _ => (Decoder.Built.readBytes _).bind fun _ => .pure _
  · exact (Decoder.Built.readBytes _).bind fun _ => .pure _

theorem built_readBody (s : SequenceNumber) (b : Bool) :
    Decoder.Built (if b then return ack s else return data (← readPacket s) : Decoder Entry) :=
  .ite (.pure _) ((built_readPacket s).bind fun _ => .pure _)

theorem built_read : Decoder.Built read :=
  Counter.built_read.bind fun s => Decoder.Built.readBit.bind fun b => built_readBody s b

/-- Whatever a datagram holds, an entry takes seventeen bits at least. -/
theorem shortens_read : Decoder.Shortens read 17 :=
  Counter.shortens_read.bind (n := 1) fun s =>
    Decoder.shortens_readBit.bind_left fun b => (built_readBody s b).shortens

end Entry
end ReliableDatagram
