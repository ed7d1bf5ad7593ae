import Mathlib.Data.List.Basic
import ReliableDatagram.Proofs.Wire.Decoded
import ReliableDatagram.Proofs.Wire.Sizes

/-!
# Written again

A datagram need not come from a `FrameBuilder`: numbers may stand in more bits than they need, and padding
may hold anything. What is read from it can be written again all the same, and in no more room. The writer
is never ahead of the reader (`Decoder.StaysAhead`), since it takes the shortest form of every number and
aligns no later. For the same reason every entry has room in a frame of its own.
-/
namespace ReliableDatagram

namespace Decoder

variable {α β : Type} {total offset : Nat} {d : Decoder α} {f : α → Decoder β} {fin mid : α → Nat}

/-- Of `total` bits the reader has left no more than a writer that stands at `offset`. When it has read `a`,
the same is true of the writer that has written `a` and stands at `fin a`. -/
def StaysAhead (total offset : Nat) (d : Decoder α) (fin : α → Nat) : Prop :=
  ∀ (r : BitReader) (a : α) (r' : BitReader), offset + r.remaining ≤ total → d r = .ok a r' →
    fin a + r'.remaining ≤ total

theorem StaysAhead.pure {a : α} (h : fin a ≤ offset) :
    StaysAhead total offset (Pure.pure a : Decoder α) fin := by
  intro r b r' hr hread
  cases hread
  omega

theorem StaysAhead.bind {fin : β → Nat} (hd : StaysAhead total offset d mid)
    (hf : ∀ a, StaysAhead total (mid a) (f a) fin) : StaysAhead total offset (d >>= f) fin := by
  intro r b r' hr hread
  obtain ⟨a, r₁, h₁, h₂⟩ := of_bind_ok hread
  exact hf a r₁ b r' (hd r a r₁ hr h₁) h₂

/-- Behind an error nothing is read. -/
theorem StaysAhead.throw_bind {fin : β → Nat} (e : Malformed) :
    StaysAhead total offset ((throw e : Decoder α) >>= f) fin := by
  intro r b r' hr hread
  obtain ⟨a, r₁, hthrow, -⟩ := of_bind_ok hread
  cases hthrow

theorem StaysAhead.ite {c : Prop} [Decidable c] {d' : Decoder α} (hd : StaysAhead total offset d fin)
    (hd' : StaysAhead total offset d' fin) : StaysAhead total offset (if c then d else d') fin := by
  split
  · exact hd
  · exact hd'

/-- The writer may use what is known of the value that was read. -/
theorem StaysAhead.of_yields {P : α → Prop} (h : StaysAhead total offset d mid) (hd : Yields d P)
    (hle : ∀ a, P a → fin a ≤ mid a) : StaysAhead total offset d fin := by
  intro r a r' hr hread
  have hmid := h r a r' hr hread
  have hfin := hle a (hd r a r' hread)
  omega

theorem Shortens.staysAhead {n : Nat} (h : Shortens d n) :
    StaysAhead total offset d fun _ => offset + n := by
  intro r a r' hr hread
  have hless := h r a r' hread
  show offset + n + r'.remaining ≤ total
  omega

/-- Both sides go on at the next whole byte. -/
theorem staysAhead_readBytes (htotal : total % 8 = 0) (count : Nat) :
    StaysAhead total offset (readBytes count) fun _ => bytesForBits offset * 8 + count * 8 := by
  intro r data r' hr hread
  simp only [readBytes] at hread
  split at hread
  · rename_i hlength
    cases hread
    simp only [List.length_take] at hlength
    simp only [BitReader.remaining, bytesForBits, List.length_drop, List.length_nil] at hr ⊢
    omega
  · cases hread

end Decoder

namespace Compressed

variable {total offset : Nat}

theorem shortens_readOctets (n value : Nat) : Decoder.Shortens (readOctets n value) (8 * n) := by
  induction n generalizing value with
  | zero => exact Decoder.Shortens.pure value
  | succ n ih =>
    have hstep := (Decoder.shortens_readBits 8).bind fun b => ih (256 * value + b)
    rwa [Nat.add_comm 8, ← Nat.mul_succ] at hstep

theorem size_succ_of_lt {n value : Nat} (hn : 0 < n) (h : value < 256 ^ n) :
    size (n + 1) value = size n value + 1 := by
  have hpow : 256 ^ n = 2 ^ (8 * n) := (Nat.pow_mul 2 8 n).symm
  rw [hpow] at h
  have hnext : value < 2 ^ (8 * (n + 1)) :=
    Nat.lt_of_lt_of_le h (Nat.pow_le_pow_right (by decide) (by omega))
  apply size_succ_of_eq hn
  rw [Nat.mod_eq_of_lt hnext, Nat.mod_eq_of_lt h]

/-- A number is written in the shortest of all the forms that are read as it. -/
theorem staysAhead_read {width : Nat} (hw : 0 < width) :
    Decoder.StaysAhead total offset (read width) fun v => offset + size width v := by
  fun_induction read width generalizing offset with
  | case1 => omega
  | case2 =>
    refine Decoder.shortens_readBit.staysAhead.bind fun b => .ite ?_ ?_
    · refine (Decoder.shortens_readBits 4).staysAhead.of_yields (Decoder.yields_readBits 4) fun v hv => ?_
      have hsmall : v % 2 ^ (8 * 1) < 16 := Nat.lt_of_le_of_lt (Nat.mod_le ..) hv
      rw [size_of_lt hsmall]
    · refine (Decoder.shortens_readBits 8).staysAhead.of_yields (Decoder.yields_any _) fun v _ => ?_
      have hsize := size_le Nat.one_pos v
      omega
  | case3 n ih =>
    refine Decoder.shortens_readBit.staysAhead.bind fun b => .ite ?_ ?_
    · refine (ih (Nat.add_one_pos n)).of_yields (yields_read (Nat.add_one_pos n)) fun v hv => ?_
      have hsize := size_succ_of_lt (Nat.add_one_pos n) hv
      show offset + size (n + 1 + 1) v ≤ offset + 1 + size (n + 1) v
      omega
    · refine (shortens_readOctets (n + 2) 0).staysAhead.of_yields (Decoder.yields_any _) fun v _ => ?_
      have hsize := size_le (show 0 < n + 2 by omega) v
      show offset + size (n + 2) v ≤ offset + 1 + 8 * (n + 2)
      omega

end Compressed

theorem Reliability.shortens_read : Decoder.Shortens read width :=
  (Decoder.shortens_readBits width).bind_left fun n => (built_ofCode n).shortens

namespace Entry

variable {total offset : Nat}

theorem staysAhead_readPlace (r : Reliability) : Decoder.StaysAhead total offset (readPlace r) fun _ =>
    offset + if r.usesChannel then Limits.channelBits + 16 else 0 := by
  unfold readPlace
  split
  · refine (Decoder.shortens_readBits Limits.channelBits).staysAhead.bind fun channel =>
      Counter.shortens_read.staysAhead.bind fun (index : OrderingIndex) => .pure ?_
    omega
  · exact .pure (Nat.le_refl _)

theorem staysAhead_readPart : Decoder.StaysAhead total offset readPart fun part? =>
    offset + 1 + match part? with
      | some part => 16 + Compressed.size Packet.partWidth part.index
          + Compressed.size Packet.partWidth part.count
      | none => 0 := by
  have hwidth : 0 < Packet.partWidth := by decide
  unfold readPart
  refine Decoder.shortens_readBit.staysAhead.bind fun b => .ite ?_ (.pure (Nat.le_refl _))
  refine Counter.shortens_read.staysAhead.bind fun (id : SplitId) =>
    (Compressed.staysAhead_read hwidth).bind fun index =>
      (Compressed.staysAhead_read hwidth).bind fun count => .ite (.throw_bind _) (.pure ?_)
  show offset + 1 + (16 + Compressed.size _ index + Compressed.size _ count) ≤ _
  omega

/-- The header and the payload of a packet, behind its number and its flag. -/
theorem staysAhead_readPacket (htotal : total % 8 = 0) (s : SequenceNumber) :
    Decoder.StaysAhead total (offset + Limits.ackBits) (readPacket s) fun p =>
      offset + p.bitsAt offset := by
  unfold readPacket
  refine Reliability.shortens_read.staysAhead.bind fun r => (staysAhead_readPlace r).bind fun place =>
    staysAhead_readPart.bind fun part => (Compressed.staysAhead_read (by decide)).bind fun bitLength =>
      .ite (.throw_bind _) ((Decoder.staysAhead_readBytes htotal _).bind fun payload => .pure ?_)
  simp only [Packet.bitsAt, Packet.headerBits, Packet.fixedHeaderBits, Packet.payloadLength, bytesForBits]
  cases part with
  | none => dsimp only; omega
  | some part => dsimp only; omega

/-- An entry that is written again ends no further than where it was read. -/
theorem staysAhead_read (htotal : total % 8 = 0) :
    Decoder.StaysAhead total offset read fun e => offset + e.bitsAt offset := by
  unfold read
  refine Counter.shortens_read.staysAhead.bind fun s => Decoder.shortens_readBit.staysAhead.bind fun b =>
    .ite (.pure ?_) ((staysAhead_readPacket htotal s).bind fun p => .pure (Nat.le_refl _))
  exact Nat.le_refl _

end Entry

namespace FrameReader

variable {total : Nat}

/-- An entry that a reader has given is written again behind `offset` bits without getting ahead of it. -/
theorem le_of_next?_ok (htotal : total % 8 = 0) {r r' : FrameReader} {e : Entry} {offset : Nat}
    (h : r.next? = some (.ok e, r')) (hr : offset + r.bits.remaining ≤ total) :
    offset + e.bitsAt offset + r'.bits.remaining ≤ total :=
  Entry.staysAhead_read htotal r.bits e r'.bits hr (next?_eq_ok_iff.mp h).2.2.1

/-- A builder with as many bits left as the reader takes all that the reader gives. -/
theorem pushAll_drain (r : FrameReader) {f : FrameBuilder} (hcapacity : f.capacity % 8 = 0)
    (hr : f.bitLength + r.bits.remaining ≤ f.capacity) :
    (∀ taken ∈ (f.pushAll r.drain.1).1, taken = true) ∧
      (f.pushAll r.drain.1).2.bitLength ≤ f.capacity := by
  induction r using next?_induction generalizing f with
  | last r h =>
    simp only [drain_of_next?_none h, FrameBuilder.pushAll]
    exact ⟨by simp, by omega⟩
  | malformed r r' e h =>
    simp only [drain_of_next?_error h, FrameBuilder.pushAll]
    exact ⟨by simp, by omega⟩
  | entry r r' e h ih =>
    have hahead := le_of_next?_ok hcapacity h hr
    have hfits : f.fits e = true := by
      apply decide_eq_true
      show e.bitsAt f.bitLength ≤ f.capacity - f.bitLength
      omega
    have hpushed := f.bitLength_push (wellFormed_of_next?_ok h).1.backed
    obtain ⟨htaken, hlength⟩ := ih (f := f.push e) hcapacity (by rw [hpushed]; exact hahead)
    simp only [drain_of_next?_ok h, FrameBuilder.pushAll, hfits, if_true]
    refine ⟨fun taken hmem => ?_, hlength⟩
    rcases List.mem_cons.mp hmem with rfl | hmem
    · rfl
    · exact htaken taken hmem

/-- Alone in a frame, an entry takes no more bits than where it was read. -/
theorem bitsAt_le_of_mem_drain (r : FrameReader) {total : Nat} (htotal : total % 8 = 0)
    (hr : r.bits.remaining ≤ total) {e : Entry} (he : e ∈ r.drain.1) : e.bitsAt 0 ≤ total := by
  induction r using next?_induction with
  | last r h =>
    rw [drain_of_next?_none h] at he
    cases he
  | malformed r r' error h =>
    rw [drain_of_next?_error h] at he
    cases he
  | entry r r' e' h ih =>
    have hahead : 0 + e'.bitsAt 0 + r'.bits.remaining ≤ total := le_of_next?_ok htotal h (by omega)
    rw [drain_of_next?_ok h] at he
    rcases List.mem_cons.mp he with rfl | he
    · omega
    · exact ih (by omega) he

end FrameReader

namespace Frame

/-- Reading a datagram, whatever its bytes are, and writing the entries again normalises it. The entries are
well formed, with payloads of no more bytes than are in use; a frame as large as the datagram has room for all
of them; it comes out no longer than the datagram was; and it is read as these entries, without an error. -/
theorem read_normalised (data : Bytes) :
    let es := (read data).1
    let pushed := (FrameBuilder.ofMaxBytes data.length).pushAll es
    (∀ p, .data p ∈ es → p.WellFormed ∧ p.payload.length = p.payloadLength) ∧
      (∀ taken ∈ pushed.1, taken = true) ∧ pushed.2.finish.entries = es ∧
      pushed.2.finish.bytes.length ≤ data.length ∧ read pushed.2.finish.bytes = (es, none) := by
  intro es pushed
  have hwell : ∀ e ∈ es, e.WellFormed ∧ e.decoded = e := fun e he => wellFormed_of_mem_read he
  have hroom : (FrameBuilder.ofMaxBytes data.length).bitLength +
      (BitReader.ofBytes data).remaining ≤ (FrameBuilder.ofMaxBytes data.length).capacity := by
    simp [FrameBuilder.bitLength, FrameBuilder.ofMaxBytes, BitWriter.bitLength, BitWriter.empty, Nat.mul_comm]
  obtain ⟨htaken, hlength⟩ := (FrameReader.ofBytes data).pushAll_drain (Nat.mul_mod_left ..) hroom
  have hentries : pushed.2.finish.entries = es := FrameBuilder.entries_pushAll htaken
  have hencoded : pushed.2.finish.Encoded :=
    encoded_finish ((FrameBuilder.consistent_ofMaxBytes data.length).pushAll es)
  refine ⟨fun p hp => ?_, htaken, hentries, ?_, ?_⟩
  · obtain ⟨hp', hdecoded⟩ := hwell _ hp
    have hbody : p.body = p.payload := congrArg Packet.payload (Entry.data.inj hdecoded)
    exact ⟨hp', by rw [← hbody, Packet.WellFormed.length_body hp']⟩
  · exact FrameBuilder.length_finish_le (by rw [Nat.mul_comm]; exact hlength)
  · rw [read_encoded hencoded fun e he => (hwell e (hentries ▸ he)).1, hentries]
    congr 1
    exact (List.map_congr_left fun e he => (hwell e he).2).trans (List.map_id es)

/-- A bit length in sixteen bits, and padding that is not zero, take one byte more than they need. -/
example : ((FrameBuilder.ofMaxBytes 6).pushAll (read [0, 0, 0, 0, 0x23, 0xAB]).1).2.finish.bytes =
    [0, 0, 7, 0, 0xAB] := by decide +kernel

/-! ### Every entry alone -/

theorem bitsAt_le_of_mem_read {data : Bytes} {e : Entry} (he : e ∈ (read data).1) :
    e.bitsAt 0 ≤ 8 * data.length := by
  have hremaining : (FrameReader.ofBytes data).bits.remaining = 8 * data.length :=
    BitReader.remaining_ofBytes data
  exact (FrameReader.ofBytes data).bitsAt_le_of_mem_drain (by omega) hremaining.le he

/-- The frame that carries one entry and nothing else. -/
def alone (maxBytes : Nat) (e : Entry) : Frame := ((FrameBuilder.ofMaxBytes maxBytes).push e).finish

theorem read_alone (maxBytes : Nat) {e : Entry} (he : e.WellFormed) :
    read (alone maxBytes e).bytes = ([e.decoded], none) := by
  have hencoded : (alone maxBytes e).Encoded :=
    encoded_finish ((FrameBuilder.consistent_ofMaxBytes maxBytes).push e)
  have hentries : (alone maxBytes e).entries = [e] := rfl
  rw [read_encoded hencoded (by simpa [hentries] using he), hentries, List.map_singleton]

/-- Entries that are read from a datagram fit into frames of its size, one by one. -/
theorem isolate_read {data : Bytes} {maxBytes : Nat} (hroom : data.length ≤ maxBytes) :
    isolate maxBytes (read data).1 = (read data).1.map (alone maxBytes) := by
  have hfits : ∀ e ∈ (read data).1, (FrameBuilder.ofMaxBytes maxBytes).fits e = true := by
    intro e he
    have hbits := bitsAt_le_of_mem_read he
    apply decide_eq_true
    show e.bitsAt 0 ≤ maxBytes * 8 - 0
    omega
  rw [isolate, ← List.filterMap_eq_map]
  refine List.filterMap_congr fun e he => ?_
  simp [FrameBuilder.push?, hfits e he, alone]

end Frame
end ReliableDatagram
