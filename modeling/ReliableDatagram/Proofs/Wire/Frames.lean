import ReliableDatagram.Proofs.Wire.RoundTrip
import ReliableDatagram.Wire.Frame

/-!
# Frames, read back

`FrameReader.drain` is described by what `next?` answers, so its bound on the number of steps never
matters again (`drain_of_next?_ok`, `next?_drain`). A frame that a builder has finished is read back
entry by entry, also in front of other bytes; behind a packet these are read as if they stood alone.
-/
namespace ReliableDatagram

namespace FrameReader

variable {r r' : FrameReader}

theorem next?_eq_ok_iff {e : Entry} : r.next? = some (.ok e, r') ↔ r.failed = false ∧
    r.bits.has minimumEntryBits = true ∧ Entry.read r.bits = .ok e r'.bits ∧ r'.failed = false := by
  obtain ⟨bits, failed⟩ := r
  obtain ⟨bits', failed'⟩ := r'
  cases failed <;> cases hhas : bits.has minimumEntryBits <;> cases hread : Entry.read bits <;>
    simp [next?, hhas, hread, eq_comm, and_assoc]

theorem next?_eq_error_iff {e : Malformed} : r.next? = some (.error e, r') ↔ r.failed = false ∧
    r.bits.has minimumEntryBits = true ∧ Entry.read r.bits = .error e r'.bits ∧ r'.failed = true := by
  obtain ⟨bits, failed⟩ := r
  obtain ⟨bits', failed'⟩ := r'
  cases failed <;> cases hhas : bits.has minimumEntryBits <;> cases hread : Entry.read bits <;>
    simp [next?, hhas, hread, eq_comm, and_assoc]

theorem length_rest_lt {e : Entry} (h : r.next? = some (.ok e, r')) :
    r'.bits.rest.length < r.bits.rest.length := by
  have hless := Entry.shortens_read r.bits e r'.bits (next?_eq_ok_iff.mp h).2.2.1
  have hopen := r.bits.openBits_lt
  simp only [BitReader.remaining] at hless
  omega

/-- A reader gives an entry and is left with less, until one is malformed or there is none. -/
@[elab_as_elim]
theorem next?_induction {motive : FrameReader → Prop} (last : ∀ r, r.next? = none → motive r)
    (malformed : ∀ r r' e, r.next? = some (.error e, r') → motive r)
    (entry : ∀ r r' e, r.next? = some (.ok e, r') → motive r' → motive r) (r : FrameReader) :
    motive r := by
  induction hn : r.bits.rest.length using Nat.strong_induction_on generalizing r with
  | _ n ih =>
    cases h : r.next? with
    | none => exact last r h
    | some p =>
      obtain ⟨e | e, r'⟩ := p
      · exact malformed r r' e h
      · exact entry r r' e h (ih _ (hn ▸ length_rest_lt h) r' rfl)

theorem drainWith_of_lt {n : Nat} (hn : r.bits.rest.length < n) : drainWith n r = r.drain := by
  obtain ⟨n, rfl⟩ := Nat.exists_eq_succ_of_ne_zero (Nat.ne_of_gt (Nat.zero_lt_of_lt hn))
  induction r using next?_induction generalizing n with
  | last r h => simp [drain, drainWith, h]
  | malformed r r' e h => simp [drain, drainWith, h]
  | entry r r' e h ih =>
    have hless := length_rest_lt h
    simp only [drain, drainWith, h]
    obtain ⟨m, rfl⟩ := Nat.exists_eq_succ_of_ne_zero (show n ≠ 0 by omega)
    obtain ⟨k, hk⟩ := Nat.exists_eq_succ_of_ne_zero (Nat.ne_of_gt (Nat.zero_lt_of_lt hless))
    rw [ih m (by omega), hk, ih k (by omega)]

theorem drain_of_next?_none {r : FrameReader} (h : r.next? = none) : r.drain = ([], none, r) := by
  simp [drain, drainWith, h]

theorem drain_of_next?_error {r r' : FrameReader} {e : Malformed}
    (h : r.next? = some (.error e, r')) : r.drain = ([], some e, r') := by
  simp [drain, drainWith, h]

theorem drain_of_next?_ok {r r' : FrameReader} {e : Entry} (h : r.next? = some (.ok e, r')) :
    r.drain = (e :: r'.drain.1, r'.drain.2) := by
  conv_lhs => rw [drain, drainWith, h]
  simp only [drainWith_of_lt (length_rest_lt h)]

theorem next?_of_failed {r : FrameReader} (h : r.failed = true) : r.next? = none := by
  simp [next?, h]

theorem failed_of_next?_error {e : Malformed} (h : r.next? = some (.error e, r')) :
    r'.failed = true := (next?_eq_error_iff.mp h).2.2.2

/-- The reader that is left has nothing more to give. -/
theorem next?_drain (r : FrameReader) : r.drain.2.2.next? = none := by
  induction r using next?_induction with
  | last r h =>
    rw [drain_of_next?_none h]
    exact h
  | malformed r r' e h =>
    rw [drain_of_next?_error h]
    exact next?_of_failed (failed_of_next?_error h)
  | entry r r' e h ih =>
    rw [drain_of_next?_ok h]
    exact ih

theorem next?_eq_none_of_lt {r : FrameReader} (h : r.bits.remaining < minimumEntryBits) :
    r.next? = none := by
  have : r.bits.has minimumEntryBits = false := by
    rw [← Bool.not_eq_true, BitReader.has_iff]
    omega
  simp [next?, this]

theorem next?_of_toBits {r : FrameReader} (hf : r.failed = false) {e : Entry} (he : e.WellFormed)
    {offset : Nat} {tail : List Bool} (hr : r.bits.toBits = e.encoding offset ++ tail)
    (ho : (offset + r.bits.remaining) % 8 = 0) :
    ∃ r', r.next? = some (.ok e.decoded, r') ∧ r'.failed = false ∧ r'.bits.toBits = tail := by
  obtain ⟨bits, hread, htail⟩ := Entry.read_of_toBits he hr ho
  have hlen := congrArg List.length hr
  have hmin := e.le_length_encoding offset
  rw [BitReader.length_toBits, List.length_append] at hlen
  have hhas : r.bits.has minimumEntryBits = true := by
    rw [BitReader.has_iff, minimumEntryBits]
    omega
  exact ⟨{ r with bits }, by simp [next?, hf, hhas, hread], hf, htail⟩

end FrameReader

namespace Entry

/-- The bits of several entries, the first of them behind `offset` bits. -/
def encodings : (offset : Nat) → List Entry → List Bool
  | _, [] => []
  | offset, e :: es => e.encoding offset ++ encodings (offset + (e.encoding offset).length) es

theorem encodings_concat (offset : Nat) (es : List Entry) (e : Entry) :
    encodings offset (es ++ [e]) =
      encodings offset es ++ e.encoding (offset + (encodings offset es).length) := by
  induction es generalizing offset with
  | nil => simp [encodings]
  | cons a es ih => simp [encodings, ih, Nat.add_assoc]

/-- A row of entries with a packet at its end fills its last byte. -/
theorem encodings_length_mod {es : List Entry} {p : Packet} (h : es.getLast? = some (.data p)) :
    (encodings 0 es).length % 8 = 0 := by
  obtain ⟨front, rfl⟩ := List.getLast?_eq_some_iff.mp h
  have := p.encoding_length_mod (encodings 0 front).length
  rw [encodings_concat, List.length_append, Nat.zero_add]
  exact this

end Entry

namespace FrameReader

/-- Written entries come first, and then whatever a reader of the rest gives. -/
theorem drain_of_toBits {es : List Entry} (hes : ∀ e ∈ es, e.WellFormed) {r : FrameReader}
    (hf : r.failed = false) {offset : Nat} {tail : List Bool}
    (hr : r.bits.toBits = Entry.encodings offset es ++ tail)
    (ho : (offset + r.bits.remaining) % 8 = 0) :
    ∃ r' : FrameReader, r'.failed = false ∧ r'.bits.toBits = tail ∧
      r.drain = (es.map Entry.decoded ++ r'.drain.1, r'.drain.2) := by
  induction es generalizing r offset with
  | nil => exact ⟨r, hf, hr, rfl⟩
  | cons e es ih =>
    rw [Entry.encodings, List.append_assoc] at hr
    obtain ⟨r₁, hnext, hf₁, hr₁⟩ := next?_of_toBits hf (hes e (by simp)) hr ho
    have hlen := congrArg List.length hr
    rw [BitReader.length_toBits, List.length_append, ← hr₁, BitReader.length_toBits] at hlen
    obtain ⟨r', hf', hr', hdrain⟩ := ih (fun e he => hes e (by simp [he])) hf₁ hr₁ (by omega)
    refine ⟨r', hf', hr', ?_⟩
    rw [drain_of_next?_ok hnext, hdrain]
    rfl

end FrameReader

@[simp] theorem BitReader.remaining_ofBytes (data : Bytes) :
    (ofBytes data).remaining = 8 * data.length := by
  simp [remaining, ofBytes]

theorem BitReader.eq_ofBytes {r : BitReader} {data : Bytes} (h : r.toBits = Bits.ofBytes data) :
    r = ofBytes data := by
  obtain ⟨bits, rest, hlt⟩ := r
  have hlen := congrArg List.length h
  simp only [length_toBits, remaining, Bits.length_ofBytes] at hlen
  obtain rfl : bits = [] := List.eq_nil_of_length_eq_zero (by omega)
  simp only [toBits, List.nil_append] at h
  simp only [ofBytes, Bits.ofBytes_injective h]

namespace FrameBuilder

/-- The writer holds the entries that were taken, and nothing else. -/
def Consistent (f : FrameBuilder) : Prop :=
  f.writer.toBits = Entry.encodings 0 f.entries.toList

theorem consistent_ofMaxBytes (maxBytes : Nat) : (ofMaxBytes maxBytes).Consistent := rfl

theorem Consistent.push {f : FrameBuilder} (h : f.Consistent) (e : Entry) :
    (f.push e).Consistent := by
  have hl : f.writer.bitLength = (Entry.encodings 0 f.entries.toList).length := by
    rw [← BitWriter.length_toBits, h]
  simp only [Consistent, FrameBuilder.push, Entry.toBits_write, Array.toList_push,
    Entry.encodings_concat, Nat.zero_add]
  rw [h, hl]

theorem Consistent.pushAll {f : FrameBuilder} (h : f.Consistent) (es : List Entry) :
    (f.pushAll es).2.Consistent := by
  induction es generalizing f with
  | nil => exact h
  | cons e es ih =>
    apply ih
    split
    · exact h.push e
    · exact h

theorem entries_pushAll {f : FrameBuilder} {es : List Entry}
    (h : ∀ taken ∈ (f.pushAll es).1, taken = true) :
    (f.pushAll es).2.entries.toList = f.entries.toList ++ es := by
  induction es generalizing f with
  | nil => simp [FrameBuilder.pushAll]
  | cons e es ih =>
    have hfits : f.fits e = true := h _ (by simp [FrameBuilder.pushAll])
    have hrest := ih (f := f.push e) fun taken ht =>
      h taken (by simp [FrameBuilder.pushAll, hfits, ht])
    simp only [FrameBuilder.pushAll, hfits, if_true] at hrest ⊢
    rw [hrest]
    simp [FrameBuilder.push]

end FrameBuilder

namespace Frame

/-- The bytes are the entries as a builder writes them. -/
def Encoded (f : Frame) : Prop :=
  Bits.ofBytes f.bytes = Entry.encodings 0 f.entries ++
    List.replicate (paddingOf (Entry.encodings 0 f.entries).length) false

theorem encoded_finish {b : FrameBuilder} (h : b.Consistent) : b.finish.Encoded := by
  have hl : b.writer.bitLength = (Entry.encodings 0 b.entries.toList).length := by
    rw [← BitWriter.length_toBits, h]
  rw [Encoded, FrameBuilder.finish, BitWriter.ofBytes_toBytes, BitWriter.padding_eq, h, hl]

theorem read_append {f : Frame} (h : f.Encoded) (hf : ∀ e ∈ f.entries, e.WellFormed) (t : Bytes) :
    ∃ r : FrameReader, r.failed = false ∧
      r.bits.toBits = List.replicate (paddingOf (Entry.encodings 0 f.entries).length) false
        ++ Bits.ofBytes t ∧
      read (f.bytes ++ t) = (f.entries.map Entry.decoded ++ r.drain.1, r.drain.2.1) := by
  have hbits : (BitReader.ofBytes (f.bytes ++ t)).toBits = Entry.encodings 0 f.entries ++
      (List.replicate (paddingOf (Entry.encodings 0 f.entries).length) false
        ++ Bits.ofBytes t) := by
    rw [← List.append_assoc, ← h, ← Bits.ofBytes_append]
    rfl
  have hmod : (0 + (BitReader.ofBytes (f.bytes ++ t)).remaining) % 8 = 0 := by simp
  obtain ⟨r, hr, htail, hdrain⟩ := FrameReader.drain_of_toBits hf
    (r := FrameReader.ofBytes (f.bytes ++ t)) rfl hbits hmod
  refine ⟨r, hr, htail, ?_⟩
  rw [read, hdrain]

/-- A frame is read back as its entries, and has no end but its own. -/
theorem read_encoded {f : Frame} (h : f.Encoded) (hf : ∀ e ∈ f.entries, e.WellFormed) :
    read f.bytes = (f.entries.map Entry.decoded, none) := by
  obtain ⟨r, -, hbits, hread⟩ := read_append h hf []
  have hshort : r.bits.remaining < FrameReader.minimumEntryBits := by
    have := paddingOf_lt (Entry.encodings 0 f.entries).length
    rw [← BitReader.length_toBits, hbits]
    simp only [Bits.ofBytes, List.flatMap_nil, List.append_nil, List.length_replicate,
      FrameReader.minimumEntryBits]
    omega
  rw [List.append_nil] at hread
  rw [hread, FrameReader.drain_of_next?_none (FrameReader.next?_eq_none_of_lt hshort),
    List.append_nil]

/-- Behind a packet the next byte begins, so other bytes are read as if they stood alone. -/
theorem read_append_of_data {f : Frame} (h : f.Encoded) (hf : ∀ e ∈ f.entries, e.WellFormed)
    {p : Packet} (hlast : f.entries.getLast? = some (.data p)) (t : Bytes) :
    read (f.bytes ++ t) = (f.entries.map Entry.decoded ++ (read t).1, (read t).2) := by
  obtain ⟨r, hr, hbits, hread⟩ := read_append h hf t
  have hpad : paddingOf (Entry.encodings 0 f.entries).length = 0 := by
    have := Entry.encodings_length_mod hlast
    simp only [paddingOf, bytesForBits]
    omega
  rw [hpad, List.replicate_zero, List.nil_append] at hbits
  have hreader : r = FrameReader.ofBytes t := by
    obtain ⟨bits, failed⟩ := r
    simp only at hr hbits
    rw [hr, BitReader.eq_ofBytes hbits]
    rfl
  rw [hread, hreader]
  rfl

/-- Reading undoes writing. The entries that one builder took come back, and then the frame ends; in
front of other bytes they come first; and behind a packet the other bytes are read as if they stood
alone. -/
theorem read_pushAll_append {maxBytes : Nat} {es : List Entry} (hes : ∀ e ∈ es, e.WellFormed)
    (htaken : ∀ taken ∈ ((FrameBuilder.ofMaxBytes maxBytes).pushAll es).1, taken = true)
    (t : Bytes) :
    let f := ((FrameBuilder.ofMaxBytes maxBytes).pushAll es).2.finish
    read f.bytes = (es.map Entry.decoded, none) ∧
      (FrameReader.ofBytes f.bytes).drain.2.2.next? = none ∧
      es.map Entry.decoded <+: (read (f.bytes ++ t)).1 ∧
      (∀ p, es.getLast? = some (.data p) →
        read (f.bytes ++ t) = (es.map Entry.decoded ++ (read t).1, (read t).2)) := by
  intro f
  have hentries : f.entries = es := FrameBuilder.entries_pushAll htaken
  have hencoded : f.Encoded :=
    encoded_finish ((FrameBuilder.consistent_ofMaxBytes maxBytes).pushAll es)
  have hwell : ∀ e ∈ f.entries, e.WellFormed := hentries ▸ hes
  refine ⟨?_, FrameReader.next?_drain _, ?_, ?_⟩
  · rw [read_encoded hencoded hwell, hentries]
  · obtain ⟨r, -, -, hread⟩ := read_append hencoded hwell t
    rw [hread, hentries]
    exact List.prefix_append ..
  · intro p hlast
    rw [read_append_of_data hencoded hwell (hentries ▸ hlast), hentries]

/-- An acknowledgement and a fragment of an ordered message, and another datagram behind them. -/
theorem read_ack_fragment_append :
    let es := [Entry.ack ⟨4⟩, .data
      { sequence := ⟨9⟩, reliability := .reliableOrdered, place := some { channel := 31, index := ⟨7⟩ }
        part := some { id := ⟨3⟩, index := 300, count := 301 }, priority := .high, bitLength := 12
        payload := [0xAB, 0xC0, 0xFF] }]
    (∀ e ∈ es, e.WellFormed) ∧
      (∀ taken ∈ ((FrameBuilder.ofMaxBytes 64).pushAll es).1, taken = true) ∧
      read (((FrameBuilder.ofMaxBytes 64).pushAll es).2.finish.bytes ++ [0, 5, 0x80]) =
        (es.map Entry.decoded ++ [.ack ⟨5⟩], none) := by
  intro es
  have hes : ∀ e ∈ es, e.WellFormed := by decide
  have htaken : ∀ taken ∈ ((FrameBuilder.ofMaxBytes 64).pushAll es).1, taken = true := by decide
  refine ⟨hes, htaken, ?_⟩
  rw [(read_pushAll_append hes htaken [0, 5, 0x80]).2.2.2 _ rfl]
  rfl

end Frame
end ReliableDatagram
