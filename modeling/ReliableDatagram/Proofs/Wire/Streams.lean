import Mathlib.Data.List.Induction
import ReliableDatagram.Proofs.Wire.Sizes

/-!
# Streams of fields

Everything on the wire is a row of fields: bits, numbers, compressed integers, and bytes that are aligned.
They can be written in any order and from any bit on, since a reader that is told their kinds finds every
boundary where the writer has left it: `stream_exact`. A field is read back whatever follows it, as long as
the end of the data is the end of a byte (`Decoder.Recovers`), and of such fields whole rows are made.
-/
namespace ReliableDatagram

/-- What is written in one go. -/
inductive BitField where
  | bit (b : Bool)
  | number (count value : Nat)
  | compressed (width value : Nat)
  /-- Whole bytes, behind an alignment. -/
  | bytes (data : Bytes)
  deriving DecidableEq, Repr

/-- What a reader is told of a field. -/
inductive BitField.Kind where
  | bit
  | number (count : Nat)
  | compressed (width : Nat)
  | bytes (length : Nat)
  deriving DecidableEq, Repr

namespace BitField

def kind : BitField → Kind
  | bit _ => .bit
  | number count _ => .number count
  | compressed width _ => .compressed width
  | bytes data => .bytes data.length

/-- The value has room in the field. -/
def WellFormed : BitField → Prop
  | bit _ => True
  | number count value => count ≤ 32 ∧ value < 2 ^ count
  | compressed width value => (1 ≤ width ∧ width ≤ 4) ∧ value < 256 ^ width
  | bytes _ => True

instance : DecidablePred WellFormed
  | bit _ => inferInstanceAs (Decidable True)
  | number count value => inferInstanceAs (Decidable (count ≤ 32 ∧ value < 2 ^ count))
  | compressed width value =>
    inferInstanceAs (Decidable ((1 ≤ width ∧ width ≤ 4) ∧ value < 256 ^ width))
  | bytes _ => inferInstanceAs (Decidable True)

def write (w : BitWriter) : BitField → BitWriter
  | bit b => w.writeBit b
  | number count value => w.write (Bits.ofNat count value)
  | compressed width value => w.write (Compressed.encode width value)
  | bytes data => w.writeBytes data

/-- Bits that the field takes when it is written behind `offset` bits. -/
def bitsAt (offset : Nat) : BitField → Nat
  | bit _ => 1
  | number count _ => count
  | compressed width value => Compressed.size width value
  | bytes data => paddingOf offset + 8 * data.length

/-- Bits that several fields take, one behind the other. -/
def totalBits (fields : List BitField) : Nat :=
  fields.foldl (fun offset f => offset + f.bitsAt offset) 0

def encoding (offset : Nat) : BitField → List Bool
  | bit b => [b]
  | number count value => Bits.ofNat count value
  | compressed width value => Compressed.encode width value
  | bytes data => List.replicate (paddingOf offset) false ++ Bits.ofBytes data

end BitField

namespace BitField.Kind

def read : Kind → Decoder BitField
  | bit => do return .bit (← Decoder.readBit)
  | number count => do return .number count (← Decoder.readBits count)
  | compressed width => do return .compressed width (← Compressed.read width)
  | bytes length => do return .bytes (← Decoder.readBytes length)

def readAll (kinds : List Kind) : Decoder (List BitField) := kinds.mapM read

end BitField.Kind

/-- From these bits, which begin at `offset` in their byte, the value is read, whatever follows them up to
the end of a byte. -/
def Decoder.Recovers {α : Type} (d : Decoder α) (offset : Nat) (bits : List Bool) (a : α) : Prop :=
  ∀ (r : BitReader) (tail : List Bool), r.toBits = bits ++ tail →
    (offset + bits.length + tail.length) % 8 = 0 → ∃ r', d r = .ok a r' ∧ r'.toBits = tail

namespace Decoder.Recovers

variable {α β : Type} {d : Decoder α} {f : α → Decoder β} {offset : Nat} {bits bits' : List Bool}
  {a : α} {b : β}

theorem of_reads (h : d.Reads bits a) (offset : Nat) : d.Recovers offset bits a :=
  fun r tail hr _ => h r tail hr

theorem pure (a : α) (offset : Nat) : Recovers (Pure.pure a) offset [] a :=
  of_reads (.pure a) offset

theorem bind (hd : d.Recovers offset bits a) (hf : (f a).Recovers (offset + bits.length) bits' b) :
    (d >>= f).Recovers offset (bits ++ bits') b := by
  intro r tail hr hend
  rw [List.append_assoc] at hr
  rw [List.length_append] at hend
  obtain ⟨r₁, h₁, ht₁⟩ := hd r _ hr (by rw [List.length_append]; omega)
  obtain ⟨r₂, h₂, ht₂⟩ := hf r₁ tail ht₁ (by omega)
  exact ⟨r₂, by rw [bind_ok h₁, h₂], ht₂⟩

theorem map (hd : d.Recovers offset bits a) (g : α → β) :
    Recovers (do return g (← d)) offset bits (g a) := by
  have := hd.bind (f := fun a => Pure.pure (g a)) (pure (g a) _)
  rwa [List.append_nil] at this

end Decoder.Recovers

namespace BitField

variable {f : BitField}

theorem toBits_write (f : BitField) (w : BitWriter) :
    (f.write w).toBits = w.toBits ++ f.encoding w.bitLength := by
  cases f with
  | bit b => exact w.toBits_writeBit b
  | number count value => exact w.toBits_write _
  | compressed width value => exact w.toBits_write _
  | bytes data => rw [write, BitWriter.toBits_writeBytes, BitWriter.padding_eq, encoding, List.append_assoc]

theorem length_encoding (h : f.WellFormed) (offset : Nat) :
    (f.encoding offset).length = f.bitsAt offset := by
  cases f with
  | bit b => rfl
  | number count value => exact Bits.length_ofNat count value
  | compressed width value => exact Compressed.length_encode h.1.1 value
  | bytes data => simp [encoding, bitsAt]

/-- A writer moves on by the size of the field. -/
theorem bitLength_write (h : f.WellFormed) (w : BitWriter) :
    (f.write w).bitLength = w.bitLength + f.bitsAt w.bitLength := by
  rw [← length_encoding h, ← BitWriter.length_toBits, toBits_write, List.length_append,
    BitWriter.length_toBits]

theorem totalBits_concat (fields : List BitField) (f : BitField) :
    totalBits (fields ++ [f]) = totalBits fields + f.bitsAt (totalBits fields) := by
  rw [totalBits, List.foldl_append]
  rfl

/-- Bytes stand behind the padding of the byte in which their field begins. -/
theorem recovers_readBytes (offset : Nat) (data : Bytes) : (Decoder.readBytes data.length).Recovers offset
    (List.replicate (paddingOf offset) false ++ Bits.ofBytes data) data := by
  intro r tail hr hend
  have hstart := add_paddingOf_mod offset
  have htail : tail.length % 8 = 0 := by
    rw [List.length_append, List.length_replicate, Bits.length_ofBytes] at hend
    omega
  exact Decoder.readBytes_of_toBits hr (by simpa using paddingOf_lt offset) htail

theorem recovers_read (h : f.WellFormed) (offset : Nat) :
    f.kind.read.Recovers offset (f.encoding offset) f := by
  cases f with
  | bit b => exact (Decoder.Recovers.of_reads (Decoder.reads_readBit b) offset).map BitField.bit
  | number count value =>
    exact (Decoder.Recovers.of_reads (Decoder.reads_readBits h.2) offset).map (BitField.number count)
  | compressed width value =>
    have hvalue : value < 2 ^ (8 * width) := by
      rw [Nat.pow_mul]
      exact h.2
    exact (Decoder.Recovers.of_reads (Compressed.reads_read h.1.1 hvalue) offset).map
      (BitField.compressed width)
  | bytes data => exact (recovers_readBytes offset data).map BitField.bytes

/-- One more field is read behind the others. -/
theorem recovers_readAll_concat {fields : List BitField} {bits : List Bool}
    (hfields : (Kind.readAll (fields.map kind)).Recovers 0 bits fields) (hf : f.WellFormed) :
    (Kind.readAll ((fields ++ [f]).map kind)).Recovers 0 (bits ++ f.encoding bits.length)
      (fields ++ [f]) := by
  have hlast : (Kind.readAll [f.kind]).Recovers (0 + bits.length) (f.encoding bits.length) [f] := by
    rw [Nat.zero_add, Kind.readAll, List.mapM_cons, List.mapM_nil]
    simp only [pure_bind]
    exact (recovers_read hf _).map fun f => [f]
  have hboth := hfields.bind (f := fun read => do return read ++ (← Kind.readAll [f.kind]))
    (hlast.map fun last => fields ++ last)
  rw [List.map_append, List.map_singleton, Kind.readAll, List.mapM_append]
  exact hboth

end BitField

namespace BitWriter

/-- All that is done to a writer. -/
inductive Operation where
  | write (f : BitField)
  | take
  | clear
  deriving DecidableEq, Repr

def operate (w : BitWriter) : Operation → BitWriter
  | .write f => f.write w
  | .take => w.take.2
  | .clear => w.clear

/-- A new writer, after some operations. -/
def after (ops : List Operation) : BitWriter := ops.foldl operate .empty

/-- What an operation makes of the fields that are held. -/
def hold (fields : List BitField) : Operation → List BitField
  | .write f => fields ++ [f]
  | .take | .clear => []

/-- The fields that were written since the writer was emptied for the last time. -/
def held (ops : List Operation) : List BitField := ops.foldl hold []

/-- The fields are what was written, they have the predicted size, and can be read back. -/
structure Holds (w : BitWriter) (fields : List BitField) : Prop where
  bitLength_eq : w.bitLength = BitField.totalBits fields
  recovers : (BitField.Kind.readAll (fields.map BitField.kind)).Recovers 0 w.toBits fields

theorem holds_empty : empty.Holds [] := ⟨rfl, .pure [] 0⟩

variable {w : BitWriter} {fields : List BitField} {ops : List Operation}

theorem Holds.write (h : w.Holds fields) {f : BitField} (hf : f.WellFormed) :
    (f.write w).Holds (fields ++ [f]) := by
  refine ⟨?_, ?_⟩
  · rw [BitField.bitLength_write hf, h.bitLength_eq, BitField.totalBits_concat]
  · rw [BitField.toBits_write, ← length_toBits]
    exact BitField.recovers_readAll_concat h.recovers hf

theorem Holds.operate (h : w.Holds fields) {op : Operation} (hop : ∀ f, op = .write f → f.WellFormed) :
    (w.operate op).Holds (hold fields op) := by
  cases op with
  | write f => exact h.write (hop f rfl)
  | take => exact holds_empty
  | clear => exact holds_empty

theorem holds_after (hops : ∀ f, .write f ∈ ops → f.WellFormed) : (after ops).Holds (held ops) := by
  induction ops using List.reverseRecOn with
  | nil => exact holds_empty
  | append_singleton ops op ih =>
    rw [after, held, List.foldl_append, List.foldl_append]
    refine (ih fun f hf => hops f (List.mem_append_left _ hf)).operate fun f hop => hops f ?_
    exact List.mem_append_right _ (hop ▸ List.mem_singleton_self op)

/-- Bit streams are exact. After any fields that were written, with the writer emptied in between, the buffer
has just the bytes that its bits ask for, with nothing but zeros behind them; the bits are as many as the
fields held take, so that every field moves the writer on by its size; and from the bytes that can be
taken, a reader that is told the kinds of these fields reads their values, with fewer than eight bits left. -/
theorem stream_exact {ops : List Operation} (hops : ∀ f, .write f ∈ ops → f.WellFormed) :
    let w := after ops
    let fields := held ops
    (w.toBytes.length = bytesForBits w.bitLength ∧
        ∀ b ∈ (Bits.ofBytes w.toBytes).drop w.bitLength, b = false) ∧
      (w.bitLength = BitField.totalBits fields ∧
        ∀ f : BitField, f.WellFormed → (f.write w).bitLength = w.bitLength + f.bitsAt w.bitLength) ∧
      ∃ r, BitField.Kind.readAll (fields.map BitField.kind) (BitReader.ofBytes w.take.1) = .ok fields r ∧
        r.remaining < 8 := by
  intro w fields
  have hholds : w.Holds fields := holds_after hops
  have hbytes : Bits.ofBytes w.toBytes = w.toBits ++ List.replicate (paddingOf w.bitLength) false := by
    rw [ofBytes_toBytes, padding_eq]
  refine ⟨⟨w.length_toBytes, fun b hb => ?_⟩, ⟨hholds.bitLength_eq, fun f hf => ?_⟩, ?_⟩
  · rw [hbytes, List.drop_left' w.length_toBits] at hb
    exact List.eq_of_mem_replicate hb
  · exact BitField.bitLength_write hf w
  · have hend := add_paddingOf_mod w.bitLength
    obtain ⟨r, hread, hleft⟩ := hholds.recovers (BitReader.ofBytes w.toBytes)
      (List.replicate (paddingOf w.bitLength) false) hbytes (by simpa using hend)
    refine ⟨r, hread, ?_⟩
    rw [← BitReader.length_toBits, hleft, List.length_replicate]
    exact paddingOf_lt _

/-- Fields of every kind at odd places, behind others that were taken or dropped. -/
def mixedFields : List Operation :=
  [.write (.bit true), .clear, .write (.number 3 5), .write (.compressed 2 7), .take, .write (.bit true),
    .write (.compressed 4 0x10000), .write (.bytes [0xab, 0xcd]), .write (.compressed 1 0xf0),
    .write (.number 32 0xdeadbeef), .write (.compressed 3 0x1234), .write (.bytes []), .write (.bit true)]

theorem stream_exact_mixedFields :
    let w := after mixedFields
    (∀ f, .write f ∈ mixedFields → f.WellFormed) ∧ held mixedFields = held (mixedFields.drop 5) ∧
      w.toBytes.length = bytesForBits w.bitLength ∧ w.bitLength = 113 ∧
      (BitField.write w (.bytes [1])).bitLength = 113 + (7 + 8) ∧
      ∃ r, BitField.Kind.readAll ((held mixedFields).map BitField.kind) (BitReader.ofBytes w.take.1) =
        .ok (held mixedFields) r ∧ r.remaining < 8 := by
  intro w
  have hops : ∀ f, .write f ∈ mixedFields → f.WellFormed := by
    simp [mixedFields, BitField.WellFormed]
  obtain ⟨⟨hbytes, -⟩, ⟨hbits, hgrows⟩, hread⟩ := stream_exact hops
  have hlength : w.bitLength = 113 := hbits.trans (by decide)
  refine ⟨hops, rfl, hbytes, hlength, ?_, hread⟩
  rw [hgrows (.bytes [1]) trivial, hlength]
  rfl

end BitWriter
end ReliableDatagram
