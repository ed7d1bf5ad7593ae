import ReliableDatagram.Proofs.Wire.Frames

/-!
# Sizes of what is written

The sizes that a frame asks for before it takes an entry are predictions. They are exact:
`Entry.length_encoding`. No header is longer than `maxHeaderBytes`, so a payload that leaves room for
that many bytes fits a frame of its own: `Packet.bitsAt_zero_le`.
-/
namespace ReliableDatagram

namespace Compressed

theorem size_of_lt {width value : Nat} (h : value % 2 ^ (8 * width) < 16) :
    size width value = width + 4 := by
  rw [size, Bits.two_pow_eq_shiftLeft]
  exact if_pos h

theorem size_of_le {width value : Nat} (h : 16 ≤ value % 2 ^ (8 * width)) :
    size width value = width - ((value % 2 ^ (8 * width)).log2 / 8 + 1) + 1 +
      8 * ((value % 2 ^ (8 * width)).log2 / 8 + 1) := by
  rw [size, Bits.two_pow_eq_shiftLeft]
  exact if_neg (Nat.not_lt.mpr h)

/-- Significant bytes of a number that has so many bytes at most. -/
theorem log2_div_lt {width v : Nat} (hw : 0 < width) (h : v < 2 ^ (8 * width)) :
    v.log2 / 8 + 1 ≤ width := by
  rcases Nat.eq_zero_or_pos v with rfl | hpos
  · exact hw
  · have := (Nat.log2_lt (Nat.ne_of_gt hpos)).mpr h
    omega

theorem size_le {width : Nat} (hw : 0 < width) (value : Nat) : size width value ≤ 8 * width + 1 := by
  have hlt : value % 2 ^ (8 * width) < 2 ^ (8 * width) := Nat.mod_lt _ (Nat.two_pow_pos _)
  have hbytes := log2_div_lt hw hlt
  rcases Nat.lt_or_ge (value % 2 ^ (8 * width)) 16 with h | h
  · rw [size_of_lt h]
    omega
  · rw [size_of_le h]
    omega

/-- A leading zero byte costs one bit. -/
theorem size_succ_of_eq {n value : Nat} (hn : 0 < n)
    (h : value % 2 ^ (8 * (n + 1)) = value % 2 ^ (8 * n)) :
    size (n + 1) value = size n value + 1 := by
  have hlt : value % 2 ^ (8 * n) < 2 ^ (8 * n) := Nat.mod_lt _ (Nat.two_pow_pos _)
  have hbytes := log2_div_lt hn hlt
  rcases Nat.lt_or_ge (value % 2 ^ (8 * n)) 16 with hsmall | hlarge
  · rw [size_of_lt hsmall, size_of_lt (h ▸ hsmall), Nat.add_right_comm]
  · rw [size_of_le hlarge, size_of_le (h ▸ hlarge), h]
    omega

/-- Without a leading zero byte all bytes are written. -/
theorem size_of_le_mod {n value : Nat} (hn : 0 < n)
    (h : 2 ^ (8 * n) ≤ value % 2 ^ (8 * (n + 1))) : size (n + 1) value = 8 * (n + 1) + 1 := by
  have hlt : value % 2 ^ (8 * (n + 1)) < 2 ^ (8 * (n + 1)) := Nat.mod_lt _ (Nat.two_pow_pos _)
  have hpos : value % 2 ^ (8 * (n + 1)) ≠ 0 := by
    have := Nat.two_pow_pos (8 * n)
    omega
  have hbytes := log2_div_lt (Nat.succ_pos n) hlt
  have hlog := (Nat.le_log2 hpos).mpr h
  have hlarge : 16 ≤ value % 2 ^ (8 * (n + 1)) := by
    have : 2 ^ 8 ≤ 2 ^ (8 * n) := Nat.pow_le_pow_right (by decide) (by omega)
    omega
  rw [size_of_le hlarge]
  omega

theorem length_encode {width : Nat} (hw : 0 < width) (value : Nat) :
    (encode width value).length = size width value := by
  fun_induction encode width value with
  | case1 => omega
  | case2 v last hlast =>
    rw [size_of_lt (show v % 2 ^ (8 * 1) < 16 from hlast)]
    simp
  | case3 v last hlast =>
    have hlarge : 16 ≤ v % 2 ^ (8 * 1) := Nat.not_lt.mp hlast
    have hbytes := @log2_div_lt 1 (v % 2 ^ (8 * 1)) Nat.one_pos (Nat.mod_lt _ (Nat.two_pow_pos _))
    rw [size_of_le hlarge]
    simp only [List.length_cons, Bits.length_ofNat]
    omega
  | case4 n v hz ih =>
    have hsplit : v % 2 ^ (8 * (n + 1 + 1)) = v % 2 ^ (8 * (n + 1)) := by
      rw [Nat.shiftRight_eq_div_pow] at hz
      rw [show 8 * (n + 1 + 1) = 8 * (n + 1) + 8 by omega, Nat.pow_add, Nat.mod_mul, hz,
        Nat.mul_zero, Nat.add_zero]
    rw [List.length_cons, ih (Nat.succ_pos n), size_succ_of_eq (Nat.succ_pos n) hsplit]
  | case5 n v hz =>
    have hsplit : v % 2 ^ (8 * (n + 1 + 1)) =
        v % 2 ^ (8 * (n + 1)) + 2 ^ (8 * (n + 1)) * (v >>> (8 * (n + 1)) % 256) := by
      rw [Nat.shiftRight_eq_div_pow, show 8 * (n + 1 + 1) = 8 * (n + 1) + 8 by omega, Nat.pow_add,
        Nat.mod_mul]
    have hhigh : 2 ^ (8 * (n + 1)) ≤ v % 2 ^ (8 * (n + 1 + 1)) := by
      rw [hsplit]
      exact Nat.le_trans (Nat.le_mul_of_pos_right _ (Nat.pos_of_ne_zero hz)) (Nat.le_add_left ..)
    rw [size_of_le_mod (Nat.succ_pos n) hhigh]
    simp

end Compressed

namespace Packet

theorem length_placeBits (p : Packet) :
    p.placeBits.length = if p.reliability.usesChannel then Limits.channelBits + 16 else 0 := by
  unfold placeBits
  split_ifs <;> simp [Counter.toBits]

theorem length_header (p : Packet) : p.header.length = p.headerBits := by
  rw [header_eq, headerBits, fixedHeaderBits, partBits]
  simp only [List.length_append, List.length_cons, length_placeBits, Counter.toBits,
    Reliability.toBits, Bits.length_ofNat, Compressed.length_encode (show 0 < lengthWidth by decide),
    Limits.ackBits]
  cases p.part with
  | none =>
    simp only [List.length_singleton]
    omega
  | some part =>
    simp only [List.length_append, List.length_cons, Bits.length_ofNat,
      Compressed.length_encode (show 0 < partWidth by decide)]
    omega

/-- The payload has all the bytes that are in use. Nothing else is asked of a packet that is written. -/
def Backed (p : Packet) : Prop := p.payloadLength ≤ p.payload.length

instance (p : Packet) : Decidable p.Backed :=
  inferInstanceAs (Decidable (p.payloadLength ≤ p.payload.length))

theorem Backed.length_encoding {p : Packet} (h : p.Backed) (offset : Nat) :
    (p.encoding offset).length = p.bitsAt offset := by
  have hbody : p.body.length = p.payloadLength := List.length_take_of_le h
  simp only [encoding, bitsAt, List.length_append, List.length_replicate, Bits.length_ofBytes,
    length_header, hbody, paddingOf, bytesForBits]
  omega

theorem headerBits_le (p : Packet) :
    p.headerBits + 7 ≤ 8 * maxHeaderBytes p.reliability p.part.isSome := by
  have hlength := Compressed.size_le (show 0 < lengthWidth by decide) p.bitLength
  have hmax : Compressed.size lengthWidth 0xFFFF = 8 * lengthWidth + 1 := by decide
  have hpartMax : Compressed.size partWidth 0xFFFFFFFF = 8 * partWidth + 1 := by decide
  simp only [headerBits, maxHeaderBytes, bytesForBits, hmax, hpartMax]
  cases p.part with
  | none => simp; omega
  | some part =>
    have hindex := Compressed.size_le (show 0 < partWidth by decide) part.index
    have hcount := Compressed.size_le (show 0 < partWidth by decide) part.count
    simp only [Option.isSome_some, if_true]
    omega

/-- In an empty frame a packet needs no more than the largest header and its payload. -/
theorem bitsAt_zero_le (p : Packet) :
    p.bitsAt 0 ≤ 8 * (maxHeaderBytes p.reliability p.part.isSome + p.payloadLength) := by
  have := p.headerBits_le
  simp only [bitsAt, bytesForBits]
  omega

end Packet

namespace Entry

def Backed : Entry → Prop
  | ack _ => True
  | data p => p.Backed

instance : DecidablePred Backed
  | ack _ => inferInstanceAs (Decidable True)
  | data p => inferInstanceAs (Decidable p.Backed)

theorem WellFormed.backed {e : Entry} (h : e.WellFormed) : e.Backed := by
  cases e with
  | ack s => trivial
  | data p => exact Packet.WellFormed.payloadLength_le h

theorem length_encoding {e : Entry} (h : e.Backed) (offset : Nat) :
    (e.encoding offset).length = e.bitsAt offset := by
  cases e with
  | ack s => simp [encoding, bitsAt, Counter.toBits, Limits.ackBits]
  | data p => exact Packet.Backed.length_encoding h offset

/-- A writer moves on by as many bits as were predicted where it stood. -/
theorem bitLength_write {e : Entry} (h : e.Backed) (w : BitWriter) :
    (e.write w).bitLength = w.bitLength + e.bitsAt w.bitLength := by
  rw [← length_encoding h, ← BitWriter.length_toBits, toBits_write, List.length_append,
    BitWriter.length_toBits]

end Entry

namespace FrameBuilder

theorem bitLength_push (f : FrameBuilder) {e : Entry} (h : e.Backed) :
    (f.push e).bitLength = f.bitLength + e.bitsAt f.bitLength :=
  Entry.bitLength_write h f.writer

/-- An entry that fits keeps a frame within its bound. -/
theorem bitLength_push_le {f : FrameBuilder} {e : Entry} (h : e.Backed)
    (hf : f.bitLength ≤ f.capacity) (hfits : f.fits e = true) : (f.push e).bitLength ≤ f.capacity := by
  have hle : e.bitsAt f.bitLength ≤ f.capacity - f.bitLength := of_decide_eq_true hfits
  rw [bitLength_push f h]
  omega

theorem length_finish_le {f : FrameBuilder} {maxBytes : Nat} (h : f.bitLength ≤ 8 * maxBytes) :
    f.finish.bytes.length ≤ maxBytes := by
  have hbits : f.writer.bitLength ≤ 8 * maxBytes := h
  show f.writer.toBytes.length ≤ maxBytes
  rw [BitWriter.length_toBytes, bytesForBits]
  omega

end FrameBuilder
end ReliableDatagram
