import ReliableDatagram.Bits.Reader

/-!
# Compressed integers

An integer of `width` bytes is written from its most significant byte on. A leading zero byte costs
one flag bit. The first other byte is announced by a clear flag and followed by all the bytes that
are left. The last byte has a flag of its own, for a value below sixteen in four bits.

`size` predicts the length from the number of significant bytes alone. Reading accepts every form
that the flags allow, also those that `encode` never chooses.
-/
namespace ReliableDatagram.Compressed

/-- The bits of the low `width` bytes of a number. -/
def encode : (width value : Nat) → List Bool
  | 0, _ => []
  | 1, v =>
    let last := v % 256
    if last < 16 then true :: Bits.ofNat 4 last else false :: Bits.ofNat 8 last
  | n + 2, v =>
    if v >>> (8 * (n + 1)) % 256 = 0 then true :: encode (n + 1) v
    else false :: Bits.ofNat (8 * (n + 2)) v

/-- Bits taken by the low `width` bytes of a number: a flag for each leading zero byte, one more
flag, and the significant bytes or a single nibble. -/
def size (width value : Nat) : Nat :=
  let v := value % (1 <<< (8 * width))
  if v < 16 then width + 4
  else
    let significant := v.log2 / 8 + 1
    width - significant + 1 + 8 * significant

/-- `count` bytes as one number that begins with the bytes `value`. -/
def readOctets : (count value : Nat) → Decoder Nat
  | 0, v => pure v
  | n + 1, v => do
    let b ← Decoder.readBits 8
    readOctets n (256 * v + b)

def read : (width : Nat) → Decoder Nat
  | 0 => pure 0
  | 1 => do if ← Decoder.readBit then Decoder.readBits 4 else Decoder.readBits 8
  | n + 2 => do if ← Decoder.readBit then read (n + 1) else readOctets (n + 2) 0

end ReliableDatagram.Compressed
