/-!
# Bit strings and bytes

A bit string is a `List Bool`, most significant bit first. `Bits.ofNat` and `Bits.toNat` pass between
a number and its low bits, and `Bits.pack` fills one byte from the left and pads it with zeros. Nothing
is lost either way: `ofNat_toNat` and `ofByte_pack`.
-/
namespace ReliableDatagram

/-- Contents of payloads and datagrams. -/
abbrev Bytes := List UInt8

/-- Whole bytes needed to hold `bits` bits. -/
def bytesForBits (bits : Nat) : Nat := (bits + 7) / 8

namespace Bits

/-- The low `count` bits of a number. -/
def ofNat : (count value : Nat) → List Bool
  | 0, _ => []
  | n + 1, v => v.testBit n :: ofNat n v

def toNat (bits : List Bool) : Nat := bits.foldl (fun v b => 2 * v + b.toNat) 0

def ofByte (b : UInt8) : List Bool := ofNat 8 b.toNat

def ofBytes (data : Bytes) : List Bool := data.flatMap ofByte

/-- One byte from at most eight bits, the missing ones on the right being zero. -/
def pack (bits : List Bool) : UInt8 :=
  UInt8.ofNat (toNat (bits ++ List.replicate (8 - bits.length) false))

@[simp] theorem length_ofNat (count value : Nat) : (ofNat count value).length = count := by
  induction count with
  | zero => rfl
  | succ n ih => simp [ofNat, ih]

@[simp] theorem length_ofByte (b : UInt8) : (ofByte b).length = 8 := by simp [ofByte]

@[simp] theorem length_ofBytes (data : Bytes) : (ofBytes data).length = 8 * data.length := by
  induction data with
  | nil => rfl
  | cons b data ih =>
    simp only [ofBytes, List.flatMap_cons, List.length_append, length_ofByte, List.length_cons]
    rw [ofBytes] at ih
    omega

/-- A bit on the right doubles the number and becomes its lowest bit. -/
theorem ofNat_double_add (count value : Nat) (b : Bool) :
    ofNat (count + 1) (2 * value + b.toNat) = ofNat count value ++ [b] := by
  induction count with
  | zero => cases b <;> simp [ofNat, Nat.testBit_zero]
  | succ n ih =>
    have h : (2 * value + b.toNat) / 2 = value := by
      cases b
      · simp
      · simp only [Bool.toNat_true]; omega
    rw [ofNat, ih, Nat.testBit_succ, h]
    rfl

theorem toNat_concat (bits : List Bool) (b : Bool) :
    toNat (bits ++ [b]) = 2 * toNat bits + b.toNat := by
  simp [toNat]

theorem ofNat_toNat (bits : List Bool) : ofNat bits.length (toNat bits) = bits := by
  rw [← bits.reverse_reverse]
  induction bits.reverse with
  | nil => rfl
  | cons b bs ih =>
    rw [List.reverse_cons, toNat_concat, List.length_append, List.length_singleton,
      ofNat_double_add, ih]

theorem toNat_lt (bits : List Bool) : toNat bits < 1 <<< bits.length := by
  rw [← bits.reverse_reverse]
  induction bits.reverse with
  | nil => exact Nat.one_pos
  | cons b bs ih =>
    rw [List.reverse_cons, toNat_concat, List.length_append, List.length_singleton,
      Nat.shiftLeft_succ]
    have := b.toNat_le
    omega

theorem toNat_ofNat (count value : Nat) : toNat (ofNat count value) = value % (1 <<< count) := by
  induction count generalizing value with
  | zero => simp [ofNat, toNat, Nat.mod_one]
  | succ n ih =>
    have h : value = 2 * (value / 2) + (value.testBit 0).toNat := by
      rw [Nat.toNat_testBit]; omega
    conv => lhs; rw [h]
    rw [ofNat_double_add, toNat_concat, ih, Nat.shiftLeft_succ, Nat.toNat_testBit]
    have : 0 < 1 <<< n := by
      rw [Nat.shiftLeft_eq, Nat.one_mul]
      exact Nat.two_pow_pos n
    rw [Nat.mod_mul]
    omega

/-- Packing loses nothing but where the padding begins. -/
theorem ofByte_pack {bits : List Bool} (h : bits.length ≤ 8) :
    ofByte (pack bits) = bits ++ List.replicate (8 - bits.length) false := by
  have hl : (bits ++ List.replicate (8 - bits.length) false).length = 8 := by simp; omega
  have hlt := toNat_lt (bits ++ List.replicate (8 - bits.length) false)
  rw [hl] at hlt
  have hm : toNat (bits ++ List.replicate (8 - bits.length) false) % 256 = toNat _ :=
    Nat.mod_eq_of_lt hlt
  simp only [ofByte, pack, UInt8.toNat_ofNat']
  rw [hm]
  conv => lhs; arg 1; rw [← hl]
  rw [ofNat_toNat]

end Bits
end ReliableDatagram
