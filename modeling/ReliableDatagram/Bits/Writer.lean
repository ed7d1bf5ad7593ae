import ReliableDatagram.Bits.Word

/-!
# Writing bits

A writer holds the bytes that are full and, apart from them, the bits of the byte that is still open.
The open byte never holds eight bits: the eighth closes it. What was written is the bit string
`toBits`, and every operation appends to it.
-/
namespace ReliableDatagram

structure BitWriter where
  full : Array UInt8 := #[]
  openBits : List Bool := []
  openBits_lt : openBits.length < 8 := by decide
  deriving DecidableEq, Repr

namespace BitWriter

def empty : BitWriter := {}

def bitLength (w : BitWriter) : Nat := 8 * w.full.size + w.openBits.length

def isEmpty (w : BitWriter) : Bool := w.bitLength == 0

def writeBit (w : BitWriter) (b : Bool) : BitWriter :=
  if h : w.openBits.length < 7 then
    { full := w.full, openBits := w.openBits ++ [b],
      openBits_lt := by rw [List.length_append]; exact Nat.succ_lt_succ h }
  else { full := w.full.push (Bits.pack (w.openBits ++ [b])) }

def write (w : BitWriter) (bits : List Bool) : BitWriter := bits.foldl writeBit w

/-- Bits that are missing from the open byte. -/
def padding (w : BitWriter) : Nat := if w.openBits.isEmpty then 0 else 8 - w.openBits.length

/-- Closes the open byte, padding it with zero bits. -/
def align (w : BitWriter) : BitWriter :=
  if w.openBits.isEmpty then w else { full := w.full.push (Bits.pack w.openBits) }

def writeBytes (w : BitWriter) (data : Bytes) : BitWriter :=
  { full := w.align.full ++ data }

/-- Everything written, the last byte padded with zero bits. -/
def toBytes (w : BitWriter) : Bytes := w.align.full.toList

/-- Hands out everything written; the writer is empty again. -/
def take (w : BitWriter) : Bytes × BitWriter := (w.toBytes, empty)

/-- Drops everything written. -/
def clear (_ : BitWriter) : BitWriter := empty

/-- The bits written so far, in order. -/
def toBits (w : BitWriter) : List Bool := Bits.ofBytes w.full.toList ++ w.openBits

@[simp] theorem length_toBits (w : BitWriter) : w.toBits.length = w.bitLength := by
  simp [toBits, bitLength]

@[simp] theorem toBits_writeBit (w : BitWriter) (b : Bool) :
    (w.writeBit b).toBits = w.toBits ++ [b] := by
  unfold writeBit
  split
  · simp [toBits]
  · have hlt := w.openBits_lt
    have h : (w.openBits ++ [b]).length = 8 := by simp; omega
    simp [toBits, Bits.ofBytes, Bits.ofByte_pack (Nat.le_of_eq h), h]

@[simp] theorem toBits_write (w : BitWriter) (bits : List Bool) :
    (w.write bits).toBits = w.toBits ++ bits := by
  induction bits generalizing w with
  | nil => simp [write]
  | cons b bits ih =>
    have := ih (w.writeBit b)
    simp_all [write]

@[simp] theorem openBits_align (w : BitWriter) : w.align.openBits = [] := by
  unfold align
  split
  · simp_all
  · rfl

theorem toBits_align (w : BitWriter) :
    w.align.toBits = w.toBits ++ List.replicate w.padding false := by
  unfold align padding
  split
  · simp
  · simp [toBits, Bits.ofBytes, Bits.ofByte_pack (Nat.le_of_lt w.openBits_lt)]

theorem toBits_writeBytes (w : BitWriter) (data : Bytes) :
    (w.writeBytes data).toBits =
      w.toBits ++ List.replicate w.padding false ++ Bits.ofBytes data := by
  rw [← toBits_align]
  simp [writeBytes, toBits, Bits.ofBytes]

theorem ofBytes_toBytes (w : BitWriter) :
    Bits.ofBytes w.toBytes = w.toBits ++ List.replicate w.padding false := by
  rw [← toBits_align]
  simp [toBytes, toBits]

end BitWriter
end ReliableDatagram
