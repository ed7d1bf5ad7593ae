import ReliableDatagram.Bits.Word

/-!
# Reading bits

A reader holds the unread bits of the byte it stands in and the bytes behind it. A `Decoder` reads a
value from it and may fail; what a failed read has consumed stays consumed, so a decoder answers with
a reader in both cases.

`Malformed` lists the ways in which reading an entry of a datagram fails. Running out of bits between two
entries is not among them: it is the end of the datagram.
-/
namespace ReliableDatagram

inductive Malformed where
  | unexpectedEnd
  | unknownReliability (code : Nat)
  | invalidPayloadLength (bits : Nat)
  | invalidSplit (index count : Nat)
  deriving DecidableEq, Repr

def Malformed.message : Malformed → String
  | unexpectedEnd => "Unexpected EoF, not enough bits to read requested type."
  | unknownReliability code =>
    "An unknown reliability value was provided. Reliability bits: " ++ toString code
  | invalidPayloadLength bits => "Invalid payload length of " ++ toString bits ++ " bits."
  | invalidSplit index count =>
    "Invalid split metadata: part " ++ toString index ++ " of " ++ toString count ++ "."

structure BitReader where
  openBits : List Bool
  rest : Bytes
  openBits_lt : openBits.length < 8
  deriving Repr

abbrev Decoder := EStateM Malformed BitReader

namespace BitReader

def ofBytes (data : Bytes) : BitReader := ⟨[], data, Nat.succ_pos 7⟩

/-- The unread bits, in order. -/
def toBits (r : BitReader) : List Bool := r.openBits ++ Bits.ofBytes r.rest

def remaining (r : BitReader) : Nat := r.openBits.length + 8 * r.rest.length

/-- At least `count` bits are unread. Looks at no more bytes than it needs. -/
def has (r : BitReader) (count : Nat) : Bool :=
  count ≤ r.openBits.length + 8 * (r.rest.take (bytesForBits count)).length

def next? (r : BitReader) : Option (Bool × BitReader) :=
  match r with
  | ⟨b :: bits, rest, h⟩ => some (b, ⟨bits, rest, Nat.lt_of_succ_lt h⟩)
  | ⟨[], b :: rest, _⟩ => some (b.toNat.testBit 7, ⟨Bits.ofNat 7 b.toNat, rest, by simp⟩)
  | ⟨[], [], _⟩ => none

/-- Drops what is left of the byte the reader stands in. -/
def align (r : BitReader) : BitReader := ⟨[], r.rest, Nat.succ_pos 7⟩

@[simp] theorem length_toBits (r : BitReader) : r.toBits.length = r.remaining := by
  simp [toBits, remaining]

theorem has_iff (r : BitReader) (count : Nat) : r.has count = true ↔ count ≤ r.remaining := by
  simp only [has, remaining, decide_eq_true_eq, List.length_take, bytesForBits]
  omega

theorem next?_eq_some {r r' : BitReader} {b : Bool} (h : r.next? = some (b, r')) :
    r.toBits = b :: r'.toBits := by
  obtain ⟨_ | ⟨c, bits⟩, rest, hlt⟩ := r
  · cases rest with
    | nil => simp [next?] at h
    | cons c rest =>
      simp only [next?, Option.some.injEq, Prod.mk.injEq] at h
      obtain ⟨rfl, rfl⟩ := h
      simp [toBits, Bits.ofBytes, Bits.ofByte, Bits.ofNat]
  · simp only [next?, Option.some.injEq, Prod.mk.injEq] at h
    obtain ⟨rfl, rfl⟩ := h
    simp [toBits]

theorem next?_eq_none {r : BitReader} (h : r.next? = none) : r.toBits = [] := by
  obtain ⟨_ | ⟨c, bits⟩, _ | ⟨d, rest⟩, hlt⟩ := r <;> simp [next?, toBits, Bits.ofBytes] at h ⊢

end BitReader

namespace Decoder

def readBit : Decoder Bool := fun r =>
  match r.next? with
  | some (b, r') => .ok b r'
  | none => .error .unexpectedEnd r

def readBitList : (count : Nat) → Decoder (List Bool)
  | 0 => pure []
  | n + 1 => do
    let b ← readBit
    let bits ← readBitList n
    pure (b :: bits)

/-- A number of `count` bits; consumes nothing when fewer are left. -/
def readBits (count : Nat) : Decoder Nat := fun r =>
  if r.has count then (Bits.toNat <$> readBitList count) r else .error .unexpectedEnd r

def align : Decoder Unit := fun r => .ok () r.align

/-- Whole bytes after aligning; the alignment is consumed even when the bytes are missing. -/
def readBytes (count : Nat) : Decoder Bytes := fun r =>
  let data := r.rest.take count
  if data.length = count then .ok data ⟨[], r.rest.drop count, Nat.succ_pos 7⟩
  else .error .unexpectedEnd r.align

theorem readBit_of_toBits {r : BitReader} {b : Bool} {bits : List Bool}
    (h : r.toBits = b :: bits) : ∃ r', readBit r = .ok b r' ∧ r'.toBits = bits := by
  cases hn : r.next? with
  | none => simp [BitReader.next?_eq_none hn] at h
  | some p =>
    obtain ⟨c, r'⟩ := p
    have := (BitReader.next?_eq_some hn).symm.trans h
    simp only [List.cons.injEq] at this
    exact ⟨r', by simp [readBit, hn, this.1], this.2⟩

theorem readBitList_of_toBits {r : BitReader} {bits tail : List Bool}
    (h : r.toBits = bits ++ tail) :
    ∃ r', readBitList bits.length r = .ok bits r' ∧ r'.toBits = tail := by
  induction bits generalizing r with
  | nil => exact ⟨r, rfl, h⟩
  | cons b bits ih =>
    obtain ⟨r₁, h₁, hb⟩ := readBit_of_toBits h
    obtain ⟨r₂, h₂, ht⟩ := ih hb
    refine ⟨r₂, ?_, ht⟩
    simp [readBitList, bind, EStateM.bind, h₁, h₂, pure, EStateM.pure]

theorem readBits_of_toBits {r : BitReader} {bits tail : List Bool} (h : r.toBits = bits ++ tail) :
    ∃ r', readBits bits.length r = .ok (Bits.toNat bits) r' ∧ r'.toBits = tail := by
  obtain ⟨r', hr, ht⟩ := readBitList_of_toBits h
  refine ⟨r', ?_, ht⟩
  have hs : r.has bits.length = true := by
    rw [BitReader.has_iff, ← BitReader.length_toBits, h, List.length_append]
    exact Nat.le_add_right ..
  simp [readBits, hs, Functor.map, EStateM.map, hr]

end Decoder
end ReliableDatagram
