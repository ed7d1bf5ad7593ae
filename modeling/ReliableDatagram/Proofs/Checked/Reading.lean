import ReliableDatagram.Proofs.Wire.Frames

/-!
# Reading with checks

What a session does with a datagram, done once more so that it can go wrong: the answer is `none` where
an index is out of range, a difference would be below zero, a sum does not fit its word, or a loop does
not end. This module has the checks, and the reading of a datagram by means of a position in it. A
`Reading` that follows a decoder does not go wrong and gives the same answer.
-/
namespace ReliableDatagram.Checked

/-- A difference, unless it is below zero. -/
def sub (a b : Nat) : Option Nat := if b ≤ a then some (a - b) else none

/-- The bytes from `start` up to `stop`, unless they are not there. -/
def slice (data : Bytes) (start stop : Nat) : Option Bytes :=
  if start ≤ stop ∧ stop ≤ data.length then some ((data.drop start).take (stop - start)) else none

/-- A number that fits a word of 32 bits. -/
def word (n : Nat) : Option Nat := if n ≤ Limits.largestBitLength then some n else none

@[simp] theorem sub_of_le {a b : Nat} (h : b ≤ a) : sub a b = some (a - b) := if_pos h

theorem slice_of_le {data : Bytes} {start stop : Nat} (h : start ≤ stop) (hstop : stop ≤ data.length) :
    slice data start stop = some ((data.drop start).take (stop - start)) := if_pos ⟨h, hstop⟩

@[simp] theorem word_of_le {n : Nat} (h : n ≤ Limits.largestBitLength) : word n = some n := if_pos h

/-- A datagram, and how many of its bits were read. -/
structure Cursor where
  data : Bytes
  position : Nat := 0

/-- Reads a value, may find it malformed, and may go wrong. -/
abbrev Reading := ExceptT Malformed (StateT Cursor Option)

namespace Cursor

def remaining (c : Cursor) : Option Nat := sub (8 * c.data.length) c.position

/-- At the next whole byte. -/
def align (c : Cursor) : Cursor := { c with position := (c.position + 7) / 8 * 8 }

/-- The reader has the bits left that stand behind the position. -/
def At (c : Cursor) (r : BitReader) : Prop :=
  c.position ≤ 8 * c.data.length ∧ r.toBits = (Bits.ofBytes c.data).drop c.position

variable {c : Cursor} {r : BitReader}

theorem At.remaining_eq (h : c.At r) : c.remaining = some r.remaining := by
  have hlength := congrArg List.length h.2
  rw [BitReader.length_toBits, List.length_drop, Bits.length_ofBytes] at hlength
  rw [remaining, sub_of_le h.1, hlength]

theorem at_start (data : Bytes) : ({ data } : Cursor).At (.ofBytes data) :=
  ⟨Nat.zero_le _, rfl⟩

/-- A byte boundary is not behind the end. -/
theorem At.align (h : c.At r) :
    c.align.position / 8 ≤ c.data.length ∧ c.align.position = 8 * (c.align.position / 8) ∧
      r.rest = c.data.drop (c.align.position / 8) := by
  have hlength := congrArg List.length h.2
  simp only [BitReader.toBits, List.length_append, Bits.length_ofBytes, List.length_drop] at hlength
  have hopen := r.openBits_lt
  have hle := h.1
  have hposition : c.align.position = c.position + r.openBits.length := by
    simp only [Cursor.align]
    omega
  have hdiv : c.align.position = 8 * (c.align.position / 8) := by
    simp only [Cursor.align]
    omega
  refine ⟨by omega, hdiv, Bits.ofBytes_injective ?_⟩
  rw [← Bits.drop_ofBytes, ← hdiv, hposition, ← List.drop_drop, ← h.2, BitReader.toBits,
    List.drop_left]

end Cursor

namespace Reading

variable {α β : Type}

def readBit : Reading Bool := fun c => do
  if (← c.remaining) = 0 then return (.error .unexpectedEnd, c)
  let byte ← c.data[c.position / 8]?
  return (.ok (byte.toNat.testBit (7 - c.position % 8)), { c with position := c.position + 1 })

def readBitList : (count : Nat) → Reading (List Bool)
  | 0 => pure []
  | n + 1 => do
    let b ← readBit
    let bits ← readBitList n
    pure (b :: bits)

def readBits (count : Nat) : Reading Nat := fun c => do
  if (← c.remaining) < count then return (.error .unexpectedEnd, c)
  (Bits.toNat <$> readBitList count : Reading Nat) c

def readBytes (count : Nat) : Reading Bytes := fun c => do
  let start := c.align.position / 8
  if (← sub c.data.length start) < count then return (.error .unexpectedEnd, c.align)
  let data ← slice c.data start (start + count)
  return (.ok data, { c with position := c.align.position + 8 * count })

def readOctets : (count value : Nat) → Reading Nat
  | 0, v => pure v
  | n + 1, v => do
    let b ← readBits 8
    readOctets n (256 * v + b)

def readCompressed : (width : Nat) → Reading Nat
  | 0 => pure 0
  | 1 => do if ← readBit then readBits 4 else readBits 8
  | n + 2 => do if ← readBit then readCompressed (n + 1) else readOctets (n + 2) 0

def readCounter {kind : CounterKind} : Reading (Counter kind) := do return .ofNat (← readBits 16)

def readReliability : Reading Reliability := do
  match Reliability.ofCode (← readBits Reliability.width) with
  | .ok r => return r
  | .error e => throw e

def readPlace (r : Reliability) : Reading (Option Place) := do
  if r.usesChannel then
    let channel ← readBits Limits.channelBits
    let index ← readCounter
    return some { channel, index }
  else return none

def readPart : Reading (Option Part) := do
  if ← readBit then
    let id ← readCounter
    let index ← readCompressed Packet.partWidth
    let count ← readCompressed Packet.partWidth
    if count = 0 ∨ count ≤ index then throw (.invalidSplit index count)
    return some { id, index, count }
  else return none

def readPacket (sequence : SequenceNumber) : Reading Packet := do
  let reliability ← readReliability
  let place ← readPlace reliability
  let part ← readPart
  let bitLength ← readCompressed Packet.lengthWidth
  let length := bytesForBits bitLength
  if bitLength = 0 ∨ Limits.maximumMtu ≤ length then throw (.invalidPayloadLength bitLength)
  let payload ← readBytes length
  return { sequence, reliability, place, part, priority := .medium, bitLength, payload }

def readEntry : Reading Entry := do
  let sequence ← readCounter
  if ← readBit then return .ack sequence
  return .data (← readPacket sequence)

/-- Wherever a decoder reads, the reading does not go wrong, has the same result, and stops at the same
place. -/
def Follows (k : Reading α) (d : Decoder α) : Prop :=
  ∀ (c : Cursor) (r : BitReader), c.At r → ∃ c' : Cursor,
    match d r with
    | .ok a r' => k c = some (.ok a, c') ∧ c'.At r'
    | .error e r' => k c = some (.error e, c') ∧ c'.At r'

theorem getElem?_ofNat {count i : Nat} (value : Nat) (h : i < count) :
    (Bits.ofNat count value)[i]? = some (value.testBit (count - 1 - i)) := by
  induction count generalizing i with
  | zero => omega
  | succ n ih =>
    rw [Bits.ofNat]
    cases i with
    | zero => rfl
    | succ i =>
      rw [List.getElem?_cons_succ, ih (Nat.lt_of_succ_lt_succ h)]
      congr 2
      omega

/-- The bits of a datagram are those of its bytes, the highest one first. -/
theorem getElem?_ofBytes (data : Bytes) (i : Nat) :
    (Bits.ofBytes data)[i]? = data[i / 8]?.map fun b => b.toNat.testBit (7 - i % 8) := by
  induction data generalizing i with
  | nil => rfl
  | cons b data ih =>
    have hcons : Bits.ofBytes (b :: data) = Bits.ofByte b ++ Bits.ofBytes data := rfl
    rw [hcons]
    by_cases hi : i < 8
    · rw [List.getElem?_append_left (by simpa using hi), Bits.ofByte, getElem?_ofNat _ hi,
        Nat.div_eq_of_lt hi, Nat.mod_eq_of_lt hi]
      rfl
    · obtain ⟨k, rfl⟩ := Nat.exists_eq_add_of_le (Nat.le_of_not_lt hi)
      rw [List.getElem?_append_right (by simp), Bits.length_ofByte, Nat.add_sub_cancel_left, ih,
        Nat.add_div_left k (by decide), Nat.add_mod_left, List.getElem?_cons_succ]

namespace Follows

variable {k : Reading α} {d : Decoder α}

theorem pure (a : α) : Follows (Pure.pure a) (Pure.pure a) := fun c _ h => ⟨c, rfl, h⟩

theorem throw (e : Malformed) : Follows (throw e : Reading α) (throw e) := fun c _ h => ⟨c, rfl, h⟩

theorem bind {f : α → Reading β} {g : α → Decoder β} (hk : Follows k d)
    (hf : ∀ a, Follows (f a) (g a)) : Follows (k >>= f) (d >>= g) := by
  intro c r h
  obtain ⟨c₁, h₁⟩ := hk c r h
  simp only [Bind.bind, EStateM.bind]
  cases hd : d r with
  | ok a r₁ =>
    rw [hd] at h₁
    obtain ⟨c₂, h₂⟩ := hf a c₁ r₁ h₁.2
    refine ⟨c₂, ?_⟩
    have hbind : (ExceptT.bind k f : Reading β) c = f a c₁ := by
      simp [ExceptT.bind, ExceptT.mk, Bind.bind, StateT.bind, h₁.1, ExceptT.bindCont]
    rw [hbind]
    exact h₂
  | error e r₁ =>
    rw [hd] at h₁
    have hbind : StateT.bind k (ExceptT.bindCont f) c = some (.error e, c₁) := by
      rw [StateT.bind, h₁.1]
      rfl
    exact ⟨c₁, hbind, h₁.2⟩

theorem ite {p : Prop} [Decidable p] {k' : Reading α} {d' : Decoder α} (h : Follows k d)
    (h' : Follows k' d') : Follows (if p then k else k') (if p then d else d') := by
  split
  · exact h
  · exact h'

theorem readBit : Follows Reading.readBit Decoder.readBit := by
  intro c r h
  have hremaining := h.remaining_eq
  rw [Decoder.readBit]
  cases hnext : r.next? with
  | none =>
    have hzero : r.remaining = 0 := by
      rw [← BitReader.length_toBits, BitReader.next?_eq_none hnext, List.length_nil]
    refine ⟨c, ?_, h⟩
    simp [Reading.readBit, hremaining, hzero]
  | some answer =>
    obtain ⟨b, r'⟩ := answer
    have hbits := BitReader.next?_eq_some hnext
    have hpos : r.remaining ≠ 0 := by
      rw [← BitReader.length_toBits, hbits]
      exact Nat.succ_ne_zero _
    have hdrop : (Bits.ofBytes c.data).drop c.position = b :: r'.toBits := h.2.symm.trans hbits
    have hbit : (Bits.ofBytes c.data)[c.position]? = some b := by
      rw [← List.head?_drop, hdrop, List.head?_cons]
    obtain ⟨byte, hbyte, rfl⟩ := Option.map_eq_some_iff.mp ((getElem?_ofBytes ..).symm.trans hbit)
    refine ⟨{ c with position := c.position + 1 }, ?_, ?_, ?_⟩
    · simp [Reading.readBit, hremaining, hpos, hbyte]
    · have hlength := congrArg List.length hdrop
      rw [List.length_drop, Bits.length_ofBytes, List.length_cons] at hlength
      show c.position + 1 ≤ 8 * c.data.length
      omega
    · rw [← List.drop_drop, hdrop, List.drop_one, List.tail_cons]

theorem readBitList (count : Nat) :
    Follows (Reading.readBitList count) (Decoder.readBitList count) := by
  induction count with
  | zero => exact .pure []
  | succ n ih => exact readBit.bind fun b => ih.bind fun bits => .pure (b :: bits)

theorem readBits (count : Nat) : Follows (Reading.readBits count) (Decoder.readBits count) := by
  intro c r h
  have hremaining := h.remaining_eq
  rw [Decoder.readBits]
  by_cases hhas : r.has count = true
  · have hcount : ¬r.remaining < count := Nat.not_lt.mpr ((r.has_iff count).mp hhas)
    obtain ⟨c', h'⟩ := (readBitList count).bind (fun bits => .pure (Bits.toNat bits)) c r h
    refine ⟨c', ?_⟩
    rw [if_pos hhas]
    have hmap : Reading.readBits count c =
        (Reading.readBitList count >>= fun bits => Pure.pure (Bits.toNat bits) : Reading Nat) c := by
      simp [Reading.readBits, hremaining, hcount]
    rw [hmap]
    exact h'
  · have hcount : r.remaining < count :=
      Nat.lt_of_not_le fun hle => hhas ((r.has_iff count).mpr hle)
    refine ⟨c, ?_⟩
    rw [if_neg hhas]
    refine ⟨?_, h⟩
    simp [Reading.readBits, hremaining, hcount]

theorem readBytes (count : Nat) : Follows (Reading.readBytes count) (Decoder.readBytes count) := by
  intro c r h
  obtain ⟨hle, hdiv, hrest⟩ := h.align
  have hlength : r.rest.length = c.data.length - c.align.position / 8 := by
    rw [hrest, List.length_drop]
  simp only [Decoder.readBytes]
  by_cases hcount : r.rest.length < count
  · refine ⟨c.align, ?_⟩
    rw [if_neg (by rw [List.length_take]; omega)]
    refine ⟨?_, hdiv ▸ Nat.mul_le_mul_left 8 hle, ?_⟩
    · simp [Reading.readBytes, hle, ← hlength, hcount]
    · show Bits.ofBytes r.rest = (Bits.ofBytes c.data).drop c.align.position
      rw [hdiv, Bits.drop_ofBytes, hrest]
  · refine ⟨{ c with position := c.align.position + 8 * count }, ?_⟩
    rw [if_pos (by rw [List.length_take]; omega)]
    have hslice : slice c.data (c.align.position / 8) (c.align.position / 8 + count) =
        some (r.rest.take count) := by
      rw [slice_of_le (Nat.le_add_right ..) (by omega), Nat.add_sub_cancel_left, hrest]
    refine ⟨?_, ?_, ?_⟩
    · simp [Reading.readBytes, hle, ← hlength, hcount, hslice]
    · show c.align.position + 8 * count ≤ 8 * c.data.length
      omega
    · show Bits.ofBytes (r.rest.drop count) = (Bits.ofBytes c.data).drop (c.align.position + 8 * count)
      rw [hdiv, ← Nat.mul_add, Bits.drop_ofBytes, hrest, List.drop_drop]

theorem readOctets (count value : Nat) :
    Follows (Reading.readOctets count value) (Compressed.readOctets count value) := by
  induction count generalizing value with
  | zero => exact .pure value
  | succ n ih => exact (readBits 8).bind fun b => ih (256 * value + b)

theorem readCompressed (width : Nat) :
    Follows (Reading.readCompressed width) (Compressed.read width) := by
  fun_induction Compressed.read width with
  | case1 => exact .pure 0
  | case2 => exact readBit.bind fun b => .ite (readBits 4) (readBits 8)
  | case3 n ih => exact readBit.bind fun b => .ite ih (readOctets (n + 2) 0)

theorem readCounter {kind : CounterKind} :
    Follows (Reading.readCounter : Reading (Counter kind)) Counter.read :=
  (readBits 16).bind fun n => .pure (Counter.ofNat n)

theorem readReliability : Follows Reading.readReliability Reliability.read := by
  refine (readBits Reliability.width).bind fun n => ?_
  generalize Reliability.ofCode n = answer
  cases answer with
  | ok r => exact .pure r
  | error e => exact .throw e

theorem readPlace (r : Reliability) : Follows (Reading.readPlace r) (Entry.readPlace r) := by
  refine .ite ?_ (.pure none)
  exact (readBits Limits.channelBits).bind fun channel =>
    readCounter.bind fun (index : OrderingIndex) => .pure (some ({ channel, index } : Place))

theorem readPart : Follows Reading.readPart Entry.readPart := by
  refine readBit.bind fun b => .ite ?_ (.pure none)
  refine readCounter.bind fun id => (readCompressed Packet.partWidth).bind fun index =>
    (readCompressed Packet.partWidth).bind fun count => .ite ?_ (.pure _)
  exact (Follows.throw _).bind fun _ => .pure _

theorem readPacket (s : SequenceNumber) : Follows (Reading.readPacket s) (Entry.readPacket s) := by
  refine readReliability.bind fun r => (readPlace r).bind fun place => readPart.bind fun part =>
    (readCompressed Packet.lengthWidth).bind fun bitLength => .ite ?_ ?_
  · exact (Follows.throw _).bind fun _ => (readBytes _).bind fun payload => .pure _
  · exact (readBytes _).bind fun payload => .pure _

theorem readEntry : Follows Reading.readEntry Entry.read := by
  refine readCounter.bind fun s => readBit.bind fun b => .ite (.pure _) ?_
  exact (readPacket s).bind fun p => .pure _

end Follows

end Reading

/-- The next entry, unless what is left is padding. -/
def nextEntry (c : Cursor) : Option (Option (Except Malformed Entry × Cursor)) := do
  if (← c.remaining) < FrameReader.minimumEntryBits then return none
  return some (← Reading.readEntry c)

/-- The entries in front of the first malformed one, and its error. -/
def readEntries : (fuel : Nat) → Cursor → Option (List Entry × Option Malformed)
  | 0, _ => none
  | n + 1, c => do
    match ← nextEntry c with
    | none => return ([], none)
    | some (.error e, _) => return ([], some e)
    | some (.ok e, c) =>
      let (entries, error?) ← readEntries n c
      return (e :: entries, error?)

def readFrame (data : Bytes) : Option (List Entry × Option Malformed) :=
  readEntries (data.length + 1) { data }

theorem readEntries_eq {n : Nat} {c : Cursor} {r : FrameReader} (h : c.At r.bits)
    (hfailed : r.failed = false) (hn : r.bits.rest.length < n) :
    readEntries n c = some (r.drain.1, r.drain.2.1) := by
  induction n generalizing c r with
  | zero => exact absurd hn (Nat.not_lt_zero _)
  | succ n ih =>
    have hremaining := h.remaining_eq
    by_cases hhas : r.bits.has FrameReader.minimumEntryBits = true
    · have hroom := Nat.not_lt.mpr ((r.bits.has_iff _).mp hhas)
      obtain ⟨c', h'⟩ := Reading.Follows.readEntry c r.bits h
      cases hread : Entry.read r.bits with
      | ok e bits =>
        rw [hread] at h'
        have hentry : nextEntry c = some (some (.ok e, c')) := by
          simp [nextEntry, hremaining, hroom, h'.1]
        have hnext : r.next? = some (.ok e, { r with bits }) := by
          simp [FrameReader.next?, hfailed, hhas, hread]
        have hless := Nat.lt_of_lt_of_le (FrameReader.length_rest_lt hnext) (Nat.le_of_lt_succ hn)
        have hrest := ih (r := { r with bits }) h'.2 hfailed hless
        rw [readEntries, FrameReader.drain_of_next?_ok hnext]
        simp [hentry, hrest]
      | error e bits =>
        rw [hread] at h'
        have hentry : nextEntry c = some (some (.error e, c')) := by
          simp [nextEntry, hremaining, hroom, h'.1]
        have hnext : r.next? = some (.error e, { bits, failed := true }) := by
          simp [FrameReader.next?, hfailed, hhas, hread]
        rw [readEntries, FrameReader.drain_of_next?_error hnext]
        simp [hentry]
    · have hshort := Nat.lt_of_not_le fun hle => hhas ((r.bits.has_iff _).mpr hle)
      have hentry : nextEntry c = some none := by
        simp [nextEntry, hremaining, hshort]
      rw [readEntries, FrameReader.drain_of_next?_none (FrameReader.next?_eq_none_of_lt hshort)]
      simp [hentry]

/-- Whatever its bytes are, a datagram is read without going wrong. -/
theorem readFrame_eq (data : Bytes) : readFrame data = some (Frame.read data) :=
  readEntries_eq (Cursor.at_start data) rfl (Nat.lt_succ_self _)

end ReliableDatagram.Checked
