import ReliableDatagram.Proofs.Checked.Reading
import ReliableDatagram.Proofs.Session.Submission

/-!
# Sending with checks

What a session does with a message, done once more so that it can go wrong: by a difference below zero, a
sum that does not fit, bytes that are not there, a division by zero, or a loop that does not end. Whether a
message is cut is decided by the number of its fragments alone, and frames without room for a fragment
stand for the largest number there is. A limit on the fragments that is just as large lets such a message
through, and nothing else goes wrong.
-/
namespace ReliableDatagram.Checked

/-- A number that fits a count of the machine. -/
def count (n : Nat) : Option Nat := if n ≤ Limits.largestCount then some n else none

@[simp] theorem count_of_le {n : Nat} (h : n ≤ Limits.largestCount) : count n = some n := if_pos h

/-- The bits in use of the bytes from `start` up to `stop`: all that are left, if these are the last. -/
def chunkBits (bits size start stop : Nat) : Option Nat :=
  if stop = bytesForBits bits then do sub bits (← word (start * 8)) else some (size * 8)

/-- The chunks from byte `start` on, cut in at most `rounds` rounds of a loop. -/
def cutFrom (payload : Bytes) (bits size : Nat) : (rounds start : Nat) → Option (List Chunk)
  | 0, _ => none
  | n + 1, start => do
    if bytesForBits bits ≤ start then return []
    let stop := min (← count (start + size)) (bytesForBits bits)
    let bytes ← slice payload start stop
    let bitLength ← chunkBits bits size start stop
    let chunks ← cutFrom payload bits size n stop
    return ⟨bytes, bitLength⟩ :: chunks

/-- Room is made for all chunks before they are cut. -/
def cut (payload : Bytes) (bits size : Nat) : Option (List Chunk) := do
  let _ ← chunkCount? (bytesForBits bits) size
  cutFrom payload bits size (bytesForBits bits + 1) 0

/-- Fragments may have room for nothing. -/
def shape (c : Config) (length : Nat) (r : Reliability) : Except SendError Shape :=
  if length + Packet.maxHeaderBytes r false ≤ c.frameBudget then .ok .whole
  else
    let size := c.frameBudget - Packet.maxHeaderBytes r.asReliable true
    let parts := (chunkCount? length size).getD Limits.largestCount
    if c.maxSplitParts < parts then .error (.tooManySplits parts) else .ok (.cut size)

def sendBits (s : Session) (payload : Bytes) (bitLength : Nat) (priority : Priority) (r : Reliability)
    (channel : Nat) : Option (Except SendError Session) := do
  if s.isDead then return .error .deadConnection
  let bits := Session.effectiveBits payload bitLength
  if bits = 0 then return .error .emptyPayload
  if Limits.channels ≤ channel then return .error (.invalidChannel channel)
  match shape s.config (bytesForBits bits) r with
  | .error e => return .error e
  | .ok .whole => return .ok (s.sendWhole payload bits priority r channel)
  | .ok (.cut size) =>
    let chunks ← cut payload bits size
    return .ok (s.sendParts chunks priority r.asReliable channel)

section cut

variable {payload : Bytes} {bits size start : Nat}

theorem chunkBits_last (hword : bits ≤ Limits.largestBitLength) (hlt : start < bytesForBits bits) :
    chunkBits bits size start (bytesForBits bits) = some (bits - start * 8) := by
  have hle : start * 8 ≤ bits := by
    simp only [bytesForBits] at hlt
    omega
  simp [chunkBits, Nat.le_trans hle hword, hle]

theorem cutFrom_of_le {n : Nat} (h : bytesForBits bits ≤ start) :
    cutFrom payload bits size (n + 1) start = some [] := by
  simp [cutFrom, h]

theorem cutFrom_succ {n stop used : Nat} (hlength : bytesForBits bits ≤ payload.length)
    (hcount : start + size ≤ Limits.largestCount) (hlt : start < bytesForBits bits)
    (hstop : min (start + size) (bytesForBits bits) = stop)
    (hused : chunkBits bits size start stop = some used) : cutFrom payload bits size (n + 1) start =
      (cutFrom payload bits size n stop).map (⟨(payload.drop start).take (stop - start), used⟩ :: ·) := by
  have hbytes : slice payload start stop = some ((payload.drop start).take (stop - start)) :=
    slice_of_le (by omega) (by omega)
  rw [cutFrom, if_neg (Nat.not_le.mpr hlt), count_of_le hcount]
  simp only [Option.pure_def, Option.bind_eq_bind, Option.bind_some, hstop, hbytes, hused]
  cases cutFrom payload bits size n stop <;> rfl

/-- Chunks that are not empty are cut without going wrong, and in time. -/
theorem cutFrom_eq {rounds fuel : Nat} (hs : 0 < size) (hsize : size ≤ Limits.maximumMtu)
    (hword : bits ≤ Limits.largestBitLength) (hp : bits ≤ 8 * payload.length)
    (hrounds : bytesForBits bits - start < rounds) (hfuel : bytesForBits bits - start ≤ fuel) :
    cutFrom payload bits size rounds start =
      some (Chunk.cutWith fuel (payload.drop start) (bits - start * 8) size) := by
  have hlength := Chunk.bytesForBits_le hp
  -- On the rounds: `start` moves forward where `Chunk.cutWith` drops bytes and bits.
  induction rounds generalizing start fuel with
  | zero => omega
  | succ n ih =>
    rcases Nat.lt_or_ge start (bytesForBits bits) with hlt | hge
    · obtain ⟨m, rfl⟩ : ∃ m, fuel = m + 1 := ⟨fuel - 1, by omega⟩
      have hleft := Chunk.bytesForBits_sub hlt
      have hcount : start + size ≤ Limits.largestCount := by
        simp only [bytesForBits, Limits.largestBitLength, Limits.maximumMtu, Limits.largestCount] at *
        omega
      by_cases hlast : bytesForBits bits ≤ start + size
      · obtain ⟨k, rfl⟩ : ∃ k, n = k + 1 := ⟨n - 1, by omega⟩
        rw [cutFrom_succ hlength hcount hlt (Nat.min_eq_right hlast) (chunkBits_last hword hlt),
          cutFrom_of_le (Nat.le_refl _), Chunk.cutWith, hleft]
        rw [if_neg (by omega), if_pos (by omega)]
        rfl
      · have hinside : start + size < bytesForBits bits := Nat.not_le.mp hlast
        have hrest : cutFrom payload bits size n (start + size) = some (Chunk.cutWith m
            (payload.drop (start + size)) (bits - (start + size) * 8) size) := ih (by omega) (by omega)
        rw [cutFrom_succ hlength hcount hlt (Nat.min_eq_left (Nat.le_of_lt hinside))
            (if_neg (Nat.ne_of_lt hinside)),
          hrest, Chunk.cutWith, hleft]
        rw [if_neg (by omega), if_neg (by omega)]
        simp [Nat.add_mul, Nat.sub_sub]
    · have hnone : bytesForBits (bits - start * 8) = 0 := by
        simp only [bytesForBits] at hge ⊢
        omega
      rw [cutFrom_of_le hge]
      cases fuel with
      | zero => rfl
      | succ m => simp [Chunk.cutWith, hnone]

/-- Empty chunks bring the loop no further: in no number of rounds does it end. -/
theorem cutFrom_zero (h : start < bytesForBits bits) (rounds : Nat) :
    cutFrom payload bits 0 rounds start = none := by
  induction rounds with
  | zero => rfl
  | succ n ih =>
    rw [cutFrom, if_neg (Nat.not_le.mpr h)]
    simp only [Nat.add_zero, Option.bind_eq_bind, Option.bind_eq_none_iff]
    intro stop hstop bytes _ used _
    obtain rfl : start = stop := by
      rw [count] at hstop
      split_ifs at hstop
      exact Option.some.inj hstop
    rw [Nat.min_eq_left (Nat.le_of_lt h), ih]
    exact fun chunks hchunks => by cases hchunks

theorem cut_eq (hs : 0 < size) (hsize : size ≤ Limits.maximumMtu)
    (hword : bits ≤ Limits.largestBitLength) (hp : bits ≤ 8 * payload.length) :
    cut payload bits size = some (Chunk.cut payload bits size) := by
  have hloop : cutFrom payload bits size (bytesForBits bits + 1) 0 =
      some (Chunk.cutWith (bytesForBits bits) (payload.drop 0) (bits - 0 * 8) size) :=
    cutFrom_eq hs hsize hword hp (Nat.lt_succ_self _) (Nat.le_refl _)
  rw [cut, chunkCount?, if_neg (Nat.ne_of_gt hs), Chunk.cut_eq hs]
  simpa using hloop

theorem cut_zero (payload : Bytes) (bits : Nat) : cut payload bits 0 = none := rfl

end cut

section shape

variable {c : Config} {length size : Nat} {r : Reliability}

/-- A message that does not fit one frame, frames without room for a fragment, and a limit on the fragments
that is as large as a number can be. -/
structure Cramped (c : Config) (length : Nat) (r : Reliability) : Prop where
  exceeds : c.frameBudget < length + Packet.maxHeaderBytes r false
  full : c.frameBudget ≤ Packet.maxHeaderBytes r.asReliable true
  unlimited : Limits.largestCount ≤ c.maxSplitParts

theorem Cramped.shape_eq (h : Cramped c length r) : shape c length r = .ok (.cut 0) := by
  rw [shape, if_neg (Nat.not_le.mpr h.exceeds)]
  dsimp only
  rw [Nat.sub_eq_zero_of_le h.full, chunkCount?, if_pos rfl]
  exact if_neg (Nat.not_lt.mpr h.unlimited)

/-- Otherwise the message has the shape that it should have. -/
theorem shape_eq (h : ¬Cramped c length r) : shape c length r = c.shape length r := by
  rw [shape, Config.shape]
  dsimp only
  split_ifs with hfits hmany hsize
  · rfl
  · rfl
  · rw [chunkCount?, if_pos hsize] at hmany
    exact absurd ⟨Nat.not_le.mp hfits, Nat.le_of_sub_eq_zero hsize, Nat.not_lt.mp hmany⟩ h
  · rfl

/-- Only a cramped message is cut into empty fragments. -/
theorem size_eq_zero_iff (h : shape c length r = .ok (.cut size)) : size = 0 ↔ Cramped c length r := by
  refine ⟨fun hsize => ?_, fun hcramped => ?_⟩
  · by_contra hroomy
    rw [shape_eq hroomy] at h
    exact Nat.ne_of_gt (Config.size_of_shape_cut h).1 hsize
  · rw [hcramped.shape_eq] at h
    exact (Shape.cut.inj (Except.ok.inj h)).symm

end shape

/-- A living session is asked to send a cramped message. -/
structure Stranded (s : Session) (payload : Bytes) (bitLength : Nat) (r : Reliability) (channel : Nat) :
    Prop where
  alive : s.isDead = false
  bits_pos : 0 < Session.effectiveBits payload bitLength
  channel_lt : channel < Limits.channels
  cramped : Cramped s.config (bytesForBits (Session.effectiveBits payload bitLength)) r

section sendBits

variable {s : Session} {payload : Bytes} {bitLength channel : Nat} {r : Reliability}

theorem Stranded.sendBits_eq (h : Stranded s payload bitLength r channel) (priority : Priority) :
    sendBits s payload bitLength priority r channel = none := by
  simp [sendBits, h.alive, Nat.ne_of_gt h.bits_pos, h.channel_lt, h.cramped.shape_eq, cut_zero]

/-- In every other case nothing goes wrong. -/
theorem sendBits_eq (h : ¬Stranded s payload bitLength r channel) (priority : Priority) :
    sendBits s payload bitLength priority r channel =
      some (s.sendBits payload bitLength priority r channel) := by
  rw [Session.sendBits_eq_ite, sendBits]
  by_cases hdead : s.isDead = true
  · simp [hdead]
  by_cases hbits : Session.effectiveBits payload bitLength = 0
  · simp [hdead, hbits]
  by_cases hchannel : Limits.channels ≤ channel
  · simp [hdead, hbits, hchannel]
  have hroomy : ¬Cramped s.config (bytesForBits (Session.effectiveBits payload bitLength)) r :=
    fun hcramped => h ⟨by simpa using hdead, Nat.pos_of_ne_zero hbits, Nat.not_le.mp hchannel, hcramped⟩
  simp only [hdead, hbits, hchannel, if_false, Bool.false_eq_true, shape_eq hroomy]
  cases hshape : s.config.shape (bytesForBits (Session.effectiveBits payload bitLength)) r with
  | error e => rfl
  | ok shape =>
    cases shape with
    | whole => rfl
    | cut size =>
      obtain ⟨hpos, hlt⟩ := Config.size_of_shape_cut hshape
      have hword : Session.effectiveBits payload bitLength ≤ Limits.largestBitLength :=
        Nat.le_trans (Nat.min_le_right ..) (Nat.min_le_right ..)
      have hp : Session.effectiveBits payload bitLength ≤ 8 * payload.length :=
        Nat.le_trans (Nat.min_le_right ..) (Nat.min_le_left ..)
      simp [cut_eq hpos (Nat.le_of_lt hlt) hword hp]

end sendBits

/-- A message is cut into fragments of a byte or more, unless it is cramped. Then the division fails that
counts its fragments, and the loop that cuts them would not end. Nothing else goes wrong, and the answer is
that of the session. -/
theorem sendBits_fails_iff (s : Session) (payload : Bytes) (bitLength : Nat) (priority : Priority)
    (r : Reliability) (channel : Nat) :
    let bits := Session.effectiveBits payload bitLength
    let length := bytesForBits bits
    (∀ size, shape s.config length r = .ok (.cut size) → (size = 0 ↔ Cramped s.config length r)) ∧
      (sendBits s payload bitLength priority r channel = none ↔ Stranded s payload bitLength r channel) ∧
      (∀ answer, sendBits s payload bitLength priority r channel = some answer →
        answer = s.sendBits payload bitLength priority r channel) ∧
      chunkCount? length 0 = none ∧ (0 < bits → ∀ rounds, cutFrom payload bits 0 rounds 0 = none) := by
  intro bits length
  refine ⟨fun size => size_eq_zero_iff, ⟨fun hnone => ?_, fun h => h.sendBits_eq priority⟩,
    fun answer hsome => ?_, rfl, fun hpos => cutFrom_zero ?_⟩
  · by_contra h
    rw [sendBits_eq h] at hnone
    cases hnone
  · have h : ¬Stranded s payload bitLength r channel := by
      intro h
      rw [h.sendBits_eq] at hsome
      cases hsome
    rw [sendBits_eq h] at hsome
    exact (Option.some.inj hsome).symm
  · simp only [bytesForBits]
    omega

/-- Frames with room for twelve bytes, and no limit on the parts of a message: seven bytes do not go whole,
since a header may take six, and there is no room behind the header of a fragment. -/
theorem sendBits_fails_unlimited :
    let config := (Config.default.withMtu 40).withMaxSplitParts Limits.largestCount
    let payload : Bytes := List.replicate 7 0
    shape config 7 .reliable = .ok (.cut 0) ∧ config.shape 7 .reliable = .error .noRoom ∧
      sendBits (.new config 0) payload 56 .medium .reliable 0 = none := by
  intro config payload
  have hlength : bytesForBits (Session.effectiveBits payload 56) = 7 := by decide
  have hshape : shape config 7 .reliable = .ok (.cut 0) := by decide
  obtain ⟨hempty, hfails, -⟩ := sendBits_fails_iff (.new config 0) payload 56 .medium .reliable 0
  rw [hlength] at hempty
  refine ⟨hshape, by decide, hfails.mpr ⟨rfl, by decide, by decide, ?_⟩⟩
  rw [hlength]
  exact (hempty 0 hshape).mp rfl

end ReliableDatagram.Checked
