import ReliableDatagram.Limits
import ReliableDatagram.Counter

/-!
# The duplicate log

Which sequence numbers have arrived. The log counts the numbers that it has passed for good, `base`,
and keeps a slot for each number from there to the highest that has arrived. A slot at the front is
passed when its number has arrived, or when it has been waited for too long. A number behind the base,
or half the range ahead of it, counts as a repetition.
-/
namespace ReliableDatagram

inductive Slot where
  /-- Skipped over, and not seen since. -/
  | hole (since : Instant)
  | received (since : Instant)
  deriving DecidableEq, Repr

namespace Slot

def since : Slot → Instant
  | hole t | received t => t

def isHole : Slot → Bool
  | hole _ => true
  | received _ => false

end Slot

inductive Arrival where
  | new
  | duplicate
  deriving DecidableEq, Repr

structure ArrivalLog where
  timeout : Duration
  base : Nat := 0
  /-- The slot of number `base + k` stands at place `k`. -/
  slots : Array Slot := #[]
  deriving DecidableEq, Repr

namespace ArrivalLog

/-- Numbers that were skipped and are still awaited. -/
def holes (log : ArrivalLog) : Nat := log.slots.countP Slot.isHole

def offset (log : ArrivalLog) (s : SequenceNumber) : Nat :=
  (s.distanceFrom (.ofNat log.base)).toNat

/-- A slot that the base may pass: its number has arrived, or has been waited for too long. -/
def isPassable (log : ArrivalLog) (now : Instant) (slot : Slot) : Bool :=
  !slot.isHole || log.timeout < elapsed slot.since now

/-- Passable slots from place `k` on, at most `fuel` of them. -/
def passableFrom (log : ArrivalLog) (now : Instant) : (fuel k : Nat) → Nat
  | 0, _ => 0
  | n + 1, k =>
    match log.slots[k]? with
    | some slot => if log.isPassable now slot then passableFrom log now n (k + 1) + 1 else 0
    | none => 0

/-- Moves the base past the slots at the front that are passable. -/
def advance (log : ArrivalLog) (now : Instant) : ArrivalLog :=
  let passed := log.passableFrom now log.slots.size 0
  if passed = 0 then log
  else { log with base := log.base + passed, slots := log.slots.extract passed log.slots.size }

def record (log : ArrivalLog) (s : SequenceNumber) (now : Instant) : Arrival × ArrivalLog :=
  let offset := log.offset s
  if 0x8000 ≤ offset then (.duplicate, log)
  else
    match log.slots[offset]? with
    | some (.received _) => (.duplicate, log.advance now)
    | some (.hole _) =>
      (.new, { log with slots := log.slots.setIfInBounds offset (.received now) }.advance now)
    | none =>
      let skipped := Array.replicate (offset - log.slots.size) (Slot.hole now)
      (.new, { log with slots := (log.slots ++ skipped).push (.received now) }.advance now)

/-- Forgets the slots; the base stays. -/
def clear (log : ArrivalLog) : ArrivalLog := { log with slots := #[] }

theorem passableFrom_eq (log : ArrivalLog) (now : Instant) (fuel k : Nat)
    (h : log.slots.size ≤ k + fuel) :
    log.passableFrom now fuel k =
      ((log.slots.toList.drop k).takeWhile (log.isPassable now)).length := by
  induction fuel generalizing k with
  | zero =>
    have hk : log.slots.toList.drop k = [] := List.drop_eq_nil_of_le (by simpa using h)
    simp [passableFrom, hk]
  | succ n ih =>
    rw [passableFrom]
    by_cases hk : k < log.slots.size
    · have hd : log.slots.toList.drop k = log.slots[k] :: log.slots.toList.drop (k + 1) := by
        rw [List.drop_eq_getElem_cons (by simpa using hk)]
        simp
      rw [Array.getElem?_eq_getElem hk, hd, List.takeWhile_cons]
      by_cases hp : log.isPassable now log.slots[k]
      · simp [hp, ih (k + 1) (by omega)]
      · simp [hp]
    · have hn : log.slots[k]? = none := Array.getElem?_eq_none (by omega)
      have hd : log.slots.toList.drop k = [] := List.drop_eq_nil_of_le (by simpa using hk)
      simp [hn, hd]

private theorem dropWhile_eq_drop {α : Type} (p : α → Bool) (l : List α) :
    l.dropWhile p = l.drop (l.takeWhile p).length := by
  induction l with
  | nil => rfl
  | cons a l ih => cases h : p a <;> simp [h, ih]

/-- The slots after an advance are the old ones without the passable ones at the front. -/
theorem toList_slots_advance (log : ArrivalLog) (now : Instant) :
    (log.advance now).slots.toList = log.slots.toList.dropWhile (log.isPassable now) := by
  have hp := log.passableFrom_eq now log.slots.size 0 (by omega)
  rw [List.drop_zero] at hp
  rw [dropWhile_eq_drop, ← hp, advance]
  split
  · rename_i h
    simp [h]
  · simp [Array.toList_extract, List.take_of_length_le]

theorem base_advance (log : ArrivalLog) (now : Instant) :
    (log.advance now).base =
      log.base + (log.slots.toList.takeWhile (log.isPassable now)).length := by
  have hp := log.passableFrom_eq now log.slots.size 0 (by omega)
  rw [List.drop_zero] at hp
  rw [advance, ← hp]
  split
  · rename_i h
    simp [h]
  · rfl

end ArrivalLog
end ReliableDatagram
