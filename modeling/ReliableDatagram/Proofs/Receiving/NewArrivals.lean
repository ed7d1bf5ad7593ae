import Mathlib.Order.Interval.Finset.Nat
import ReliableDatagram.Proofs.Receiving.DuplicateLog

/-!
# What counts as new

Sequence numbers wrap around, but the base of a duplicate log counts on. So every arrival has a position
in an unbounded count: it lies as far ahead of the base as the number does. A log that `Marks` positions
tells those that were answered as new from the holes between them, and a number is new again only when the
base has moved on far enough for its next position.
-/
namespace ReliableDatagram.ArrivalLog

/-- Where a number stands in the count that does not wrap. -/
def position (log : ArrivalLog) (s : SequenceNumber) : Nat := log.base + log.offset s

/-- The positions of the arrivals that are answered as new. -/
def newPositions (log : ArrivalLog) : List (SequenceNumber × Instant) → List Nat
  | [] => []
  | (s, now) :: calls =>
    let later := (log.record s now).2.newPositions calls
    if (log.record s now).1 = .new then log.position s :: later else later

/-- The last position of all, zero if there is none. -/
def highest (news : List Nat) : Nat := news.foldr max 0

theorem lt_highest_iff {n : Nat} {news : List Nat} : n < highest news ↔ ∃ m ∈ news, n < m := by
  induction news with
  | nil => simp [highest]
  | cons m news ih =>
    have hfold : highest (m :: news) = max m (highest news) := rfl
    simp [hfold, ih]

theorem position_mod (log : ArrivalLog) (s : SequenceNumber) :
    log.position s % Counter.period = s.toNat := by
  have hlt := s.value.toNat_lt
  have hoffset : log.offset s = (65536 - log.base % 65536 + s.value.toNat) % 65536 :=
    Counter.toNat_distanceFrom ..
  simp only [position, hoffset, Counter.period, Counter.toNat]
  omega

/-- The slots tell the positions that were answered as new from the holes, and the last one is new. -/
structure Marks (log : ArrivalLog) (news : List Nat) : Prop where
  size_le : log.slots.size ≤ 32768
  new_lt : ∀ n ∈ news, n < log.base + log.slots.size
  marked : ∀ k slot, log.slots[k]? = some slot → (slot.isHole = false ↔ log.base + k ∈ news)
  last : log.slots.size ≠ 0 → log.base + (log.slots.size - 1) ∈ news

variable {log log' : ArrivalLog} {news : List Nat} {s : SequenceNumber} {now : Instant} {k : Nat}

theorem marks_new (timeout : Duration) : ({ timeout } : ArrivalLog).Marks [] := by
  constructor <;> simp

namespace Marks

theorem advance (h : log.Marks news) (now : Instant) : (log.advance now).Marks news := by
  have hsize := log.size_advance now
  have hbase := log.base_advance_eq now
  have hold := h.size_le
  constructor
  · omega
  · intro n hn
    have hlt := h.new_lt n hn
    omega
  · intro k slot hk
    rw [getElem?_advance] at hk
    rw [h.marked _ slot hk, hbase, Nat.add_assoc]
  · intro hne
    have hlast := h.last (by omega)
    have hplace : (log.advance now).base + ((log.advance now).slots.size - 1) =
        log.base + (log.slots.size - 1) := by omega
    rwa [hplace]

/-- A position that was not new before is so now. -/
theorem fill (h : log.Marks news) (hnear : k < 32768) (hfills : log.Fills k now log') :
    log'.Marks ((log.base + k) :: news) := by
  have hsize := hfills.size_eq
  have hold := h.size_le
  constructor
  · omega
  · intro n hn
    rw [hfills.base_eq]
    rcases List.mem_cons.mp hn with rfl | hn
    · omega
    · have hlt := h.new_lt n hn
      omega
  · intro j slot hj
    rw [hfills.base_eq]
    rcases hfills.slot_cases hj with ⟨rfl, rfl⟩ | ⟨hne, hj⟩ | ⟨hge, hlt, rfl⟩
    · simp [Slot.isHole]
    · simp [h.marked j slot hj, hne]
    · have hnot : log.base + j ∉ news := fun hmem => by
        have hbound := h.new_lt _ hmem
        omega
      simp [Slot.isHole, hnot, Nat.ne_of_lt hlt]
  · intro _
    rw [hfills.base_eq, hsize]
    rcases Nat.lt_or_ge k log.slots.size with hlt | hge
    · rw [Nat.max_eq_left hlt]
      exact List.mem_cons_of_mem _ (h.last (by omega))
    · rw [Nat.max_eq_right (by omega)]
      exact List.mem_cons_self

theorem congr {news' : List Nat} (h : log.Marks news) (hnews : ∀ n, n ∈ news' ↔ n ∈ news) :
    log.Marks news' :=
  ⟨h.size_le, fun n hn => h.new_lt n ((hnews n).mp hn),
    fun k slot hk => (h.marked k slot hk).trans (hnews _).symm, fun hne => (hnews _).mpr (h.last hne)⟩

/-- An arrival is new if its number is near and its position was not new before; then it is now. -/
theorem record (h : log.Marks news) (s : SequenceNumber) (now : Instant) :
    ((log.record s now).1 = .new ↔ log.offset s < 32768 ∧ log.position s ∉ news) ∧
      (log.record s now).2.Marks
        (news ++ if (log.record s now).1 = .new then [log.position s] else []) := by
  rcases log.record_cases s now with ⟨hfar, heq⟩ | ⟨hnear, ⟨t, hk⟩, heq⟩ | ⟨hnear, hk, log', hfills, heq⟩
  · have hnot : ¬log.offset s < 32768 := Nat.not_lt.mpr hfar
    simpa [heq, hnot] using h
  · have hmem : log.position s ∈ news := (h.marked _ _ hk).mp rfl
    simpa [heq, hmem] using h.advance now
  · have hnew : log.position s ∉ news := by
      intro hmem
      have hlt := h.new_lt _ hmem
      simp only [position] at hlt hmem
      have hinside : log.offset s < log.slots.size := by omega
      have hslot := Array.getElem?_eq_getElem hinside
      cases hread : log.slots[log.offset s] with
      | received t => exact hk t (hslot.trans (congrArg some hread))
      | hole t =>
        have hhole := (h.marked _ _ (hslot.trans (congrArg some hread))).mpr hmem
        cases hhole
    refine ⟨by simp [heq, hnew, hnear], ?_⟩
    rw [heq, if_pos rfl]
    exact ((h.fill hnear hfills).advance now).congr (by simp [position, or_comm])

theorem recordAll (h : log.Marks news) (calls : List (SequenceNumber × Instant)) :
    (log.recordAll calls).Marks (news ++ log.newPositions calls) := by
  induction calls generalizing log news with
  | nil => simpa [ArrivalLog.recordAll, newPositions] using h
  | cons call calls ih =>
    obtain ⟨s, now⟩ := call
    have hnext := ih (h.record s now).2
    apply hnext.congr
    intro n
    rw [newPositions]
    split_ifs <;> simp

/-- The holes are the positions from the base to the highest one that were not answered as new. -/
theorem holes_eq (h : log.Marks news) :
    log.holes = ((Finset.Ico log.base (highest news)).filter (· ∉ news)).card := by
  have hcount : ∀ (l : List Slot) (base : Nat),
      (∀ k slot, l[k]? = some slot → (slot.isHole = false ↔ base + k ∈ news)) →
      l.countP Slot.isHole = ((List.range' base l.length).filter (· ∉ news)).length := by
    intro l
    induction l with
    | nil => simp
    | cons slot l ih =>
      intro base hl
      have hfirst := hl 0 slot rfl
      have hrest := ih (base + 1) fun k slot hk => by
        rw [Nat.add_assoc, Nat.add_comm 1 k]
        exact hl (k + 1) slot hk
      rw [List.countP_cons, hrest, List.length_cons, List.range'_succ, List.filter_cons]
      cases hhole : slot.isHole <;> simp_all
  have hsame : (Finset.Ico log.base (highest news)).filter (· ∉ news) =
      (Finset.Ico log.base (log.base + log.slots.size)).filter (· ∉ news) := by
    ext n
    simp only [Finset.mem_filter, Finset.mem_Ico, lt_highest_iff]
    constructor
    · rintro ⟨⟨hge, m, hm, hlt⟩, hnot⟩
      have hbound := h.new_lt m hm
      exact ⟨⟨hge, by omega⟩, hnot⟩
    · rintro ⟨⟨hge, hlt⟩, hnot⟩
      have hlast := h.last (by omega)
      have hne : n ≠ log.base + (log.slots.size - 1) := fun heq => hnot (heq ▸ hlast)
      exact ⟨⟨hge, _, hlast, by omega⟩, hnot⟩
  rw [holes, ← Array.countP_toList, hcount _ log.base, hsame, ← List.toFinset_range'_1,
    List.filter_toFinset, List.toFinset_card_of_nodup]
  · simp
  · exact List.Nodup.filter _ List.nodup_range'
  · intro k slot hk
    exact h.marked k slot (by simpa using hk)

end Marks

theorem base_le_record (log : ArrivalLog) (s : SequenceNumber) (now : Instant) :
    log.base ≤ (log.record s now).2.base := by
  rcases log.record_cases s now with ⟨-, heq⟩ | ⟨-, -, heq⟩ | ⟨-, -, log', hfills, heq⟩
  · rw [heq]
  · rw [heq, base_advance_eq]
    exact Nat.le_add_right ..
  · rw [heq, base_advance_eq, hfills.base_eq]
    exact Nat.le_add_right ..

theorem base_le_recordAll (log : ArrivalLog) (calls : List (SequenceNumber × Instant)) :
    log.base ≤ (log.recordAll calls).base := by
  induction calls generalizing log with
  | nil => exact Nat.le_refl _
  | cons call calls ih => exact (log.base_le_record call.1 call.2).trans (ih _)

theorem front_recordAll (h : ∀ slot, log.slots[0]? = some slot → slot.isHole = true)
    (calls : List (SequenceNumber × Instant)) :
    ∀ slot, (log.recordAll calls).slots[0]? = some slot → slot.isHole = true := by
  induction calls generalizing log with
  | nil => exact h
  | cons call calls ih => exact ih fun slot hslot => front_record h call.1 call.2 hslot

/-- A number that is new again stands at a later position, at least one period on. -/
theorem Marks.base_le_of_new_again (h : log.Marks news) {t t' : Instant}
    {between : List (SequenceNumber × Instant)} (hfirst : (log.record s t).1 = .new)
    (hagain : (((log.record s t).2.recordAll between).record s t').1 = .new) :
    log.base + 32769 ≤ ((log.record s t).2.recordAll between).base := by
  obtain ⟨hiff, hmarks⟩ := h.record s t
  have hlater := hmarks.recordAll between
  obtain ⟨hnear, -⟩ := hiff.mp hfirst
  obtain ⟨hnear', hnot⟩ := (hlater.record s t').1.mp hagain
  rw [if_pos hfirst] at hnot
  have hne : ((log.record s t).2.recordAll between).position s ≠ log.position s := by
    intro heq
    simp [heq] at hnot
  have hbase := (log.base_le_record s t).trans ((log.record s t).2.base_le_recordAll between)
  have hmod := (position_mod log s).trans
    (position_mod ((log.record s t).2.recordAll between) s).symm
  simp only [position, Counter.period] at hne hmod
  omega

/-- The log under any arrivals. There are at most 32768 slots, which begin with a hole and end with a
number that came. The holes are the positions up to the highest one that were not answered as new. An
arrival is answered as new if its number lies less than half the range ahead and its position was not
answered so before, and the same number is new again only when the base has moved by 32769 or more. -/
theorem record_any_arrivals (timeout : Duration) (calls : List (SequenceNumber × Instant)) :
    let log := ({ timeout } : ArrivalLog).recordAll calls
    let news := ({ timeout } : ArrivalLog).newPositions calls
    log.slots.size ≤ 32768 ∧
      (log.slots = #[] ∨
        (∃ t, log.slots[0]? = some (.hole t)) ∧ ∃ t, log.slots.back? = some (.received t)) ∧
      log.holes = ((Finset.Ico log.base (highest news)).filter (· ∉ news)).card ∧
      (∀ s now, (log.record s now).1 = .new ↔ log.offset s < 32768 ∧ log.position s ∉ news) ∧
      ∀ s t between t', (log.record s t).1 = .new →
        (((log.record s t).2.recordAll between).record s t').1 = .new →
        log.base + 32769 ≤ ((log.record s t).2.recordAll between).base := by
  intro log news
  have hmarks : log.Marks news := by simpa using (marks_new timeout).recordAll calls
  have hfront : ∀ slot, log.slots[0]? = some slot → slot.isHole = true :=
    front_recordAll (by simp) calls
  refine ⟨hmarks.size_le, ?_, hmarks.holes_eq, fun s now => (hmarks.record s now).1,
    fun s t between t' => hmarks.base_le_of_new_again⟩
  rcases Nat.eq_zero_or_pos log.slots.size with hnone | hsome
  · exact Or.inl (Array.eq_empty_of_size_eq_zero hnone)
  · have hslot : ∀ k (hk : k < log.slots.size), log.slots[k]? = some log.slots[k] := fun k hk =>
      Array.getElem?_eq_getElem hk
    have hhole := hfront _ (hslot 0 hsome)
    have hcame := (hmarks.marked _ _ (hslot (log.slots.size - 1) (by omega))).mpr
      (hmarks.last (Nat.ne_of_gt hsome))
    refine Or.inr ⟨?_, ?_⟩
    · cases hread : log.slots[0] with
      | hole t => exact ⟨t, hread ▸ hslot 0 hsome⟩
      | received t =>
        rw [hread] at hhole
        cases hhole
    · rw [Array.back?]
      cases hread : log.slots[log.slots.size - 1] with
      | received t => exact ⟨t, hread ▸ hslot _ (by omega)⟩
      | hole t =>
        rw [hread] at hcame
        cases hcame

example :
    let calls : List (SequenceNumber × Instant) := [(⟨3⟩, 0), (⟨1⟩, 0), (⟨3⟩, 5), (⟨0⟩, 0), (⟨65535⟩, 0)]
    let log := ({ timeout := 10 } : ArrivalLog).recordAll calls
    ({ timeout := 10 } : ArrivalLog).newPositions calls = [3, 1, 0] ∧ log.base = 2 ∧ log.holes = 1 := by
  decide

end ReliableDatagram.ArrivalLog
