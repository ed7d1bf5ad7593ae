import Mathlib.Data.List.TakeWhile
import Mathlib.Data.Set.Insert
import ReliableDatagram.Proofs.Counting
import ReliableDatagram.Receiving.ArrivalLog

/-!
# What the duplicate log knows

The log is compared with the history of arrivals: the numbers that came, each with its instant, and
the set `seen` of those that were answered as new. `ArrivalLog.Tracks` ties the two together for
numbers that have not wrapped. A number behind the base was seen, or the log has waited for it too long.
It may come yet, and is given up then (`GivenUp`).
-/
namespace ReliableDatagram

/-- Numbers in the order of their arrival, and when they came. -/
abbrev Arrivals := List (Nat × Instant)

namespace ArrivalLog

/-- The log after several arrivals. -/
def recordAll (log : ArrivalLog) (calls : List (SequenceNumber × Instant)) : ArrivalLog :=
  calls.foldl (fun log call => (log.record call.1 call.2).2) log

/-- A new log, after these arrivals. -/
def after (timeout : Duration) (arrived : Arrivals) : ArrivalLog :=
  ({ timeout } : ArrivalLog).recordAll (arrived.map fun x => (.ofNat x.1, x.2))

theorem after_concat (timeout : Duration) (arrived : Arrivals) (n : Nat) (now : Instant) :
    after timeout (arrived ++ [(n, now)]) = ((after timeout arrived).record (.ofNat n) now).2 := by
  rw [after, List.map_append, recordAll, List.foldl_append]
  rfl

end ArrivalLog

/-- A log has waited too long for `n`: a higher number came, and another one later by more than the
timeout. -/
def Overdue (timeout : Duration) (arrived : Arrivals) (n : Nat) : Prop :=
  ∃ x y, [x, y].Sublist arrived ∧ n < x.1 ∧ timeout < elapsed x.2 y.2

/-- `n` came too late: a log had waited too long for it, and when it came for the first time the base had
gone past it. -/
def GivenUp (timeout : Duration) (arrived : Arrivals) (n : Nat) : Prop :=
  ∃ before t later, arrived = before ++ (n, t) :: later ∧ n ∉ before.map Prod.fst ∧
    Overdue timeout before n ∧ n < (ArrivalLog.after timeout before).base

section History

variable {timeout : Duration} {arrived : Arrivals} {n : Nat}

theorem Overdue.append (h : Overdue timeout arrived n) (later : Arrivals) :
    Overdue timeout (arrived ++ later) n := by
  obtain ⟨x, y, hsublist, hrest⟩ := h
  exact ⟨x, y, hsublist.trans (List.sublist_append_left ..), hrest⟩

theorem GivenUp.append (h : GivenUp timeout arrived n) (later : Arrivals) :
    GivenUp timeout (arrived ++ later) n := by
  obtain ⟨before, t, between, rfl, hrest⟩ := h
  exact ⟨before, t, between ++ later, by simp, hrest⟩

theorem not_givenUp (h : ∀ x ∈ arrived, ∀ y ∈ arrived, elapsed x.2 y.2 ≤ timeout) :
    ¬GivenUp timeout arrived n := by
  rintro ⟨before, t, later, rfl, -, ⟨x, y, hsublist, -, hlate⟩, -⟩
  have hx : x ∈ before := hsublist.subset (by simp)
  have hy : y ∈ before := hsublist.subset (by simp)
  exact absurd hlate (Nat.not_lt.mpr (h x (by simp [hx]) y (by simp [hy])))

end History

namespace ArrivalLog

/-- Slots at the front that the base may pass. -/
def passed (log : ArrivalLog) (now : Instant) : Nat :=
  (log.slots.toList.takeWhile (log.isPassable now)).length

theorem base_advance_eq (log : ArrivalLog) (now : Instant) :
    (log.advance now).base = log.base + log.passed now := base_advance log now

@[simp] theorem timeout_advance (log : ArrivalLog) (now : Instant) :
    (log.advance now).timeout = log.timeout := by
  unfold advance
  dsimp only
  split_ifs <;> rfl

theorem getElem?_advance (log : ArrivalLog) (now : Instant) (k : Nat) :
    (log.advance now).slots[k]? = log.slots[log.passed now + k]? := by
  have hlist := toList_slots_advance log now
  have hsplit := List.takeWhile_append_dropWhile (p := log.isPassable now) (l := log.slots.toList)
  rw [← Array.getElem?_toList, ← Array.getElem?_toList, hlist, ← hsplit,
    List.getElem?_append_right (by simp [passed])]
  simp [passed]

theorem size_advance (log : ArrivalLog) (now : Instant) :
    log.passed now + (log.advance now).slots.size = log.slots.size := by
  have := congrArg List.length (List.takeWhile_append_dropWhile (p := log.isPassable now)
    (l := log.slots.toList))
  rw [← toList_slots_advance, List.length_append] at this
  simpa [passed] using this

theorem passable_of_lt {log : ArrivalLog} {now : Instant} {k : Nat} (h : k < log.passed now) :
    ∃ slot, log.slots[k]? = some slot ∧ log.isPassable now slot = true := by
  have hprefix := List.takeWhile_prefix (log.isPassable now) (l := log.slots.toList)
  refine ⟨_, ?_, List.mem_takeWhile_imp (List.getElem_mem h)⟩
  rw [← Array.getElem?_toList, hprefix.getElem h, List.getElem?_eq_getElem]

theorem front_advance {log : ArrivalLog} {now : Instant} {slot : Slot}
    (h : (log.advance now).slots[0]? = some slot) : slot.isHole = true := by
  rw [← Array.getElem?_toList, toList_slots_advance, ← List.head?_eq_getElem?] at h
  have := List.head?_dropWhile_not (log.isPassable now) log.slots.toList
  rw [h] at this
  simp only [isPassable, Bool.or_eq_false_iff, Bool.not_eq_false'] at this
  exact this.1

/-- The number `k` ahead of the base takes its slot, behind as many holes as it skips. -/
structure Fills (log : ArrivalLog) (k : Nat) (now : Instant) (log' : ArrivalLog) : Prop where
  base_eq : log'.base = log.base
  timeout_eq : log'.timeout = log.timeout
  size_eq : log'.slots.size = max log.slots.size (k + 1)
  new : log'.slots[k]? = some (.received now)
  old : ∀ j, j ≠ k → j < log.slots.size → log'.slots[j]? = log.slots[j]?
  skipped : ∀ j, j ≠ k → log.slots.size ≤ j → j < k → log'.slots[j]? = some (.hole now)

/-- Every slot is then the new one, an old one or a fresh hole. -/
theorem Fills.slot_cases {log log' : ArrivalLog} {k : Nat} {now : Instant} (h : log.Fills k now log')
    {j : Nat} {slot : Slot} (hj : log'.slots[j]? = some slot) :
    (j = k ∧ slot = .received now) ∨ (j ≠ k ∧ log.slots[j]? = some slot) ∨
      (log.slots.size ≤ j ∧ j < k ∧ slot = .hole now) := by
  rcases eq_or_ne j k with rfl | hjk
  · exact Or.inl ⟨rfl, by simpa [h.new, eq_comm] using hj⟩
  · rcases Nat.lt_or_ge j log.slots.size with hlt | hge
    · exact Or.inr (Or.inl ⟨hjk, by rw [← h.old j hjk hlt, hj]⟩)
    · have hlt : j < log'.slots.size := (Array.getElem?_eq_some_iff.mp hj).1
      have hsize := h.size_eq
      have hjk' : j < k := by omega
      exact Or.inr (Or.inr ⟨hge, hjk', by simpa [h.skipped j hjk hge hjk', eq_comm] using hj⟩)

theorem fills_of_lt {log : ArrivalLog} {k : Nat} (hk : k < log.slots.size) (now : Instant) :
    log.Fills k now { log with slots := log.slots.setIfInBounds k (.received now) } := by
  refine ⟨rfl, rfl, ?_, ?_, ?_, ?_⟩
  · simp only [Array.size_setIfInBounds]
    omega
  all_goals grind

theorem fills_of_le {log : ArrivalLog} {k : Nat} (hk : log.slots.size ≤ k) (now : Instant) :
    log.Fills k now
      { log with
        slots := (log.slots ++ Array.replicate (k - log.slots.size) (Slot.hole now)).push
          (.received now) } := by
  refine ⟨rfl, rfl, ?_, ?_, ?_, ?_⟩
  · simp only [Array.size_push, Array.size_append, Array.size_replicate]
    omega
  all_goals grind

/-- A number behind the base or too far ahead changes nothing, one that has its slot is a repetition,
and any other one is new. -/
theorem record_cases (log : ArrivalLog) (s : SequenceNumber) (now : Instant) :
    (0x8000 ≤ log.offset s ∧ log.record s now = (.duplicate, log)) ∨
      (log.offset s < 0x8000 ∧ (∃ t, log.slots[log.offset s]? = some (.received t)) ∧
        log.record s now = (.duplicate, log.advance now)) ∨
      (log.offset s < 0x8000 ∧ (∀ t, log.slots[log.offset s]? ≠ some (.received t)) ∧
        ∃ log', log.Fills (log.offset s) now log' ∧ log.record s now = (.new, log'.advance now)) := by
  rw [record]
  generalize log.offset s = k
  dsimp only
  split_ifs with hfar
  · exact Or.inl ⟨hfar, rfl⟩
  · have hnear : k < 0x8000 := Nat.not_le.mp hfar
    cases hk : log.slots[k]? with
    | none =>
      have hfills := fills_of_le (Array.getElem?_eq_none_iff.mp hk) now
      exact Or.inr (Or.inr ⟨hnear, by simp, _, hfills, rfl⟩)
    | some slot =>
      cases slot with
      | received t => exact Or.inr (Or.inl ⟨hnear, ⟨t, rfl⟩, rfl⟩)
      | hole t =>
        have hfills := fills_of_lt (Array.getElem?_eq_some_iff.mp hk).1 now
        exact Or.inr (Or.inr ⟨hnear, by simp, _, hfills, rfl⟩)

@[simp] theorem timeout_record (log : ArrivalLog) (s : SequenceNumber) (now : Instant) :
    (log.record s now).2.timeout = log.timeout := by
  rcases log.record_cases s now with ⟨-, heq⟩ | ⟨-, -, heq⟩ | ⟨-, -, log', hfills, heq⟩
  · rw [heq]
  · rw [heq, timeout_advance]
  · rw [heq, timeout_advance, hfills.timeout_eq]

/-- The log agrees with the history of arrivals, all of them numbered below `bound`. -/
structure Agrees (log : ArrivalLog) (bound : Nat) (arrived : Arrivals) (seen : Set Nat) : Prop where
  end_le : log.base + log.slots.size ≤ bound
  seen_lt : ∀ n ∈ seen, n < log.base + log.slots.size
  received : ∀ k t, log.slots[k]? = some (.received t) → log.base + k ∈ seen
  hole_unseen : ∀ k t, log.slots[k]? = some (.hole t) → log.base + k ∉ arrived.map Prod.fst
  hole_since : ∀ k t, log.slots[k]? = some (.hole t) → ∃ a, (a, t) ∈ arrived ∧ log.base + k < a
  behind : ∀ n < log.base, n ∈ seen ∨ GivenUp log.timeout arrived n ∨
    n ∉ arrived.map Prod.fst ∧ Overdue log.timeout arrived n
  seen_arrived : ∀ n ∈ seen, n ∈ arrived.map Prod.fst
  arrived_seen : ∀ n ∈ arrived.map Prod.fst, n < log.base ∨ n ∈ seen

/-- The arrivals have made the log what it is. -/
structure Tracks (log : ArrivalLog) (bound : Nat) (arrived : Arrivals) (seen : Set Nat) : Prop
    extends log.Agrees bound arrived seen where
  log_eq : log = after log.timeout arrived

theorem tracks_initial (timeout : Duration) :
    ({ timeout } : ArrivalLog).Tracks 0 [] ∅ := by
  refine ⟨?_, rfl⟩
  constructor <;> simp

namespace Agrees

variable {log : ArrivalLog} {bound : Nat} {arrived : Arrivals} {seen : Set Nat}

/-- A number that came was seen, or given up. -/
theorem seen_or_givenUp (h : log.Agrees bound arrived seen) {n : Nat}
    (hn : n ∈ arrived.map Prod.fst) : n ∈ seen ∨ GivenUp log.timeout arrived n := by
  rcases h.arrived_seen n hn with hlt | hseen
  · exact (h.behind n hlt).imp_right fun hlate => hlate.resolve_right fun hout => hout.1 hn
  · exact Or.inl hseen

/-- A passed hole has been waited for since a higher number came, up to the present arrival. -/
theorem overdue_of_passed {b : Nat} {now : Instant}
    (h : log.Agrees bound (arrived ++ [(b, now)]) seen) {k : Nat} {t : Instant}
    (hk : log.slots[k]? = some (.hole t)) (ht : log.timeout < elapsed t now) :
    Overdue log.timeout (arrived ++ [(b, now)]) (log.base + k) := by
  obtain ⟨a, ha, hlt⟩ := h.hole_since k t hk
  rcases List.mem_append.mp ha with ha | ha
  · have hboth : ([(a, t)] ++ [(b, now)]).Sublist (arrived ++ [(b, now)]) :=
      (List.singleton_sublist.mpr ha).append (List.Sublist.refl _)
    exact ⟨(a, t), (b, now), hboth, hlt, ht⟩
  · -- the higher number would be the present arrival, for which nothing has been waited yet
    obtain ⟨rfl, rfl⟩ : a = b ∧ t = now := by simpa using ha
    simp [elapsed] at ht

theorem advance {b : Nat} {now : Instant} (h : log.Agrees bound (arrived ++ [(b, now)]) seen) :
    (log.advance now).Agrees bound (arrived ++ [(b, now)]) seen := by
  have hsize := log.size_advance now
  have hbase := log.base_advance_eq now
  have hslot : ∀ k, (log.advance now).slots[k]? = log.slots[log.passed now + k]? :=
    log.getElem?_advance now
  have hplace : ∀ k, (log.advance now).base + k = log.base + (log.passed now + k) := by omega
  refine ⟨?_, ?_, ?_, ?_, ?_, ?_, h.seen_arrived, ?_⟩
  · have := h.end_le
    omega
  · intro n hn
    have := h.seen_lt n hn
    omega
  · intro k t hk
    rw [hplace]
    exact h.received _ t (hslot k ▸ hk)
  · intro k t hk
    rw [hplace]
    exact h.hole_unseen _ t (hslot k ▸ hk)
  · intro k t hk
    rw [hplace]
    exact h.hole_since _ t (hslot k ▸ hk)
  · intro n hn
    rw [timeout_advance]
    rcases Nat.lt_or_ge n log.base with hlt | hge
    · exact h.behind n hlt
    · obtain ⟨k, rfl⟩ := Nat.exists_eq_add_of_le hge
      obtain ⟨slot, hk, hpass⟩ := @passable_of_lt log now k (by omega)
      cases slot with
      | received t => exact Or.inl (h.received k t hk)
      | hole t =>
        have hlate := h.overdue_of_passed hk (of_decide_eq_true hpass)
        exact Or.inr (Or.inr ⟨h.hole_unseen k t hk, hlate⟩)
  · intro n hn
    rcases h.arrived_seen n hn with hlt | hseen
    · left
      omega
    · exact Or.inr hseen

/-- A number comes that was seen or that the base has gone past. -/
theorem again (h : log.Agrees bound arrived seen) (hlog : log = after log.timeout arrived) {n : Nat}
    (hn : n < log.base ∨ n ∈ seen) (now : Instant) :
    log.Agrees bound (arrived ++ [(n, now)]) seen := by
  refine ⟨h.end_le, h.seen_lt, h.received, ?_, ?_, ?_, ?_, ?_⟩
  · intro k t hk
    have hunseen := h.hole_unseen k t hk
    have hne : log.base + k ≠ n := by
      rintro rfl
      rcases hn with hlt | hseen
      · omega
      · exact hunseen (h.seen_arrived _ hseen)
    simpa [hne] using hunseen
  · intro k t hk
    obtain ⟨a, ha, hlt⟩ := h.hole_since k t hk
    exact ⟨a, List.mem_append_left _ ha, hlt⟩
  · intro m hm
    rcases h.behind m hm with hseen | hgiven | ⟨hout, hlate⟩
    · exact Or.inl hseen
    · exact Or.inr (Or.inl (hgiven.append _))
    · rcases eq_or_ne m n with rfl | hne
      · exact Or.inr (Or.inl ⟨arrived, now, [], rfl, hout, hlate, hlog ▸ hm⟩)
      · exact Or.inr (Or.inr ⟨by simpa [hne] using hout, hlate.append _⟩)
  · intro m hm
    simp [h.seen_arrived m hm]
  · intro m hm
    rw [List.map_append, List.mem_append] at hm
    rcases hm with hm | hm
    · exact h.arrived_seen m hm
    · obtain rfl : m = n := by simpa using hm
      exact hn

/-- A number that was not seen takes its slot. -/
theorem arrive {log' : ArrivalLog} (h : log.Agrees bound arrived seen) {k : Nat} {now : Instant}
    (hbound : log.base + k < bound) (hfills : log.Fills k now log') :
    log'.Agrees bound (arrived ++ [(log.base + k, now)]) (insert (log.base + k) seen) := by
  have hbase := hfills.base_eq
  have htimeout := hfills.timeout_eq
  have hsize := hfills.size_eq
  refine ⟨?_, ?_, ?_, ?_, ?_, ?_, ?_, ?_⟩
  · have := h.end_le
    omega
  · rintro n (rfl | hn)
    · omega
    · have := h.seen_lt n hn
      omega
  · intro j t hj
    rw [hbase]
    rcases hfills.slot_cases hj with ⟨rfl, -⟩ | ⟨-, hj⟩ | ⟨-, -, hj⟩
    · exact Set.mem_insert ..
    · exact Set.mem_insert_of_mem _ (h.received j t hj)
    · cases hj
  · intro j t hj
    rw [hbase]
    rcases hfills.slot_cases hj with ⟨-, hj⟩ | ⟨hjk, hj⟩ | ⟨hge, hjk, -⟩
    · cases hj
    · have := h.hole_unseen j t hj
      simpa [hjk] using this
    · have hunseen : log.base + j ∉ arrived.map Prod.fst := by
        intro hmem
        rcases h.arrived_seen _ hmem with hlt | hseen
        · omega
        · have := h.seen_lt _ hseen
          omega
      have hne : j ≠ k := by omega
      simpa [hne] using hunseen
  · intro j t hj
    rw [hbase]
    rcases hfills.slot_cases hj with ⟨-, hj⟩ | ⟨-, hj⟩ | ⟨-, hjk, hj⟩
    · cases hj
    · obtain ⟨a, ha, hlt⟩ := h.hole_since j t hj
      exact ⟨a, List.mem_append_left _ ha, hlt⟩
    · cases hj
      exact ⟨log.base + k, by simp, by omega⟩
  · intro n hn
    rw [hbase] at hn
    rw [htimeout]
    rcases h.behind n hn with hseen | hgiven | ⟨hout, hlate⟩
    · exact Or.inl (Set.mem_insert_of_mem _ hseen)
    · exact Or.inr (Or.inl (hgiven.append _))
    · have hne : n ≠ log.base + k := by omega
      exact Or.inr (Or.inr ⟨by simpa [hne] using hout, hlate.append _⟩)
  · rintro n (rfl | hn)
    · simp
    · simp [h.seen_arrived n hn]
  · intro n hn
    rw [hbase]
    rw [List.map_append, List.mem_append] at hn
    rcases hn with hn | hn
    · exact (h.arrived_seen n hn).imp_right (Set.mem_insert_of_mem _)
    · obtain rfl : n = log.base + k := by simpa using hn
      exact Or.inr (Set.mem_insert ..)

end Agrees

theorem Tracks.mono {log : ArrivalLog} {bound bound' : Nat} {arrived : Arrivals} {seen : Set Nat}
    (h : log.Tracks bound arrived seen) (hb : bound ≤ bound') : log.Tracks bound' arrived seen :=
  { h with end_le := Nat.le_trans h.end_le hb }

theorem offset_of_le {log : ArrivalLog} {n : Nat} (h : log.base ≤ n) (hn : n ≤ Counter.span) :
    log.offset (.ofNat n) = n - log.base :=
  Counter.distanceFrom_ofNat_of_le h hn

theorem offset_of_lt {log : ArrivalLog} {n : Nat} (h : n < log.base)
    (hb : log.base ≤ Counter.span) : 0x8000 ≤ log.offset (.ofNat n) :=
  Counter.distanceFrom_ofNat_of_lt h hb

/-- Every arrival is new exactly once, and the log goes on agreeing with the history. -/
theorem Tracks.record {log : ArrivalLog} {bound : Nat} {arrived : Arrivals} {seen : Set Nat}
    (h : log.Tracks bound arrived seen) (hbound : bound ≤ Counter.span) {n : Nat} (hn : n < bound)
    (now : Instant) :
    (n ∉ seen ∧ (log.record (.ofNat n) now).1 = .new ∧
      (log.record (.ofNat n) now).2.Tracks bound (arrived ++ [(n, now)]) (insert n seen)) ∨
    ((n < log.base ∨ n ∈ seen) ∧ (log.record (.ofNat n) now).1 = .duplicate ∧
      (log.record (.ofNat n) now).2.Tracks bound (arrived ++ [(n, now)]) seen) := by
  have hend := h.end_le
  have hlog : (log.record (.ofNat n) now).2 =
      after (log.record (.ofNat n) now).2.timeout (arrived ++ [(n, now)]) := by
    rw [timeout_record, after_concat, ← h.log_eq]
  have hagain : n < log.base ∨ n ∈ seen → log.Agrees bound (arrived ++ [(n, now)]) seen :=
    fun hn => h.toAgrees.again h.log_eq hn now
  rcases Nat.lt_or_ge n log.base with hlt | hge
  · right
    have hoff := offset_of_lt hlt (by omega)
    have heq : log.record (.ofNat n) now = (.duplicate, log) := by rw [ArrivalLog.record, if_pos hoff]
    rw [heq] at hlog ⊢
    exact ⟨Or.inl hlt, rfl, hagain (Or.inl hlt), hlog⟩
  · obtain ⟨k, rfl⟩ := Nat.exists_eq_add_of_le hge
    have hoff : log.offset (.ofNat (log.base + k)) = k := by
      rw [offset_of_le hge (by omega)]
      omega
    have hcases := log.record_cases (.ofNat (log.base + k)) now
    rw [hoff] at hcases
    rcases hcases with ⟨hfar, -⟩ | ⟨-, ⟨t, hk⟩, heq⟩ | ⟨-, hk, log', hfills, heq⟩
    · simp only [Counter.span] at hbound
      omega
    · right
      have hseen := h.received k t hk
      rw [heq] at hlog ⊢
      exact ⟨Or.inr hseen, rfl, (hagain (Or.inr hseen)).advance, hlog⟩
    · left
      rw [heq] at hlog ⊢
      refine ⟨fun hseen => ?_, rfl, (h.toAgrees.arrive hn hfills).advance, hlog⟩
      cases hslot : log.slots[k]? with
      | none =>
        have hsize := Array.getElem?_eq_none_iff.mp hslot
        have := h.seen_lt _ hseen
        omega
      | some slot =>
        cases slot with
        | received t => exact hk t hslot
        | hole t => exact h.hole_unseen k t hslot (h.seen_arrived _ hseen)

/-- Behind every arrival the log stands in front of a hole, or is empty. -/
theorem front_record {log : ArrivalLog} (h : ∀ slot, log.slots[0]? = some slot → slot.isHole = true)
    (s : SequenceNumber) (now : Instant) {slot : Slot}
    (hslot : (log.record s now).2.slots[0]? = some slot) : slot.isHole = true := by
  rcases log.record_cases s now with ⟨-, heq⟩ | ⟨-, -, heq⟩ | ⟨-, -, log', -, heq⟩ <;>
    rw [heq] at hslot
  · exact h slot hslot
  · exact front_advance hslot
  · exact front_advance hslot

end ArrivalLog
end ReliableDatagram
