import ReliableDatagram.Proofs.Receiving.Inbox

/-!
# When everything has been seen

Once every number of the sender was seen, nothing is left behind in a receiver that had room for all
messages: they have come out, the ordered ones in full order, and neither holes nor waiting messages nor
fragments remain.
-/
namespace ReliableDatagram

theorem PerChannel.exists_get {α : Type} {t : PerChannel α} {a : α} (h : a ∈ t.toList) :
    ∃ c, t.get c = a := by
  obtain ⟨i, hi, rfl⟩ := List.mem_iff_getElem.mp h
  have hi : i < Limits.channels := by simpa [toList] using hi
  exact ⟨⟨i, hi⟩, by simp [get, toList]⟩

namespace Inbox.Receives

variable {i : Inbox} {ms : List Shipment} {arrived : Arrivals} {seen : Set Nat}
  {returned : List Delivery} {out : List Shipment}

theorem holes_eq_zero (h : i.Receives ms arrived seen returned out)
    (hall : ∀ n < total Shipment.size ms, n ∈ seen) : i.arrivals.holes = 0 := by
  rw [ArrivalLog.holes, Array.countP_eq_zero]
  intro slot hslot
  obtain ⟨k, hk⟩ := Array.mem_iff_getElem?.mp hslot
  have hlt := (Array.getElem?_eq_some_iff.mp hk).1
  cases slot with
  | received t => simp [Slot.isHole]
  | hole t =>
    have hend := h.tracks.end_le
    have hseen := hall (i.arrivals.base + k) (by omega)
    exact absurd (h.tracks.seen_arrived _ hseen) (h.tracks.hole_unseen k t hk)

theorem pending_eq_zero (h : i.Receives ms arrived seen returned out)
    (hnone : ∀ m ∈ ms, ∀ j, ¬i.reassembler.HoldsPart m j) : i.reassembler.pending = 0 := by
  apply total_eq_zero
  intro x hx
  obtain ⟨m, hm, id, hid, hkey, hof⟩ := h.holds.group_of x hx
  rw [List.length_eq_zero_iff, List.eq_nil_iff_forall_not_mem]
  rintro ⟨j, p⟩ hp
  exact hnone m hm j ⟨id, x.2, p, hid, hkey ▸ hx, hp⟩

/-- A lane on which every message has come out or waits has nothing left to wait for. -/
theorem lane_complete (h : i.Receives ms arrived seen returned out) (hms : Manifest ms) (c : Channel)
    (hwhole : ∀ m ∈ ms, m ∈ out ∨ i.lanes.Waits m) :
    out.filter (Shipment.isOrderedOn c) = ms.filter (Shipment.isOrderedOn c) ∧
      (i.lanes.get c).waiting.size = 0 := by
  obtain ⟨k, hkeeps, hout⟩ := h.lanes.ordered c
  have hos := hms.indexed_ordered c
  have hnodup := hms.nodup.filter (Shipment.isOrderedOn c)
  have hk : k = (ms.filter (Shipment.isOrderedOn c)).length := by
    by_contra hne
    have hlt : k < (ms.filter (Shipment.isOrderedOn c)).length := by
      have := hkeeps.le_length
      omega
    obtain ⟨m, hm⟩ : ∃ m, (ms.filter (Shipment.isOrderedOn c))[k]? = some m :=
      ⟨_, List.getElem?_eq_getElem hlt⟩
    have hmem := List.mem_of_getElem? hm
    have hindex := hos.index_eq hm
    have hmc := (List.mem_filter.mp hmem).2
    rcases hwhole m (List.mem_filter.mp hmem).1 with hmout | hwaits
    · have htake : m ∈ (ms.filter (Shipment.isOrderedOn c)).take k := by
        rw [← hout]
        exact List.mem_filter.mpr ⟨hmout, hmc⟩
      have hdrop : m ∈ (ms.filter (Shipment.isOrderedOn c)).drop k := by
        have := hos.drop_index hmem
        rw [hindex] at this
        simp [this]
      exact List.disjoint_take_drop hnodup (Nat.le_refl k) htake hdrop
    · have hget : (i.lanes.get c).Waits m := by
        rw [(Shipment.isOrderedOn_iff.mp hmc).2]
        exact hwaits.2
      have hmissing := hkeeps.next_missing
      rw [hkeeps.ordered_eq, ← hindex] at hmissing
      rw [Lane.Waits, hmissing] at hget
      cases hget
  constructor
  · rw [hout, hk, List.take_length]
  · have hempty : (i.lanes.get c).waiting.isEmpty = true := by
      rw [Std.TreeMap.isEmpty_iff_forall_not_mem]
      intro key hkey
      rw [Std.TreeMap.mem_iff_isSome_getElem?] at hkey
      obtain ⟨d, hd⟩ := Option.isSome_iff_exists.mp hkey
      obtain ⟨m, hm, -, -, hle, -⟩ := hkeeps.waiting key d hd
      have := hos.index_lt hm
      omega
    rw [Std.TreeMap.isEmpty_eq_size_eq_zero] at hempty
    simpa using hempty

/-- Everything was seen, no message is sequenced, and there was room. -/
theorem complete (h : i.Receives ms arrived seen returned out) (hms : Manifest ms)
    (hall : ∀ n < total Shipment.size ms, n ∈ seen)
    (hq : ∀ m ∈ ms, m.reliability.isSequenced = false) (hroom : i.reassembler.HasRoom ms) :
    out.Perm ms ∧
      (∀ c : Channel, out.filter (Shipment.isOrderedOn c) = ms.filter (Shipment.isOrderedOn c)) ∧
      i.arrivals.holes = 0 ∧ i.lanes.waiting = 0 ∧ i.reassembler.pending = 0 := by
  have haccounts : ∀ m ∈ ms, i.Accounts out seen m := fun m hm =>
    h.accounts (h.invalid_eq hroom) m hm (hq m hm)
  have hseen : ∀ m ∈ ms, m.SeenIn seen := fun m hm n hn => hall n (hms.lt_total hm hn)
  have hwhole : ∀ m ∈ ms, m ∈ out ∨ i.lanes.Waits m := fun m hm =>
    (haccounts m hm).whole (hseen m hm)
  have hlane := fun c : Channel => h.lane_complete hms c hwhole
  have hsub : ms ⊆ out := by
    intro m hm
    rcases hwhole m hm with hout | ⟨ho, hwaits⟩
    · exact hout
    · exfalso
      have hempty := (hlane (.ofNat m.channel)).2
      have hisEmpty : (i.lanes.get (.ofNat m.channel)).waiting.isEmpty = true := by
        rw [Std.TreeMap.isEmpty_eq_size_eq_zero, hempty]
        rfl
      rw [Lane.Waits, Std.TreeMap.getElem?_of_isEmpty hisEmpty] at hwaits
      cases hwaits
  refine ⟨?_, fun c => (hlane c).1, h.holes_eq_zero hall, ?_, h.pending_eq_zero ?_⟩
  · exact (List.perm_ext_iff_of_nodup h.nodup hms.nodup).mpr fun m =>
      ⟨fun hm => (h.mem_out m hm).1, fun hm => hsub hm⟩
  · apply total_eq_zero
    intro lane hlane'
    obtain ⟨c, rfl⟩ := PerChannel.exists_get hlane'
    exact (hlane c).2
  · exact fun m hm j hj => (haccounts m hm).incomplete j hj (hseen m hm)

end Inbox.Receives
end ReliableDatagram
