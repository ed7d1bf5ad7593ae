import Mathlib.Data.List.Infix
import ReliableDatagram.Proofs.Sending.InFlight
import ReliableDatagram.Sending.Window

/-!
# The window and the packets in flight

The window moves by one place at a time and keeps between its bounds. A packet that is sent for the first
time is the one packet more in flight that there can be, and it is due later only, so that the front of
the queue does not become overdue by it.
-/
namespace ReliableDatagram

namespace Window

variable (w : Window) (now : Instant)

theorem minimum_le_size_onLoss : Limits.minimumWindow ≤ (w.onLoss now).size :=
  Nat.le_max_right ..

theorem size_onLoss_le {w : Window} (h : Limits.minimumWindow ≤ w.size) : (w.onLoss now).size ≤ w.size :=
  Nat.max_le.mpr ⟨Nat.sub_le .., h⟩

theorem size_le_onLoss : w.size ≤ (w.onLoss now).size + 1 :=
  Nat.le_add_of_sub_le (Nat.le_max_left ..)

/-- Growth takes a whole window of acknowledgements, while packets wait, and either room below the ceiling
or the time of the cooldown. -/
theorem onAcks_eq (acked : Nat) (backlog : Bool) : w.onAcks now acked backlog = (false, w) ∨
    (w.size ≤ acked ∧ backlog = true ∧ (w.size < w.lossy ∨ w.hasCooled now = true)) ∧
      w.onAcks now acked backlog = (true, w.grow now) := by
  rw [onAcks]
  split_ifs with hfew hfree
  · exact Or.inl rfl
  · simp only [Bool.or_eq_true, decide_eq_true_eq, Bool.not_eq_true', not_or, Nat.not_lt,
      Bool.not_eq_false] at hfew hfree
    exact Or.inr ⟨⟨hfew.1, hfew.2, hfree⟩, rfl⟩
  · exact Or.inl rfl

theorem onAcks_cases (acked : Nat) (backlog : Bool) : (w.onAcks now acked backlog).2 = w ∨
    w.size ≤ acked ∧ backlog = true ∧ (w.onAcks now acked backlog).2 = w.grow now := by
  rcases w.onAcks_eq now acked backlog with heq | ⟨⟨hacked, hbacklog, -⟩, heq⟩
  · exact Or.inl (congrArg Prod.snd heq)
  · exact Or.inr ⟨hacked, hbacklog, congrArg Prod.snd heq⟩

theorem size_grow_le : (w.grow now).size ≤ w.size + 1 ∧ (w.grow now).size ≤ Limits.maximumWindow :=
  ⟨Nat.min_le_left .., Nat.min_le_right ..⟩

theorem le_size_grow {w : Window} (h : w.size ≤ Limits.maximumWindow) : w.size ≤ (w.grow now).size :=
  Nat.le_min.mpr ⟨Nat.le_succ _, h⟩

end Window

namespace ResendQueue

variable {q : ResendQueue} {p : Packet} {now due : Instant} {s : SequenceNumber}

theorem length_push_le (q : ResendQueue) (p : Packet) (due : Instant) :
    (q.push p due).length ≤ q.length + 1 := by
  have hfilter := q.entries.length_filter_le (·.packet.sequence ≠ p.sequence)
  simpa [length, push, erase] using hfilter

/-- A packet that is sent again takes no more room. -/
theorem length_again_le (h : (q.peekDue now).1 = some p) (due : Instant) :
    (q.popFront.2.push p due).length ≤ q.length := by
  obtain ⟨e, he, rfl, -, hentries⟩ := exists_of_peekDue h
  have hgone : q.popFront.2.entries.length < q.entries.length := by
    rw [hentries]
    exact List.length_filter_lt_length_iff_exists.mpr ⟨e, he, by simp⟩
  exact Nat.le_trans (length_push_le ..) hgone

theorem find?_push (q : ResendQueue) (p : Packet) (due : Instant) (s : SequenceNumber) :
    (q.push p due).find? s = if s = p.sequence then some { packet := p, due } else q.find? s := by
  rw [push, find?, List.find?_append, erase]
  split_ifs with hs
  · have hnone : (q.entries.filter (·.packet.sequence ≠ p.sequence)).find? (·.packet.sequence = s) = none :=
      List.find?_eq_none.mpr (by simp [hs])
    rw [hnone]
    simp [hs]
  · have hkept : (q.entries.filter (·.packet.sequence ≠ p.sequence)).find? (·.packet.sequence = s) =
        q.find? s := by
      rw [List.find?_filter, find?]
      congr 1
      funext e
      by_cases he : e.packet.sequence = s <;> simp [he, hs]
    rw [hkept]
    simp [Ne.symm hs]

theorem head?_dropWhile {α : Type} (p : α → Bool) (l : List α) :
    (l.dropWhile p).head? = l.find? (!p ·) := by
  induction l with
  | nil => rfl
  | cons a l ih => cases h : p a <;> simp [h, ih]

/-- The packet in front is the first one of the order that is in flight. -/
theorem peekDue_eq_none_iff : (q.peekDue now).1 = none ↔
    ∀ s, q.order.find? q.contains = some s → ∀ e, q.find? s = some e → now < e.due := by
  have hfront : q.order.find? q.contains = q.skipStale.order.head? := by
    simp [skipStale, head?_dropWhile]
  rw [hfront, peekDue]
  cases q.skipStale.order with
  | nil => simp
  | cons s order => simp [skipStale, find?]

/-- Nothing becomes overdue by a packet that is due later. -/
theorem peekDue_push (h : (q.peekDue now).1 = none) (hlater : now < due) :
    ((q.push p due).peekDue now).1 = none := by
  have hcontains : ∀ s, (q.push p due).contains s = (decide (s = p.sequence) || q.contains s) := by
    intro s
    rw [contains, contains, find?_push]
    split_ifs with hs <;> simp [hs]
  rw [peekDue_eq_none_iff] at h ⊢
  intro s hfront e he
  rw [find?_push] at he
  split_ifs at he with hs
  · cases he
    exact hlater
  · -- What is in front now was in front before.
    have hcame : (q.order ++ [p.sequence]).find? (q.push p due).contains = some s := hfront
    have hlast : [p.sequence].find? (q.push p due).contains = some p.sequence := by simp [hcontains]
    rw [List.find?_append, hlast] at hcame
    cases hfind : q.order.find? (q.push p due).contains with
    | none =>
      rw [hfind] at hcame
      cases hcame
      exact absurd rfl hs
    | some s' =>
      rw [hfind] at hcame
      cases hcame
      obtain ⟨hin, before, after, horder, hskipped⟩ := List.find?_eq_some_iff_append.mp hfind
      refine h s (List.find?_eq_some_iff_append.mpr ⟨?_, before, after, horder, fun a ha => ?_⟩) e he
      · simpa [hcontains, hs] using hin
      · have hout := hskipped a ha
        rw [hcontains] at hout
        simp only [Bool.not_or, Bool.and_eq_true] at hout
        exact hout.2

end ResendQueue
end ReliableDatagram
