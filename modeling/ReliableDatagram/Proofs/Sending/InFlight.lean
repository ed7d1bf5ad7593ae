import Mathlib.Data.List.Nodup
import Mathlib.Data.List.TakeWhile
import Mathlib.Tactic.Common
import ReliableDatagram.Sending.ResendQueue

/-!
# The packets in flight

A resend queue is known through the packets that it keeps. They are added when they are sent, they
stay while they are sent again, and they leave when they are acknowledged or superseded. In a `Sound`
queue they have different numbers, and the order lists every one of them.
-/
namespace ReliableDatagram.ResendQueue

def packets (q : ResendQueue) : List Packet := q.entries.map (·.packet)

variable {q : ResendQueue} {p x : Packet} {s : SequenceNumber} {now : Instant}

@[simp] theorem packets_empty : empty.packets = [] := rfl

@[simp] theorem entries_compact (q : ResendQueue) : q.compact.entries = q.entries := by
  unfold compact
  split_ifs <;> rfl

theorem entries_acknowledge (q : ResendQueue) (s : SequenceNumber) :
    (q.acknowledge s).2.entries = q.entries.filter (·.packet.sequence ≠ s) := by
  unfold acknowledge
  split
  · rename_i hnone
    exact (List.filter_eq_self.mpr fun e he => by simpa using List.find?_eq_none.mp hnone e he).symm
  · rw [entries_compact, erase]

theorem entries_dropSuperseded (q : ResendQueue) (channel : Nat) (index : OrderingIndex) :
    (q.dropSuperseded channel index).2.entries =
      q.entries.filter (!isSuperseded channel index ·.packet) := by
  unfold dropSuperseded
  dsimp only
  split_ifs
  · rw [entries_compact]
  · rfl

theorem peekDue_snd (q : ResendQueue) (now : Instant) : (q.peekDue now).2 = q.skipStale := by
  rw [peekDue]
  split <;> rfl

/-- An overdue packet at the front, and the queue without it. -/
theorem exists_of_peekDue (h : (q.peekDue now).1 = some p) :
    ∃ e ∈ q.entries, e.packet = p ∧ e.due ≤ now ∧
      q.popFront.2.entries = q.entries.filter (·.packet.sequence ≠ p.sequence) := by
  unfold peekDue at h
  unfold popFront
  dsimp only at h ⊢
  split at h
  · cases h
  · rename_i front order horder
    obtain ⟨e, he, rfl⟩ := Option.map_eq_some_iff.mp h
    obtain ⟨hfind, hdue⟩ := Option.filter_eq_some_iff.mp he
    have hfront : e.packet.sequence = front := by simpa using List.find?_some hfind
    refine ⟨e, List.mem_of_find?_eq_some (l := q.entries) hfind, rfl, of_decide_eq_true hdue, ?_⟩
    rw [hfront]
    rfl

@[simp] theorem packets_push (q : ResendQueue) (p : Packet) (due : Instant) :
    (q.push p due).packets = q.packets.filter (·.sequence ≠ p.sequence) ++ [p] := by
  rw [packets, packets, List.filter_map]
  simp only [push, erase, List.map_append]
  rfl

theorem mem_packets_push_self (q : ResendQueue) (p : Packet) (due : Instant) :
    p ∈ (q.push p due).packets := by
  rw [packets_push]
  exact List.mem_append_right _ (List.mem_singleton_self p)

theorem mem_packets_push (hx : x ∈ q.packets) (hne : x.sequence ≠ p.sequence) (due : Instant) :
    x ∈ (q.push p due).packets := by
  rw [packets_push]
  exact List.mem_append_left _ (List.mem_filter.mpr ⟨hx, by simpa using hne⟩)

/-- A packet is sent again under its number, or for the first time. -/
theorem forall_packets_push {P : Packet → Prop} (h : ∀ x ∈ q.packets, P x) (hp : P p) (due : Instant) :
    ∀ x ∈ (q.push p due).packets, P x := by
  intro x hx
  rw [packets_push] at hx
  rcases List.mem_append.mp hx with hx | hx
  · exact h x (List.mem_filter.mp hx).1
  · rw [List.mem_singleton.mp hx]
    exact hp

theorem mem_packets_of_peekDue (h : (q.peekDue now).1 = some p) : p ∈ q.packets := by
  obtain ⟨e, he, rfl, -⟩ := exists_of_peekDue h
  exact List.mem_map_of_mem he

theorem packets_popFront (h : (q.peekDue now).1 = some p) :
    q.popFront.2.packets = q.packets.filter (·.sequence ≠ p.sequence) := by
  obtain ⟨-, -, -, -, hentries⟩ := exists_of_peekDue h
  rw [packets, hentries, packets, List.filter_map]
  rfl

/-- Packets in flight that are overdue. -/
def dueCount (q : ResendQueue) (now : Instant) : Nat := q.entries.countP (·.due ≤ now)

theorem dueCount_le_length (q : ResendQueue) (now : Instant) : q.dueCount now ≤ q.length :=
  List.countP_le_length

theorem dueCount_push_le {due : Instant} (hlater : now < due) :
    (q.push p due).dueCount now ≤ q.dueCount now := by
  have hnew : [({ packet := p, due } : ResendEntry)].countP (·.due ≤ now) = 0 := by
    simp [Nat.not_le.mpr hlater]
  rw [dueCount, push, List.countP_append, hnew, Nat.add_zero]
  exact List.Sublist.countP_le (List.filter_sublist ..)

/-- What is sent again is not overdue any more. -/
theorem dueCount_again_lt {due : Instant} (hdue : (q.peekDue now).1 = some p) (hlater : now < due) :
    (q.popFront.2.push p due).dueCount now < q.dueCount now := by
  obtain ⟨e, he, rfl, hle, hentries⟩ := exists_of_peekDue hdue
  have hsplit : q.dueCount now = _ := q.entries.countP_eq_countP_filter_add (·.due ≤ now)
    (·.packet.sequence ≠ e.packet.sequence)
  have hgone : 0 < (q.entries.filter fun x => !decide (x.packet.sequence ≠ e.packet.sequence)).countP
      (·.due ≤ now) :=
    List.countP_pos_iff.mpr ⟨e, List.mem_filter.mpr ⟨he, by simp⟩, by simpa using hle⟩
  have hpop : q.popFront.2.dueCount now =
      (q.entries.filter (·.packet.sequence ≠ e.packet.sequence)).countP (·.due ≤ now) := by
    rw [dueCount, hentries]
  have hpush := dueCount_push_le (q := q.popFront.2) (p := e.packet) hlater
  omega

/-- The acknowledgement of `s` lets a packet go that has this number, or that is older than the
sequenced packet with this number. -/
def frees (q : ResendQueue) (s : SequenceNumber) (x : Packet) : Bool :=
  x.sequence = s ||
    match q.find? s with
    | none => false
    | some e =>
      match e.packet.reliability, e.packet.place with
      | .reliableSequenced, some place => isSuperseded place.channel place.index x
      | _, _ => false

/-- The acknowledgement of `s` is that of `x`, or of a sequenced packet in flight that is newer and on
the same channel. -/
def Releases (q : ResendQueue) (s : SequenceNumber) (x : Packet) : Prop :=
  x.sequence = s ∨ ∃ y ∈ q.packets, y.sequence = s ∧ y.reliability = .reliableSequenced ∧
    ∃ place, y.place = some place ∧ isSuperseded place.channel place.index x = true

theorem releases_of_frees (h : q.frees s x = true) : q.Releases s x := by
  rw [frees, Bool.or_eq_true] at h
  rcases h with h | h
  · exact Or.inl (of_decide_eq_true h)
  · split at h
    · cases h
    · rename_i e hfind
      have hsequence : e.packet.sequence = s := by simpa using List.find?_some hfind
      have hmem : e.packet ∈ q.packets := List.mem_map_of_mem (List.mem_of_find?_eq_some hfind)
      split at h
      · rename_i place hreliability hplace
        exact Or.inr ⟨e.packet, hmem, hsequence, hreliability, place, hplace, h⟩
      · cases h

theorem Releases.mono {q' : ResendQueue} (h : q.Releases s x) (hpackets : q.packets ⊆ q'.packets) :
    q'.Releases s x := by
  rcases h with h | ⟨y, hy, h⟩
  · exact Or.inl h
  · exact Or.inr ⟨y, hpackets hy, h⟩

/-- Any other packet goes with its own acknowledgement only. -/
theorem Releases.sequence_eq (h : q.Releases s x) (hx : x.reliability ≠ .reliableSequenced) :
    x.sequence = s := by
  rcases h with h | ⟨y, -, -, -, place, -, hsuperseded⟩
  · exact h
  · rw [isSuperseded] at hsuperseded
    split at hsuperseded
    · simp [hx] at hsuperseded
    · cases hsuperseded

/-- No two packets share a number, and the order lists all of them, so each has its turn. -/
structure Sound (q : ResendQueue) : Prop where
  distinct : (q.packets.map (·.sequence)).Nodup
  listed : ∀ x ∈ q.packets, x.sequence ∈ q.order

namespace Sound

theorem eq_of_sequence (h : q.Sound) {y : Packet} (hx : x ∈ q.packets) (hy : y ∈ q.packets)
    (hxy : x.sequence = y.sequence) : x = y :=
  List.inj_on_of_nodup_map h.distinct hx hy hxy

theorem empty : ResendQueue.empty.Sound := ⟨List.nodup_nil, by simp⟩

theorem contains_of_mem (hx : x ∈ q.packets) : q.contains x.sequence = true := by
  obtain ⟨e, he, rfl⟩ := List.mem_map.mp hx
  rw [contains, find?, List.find?_isSome]
  exact ⟨e, he, by simp⟩

/-- Fewer packets, in an order that still lists them. -/
theorem shrink (h : q.Sound) {q' : ResendQueue} (keep : Packet → Bool)
    (hpackets : q'.packets = q.packets.filter keep)
    (hlisted : ∀ x ∈ q'.packets, x.sequence ∈ q.order → x.sequence ∈ q'.order) : q'.Sound := by
  refine ⟨?_, fun x hx => hlisted x hx (h.listed x ?_)⟩
  · rw [hpackets]
    exact h.distinct.sublist ((List.filter_sublist ..).map _)
  · rw [hpackets] at hx
    exact (List.mem_filter.mp hx).1

theorem compact (h : q.Sound) : q.compact.Sound := by
  rw [ResendQueue.compact]
  split_ifs
  · refine ⟨h.distinct, fun x hx => List.mem_filter.mpr ⟨h.listed x hx, contains_of_mem hx⟩⟩
  · exact h

theorem erase (h : q.Sound) (s : SequenceNumber) : (q.erase s).Sound := by
  refine h.shrink (fun x => x.sequence ≠ s) ?_ fun _ _ hx => hx
  rw [packets, packets, List.filter_map]
  rfl

theorem push (h : q.Sound) (p : Packet) (due : Instant) : (q.push p due).Sound := by
  constructor
  · rw [packets_push, List.map_append, List.nodup_append]
    refine ⟨h.distinct.sublist ((List.filter_sublist ..).map _), List.nodup_singleton _, ?_⟩
    intro a ha b hb
    obtain ⟨x, hx, rfl⟩ := List.mem_map.mp ha
    obtain rfl := List.mem_singleton.mp hb
    simpa using (List.mem_filter.mp hx).2
  · refine forall_packets_push (fun x hx => ?_) ?_ due
    · exact List.mem_append_left _ (h.listed x hx)
    · exact List.mem_append_right _ (List.mem_singleton_self _)

theorem skipStale (h : q.Sound) : q.skipStale.Sound := by
  refine ⟨h.distinct, fun x hx => ?_⟩
  have hlisted := h.listed x hx
  rw [← List.takeWhile_append_dropWhile (p := (!q.contains ·)) (l := q.order)] at hlisted
  rcases List.mem_append.mp hlisted with hstale | hlisted
  · have hcontains := contains_of_mem (q := q) hx
    have := List.mem_takeWhile_imp hstale
    rw [hcontains] at this
    cases this
  · exact hlisted

theorem popFront (h : q.Sound) : q.popFront.2.Sound := by
  have hskip := h.skipStale
  rw [ResendQueue.popFront]
  dsimp only
  split
  · exact hskip
  · rename_i front order horder
    refine ⟨(hskip.erase front).distinct, fun x hx => ?_⟩
    have hmem : x ∈ (q.skipStale.erase front).packets := hx
    have hfront : x.sequence ≠ front := by
      obtain ⟨e, he, rfl⟩ := List.mem_map.mp hmem
      simpa using (List.mem_filter.mp he).2
    have hlisted : x.sequence ∈ q.skipStale.order := (hskip.erase front).listed x hmem
    rw [horder] at hlisted
    exact (List.mem_cons.mp hlisted).resolve_left hfront

theorem acknowledge (h : q.Sound) (s : SequenceNumber) : (q.acknowledge s).2.Sound := by
  rw [ResendQueue.acknowledge]
  split
  · exact h
  · exact (h.erase s).compact

theorem dropSuperseded (h : q.Sound) (channel : Nat) (index : OrderingIndex) :
    (q.dropSuperseded channel index).2.Sound := by
  have hkept : ({ q with entries := q.entries.filter (!isSuperseded channel index ·.packet) } :
      ResendQueue).Sound := by
    refine h.shrink (!isSuperseded channel index ·) ?_ fun _ _ hx => hx
    rw [packets, packets, List.filter_map]
    rfl
  rw [ResendQueue.dropSuperseded]
  dsimp only
  split_ifs
  · exact hkept.compact
  · exact hkept

/-- A packet that is sent again takes its own place, and all others keep theirs. -/
theorem mem_packets_again (h : q.Sound) (hdue : (q.peekDue now).1 = some p) (hx : x ∈ q.packets)
    (due : Instant) : x ∈ (q.popFront.2.push p due).packets := by
  by_cases hsequence : x.sequence = p.sequence
  · rw [h.eq_of_sequence hx (mem_packets_of_peekDue hdue) hsequence]
    exact mem_packets_push_self ..
  · refine mem_packets_push ?_ hsequence due
    rw [packets_popFront hdue]
    exact List.mem_filter.mpr ⟨hx, by simpa using hsequence⟩

end Sound

end ReliableDatagram.ResendQueue
