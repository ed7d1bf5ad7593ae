import Mathlib.Order.Monotone.Defs
import ReliableDatagram.Proofs.Sending.InFlight

/-!
# Deadlines

Packets in flight and pending acknowledgements have deadlines, and of each queue only the first one is
looked at. A `Timetable` tells when deadlines were set and which delay was in force then. In a queue
whose deadlines are `Dated` they stand in the order in which they were set, so that one of them can be
missed only behind another for which a longer delay was in force. The front of a resend queue is its
first packet if the queue is `InLine` and no number is listed twice.
-/
namespace ReliableDatagram

/-- Times in the order in which they came, with the delay that was in force at each. -/
abbrev Timetable := List (Instant × Duration)

namespace Timetable

variable {table : Timetable} {wait : Duration → Duration} {dues : List Instant}

/-- The deadline was set at the time in row `k`; `wait` says how much of the delay it waits. -/
def Sets (table : Timetable) (wait : Duration → Duration) (k : Nat) (due : Instant) : Prop :=
  ∃ now delay, table[k]? = some (now, delay) ∧ due = now + wait delay

/-- Both deadlines were set in this order, the second one after the delay had become shorter. -/
def Outlasts (table : Timetable) (wait : Duration → Duration) (early late : Instant) : Prop :=
  ∃ (j k : Nat) (now : Instant) (delay : Duration) (later : Instant) (shorter : Duration),
    j < k ∧ table[j]? = some (now, delay) ∧ table[k]? = some (later, shorter) ∧
    shorter < delay ∧ early = now + wait delay ∧ late = later + wait shorter

/-- The deadlines stand in the order in which they were set. -/
structure Dated (table : Timetable) (wait : Duration → Duration) (dues : List Instant) : Prop where
  row : ∀ due ∈ dues, ∃ k, table.Sets wait k due
  inOrder : dues.Pairwise fun early late =>
    ∃ j k, j ≤ k ∧ table.Sets wait j early ∧ table.Sets wait k late

theorem Sets.lt_length {k : Nat} {due : Instant} (h : table.Sets wait k due) : k < table.length := by
  obtain ⟨now, delay, hrow, -⟩ := h
  exact (List.getElem?_eq_some_iff.mp hrow).1

theorem Sets.append {k : Nat} {due : Instant} (h : table.Sets wait k due) (later : Timetable) :
    Sets (table ++ later) wait k due := by
  obtain ⟨now, delay, hrow, hdue⟩ := h
  refine ⟨now, delay, ?_, hdue⟩
  rw [List.getElem?_append_left (List.getElem?_eq_some_iff.mp hrow).1, hrow]

/-- Of two deadlines in the order in which they were set, the second one ends first only if the delay
has become shorter. -/
theorem outlasts_of_lt {j k : Nat} {early late : Instant} (hjk : j ≤ k)
    (hj : table.Sets wait j early) (hk : table.Sets wait k late) (hwait : Monotone wait)
    (htimes : (table.map Prod.fst).Pairwise (· ≤ ·)) (hlt : late < early) :
    table.Outlasts wait early late := by
  obtain ⟨now, delay, hrow, rfl⟩ := hj
  obtain ⟨later, shorter, hrow', rfl⟩ := hk
  rcases Nat.eq_or_lt_of_le hjk with rfl | hjk
  · obtain ⟨rfl, rfl⟩ := Prod.mk.inj (Option.some.inj (hrow.symm.trans hrow'))
    exact absurd hlt (Nat.lt_irrefl _)
  · have hle : now ≤ later := by
      obtain ⟨hj, hnow⟩ := List.getElem?_eq_some_iff.mp hrow
      obtain ⟨hk, hlater⟩ := List.getElem?_eq_some_iff.mp hrow'
      have := List.pairwise_iff_getElem.mp htimes j k (by simpa using hj) (by simpa using hk) hjk
      simpa [hnow, hlater] using this
    have hshorter : shorter < delay := by
      by_contra hnot
      exact Nat.not_le.mpr hlt (Nat.add_le_add hle (hwait (Nat.not_lt.mp hnot)))
    exact ⟨j, k, now, delay, later, shorter, hjk, hrow, hrow', hshorter, rfl, rfl⟩

/-- With one delay in force all the time, no deadline outlasts a later one. -/
theorem Outlasts.not_constant {early late : Instant} {delay : Duration}
    (h : table.Outlasts wait early late) : ¬∀ row ∈ table, row.2 = delay := by
  obtain ⟨j, k, now, longer, later, shorter, -, hrow, hrow', hless, -⟩ := h
  intro hconstant
  have hlonger : longer = delay := hconstant _ (List.mem_of_getElem? hrow)
  have hshorter : shorter = delay := hconstant _ (List.mem_of_getElem? hrow')
  exact Nat.lt_irrefl _ (hlonger ▸ hshorter ▸ hless)

namespace Dated

theorem nil (table : Timetable) (wait : Duration → Duration) : table.Dated wait [] :=
  ⟨by simp, .nil⟩

theorem sublist (h : table.Dated wait dues) {dues' : List Instant} (hsub : dues'.Sublist dues) :
    table.Dated wait dues' :=
  ⟨fun due hdue => h.row due (hsub.subset hdue), h.inOrder.sublist hsub⟩

theorem append (h : table.Dated wait dues) (later : Timetable) :
    Dated (table ++ later) wait dues := by
  refine ⟨fun due hdue => ?_, h.inOrder.imp ?_⟩
  · obtain ⟨k, hk⟩ := h.row due hdue
    exact ⟨k, hk.append later⟩
  · rintro early late ⟨j, k, hjk, hj, hk⟩
    exact ⟨j, k, hjk, hj.append later, hk.append later⟩

/-- A deadline is set in the last row. -/
theorem concat (h : table.Dated wait dues) {now : Instant} {delay : Duration}
    (hlast : table.getLast? = some (now, delay)) : table.Dated wait (dues ++ [now + wait delay]) := by
  have hset : table.Sets wait (table.length - 1) (now + wait delay) :=
    ⟨now, delay, by rw [← List.getLast?_eq_getElem?, hlast], rfl⟩
  refine ⟨fun due hdue => ?_, List.pairwise_append.mpr ⟨h.inOrder, List.pairwise_singleton .., ?_⟩⟩
  · rcases List.mem_append.mp hdue with hdue | hdue
    · exact h.row due hdue
    · obtain rfl := List.mem_singleton.mp hdue
      exact ⟨_, hset⟩
  · intro early hearly late hlate
    obtain rfl := List.mem_singleton.mp hlate
    obtain ⟨j, hj⟩ := h.row early hearly
    exact ⟨j, _, Nat.le_sub_one_of_lt hj.lt_length, hj, hset⟩

/-- If the deadline in front is not over, any that is over stands behind one with a longer delay. -/
theorem exists_outlasts {α : Type} {due : α → Instant} {l : List α} {now : Instant} {x : α}
    (h : table.Dated wait (l.map due)) (hwait : Monotone wait)
    (htimes : (table.map Prod.fst).Pairwise (· ≤ ·)) (hfront : ∀ a ∈ l.head?, now < due a)
    (hx : x ∈ l) (hdue : due x ≤ now) :
    ∃ a ∈ l.head?, now < due a ∧ table.Outlasts wait (due a) (due x) := by
  cases l with
  | nil => cases hx
  | cons a l =>
    have ha : now < due a := hfront a rfl
    rcases List.mem_cons.mp hx with rfl | hx
    · exact absurd hdue (Nat.not_le.mpr ha)
    · obtain ⟨j, k, hjk, hj, hk⟩ :=
        (List.pairwise_cons.mp h.inOrder).1 (due x) (List.mem_map_of_mem hx)
      exact ⟨a, rfl, ha, outlasts_of_lt hjk hj hk hwait htimes (Nat.lt_of_le_of_lt hdue ha)⟩

end Dated
end Timetable

namespace ResendQueue

variable {q q' : ResendQueue} {p : Packet} {now : Instant}

def numbers (q : ResendQueue) : List SequenceNumber := q.entries.map (·.packet.sequence)

/-- The order lists the packets in flight as they were pushed. -/
def InLine (q : ResendQueue) : Prop := q.numbers.Sublist q.order

theorem contains_of_mem_numbers {s : SequenceNumber} (h : s ∈ q.numbers) : q.contains s = true := by
  obtain ⟨e, he, rfl⟩ := List.mem_map.mp h
  rw [contains, find?, List.find?_isSome]
  exact ⟨e, he, by simp⟩

/-- A number that the queue contains is that of a packet. -/
theorem mem_numbers_of_contains {s : SequenceNumber} (h : q.contains s = true) : s ∈ q.numbers := by
  rw [contains, find?, List.find?_isSome] at h
  obtain ⟨e, he, hs⟩ := h
  exact List.mem_map.mpr ⟨e, he, of_decide_eq_true hs⟩

theorem sublist_dropWhile {α : Type} {f : α → Bool} {l l' : List α} (h : l.Sublist l')
    (hl : ∀ x ∈ l, f x = false) : l.Sublist (l'.dropWhile f) := by
  rw [← List.takeWhile_append_dropWhile (p := f) (l := l')] at h
  obtain ⟨front, back, rfl, hfront, hback⟩ := List.sublist_append_iff.mp h
  have hnil : front = [] := by
    refine List.eq_nil_iff_forall_not_mem.mpr fun x hx => ?_
    have htrue := List.mem_takeWhile_imp (hfront.subset hx)
    rw [hl x (List.mem_append_left _ hx)] at htrue
    cases htrue
  rw [hnil]
  exact hback

/-- A queue loses packets, and numbers in its order. -/
structure Shrinks (q q' : ResendQueue) : Prop where
  order : q'.order.Sublist q.order
  inLine : q.InLine → q'.InLine

namespace Shrinks

theorem refl (q : ResendQueue) : q.Shrinks q := ⟨List.Sublist.refl _, id⟩

theorem trans {q'' : ResendQueue} (h : q.Shrinks q') (h' : q'.Shrinks q'') : q.Shrinks q'' :=
  ⟨h'.order.trans h.order, fun hq => h'.inLine (h.inLine hq)⟩

theorem filter (q : ResendQueue) (keep : ResendEntry → Bool) :
    q.Shrinks { q with entries := q.entries.filter keep } :=
  ⟨List.Sublist.refl _, fun h => (List.filter_sublist.map _).trans h⟩

theorem compact (q : ResendQueue) : q.Shrinks q.compact := by
  rw [ResendQueue.compact]
  split_ifs
  · refine ⟨List.filter_sublist, fun h => ?_⟩
    have hkept : q.numbers.filter q.contains = q.numbers :=
      List.filter_eq_self.mpr fun s hs => contains_of_mem_numbers hs
    have hfilter := List.Sublist.filter q.contains h
    rwa [hkept] at hfilter
  · exact .refl q

theorem skipStale (q : ResendQueue) : q.Shrinks q.skipStale := by
  refine ⟨List.dropWhile_sublist _, fun h => sublist_dropWhile h fun s hs => ?_⟩
  rw [contains_of_mem_numbers (q := q) hs]
  rfl

theorem peekDue (q : ResendQueue) (now : Instant) : q.Shrinks (q.peekDue now).2 := by
  rw [peekDue_snd]
  exact .skipStale q

theorem popFront (q : ResendQueue) : q.Shrinks q.popFront.2 := by
  have hskip := Shrinks.skipStale q
  rw [ResendQueue.popFront]
  dsimp only
  split
  · exact hskip
  · rename_i front order horder
    refine hskip.trans ⟨horder ▸ List.sublist_cons_self .., fun h => ?_⟩
    have hkept : (q.skipStale.erase front).numbers = q.skipStale.numbers.filter (· ≠ front) := by
      rw [numbers, numbers, List.filter_map]
      rfl
    have hfilter := List.Sublist.filter (· ≠ front) h
    rw [horder, List.filter_cons_of_neg (by simp)] at hfilter
    show (q.skipStale.erase front).numbers.Sublist order
    rw [hkept]
    exact hfilter.trans List.filter_sublist

theorem acknowledge (q : ResendQueue) (s : SequenceNumber) : q.Shrinks (q.acknowledge s).2 := by
  rw [ResendQueue.acknowledge]
  split
  · exact .refl q
  · exact (Shrinks.filter q _).trans (.compact _)

theorem dropSuperseded (q : ResendQueue) (channel : Nat) (index : OrderingIndex) :
    q.Shrinks (q.dropSuperseded channel index).2 := by
  have hkept := Shrinks.filter q (!isSuperseded channel index ·.packet)
  rw [ResendQueue.dropSuperseded]
  dsimp only
  split_ifs
  · exact hkept.trans (.compact _)
  · exact hkept

end Shrinks

theorem InLine.push (h : q.InLine) (p : Packet) (due : Instant) : (q.push p due).InLine := by
  have hnumbers : (q.push p due).numbers = (q.erase p.sequence).numbers ++ [p.sequence] := by
    rw [numbers, ResendQueue.push, List.map_append]
    rfl
  rw [InLine, hnumbers]
  exact ((Shrinks.filter q _).inLine h).append_right _

/-- In an order that lists numbers once, the first that is not stale is that of the first packet. -/
theorem head?_skipStale (h : q.InLine) (hnodup : q.order.Nodup) :
    q.skipStale.order.head? = q.numbers.head? := by
  have hskip := Shrinks.skipStale q
  have hline : q.numbers.Sublist q.skipStale.order := hskip.inLine h
  cases horder : q.skipStale.order with
  | nil =>
    rw [horder, List.sublist_nil] at hline
    rw [hline]
  | cons s order =>
    have hlive : s ∈ q.numbers := by
      have hhead := List.head?_dropWhile_not (!q.contains ·) q.order
      have hs : q.order.dropWhile (!q.contains ·) = s :: order := horder
      rw [hs] at hhead
      exact mem_numbers_of_contains (by simpa using hhead)
    cases hnumbers : q.numbers with
    | nil =>
      rw [hnumbers] at hlive
      cases hlive
    | cons n numbers =>
      rw [hnumbers, horder] at hline
      rcases List.sublist_cons_iff.mp hline with hrest | ⟨r, hr, -⟩
      · have hmem : s ∈ order := hrest.subset (hnumbers ▸ hlive)
        exact absurd hmem (List.nodup_cons.mp (horder ▸ hnodup.sublist hskip.order)).1
      · exact congrArg some (List.cons.inj hr).1.symm

/-- Nothing is in flight, or the first packet is in front. -/
theorem skipStale_cases (h : q.InLine) (hnodup : q.order.Nodup) :
    q.entries = [] ∧ q.skipStale.order = [] ∨
      ∃ first rest order, q.entries = first :: rest ∧
        q.skipStale.order = first.packet.sequence :: order ∧
        q.skipStale.find? first.packet.sequence = some first := by
  have hhead := head?_skipStale h hnodup
  cases hentries : q.entries with
  | nil => exact Or.inl ⟨rfl, by simpa [numbers, hentries] using hhead⟩
  | cons first rest =>
    have hfront : q.skipStale.order.head? = some first.packet.sequence := by
      simpa [numbers, hentries] using hhead
    obtain ⟨order, horder⟩ := List.head?_eq_some_iff.mp hfront
    have hfind : q.entries.find? (·.packet.sequence = first.packet.sequence) = some first := by
      rw [hentries, List.find?_cons_of_pos (by simp)]
    exact Or.inr ⟨first, rest, order, rfl, horder, hfind⟩

/-- The first packet is looked at. -/
theorem peekDue_fst (h : q.InLine) (hnodup : q.order.Nodup) :
    (q.peekDue now).1 = (q.entries.head?.filter (·.due ≤ now)).map (·.packet) := by
  rw [peekDue]
  rcases skipStale_cases h hnodup with ⟨hentries, horder⟩ | ⟨first, rest, order, hentries, horder, hfind⟩
  · simp [hentries, horder]
  · simp [hentries, horder, hfind]

theorem lt_due_of_peekDue_eq_none (h : q.InLine) (hnodup : q.order.Nodup)
    (hfront : (q.peekDue now).1 = none) : ∀ e ∈ q.entries.head?, now < e.due := by
  intro e he
  rw [peekDue_fst h hnodup, Option.mem_def.mp he] at hfront
  simpa using hfront

end ResendQueue
end ReliableDatagram
