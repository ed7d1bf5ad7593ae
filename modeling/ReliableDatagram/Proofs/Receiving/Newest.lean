import ReliableDatagram.Proofs.Receiving.Inbox

/-!
# The newest complete message

Sequenced messages become complete in some order, the order in which their last packets arrive. One of
them is to come out just when it becomes complete before every newer one of its channel. `Lanes.Leads` is
the invariant for that: what came out are these messages, and every channel is past the newest of them.
-/
namespace ReliableDatagram

namespace Arrivals

/-- All numbers of a message have come. -/
def Completes (arrived : Arrivals) (owns : Nat → Prop) : Prop :=
  ∀ n, owns n → n ∈ arrived.map Prod.fst

/-- At some time the first message was complete, and the second one was not. -/
def CompletesFirst (arrived : Arrivals) (owns owns' : Nat → Prop) : Prop :=
  ∃ front : Arrivals, front <+: arrived ∧ front.Completes owns ∧ ¬front.Completes owns'

variable {arrived later : Arrivals} {owns owns' : Nat → Prop} {x : Nat × Instant}

theorem Completes.mono (h : arrived.Completes owns) (hlater : arrived <+: later) :
    later.Completes owns :=
  fun n hn => (hlater.map Prod.fst).subset (h n hn)

/-- What is not waited for makes no message complete. -/
theorem completes_snoc_iff (hx : owns x.1 → x.1 ∈ arrived.map Prod.fst) :
    Completes (arrived ++ [x]) owns ↔ arrived.Completes owns := by
  refine ⟨fun h n hn => ?_, fun h => h.mono (List.prefix_append ..)⟩
  have hmem := h n hn
  rw [List.map_append, List.mem_append] at hmem
  rcases hmem with hold | hlast
  · exact hold
  · obtain rfl := List.mem_singleton.mp hlast
    exact hx hn

theorem CompletesFirst.mono (h : arrived.CompletesFirst owns owns') (hlater : arrived <+: later) :
    later.CompletesFirst owns owns' := by
  obtain ⟨front, hfront, hrest⟩ := h
  exact ⟨front, hfront.trans hlater, hrest⟩

theorem completesFirst_of_not_completes (h : arrived.Completes owns) (h' : ¬arrived.Completes owns') :
    arrived.CompletesFirst owns owns' := ⟨arrived, List.prefix_refl _, h, h'⟩

theorem CompletesFirst.completes (h : arrived.CompletesFirst owns owns') : arrived.Completes owns := by
  obtain ⟨front, hfront, hall, -⟩ := h
  exact hall.mono hfront

/-- Once the second message is complete, the matter is settled. -/
theorem completesFirst_snoc_iff (h' : Completes (arrived ++ [x]) owns') :
    CompletesFirst (arrived ++ [x]) owns owns' ↔ arrived.CompletesFirst owns owns' := by
  refine ⟨?_, fun h => h.mono (List.prefix_append ..)⟩
  rintro ⟨front, hfront, hall, hmissing⟩
  rcases List.prefix_concat_iff.mp hfront with rfl | hfront
  · exact absurd h' hmissing
  · exact ⟨front, hfront, hall, hmissing⟩

end Arrivals

/-- The message is complete, and no newer one of its channel was complete before it. -/
def Newest (ms : List Shipment) (arrived : Arrivals) (m : Shipment) : Prop :=
  arrived.Completes m.Owns ∧ ∀ y ∈ ms, m.Precedes y → ¬arrived.CompletesFirst y.Owns m.Owns

namespace Newest

variable {ms : List Shipment} {arrived : Arrivals} {m : Shipment} {x : Nat × Instant}

theorem snoc_iff (hsame : Arrivals.Completes (arrived ++ [x]) m.Owns ↔ arrived.Completes m.Owns) :
    Newest ms (arrived ++ [x]) m ↔ Newest ms arrived m := by
  constructor
  · rintro ⟨hall, hfirst⟩
    refine ⟨hsame.mp hall, fun y hy hprec hearlier => hfirst y hy hprec ?_⟩
    exact hearlier.mono (List.prefix_append ..)
  · rintro ⟨hall, hfirst⟩
    refine ⟨hsame.mpr hall, fun y hy hprec hearlier => hfirst y hy hprec ?_⟩
    exact (Arrivals.completesFirst_snoc_iff (hsame.mpr hall)).mp hearlier

/-- A message that becomes complete now is the newest if no newer one is complete already. -/
theorem of_last (hall : Arrivals.Completes (arrived ++ [x]) m.Owns)
    (hnewer : ∀ y ∈ ms, m.Precedes y → ¬arrived.Completes y.Owns) : Newest ms (arrived ++ [x]) m :=
  ⟨hall, fun y hy hprec hearlier =>
    hnewer y hy hprec ((Arrivals.completesFirst_snoc_iff hall).mp hearlier).completes⟩

end Newest

namespace Lanes

/-- Of the sequenced messages `ms` those came out that were the newest when they became complete, in the
order in which they did, and what a channel is past are these messages and older ones. -/
structure Leads (t : Lanes Delivery) (ms : List Shipment) (arrived : Arrivals) (out : List Shipment) :
    Prop where
  past : ∀ m ∈ ms, t.IsPast m → ∃ y ∈ out, m = y ∨ m.Precedes y
  inOrder : out.Pairwise fun y z => arrived.CompletesFirst y.Owns z.Owns
  mem : ∀ m ∈ out, m ∈ ms
  mem_iff : ∀ m ∈ ms, m ∈ out ↔ Newest ms arrived m

namespace Leads

variable {t t' : Lanes Delivery} {ms out : List Shipment} {arrived : Arrivals} {m : Shipment}
  {x : Nat × Instant}

theorem completes (h : t.Leads ms arrived out) (hm : m ∈ out) : arrived.Completes m.Owns :=
  ((h.mem_iff m (h.mem m hm)).mp hm).1

/-- No message becomes complete. -/
theorem stay (h : t.Leads ms arrived out)
    (hsame : ∀ y ∈ ms, Arrivals.Completes (arrived ++ [x]) y.Owns ↔ arrived.Completes y.Owns) :
    t.Leads ms (arrived ++ [x]) out where
  past := h.past
  inOrder := h.inOrder.imp fun hearlier => hearlier.mono (List.prefix_append ..)
  mem := h.mem
  mem_iff y hy := (h.mem_iff y hy).trans (Newest.snoc_iff (hsame y hy)).symm

section last

variable (h : t.Leads ms arrived out) (hm : m ∈ ms) (hmissing : ¬arrived.Completes m.Owns)
  (hothers : ∀ y ∈ ms, y ≠ m → (Arrivals.Completes (arrived ++ [x]) y.Owns ↔ arrived.Completes y.Owns))
include h hm hmissing hothers

/-- A message is lost if it becomes complete when its channel is past it. -/
theorem pass (hpast : Arrivals.Completes (arrived ++ [x]) m.Owns → t.IsPast m) :
    t.Leads ms (arrived ++ [x]) out := by
  have hout : m ∉ out := fun hm => hmissing (h.completes hm)
  have hlost : ¬Newest ms (arrived ++ [x]) m := by
    rintro ⟨hall, hfirst⟩
    obtain ⟨y, hy, rfl | hprec⟩ := h.past m hm (hpast hall)
    · exact hout hy
    · have hearlier := Arrivals.completesFirst_of_not_completes (h.completes hy) hmissing
      exact hfirst y (h.mem y hy) hprec (hearlier.mono (List.prefix_append ..))
  refine ⟨h.past, h.inOrder.imp fun hearlier => hearlier.mono (List.prefix_append ..), h.mem,
    fun y hy => ?_⟩
  by_cases hym : y = m
  · subst hym
    exact iff_of_false hout hlost
  · exact (h.mem_iff y hy).trans (Newest.snoc_iff (hothers y hy hym)).symm

/-- A message that becomes complete comes out if no newer one is complete, and its channel goes past it. -/
theorem lead (hall : Arrivals.Completes (arrived ++ [x]) m.Owns)
    (hnewer : ∀ y ∈ ms, m.Precedes y → ¬arrived.Completes y.Owns)
    (hpast : ∀ y ∈ ms, t'.IsPast y → t.IsPast y ∨ y = m ∨ y.Precedes m) :
    t'.Leads ms (arrived ++ [x]) (out ++ [m]) := by
  refine ⟨fun y hy hpasty => ?_, ?_, fun y hy => ?_, fun y hy => ?_⟩
  · rcases hpast y hy hpasty with hold | hnow
    · obtain ⟨z, hz, hyz⟩ := h.past y hy hold
      exact ⟨z, List.mem_append_left _ hz, hyz⟩
    · exact ⟨m, by simp, hnow⟩
  · refine List.pairwise_append.mpr ⟨?_, List.pairwise_singleton .., fun y hy z hz => ?_⟩
    · exact h.inOrder.imp fun hearlier => hearlier.mono (List.prefix_append ..)
    · obtain rfl := List.mem_singleton.mp hz
      have hearlier := Arrivals.completesFirst_of_not_completes (h.completes hy) hmissing
      exact hearlier.mono (List.prefix_append ..)
  · rcases List.mem_append.mp hy with hy | hy
    · exact h.mem y hy
    · exact List.mem_singleton.mp hy ▸ hm
  · by_cases hym : y = m
    · subst hym
      exact iff_of_true (by simp) (Newest.of_last hall hnewer)
    · have hout : y ∈ out ++ [m] ↔ y ∈ out := by simp [hym]
      rw [hout, h.mem_iff y hy, Newest.snoc_iff (hothers y hy hym)]

end last

end Leads

theorem not_isPast_initial {m : Shipment} (hindex : m.index ≤ Counter.span) :
    ¬(initial : Lanes Delivery).IsPast m := by
  rw [IsPast, initial, PerChannel.get_replicate, Lane.isSequencedStale]
  intro hpast
  exact absurd ((Counter.isOlderThan_ofNat hindex (Nat.zero_le _)).mp hpast) (Nat.not_lt_zero _)

theorem leads_initial {ms : List Shipment} (hindex : ∀ m ∈ ms, m.index ≤ Counter.span) :
    (initial : Lanes Delivery).Leads ms [] [] where
  past m hm hpast := absurd hpast (not_isPast_initial (hindex m hm))
  inOrder := List.Pairwise.nil
  mem := by simp
  mem_iff m _ := by
    refine iff_of_false List.not_mem_nil ?_
    rintro ⟨hall, -⟩
    simpa using hall m.first m.owns_first

end Lanes

namespace Inbox

/-- Nothing was refused, and no number was given up. -/
structure Unhindered (i : Inbox) (arrived : Arrivals) : Prop where
  invalid_eq : i.invalid = 0
  waits : ∀ n, ¬GivenUp i.arrivals.timeout arrived n

variable {i i' : Inbox} {ms : List Shipment} {arrived later : Arrivals} {seen : Set Nat}
  {returned : List Delivery} {out : List Shipment} {m : Shipment}

/-- If nothing was lost until later, nothing was lost before. -/
theorem Unhindered.of_append (h : i'.Unhindered (arrived ++ later)) (hinvalid : i.invalid ≤ i'.invalid)
    (htimeout : i'.arrivals.timeout = i.arrivals.timeout) : i.Unhindered arrived where
  invalid_eq := Nat.le_zero.mp (h.invalid_eq ▸ hinvalid)
  waits n hgiven := h.waits n (htimeout ▸ hgiven.append later)

namespace Receives

variable (h : i.Receives ms arrived seen returned out) (hun : i.Unhindered arrived)
include h hun

theorem mem_seen_iff {n : Nat} : n ∈ seen ↔ n ∈ arrived.map Prod.fst :=
  ⟨h.tracks.seen_arrived n, fun hn => (h.tracks.seen_or_givenUp hn).resolve_right (hun.waits n)⟩

theorem completes_iff : arrived.Completes m.Owns ↔ m.SeenIn seen :=
  forall₂_congr fun _ _ => (h.mem_seen_iff hun).symm

/-- The channel is past a complete sequenced message, whether this has come out or not. -/
theorem isPast_of_completes (hms : Manifest ms) (hspan : total Shipment.size ms ≤ Counter.span)
    (hm : m ∈ ms) (hq : m.reliability.isSequenced = true) (hall : arrived.Completes m.Owns) :
    i.lanes.IsPast m := by
  by_contra hpast
  obtain ⟨j, hj, hmissing⟩ := h.holds.exists_missing hms hspan hm
  have hseen := (h.completes_iff hun).mp hall _ (Shipment.owns_add hj)
  rcases h.sequenced m hm hq j hj hseen with hnow | hheld | ⟨-, hrefused⟩
  · exact hpast hnow
  · exact hmissing hheld
  · exact hrefused hun.invalid_eq

end Receives
end Inbox
end ReliableDatagram
