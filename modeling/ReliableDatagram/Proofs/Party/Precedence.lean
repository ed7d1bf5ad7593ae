import ReliableDatagram.Proofs.Party.Death
import ReliableDatagram.Proofs.Party.Punctuality
import ReliableDatagram.Proofs.Session.Precedence

/-!
# When a less urgent packet goes first

A packet that does not fit the rest of a frame is passed over, and a less urgent one may take the room
and the last place in the window. This is the only way in which a less urgent packet gets ahead of a more
urgent one.
-/
namespace ReliableDatagram

/-- A packet that fits any frame needs more than two bytes. -/
theorem Entry.FitsAlone.three_le {x : Packet} {maxBytes : Nat} (h : (Entry.data x).FitsAlone maxBytes) :
    3 ≤ maxBytes := by
  have hroom : x.bitsAt 0 ≤ maxBytes * 8 - 0 := of_decide_eq_true h
  simp only [Packet.bitsAt, bytesForBits, Packet.headerBits, Packet.fixedHeaderBits, Limits.ackBits] at hroom
  omega

namespace Session

/-- In the course of the transmission, at the moment `t`, the packet `x` goes from the front of its queue
into the frame. -/
structure Takes (s : Session) (now : Instant) (q : Priority) (x : Packet) (later : List Packet)
    (t : Transmission) : Prop where
  queue_eq : t.filling.queue q = x :: later
  course : Transmission.Course now (.start s false) t
  exists_rest : ∃ t' d, Transmission.Orderly now t t' ∧ t'.filling.queue q = later ∧
    t'.entries = t.entries ++ [.data x] ∧ d.session = (s.transmit now).2 ∧
    Transmission.Course now t' { frames := (s.transmit now).1, filling := d }

variable {s : Session} {now : Instant} {q : Priority} {x : Packet} {before later : List Packet}

theorem exists_takes (halive : (s.transmit now).2.isDead = false)
    (hqueue : (s.queues.get q).toList = before ++ x :: later)
    (hleft : ((s.transmit now).2.queues.get q).toList <:+ later) : ∃ t, s.Takes now q x later t := by
  obtain ⟨d, hsession, hcourse⟩ := course_transmit halive
  have hend : d.queue q <:+ later := by
    rw [Filling.queue, hsession]
    exact hleft
  obtain ⟨t, t', hto, horderly, hfrom, hfront, hrest, hentries⟩ := hcourse.exists_taken hqueue hend
  exact ⟨t, hfront, hto, t', d, horderly, hrest, hentries, hsession, hfrom⟩

theorem Takes.stuck {t : Transmission} (h : s.Takes now q x later t) {r : Priority}
    (hurgent : r.MoreUrgent q) : t.filling.Stuck r := by
  obtain ⟨t', d, horderly, hrest, -⟩ := h.exists_rest
  refine horderly.yields q ?_ r hurgent
  rw [hrest, h.queue_eq]
  exact (List.cons_ne_self x later).symm

end Session

namespace Party

variable {p : Party}

theorem Reachable.isThrottled_of_waiting (h : p.Reachable) {now : Instant} {r : Priority}
    (hwaits : ((p.session.transmit now).2.queues.get r).toList ≠ []) :
    (p.session.transmit now).2.isDead = false ∧ (p.session.transmit now).2.isThrottled = true := by
  have hreachable : (p.act (.update now)).Reachable := h.act (.update now)
  obtain ⟨y, hy⟩ := List.exists_mem_of_ne_nil _ hwaits
  have halive : (p.session.transmit now).2.isDead = false := by
    by_contra hdead
    have hbare := hreachable.bare (Bool.not_eq_false _ ▸ hdead)
    exact hwaits (hbare.queues r)
  have hfits : (Entry.data y).FitsAlone (p.session.transmit now).2.config.frameBudget :=
    hreachable.fitsAlone.queued r y hy
  have hsame : (p.session.transmit now).2.config.frameBudget = p.session.config.frameBudget :=
    (h.changes (.update now)).frameBudget_eq
  have hbudget : 3 ≤ p.session.config.frameBudget := hsame ▸ hfits.three_le
  have hfresh := (Session.exhausted_of_alive hbudget h.fitsAlone halive).fresh
  refine ⟨halive, decide_eq_true (hfresh.resolve_right fun hnone => ?_)⟩
  have hqueued : y ∈ (p.session.transmit now).2.queued :=
    List.mem_flatMap.mpr ⟨r, by cases r <;> decide, hy⟩
  rw [hnone] at hqueued
  cases hqueued

/-- When a packet is sent for the first time and a more urgent one is left waiting, the window is full in
the end, and the less urgent packet was taken at a moment when no more urgent one could be: none of those
at the front of their queues fitted the rest of the frame. -/
theorem Reachable.precedence (h : p.Reachable) {now : Instant} {q r : Priority}
    (hurgent : r.MoreUrgent q) {x : Packet} {before later : List Packet}
    (hqueue : (p.session.queues.get q).toList = before ++ x :: later)
    (hleft : ((p.session.transmit now).2.queues.get q).toList <:+ later)
    (hwaits : ((p.session.transmit now).2.queues.get r).toList ≠ []) :
    (p.session.transmit now).2.isThrottled = true ∧ ∃ t, p.session.Takes now q x later t ∧
      (∃ y, (t.filling.queue r).head? = some y ∧ t.filling.frame.fits (.data y) = false) ∧
      ∀ r' : Priority, r'.MoreUrgent q → t.filling.Stuck r' := by
  obtain ⟨halive, hfull⟩ := h.isThrottled_of_waiting hwaits
  obtain ⟨t, htakes⟩ := Session.exists_takes halive hqueue hleft
  refine ⟨hfull, t, htakes, ?_, fun r' => htakes.stuck⟩
  -- What waits in the end has waited all the time.
  obtain ⟨t', d, horderly, -, -, hsession, hrest⟩ := htakes.exists_rest
  have hsuffix : d.queue r <:+ t.filling.queue r :=
    Transmission.Course.queue_suffix (.head horderly hrest) r
  cases hfront : t.filling.queue r with
  | nil =>
    rw [hfront, List.suffix_nil, Filling.queue, hsession] at hsuffix
    exact absurd hsuffix hwaits
  | cons y waiting => exact ⟨y, rfl, htakes.stuck hurgent y (by simp [hfront])⟩

/-- Nothing more urgent is left waiting than what is sent for the first time. -/
def RespectsPriority (p : Party) (now : Instant) : Prop :=
  ∀ q r : Priority, r.MoreUrgent q → ∀ x ∈ (p.session.queues.get q).toList,
    .data x ∈ p.session.transmitted now → ((p.session.transmit now).2.queues.get r).toList = []

/-- Two messages that do not fit one frame, three short ones between them, and a less urgent one. The
window has five places. -/
def crowded : Party :=
  [.send (.replicate 400 7) .high .reliable 0, .send [1] .high .reliable 0, .send [2] .high .reliable 0,
    .send [3] .high .reliable 0, .send (.replicate 400 8) .high .reliable 0,
    .send [9] .low .reliable 0].foldl act (.new .default 0)

theorem reachable_crowded : crowded.Reachable := (Reachable.new .default 0).acts _

/-- The less urgent message takes the last place. -/
theorem not_respectsPriority_crowded : ¬∀ p : Party, p.Reachable → ∀ now, p.RespectsPriority now := by
  intro h
  obtain ⟨x, hqueue, hsent⟩ : ∃ x ∈ (crowded.session.queues.get .low).toList,
      .data x ∈ crowded.session.transmitted 0 := by
    decide +kernel
  have hnone := h crowded reachable_crowded 0 .low .high (by decide) x hqueue hsent
  have hleft : ((crowded.session.transmit 0).2.queues.get .high).toList.length = 1 := by decide +kernel
  rw [hnone] at hleft
  cases hleft

theorem precedence_crowded :
    ∃ x, Priority.high.MoreUrgent .low ∧ (crowded.session.queues.get .low).toList = [] ++ x :: [] ∧
      ((crowded.session.transmit 0).2.queues.get .low).toList <:+ [] ∧
      ((crowded.session.transmit 0).2.queues.get .high).toList ≠ [] ∧
      (crowded.session.transmit 0).2.isThrottled = true ∧
      ∃ t, crowded.session.Takes 0 .low x [] t ∧
        (∃ y, (t.filling.queue .high).head? = some y ∧ t.filling.frame.fits (.data y) = false) ∧
        ∀ r' : Priority, r'.MoreUrgent .low → t.filling.Stuck r' := by
  obtain ⟨x, hx⟩ : ∃ x, (crowded.session.queues.get .low).toList = [x] :=
    List.length_eq_one_iff.mp (by decide +kernel)
  have hqueue : (crowded.session.queues.get .low).toList = [] ++ x :: [] := hx
  have hurgent : Priority.high.MoreUrgent .low := by decide
  have hsent : ((crowded.session.transmit 0).2.queues.get .low).toList.length = 0 := by decide +kernel
  have hleft : ((crowded.session.transmit 0).2.queues.get .low).toList <:+ [] :=
    List.suffix_nil.mpr (List.length_eq_zero_iff.mp hsent)
  have hwaits : ((crowded.session.transmit 0).2.queues.get .high).toList ≠ [] := by decide +kernel
  exact ⟨x, hurgent, hqueue, hleft, hwaits,
    reachable_crowded.precedence hurgent hqueue hleft hwaits⟩

end Party
end ReliableDatagram
