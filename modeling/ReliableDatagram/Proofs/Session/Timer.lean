import ReliableDatagram.Proofs.Session.Timing

/-!
# The acknowledgement timer

The timer of a session runs while packets are in flight. It starts with a packet that is transmitted
when none is in flight, and starts again with every acknowledgement that takes a packet out of flight
and leaves others there. The times at which it starts are read off what the session does.
-/
namespace ReliableDatagram

/-- Carries a packet that has to be acknowledged. -/
def Entry.isReliable : Entry → Bool
  | .data p => p.reliability.isReliable
  | .ack _ => false

theorem ResendQueue.isEmpty_push (q : ResendQueue) (p : Packet) (due : Instant) :
    (q.push p due).isEmpty = false := by
  simp [isEmpty, push]

theorem ResendQueue.isEmpty_of_peekDue {q : ResendQueue} {now : Instant} {p : Packet}
    (h : (q.peekDue now).1 = some p) : q.isEmpty = false := by
  obtain ⟨e, he, -⟩ := exists_of_peekDue h
  rw [isEmpty, List.isEmpty_eq_false_iff_exists_mem]
  exact ⟨e, he⟩

namespace Session

/-- A transmission starts the timer when it sends a reliable packet and none was in flight. Repetitions
are packets in flight. -/
def startsOfTransmit (s : Session) (now : Instant) : List Instant :=
  if s.resend.isEmpty && (s.transmitted now).any Entry.isReliable then [now] else []

/-- An acknowledgement starts the timer when its packet was in flight and others still are. -/
def startsOfEntry (now : Instant) (s : Session) : Entry → List Instant
  | .ack q => if s.resend.contains q && !(s.handleAck q now).resend.isEmpty then [now] else []
  | .data _ => []

def startsOfEntries (now : Instant) (s : Session) : List Entry → List Instant
  | [] => []
  | e :: entries => s.startsOfEntry now e ++ (s.handleEntry now e).startsOfEntries now entries

def startsOfDatagram (s : Session) (data : Bytes) (now : Instant) : List Instant :=
  (s.countDatagram data.length).startsOfEntries now (s.heeded data)

/-- The timer runs exactly while packets are in flight, from the last of its starts on. -/
structure Clocked (s : Session) (starts : List Instant) : Prop where
  armed : s.lastAck.isSome = !s.resend.isEmpty
  latest : ∀ t, s.lastAck = some t → starts.getLast? = some t

variable {s s' : Session} {starts : List Instant} {now : Instant}

namespace Clocked

theorem off (hresend : s.resend.isEmpty = true) (htimer : s.lastAck = none) : s.Clocked starts :=
  ⟨by rw [hresend, htimer]; rfl, fun t ht => by rw [htimer] at ht; cases ht⟩

theorem started (hresend : s.resend.isEmpty = false) (htimer : s.lastAck = some now) :
    s.Clocked (starts ++ [now]) :=
  ⟨by rw [hresend, htimer]; rfl, fun t ht => by rw [← ht, htimer, List.getLast?_concat]⟩

theorem congr (h : s.Clocked starts) (hresend : s'.resend.isEmpty = s.resend.isEmpty)
    (htimer : s'.lastAck = s.lastAck) : s'.Clocked starts :=
  ⟨by rw [hresend, htimer, h.armed], fun t ht => h.latest t (htimer ▸ ht)⟩

theorem exists_last (h : s.Clocked starts) (hresend : s.resend.isEmpty = false) :
    ∃ t, s.lastAck = some t ∧ starts.getLast? = some t := by
  have harmed := h.armed
  rw [hresend] at harmed
  obtain ⟨t, ht⟩ := Option.isSome_iff_exists.mp harmed
  exact ⟨t, ht, h.latest t ht⟩

end Clocked

end Session

/-! ### Transmitting -/

namespace Session

/-- When the entries `es` have been sent, packets are in flight if there were some before or one of the
entries is reliable, and that one has started the timer unless it was running. -/
structure Winds (s s' : Session) (es : List Entry) (now : Instant) : Prop where
  isEmpty_eq : s'.resend.isEmpty = (s.resend.isEmpty && !es.any Entry.isReliable)
  lastAck_eq : s'.lastAck =
    if s.resend.isEmpty && es.any Entry.isReliable then some now else s.lastAck

namespace Winds

variable {s s' s'' : Session} {es es' : List Entry} {now : Instant}

/-- Neither the timer nor the number of packets in flight is touched. -/
theorem none (hresend : s'.resend.isEmpty = s.resend.isEmpty) (htimer : s'.lastAck = s.lastAck)
    (hes : es.any Entry.isReliable = false) : s.Winds s' es now :=
  ⟨by rw [hresend, hes, Bool.not_false, Bool.and_true],
    by rw [htimer, hes, Bool.and_false, if_neg Bool.false_ne_true]⟩

theorem trans (h : s.Winds s' es now) (h' : s'.Winds s'' es' now) : s.Winds s'' (es ++ es') now where
  isEmpty_eq := by
    rw [h'.isEmpty_eq, h.isEmpty_eq, List.any_append, Bool.not_or, Bool.and_assoc]
  lastAck_eq := by
    rw [h'.lastAck_eq, h.isEmpty_eq, h.lastAck_eq, List.any_append]
    cases s.resend.isEmpty <;> cases es.any Entry.isReliable <;> cases es'.any Entry.isReliable <;> rfl

theorem armed (h : s.Winds s' es now) (hs : s.lastAck.isSome = !s.resend.isEmpty) :
    s'.lastAck.isSome = !s'.resend.isEmpty := by
  rw [h.lastAck_eq, h.isEmpty_eq]
  cases hempty : s.resend.isEmpty <;> rw [hempty] at hs <;> cases es.any Entry.isReliable <;> simp [hs]

end Winds

end Session

namespace Filling

variable {d d' : Filling} {now : Instant}

@[simp] theorem lastAck_sendFirst (d : Filling) (now : Instant) (priority : Priority) (p : Packet) :
    (d.sendFirst now priority p).session.lastAck =
      if p.reliability.isReliable then some (d.session.lastAck.getD now) else d.session.lastAck := by
  rw [sendFirst]
  split_ifs <;> rfl

theorem Step.winds (h : Step now d d') (harmed : d.session.lastAck.isSome = !d.session.resend.isEmpty) :
    ∃ es, d'.frame.entries.toList = d.frame.entries.toList ++ es ∧ d.session.Winds d'.session es now := by
  cases h with
  | tidy hacks hqueues hresend =>
    refine ⟨[], (List.append_nil _).symm, .none ?_ rfl rfl⟩
    rcases hresend with rfl | rfl <;> rfl
  | ackOnly => exact ⟨[], (List.append_nil _).symm, .none rfl rfl rfl⟩
  | @ack a => exact ⟨[.ack a.sequence], Array.toList_push, .none rfl rfl rfl⟩
  | @again p hdue =>
    have hbusy := ResendQueue.isEmpty_of_peekDue hdue
    refine ⟨[.data p], Array.toList_push, ?_, ?_⟩
    · rw [hbusy]
      exact ResendQueue.isEmpty_push ..
    · rw [hbusy]
      rfl
  | @first priority p queue =>
    refine ⟨[.data p], Array.toList_push, ?_⟩
    by_cases hreliable : p.reliability.isReliable = true
    · have hany : [Entry.data p].any Entry.isReliable = true := by simp [Entry.isReliable, hreliable]
      constructor
      · rw [resend_sendFirst, if_pos hreliable, hany, ResendQueue.isEmpty_push]
        simp
      · rw [lastAck_sendFirst, if_pos hreliable, hany, Bool.and_true]
        show some (d.session.lastAck.getD now) = _
        cases hempty : d.session.resend.isEmpty <;> rw [hempty] at harmed <;>
          cases htimer : d.session.lastAck <;> simp_all
    · refine .none ?_ ?_ ?_
      · rw [resend_sendFirst, if_neg hreliable]
        rfl
      · rw [lastAck_sendFirst, if_neg hreliable]
        rfl
      · simpa [Entry.isReliable] using hreliable

end Filling

namespace Session

variable {s s' : Session} {starts : List Instant} {now : Instant}

theorem Clocked.winds (h : s.Clocked starts) {t : Transmission}
    (hsteps : Transmission.Steps now (.start s false) t) :
    s.Winds t.filling.session t.entries now := by
  refine hsteps.keep (P := fun t => s.Winds t.filling.session t.entries now) (fun t t' hstep ht => ?_)
    (.none rfl rfl rfl)
  cases hstep with
  | fill hfill =>
    obtain ⟨es, hes, hwinds⟩ := hfill.winds (ht.armed h.armed)
    rw [Transmission.entries_fill hes]
    exact ht.trans hwinds
  | close =>
    rw [Transmission.entries_close]
    exact ⟨ht.isEmpty_eq, ht.lastAck_eq⟩

theorem Clocked.transmit (h : s.Clocked starts) (now : Instant) :
    (s.transmit now).2.Clocked (starts ++ s.startsOfTransmit now) := by
  rw [startsOfTransmit]
  rcases s.transmitted_cases now with ⟨hnone, ⟨-, heq⟩ | heq⟩ | ⟨-, t, hentries, hsession, hsteps⟩
  · rw [heq, hnone]
    simpa using h
  · rw [heq]
    exact .off rfl rfl
  · have hwinds := h.winds hsteps
    rw [hentries, hsession] at hwinds
    cases hstart : s.resend.isEmpty && (s.transmitted now).any Entry.isReliable with
    | true =>
      rw [if_pos rfl]
      have htimer := hwinds.lastAck_eq
      rw [hstart, if_pos rfl] at htimer
      refine .started ?_ htimer
      have harmed := hwinds.armed h.armed
      rw [htimer] at harmed
      simpa using harmed.symm
    | false =>
      rw [if_neg Bool.false_ne_true, List.append_nil]
      have htimer := hwinds.lastAck_eq
      rw [hstart, if_neg Bool.false_ne_true] at htimer
      refine ⟨hwinds.armed h.armed, fun t ht => h.latest t (htimer ▸ ht)⟩

/-! ### Taking in -/

theorem lastAck_handlePacket (s : Session) (p : Packet) (now : Instant) :
    (s.handlePacket p now).lastAck = s.lastAck := by
  rw [handlePacket]
  generalize s.arrivals.record p.sequence now = answer
  obtain ⟨arrival, arrivals⟩ := answer
  cases arrival with
  | new => exact (assembles_acceptNew ..).lastAck_eq
  | duplicate => rfl

/-- An acknowledgement of nothing in flight is only counted; any other one sets the timer. -/
theorem handleAck_cases (s : Session) (q : SequenceNumber) (now : Instant) :
    (s.resend.contains q = false ∧ ∃ counters, s.handleAck q now = { s with counters }) ∨
      (s.resend.contains q = true ∧ ∃ resend counters, s.handleAck q now =
        { s with resend, counters, lastAck := if resend.isEmpty then none else some now }) := by
  have hfound : s.resend.contains q = (s.resend.acknowledge q).1.isSome := by
    rw [ResendQueue.contains, ResendQueue.acknowledge]
    cases s.resend.find? q <;> rfl
  rw [hfound, handleAck]
  dsimp only [count]
  generalize s.resend.acknowledge q = answer
  obtain ⟨acked, resend⟩ := answer
  cases acked with
  | none => exact Or.inl ⟨rfl, _, rfl⟩
  | some acked => exact Or.inr ⟨rfl, _, _, rfl⟩

theorem Clocked.handleEntry (h : s.Clocked starts) (e : Entry) (now : Instant) :
    (s.handleEntry now e).Clocked (starts ++ s.startsOfEntry now e) := by
  cases e with
  | data p =>
    obtain ⟨acks, houtbox, -⟩ := s.outbox_handlePacket p now
    have hresend : (s.handlePacket p now).resend = s.resend := congrArg Outbox.resend houtbox
    rw [startsOfEntry, List.append_nil]
    exact h.congr (congrArg ResendQueue.isEmpty hresend) (s.lastAck_handlePacket p now)
  | ack q =>
    rw [startsOfEntry, Session.handleEntry]
    rcases s.handleAck_cases q now with ⟨hflight, counters, heq⟩ | ⟨hflight, resend, counters, heq⟩
    · rw [heq, hflight, Bool.false_and, if_neg Bool.false_ne_true, List.append_nil]
      exact h.congr rfl rfl
    · rw [heq, hflight, Bool.true_and]
      cases hleft : resend.isEmpty with
      | true => exact .off hleft rfl
      | false => exact .started hleft rfl

theorem Clocked.handleEntries (h : s.Clocked starts) (entries : List Entry) (now : Instant) :
    (entries.foldl (Session.handleEntry now) s).Clocked (starts ++ s.startsOfEntries now entries) := by
  induction entries generalizing s starts with
  | nil =>
    rw [startsOfEntries, List.append_nil]
    exact h
  | cons e entries ih =>
    rw [startsOfEntries, ← List.append_assoc]
    exact ih (h.handleEntry e now)

theorem Clocked.handleDatagram (h : s.Clocked starts) (data : Bytes) (now : Instant) :
    (s.handleDatagram data now).2.Clocked (starts ++ s.startsOfDatagram data now) := by
  rw [startsOfDatagram, heeded]
  rcases s.handleDatagram_cases data now with ⟨hdead, heq⟩ | ⟨halive, window, invalid, heq⟩
  · rw [heq, if_pos hdead, startsOfEntries, List.append_nil]
    exact h
  · have hcounted : (s.countDatagram data.length).Clocked starts := h.congr rfl rfl
    rw [heq, halive, if_neg Bool.false_ne_true]
    exact (hcounted.handleEntries (Frame.read data).1 now).congr rfl rfl

end Session
end ReliableDatagram
