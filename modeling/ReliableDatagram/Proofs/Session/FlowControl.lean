import ReliableDatagram.Proofs.Sending.FlowControl
import ReliableDatagram.Proofs.Session.Precedence
import ReliableDatagram.Proofs.Session.Traffic

/-!
# Loss, growth and the packets in flight

Fresh packets are taken only when the overdue ones are out of the way, and they are due later only. So no
packet is sent again behind a fresh one, and the window that let the fresh ones pass is the one that is
left in the end. It has shrunk once if a packet was sent again, and not at all otherwise.
-/
namespace ReliableDatagram

namespace Filling

variable {d d' : Filling} {now : Instant}

/-- The packet in front is not overdue. -/
def Calm (now : Instant) (d : Filling) : Prop := (d.session.resend.peekDue now).1 = none

/-- A step that takes a fresh packet only when no overdue one is in front. -/
structure Paced (now : Instant) (d d' : Filling) : Prop where
  step : Step now d d'
  calm : ∀ q, d'.queue q ≠ d.queue q → d.Calm now

abbrev Pace (now : Instant) : Filling → Filling → Prop := Relation.ReflTransGen (Paced now)

theorem Step.paced (h : Step now d d') (hsame : ∀ q, d'.queue q = d.queue q) : Paced now d d' :=
  ⟨h, fun q hq => absurd (hsame q) hq⟩

theorem Steps.pace (h : Steps now d d') (hsame : ∀ q, d'.queue q = d.queue q) : Pace now d d' :=
  Steps.quiet (fun _ _ step hsame => step.paced hsame) h hsame

theorem Step.calm (h : Step now d d') (hcalm : d.Calm now) : d'.Calm now := by
  have hlater := d.session.lt_add_resendDelay now
  cases h with
  | tidy hacks hqueues hresend =>
    rcases hresend with rfl | rfl
    · exact hcalm
    · exact (d.peekDue_skipStale now).trans hcalm
  | ackOnly => exact hcalm
  | ack => exact hcalm
  | again hdue =>
    rw [Calm, hdue] at hcalm
    cases hcalm
  | first =>
    rw [Calm, resend_sendFirst]
    split_ifs
    · exact ResendQueue.peekDue_push hcalm hlater
    · exact hcalm

/-- A packet is taken from a queue only when the window has a place. -/
theorem Step.isThrottled_of_taken (h : Step now d d') {q : Priority} (hq : d'.queue q ≠ d.queue q) :
    d.session.isThrottled = false := by
  cases h with
  | first hqueue hopen hfits => exact hopen
  | tidy hacks hqueues hresend => exact absurd (hqueues q) hq
  | _ => exact absurd rfl hq

/-- From a calm moment on every step is paced. -/
theorem Steps.pace_of_calm (h : Steps now d d') (hcalm : d.Calm now) : Pace now d d' := by
  suffices hboth : d'.Calm now ∧ Pace now d d' from hboth.2
  induction h with
  | refl => exact ⟨hcalm, .refl⟩
  | tail _ step ih =>
    obtain ⟨hmiddle, hpace⟩ := ih
    exact ⟨step.calm hmiddle, hpace.tail ⟨step, fun _ _ => hmiddle⟩⟩

/-- Repetition goes on until the packet in front is not overdue, unless the frame is full. -/
theorem calm_resendWith {fuel : Nat} (hfuel : d.session.resend.dueCount now < fuel)
    (hroom : (resendWith now fuel d).1 = false) : (resendWith now fuel d).2.Calm now := by
  induction fuel generalizing d with
  | zero => exact absurd hfuel (Nat.not_lt_zero _)
  | succ n ih =>
    rw [resendWith_succ] at hroom ⊢
    cases hdue : (d.session.resend.peekDue now).1 with
    | none => exact (d.peekDue_skipStale now).trans hdue
    | some p =>
      have hless := dueCount_sendAgain_lt now hdue
      rw [hdue] at hroom
      dsimp only at hroom ⊢
      split_ifs at hroom ⊢
      · exact ih (Nat.lt_of_lt_of_le hless (Nat.le_of_lt_succ hfuel)) hroom

theorem pace_fill (now : Instant) (d : Filling) : Pace now d (d.fill now) := by
  apply chain_fill now
  · exact fun d => (steps_takeAcks now d).pace fun _ => rfl
  · exact fun d hacks => Step.paced (.ackOnly hacks) fun _ => rfl
  · exact fun d => (steps_resendWith now _ d).pace (d.queue_resendOverdue now)
  · intro d hroom
    have hcalm := calm_resendWith (Nat.lt_succ_of_le (d.session.resend.dueCount_le_length now)) hroom
    exact (steps_sendFresh now Priority.all _).pace_of_calm hcalm

/-- If more than `before` packets are in flight, they have room in the window, and none is overdue in
front. -/
def WithinWindow (now : Instant) (before : Nat) (d : Filling) : Prop :=
  d.session.resend.length ≤ before ∨
    d.Calm now ∧ d.session.resend.length ≤ d.session.window.size

theorem Paced.withinWindow {before : Nat} (h : Paced now d d') (hd : d.WithinWindow now before) :
    d'.WithinWindow now before := by
  obtain ⟨step, hpaced⟩ := h
  have hcalm := step.calm
  cases step with
  | tidy hacks hqueues hresend =>
    refine hd.imp (fun hle => ?_) fun hopen => ⟨hcalm hopen.1, ?_⟩
    · rcases hresend with rfl | rfl <;> exact hle
    · rcases hresend with rfl | rfl <;> exact hopen.2
  | ackOnly => exact hd
  | ack => exact hd
  | @again p hdue =>
    have hlength := ResendQueue.length_again_le hdue (now + d.session.config.resendDelay)
    rcases hd with hle | ⟨hcalm, -⟩
    · exact Or.inl (Nat.le_trans hlength hle)
    · rw [Calm, hdue] at hcalm
      cases hcalm
  | @first priority p later hqueue hopen hfits =>
    have hquiet : d.Calm now := by
      refine hpaced priority ?_
      rw [queue_sendFirst, queue_withQueue, if_pos rfl, queue, hqueue]
      exact (List.cons_ne_self p later).symm
    have hroom : d.session.resend.length < d.session.window.size :=
      Nat.lt_of_not_le (of_decide_eq_false hopen)
    refine Or.inr ⟨hcalm hquiet, ?_⟩
    rw [resend_sendFirst, window_sendFirst]
    split_ifs
    · exact Nat.le_trans (ResendQueue.length_push_le ..) hroom
    · exact Nat.le_of_lt hroom

end Filling

namespace Transmission

variable {t t' : Transmission} {now : Instant} {s : Session} {n : Nat}

/-- A step of a transmission that takes a fresh packet only when no overdue one is in front. -/
structure Paced (now : Instant) (t t' : Transmission) : Prop where
  step : Step now t t'
  calm : ∀ q, t'.filling.queue q ≠ t.filling.queue q → t.filling.Calm now

abbrev Pace (now : Instant) : Transmission → Transmission → Prop := Relation.ReflTransGen (Paced now)

theorem Pace.of_filling {d : Filling} (h : Filling.Pace now t.filling d) :
    Pace now t { t with filling := d } := by
  induction h with
  | refl => exact .refl
  | tail _ hpaced ih => exact ih.tail ⟨.fill hpaced.step, hpaced.calm⟩

theorem Pace.withinWindow {before : Nat} (h : Pace now t t') (ht : t.filling.WithinWindow now before) :
    t'.filling.WithinWindow now before := by
  induction h with
  | refl => exact ht
  | tail _ hpaced ih =>
    obtain ⟨step, hcalm⟩ := hpaced
    cases step with
    | fill hfill => exact Filling.Paced.withinWindow ⟨hfill, hcalm⟩ ih
    | close => exact ih

/-- Of the packets in the frames `n` did not come from the queues. With the first of them the window has
shrunk, and with none of the others. -/
structure Repeats (t : Transmission) (s : Session) (now : Instant) (n : Nat) : Prop where
  count_eq : t.entries.countP (!·.isAck) + t.filling.session.backlog = s.backlog + n
  resent_eq : t.filling.session.counters.messagesResent = s.counters.messagesResent + n
  lost_eq : t.filling.lost = decide (0 < n)
  window_eq : t.filling.session.window = if 0 < n then s.window.onLoss now else s.window

theorem repeats_start (s : Session) (now : Instant) : (start s false).Repeats s now 0 :=
  ⟨by simp [start, entries, FrameBuilder.ofMaxBytes], rfl, rfl, rfl⟩

theorem Step.repeats (h : Step now t t') (ht : t.Repeats s now n) : ∃ n', t'.Repeats s now n' := by
  obtain ⟨hcount, hresent, hlost, hwindow⟩ := ht
  cases h with
  | close =>
    refine ⟨n, ?_, hresent, hlost, hwindow⟩
    rw [entries_close]
    exact hcount
  | fill hfill =>
    cases hfill with
    | @tidy acks queues resend hacks hqueues hresend =>
      let s' : Session := { t.filling.session with acks, queues, resend }
      have hbacklog : s'.backlog = t.filling.session.backlog := Session.backlog_congr hqueues
      refine ⟨n, ?_, hresent, hlost, hwindow⟩
      rw [hbacklog]
      exact hcount
    | ackOnly => exact ⟨n, hcount, hresent, hlost, hwindow⟩
    | @ack a acks hacks hfits =>
      refine ⟨n, ?_, hresent, hlost, hwindow⟩
      rw [entries_fill (l := [.ack a.sequence]) Array.toList_push, List.countP_append]
      exact hcount
    | @again p hdue hfits =>
      refine ⟨n + 1, ?_, congrArg (· + 1) hresent, by simp [Filling.sendAgain], ?_⟩
      · rw [entries_fill (l := [.data p]) Array.toList_push, List.countP_append, ← Nat.add_assoc,
          ← hcount]
        exact Nat.add_right_comm ..
      · simp only [Filling.sendAgain, Session.count, hlost, hwindow, Nat.succ_pos, if_true,
          decide_eq_true_eq]
        split_ifs <;> rfl
    | @first priority p later hqueue hopen hfits =>
      have hbacklog := Filling.backlog_sendFirst hqueue now
      have hone : [Entry.data p].countP (!·.isAck) = 1 := rfl
      have htraffic := (t.filling.withQueue priority later).traffic_sendFirst now priority p
      refine ⟨n, ?_, (congrArg Traffic.resent htraffic).trans hresent, hlost,
        (Filling.window_sendFirst ..).trans hwindow⟩
      rw [entries_fill (l := [.data p]) Array.toList_push, List.countP_append, hone]
      dsimp only
      omega

end Transmission

namespace Session

variable {s : Session} {now : Instant}

theorem pace_transmit (halive : (s.transmit now).2.isDead = false) :
    ∃ d : Filling, d.session = (s.transmit now).2 ∧
      Transmission.Pace now (.start s false) { frames := (s.transmit now).1, filling := d } := by
  refine chain_transmit (fun t => ?_) ?_ ?_ halive
  · refine Transmission.Pace.of_filling ((steps_isFrameReady now t.filling).pace fun q => ?_)
    rw [Filling.queue, queues_isFrameReady]
    rfl
  · exact fun t => Transmission.Pace.of_filling (Filling.pace_fill now t.filling)
  · exact fun t hfull => ⟨.close hfull, fun q hq => absurd rfl hq⟩

/-- A session that is dead after a transmission has transmitted nothing. -/
theorem transmit_alive_cases (s : Session) (now : Instant) : (s.transmit now).2.isDead = false ∨
    s.transmitted now = [] ∧ ((s.transmit now).2 = s ∨ (s.transmit now).2 = s.die .timedOut) := by
  rcases s.transmitted_cases now with ⟨hnone, ⟨-, heq⟩ | heq⟩ | ⟨halive, t, -, hsession, hsteps⟩
  · exact Or.inr ⟨hnone, Or.inl heq⟩
  · exact Or.inr ⟨hnone, Or.inr heq⟩
  · refine Or.inl ?_
    rw [← hsession]
    refine hsteps.keep (P := fun t => t.filling.session.isDead = false) (fun t t' hstep ht => ?_) halive
    cases hstep with
    | fill hfill => exact (congrArg (·.dead.isSome) hfill.standing).trans ht
    | close => exact ht

/-- A transmission brings no more packets into flight than the window that it leaves has places. -/
theorem length_resend_transmit_le (s : Session) (now : Instant) :
    (s.transmit now).2.resend.length ≤ max s.resend.length (s.transmit now).2.window.size := by
  rcases s.transmit_alive_cases now with halive | ⟨-, heq | heq⟩
  · obtain ⟨d, hsession, hpace⟩ := pace_transmit halive
    have hstart : (Transmission.start s false).filling.WithinWindow now s.resend.length :=
      Or.inl (Nat.le_refl _)
    have hend : d.WithinWindow now s.resend.length := hpace.withinWindow hstart
    rw [← hsession]
    rcases hend with hle | ⟨-, hle⟩
    · exact Nat.le_trans hle (Nat.le_max_left ..)
    · exact Nat.le_trans hle (Nat.le_max_right ..)
  · rw [heq]
    exact Nat.le_max_left ..
  · rw [heq]
    exact Nat.zero_le _

/-- What is transmitted and what still waits, less what waited: the packets that are sent again. -/
def repeated (s : Session) (now : Instant) : Nat :=
  (s.transmitted now).countP (!·.isAck) + (s.transmit now).2.backlog - s.backlog

/-- The window suffers one loss if packets are sent again. -/
theorem window_transmit (s : Session) (now : Instant) :
    (s.transmit now).2.counters.messagesResent = s.counters.messagesResent + s.repeated now ∧
      (s.transmit now).2.window = if 0 < s.repeated now then s.window.onLoss now else s.window := by
  rcases s.transmitted_cases now with ⟨hnone, ⟨-, heq⟩ | heq⟩ | ⟨-, t, hentries, hsession, hsteps⟩
  · simp [repeated, hnone, heq]
  · have hempty : (s.die .timedOut).backlog = 0 := rfl
    have hrepeated : s.repeated now = 0 := by simp [repeated, hnone, heq, hempty]
    rw [hrepeated, heq]
    exact ⟨rfl, rfl⟩
  · obtain ⟨n, hcount, hresent, -, hwindow⟩ := hsteps.keep (P := fun t => ∃ n, t.Repeats s now n)
      (fun _ _ hstep ⟨_, ht⟩ => hstep.repeats ht) ⟨0, Transmission.repeats_start s now⟩
    rw [hentries, hsession] at hcount
    have hrepeated : s.repeated now = n := by
      rw [repeated, hcount, Nat.add_sub_cancel_left]
    rw [hrepeated, ← hsession]
    exact ⟨hresent, hwindow⟩

/-- The window shrinks by one place at most. -/
theorem size_transmit (hmin : Limits.minimumWindow ≤ s.window.size) (now : Instant) :
    Limits.minimumWindow ≤ (s.transmit now).2.window.size ∧
      (s.transmit now).2.window.size ≤ s.window.size ∧
      s.window.size ≤ (s.transmit now).2.window.size + 1 := by
  rw [(s.window_transmit now).2]
  split_ifs
  · exact ⟨s.window.minimum_le_size_onLoss now, Window.size_onLoss_le now hmin,
      s.window.size_le_onLoss now⟩
  · exact ⟨hmin, Nat.le_refl _, Nat.le_succ _⟩

/-! ### Taking in -/

theorem window_handleEntry (s : Session) (e : Entry) (now : Instant) :
    (s.handleEntry now e).window = s.window := by
  cases e with
  | ack q =>
    rw [handleEntry]
    rcases s.handleAck_cases q now with ⟨-, counters, heq⟩ | ⟨-, resend, counters, heq⟩ <;> rw [heq]
  | data p =>
    rw [handleEntry, handlePacket]
    generalize s.arrivals.record p.sequence now = answer
    obtain ⟨arrival, arrivals⟩ := answer
    cases arrival with
    | new => exact (assembles_acceptNew ..).window_eq
    | duplicate => rfl

theorem window_handleEntries (s : Session) (entries : List Entry) (now : Instant) :
    (entries.foldl (handleEntry now) s).window = s.window := by
  induction entries generalizing s with
  | nil => rfl
  | cons e entries ih => rw [List.foldl_cons, ih, window_handleEntry]

/-- Only a whole window of acknowledgements, while packets wait, lets the window grow. -/
theorem window_handleDatagram (s : Session) (data : Bytes) (now : Instant) :
    (s.handleDatagram data now).2.window = s.window ∨
      s.window.size ≤ (Frame.read data).1.countP Entry.isAck ∧ s.hasBacklog = true ∧
        (s.handleDatagram data now).2.window = s.window.grow now := by
  rw [handleDatagram]
  split_ifs
  · exact Or.inl rfl
  · generalize Frame.read data = answer
    obtain ⟨entries, error?⟩ := answer
    have hwindow := (s.countDatagram data.length).window_handleEntries entries now
    have hqueues := ((s.countDatagram data.length).handles_handleEntries entries now).queues_eq
    have hgrows := s.window.onAcks_cases now (entries.countP Entry.isAck) s.hasBacklog
    have hsame : ∀ s' : Session, s'.window = s.window → s'.queues = s.queues →
        (s'.window.onAcks now (entries.countP Entry.isAck) s'.hasBacklog).2 =
          (s.window.onAcks now (entries.countP Entry.isAck) s.hasBacklog).2 := by
      intro s' hwindow hqueues
      rw [hwindow, hasBacklog, hasBacklog, hqueues]
    rw [← hsame _ hwindow hqueues] at hgrows
    cases error? <;> exact hgrows

/-- The window grows by one place at most. -/
theorem size_handleDatagram (hmax : s.window.size ≤ Limits.maximumWindow) (data : Bytes) (now : Instant) :
    (s.handleDatagram data now).2.window.size ≤ Limits.maximumWindow ∧
      s.window.size ≤ (s.handleDatagram data now).2.window.size ∧
      (s.handleDatagram data now).2.window.size ≤ s.window.size + 1 := by
  rcases s.window_handleDatagram data now with hsame | ⟨-, -, hgrows⟩
  · rw [hsame]
    exact ⟨hmax, Nat.le_refl _, Nat.le_succ _⟩
  · rw [hgrows]
    obtain ⟨hsucc, hle⟩ := s.window.size_grow_le now
    exact ⟨hle, Window.le_size_grow now hmax, hsucc⟩

end Session
end ReliableDatagram
