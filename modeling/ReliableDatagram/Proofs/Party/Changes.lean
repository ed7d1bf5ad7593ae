import ReliableDatagram.Proofs.Network.Run

/-!
# What an action does to a session

A session accepts a message or refuses it, transmits, takes in a datagram, hands out what is complete,
gets another delay, or ends. What all of these keep, every run keeps.
-/
namespace ReliableDatagram

namespace Session

/-- The session after an action. -/
inductive Changes (s : Session) : Action → Session → Prop
  /-- A message is refused, or there is none to hand out. -/
  | refused (action : Action) : Changes s action s
  | accepted (action : Action) {s' : Session} {m : Shipment} (halive : s.isDead = false)
      (h : s.Extends s' m) : Changes s action s'
  | updated (now : Instant) : Changes s (.update now) (s.transmit now).2
  | handled (data : Bytes) (now : Instant) :
      Changes s (.handle data now) (s.handleDatagram data now).2
  | received (output : Fifo Delivery) : Changes s .receive { s with output }
  | delayed (delay : Duration) : Changes s (.setResendDelay delay) (s.setResendDelay delay)
  | ended (action : Action) (reason : DisconnectReason) (output : Fifo Delivery) :
      Changes s action { s.die reason with output }

variable {s s' : Session} {action : Action}

/-- Only the delay of resending can be changed. -/
theorem Changes.config_cases (hs : s.Changes action s') : s'.config = s.config ∨
    ∃ delay, action = .setResendDelay delay ∧ s'.config = s.config.withResendDelay delay := by
  cases hs with
  | accepted _ halive hextends => exact Or.inl hextends.config_eq
  | updated now =>
    refine Or.inl ?_
    rcases s.standing_transmit now with hstanding | hdie
    · exact congrArg Standing.config hstanding
    · rw [hdie]
      rfl
  | handled data now => exact Or.inl (s.handles_handleDatagram data now).config_eq
  | delayed delay => exact Or.inr ⟨delay, rfl, rfl⟩
  | _ => exact Or.inl rfl

theorem Changes.frameBudget_eq (hs : s.Changes action s') :
    s'.config.frameBudget = s.config.frameBudget := by
  rcases hs.config_cases with heq | ⟨delay, -, heq⟩
  · rw [heq]
  · rw [heq]
    rfl

/-- Fragments and messages that wait are let alone, or dropped when the session ends, if it is not a
datagram that is taken in. -/
theorem Changes.held_cases (hs : s.Changes action s') :
    (s'.reassembler = s.reassembler ∧ s'.lanes = s.lanes) ∨
      (s'.reassembler = s.reassembler.clear ∧ s'.lanes = s.lanes.clear) ∨
      ∃ data now, action = .handle data now ∧ s' = (s.handleDatagram data now).2 := by
  cases hs with
  | accepted _ halive hextends => exact Or.inl ⟨hextends.reassembler_eq, hextends.lanes_eq⟩
  | updated now =>
    rcases s.standing_transmit now with hstanding | hdie
    · have hinbox : (s.transmit now).2.inbox = s.inbox := congrArg Standing.inbox hstanding
      exact Or.inl ⟨congrArg Inbox.reassembler hinbox, congrArg Inbox.lanes hinbox⟩
    · rw [hdie]
      exact Or.inr (Or.inl ⟨rfl, rfl⟩)
  | handled data now => exact Or.inr (Or.inr ⟨data, now, rfl, rfl⟩)
  | ended => exact Or.inr (Or.inl ⟨rfl, rfl⟩)
  | _ => exact Or.inl ⟨rfl, rfl⟩

end Session

namespace Party

variable {p : Party}

theorem changes_submit {ms : List Shipment} (h : p.session.Sends ms) (action : Action)
    {payload : Bytes} {bitLength : Nat} {priority : Priority} {r : Reliability} {channel : Nat}
    {result : Except SendError Session}
    (hresult : ∀ s', result = .ok s' →
      p.session.sendBits payload bitLength priority r channel = .ok s') :
    p.session.Changes action (p.submit payload bitLength r channel result).session := by
  cases result with
  | error e => exact .refused action
  | ok s' =>
    obtain ⟨m, -, -, hextends, -⟩ := Session.sends_sendBits h (hresult s' rfl)
    exact .accepted action (Session.sendBits_ok (hresult s' rfl)).1 hextends

theorem Reachable.changes (h : p.Reachable) (action : Action) :
    p.session.Changes action (p.act action).session := by
  obtain ⟨ms, hms⟩ := h.sound
  cases action with
  | send payload priority r channel => exact changes_submit hms.sends _ fun s' => Session.send_ok
  | sendBits payload bitLength priority r channel => exact changes_submit hms.sends _ fun s' => id
  | update now => exact .updated now
  | handle data now => exact .handled data now
  | receive =>
    obtain ⟨output, returned, hact⟩ := p.exists_receive
    rw [hact]
    exact .received output
  | setResendDelay delay => exact .delayed delay
  | kill => exact .ended .kill .killed p.session.output
  | close => exact .ended .close .closedLocally .empty

/-- What a session has when it is new and keeps whatever happens it has in every state. -/
theorem Reachable.keep {P : Session → Prop} (hnew : ∀ config now, P (.new config now))
    (hkeep : ∀ s s' action, s.Changes action s' → P s → P s') (h : p.Reachable) : P p.session := by
  induction h with
  | new config now => exact hnew config now
  | act h action ih => exact hkeep _ _ action (h.changes action) ih

/-- What no change to a session touches is after any run what it was before. -/
theorem Reachable.eq_acts {α : Type} {f : Session → α}
    (hkeep : ∀ s s' action, s.Changes action s' → f s' = f s) (h : p.Reachable)
    (actions : List Action) : f (actions.foldl Party.act p).session = f p.session := by
  induction actions generalizing p with
  | nil => rfl
  | cons action actions ih => exact (ih (h.act action)).trans (hkeep _ _ action (h.changes action))

end Party
end ReliableDatagram
