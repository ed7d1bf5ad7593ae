import ReliableDatagram.Proofs.Receiving.Inbox
import ReliableDatagram.Proofs.Session.Send
import ReliableDatagram.Proofs.Session.Steps
import ReliableDatagram.Proofs.Wire.Frames

/-!
# What goes into frames

A session puts into frames what it has in stock: queued packets, packets in flight, and pending
acknowledgements. Whatever holds of all of these holds of all entries that are transmitted, and of the
stock that is left. Neither the inbox nor the ledger of the session is touched.
-/
namespace ReliableDatagram

theorem PerPriority.get_modify {α : Type} (t : PerPriority α) (p q : Priority) (f : α → α) :
    (t.modify p f).get q = if q = p then f (t.get q) else t.get q := by
  rw [modify, get_set]
  split_ifs with h
  · rw [h]
  · rfl

namespace Session

/-- Everything that the session could put into a frame satisfies `P`. -/
structure Stocks (s : Session) (P : Entry → Prop) : Prop where
  queued : ∀ priority, ∀ p ∈ (s.queues.get priority).toList, P (.data p)
  inFlight : ∀ p ∈ s.resend.packets, P (.data p)
  acks : ∀ a ∈ s.acks.toList, P (.ack a.sequence)

/-- What no transmission changes. -/
structure Standing where
  config : Config
  inbox : Inbox
  ledger : Ledger
  dead : Option DisconnectReason

def standing (s : Session) : Standing :=
  { config := s.config, inbox := s.inbox, ledger := s.ledger, dead := s.dead }

theorem stocks_new (config : Config) (now : Instant) (P : Entry → Prop) :
    (new config now).Stocks P := by
  constructor
  · intro priority p hp
    simp [new] at hp
  · intro p hp
    simp [new] at hp
  · intro a ha
    simp [new] at ha

theorem Stocks.mono {s : Session} {P Q : Entry → Prop} (h : s.Stocks P) (hPQ : ∀ e, P e → Q e) :
    s.Stocks Q :=
  ⟨fun priority p hp => hPQ _ (h.queued priority p hp), fun p hp => hPQ _ (h.inFlight p hp),
    fun a ha => hPQ _ (h.acks a ha)⟩

theorem stocks_die {s : Session} {P : Entry → Prop} (reason : DisconnectReason) :
    (s.die reason).Stocks P := by
  constructor
  · intro priority p hp
    simp [die] at hp
  · intro p hp
    simp [die] at hp
  · intro a ha
    simp [die] at ha

end Session

namespace Filling

/-- The frame holds entries from the stock, and what the session was otherwise is `base`. -/
structure Sound (d : Filling) (P : Entry → Prop) (base : Session.Standing) : Prop where
  stocks : d.session.Stocks P
  consistent : d.frame.Consistent
  entries : ∀ e ∈ d.frame.entries.toList, P e
  standing : d.session.standing = base

variable {d d' : Filling} {P : Entry → Prop} {base : Session.Standing} {now : Instant}

theorem forall_entries_push {f : FrameBuilder} (h : ∀ x ∈ f.entries.toList, P x) {e : Entry}
    (he : P e) : ∀ x ∈ (f.push e).entries.toList, P x := by
  intro x hx
  rw [FrameBuilder.push, Array.toList_push] at hx
  rcases List.mem_append.mp hx with hx | hx
  · exact h x hx
  · rw [List.mem_singleton.mp hx]
    exact he

/-- A step puts at most one entry into the frame, one from the stock for which there is room. -/
theorem Step.frame_cases (h : Step now d d') :
    d'.frame = d.frame ∨
      ∃ e, (d.session.Stocks P → P e) ∧ d.frame.fits e = true ∧ d'.frame = d.frame.push e := by
  cases h with
  | tidy => exact Or.inl rfl
  | ackOnly => exact Or.inl rfl
  | @ack a acks hacks hfits =>
    exact Or.inr ⟨.ack a.sequence, fun hs => hs.acks a (by simp [hacks]), hfits, rfl⟩
  | @again p hdue hfits =>
    have hmem := ResendQueue.mem_packets_of_peekDue hdue
    exact Or.inr ⟨.data p, fun hs => hs.inFlight p hmem, hfits, rfl⟩
  | @first priority p queue hqueue hopen hfits =>
    exact Or.inr ⟨.data p, fun hs => hs.queued priority p (by simp [hqueue]), hfits, rfl⟩

theorem Step.standing (h : Step now d d') : d'.session.standing = d.session.standing := by
  cases h with
  | first => rw [sendFirst]; split_ifs <;> rfl
  | _ => rfl

/-- A step gives nothing new to the session. -/
theorem Step.stocks (h : Step now d d') (hs : d.session.Stocks P) : d'.session.Stocks P := by
  cases h with
  | @tidy acks queues resend hacks hqueues hresend =>
    refine ⟨fun priority p hp => ?_, fun p hp => ?_, fun a ha => ?_⟩
    · exact hs.queued priority p (hqueues priority ▸ hp)
    · rcases hresend with rfl | rfl <;> exact hs.inFlight p hp
    · exact hs.acks a (hacks ▸ ha)
  | ackOnly => exact ⟨hs.queued, hs.inFlight, hs.acks⟩
  | ack hacks hfits =>
    exact ⟨hs.queued, hs.inFlight, fun a ha => hs.acks a (hacks ▸ List.mem_cons_of_mem _ ha)⟩
  | again hdue hfits =>
    have hp := hs.inFlight _ (ResendQueue.mem_packets_of_peekDue hdue)
    have hrest : ∀ x ∈ d.session.resend.popFront.2.packets, P (.data x) := by
      intro x hx
      rw [ResendQueue.packets_popFront hdue] at hx
      exact hs.inFlight x (List.mem_filter.mp hx).1
    exact ⟨hs.queued, ResendQueue.forall_packets_push hrest hp _, hs.acks⟩
  | @first priority p queue hqueue hopen hfits =>
    have hp : P (.data p) := hs.queued priority p (by simp [hqueue])
    have hqueued : ∀ other, ∀ x ∈ ((d.session.queues.set priority (.ofList queue)).get other).toList,
        P (.data x) := by
      intro other x hx
      rw [PerPriority.get_set] at hx
      split_ifs at hx
      · exact hs.queued priority x (hqueue ▸ List.mem_cons_of_mem _ hx)
      · exact hs.queued other x hx
    rw [sendFirst]
    split_ifs
    · exact ⟨hqueued, ResendQueue.forall_packets_push hs.inFlight hp _, hs.acks⟩
    · exact ⟨hqueued, hs.inFlight, hs.acks⟩

theorem Steps.standing (h : Steps now d d') : d'.session.standing = d.session.standing := by
  induction h with
  | refl => rfl
  | tail _ step ih => exact step.standing.trans ih

theorem Steps.stocks (h : Steps now d d') (hs : d.session.Stocks P) : d'.session.Stocks P := by
  induction h with
  | refl => exact hs
  | tail _ step ih => exact step.stocks ih

theorem Sound.step (h : d.Sound P base) (hstep : Step now d d') : d'.Sound P base := by
  refine ⟨hstep.stocks h.stocks, ?_, ?_, hstep.standing.trans h.standing⟩
  · rcases hstep.frame_cases (P := P) with heq | ⟨e, -, -, heq⟩
    · exact heq ▸ h.consistent
    · exact heq ▸ h.consistent.push e
  · rcases hstep.frame_cases (P := P) with heq | ⟨e, he, -, heq⟩
    · exact heq ▸ h.entries
    · exact heq ▸ forall_entries_push h.entries (he h.stocks)

theorem sound_start {s : Session} (h : s.Stocks P) (maxBytes : Nat) (lost : Bool) :
    ({ session := s, frame := .ofMaxBytes maxBytes, lost } : Filling).Sound P s.standing :=
  ⟨h, FrameBuilder.consistent_ofMaxBytes _, by simp [FrameBuilder.ofMaxBytes], rfl⟩

end Filling

namespace Transmission

/-- So are the frames that are finished. -/
structure Sound (t : Transmission) (P : Entry → Prop) (base : Session.Standing) : Prop where
  frames : ∀ f ∈ t.frames, f.Encoded ∧ ∀ e ∈ f.entries, P e
  filling : t.filling.Sound P base

variable {t t' : Transmission} {P : Entry → Prop} {base : Session.Standing} {now : Instant}

theorem Sound.close (h : t.Sound P base) : t.close.Sound P base := by
  refine ⟨fun f hf => ?_, ?_⟩
  · rcases List.mem_append.mp hf with hf | hf
    · exact h.frames f hf
    · obtain rfl := List.mem_singleton.mp hf
      exact ⟨Frame.encoded_finish h.filling.consistent, h.filling.entries⟩
  · have hstocks : t.close.filling.session.Stocks P :=
      ⟨h.filling.stocks.queued, h.filling.stocks.inFlight, h.filling.stocks.acks⟩
    have hstart := Filling.sound_start hstocks t.filling.session.config.frameBudget t.filling.lost
    exact ⟨hstart.stocks, hstart.consistent, hstart.entries, h.filling.standing⟩

theorem Sound.step (h : t.Sound P base) (hstep : Step now t t') : t'.Sound P base := by
  cases hstep with
  | fill hfill => exact ⟨h.frames, h.filling.step hfill⟩
  | close => exact h.close

end Transmission

namespace Session

variable {s : Session} {P : Entry → Prop}

/-- Frames are made of the stock. Either nothing else changes, or the session has timed out. -/
theorem transmit_spec (h : s.Stocks P) (now : Instant) :
    (∀ f ∈ (s.transmit now).1, f.Encoded ∧ ∀ e ∈ f.entries, P e) ∧ (s.transmit now).2.Stocks P ∧
      ((s.transmit now).2.standing = s.standing ∨ (s.transmit now).2 = s.die .timedOut) := by
  rcases s.transmit_cases now with ⟨-, heq⟩ | ⟨-, -, heq⟩ | ⟨-, -, d, -, hd, hsteps⟩
  · rw [heq]
    exact ⟨by simp, h, Or.inl rfl⟩
  · rw [heq]
    exact ⟨by simp, stocks_die _, Or.inr rfl⟩
  · have hstart : (Transmission.start s false).Sound P s.standing :=
      ⟨by simp [Transmission.start], Filling.sound_start h _ _⟩
    obtain ⟨hframes, hfilling⟩ :=
      hsteps.keep (fun _ _ hstep h => Transmission.Sound.step h hstep) hstart
    exact ⟨hframes, hd ▸ hfilling.stocks, Or.inl (hd ▸ hfilling.standing)⟩

theorem standing_transmit (s : Session) (now : Instant) :
    (s.transmit now).2.standing = s.standing ∨ (s.transmit now).2 = s.die .timedOut :=
  (transmit_spec (P := fun _ => True) ⟨fun _ _ _ => trivial, fun _ _ => trivial, fun _ _ => trivial⟩
    now).2.2

theorem ledger_transmit (s : Session) (now : Instant) : (s.transmit now).2.ledger = s.ledger := by
  rcases s.standing_transmit now with hstanding | hdie
  · exact congrArg Standing.ledger hstanding
  · rw [hdie]
    rfl

end Session
end ReliableDatagram
