import ReliableDatagram.Proofs.Party.Precedence
import ReliableDatagram.Proofs.Session.FlowControl

/-!
# The window in a run

Through every run the window keeps between its bounds, and the packets in flight with it. It is a
transmission that shrinks it, once and only for packets that are sent again, and a datagram that lets it
grow.
-/
namespace ReliableDatagram

namespace Session

variable {s s' : Session} {now : Instant} {action : Action} {q : Priority} {x : Packet}
  {later : List Packet}

/-- The window has a place for what is sent for the first time. -/
theorem Takes.length_resend_lt {t : Transmission} (h : s.Takes now q x later t) :
    t.filling.session.resend.length < t.filling.session.window.size := by
  obtain ⟨t', d, ⟨step, -⟩, hrest, -⟩ := h.exists_rest
  have htaken : t'.filling.queue q ≠ t.filling.queue q := by
    rw [hrest, h.queue_eq]
    exact (List.cons_ne_self x later).symm
  cases step with
  | fill hfill => exact Nat.lt_of_not_le (of_decide_eq_false (hfill.isThrottled_of_taken htaken))
  | close => exact absurd rfl htaken

/-- The window is between its bounds, and has had places for the packets in flight. -/
structure Regulated (s : Session) : Prop where
  minimum_le : Limits.minimumWindow ≤ s.window.size
  le_maximum : s.window.size ≤ Limits.maximumWindow
  inFlight_le : s.resend.length ≤ Limits.maximumWindow

theorem regulated_new (config : Config) (now : Instant) : (new config now).Regulated :=
  ⟨Nat.le_refl _, (by decide : Limits.minimumWindow ≤ Limits.maximumWindow), Nat.zero_le _⟩

theorem Regulated.congr (h : s.Regulated) (hwindow : s'.window.size = s.window.size)
    (hresend : s'.resend.length ≤ s.resend.length) : s'.Regulated :=
  ⟨hwindow ▸ h.minimum_le, hwindow ▸ h.le_maximum, Nat.le_trans hresend h.inFlight_le⟩

theorem Changes.regulated (hs : s.Changes action s') (h : s.Regulated) : s'.Regulated := by
  cases hs with
  | refused => exact h
  | accepted _ halive hextends =>
    apply h.congr
    · rw [hextends.window_eq]
    · rw [hextends.resend_eq]
  | updated now =>
    obtain ⟨hmin, hle, -⟩ := size_transmit h.minimum_le now
    have hmax := Nat.le_trans hle h.le_maximum
    refine ⟨hmin, hmax, Nat.le_trans (s.length_resend_transmit_le now) ?_⟩
    exact Nat.max_le.mpr ⟨h.inFlight_le, hmax⟩
  | handled data now =>
    obtain ⟨hmax, hge, -⟩ := size_handleDatagram h.le_maximum data now
    have hresend := (s.thins_handleDatagram data now).sublist.length_le
    exact ⟨Nat.le_trans h.minimum_le hge, hmax, Nat.le_trans hresend h.inFlight_le⟩
  | received => exact h.congr rfl (Nat.le_refl _)
  | delayed => exact h.congr rfl (Nat.le_refl _)
  | ended => exact h.congr rfl (Nat.zero_le _)

end Session

namespace Party

variable {p : Party}

theorem Reachable.regulated (h : p.Reachable) : p.session.Regulated :=
  h.keep Session.regulated_new fun _ _ _ => Session.Changes.regulated

/-- The window has 5 to 3751 places, and there are at most as many packets in flight. A packet is sent
for the first time only while there is a place for it. A transmission leaves more packets in flight only
as far as the window goes that it leaves, which has suffered one loss if packets were sent again and none
otherwise. A datagram lets the window grow by at most one place, and only if it has a whole window of
acknowledgements and packets wait. -/
theorem Reachable.flow_control (h : p.Reachable) :
    (5 ≤ p.session.window.size ∧ p.session.window.size ≤ 3751 ∧ p.session.resend.length ≤ 3751) ∧
      (∀ (now : Instant) (q : Priority) (x : Packet) (before later : List Packet),
        p.session.transmitted now ≠ [] → (p.session.queues.get q).toList = before ++ x :: later →
        ((p.session.transmit now).2.queues.get q).toList <:+ later →
        ∃ t, p.session.Takes now q x later t ∧
          t.filling.session.resend.length < t.filling.session.window.size) ∧
      (∀ now : Instant, let s' := (p.session.transmit now).2
        s'.resend.length ≤ max p.session.resend.length s'.window.size ∧
        s'.counters.messagesResent = p.session.counters.messagesResent + p.session.repeated now ∧
        s'.window = (if 0 < p.session.repeated now then p.session.window.onLoss now
          else p.session.window) ∧
        s'.window.size ≤ p.session.window.size ∧ p.session.window.size ≤ s'.window.size + 1) ∧
      ∀ (data : Bytes) (now : Instant), let s' := (p.session.handleDatagram data now).2
        p.session.window.size ≤ s'.window.size ∧ s'.window.size ≤ p.session.window.size + 1 ∧
        (p.session.window.size < s'.window.size →
          p.session.window.size ≤ (Frame.read data).1.countP Entry.isAck ∧
            p.session.hasBacklog = true) := by
  have hregulated := h.regulated
  refine ⟨⟨hregulated.minimum_le, hregulated.le_maximum, hregulated.inFlight_le⟩, ?_, ?_, ?_⟩
  · intro now q x before later hsent hqueue hleft
    have halive : (p.session.transmit now).2.isDead = false :=
      (p.session.transmit_alive_cases now).resolve_right fun hdead => hsent hdead.1
    obtain ⟨t, htakes⟩ := Session.exists_takes halive hqueue hleft
    exact ⟨t, htakes, htakes.length_resend_lt⟩
  · intro now
    obtain ⟨-, hshrinks⟩ := Session.size_transmit hregulated.minimum_le now
    obtain ⟨hresent, hwindow⟩ := p.session.window_transmit now
    exact ⟨p.session.length_resend_transmit_le now, hresent, hwindow, hshrinks⟩
  · intro data now
    obtain ⟨-, hge, hle⟩ := Session.size_handleDatagram hregulated.le_maximum data now
    refine ⟨hge, hle, fun hlt => ?_⟩
    rcases p.session.window_handleDatagram data now with hsame | ⟨hacks, hbacklog, -⟩
    · rw [hsame] at hlt
      exact absurd hlt (Nat.lt_irrefl _)
    · exact ⟨hacks, hbacklog⟩

/-- Six messages, of which five are in flight. -/
def saturated : Party :=
  (List.replicate 6 (Action.send [1] .high .reliable 0) ++ [Action.update 0]).foldl act (.new .default 0)

/-- Acknowledgements of the five. -/
def fiveAcks : Bytes := [0, 0, 128, 0, 192, 0, 160, 0, 112, 0, 72]

/-- The five are sent again, which is one loss. Their acknowledgements let the window grow. -/
theorem flow_control_saturated :
    saturated.session.window.size = 5 ∧ saturated.session.resend.length = 5 ∧
      saturated.session.repeated 1000000000 = 5 ∧
      (saturated.session.transmit 1000000000).2.window = saturated.session.window.onLoss 1000000000 ∧
      (saturated.session.transmit 1000000000).2.resend.length ≤ 5 ∧
      (saturated.session.handleDatagram fiveAcks 1).2.window.size = 6 ∧
      5 ≤ (Frame.read fiveAcks).1.countP Entry.isAck ∧ saturated.session.hasBacklog = true := by
  have hsize : saturated.session.window.size = 5 := by decide +kernel
  have hflight : saturated.session.resend.length = 5 := by decide +kernel
  have hrepeated : saturated.session.repeated 1000000000 = 5 := by decide +kernel
  have hgrown : (saturated.session.handleDatagram fiveAcks 1).2.window.size = 6 := by decide +kernel
  have hreachable : saturated.Reachable := (Reachable.new .default 0).acts _
  obtain ⟨-, -, htransmits, hhandles⟩ := hreachable.flow_control
  obtain ⟨hroom, -, hwindow, hle, -⟩ := htransmits 1000000000
  obtain ⟨-, -, hgrows⟩ := hhandles fiveAcks 1
  rw [hrepeated, if_pos (Nat.succ_pos 4)] at hwindow
  rw [hsize] at hgrows hle
  rw [hgrown] at hgrows
  obtain ⟨hacks, hbacklog⟩ := hgrows (by decide)
  refine ⟨hsize, hflight, hrepeated, hwindow, ?_, hgrown, hacks, hbacklog⟩
  exact Nat.le_trans hroom (Nat.max_le.mpr ⟨Nat.le_of_eq hflight, hle⟩)

end Party
end ReliableDatagram
