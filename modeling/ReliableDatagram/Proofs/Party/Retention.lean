import ReliableDatagram.Proofs.Party.History

/-!
# Packets stay in flight

A reliable packet that was transmitted stays in flight, with a place in the order in which packets are
sent again, until it is acknowledged, until a newer sequenced packet of its channel is, or until the
session dies. There is one more way to leave: packets in flight are known by their numbers, and after
65536 packets the numbers begin again, so that a new reliable packet takes the place of an old one.
-/
namespace ReliableDatagram

/-- Another reliable packet with the number of `x` is among the entries. -/
def Packet.ReplacedIn (x : Packet) (es : List Entry) : Prop :=
  ∃ y, .data y ∈ es ∧ y.reliability.isReliable = true ∧ y ≠ x ∧ y.sequence = x.sequence

theorem Packet.ReplacedIn.of_subset {x : Packet} {es es' : List Entry} (h : x.ReplacedIn es)
    (hsubset : es ⊆ es') : x.ReplacedIn es' := by
  obtain ⟨y, hy, hrest⟩ := h
  exact ⟨y, hsubset hy, hrest⟩

namespace Filling

variable {d d' : Filling} {now : Instant} {x : Packet}

theorem Step.sound_resend (h : Step now d d') (hs : d.session.resend.Sound) :
    d'.session.resend.Sound := by
  cases h with
  | tidy hacks hqueues hresend =>
    rcases hresend with rfl | rfl
    · exact hs
    · exact hs.skipStale
  | ack => exact hs
  | ackOnly => exact hs
  | @again p => exact hs.popFront.push p _
  | @first priority p =>
    rw [resend_sendFirst]
    split_ifs
    · exact hs.push p _
    · exact hs

/-- What is in flight stays there, and so does what a step transmits reliably, unless a packet is
transmitted reliably that has the same number. -/
theorem Step.retains (h : Step now d d') (hs : d.session.resend.Sound) :
    ∃ es, d'.frame.entries.toList = d.frame.entries.toList ++ es ∧ ∀ x,
      x ∈ d.session.resend.packets ∨ .data x ∈ es ∧ x.reliability.isReliable = true →
      x ∈ d'.session.resend.packets ∨ x.ReplacedIn es := by
  cases h with
  | tidy hacks hqueues hresend =>
    refine ⟨[], (List.append_nil _).symm, fun x hx => Or.inl ?_⟩
    have hx : x ∈ d.session.resend.packets := by simpa using hx
    rcases hresend with rfl | rfl <;> exact hx
  | ackOnly =>
    exact ⟨[], (List.append_nil _).symm, fun x hx => Or.inl (hx.resolve_right (by simp))⟩
  | @ack a =>
    exact ⟨[.ack a.sequence], Array.toList_push, fun x hx => Or.inl (hx.resolve_right (by simp))⟩
  | @again p hdue hfits =>
    refine ⟨[.data p], Array.toList_push, fun x hx => Or.inl ?_⟩
    show x ∈ (d.session.resend.popFront.2.push p _).packets
    rcases hx with hx | ⟨hx, -⟩
    · exact hs.mem_packets_again hdue hx _
    · obtain rfl : x = p := by simpa using hx
      exact ResendQueue.mem_packets_push_self ..
  | @first priority p queue hqueue hopen hfits =>
    refine ⟨[.data p], Array.toList_push, fun x hx => ?_⟩
    rw [resend_sendFirst]
    by_cases hp : p = x
    · subst hp
      split_ifs with hreliable
      · exact Or.inl (ResendQueue.mem_packets_push_self ..)
      · exact Or.inl (hx.resolve_right fun h => hreliable h.2)
    · have hx : x ∈ d.session.resend.packets := by simpa [Ne.symm hp] using hx
      split_ifs with hreliable
      · by_cases hsequence : x.sequence = p.sequence
        · exact Or.inr ⟨p, by simp, hreliable, hp, hsequence.symm⟩
        · exact Or.inl (ResendQueue.mem_packets_push hx hsequence _)
      · exact Or.inl hx

end Filling

namespace Transmission

/-- What was in flight when the transmission of `s` began is in flight, and so is every reliable packet
that was transmitted since, unless another reliable one with its number was. -/
structure Retains (t : Transmission) (s : Session) : Prop where
  sound : t.filling.session.resend.Sound
  retained : ∀ x, x ∈ s.resend.packets ∨ .data x ∈ t.entries ∧ x.reliability.isReliable = true →
    x ∈ t.filling.session.resend.packets ∨ x.ReplacedIn t.entries

variable {t t' : Transmission} {s : Session} {now : Instant}

theorem Retains.step (h : t.Retains s) (hstep : Step now t t') : t'.Retains s := by
  cases hstep with
  | close =>
    refine ⟨h.sound, fun x hx => ?_⟩
    rw [entries_close] at hx ⊢
    exact h.retained x hx
  | fill hfill =>
    obtain ⟨es, hes, hretains⟩ := hfill.retains h.sound
    refine ⟨hfill.sound_resend h.sound, fun x hx => ?_⟩
    rw [entries_fill hes] at hx ⊢
    have hcases : (x ∈ s.resend.packets ∨ .data x ∈ t.entries ∧ x.reliability.isReliable = true) ∨
        .data x ∈ es ∧ x.reliability.isReliable = true := by
      rw [List.mem_append] at hx
      tauto
    have hflight : x.ReplacedIn t.entries ∨ x ∈ t.filling.session.resend.packets ∨
        .data x ∈ es ∧ x.reliability.isReliable = true := by
      rcases hcases with hold | hnew
      · exact (h.retained x hold).symm.imp_right Or.inl
      · exact Or.inr (Or.inr hnew)
    rcases hflight with hreplaced | hx
    · exact Or.inr (hreplaced.of_subset (List.subset_append_left ..))
    · exact (hretains x hx).imp_right fun hreplaced => hreplaced.of_subset (List.subset_append_right ..)

end Transmission

namespace Session

variable {s : Session}

/-- After a transmission a session is dead, or it keeps what was in flight and what was sent reliably. -/
theorem retains_transmit (h : s.resend.Sound) (now : Instant) :
    (s.transmit now).2.resend.Sound ∧ ((s.transmit now).2.isDead = true ∨ ∀ x,
      x ∈ s.resend.packets ∨ .data x ∈ s.transmitted now ∧ x.reliability.isReliable = true →
      x ∈ (s.transmit now).2.resend.packets ∨ x.ReplacedIn (s.transmitted now)) := by
  rcases s.transmitted_cases now with ⟨-, ⟨hdead, heq⟩ | heq⟩ | ⟨-, t, hentries, hsession, hsteps⟩
  · rw [heq]
    exact ⟨h, Or.inl hdead⟩
  · rw [heq]
    exact ⟨.empty, Or.inl rfl⟩
  · have hretains : t.Retains s := by
      refine hsteps.keep (fun _ _ hstep h => Transmission.Retains.step h hstep)
        ⟨h, fun x hx => Or.inl (hx.resolve_right (by simp))⟩
    rw [← hsession, ← hentries]
    exact ⟨hretains.sound, Or.inr hretains.retained⟩

end Session

namespace Party

/-- The entries that an action puts on the wire. -/
def output (p : Party) : Action → List Entry
  | .update now => p.session.transmitted now
  | _ => []

/-- Reasons for which the packet `x` may go out of flight. -/
inductive LetsGo (p : Party) (x : Packet) : Action → Prop
  | acknowledged {data : Bytes} {now : Instant} {s : SequenceNumber}
      (hack : .ack s ∈ p.session.heeded data) (h : p.session.resend.Releases s x) :
      LetsGo p x (.handle data now)
  | died {action : Action} (h : (p.act action).session.isDead = true) : LetsGo p x action

/-- The numbers have come round: more packets were accepted than there are numbers, and another reliable
one is transmitted under the number of `x`. -/
def Renumbers (p : Party) (x : Packet) (action : Action) : Prop :=
  Counter.period < p.session.numbersTaken ∧ x.ReplacedIn (p.output action)

/-- After the action `x` is in flight, or it is known why it is not. -/
def Keeps (p : Party) (action : Action) (x : Packet) : Prop :=
  x ∈ (p.act action).session.resend.packets ∨ p.LetsGo x action ∨ p.Renumbers x action

variable {p : Party} {x : Packet}

theorem resend_submit (h : p.Reachable) {payload : Bytes} {bitLength : Nat} {priority : Priority}
    {r : Reliability} {channel : Nat} {result : Except SendError Session}
    (hresult : ∀ s', result = .ok s' →
      p.session.sendBits payload bitLength priority r channel = .ok s') :
    (p.submit payload bitLength r channel result).session.resend = p.session.resend := by
  cases result with
  | error e => rfl
  | ok s' =>
    obtain ⟨ms, hsound⟩ := h.sound
    obtain ⟨m, -, -, hextends, -⟩ := Session.sends_sendBits hsound.sends (hresult s' rfl)
    exact hextends.resend_eq

theorem keeps_of_resend_eq {action : Action}
    (hresend : (p.act action).session.resend = p.session.resend) (houtput : p.output action = [])
    (hs : p.session.resend.Sound) :
    (p.act action).session.resend.Sound ∧ ∀ x, x ∈ p.session.resend.packets ∨
      .data x ∈ p.output action ∧ x.reliability.isReliable = true → p.Keeps action x := by
  refine ⟨hresend ▸ hs, fun x hx => Or.inl ?_⟩
  rw [houtput] at hx
  exact hresend ▸ hx.resolve_right (by simp)

/-- While no number is used twice, a packet that was transmitted shares its number with no other one. -/
theorem Reachable.period_lt_of_shared (h : p.Reachable) {now : Instant} {y : Packet}
    (hx : x ∈ p.session.resend.packets ∨ .data x ∈ p.session.transmitted now)
    (hy : .data y ∈ p.session.transmitted now) (hne : y ≠ x) (hsequence : y.sequence = x.sequence) :
    Counter.period < p.session.numbersTaken := by
  by_contra hfew
  obtain ⟨ms, log, hlog⟩ := h.recounts (Nat.not_lt.mp hfew)
  have hlater := hlog.recounts.transmit now
  have hemitted : ∀ z, .data z ∈ p.session.transmitted now →
      z ∈ (log ++ emissions (p.session.transmitted now) now
        p.session.config.resendDelay).filterMap Event.emitted? := fun z hz =>
    mem_filterMap_emitted.mpr ⟨now, p.session.config.resendDelay,
      List.mem_append_right _ (List.mem_filterMap.mpr ⟨.data z, hz, rfl⟩)⟩
  have hqueued : x ∈ (log ++ emissions (p.session.transmitted now) now
      p.session.config.resendDelay).filterMap Event.queued? := by
    refine hlater.queued_of_emitted ?_
    rcases hx with hx | hx
    · obtain ⟨e, he, rfl⟩ := List.mem_map.mp hx
      exact mem_emitted_append (hlog.recounts.inFlight e he).1 _
    · exact hemitted x hx
  exact hne (hlater.eq_of_sequence (hlater.queued_of_emitted (hemitted y hy)) hqueued hsequence)

/-- One action keeps what is in flight, and what it transmits reliably. -/
theorem Reachable.keeps_act (h : p.Reachable) (hs : p.session.resend.Sound) (action : Action) :
    (p.act action).session.resend.Sound ∧ ∀ x, x ∈ p.session.resend.packets ∨
      .data x ∈ p.output action ∧ x.reliability.isReliable = true → p.Keeps action x := by
  cases action with
  | send payload priority r channel =>
    exact keeps_of_resend_eq (resend_submit h fun s' => Session.send_ok) rfl hs
  | sendBits payload bitLength priority r channel =>
    exact keeps_of_resend_eq (resend_submit h fun s' => id) rfl hs
  | update now =>
    obtain ⟨hsound, hdead | hretains⟩ := Session.retains_transmit hs now
    · exact ⟨hsound, fun x _ => Or.inr (Or.inl (.died hdead))⟩
    · refine ⟨hsound, fun x hx => (hretains x hx).imp_right ?_⟩
      rintro ⟨y, hy, hreliable, hne, hsequence⟩
      have hmany := h.period_lt_of_shared (hx.imp_right And.left) hy hne hsequence
      exact Or.inr ⟨hmany, y, hy, hreliable, hne, hsequence⟩
  | handle data now =>
    have hthins := p.session.thins_handleDatagram data now
    refine ⟨hthins.sound hs, fun x hx => ?_⟩
    have hx : x ∈ p.session.resend.packets := hx.resolve_right (by simp [output])
    refine (hthins.kept x hx).imp_right ?_
    rintro ⟨s, hack, hreleases⟩
    exact Or.inl (.acknowledged hack hreleases)
  | receive =>
    obtain ⟨output, returned, hact⟩ := p.exists_receive
    exact keeps_of_resend_eq (by rw [hact]) rfl hs
  | setResendDelay delay => exact keeps_of_resend_eq rfl rfl hs
  | kill => exact ⟨.empty, fun x _ => Or.inr (Or.inl (.died rfl))⟩
  | close => exact ⟨.empty, fun x _ => Or.inr (Or.inl (.died rfl))⟩

theorem Reachable.sound_resend (h : p.Reachable) : p.session.resend.Sound := by
  induction h with
  | new config now => exact .empty
  | act h action ih => exact (h.keeps_act ih action).1

/-- A packet in flight stays until there is a reason to go. -/
theorem Reachable.inFlight_acts (h : p.Reachable) (hx : x ∈ p.session.resend.packets)
    (actions : List Action) : x ∈ (actions.foldl Party.act p).session.resend.packets ∨
      ∃ before action after, actions = before ++ action :: after ∧
        x ∈ (before.foldl Party.act p).session.resend.packets ∧
        ((before.foldl Party.act p).LetsGo x action ∨
          (before.foldl Party.act p).Renumbers x action) := by
  induction actions generalizing p with
  | nil => exact Or.inl hx
  | cons action actions ih =>
    rcases (h.keeps_act h.sound_resend action).2 x (Or.inl hx) with hstays | hgoes
    · rcases ih (h.act action) hstays with hstays | ⟨before, action', after, rfl, hbefore, hgoes⟩
      · exact Or.inl hstays
      · exact Or.inr ⟨action :: before, action', after, rfl, hbefore, hgoes⟩
    · exact Or.inr ⟨[], action, actions, rfl, hx, hgoes⟩

/-- A reliable packet is in flight once it was transmitted. From then on it has a place in the order of
repetition, and stays until something lets it go. So as long as no more packets were accepted than there
are numbers, it stays until it is acknowledged, or a newer one is, or the session dies. -/
theorem Reachable.retention (h : p.Reachable) :
    (∀ action x, .data x ∈ p.output action → x.reliability.isReliable = true → p.Keeps action x) ∧
      ∀ x ∈ p.session.resend.packets, x.sequence ∈ p.session.resend.order ∧
        ∀ actions : List Action, x ∈ (actions.foldl Party.act p).session.resend.packets ∨
          ∃ before action after, actions = before ++ action :: after ∧
            x ∈ (before.foldl Party.act p).session.resend.packets ∧
            ((before.foldl Party.act p).LetsGo x action ∨
              (before.foldl Party.act p).Renumbers x action) := by
  refine ⟨fun action x hx hreliable => ?_, fun x hx => ⟨h.sound_resend.listed x hx, h.inFlight_acts hx⟩⟩
  exact (h.keeps_act h.sound_resend action).2 x (Or.inr ⟨hx, hreliable⟩)

/-- A reliable message that was transmitted once. -/
def unanswered : Party := [.send [7] .high .reliable 0, .update 0].foldl act (.new .default 0)

theorem retention_unanswered :
    unanswered.session.resend.packets.length = 1 ∧
      (∀ action x, .data x ∈ unanswered.output action → x.reliability.isReliable = true →
        unanswered.Keeps action x) ∧
      ∀ x ∈ unanswered.session.resend.packets, x.sequence ∈ unanswered.session.resend.order ∧
        ∀ actions : List Action, x ∈ (actions.foldl act unanswered).session.resend.packets ∨
          ∃ before action after, actions = before ++ action :: after ∧
            x ∈ (before.foldl act unanswered).session.resend.packets ∧
            ((before.foldl act unanswered).LetsGo x action ∨
              (before.foldl act unanswered).Renumbers x action) :=
  ⟨by decide +kernel, Reachable.retention ((Reachable.new .default 0).acts _)⟩

end Party
end ReliableDatagram
