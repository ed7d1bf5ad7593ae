import ReliableDatagram.Proofs.Party.Precedence
import ReliableDatagram.Proofs.Party.Traffic

/-!
# Frames of acknowledgements alone

The counter of frames that carry nothing but acknowledgements is written where the acknowledgements at hand
do not all fit. So it counts the frames that leave others behind, and not the one that takes the last; and
when no frame has room for an acknowledgement it counts an attempt of which nothing comes. The counter and
the frames differ by just these two: `ackOnly_accounted`.
-/
namespace ReliableDatagram

/-- The entries of each frame, with the acknowledgements that were pending when it was finished: those that
went into later frames, and the `pending` ones that are left in the end. -/
def withPending (pending : Nat) : List (List Entry) → List (List Entry × Nat)
  | [] => []
  | es :: rest => (es, pending + total (List.countP Entry.isAck) rest) :: withPending pending rest

theorem map_fst_withPending (pending : Nat) (l : List (List Entry)) :
    (withPending pending l).map Prod.fst = l := by
  induction l with
  | nil => rfl
  | cons es rest ih => rw [withPending, List.map_cons, ih]

/-- Acknowledgements alone, others being left behind. -/
def overflows (x : List Entry × Nat) : Bool := x.1.all Entry.isAck && 0 < x.2

/-- Acknowledgements alone, the last ones among them. -/
def clears (x : List Entry × Nat) : Bool := x.1.all Entry.isAck && x.2 == 0

theorem countP_overflows_add (l : List (List Entry × Nat)) :
    l.countP overflows + l.countP clears = (l.map Prod.fst).countP (·.all Entry.isAck) := by
  induction l with
  | nil => rfl
  | cons x l ih =>
    obtain ⟨es, left⟩ := x
    have hone : (if overflows (es, left) then 1 else 0) + (if clears (es, left) then 1 else 0) =
        if es.all Entry.isAck then 1 else 0 := by
      rw [overflows, clears]
      cases es.all Entry.isAck <;> cases left <;> simp
    rw [List.map_cons, List.countP_cons, List.countP_cons, List.countP_cons, ← hone, ← ih]
    omega

/-- An acknowledgement is read as one. -/
theorem countP_overflows_decoded (pending : Nat) (l : List (List Entry)) :
    (withPending pending (l.map (·.map Entry.decoded))).countP overflows =
      (withPending pending l).countP overflows := by
  have hacks : ∀ es : List Entry, (es.map Entry.decoded).countP Entry.isAck = es.countP Entry.isAck := by
    intro es
    rw [List.countP_map]
    exact List.countP_congr fun e _ => by simp [e.isAck_decoded]
  induction l with
  | nil => rfl
  | cons es rest ih =>
    have hrest : total (List.countP Entry.isAck) (rest.map (·.map Entry.decoded)) =
        total (List.countP Entry.isAck) rest := by
      rw [total_map]
      exact congrArg (total · rest) (funext hacks)
    have hall : (es.map Entry.decoded).all Entry.isAck = es.all Entry.isAck := by
      rw [List.all_map]
      exact congrArg es.all (funext Entry.isAck_decoded)
    rw [List.map_cons, withPending, withPending, List.countP_cons, List.countP_cons, ih, hrest, overflows,
      overflows, hall]

/-- Packets alone are not acknowledgements alone. -/
theorem Entry.not_all_isAck {es : List Entry} (hne : es ≠ []) (hnone : es.countP Entry.isAck = 0) :
    es.all Entry.isAck = false := by
  obtain ⟨e, es, rfl⟩ := List.exists_cons_of_ne_nil hne
  have he := List.countP_eq_zero.mp hnone e List.mem_cons_self
  rw [List.all_cons, Bool.eq_false_iff.mpr he, Bool.false_and]

namespace Filling

variable {d d' : Filling} {now : Instant} {maxBytes : Nat}

/-- Acknowledgements of the session and of the frame. -/
def acksInAll (d : Filling) : Nat := d.session.acks.length + d.frame.entries.toList.countP Entry.isAck

theorem Step.acksInAll (h : Step now d d') : d'.acksInAll = d.acksInAll := by
  have hpush : ∀ (f : FrameBuilder) (e : Entry), (f.push e).entries.toList.countP Entry.isAck =
      f.entries.toList.countP Entry.isAck + if e.isAck then 1 else 0 := by
    intro f e
    rw [FrameBuilder.push, Array.toList_push, List.countP_append, List.countP_singleton]
  cases h with
  | @tidy acks queues resend hacks =>
    have hlength : acks.length = d.session.acks.length := by
      rw [← Fifo.length_toList, hacks, Fifo.length_toList]
    exact congrArg (· + _) hlength
  | ackOnly => rfl
  | @ack a acks hacks =>
    have hlength : d.session.acks.length = (Fifo.ofList acks).length + 1 := by
      simp [← Fifo.length_toList, hacks]
    rw [Filling.acksInAll, Filling.acksInAll, hpush, hlength]
    exact Nat.add_right_comm (Fifo.ofList acks).length _ 1
  | @again p => exact congrArg (d.session.acks.length + ·) (hpush d.frame (.data p))
  | @first priority p queue =>
    rw [Filling.acksInAll, acks_sendFirst]
    exact congrArg (d.session.acks.length + ·) (hpush d.frame (.data p))

theorem Steps.acksInAll (h : Steps now d d') : d'.acksInAll = d.acksInAll := by
  induction h with
  | refl => rfl
  | tail _ step ih => exact step.acksInAll.trans ih

/-- The pending acknowledgements and the counter, which no packet touches. -/
def ackState (d : Filling) : Fifo PendingAck × Nat :=
  (d.session.acks, d.session.counters.ackOnlyFramesSent)

theorem ackState_resendOverdue (d : Filling) (now : Instant) :
    (d.resendOverdue now).2.ackState = d.ackState :=
  resendWith_keeps now (fun _ => rfl) (fun _ _ => rfl) _ d

theorem ackState_sendFresh (now : Instant) (priorities : List Priority) (d : Filling) :
    (sendFresh now priorities d).ackState = d.ackState := by
  refine sendFresh_keeps now (fun _ _ _ => rfl) (fun d priority p => ?_) priorities d
  rw [sendFirst]
  split_ifs <;> rfl

theorem all_isAck_pushAcks (f : FrameBuilder) (acks : List PendingAck) :
    (pushAcks f acks).1.entries.toList.all Entry.isAck = f.entries.toList.all Entry.isAck := by
  induction acks generalizing f with
  | nil => rfl
  | cons a acks ih =>
    rw [pushAcks]
    split_ifs
    · rw [ih, FrameBuilder.push, Array.toList_push, List.all_append]
      exact Bool.and_true _
    · rfl

theorem all_isAck_takeAcks (d : Filling) :
    d.takeAcks.frame.entries.toList.all Entry.isAck = d.frame.entries.toList.all Entry.isAck :=
  all_isAck_pushAcks ..

/-- Nothing fits a frame that has no room for an acknowledgement. -/
theorem three_le_of_fits {e : Entry} (h : (FrameBuilder.ofMaxBytes maxBytes).fits e = true) :
    3 ≤ maxBytes := by
  cases e with
  | ack q =>
    have hroom : Limits.ackBits ≤ maxBytes * 8 - 0 := of_decide_eq_true h
    simp only [Limits.ackBits] at hroom
    omega
  | data x => exact Entry.FitsAlone.three_le h

theorem Steps.frame_eq (h : Steps now d d') (hframe : d.frame = .ofMaxBytes maxBytes)
    (hnarrow : maxBytes < 3) : d'.frame = .ofMaxBytes maxBytes := by
  induction h with
  | refl => exact hframe
  | tail _ step ih =>
    rcases step.frame_cases (P := fun _ => True) with hsame | ⟨e, -, hfits, -⟩
    · exact hsame.trans ih
    · rw [ih] at hfits
      exact absurd (three_le_of_fits hfits) (Nat.not_le.mpr hnarrow)

/-- The acknowledgements that are due do not all fit; or they do, and packets follow; or none is due, and
packets come first. -/
theorem fill_cases (d : Filling) (now : Instant) :
    (d.session.acksDue now = true ∧ d.takeAcks.session.acks.isEmpty = false ∧
        d.fill now = { d.takeAcks with session := d.takeAcks.session.count fun c =>
          { c with ackOnlyFramesSent := c.ackOnlyFramesSent + 1 } }) ∨
      (d.session.acksDue now = true ∧ d.takeAcks.session.acks.isEmpty = true ∧
        Steps now d.takeAcks (d.fill now) ∧ (d.fill now).ackState = d.takeAcks.ackState) ∨
      (d.session.acksDue now = false ∧ ∃ d', Steps now d d' ∧ d'.ackState = d.ackState ∧
        (d.fill now = d' ∨ d'.frame.isEmpty = false ∧ d.fill now = d'.takeAcks)) := by
  -- What the packets make of a filling, wherever they begin.
  have hpackets : ∀ e : Filling, (Steps now e (e.resendOverdue now).2 ∧
      (e.resendOverdue now).2.ackState = e.ackState) ∧
      (Steps now e (sendFresh now Priority.all (e.resendOverdue now).2) ∧
        (sendFresh now Priority.all (e.resendOverdue now).2).ackState = e.ackState) := by
    intro e
    have hresend : Steps now e (e.resendOverdue now).2 := steps_resendWith now _ e
    have hstate := e.ackState_resendOverdue now
    exact ⟨⟨hresend, hstate⟩, hresend.trans (steps_sendFresh now _ _),
      (ackState_sendFresh now _ _).trans hstate⟩
  rw [fill]
  cases hdue : d.session.acksDue now with
  | true =>
    cases hleft : d.takeAcks.session.acks.isEmpty with
    | false => exact Or.inl ⟨rfl, rfl, by simp [hleft]⟩
    | true =>
      refine Or.inr (Or.inl ⟨rfl, rfl, ?_⟩)
      have hspec := hpackets d.takeAcks
      simp only [if_true, hleft, Bool.not_true, Bool.and_false, Bool.false_eq_true, if_false]
      generalize d.takeAcks.resendOverdue now = answer at hspec ⊢
      obtain ⟨_ | _, d'⟩ := answer
      · exact hspec.2
      · exact hspec.1
  | false =>
    refine Or.inr (Or.inr ⟨rfl, ?_⟩)
    have hspec := hpackets d
    simp only [Bool.false_eq_true, if_false, Bool.false_and, Bool.false_or]
    generalize d.resendOverdue now = answer at hspec ⊢
    obtain ⟨_ | _, d'⟩ := answer
    · refine ⟨_, hspec.2.1, hspec.2.2, ?_⟩
      dsimp only
      split_ifs with hempty
      · exact Or.inl rfl
      · exact Or.inr ⟨Bool.eq_false_iff.mpr hempty, rfl⟩
    · exact ⟨d', hspec.1.1, hspec.1.2, Or.inl rfl⟩

theorem length_acks_pos (hdue : d.session.acksDue now = true) : 0 < d.session.acks.length := by
  rw [← Fifo.length_toList]
  cases hacks : d.session.acks.toList with
  | nil => simp [Session.acksDue, hacks] at hdue
  | cons a acks => exact Nat.succ_pos _

/-- If none of the acknowledgements that were due is left, they are in the frame. -/
theorem isEmpty_takeAcks_of_taken (hnone : d.frame.entries.toList = []) (hdue : d.session.acksDue now = true)
    (hleft : d.takeAcks.session.acks.length = 0) : d.takeAcks.frame.isEmpty = false := by
  by_contra hempty
  have hentries : d.takeAcks.frame.entries.toList = [] :=
    (FrameBuilder.isEmpty_iff _).mp (Bool.not_eq_false _ ▸ hempty)
  have hkept := Steps.acksInAll (steps_takeAcks now d)
  rw [acksInAll, acksInAll, hleft, hentries, hnone] at hkept
  have hpos := length_acks_pos hdue
  exact Nat.ne_of_lt hpos hkept

/-- As long as no acknowledgement is taken, what is in the frame is a packet. -/
theorem Steps.not_all_isAck (h : Steps now d d') (hnone : d.frame.entries.toList = [])
    (hacks : d'.session.acks = d.session.acks) (hfull : d'.frame.isEmpty = false) :
    d'.frame.entries.toList.all Entry.isAck = false := by
  have hkept := h.acksInAll
  rw [Filling.acksInAll, Filling.acksInAll, hacks, hnone] at hkept
  refine Entry.not_all_isAck (fun hnil => ?_) (Nat.add_left_cancel hkept)
  exact Bool.eq_false_iff.mp hfull ((FrameBuilder.isEmpty_iff _).mpr hnil)

/-- What the frame came to be, and whether it was counted. An empty frame is counted if acknowledgements are
due for which it has no room, and any other one if it left acknowledgements behind and carries nothing
else. -/
theorem ackOnly_fill (hframe : d.frame = .ofMaxBytes maxBytes) :
    (d.fill now).session.counters.ackOnlyFramesSent = d.session.counters.ackOnlyFramesSent +
      if (d.fill now).frame.isEmpty then
        if d.session.acksDue now && decide (maxBytes < 3) then 1 else 0
      else if overflows ((d.fill now).frame.entries.toList, (d.fill now).session.acks.length) then 1
      else 0 := by
  have hnone : d.frame.entries.toList = [] := by rw [hframe]; rfl
  rcases d.fill_cases now with ⟨hdue, hleft, hfill⟩ | ⟨hdue, hleft, hsteps, hstate⟩ |
    ⟨hdue, d', hsteps, hstate, hfill⟩
  · -- The frame is full of acknowledgements, or has no room for the first one.
    have hpending : 0 < d.takeAcks.session.acks.length := Nat.pos_of_ne_zero fun hzero =>
      Bool.eq_false_iff.mp hleft ((Fifo.isEmpty_iff_length _).mpr hzero)
    have hall := d.all_isAck_takeAcks
    have hnarrow : d.takeAcks.frame.isEmpty = true → maxBytes < 3 := by
      intro hempty
      by_contra hwide
      exact not_isEmpty_takeAcks hframe (Nat.not_lt.mp hwide) hdue hempty
    rw [hnone] at hall
    rw [hfill]
    show d.session.counters.ackOnlyFramesSent + 1 = _
    split_ifs with hempty hcond hover
    · rfl
    · exact absurd (by simp [hdue, hnarrow hempty]) hcond
    · rfl
    · exact absurd (by simp [overflows, hall, Session.count, hpending]) hover
  · -- The frame took them all, so it is not empty, and none is left behind.
    have hcount : (d.fill now).session.counters.ackOnlyFramesSent =
        d.session.counters.ackOnlyFramesSent := congrArg Prod.snd hstate
    have hsame : (d.fill now).session.acks = d.takeAcks.session.acks := congrArg Prod.fst hstate
    have hgone : d.takeAcks.session.acks.length = 0 := (Fifo.isEmpty_iff_length _).mp hleft
    have hfull : (d.fill now).frame.isEmpty = false := by
      by_contra hempty
      have hbefore := Steps.isEmpty hsteps (Bool.not_eq_false _ ▸ hempty)
      exact Bool.eq_false_iff.mp (isEmpty_takeAcks_of_taken hnone hdue hgone) hbefore
    rw [hcount, hfull, hsame, hgone]
    simp [overflows]
  · -- A packet is in the frame, unless it is empty.
    have hmixed := Steps.not_all_isAck hsteps hnone (congrArg Prod.fst hstate)
    have hcount : (d.fill now).session.counters.ackOnlyFramesSent =
        d.session.counters.ackOnlyFramesSent := by
      rcases hfill with hfill | ⟨-, hfill⟩ <;> rw [hfill] <;> exact congrArg Prod.snd hstate
    have hall : (d.fill now).frame.isEmpty = false →
        (d.fill now).frame.entries.toList.all Entry.isAck = false := by
      intro hfull
      rcases hfill with hfill | ⟨hfull', hfill⟩
      · rw [hfill] at hfull ⊢
        exact hmixed hfull
      · rw [hfill, all_isAck_takeAcks]
        exact hmixed hfull'
    rw [hcount, hdue]
    cases hempty : (d.fill now).frame.isEmpty with
    | true => rfl
    | false =>
      rw [overflows, hall hempty]
      rfl

end Filling

namespace Session

variable {s s' : Session} {now : Instant} {frames : List Frame}

/-- The acknowledgements that were pending are pending still or in the frames, and the frames that left
others behind were counted. -/
structure Acknowledges (s s' : Session) (frames : List Frame) : Prop where
  acks_eq : s'.acks.length + total (fun f => f.entries.countP Entry.isAck) frames = s.acks.length
  count_eq : s'.counters.ackOnlyFramesSent = s.counters.ackOnlyFramesSent +
    (withPending s'.acks.length (frames.map (·.entries))).countP overflows

theorem Acknowledges.refl (s : Session) : s.Acknowledges s [] := ⟨rfl, rfl⟩

theorem Acknowledges.congr {s₁ : Session} (h : s.Acknowledges s' frames) (hacks : s.acks = s₁.acks)
    (hcount : s.counters.ackOnlyFramesSent = s₁.counters.ackOnlyFramesSent) :
    s₁.Acknowledges s' frames :=
  ⟨hacks ▸ h.acks_eq, hcount ▸ h.count_eq⟩

/-- One more frame in front. -/
theorem Acknowledges.cons {s₁ : Session} {f : Frame} (h : s₁.Acknowledges s' frames)
    (hacks : s₁.acks.length + f.entries.countP Entry.isAck = s.acks.length)
    (hcount : s₁.counters.ackOnlyFramesSent = s.counters.ackOnlyFramesSent +
      if overflows (f.entries, s₁.acks.length) then 1 else 0) : s.Acknowledges s' (f :: frames) := by
  have hlater := h.acks_eq
  refine ⟨?_, ?_⟩
  · rw [total_cons]
    omega
  · have hleft : s'.acks.length + total (List.countP Entry.isAck) (frames.map (·.entries)) =
        s₁.acks.length := by
      rw [total_map]
      exact hlater
    rw [List.map_cons, withPending, List.countP_cons, hleft, h.count_eq, hcount]
    omega

theorem acks_isFrameReady (s : Session) (now : Instant) : (s.isFrameReady now).2.acks = s.acks := by
  rw [isFrameReady]
  split_ifs <;> rfl

theorem ackOnly_isFrameReady (s : Session) (now : Instant) :
    (s.isFrameReady now).2.counters.ackOnlyFramesSent = s.counters.ackOnlyFramesSent := by
  rw [isFrameReady]
  split_ifs <;> rfl

/-- If nothing comes of a frame, it was counted if acknowledgements are due and have no room. -/
theorem nextFrame_of_isEmpty {lost : Bool} (hempty : (s.nextFrame now lost).frame.isEmpty = true) :
    (s.nextFrame now lost).session.acks.length = s.acks.length ∧
      (s.nextFrame now lost).session.counters.ackOnlyFramesSent = s.counters.ackOnlyFramesSent +
        if s.acksDue now && decide (s.config.frameBudget < 3) then 1 else 0 := by
  have hkept : (s.nextFrame now lost).session.acks.length + _ = s.acks.length :=
    Filling.Steps.acksInAll (s.steps_nextFrame now lost)
  have hfill : (s.nextFrame now lost).session.counters.ackOnlyFramesSent = _ + _ :=
    Filling.ackOnly_fill rfl
  have hnil : (s.nextFrame now lost).frame.entries.toList = [] :=
    (FrameBuilder.isEmpty_iff _).mp hempty
  rw [hnil] at hkept
  rw [← nextFrame, if_pos hempty] at hfill
  exact ⟨hkept, hfill⟩

/-- Any other frame was counted if it overflows. -/
theorem nextFrame_of_full {lost : Bool} (hfull : (s.nextFrame now lost).frame.isEmpty = false) :
    3 ≤ s.config.frameBudget ∧
      (s.nextFrame now lost).session.acks.length +
        (s.nextFrame now lost).frame.finish.entries.countP Entry.isAck = s.acks.length ∧
      (s.nextFrame now lost).session.counters.ackOnlyFramesSent = s.counters.ackOnlyFramesSent +
        if overflows ((s.nextFrame now lost).frame.finish.entries,
          (s.nextFrame now lost).session.acks.length) then 1 else 0 := by
  have hsteps := s.steps_nextFrame now lost
  have hfill : (s.nextFrame now lost).session.counters.ackOnlyFramesSent = _ + _ :=
    Filling.ackOnly_fill rfl
  rw [← nextFrame, hfull, if_neg Bool.false_ne_true] at hfill
  refine ⟨?_, Filling.Steps.acksInAll hsteps, hfill⟩
  by_contra hnarrow
  have hframe := Filling.Steps.frame_eq hsteps rfl (Nat.not_le.mp hnarrow)
  rw [hframe] at hfull
  cases hfull

/-- Frames with room for an acknowledgement. -/
theorem acknowledges_buildFrames (hwide : 3 ≤ s.config.frameBudget) (now : Instant) (fuel : Nat)
    (lost : Bool) :
    s.Acknowledges (buildFrames now fuel lost s).2 (buildFrames now fuel lost s).1 := by
  induction fuel generalizing s lost with
  | zero => exact .refl s
  | succ n ih =>
    have hacks := s.acks_isFrameReady now
    have hcount := s.ackOnly_isFrameReady now
    have hconfig := s.config_isFrameReady now
    rw [buildFrames]
    generalize s.isFrameReady now = answer at hacks hcount hconfig ⊢
    obtain ⟨_ | _, s'⟩ := answer
    · exact (Acknowledges.refl s').congr hacks hcount
    · dsimp only at hacks hcount hconfig ⊢
      rw [← hconfig] at hwide
      refine Acknowledges.congr ?_ hacks hcount
      have hempty := @nextFrame_of_isEmpty s' now lost
      have hfull := @nextFrame_of_full s' now lost
      have hsame : (s'.nextFrame now lost).session.config = s'.config :=
        congrArg Standing.config (Filling.Steps.standing (s'.steps_nextFrame now lost))
      rw [← nextFrame]
      generalize s'.nextFrame now lost = d at hempty hfull hsame ⊢
      split_ifs with hframe
      · obtain ⟨hlength, hcounted⟩ := hempty hframe
        have hbarred : (s'.acksDue now && decide (s'.config.frameBudget < 3)) = false := by
          simp [Nat.not_lt.mpr hwide]
        rw [hbarred] at hcounted
        exact ⟨hlength, hcounted⟩
      · obtain ⟨-, hlength, hcounted⟩ := hfull (Bool.eq_false_iff.mpr hframe)
        rw [← hsame] at hwide
        refine Acknowledges.cons ?_ hlength hcounted
        refine Acknowledges.congr (ih ?_ d.lost) rfl rfl
        exact hwide

/-- Frames without. -/
theorem buildFrames_of_narrow (hnarrow : s.config.frameBudget < 3) (now : Instant) (fuel : Nat)
    (lost : Bool) :
    (buildFrames now (fuel + 1) lost s).1 = [] ∧
      (buildFrames now (fuel + 1) lost s).2.counters.ackOnlyFramesSent =
        s.counters.ackOnlyFramesSent + if s.acksDue now then 1 else 0 := by
  have hready : s.acksDue now = true → s.isFrameReady now = (true, s) := by
    intro hdue
    rw [isFrameReady, hdue, Bool.or_true, if_pos rfl]
  have hacks := s.acks_isFrameReady now
  have hcount := s.ackOnly_isFrameReady now
  have hconfig := s.config_isFrameReady now
  rw [buildFrames]
  generalize s.isFrameReady now = answer at hready hacks hcount hconfig ⊢
  obtain ⟨_ | _, s'⟩ := answer
  · have hdue : s.acksDue now = false := by
      by_contra hdue
      cases hready (Bool.not_eq_false _ ▸ hdue)
    rw [hdue]
    exact ⟨rfl, hcount⟩
  · have hdue : s'.acksDue now = s.acksDue now := by
      rw [acksDue, acksDue, hacks]
    dsimp only at hcount hconfig ⊢
    have hempty := @nextFrame_of_isEmpty s' now lost
    have hfull := @nextFrame_of_full s' now lost
    rw [hdue, hcount, hconfig, decide_eq_true hnarrow, Bool.and_true] at hempty
    rw [hconfig] at hfull
    rw [← nextFrame]
    generalize s'.nextFrame now lost = d at hempty hfull ⊢
    cases hframe : d.frame.isEmpty with
    | true =>
      rw [if_pos rfl]
      exact ⟨rfl, (hempty hframe).2⟩
    | false => exact absurd (hfull hframe).1 (Nat.not_le.mpr hnarrow)

/-- Acknowledgements are due to a session that lives, and no frame has room for one. -/
def barred (s : Session) (now : Instant) : Bool :=
  !s.isDead && !s.hasTimedOut now && s.acksDue now && s.config.frameBudget < 3

/-- A transmission counts the frames that leave acknowledgements behind, and the attempt at one that has
no room. -/
theorem ackOnly_transmit (s : Session) (now : Instant) :
    (s.transmit now).2.counters.ackOnlyFramesSent = s.counters.ackOnlyFramesSent +
      (withPending (s.transmit now).2.acks.length ((s.transmit now).1.map (·.entries))).countP overflows +
      if s.barred now then 1 else 0 := by
  rw [transmit, barred]
  cases s.isDead with
  | true => rfl
  | false =>
    cases s.hasTimedOut now with
    | true => rfl
    | false =>
      simp only [Bool.false_eq_true, if_false, Bool.not_false, Bool.true_and]
      by_cases hnarrow : s.config.frameBudget < 3
      · obtain ⟨hnone, hcount⟩ := buildFrames_of_narrow hnarrow now s.unsent false
        rw [hnone, hcount, decide_eq_true hnarrow, Bool.and_true]
        rfl
      · have hacknowledges := acknowledges_buildFrames (Nat.not_lt.mp hnarrow) now (s.unsent + 1) false
        rw [hacknowledges.count_eq, decide_eq_false hnarrow, Bool.and_false]
        rfl

end Session

namespace Party

variable {p : Party}

/-- The frames that an action finishes, each as it is read and with the acknowledgements that are pending
then. -/
def finishes (p : Party) : Action → List (List Entry × Nat)
  | .update now =>
    withPending (p.session.transmit now).2.acks.length
      ((p.session.transmit now).1.map fun f => (Frame.read f.bytes).1)
  | .send .. | .sendBits .. | .handle .. | .receive | .setResendDelay _ | .kill | .close => []

/-- The attempts of an action at a frame without room. -/
def attempts (p : Party) : Action → Nat
  | .update now => if p.session.barred now then 1 else 0
  | .send .. | .sendBits .. | .handle .. | .receive | .setResendDelay _ | .kill | .close => 0

def finished (p : Party) : List Action → List (List Entry × Nat)
  | [] => []
  | action :: actions => p.finishes action ++ (p.act action).finished actions

def attempted (p : Party) : List Action → Nat
  | [] => 0
  | action :: actions => p.attempts action + (p.act action).attempted actions

/-- The entries of every frame that was transmitted, as they are read from its bytes. -/
def emittedEntries (p : Party) : List (List Entry) := p.emitted.map fun f => (Frame.read f.bytes).1

theorem emittedEntries_act (p : Party) (action : Action) :
    (p.act action).emittedEntries = p.emittedEntries ++ (p.finishes action).map Prod.fst := by
  have hsubmit : ∀ payload bitLength r channel result,
      (p.submit payload bitLength r channel result).emittedEntries = p.emittedEntries := by
    intro payload bitLength r channel result
    cases result <;> rfl
  cases action with
  | send =>
    rw [finishes, List.map_nil, List.append_nil]
    exact hsubmit ..
  | sendBits =>
    rw [finishes, List.map_nil, List.append_nil]
    exact hsubmit ..
  | update now =>
    rw [finishes, map_fst_withPending]
    exact List.map_append
  | receive =>
    obtain ⟨output, returned, hact⟩ := p.exists_receive
    rw [hact, finishes, List.map_nil, List.append_nil]
    rfl
  | handle | setResendDelay | kill | close => exact (List.append_nil _).symm

theorem emittedEntries_acts (p : Party) (actions : List Action) :
    (actions.foldl act p).emittedEntries = p.emittedEntries ++ (p.finished actions).map Prod.fst := by
  induction actions generalizing p with
  | nil => exact (List.append_nil _).symm
  | cons action actions ih =>
    rw [List.foldl_cons, ih, emittedEntries_act, finished, List.map_append, List.append_assoc]

theorem ackOnly_submit (p : Party) {payload : Bytes} {bitLength : Nat} {priority : Priority}
    {r : Reliability} {channel : Nat} {result : Except SendError Session}
    (hresult : ∀ s', result = .ok s' →
      p.session.sendBits payload bitLength priority r channel = .ok s') :
    (p.submit payload bitLength r channel result).session.counters.ackOnlyFramesSent =
      p.session.counters.ackOnlyFramesSent := by
  cases result with
  | error e => rfl
  | ok s' => exact congrArg Traffic.ackOnly (Session.traffic_sendBits (hresult s' rfl))

theorem Reachable.ackOnly_act (h : p.Reachable) (action : Action) :
    (p.act action).session.counters.ackOnlyFramesSent = p.session.counters.ackOnlyFramesSent +
      (p.finishes action).countP overflows + p.attempts action := by
  cases action with
  | send => exact p.ackOnly_submit fun s' => Session.send_ok
  | sendBits => exact p.ackOnly_submit fun s' => id
  | update now =>
    have hread : (p.session.transmit now).1.map (fun f => (Frame.read f.bytes).1) =
        ((p.session.transmit now).1.map (·.entries)).map (·.map Entry.decoded) := by
      rw [List.map_map]
      exact List.map_congr_left fun f hf =>
        (h.act (.update now)).read_emitted (List.mem_append_right _ hf)
    rw [finishes, hread, countP_overflows_decoded]
    exact p.session.ackOnly_transmit now
  | handle data now =>
    exact congrArg Traffic.ackOnly (p.session.handles_handleDatagram data now).traffic_eq
  | receive =>
    obtain ⟨output, returned, hact⟩ := p.exists_receive
    rw [hact]
    rfl
  | setResendDelay | kill | close => rfl

theorem Reachable.ackOnly_acts (h : p.Reachable) (actions : List Action) :
    (actions.foldl Party.act p).session.counters.ackOnlyFramesSent =
      p.session.counters.ackOnlyFramesSent + (p.finished actions).countP overflows +
        p.attempted actions := by
  induction actions generalizing p with
  | nil => rfl
  | cons action actions ih =>
    have hone := h.ackOnly_act action
    have hrest := ih (h.act action)
    rw [List.foldl_cons, hrest, hone, finished, attempted, List.countP_append]
    omega

/-- The counter of frames that carry nothing but acknowledgements lacks those that took the last pending
one, and has the attempts at a frame without room. All other frames of acknowledgements alone are counted,
each once, and nothing else is. -/
theorem ackOnly_accounted (config : Config) (start : Instant) (actions : List Action) :
    let p := actions.foldl act (new config start)
    let finished := (new config start).finished actions
    p.emittedEntries = finished.map Prod.fst ∧
      p.session.counters.ackOnlyFramesSent + finished.countP clears =
        p.emittedEntries.countP (·.all Entry.isAck) + (new config start).attempted actions := by
  intro p finished
  have hentries : p.emittedEntries = finished.map Prod.fst := emittedEntries_acts ..
  have hcount : p.session.counters.ackOnlyFramesSent = 0 + finished.countP overflows + _ :=
    (Reachable.new config start).ackOnly_acts actions
  have hsplit := countP_overflows_add finished
  refine ⟨hentries, ?_⟩
  rw [hentries, ← hsplit, hcount]
  omega

/-- Two acknowledgements go out in one frame each. The first one leaves the other behind. -/
example :
    let p := [.handle [0, 0, 39, 0, 7] 0, .handle [0, 1, 39, 0, 8] 0, .update 250000000].foldl act
      (new (Config.default.withMtu 32) 0)
    p.emittedEntries = [[.ack ⟨0⟩], [.ack ⟨1⟩]] ∧ p.session.counters.ackOnlyFramesSent = 1 := by
  decide +kernel

end Party
end ReliableDatagram
