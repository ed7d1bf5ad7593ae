import ReliableDatagram.Proofs.Session.Transmit
import ReliableDatagram.Proofs.Wire.Sizes

/-!
# Which packet goes first

Fresh packets are taken by priority, and a queue is left when the packet at its front does not fit the
rest of the frame. So a packet leaves its queue only at a moment when every more urgent queue is stuck.
Such `Orderly` steps make up the whole course of a transmission.
-/
namespace ReliableDatagram

/-- Is looked at earlier in every frame. -/
def Priority.MoreUrgent (r q : Priority) : Prop := r.rank < q.rank

instance decidableMoreUrgent (r q : Priority) : Decidable (r.MoreUrgent q) :=
  inferInstanceAs (Decidable (r.rank < q.rank))

/-- A packet that fits behind another entry fits without it. -/
theorem FrameBuilder.fits_of_push {f : FrameBuilder} {e : Entry} {x : Packet}
    (h : (f.push e).fits (.data x) = true) : f.fits (.data x) = true := by
  have hlength : f.bitLength ≤ (f.push e).bitLength := by
    simp only [bitLength, ← BitWriter.length_toBits, push, Entry.toBits_write, List.length_append]
    exact Nat.le_add_right ..
  have hroom : x.bitsAt (f.push e).bitLength ≤ f.capacity - (f.push e).bitLength := of_decide_eq_true h
  have hheader : 0 < x.headerBits := by
    simp only [Packet.headerBits, Packet.fixedHeaderBits, Limits.ackBits]
    omega
  have hfits : x.bitsAt f.bitLength ≤ f.capacity - f.bitLength := by
    simp only [Packet.bitsAt, bytesForBits] at hroom ⊢
    omega
  exact decide_eq_true hfits

namespace Filling

/-- The packets of one priority that wait to be sent. -/
def queue (d : Filling) (priority : Priority) : List Packet := (d.session.queues.get priority).toList

/-- The packet at the front of the queue, if there is one, does not fit what is left of the frame. -/
def Stuck (d : Filling) (priority : Priority) : Prop :=
  ∀ x ∈ (d.queue priority).head?, d.frame.fits (.data x) = false

variable {d d' : Filling} {now : Instant} {q r : Priority}

@[simp] theorem queue_withQueue (d : Filling) (priority other : Priority) (packets : List Packet) :
    (d.withQueue priority packets).queue other = if other = priority then packets else d.queue other := by
  rw [queue, queue, withQueue, PerPriority.get_set]
  split_ifs <;> rfl

@[simp] theorem queue_sendFirst (d : Filling) (now : Instant) (priority other : Priority) (p : Packet) :
    (d.sendFirst now priority p).queue other = d.queue other := by
  rw [queue, queues_sendFirst]
  rfl

/-- A step leaves a queue alone or puts the packet at its front into the frame. -/
theorem Step.queue_cases (h : Step now d d') (q : Priority) : d'.queue q = d.queue q ∨
    ∃ x, d.queue q = x :: d'.queue q ∧ d'.frame.entries.toList = d.frame.entries.toList ++ [.data x] := by
  cases h with
  | tidy hacks hqueues hresend => exact Or.inl (hqueues q)
  | ack => exact Or.inl rfl
  | ackOnly => exact Or.inl rfl
  | again => exact Or.inl rfl
  | @first priority p queue hqueue hopen hfits =>
    rw [queue_sendFirst, queue_withQueue]
    split_ifs with hq
    · exact Or.inr ⟨p, hq ▸ hqueue, Array.toList_push⟩
    · exact Or.inl rfl

theorem Step.queue_suffix (h : Step now d d') (q : Priority) : d'.queue q <:+ d.queue q := by
  rcases h.queue_cases q with hsame | ⟨x, hqueue, -⟩
  · rw [hsame]
  · rw [hqueue]
    exact List.suffix_cons ..

theorem Steps.queue_suffix (h : Steps now d d') (q : Priority) : d'.queue q <:+ d.queue q := by
  induction h with
  | refl => exact List.suffix_rfl
  | tail _ step ih => exact (step.queue_suffix q).trans ih

/-- A queue that is the same after several steps was the same all the time. -/
theorem Steps.queue_eq {d'' : Filling} (h : Steps now d d') (hlast : Step now d' d'')
    (hsame : d''.queue q = d.queue q) : d'.queue q = d.queue q := by
  have hlast := hlast.queue_suffix q
  rw [hsame] at hlast
  exact (h.queue_suffix q).eq_of_length_le hlast.length_le

theorem Step.stuck (h : Step now d d') (hsame : d'.queue r = d.queue r) (hstuck : d.Stuck r) :
    d'.Stuck r := by
  intro x hx
  rw [hsame] at hx
  rcases h.frame_cases (P := fun _ => True) with hframe | ⟨e, -, -, hframe⟩
  · rw [hframe]
    exact hstuck x hx
  · rw [hframe]
    by_contra hfits
    have hbefore := FrameBuilder.fits_of_push (Bool.not_eq_false _ ▸ hfits)
    rw [hstuck x hx] at hbefore
    cases hbefore

/-- A queue that is not taken from stays stuck. -/
theorem Steps.stuck (h : Steps now d d') (hsame : d'.queue r = d.queue r) (hstuck : d.Stuck r) :
    d'.Stuck r := by
  induction h with
  | refl => exact hstuck
  | tail hsteps step ih =>
    have hmiddle := Steps.queue_eq hsteps step hsame
    exact step.stuck (hsame.trans hmiddle.symm) (ih hmiddle)

/-- A step that takes from a queue only when all more urgent ones are stuck. -/
structure Orderly (now : Instant) (d d' : Filling) : Prop where
  step : Step now d d'
  yields : ∀ q, d'.queue q ≠ d.queue q → ∀ r : Priority, r.MoreUrgent q → d.Stuck r

abbrev Course (now : Instant) : Filling → Filling → Prop := Relation.ReflTransGen (Orderly now)

theorem Course.steps (h : Course now d d') : Steps now d d' := 
  Relation.ReflTransGen.mono (fun _ _ (horderly : Orderly now _ _) => horderly.step) _ _ h

/-- Where nothing is taken there is nothing to yield to. -/
theorem Step.orderly (h : Step now d d') (hsame : ∀ q, d'.queue q = d.queue q) : Orderly now d d' :=
  ⟨h, fun q hq => absurd (hsame q) hq⟩

/-- Several steps in which nothing is taken consist of such steps. -/
theorem Steps.quiet {R : Filling → Filling → Prop}
    (hR : ∀ d d', Step now d d' → (∀ q, d'.queue q = d.queue q) → R d d') (h : Steps now d d')
    (hsame : ∀ q, d'.queue q = d.queue q) : Relation.ReflTransGen R d d' := by
  induction h with
  | refl => exact .refl
  | tail hsteps step ih =>
    have hmiddle := fun q => Steps.queue_eq hsteps step (hsame q)
    exact (ih hmiddle).tail (hR _ _ step fun q => (hsame q).trans (hmiddle q).symm)

theorem Steps.course (h : Steps now d d') (hsame : ∀ q, d'.queue q = d.queue q) : Course now d d' :=
  Steps.quiet (fun _ _ step hsame => step.orderly hsame) h hsame

/-! ### Filling a frame -/

section

variable (now : Instant)

theorem course_takeAcks (d : Filling) : Course now d d.takeAcks :=
  (steps_takeAcks now d).course fun _ => rfl

theorem queues_resendWith (fuel : Nat) (d : Filling) :
    (resendWith now fuel d).2.session.queues = d.session.queues :=
  resendWith_keeps now (f := (·.session.queues)) (fun _ => rfl) (fun _ _ => rfl) fuel d

theorem queues_sendQueued (priority : Priority) (packets : List Packet) (d : Filling) :
    (sendQueued now priority packets d).2.1.session.queues = d.session.queues :=
  sendQueued_keeps now (f := (·.session.queues)) (fun d p => d.queues_sendFirst now priority p) packets d

/-- A queue that was not left because the window closed is empty or stuck. -/
theorem stuck_sendQueued (priority : Priority) (packets : List Packet) (d : Filling)
    (hopen : (sendQueued now priority packets d).1 = false) :
    ((sendQueued now priority packets d).2.1.withQueue priority
      (sendQueued now priority packets d).2.2).Stuck priority := by
  induction packets generalizing d with
  | nil => intro x hx; simp [sendQueued] at hx
  | cons p packets ih =>
    rw [sendQueued] at hopen ⊢
    split_ifs at hopen ⊢ with hthrottled hfits
    · exact ih _ hopen
    · intro x hx
      obtain rfl : p = x := by simpa using hx
      exact Bool.eq_false_iff.mpr hfits

theorem course_sendQueued (priority : Priority) (packets : List Packet) (d : Filling)
    (hstuck : ∀ r : Priority, r.MoreUrgent priority → d.Stuck r) :
    Course now (d.withQueue priority packets)
      ((sendQueued now priority packets d).2.1.withQueue priority
        (sendQueued now priority packets d).2.2) := by
  have hothers : ∀ d : Filling, (∀ r : Priority, r.MoreUrgent priority → d.Stuck r) →
      ∀ packets (r : Priority), r.MoreUrgent priority → (d.withQueue priority packets).Stuck r := by
    intro d hstuck packets r hr x hx
    have hne : r ≠ priority := fun heq => Nat.lt_irrefl _ (heq ▸ hr)
    rw [queue_withQueue, if_neg hne] at hx
    exact hstuck r hr x hx
  induction packets generalizing d with
  | nil => exact .refl
  | cons p packets ih =>
    rw [sendQueued]
    split_ifs with hthrottled hfits
    · exact .refl
    · have hopen : (d.withQueue priority (p :: packets)).session.isThrottled = false :=
        Bool.eq_false_iff.mpr hthrottled
      have hfront : (d.withQueue priority (p :: packets)).queue priority = p :: packets := by simp
      have hfirst : Step now (d.withQueue priority (p :: packets)) _ := .first hfront hopen hfits
      rw [withQueue_withQueue, sendFirst_withQueue] at hfirst
      have horderly : Orderly now (d.withQueue priority (p :: packets))
          ((d.sendFirst now priority p).withQueue priority packets) := by
        refine ⟨hfirst, fun q hq r hr => ?_⟩
        obtain rfl : q = priority := by
          by_contra hne
          exact hq (by simp [hne])
        exact hothers d hstuck (p :: packets) r hr
      refine .head horderly (ih _ fun r hr => ?_)
      have hne : r ≠ priority := fun heq => Nat.lt_irrefl _ (heq ▸ hr)
      have hlater := hfirst.stuck (r := r) (by simp [hne]) (hothers d hstuck (p :: packets) r hr)
      intro x hx
      exact hlater x (by simpa [hne] using hx)
    · exact .refl

theorem course_tidy (priority : Priority) (d : Filling) :
    Course now d (d.withQueue priority (d.session.queues.get priority).toList) := by
  have hsame : ∀ other, (d.withQueue priority (d.session.queues.get priority).toList).queue other =
      d.queue other := by
    intro other
    rw [queue_withQueue]
    split_ifs with h
    · rw [h, queue]
    · rfl
  exact .single (Step.orderly (.tidy rfl hsame (Or.inl rfl)) hsame)

/-- The queues are looked at by priority, so that those which have been left are stuck. -/
theorem course_sendFresh (priorities : List Priority) (d : Filling)
    (hsorted : priorities.Pairwise Priority.MoreUrgent) (hstuck : ∀ r, r ∉ priorities → d.Stuck r) :
    Course now d (sendFresh now priorities d) := by
  induction priorities generalizing d with
  | nil => exact .refl
  | cons priority others ih =>
    obtain ⟨hfirst, hsorted⟩ := List.pairwise_cons.mp hsorted
    have hbefore : ∀ r : Priority, r.MoreUrgent priority → d.Stuck r := by
      intro r hr
      refine hstuck r fun hmem => ?_
      rcases List.mem_cons.mp hmem with rfl | hmem
      · exact Nat.lt_irrefl _ hr
      · exact Nat.lt_asymm hr (hfirst r hmem)
    have hcourse := course_sendQueued now priority (d.session.queues.get priority).toList d hbefore
    have hleft := stuck_sendQueued now priority (d.session.queues.get priority).toList d
    have hqueues := queues_sendQueued now priority (d.session.queues.get priority).toList d
    rw [sendFresh]
    generalize sendQueued now priority (d.session.queues.get priority).toList d = answer at hcourse hleft hqueues ⊢
    obtain ⟨closed, d', packets⟩ := answer
    dsimp only at hcourse hleft hqueues ⊢
    have hcourse := (course_tidy now priority d).trans hcourse
    cases closed with
    | true => exact hcourse
    | false =>
      refine hcourse.trans (ih _ hsorted fun r hr => ?_)
      by_cases hne : r = priority
      · exact hne ▸ hleft rfl
      · have hold : d.Stuck r := hstuck r (by simp [hne, hr])
        refine Steps.stuck (Course.steps hcourse) ?_ hold
        rw [queue_withQueue, if_neg hne, queue, queue, hqueues]

theorem sorted_all : Priority.all.Pairwise Priority.MoreUrgent := by
  simp [Priority.all, Priority.MoreUrgent, Priority.rank]

theorem queue_resendOverdue (d : Filling) (q : Priority) : (d.resendOverdue now).2.queue q = d.queue q := by
  rw [queue, resendOverdue, queues_resendWith]
  rfl

theorem course_fill (d : Filling) : Course now d (d.fill now) := by
  have hall : ∀ r : Priority, r ∈ Priority.all := by
    intro r
    cases r <;> decide
  apply chain_fill now (course_takeAcks now)
  · exact fun d hacks => Step.orderly (.ackOnly hacks) fun _ => rfl
  · exact fun d => (steps_resendWith now _ d).course (d.queue_resendOverdue now)
  · exact fun d _ => course_sendFresh now Priority.all _ sorted_all fun r hr => absurd (hall r) hr

end

end Filling

namespace Transmission

variable {t t' : Transmission} {now : Instant} {q : Priority} {x : Packet} {before later : List Packet}

/-- A step of a transmission that takes from a queue only when all more urgent ones are stuck. -/
structure Orderly (now : Instant) (t t' : Transmission) : Prop where
  step : Step now t t'
  yields : ∀ q, t'.filling.queue q ≠ t.filling.queue q →
    ∀ r : Priority, r.MoreUrgent q → t.filling.Stuck r

abbrev Course (now : Instant) : Transmission → Transmission → Prop := Relation.ReflTransGen (Orderly now)

theorem Course.of_filling {d : Filling} (h : Filling.Course now t.filling d) :
    Course now t { t with filling := d } := by
  induction h with
  | refl => exact .refl
  | tail _ horderly ih => exact ih.tail ⟨.fill horderly.step, horderly.yields⟩

theorem Step.queue_cases (h : Step now t t') (q : Priority) :
    t'.filling.queue q = t.filling.queue q ∨
      ∃ x, t.filling.queue q = x :: t'.filling.queue q ∧ t'.entries = t.entries ++ [.data x] := by
  cases h with
  | close => exact Or.inl rfl
  | fill hfill =>
    rcases hfill.queue_cases q with hsame | ⟨x, hqueue, hentries⟩
    · exact Or.inl hsame
    · exact Or.inr ⟨x, hqueue, entries_fill hentries⟩

theorem Course.queue_suffix (h : Course now t t') (q : Priority) :
    t'.filling.queue q <:+ t.filling.queue q := by
  induction h with
  | refl => exact List.suffix_rfl
  | tail _ horderly ih =>
    rcases horderly.step.queue_cases q with hsame | ⟨x, hqueue, -⟩
    · rwa [hsame]
    · rw [hqueue] at ih
      exact (List.suffix_cons ..).trans ih

/-- A packet that has left its queue in the end left it in one step, from the front. -/
theorem Course.exists_taken (h : Course now t t') (hqueue : t.filling.queue q = before ++ x :: later)
    (hleft : t'.filling.queue q <:+ later) : ∃ t₁ t₂, Course now t t₁ ∧ Orderly now t₁ t₂ ∧
      Course now t₂ t' ∧ t₁.filling.queue q = x :: later ∧ t₂.filling.queue q = later ∧
      t₂.entries = t₁.entries ++ [.data x] := by
  induction h using Relation.ReflTransGen.head_induction_on generalizing before with
  | refl =>
    rw [hqueue] at hleft
    have hlength := hleft.length_le
    simp only [List.length_append, List.length_cons] at hlength
    omega
  | @head t₁ t₂ horderly hrest ih =>
    rcases horderly.step.queue_cases q with hsame | ⟨y, hfront, hentries⟩
    · obtain ⟨t₃, t₄, hcourse, hlast⟩ := ih (hsame.trans hqueue)
      exact ⟨t₃, t₄, .head horderly hcourse, hlast⟩
    · cases before with
      | nil =>
        obtain ⟨rfl, hlater⟩ : y = x ∧ t₂.filling.queue q = later := by
          simpa using hfront.symm.trans hqueue
        exact ⟨t₁, t₂, .refl, horderly, hrest, hqueue, hlater, hentries⟩
      | cons b before =>
        have hnext : t₂.filling.queue q = before ++ x :: later := by
          have heq := hfront.symm.trans hqueue
          rw [List.cons_append] at heq
          exact (List.cons.inj heq).2
        obtain ⟨t₃, t₄, hcourse, hlast⟩ := ih hnext
        exact ⟨t₃, t₄, .head horderly hcourse, hlast⟩

end Transmission

namespace Session

variable {s : Session} {now : Instant}

theorem queues_isFrameReady (s : Session) (now : Instant) :
    (s.isFrameReady now).2.queues = s.queues := by
  rw [isFrameReady]
  split_ifs <;> rfl

/-- A relation that leads through the preparation, the filling and the close of every frame leads through
the transmission of a session that stays alive. -/
theorem chain_transmit {R : Transmission → Transmission → Prop}
    (hready : ∀ t : Transmission, Relation.ReflTransGen R t { t with filling :=
      { t.filling with session := (t.filling.session.isFrameReady now).2 } })
    (hfill : ∀ t : Transmission, Relation.ReflTransGen R t { t with filling := t.filling.fill now })
    (hclose : ∀ t : Transmission, t.filling.frame.isEmpty = false → R t t.close)
    (halive : (s.transmit now).2.isDead = false) :
    ∃ d : Filling, d.session = (s.transmit now).2 ∧
      Relation.ReflTransGen R (.start s false) { frames := (s.transmit now).1, filling := d } := by
  rw [transmit] at halive ⊢
  split_ifs at halive ⊢ with hdead htime
  · rw [hdead] at halive
    cases halive
  · cases halive
  · obtain ⟨d, -, hsession, hchain⟩ :=
      chain_buildFrames now hready hfill hclose (s.unsent + 1) false s []
    exact ⟨d, hsession, hchain⟩

/-- A session that is alive after a transmission has gone through orderly steps. -/
theorem course_transmit (halive : (s.transmit now).2.isDead = false) :
    ∃ d : Filling, d.session = (s.transmit now).2 ∧
      Transmission.Course now (.start s false) { frames := (s.transmit now).1, filling := d } := by
  refine chain_transmit (fun t => ?_) ?_ ?_ halive
  · refine Transmission.Course.of_filling ((steps_isFrameReady now t.filling).course fun q => ?_)
    rw [Filling.queue, queues_isFrameReady]
    rfl
  · exact fun t => Transmission.Course.of_filling (Filling.course_fill now t.filling)
  · exact fun t hfull => ⟨.close hfull, fun q hq => absurd rfl hq⟩

end Session
end ReliableDatagram
