import Mathlib.Data.List.DropRight
import Mathlib.Logic.Relation
import ReliableDatagram.Proofs.Sending.InFlight
import ReliableDatagram.Session.Transmit

/-!
# Transmissions, step by step

Whatever a session transmits, it moves one entry at a time into the frame that is being filled, and
closes a frame that is not empty. `Transmission.Step` lists what can happen, with the conditions under
which it happens, and `Session.transmit_cases` says that nothing else does. So what every step keeps,
a transmission keeps.
-/
namespace ReliableDatagram

theorem PerPriority.set_set {α : Type} (t : PerPriority α) (p : Priority) (a b : α) :
    (t.set p a).set p b = t.set p b := by
  cases p <;> rfl

theorem PerPriority.total_set {α : Type} (t : PerPriority α) (p : Priority) (a : α) (f : α → Nat) :
    total f (t.set p a).toList + f (t.get p) = total f t.toList + f a := by
  cases p <;> simp only [set, get, toList, total_cons, total_nil] <;> omega

theorem PerPriority.total_congr {α : Type} {t t' : PerPriority α} {f : α → Nat}
    (h : ∀ p, f (t.get p) = f (t'.get p)) : total f t.toList = total f t'.toList := by
  have hsystem := h .system
  have hhigh := h .high
  have hmedium := h .medium
  have hlow := h .low
  simp only [get] at hsystem hhigh hmedium hlow
  simp only [toList, total_cons, hsystem, hhigh, hmedium, hlow]

namespace ResendQueue

theorem skipStale_skipStale (q : ResendQueue) : q.skipStale.skipStale = q.skipStale := by
  have horder : q.skipStale.order.dropWhile (!q.contains ·) = q.skipStale.order :=
    List.dropWhile_idempotent ..
  rw [skipStale]
  exact congrArg (fun order => { q with order }) horder

theorem peekDue_skipStale (q : ResendQueue) (now : Instant) :
    q.skipStale.peekDue now = q.peekDue now := by
  rw [peekDue, skipStale_skipStale]
  rfl

end ResendQueue

namespace Session

/-- Packets that wait to be sent for the first time. -/
def backlog (s : Session) : Nat := total Fifo.length s.queues.toList

theorem backlog_congr {s s' : Session}
    (hqueues : ∀ p, (s'.queues.get p).toList = (s.queues.get p).toList) : s'.backlog = s.backlog :=
  PerPriority.total_congr fun p => by simp [← Fifo.length_toList, hqueues]

theorem lt_add_resendDelay (s : Session) (now : Instant) : now < now + s.config.resendDelay :=
  Nat.lt_add_of_pos_right (Nat.lt_of_lt_of_le (by decide) s.config.resendDelay_ge)

end Session

namespace Filling

/-- The packets of one queue are replaced. -/
def withQueue (d : Filling) (priority : Priority) (queue : List Packet) : Filling :=
  { d with
    session := { d.session with queues := d.session.queues.set priority (.ofList queue) } }

/-- The numbers in front are skipped that are not in flight any more. -/
def skipStale (d : Filling) : Filling :=
  { d with session := { d.session with resend := d.session.resend.skipStale } }

theorem peekDue_skipStale (d : Filling) (now : Instant) :
    (d.skipStale.session.resend.peekDue now).1 = (d.session.resend.peekDue now).1 :=
  congrArg Prod.fst (d.session.resend.peekDue_skipStale now)

section sendFirst

variable (d : Filling) (now : Instant) (priority : Priority) (p : Packet)

@[simp] theorem resend_sendFirst : (d.sendFirst now priority p).session.resend =
    if p.reliability.isReliable then d.session.resend.push p (now + d.session.config.resendDelay)
    else d.session.resend := by
  rw [sendFirst]
  split_ifs <;> rfl

@[simp] theorem queues_sendFirst :
    (d.sendFirst now priority p).session.queues = d.session.queues := by
  rw [sendFirst]
  split_ifs <;> rfl

@[simp] theorem acks_sendFirst : (d.sendFirst now priority p).session.acks = d.session.acks := by
  rw [sendFirst]
  split_ifs <;> rfl

@[simp] theorem window_sendFirst :
    (d.sendFirst now priority p).session.window = d.session.window := by
  rw [sendFirst]
  split_ifs <;> rfl

end sendFirst

theorem backlog_sendFirst {d : Filling} {priority : Priority} {p : Packet} {queue : List Packet}
    (hqueue : (d.session.queues.get priority).toList = p :: queue) (now : Instant) :
    ((d.withQueue priority queue).sendFirst now priority p).session.backlog + 1 = d.session.backlog := by
  have hleft := d.session.queues.total_set priority (.ofList queue) Fifo.length
  have hlength : (d.session.queues.get priority).length = (Fifo.ofList queue).length + 1 := by
    simp [← Fifo.length_toList, hqueue]
  rw [Session.backlog, queues_sendFirst, Session.backlog]
  simp only [withQueue]
  omega

/-- What can happen to a frame that is being filled, and to the session. -/
inductive Step (now : Instant) (d : Filling) : Filling → Prop
  /-- The contents of the queues stay, in another form. -/
  | tidy {acks : Fifo PendingAck} {queues : PerPriority (Fifo Packet)} {resend : ResendQueue}
      (hacks : acks.toList = d.session.acks.toList)
      (hqueues : ∀ priority, (queues.get priority).toList = (d.session.queues.get priority).toList)
      (hresend : resend = d.session.resend ∨ resend = d.session.resend.skipStale) :
      Step now d { d with session := { d.session with acks, queues, resend } }
  | ack {a : PendingAck} {acks : List PendingAck} (hacks : d.session.acks.toList = a :: acks)
      (hfits : d.frame.fits (.ack a.sequence) = true) :
      Step now d
        { d with
          frame := d.frame.push (.ack a.sequence)
          session := ({ d.session with acks := .ofList acks } : Session).count fun c =>
            { c with acksSent := c.acksSent + 1 } }
  /-- The acknowledgements at hand have filled up the frame. -/
  | ackOnly (hacks : d.session.acks.isEmpty = false) :
      Step now d
        { d with session := d.session.count fun c =>
            { c with ackOnlyFramesSent := c.ackOnlyFramesSent + 1 } }
  | again {p : Packet} (hdue : (d.session.resend.peekDue now).1 = some p)
      (hfits : d.frame.fits (.data p) = true) : Step now d (d.sendAgain now p)
  | first {priority : Priority} {p : Packet} {queue : List Packet}
      (hqueue : (d.session.queues.get priority).toList = p :: queue)
      (hopen : d.session.isThrottled = false) (hfits : d.frame.fits (.data p) = true) :
      Step now d ((d.withQueue priority queue).sendFirst now priority p)

abbrev Steps (now : Instant) : Filling → Filling → Prop := Relation.ReflTransGen (Step now)

variable {d : Filling} (now : Instant)

theorem length_pushAcks_le (f : FrameBuilder) (acks : List PendingAck) :
    (pushAcks f acks).2.length ≤ acks.length := by
  induction acks generalizing f with
  | nil => simp [pushAcks]
  | cons a acks ih =>
    rw [pushAcks]
    split_ifs
    · exact Nat.le_succ_of_le (ih _)
    · exact Nat.le_refl _

theorem takeAcks_of_fits {a : PendingAck} {acks : List PendingAck}
    (hacks : d.session.acks.toList = a :: acks) (hfits : d.frame.fits (.ack a.sequence) = true) :
    d.takeAcks = takeAcks
      { d with
        frame := d.frame.push (.ack a.sequence)
        session := ({ d.session with acks := .ofList acks } : Session).count fun c =>
          { c with acksSent := c.acksSent + 1 } } := by
  have hlength : d.session.acks.length = acks.length + 1 := by
    rw [← Fifo.length_toList, hacks, List.length_cons]
  have hlength' : (Fifo.ofList acks).length = acks.length := by
    rw [← Fifo.length_toList, Fifo.toList_ofList]
  have hle := length_pushAcks_le (d.frame.push (.ack a.sequence)) acks
  have hpush : pushAcks d.frame d.session.acks.toList =
      pushAcks (d.frame.push (.ack a.sequence)) acks := by
    rw [hacks, pushAcks, if_pos hfits]
  have hsent : ∀ n, n + (d.session.acks.length -
      (pushAcks (d.frame.push (.ack a.sequence)) acks).2.length) = n + 1 + ((Fifo.ofList acks).length -
        (pushAcks (d.frame.push (.ack a.sequence)) acks).2.length) := by
    omega
  simp only [takeAcks, hpush, Session.count, Fifo.toList_ofList, hsent]

theorem steps_takeAcks (d : Filling) : Steps now d d.takeAcks := by
  generalize hl : d.session.acks.toList = l
  induction l generalizing d with
  | nil =>
    have hlength : d.session.acks.length = 0 := by rw [← Fifo.length_toList, hl, List.length_nil]
    have htake : d.takeAcks = { d with session := { d.session with acks := .ofList [] } } := by
      simp [takeAcks, hl, pushAcks, hlength, Session.count]
    rw [htake]
    exact .single (.tidy hl.symm (fun _ => rfl) (Or.inl rfl))
  | cons a l ih =>
    by_cases hfits : d.frame.fits (.ack a.sequence) = true
    · rw [takeAcks_of_fits hl hfits]
      exact .head (.ack hl hfits) (ih _ rfl)
    · have hlength : d.session.acks.length = (a :: l).length := by rw [← Fifo.length_toList, hl]
      have htake : d.takeAcks = { d with session := { d.session with acks := .ofList (a :: l) } } := by
        simp [takeAcks, hl, pushAcks, hfits, hlength, Session.count]
      rw [htake]
      exact .single (.tidy hl.symm (fun _ => rfl) (Or.inl rfl))

theorem resendWith_succ (n : Nat) (d : Filling) : resendWith now (n + 1) d =
    match (d.session.resend.peekDue now).1 with
    | none => (false, d.skipStale)
    | some p =>
      if d.frame.fits (.data p) then resendWith now n (d.skipStale.sendAgain now p)
      else (true, d.skipStale) := by
  have hskip := d.session.resend.peekDue_snd now
  rw [resendWith, skipStale]
  generalize d.session.resend.peekDue now = answer at hskip ⊢
  obtain ⟨overdue, resend⟩ := answer
  obtain rfl : resend = d.session.resend.skipStale := hskip
  cases overdue <;> rfl

/-- What neither a stale number nor a packet that is sent again touches, repetition does not touch. -/
theorem resendWith_keeps {α : Type} {f : Filling → α} (hskip : ∀ d, f d.skipStale = f d)
    (hagain : ∀ d p, f (d.sendAgain now p) = f d) (fuel : Nat) (d : Filling) :
    f (resendWith now fuel d).2 = f d := by
  induction fuel generalizing d with
  | zero => rfl
  | succ n ih =>
    rw [resendWith_succ]
    cases (d.session.resend.peekDue now).1 with
    | none => exact hskip d
    | some p =>
      dsimp only
      split_ifs
      · rw [ih, hagain, hskip]
      · exact hskip d

theorem steps_resendWith (fuel : Nat) (d : Filling) : Steps now d (resendWith now fuel d).2 := by
  induction fuel generalizing d with
  | zero => exact .refl
  | succ n ih =>
    have hskip : Step now d d.skipStale := .tidy rfl (fun _ => rfl) (Or.inr rfl)
    rw [resendWith_succ]
    cases hdue : (d.session.resend.peekDue now).1 with
    | none => exact .single hskip
    | some p =>
      dsimp only
      split_ifs with hfits
      · have hagain : Step now d.skipStale (d.skipStale.sendAgain now p) :=
          .again (d.peekDue_skipStale now ▸ hdue) hfits
        exact .head hskip (.head hagain (ih _))
      · exact .single hskip

/-- What is sent again is not overdue any more. -/
theorem dueCount_sendAgain_lt {p : Packet} (hdue : (d.session.resend.peekDue now).1 = some p) :
    (d.skipStale.sendAgain now p).session.resend.dueCount now < d.session.resend.dueCount now :=
  ResendQueue.dueCount_again_lt (d.peekDue_skipStale now ▸ hdue) (d.session.lt_add_resendDelay now)

theorem sendFirst_withQueue (d : Filling) (priority other : Priority) (queue : List Packet)
    (p : Packet) : (d.withQueue other queue).sendFirst now priority p =
      (d.sendFirst now priority p).withQueue other queue := by
  rw [sendFirst, sendFirst, withQueue, withQueue]
  split_ifs <;> rfl

theorem withQueue_withQueue (d : Filling) (priority : Priority) (queue queue' : List Packet) :
    (d.withQueue priority queue).withQueue priority queue' = d.withQueue priority queue' := by
  simp only [withQueue, PerPriority.set_set]

theorem steps_sendQueued (priority : Priority) (queue : List Packet) (d : Filling) :
    Steps now (d.withQueue priority queue)
      ((sendQueued now priority queue d).2.1.withQueue priority
        (sendQueued now priority queue d).2.2) := by
  induction queue generalizing d with
  | nil => exact .refl
  | cons p queue ih =>
    rw [sendQueued]
    split_ifs with hthrottled hfits
    · exact .refl
    · have hqueue : ((d.withQueue priority (p :: queue)).session.queues.get priority).toList =
          p :: queue := by
        simp [withQueue]
      have hopen : (d.withQueue priority (p :: queue)).session.isThrottled = false :=
        Bool.eq_false_iff.mpr hthrottled
      have hfirst : Step now (d.withQueue priority (p :: queue)) _ := .first hqueue hopen hfits
      rw [withQueue_withQueue, sendFirst_withQueue] at hfirst
      exact .head hfirst (ih _)
    · exact .refl

/-- What no packet touches that is sent for the first time, none of a queue touches. -/
theorem sendQueued_keeps {α : Type} {f : Filling → α} {priority : Priority}
    (hfirst : ∀ d p, f (d.sendFirst now priority p) = f d) (packets : List Packet) (d : Filling) :
    f (sendQueued now priority packets d).2.1 = f d := by
  induction packets generalizing d with
  | nil => rfl
  | cons p packets ih =>
    rw [sendQueued]
    split_ifs
    · rfl
    · rw [ih, hfirst]
    · rfl

theorem sendFresh_keeps {α : Type} {f : Filling → α}
    (hqueue : ∀ d priority packets, f (d.withQueue priority packets) = f d)
    (hfirst : ∀ d priority p, f (d.sendFirst now priority p) = f d) (priorities : List Priority)
    (d : Filling) : f (sendFresh now priorities d) = f d := by
  induction priorities generalizing d with
  | nil => rfl
  | cons priority others ih =>
    have hqueued := sendQueued_keeps now (hfirst · priority)
      (d.session.queues.get priority).toList d
    rw [sendFresh]
    generalize sendQueued now priority (d.session.queues.get priority).toList d = answer at hqueued ⊢
    obtain ⟨closed, d', packets⟩ := answer
    have hleft := (hqueue d' priority packets).trans hqueued
    dsimp only
    split_ifs
    · exact hleft
    · exact (ih _).trans hleft

theorem steps_sendFresh (priorities : List Priority) (d : Filling) :
    Steps now d (sendFresh now priorities d) := by
  induction priorities generalizing d with
  | nil => exact .refl
  | cons priority others ih =>
    have htidy : Step now d (d.withQueue priority (d.session.queues.get priority).toList) := by
      refine .tidy rfl (fun other => ?_) (Or.inl rfl)
      rw [PerPriority.get_set]
      split_ifs with h
      · rw [h, Fifo.toList_ofList]
      · rfl
    have hqueued := steps_sendQueued now priority (d.session.queues.get priority).toList d
    rw [sendFresh]
    generalize sendQueued now priority (d.session.queues.get priority).toList d = answer at hqueued ⊢
    obtain ⟨closed, d', queue⟩ := answer
    dsimp only
    split_ifs
    · exact .head htidy hqueued
    · exact (Relation.ReflTransGen.head htidy hqueued).trans (ih _)

section chain

variable {R : Filling → Filling → Prop} (hacks : ∀ d : Filling, Relation.ReflTransGen R d d.takeAcks)
  (hfull : ∀ d : Filling, d.session.acks.isEmpty = false → R d
    { d with session := d.session.count fun c => { c with ackOnlyFramesSent := c.ackOnlyFramesSent + 1 } })
  (hresend : ∀ d : Filling, Relation.ReflTransGen R d (d.resendOverdue now).2)
  (hfresh : ∀ d : Filling, (d.resendOverdue now).1 = false →
    Relation.ReflTransGen R (d.resendOverdue now).2 (sendFresh now Priority.all (d.resendOverdue now).2))
  (d : Filling)

include hacks hfull hresend hfresh

/-- A relation that leads through the parts of a frame leads from the acknowledgements that are due to its
end. Fresh packets have their turn only if there was room for the overdue ones. -/
theorem chain_fill_of_acks : Relation.ReflTransGen R
    (if d.session.acksDue now = true then d.takeAcks else d) (d.fill now) := by
  rw [fill]
  dsimp only
  generalize (if d.session.acksDue now = true then d.takeAcks else d) = d'
  split_ifs with hleft
  · simp only [Bool.and_eq_true, Bool.not_eq_true'] at hleft
    exact .single (hfull d' hleft.2)
  · have hresend := hresend d'
    have hfresh := hfresh d'
    generalize d'.resendOverdue now = answer at hresend hfresh ⊢
    obtain ⟨_ | _, d''⟩ := answer
    · dsimp only
      split_ifs
      · exact hresend.trans (hfresh rfl)
      · exact (hresend.trans (hfresh rfl)).trans (hacks _)
    · exact hresend

theorem chain_fill : Relation.ReflTransGen R d (d.fill now) := by
  have hrest := chain_fill_of_acks now hacks hfull hresend hfresh d
  split_ifs at hrest
  · exact (hacks d).trans hrest
  · exact hrest

end chain

/-- What happens behind the acknowledgements that are due. -/
theorem steps_fill_of_acks (d : Filling) :
    Steps now (if d.session.acksDue now = true then d.takeAcks else d) (d.fill now) :=
  chain_fill_of_acks now (steps_takeAcks now) (fun _ => .ackOnly) (fun _ => steps_resendWith now _ _)
    (fun _ _ => steps_sendFresh now _ _) d

theorem steps_fill (d : Filling) : Steps now d (d.fill now) :=
  chain_fill now (steps_takeAcks now) (fun _ => .ackOnly) (fun _ => steps_resendWith now _ _)
    (fun _ _ => steps_sendFresh now _ _) d

end Filling

/-- Frames that are finished, and the one that is being filled. -/
structure Transmission where
  frames : List Frame
  filling : Filling

namespace Transmission

def start (s : Session) (lost : Bool) : Transmission :=
  { frames := [], filling := { session := s, frame := .ofMaxBytes s.config.frameBudget, lost } }

/-- A frame is finished and the next one begins. -/
def close (t : Transmission) : Transmission :=
  let frame := t.filling.frame.finish
  { frames := t.frames ++ [frame]
    filling :=
      { session := t.filling.session.count fun c =>
          { c with
            framesSent := c.framesSent + 1
            bitsSent := c.bitsSent + frame.bytes.length * 8 }
        frame := .ofMaxBytes t.filling.session.config.frameBudget
        lost := t.filling.lost } }

inductive Step (now : Instant) (t : Transmission) : Transmission → Prop
  | fill {d : Filling} (h : Filling.Step now t.filling d) : Step now t { t with filling := d }
  | close (h : t.filling.frame.isEmpty = false) : Step now t t.close

abbrev Steps (now : Instant) : Transmission → Transmission → Prop := Relation.ReflTransGen (Step now)

variable {now : Instant} {t t' : Transmission}

/-- What every step keeps is kept. -/
theorem Steps.keep {P : Transmission → Prop} (hstep : ∀ t t', Step now t t' → P t → P t')
    (h : Steps now t t') (ht : P t) : P t' := by
  induction h with
  | refl => exact ht
  | tail _ step ih => exact hstep _ _ step ih

/-- All entries so far, those of the unfinished frame included. -/
def entries (t : Transmission) : List Entry :=
  t.frames.flatMap (·.entries) ++ t.filling.frame.entries.toList

@[simp] theorem entries_start (s : Session) (lost : Bool) : (start s lost).entries = [] := rfl

@[simp] theorem entries_close (t : Transmission) : t.close.entries = t.entries := by
  simp [entries, close, FrameBuilder.finish, FrameBuilder.ofMaxBytes]

theorem entries_fill {d : Filling} {l : List Entry}
    (h : d.frame.entries.toList = t.filling.frame.entries.toList ++ l) :
    ({ t with filling := d } : Transmission).entries = t.entries ++ l := by
  rw [entries, entries, h, List.append_assoc]

theorem Steps.of_filling {d : Filling} (h : Filling.Steps now t.filling d) :
    Steps now t { t with filling := d } := by
  induction h with
  | refl => exact .refl
  | tail _ step ih => exact ih.tail (.fill step)

end Transmission

namespace Session

variable {s : Session} (now : Instant)

theorem steps_isFrameReady (d : Filling) :
    Filling.Steps now d { d with session := (d.session.isFrameReady now).2 } := by
  rw [isFrameReady]
  split_ifs
  · exact .refl
  · exact .single (.tidy rfl (fun _ => rfl) (Or.inr (d.session.resend.peekDue_snd now)))

theorem config_isFrameReady (s : Session) : (s.isFrameReady now).2.config = s.config := by
  rw [isFrameReady]
  split_ifs <;> rfl

/-- A relation that leads through the preparation, the filling and the close of every frame leads through
them all. The last frame stays empty. -/
theorem chain_buildFrames {R : Transmission → Transmission → Prop}
    (hready : ∀ t : Transmission, Relation.ReflTransGen R t { t with filling :=
      { t.filling with session := (t.filling.session.isFrameReady now).2 } })
    (hfill : ∀ t : Transmission, Relation.ReflTransGen R t { t with filling := t.filling.fill now })
    (hclose : ∀ t : Transmission, t.filling.frame.isEmpty = false → R t t.close)
    (fuel : Nat) (lost : Bool) (s : Session) (frames : List Frame) :
    ∃ d : Filling, d.frame.isEmpty = true ∧ d.session = (buildFrames now fuel lost s).2 ∧
      Relation.ReflTransGen R { Transmission.start s lost with frames }
        { frames := frames ++ (buildFrames now fuel lost s).1, filling := d } := by
  induction fuel generalizing s lost frames with
  | zero =>
    refine ⟨(Transmission.start s lost).filling, rfl, rfl, ?_⟩
    rw [buildFrames, List.append_nil]
  | succ n ih =>
    have hready := hready { Transmission.start s lost with frames }
    have hconfig := s.config_isFrameReady now
    rw [buildFrames]
    simp only [Transmission.start] at hready
    generalize s.isFrameReady now = answer at hready hconfig ⊢
    obtain ⟨_ | _, s'⟩ := answer
    · exact ⟨_, rfl, rfl, by simpa [Transmission.start] using hready⟩
    · dsimp only at hready hconfig ⊢
      rw [← hconfig] at hready
      have hfill := hready.trans (hfill _)
      dsimp only at hfill
      generalize Filling.fill now
        { session := s', frame := .ofMaxBytes s'.config.frameBudget, lost } = d at hfill ⊢
      split_ifs with hempty
      · exact ⟨d, hempty, rfl, by simpa [Transmission.start] using hconfig ▸ hfill⟩
      · obtain ⟨d', hempty', hsession, hrest⟩ := ih d.lost (d.session.count fun c =>
          { c with
            framesSent := c.framesSent + 1
            bitsSent := c.bitsSent + d.frame.finish.bytes.length * 8 }) (frames ++ [d.frame.finish])
        refine ⟨d', hempty', hsession, ?_⟩
        have hall := (hfill.tail (hclose _ (by simpa using hempty))).trans hrest
        rw [List.append_assoc] at hall
        rw [hconfig] at hall
        exact hall

theorem steps_buildFrames (fuel : Nat) (lost : Bool) (s : Session) (frames : List Frame) :
    ∃ d : Filling, d.frame.isEmpty = true ∧ d.session = (buildFrames now fuel lost s).2 ∧
      Transmission.Steps now { Transmission.start s lost with frames }
        { frames := frames ++ (buildFrames now fuel lost s).1, filling := d } :=
  chain_buildFrames now (fun t => Transmission.Steps.of_filling (steps_isFrameReady now t.filling))
    (fun t => Transmission.Steps.of_filling (Filling.steps_fill now t.filling)) (fun _ => .close)
    fuel lost s frames

/-- A dead session transmits nothing, a session whose time is over dies, and any other one goes through
steps until there is no more frame to fill. -/
theorem transmit_cases (s : Session) (now : Instant) :
    (s.isDead = true ∧ s.transmit now = ([], s)) ∨
      (s.isDead = false ∧ s.hasTimedOut now = true ∧ s.transmit now = ([], s.die .timedOut)) ∨
      (s.isDead = false ∧ s.hasTimedOut now = false ∧ ∃ d : Filling, d.frame.isEmpty = true ∧
        d.session = (s.transmit now).2 ∧
        Transmission.Steps now (.start s false) { frames := (s.transmit now).1, filling := d }) := by
  rw [transmit]
  split_ifs with hdead htime
  · exact Or.inl ⟨hdead, rfl⟩
  · exact Or.inr (Or.inl ⟨by simpa using hdead, htime, rfl⟩)
  · exact Or.inr (Or.inr ⟨by simpa using hdead, by simpa using htime,
      steps_buildFrames now (s.unsent + 1) false s []⟩)

/-- The entries of all frames that are transmitted, in their order. -/
def transmitted (s : Session) (now : Instant) : List Entry := (s.transmit now).1.flatMap (·.entries)

/-- What every step keeps holds in the end of all that was transmitted. -/
theorem transmitted_cases (s : Session) (now : Instant) :
    (s.transmitted now = [] ∧
        (s.isDead = true ∧ (s.transmit now).2 = s ∨ (s.transmit now).2 = s.die .timedOut)) ∨
      (s.isDead = false ∧ ∃ t : Transmission, t.entries = s.transmitted now ∧
        t.filling.session = (s.transmit now).2 ∧ Transmission.Steps now (.start s false) t) := by
  rcases s.transmit_cases now with ⟨hdead, heq⟩ | ⟨-, -, heq⟩ | ⟨halive, -, d, hempty, hd, hsteps⟩
  · exact Or.inl ⟨by rw [transmitted, heq]; rfl, Or.inl ⟨hdead, by rw [heq]⟩⟩
  · exact Or.inl ⟨by rw [transmitted, heq]; rfl, Or.inr (by rw [heq])⟩
  · refine Or.inr ⟨halive, _, ?_, hd, hsteps⟩
    have hnil : d.frame.entries.toList = [] := d.frame.isEmpty_iff.mp hempty
    rw [Transmission.entries, hnil, List.append_nil, transmitted]

end Session
end ReliableDatagram
