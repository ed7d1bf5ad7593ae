import ReliableDatagram.Proofs.Party.Legality

/-!
# Transmissions end, and leave nothing behind

The `work` of a session counts what it could put into frames at a time. Every entry that goes into a
frame takes from it, since a packet that is sent again is due later only, so that the loops of a
transmission end before their bounds are reached. They do not end too early either: what is left in
the end is neither due nor, while the window is open, waiting to be sent.
-/
namespace ReliableDatagram

namespace Session

/-- What could go into frames now: acknowledgements, overdue packets and queued ones. -/
def work (s : Session) (now : Instant) : Nat :=
  s.acks.length + s.resend.dueCount now + total Fifo.length s.queues.toList

theorem work_le_unsent (s : Session) (now : Instant) : s.work now ≤ s.unsent := by
  have := s.resend.dueCount_le_length now
  simp only [work, unsent]
  omega

end Session

theorem FrameBuilder.not_isEmpty_push (f : FrameBuilder) (e : Entry) : ¬(f.push e).isEmpty = true := by
  simp [isEmpty, push]

namespace Filling

variable {d d' : Filling} {now : Instant}

/-- An entry that goes into the frame is taken from the work. -/
theorem Step.work_le (h : Step now d d') :
    d'.session.work now + d'.frame.entries.size ≤ d.session.work now + d.frame.entries.size := by
  have hlater := d.session.lt_add_resendDelay now
  cases h with
  | @tidy acks queues resend hacks hqueues hresend =>
    have hlength : acks.length = d.session.acks.length := by
      rw [← Fifo.length_toList, hacks, Fifo.length_toList]
    have htotal : total Fifo.length queues.toList = total Fifo.length d.session.queues.toList :=
      PerPriority.total_congr fun priority => by
        rw [← Fifo.length_toList, hqueues, Fifo.length_toList]
    have hdue : resend.dueCount now = d.session.resend.dueCount now := by
      rcases hresend with rfl | rfl <;> rfl
    simp only [Session.work, hlength, htotal, hdue]
    exact Nat.le_refl _
  | ackOnly => exact Nat.le_refl _
  | @ack a acks hacks hfits =>
    have hlength : d.session.acks.length = acks.length + 1 := by
      rw [← Fifo.length_toList, hacks, List.length_cons]
    have hlength' : (Fifo.ofList acks).length = acks.length := by
      rw [← Fifo.length_toList, Fifo.toList_ofList]
    simp only [Session.work, Session.count, FrameBuilder.push, Array.size_push, hlength, hlength']
    omega
  | @again p hdue hfits =>
    have := ResendQueue.dueCount_again_lt hdue hlater
    simp only [Session.work, sendAgain, Session.count, FrameBuilder.push, Array.size_push]
    omega
  | @first priority p queue hqueue hopen hfits =>
    have htotal := backlog_sendFirst hqueue now
    have hdue : ((d.withQueue priority queue).sendFirst now priority p).session.resend.dueCount now ≤
        d.session.resend.dueCount now := by
      rw [resend_sendFirst]
      split_ifs
      · exact ResendQueue.dueCount_push_le hlater
      · exact Nat.le_refl _
    have hframe : ((d.withQueue priority queue).sendFirst now priority p).frame.entries.size =
        d.frame.entries.size + 1 := Array.size_push ..
    rw [Session.work, Session.work, acks_sendFirst, hframe]
    simp only [Session.backlog] at htotal
    simp only [withQueue] at htotal hdue ⊢
    omega

theorem Steps.work_le (h : Steps now d d') :
    d'.session.work now + d'.frame.entries.size ≤ d.session.work now + d.frame.entries.size := by
  induction h with
  | refl => exact Nat.le_refl _
  | tail _ step ih => exact Nat.le_trans step.work_le ih

/-- A frame that something was put into does not become empty again. -/
theorem Steps.isEmpty (h : Steps now d d') (hempty : d'.frame.isEmpty = true) :
    d.frame.isEmpty = true := by
  induction h with
  | refl => exact hempty
  | tail _ step ih =>
    refine ih ?_
    cases step with
    | tidy => exact hempty
    | ackOnly => exact hempty
    | ack => exact absurd hempty (FrameBuilder.not_isEmpty_push _ _)
    | again => exact absurd hempty (FrameBuilder.not_isEmpty_push _ _)
    | first => exact absurd hempty (FrameBuilder.not_isEmpty_push _ _)

/-- Repetition stops by itself. -/
theorem resendWith_of_lt {m n : Nat} (hm : d.session.resend.dueCount now < m)
    (hn : d.session.resend.dueCount now < n) : resendWith now m d = resendWith now n d := by
  induction m generalizing d n with
  | zero => exact absurd hm (Nat.not_lt_zero _)
  | succ m ih =>
    obtain ⟨n, rfl⟩ := Nat.exists_eq_succ_of_ne_zero (Nat.ne_of_gt (Nat.zero_lt_of_lt hn))
    rw [resendWith_succ, resendWith_succ]
    cases hdue : (d.session.resend.peekDue now).1 with
    | none => rfl
    | some p =>
      have hless := dueCount_sendAgain_lt now hdue
      dsimp only
      split_ifs
      · refine ih ?_ ?_
        · exact Nat.lt_of_lt_of_le hless (Nat.le_of_lt_succ hm)
        · exact Nat.lt_of_lt_of_le hless (Nat.le_of_lt_succ hn)
      · rfl

theorem resendWith_eq_resendOverdue {n : Nat} (hn : d.session.resend.dueCount now < n) :
    resendWith now n d = d.resendOverdue now :=
  resendWith_of_lt hn (Nat.lt_succ_of_le (d.session.resend.dueCount_le_length now))

end Filling

namespace Session

variable {s : Session} {now : Instant}

/-- What becomes of the session and an empty frame when the frame is filled. -/
def nextFrame (s : Session) (now : Instant) (lost : Bool) : Filling :=
  Filling.fill now { session := s, frame := .ofMaxBytes s.config.frameBudget, lost }

theorem steps_nextFrame (s : Session) (now : Instant) (lost : Bool) :
    Filling.Steps now (Transmission.start s lost).filling (s.nextFrame now lost) :=
  Filling.steps_fill now _

/-- Every frame that is not empty takes from the work. -/
theorem work_nextFrame_lt {lost : Bool} (h : (s.nextFrame now lost).frame.isEmpty = false) :
    (s.nextFrame now lost).session.work now < s.work now := by
  have hle : (s.nextFrame now lost).session.work now + (s.nextFrame now lost).frame.entries.size ≤
      s.work now + 0 := Filling.Steps.work_le (s.steps_nextFrame now lost)
  have hpos : 0 < (s.nextFrame now lost).frame.entries.size := by
    simpa [FrameBuilder.isEmpty, Array.size_pos_iff] using h
  omega

theorem work_isFrameReady_le (s : Session) (now : Instant) :
    (s.isFrameReady now).2.work now ≤ s.work now := by
  have hle := Filling.Steps.work_le (steps_isFrameReady now (Transmission.start s false).filling)
  exact Nat.le_of_add_le_add_right hle

/-- The loop stops by itself. -/
theorem buildFrames_of_lt {m n : Nat} {lost : Bool} (hm : s.work now < m) (hn : s.work now < n) :
    buildFrames now m lost s = buildFrames now n lost s := by
  induction m generalizing s n lost with
  | zero => exact absurd hm (Nat.not_lt_zero _)
  | succ m ih =>
    obtain ⟨n, rfl⟩ := Nat.exists_eq_succ_of_ne_zero (Nat.ne_of_gt (Nat.zero_lt_of_lt hn))
    have hready := s.work_isFrameReady_le now
    rw [buildFrames, buildFrames]
    generalize s.isFrameReady now = answer at hready ⊢
    obtain ⟨_ | _, s'⟩ := answer
    · rfl
    · have hless := @work_nextFrame_lt s' now lost
      dsimp only at hready ⊢
      rw [← nextFrame]
      generalize s'.nextFrame now lost = d at hless ⊢
      split_ifs with hempty
      · rfl
      · have hwork : d.session.work now < s.work now :=
          Nat.lt_of_lt_of_le (hless (by simpa using hempty)) hready
        rw [ih (n := n)]
        · exact Nat.lt_of_lt_of_le hwork (Nat.le_of_lt_succ hm)
        · exact Nat.lt_of_lt_of_le hwork (Nat.le_of_lt_succ hn)

/-- Nothing is left that should have been sent: few acknowledgements, none of them overdue at the front,
no overdue packet at the front, and no fresh packets unless the window is full. -/
structure Exhausted (s : Session) (now : Instant) : Prop where
  acks_lt : s.acks.length < Limits.minimumWindow
  oldest : ∀ a ∈ s.acks.toList.head?, now < a.due
  front : (s.resend.peekDue now).1 = none
  fresh : s.window.size ≤ s.resend.length ∨ s.queued = []

theorem acks_of_not_due (h : s.acksDue now = false) :
    s.acks.length < Limits.minimumWindow ∧ ∀ a ∈ s.acks.toList.head?, now < a.due := by
  rw [acksDue] at h
  rw [← Fifo.length_toList] at h ⊢
  cases hacks : s.acks.toList with
  | nil => exact ⟨by decide, by simp⟩
  | cons a acks =>
    simp only [hacks, Bool.or_eq_false_iff, decide_eq_false_iff_not, Nat.not_le] at h
    exact ⟨h.1, by simpa using h.2⟩

/-- The contents of the queues in another form, and the numbers in front skipped that are stale. -/
theorem exhausted_of_tidy (hacks : s.acksDue now = false) (hfront : (s.resend.peekDue now).1 = none)
    {queues : PerPriority (Fifo Packet)}
    (hqueues : ∀ priority, (queues.get priority).toList = (s.queues.get priority).toList)
    (hfresh : s.isThrottled = true ∨ ∀ priority, (s.queues.get priority).toList = []) :
    ({ s with queues, resend := s.resend.skipStale } : Session).Exhausted now := by
  obtain ⟨hfew, holdest⟩ := acks_of_not_due hacks
  refine ⟨hfew, holdest, ?_, ?_⟩
  · rw [ResendQueue.peekDue_skipStale]
    exact hfront
  · refine hfresh.imp of_decide_eq_true fun hempty => ?_
    exact List.flatMap_eq_nil_iff.mpr fun priority _ => (hqueues priority).trans (hempty priority)

theorem exhausted_of_not_ready (h : (s.isFrameReady now).1 = false) :
    (s.isFrameReady now).2.Exhausted now := by
  rw [isFrameReady] at h ⊢
  split_ifs at h ⊢ with hopen
  · simp only [Bool.or_eq_true, Bool.not_eq_true', not_or, Bool.not_eq_false, Bool.not_eq_true] at hopen
    have hskip := s.resend.peekDue_snd now
    have hfront : (s.resend.peekDue now).1 = none := by simpa using h
    dsimp only
    rw [hskip]
    exact exhausted_of_tidy hopen.2 hfront (fun _ => rfl) (Or.inl hopen.1)

end Session

namespace Filling

variable {d : Filling} {now : Instant} {maxBytes : Nat}

theorem fits_ack (h : 3 ≤ maxBytes) (q : SequenceNumber) :
    (FrameBuilder.ofMaxBytes maxBytes).fits (.ack q) = true := by
  have hroom : Limits.ackBits ≤ maxBytes * 8 - 0 := by
    simp only [Limits.ackBits]
    omega
  exact decide_eq_true hroom

/-- A frame has room for an acknowledgement. -/
theorem not_isEmpty_takeAcks (hframe : d.frame = .ofMaxBytes maxBytes) (hbudget : 3 ≤ maxBytes)
    (hdue : d.session.acksDue now = true) : ¬d.takeAcks.frame.isEmpty = true := by
  intro hempty
  cases hacks : d.session.acks.toList with
  | nil => simp [Session.acksDue, hacks] at hdue
  | cons a acks =>
    have hfits : d.frame.fits (.ack a.sequence) = true := hframe ▸ fits_ack hbudget a.sequence
    rw [takeAcks_of_fits hacks hfits] at hempty
    exact FrameBuilder.not_isEmpty_push _ _ (Steps.isEmpty (steps_takeAcks now _) hempty)

/-- If the frame is still empty behind the overdue packets, there was none. -/
theorem resendOverdue_of_isEmpty (hframe : d.frame = .ofMaxBytes maxBytes)
    (hfits : d.session.Stocks (Entry.FitsAlone maxBytes))
    (hempty : (d.resendOverdue now).2.frame.isEmpty = true) :
    (d.session.resend.peekDue now).1 = none ∧ d.resendOverdue now =
      (false, { d with session := { d.session with resend := d.session.resend.skipStale } }) := by
  have hskip := d.session.resend.peekDue_snd now
  have hmem := fun p => @ResendQueue.mem_packets_of_peekDue d.session.resend p now
  rw [resendOverdue, resendWith] at hempty ⊢
  generalize d.session.resend.peekDue now = answer at hskip hmem hempty ⊢
  obtain ⟨_ | p, resend⟩ := answer
  · rw [← hskip]
    exact ⟨rfl, rfl⟩
  · have hp : d.frame.fits (.data p) = true := hframe ▸ hfits.inFlight p (hmem p rfl)
    dsimp only at hempty
    rw [if_pos hp] at hempty
    exact absurd (Steps.isEmpty (steps_resendWith now _ _) hempty) (FrameBuilder.not_isEmpty_push _ _)

/-- If the frame is still empty behind a queue, the window is closed or the queue is empty. -/
theorem sendQueued_of_isEmpty {priority : Priority} {queue : List Packet}
    (hfits : ∀ p ∈ queue, d.frame.fits (.data p) = true)
    (hempty : (sendQueued now priority queue d).2.1.frame.isEmpty = true) :
    (sendQueued now priority queue d).2 = (d, queue) ∧
      ((sendQueued now priority queue d).1 = true ∧ d.session.isThrottled = true ∨
        (sendQueued now priority queue d).1 = false ∧ queue = []) := by
  cases queue with
  | nil => exact ⟨rfl, Or.inr ⟨rfl, rfl⟩⟩
  | cons p queue =>
    rw [sendQueued] at hempty ⊢
    by_cases hthrottled : d.session.isThrottled = true
    · rw [if_pos hthrottled]
      exact ⟨rfl, Or.inl ⟨rfl, hthrottled⟩⟩
    · rw [if_neg hthrottled, if_pos (hfits p (by simp))] at hempty
      have hsteps := steps_sendQueued now priority queue (d.sendFirst now priority p)
      exact absurd (Steps.isEmpty hsteps hempty) (FrameBuilder.not_isEmpty_push _ _)

/-- If the frame is still empty behind all queues, the window is closed or all queues are empty. -/
theorem sendFresh_of_isEmpty {priorities : List Priority} (hframe : d.frame = .ofMaxBytes maxBytes)
    (hfits : d.session.Stocks (Entry.FitsAlone maxBytes))
    (hempty : (sendFresh now priorities d).frame.isEmpty = true) :
    ∃ queues, sendFresh now priorities d = { d with session := { d.session with queues } } ∧
      (∀ priority, (queues.get priority).toList = (d.session.queues.get priority).toList) ∧
      (d.session.isThrottled = true ∨
        ∀ priority ∈ priorities, (d.session.queues.get priority).toList = []) := by
  induction priorities generalizing d with
  | nil => exact ⟨d.session.queues, rfl, fun _ => rfl, Or.inr (by simp)⟩
  | cons priority others ih =>
    let queue := (d.session.queues.get priority).toList
    have hsame : ∀ other, ((d.withQueue priority queue).session.queues.get other).toList =
        (d.session.queues.get other).toList := by
      intro other
      rw [withQueue, PerPriority.get_set]
      split_ifs with h
      · rw [h, Fifo.toList_ofList]
      · rfl
    have hqueue : ∀ p ∈ queue, d.frame.fits (.data p) = true := fun p hp =>
      hframe ▸ hfits.queued priority p hp
    have hstocks : (d.withQueue priority queue).session.Stocks (Entry.FitsAlone maxBytes) :=
      ⟨fun other p hp => hfits.queued other p (hsame other ▸ hp), hfits.inFlight, hfits.acks⟩
    have hspec := @sendQueued_of_isEmpty d now priority queue hqueue
    rw [sendFresh] at hempty ⊢
    generalize sendQueued now priority (d.session.queues.get priority).toList d = answer
      at hspec hempty ⊢
    obtain ⟨closed, d', left⟩ := answer
    dsimp only at hspec hempty ⊢
    have hd' : d'.frame.isEmpty = true := by
      split_ifs at hempty
      · exact hempty
      · have hleft := Steps.isEmpty (steps_sendFresh now others (d'.withQueue priority left)) hempty
        exact hleft
    obtain ⟨heq, hcases⟩ := hspec hd'
    obtain ⟨rfl, rfl⟩ := Prod.mk.inj heq
    rcases hcases with ⟨rfl, hthrottled⟩ | ⟨rfl, hnil⟩
    · exact ⟨_, rfl, hsame, Or.inl hthrottled⟩
    · obtain ⟨queues, hfresh, hqueues, hrest⟩ :=
        ih (d := d'.withQueue priority queue) hframe hstocks hempty
      refine ⟨queues, hfresh, fun other => (hqueues other).trans (hsame other), hrest.imp_right ?_⟩
      intro hothers other hother
      rcases List.mem_cons.mp hother with rfl | hother
      · exact hnil
      · exact hsame other ▸ hothers other hother

/-- If the frame is still empty in the end, nothing is left that should have been sent. -/
theorem exhausted_fill_of_isEmpty (hframe : d.frame = .ofMaxBytes maxBytes) (hbudget : 3 ≤ maxBytes)
    (hfits : d.session.Stocks (Entry.FitsAlone maxBytes))
    (hempty : (d.fill now).frame.isEmpty = true) : (d.fill now).session.Exhausted now := by
  have hbehind := Steps.isEmpty (steps_fill_of_acks now d) hempty
  have hdue : d.session.acksDue now = false := by
    rw [← Bool.not_eq_true]
    intro hdue
    rw [if_pos hdue] at hbehind
    exact not_isEmpty_takeAcks hframe hbudget hdue hbehind
  rw [fill, hdue] at hempty ⊢
  dsimp only at hempty ⊢
  simp only [Bool.false_eq_true, if_false, Bool.false_and, Bool.false_or] at hempty ⊢
  have hoverdue : (d.resendOverdue now).2.frame.isEmpty = true := by
    generalize d.resendOverdue now = answer at hempty
    obtain ⟨_ | _, d'⟩ := answer
    · dsimp only at hempty
      split_ifs at hempty with hfresh
      · exact Steps.isEmpty (steps_sendFresh now Priority.all d') hfresh
      · exact absurd (Steps.isEmpty (steps_takeAcks now _) hempty) hfresh
    · exact hempty
  obtain ⟨hfront, heq⟩ := resendOverdue_of_isEmpty hframe hfits hoverdue
  rw [heq] at hempty ⊢
  dsimp only at hempty ⊢
  split_ifs at hempty ⊢ with hfresh
  · have htidy : ({ d with session := { d.session with resend := d.session.resend.skipStale } } :
        Filling).session.Stocks (Entry.FitsAlone maxBytes) := ⟨hfits.queued, hfits.inFlight, hfits.acks⟩
    obtain ⟨queues, heq, hqueues, hopen⟩ := sendFresh_of_isEmpty (by exact hframe) htidy hfresh
    rw [heq]
    refine Session.exhausted_of_tidy hdue hfront hqueues (hopen.imp_right fun hall priority => ?_)
    exact hall priority (by cases priority <;> simp [Priority.all])
  · exact absurd (Steps.isEmpty (steps_takeAcks now _) hempty) hfresh

end Filling

namespace Session

variable {s : Session} {now : Instant}

/-- The loop goes on as long as something is left. -/
theorem exhausted_buildFrames {n : Nat} {lost : Bool} (hbudget : 3 ≤ s.config.frameBudget)
    (hfits : s.Stocks (Entry.FitsAlone s.config.frameBudget)) (hn : s.work now < n) :
    (buildFrames now n lost s).2.Exhausted now := by
  induction n generalizing s lost with
  | zero => exact absurd hn (Nat.not_lt_zero _)
  | succ n ih =>
    have hready := s.work_isFrameReady_le now
    have hnot := @exhausted_of_not_ready s now
    have hconfig := s.config_isFrameReady now
    have hstocks : (s.isFrameReady now).2.Stocks (Entry.FitsAlone s.config.frameBudget) :=
      Filling.Steps.stocks (steps_isFrameReady now (Transmission.start s lost).filling) hfits
    rw [buildFrames]
    generalize s.isFrameReady now = answer at hready hnot hconfig hstocks ⊢
    obtain ⟨_ | _, s'⟩ := answer
    · exact hnot rfl
    · dsimp only at hready hconfig hstocks ⊢
      rw [← hconfig] at hbudget hstocks
      have hsteps := s'.steps_nextFrame now lost
      have hless := @work_nextFrame_lt s' now lost
      have hdone : (s'.nextFrame now lost).frame.isEmpty = true →
          (s'.nextFrame now lost).session.Exhausted now :=
        Filling.exhausted_fill_of_isEmpty rfl hbudget hstocks
      rw [← nextFrame]
      generalize s'.nextFrame now lost = d at hsteps hless hdone ⊢
      split_ifs with hempty
      · exact hdone hempty
      · have hwork : d.session.work now < s.work now :=
          Nat.lt_of_lt_of_le (hless (by simpa using hempty)) hready
        have hsame : d.session.config = s'.config := congrArg Standing.config hsteps.standing
        have hrest := Filling.Steps.stocks hsteps hstocks
        rw [← hsame] at hbudget hrest
        refine ih hbudget ⟨hrest.queued, hrest.inFlight, hrest.acks⟩ ?_
        exact Nat.lt_of_lt_of_le hwork (Nat.le_of_lt_succ hn)

end Session

namespace Party

variable {p : Party} {now : Instant}

/-- The loops of a transmission stop by themselves, so that a larger bound changes nothing: every frame
that is not empty takes from the work. And they stop only when nothing is left that should be sent. -/
theorem Reachable.exhausted_transmit (h : p.Reachable) (hbudget : 3 ≤ p.session.config.frameBudget)
    (now : Instant) :
    (∀ d n, d.session.resend.dueCount now < n → Filling.resendWith now n d = d.resendOverdue now) ∧
      (∀ (s : Session) lost, (s.nextFrame now lost).frame.isEmpty = false →
        (s.nextFrame now lost).session.work now < s.work now) ∧
      (∀ n, p.session.work now < n → p.session.isDead = false → p.session.hasTimedOut now = false →
        Session.buildFrames now n false p.session = p.session.transmit now) ∧
      ((p.session.transmit now).2.isDead = false → (p.session.transmit now).2.Exhausted now) := by
  have hunsent : p.session.work now < p.session.unsent + 1 :=
    Nat.lt_succ_of_le (p.session.work_le_unsent now)
  refine ⟨fun d n hn => Filling.resendWith_eq_resendOverdue hn, fun s lost => Session.work_nextFrame_lt,
    fun n hn halive htime => ?_, fun halive => ?_⟩
  · rw [Session.transmit, halive, htime]
    exact Session.buildFrames_of_lt hn hunsent
  · rw [Session.transmit] at halive ⊢
    split_ifs at halive ⊢ with hdead htime
    · rw [hdead] at halive
      cases halive
    · cases halive
    · exact Session.exhausted_buildFrames hbudget h.fitsAlone hunsent

theorem exhausted_transmit_fragments :
    let p := submissions.foldl act (.new narrow 0)
    3 ≤ p.session.config.frameBudget ∧ (p.session.transmit 5).1.length = 3 ∧
      (p.session.transmit 5).2.Exhausted 5 := by
  have hbudget : 3 ≤ (submissions.foldl act (.new narrow 0)).session.config.frameBudget := by
    decide +kernel
  have hspec := Reachable.exhausted_transmit (Reachable.acts (.new narrow 0) submissions) hbudget 5
  exact ⟨hbudget, by decide +kernel, hspec.2.2.2 (by decide +kernel)⟩

end Party
end ReliableDatagram
