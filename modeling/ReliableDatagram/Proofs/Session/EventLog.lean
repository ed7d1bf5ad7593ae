import ReliableDatagram.Proofs.Session.Transmit

/-!
# The log of packets

Packets are queued, emitted, and go out of flight. A log of these events recounts how a session has come
to its queues and its packets in flight if it tells where each of them stems from. What is queued,
released, or put into frames is added at the end, and the log goes on to recount the session.
-/
namespace ReliableDatagram

inductive Event where
  | queued (packet : Packet)
  | emitted (packet : Packet) (time : Instant) (delay : Duration)
  | released (packet : Packet)
  deriving DecidableEq, Repr

namespace Event

/-- What an earlier event asks of a later one. -/
def Allows : Event → Event → Prop
  | emitted p t delay, emitted q t' _ =>
    p.sequence = q.sequence → p = q ∧ p.reliability.isReliable = true ∧ t + delay ≤ t'
  | released p, emitted q _ _ => p.sequence ≠ q.sequence
  | _, _ => True

def queued? : Event → Option Packet
  | queued p => some p
  | _ => none

def emitted? : Event → Option Packet
  | emitted p _ _ => some p
  | _ => none

theorem allows_of_emitted?_eq_none {earlier later : Event} (h : later.emitted? = none) :
    earlier.Allows later := by
  cases later with
  | emitted => cases h
  | _ => cases earlier <;> trivial

end Event

/-- The packets that were queued with a priority, in order. -/
def queuedOn (priority : Priority) (log : List Event) : List Packet :=
  (log.filterMap Event.queued?).filter (·.priority = priority)

/-- The packets that were emitted with a priority, in the order of their first emission. -/
def firstEmitted (priority : Priority) (log : List Event) : List Packet :=
  ((log.filterMap Event.emitted?).filter (·.priority = priority)).eraseDups

/-- The emission of entries at one time. -/
def emissions (entries : List Entry) (now : Instant) (delay : Duration) : List Event :=
  entries.filterMap fun
    | .ack _ => none
    | .data p => some (.emitted p now delay)

@[simp] theorem emissions_nil (now : Instant) (delay : Duration) :
    emissions [] now delay = [] := rfl

theorem emissions_append (entries later : List Entry) (now : Instant) (delay : Duration) :
    emissions (entries ++ later) now delay = emissions entries now delay ++ emissions later now delay :=
  List.filterMap_append ..

section log

variable {log : List Event} {p : Packet} {priority : Priority} {t : Instant} {delay : Duration}

theorem mem_filterMap_emitted :
    p ∈ log.filterMap Event.emitted? ↔ ∃ t delay, .emitted p t delay ∈ log := by
  rw [List.mem_filterMap]
  constructor
  · rintro ⟨event, hevent, hp⟩
    cases event with
    | emitted q t delay =>
      obtain rfl := Option.some.inj hp
      exact ⟨t, delay, hevent⟩
    | _ => cases hp
  · rintro ⟨t, delay, hevent⟩
    exact ⟨_, hevent, rfl⟩

theorem mem_emitted_append (hp : p ∈ log.filterMap Event.emitted?) (later : List Event) :
    p ∈ (log ++ later).filterMap Event.emitted? := by
  rw [List.filterMap_append]
  exact List.mem_append_left _ hp

theorem mem_firstEmitted : p ∈ firstEmitted priority log ↔
    p.priority = priority ∧ ∃ t delay, .emitted p t delay ∈ log := by
  rw [firstEmitted, List.mem_eraseDups, List.mem_filter, mem_filterMap_emitted, and_comm,
    decide_eq_true_iff]

theorem firstEmitted_append_of_forall {later : List Event}
    (h : ∀ event ∈ later, event.emitted? = none) :
    firstEmitted priority (log ++ later) = firstEmitted priority log := by
  rw [firstEmitted, List.filterMap_append, List.filterMap_eq_nil_iff.mpr h, List.append_nil,
    firstEmitted]

theorem pairwise_append_of_forall {later : List Event} (hlog : log.Pairwise Event.Allows)
    (h : ∀ event ∈ later, event.emitted? = none) : (log ++ later).Pairwise Event.Allows := by
  refine List.pairwise_append.mpr ⟨hlog, ?_, fun _ _ event hevent => ?_⟩
  · exact List.pairwise_of_forall_mem_list fun _ _ event hevent =>
      Event.allows_of_emitted?_eq_none (h event hevent)
  · exact Event.allows_of_emitted?_eq_none (h event hevent)

theorem queuedOn_append_of_forall {later : List Event} (h : ∀ event ∈ later, event.queued? = none) :
    queuedOn priority (log ++ later) = queuedOn priority log := by
  rw [queuedOn, List.filterMap_append, List.filterMap_eq_nil_iff.mpr h, List.append_nil, queuedOn]

theorem eraseDups_concat {α : Type} [DecidableEq α] (l : List α) (a : α) :
    (l ++ [a]).eraseDups = if a ∈ l then l.eraseDups else l.eraseDups ++ [a] := by
  rw [List.eraseDups_append, List.removeAll, List.filter_cons, List.filter_nil]
  by_cases h : a ∈ l <;> simp [h, List.eraseDups_cons]

/-- Only the first emission of a packet counts. -/
theorem firstEmitted_concat : firstEmitted priority (log ++ [.emitted p t delay]) =
    if p.priority = priority ∧ p ∉ log.filterMap Event.emitted? then firstEmitted priority log ++ [p]
    else firstEmitted priority log := by
  have hpacket : [Event.emitted p t delay].filterMap Event.emitted? = [p] := rfl
  rw [firstEmitted, List.filterMap_append, List.filter_append, hpacket, firstEmitted]
  by_cases hp : p.priority = priority
  · have hone : [p].filter (·.priority = priority) = [p] := by simp [hp]
    rw [hone, eraseDups_concat]
    simp only [List.mem_filter, hp, decide_true, and_true, true_and, ite_not]
  · have hnone : [p].filter (·.priority = priority) = [] := by simp [hp]
    rw [hnone, List.append_nil, if_neg (fun h => hp h.1)]

end log

namespace Session

/-- The log tells how the queues and the packets in flight have come about: what was emitted first is
the front of what was queued, and what is in flight was emitted and is not due before its delay is
over. -/
structure Recounts (s : Session) (log : List Event) : Prop where
  numbers : ((log.filterMap Event.queued?).map (·.sequence)).Nodup
  allowed : log.Pairwise Event.Allows
  line : ∀ priority,
    firstEmitted priority log ++ (s.queues.get priority).toList <+: queuedOn priority log
  complete : s.isDead = false → ∀ priority,
    firstEmitted priority log ++ (s.queues.get priority).toList = queuedOn priority log
  released : ∀ p, .released p ∈ log → p ∈ log.filterMap Event.emitted?
  inFlight : ∀ e ∈ s.resend.entries,
    e.packet ∈ log.filterMap Event.emitted? ∧ e.packet.reliability.isReliable = true ∧
      .released e.packet ∉ log ∧ ∀ t delay, .emitted e.packet t delay ∈ log → t + delay ≤ e.due

namespace Recounts

variable {s s' : Session} {log : List Event} {p q : Packet} {priority : Priority} {now : Instant}
  {delay : Duration}

theorem new (config : Config) (now : Instant) : (Session.new config now).Recounts [] where
  numbers := List.nodup_nil
  allowed := .nil
  line priority := by simp [Session.new, firstEmitted, queuedOn]
  complete _ priority := by simp [Session.new, firstEmitted, queuedOn]
  released := by simp
  inFlight := by simp [Session.new, ResendQueue.empty]

theorem congr (h : s.Recounts log)
    (hqueues : ∀ priority, (s'.queues.get priority).toList = (s.queues.get priority).toList)
    (hresend : s'.resend.entries = s.resend.entries) (hdead : s'.isDead = s.isDead) :
    s'.Recounts log where
  numbers := h.numbers
  allowed := h.allowed
  line priority := hqueues priority ▸ h.line priority
  complete halive priority := hqueues priority ▸ h.complete (hdead ▸ halive) priority
  released := h.released
  inFlight := hresend ▸ h.inFlight

theorem die (h : s.Recounts log) (reason : DisconnectReason) : (s.die reason).Recounts log where
  numbers := h.numbers
  allowed := h.allowed
  line priority := by
    have hqueue : ((s.die reason).queues.get priority).toList = [] := by simp [Session.die]
    rw [hqueue, List.append_nil]
    exact (List.prefix_append ..).trans (h.line priority)
  complete halive := by simp [isDead, Session.die] at halive
  released := h.released
  inFlight := by simp [Session.die, ResendQueue.empty]

/-- The number tells the packet. -/
theorem eq_of_sequence (h : s.Recounts log) (hp : p ∈ log.filterMap Event.queued?)
    (hq : q ∈ log.filterMap Event.queued?) (hsequence : p.sequence = q.sequence) : p = q :=
  List.inj_on_of_nodup_map h.numbers hp hq hsequence

theorem queued_of_emitted (h : s.Recounts log) (hp : p ∈ log.filterMap Event.emitted?) :
    p ∈ log.filterMap Event.queued? := by
  have hfirst := mem_firstEmitted.mpr ⟨rfl, mem_filterMap_emitted.mp hp⟩
  have hmem := (h.line p.priority).subset (List.mem_append_left _ hfirst)
  exact (List.mem_filter.mp hmem).1

/-- What is queued was never emitted. -/
theorem not_emitted (h : s.Recounts log) (hp : p ∈ (s.queues.get priority).toList) :
    p.priority = priority ∧ p ∈ log.filterMap Event.queued? ∧ p ∉ log.filterMap Event.emitted? := by
  have hline := h.line priority
  obtain ⟨hmem, hpriority⟩ := List.mem_filter.mp (hline.subset (List.mem_append_right _ hp))
  have hpriority : p.priority = priority := of_decide_eq_true hpriority
  refine ⟨hpriority, hmem, fun hemitted => ?_⟩
  have hnodup : (queuedOn priority log).Nodup := (h.numbers.of_map _).filter _
  have hfirst := mem_firstEmitted.mpr ⟨hpriority, mem_filterMap_emitted.mp hemitted⟩
  exact List.disjoint_of_nodup_append (hnodup.sublist hline.sublist) hfirst hp

/-- All that happened so far allows the emission of a packet that was not released, if its earlier
emissions do. -/
theorem allows_emitted (h : s.Recounts log) (hp : p ∈ log.filterMap Event.queued?)
    (hreleased : .released p ∉ log)
    (hearlier : ∀ t delay, .emitted p t delay ∈ log →
      p.reliability.isReliable = true ∧ t + delay ≤ now) :
    ∀ event ∈ log, event.Allows (.emitted p now delay) := by
  intro event hevent
  cases event with
  | queued q => trivial
  | emitted q t delay' =>
    intro hsequence
    have hq : q ∈ log.filterMap Event.emitted? := mem_filterMap_emitted.mpr ⟨t, delay', hevent⟩
    obtain rfl := h.eq_of_sequence (h.queued_of_emitted hq) hp hsequence
    exact ⟨rfl, hearlier t delay' hevent⟩
  | released q =>
    intro hsequence
    obtain rfl := h.eq_of_sequence (h.queued_of_emitted (h.released q hevent)) hp hsequence
    exact hreleased hevent

/-- The packet is put into a frame. -/
theorem emit (h : s.Recounts log) (hp : p ∈ log.filterMap Event.queued?)
    (hreleased : .released p ∉ log)
    (hearlier : ∀ t delay, .emitted p t delay ∈ log → p.reliability.isReliable = true ∧ t + delay ≤ now)
    (hline : ∀ priority, firstEmitted priority (log ++ [.emitted p now delay]) ++
      (s'.queues.get priority).toList = firstEmitted priority log ++ (s.queues.get priority).toList)
    (hdead : s'.isDead = s.isDead)
    (hentries : ∀ e ∈ s'.resend.entries, (e ∈ s.resend.entries ∧ e.packet ≠ p) ∨
      e = { packet := p, due := now + delay } ∧ p.reliability.isReliable = true) :
    s'.Recounts (log ++ [.emitted p now delay]) := by
  have hnotQueued : ∀ event ∈ [Event.emitted p now delay], event.queued? = none := by
    simp [Event.queued?]
  constructor
  · rw [List.filterMap_append, List.filterMap_eq_nil_iff.mpr hnotQueued, List.append_nil]
    exact h.numbers
  · refine List.pairwise_append.mpr ⟨h.allowed, List.pairwise_singleton .., ?_⟩
    intro event hevent new hnew
    obtain rfl := List.mem_singleton.mp hnew
    exact h.allows_emitted hp hreleased hearlier event hevent
  · intro priority
    rw [hline, queuedOn_append_of_forall hnotQueued]
    exact h.line priority
  · intro halive priority
    rw [hline, queuedOn_append_of_forall hnotQueued]
    exact h.complete (hdead ▸ halive) priority
  · intro x hx
    refine mem_emitted_append (h.released x ?_) _
    simpa using hx
  · intro e he
    rcases hentries e he with ⟨hold, hne⟩ | ⟨rfl, hreliable⟩
    · obtain ⟨hsent, hreliable, hkept, hdue⟩ := h.inFlight e hold
      refine ⟨mem_emitted_append hsent _, hreliable, by simpa using hkept, fun t delay' ht => ?_⟩
      refine hdue t delay' ?_
      simpa [hne] using ht
    · refine ⟨mem_filterMap_emitted.mpr ⟨now, delay, by simp⟩, hreliable, by simpa using hreleased,
        fun t delay' ht => ?_⟩
      rcases List.mem_append.mp ht with ht | ht
      · exact Nat.le_trans (hearlier t delay' ht).2 (Nat.le_add_right ..)
      · obtain ⟨-, rfl, rfl⟩ : p = p ∧ t = now ∧ delay' = delay := by simpa using ht
        exact Nat.le_refl _

/-- An overdue packet is sent again. -/
theorem again (h : s.Recounts log) (hdue : (s.resend.peekDue now).1 = some p)
    (hqueues : s'.queues = s.queues) (hdead : s'.isDead = s.isDead)
    (hresend : s'.resend = s.resend.popFront.2.push p (now + delay)) :
    s'.Recounts (log ++ [.emitted p now delay]) := by
  obtain ⟨e, he, rfl, hle, hentries⟩ := ResendQueue.exists_of_peekDue hdue
  obtain ⟨hemitted, hreliable, hreleased, hearlier⟩ := h.inFlight e he
  refine h.emit (h.queued_of_emitted hemitted) hreleased (fun t delay ht => ?_) (fun priority => ?_)
    hdead fun x hx => ?_
  · exact ⟨hreliable, Nat.le_trans (hearlier t delay ht) hle⟩
  · rw [firstEmitted_concat, if_neg fun hnew => hnew.2 hemitted, hqueues]
  · rw [hresend] at hx
    rcases List.mem_append.mp hx with hx | hx
    · obtain ⟨hx, hne⟩ := List.mem_filter.mp hx
      rw [hentries] at hx
      refine Or.inl ⟨(List.mem_filter.mp hx).1, fun hpacket => ?_⟩
      simp [hpacket] at hne
    · exact Or.inr ⟨List.mem_singleton.mp hx, hreliable⟩

/-- The head of a queue is sent. -/
theorem first (h : s.Recounts log) {queue : List Packet}
    (hqueue : (s.queues.get priority).toList = p :: queue)
    (hqueues : s'.queues = s.queues.set priority (.ofList queue)) (hdead : s'.isDead = s.isDead)
    (hresend : s'.resend =
      if p.reliability.isReliable then s.resend.push p (now + delay) else s.resend) :
    s'.Recounts (log ++ [.emitted p now delay]) := by
  obtain ⟨hpriority, hqueued, hnot⟩ := h.not_emitted (p := p) (by rw [hqueue]; simp)
  refine h.emit hqueued (fun hreleased => hnot (h.released p hreleased)) (fun t delay ht => ?_)
    (fun other => ?_) hdead fun x hx => ?_
  · exact absurd (mem_filterMap_emitted.mpr ⟨t, delay, ht⟩) hnot
  · rw [firstEmitted_concat, hqueues, PerPriority.get_set]
    by_cases hother : other = priority
    · subst hother
      rw [if_pos ⟨hpriority, hnot⟩, if_pos rfl, Fifo.toList_ofList, hqueue, List.append_assoc]
      rfl
    · have hne : ¬(p.priority = other ∧ p ∉ log.filterMap Event.emitted?) :=
        fun hnew => hother (hnew.1.symm.trans hpriority)
      rw [if_neg hne, if_neg hother]
  · have hold : ∀ e ∈ s.resend.entries, e.packet ≠ p := by
      rintro e he rfl
      exact hnot (h.inFlight e he).1
    rw [hresend] at hx
    split_ifs at hx with hreliable
    · rcases List.mem_append.mp hx with hx | hx
      · have hx := (List.mem_filter.mp hx).1
        exact Or.inl ⟨hx, hold x hx⟩
      · exact Or.inr ⟨List.mem_singleton.mp hx, hreliable⟩
    · exact Or.inl ⟨hx, hold x hx⟩

/-- Packets go out of flight. -/
theorem release (h : s.Recounts log) (hqueues : s'.queues = s.queues) (hdead : s'.isDead = s.isDead)
    (hresend : s'.resend.entries.Sublist s.resend.entries) {gone : List Packet}
    (hmem : ∀ x ∈ gone, x ∈ s.resend.packets ∧ x ∉ s'.resend.packets) :
    s'.Recounts (log ++ gone.map .released) := by
  have hreleases : ∀ x, .released x ∈ gone.map Event.released → x ∈ gone := by simp
  have hnotQueued : ∀ event ∈ gone.map Event.released, event.queued? = none := by
    simp [Event.queued?]
  have hnotEmitted : ∀ event ∈ gone.map Event.released, event.emitted? = none := by
    simp [Event.emitted?]
  constructor
  · rw [List.filterMap_append, List.filterMap_eq_nil_iff.mpr hnotQueued, List.append_nil]
    exact h.numbers
  · exact pairwise_append_of_forall h.allowed hnotEmitted
  · intro priority
    rw [firstEmitted_append_of_forall hnotEmitted, queuedOn_append_of_forall hnotQueued, hqueues]
    exact h.line priority
  · intro halive priority
    rw [firstEmitted_append_of_forall hnotEmitted, queuedOn_append_of_forall hnotQueued, hqueues]
    exact h.complete (hdead ▸ halive) priority
  · intro x hx
    rcases List.mem_append.mp hx with hx | hx
    · exact mem_emitted_append (h.released x hx) _
    · obtain ⟨e, he, rfl⟩ := List.mem_map.mp (hmem x (hreleases x hx)).1
      exact mem_emitted_append (h.inFlight e he).1 _
  · intro e he
    obtain ⟨hsent, hreliable, hkept, hdue⟩ := h.inFlight e (hresend.subset he)
    refine ⟨mem_emitted_append hsent _, hreliable, fun hx => ?_, fun t delay ht => hdue t delay ?_⟩
    · rcases List.mem_append.mp hx with hx | hx
      · exact hkept hx
      · exact (hmem _ (hreleases _ hx)).2 (List.mem_map_of_mem he)
    · simpa using ht

/-- Packets are queued. -/
theorem queue (h : s.Recounts log) (halive : s.isDead = false) {packets : List Packet}
    (hpackets : ∀ x ∈ packets, x.priority = priority)
    (hnumbers : (((log ++ packets.map Event.queued).filterMap Event.queued?).map (·.sequence)).Nodup)
    (hqueues : s'.queues = s.queues.modify priority (packets.foldl Fifo.push))
    (hresend : s'.resend = s.resend) :
    s'.Recounts (log ++ packets.map .queued) := by
  have hnotEmitted : ∀ event ∈ packets.map Event.queued, event.emitted? = none := by
    simp [Event.emitted?]
  have hcomplete : ∀ other, firstEmitted other (log ++ packets.map Event.queued) ++
      (s'.queues.get other).toList = queuedOn other (log ++ packets.map Event.queued) := by
    intro other
    have hqueued : (packets.map Event.queued).filterMap Event.queued? = packets := by
      simp [List.filterMap_map, Function.comp_def, Event.queued?]
    have hold := h.complete halive other
    rw [firstEmitted_append_of_forall hnotEmitted, queuedOn, List.filterMap_append,
      List.filter_append, hqueued, ← queuedOn, ← hold, hqueues, PerPriority.get_modify]
    split_ifs with hother
    · have hall : packets.filter (·.priority = other) = packets :=
        List.filter_eq_self.mpr fun x hx => by simp [hpackets x hx, hother]
      rw [Fifo.toList_foldl_push, hall, List.append_assoc]
    · have hnone : packets.filter (·.priority = other) = [] :=
        List.filter_eq_nil_iff.mpr fun x hx => by simp [hpackets x hx, Ne.symm hother]
      rw [hnone, List.append_nil]
  constructor
  · exact hnumbers
  · exact pairwise_append_of_forall h.allowed hnotEmitted
  · exact fun other => hcomplete other ▸ List.prefix_refl _
  · exact fun _ => hcomplete
  · intro x hx
    exact mem_emitted_append (h.released x (by simpa using hx)) _
  · intro e he
    rw [hresend] at he
    obtain ⟨hsent, hreliable, hkept, hdue⟩ := h.inFlight e he
    refine ⟨mem_emitted_append hsent _, hreliable, by simpa using hkept, fun t delay ht => ?_⟩
    exact hdue t delay (by simpa using ht)

end Recounts
end Session

namespace Filling

variable {d d' : Filling} {now : Instant} {log : List Event}

theorem Step.recounts (h : Step now d d') (hd : d.session.Recounts log) :
    ∃ es, d'.frame.entries.toList = d.frame.entries.toList ++ es ∧
      d'.session.Recounts (log ++ emissions es now d.session.config.resendDelay) := by
  have hdead : d'.session.isDead = d.session.isDead :=
    congrArg (fun standing => standing.dead.isSome) h.standing
  cases h with
  | tidy hacks hqueues hresend =>
    refine ⟨[], (List.append_nil _).symm, ?_⟩
    rw [emissions_nil, List.append_nil]
    rcases hresend with rfl | rfl <;> exact hd.congr hqueues rfl hdead
  | ackOnly =>
    refine ⟨[], (List.append_nil _).symm, ?_⟩
    rw [emissions_nil, List.append_nil]
    exact hd.congr (fun _ => rfl) rfl hdead
  | @ack a acks =>
    refine ⟨[.ack a.sequence], Array.toList_push, ?_⟩
    have hnone : emissions [.ack a.sequence] now d.session.config.resendDelay = [] := rfl
    rw [hnone, List.append_nil]
    exact hd.congr (fun _ => rfl) rfl hdead
  | @again p hdue hfits =>
    exact ⟨[.data p], Array.toList_push, hd.again hdue rfl hdead rfl⟩
  | @first priority p queue hqueue hopen hfits =>
    refine ⟨[.data p], Array.toList_push, hd.first hqueue ?_ hdead ?_⟩
    · exact queues_sendFirst ..
    · exact resend_sendFirst ..

end Filling

namespace Transmission

/-- Beside the log there are the entries of the transmission, all emitted at one time and with one
delay. -/
structure Recounts (t : Transmission) (log : List Event) (now : Instant) (delay : Duration) : Prop where
  delay_eq : t.filling.session.config.resendDelay = delay
  recounts : t.filling.session.Recounts (log ++ emissions t.entries now delay)

variable {t t' : Transmission} {log : List Event} {now : Instant} {delay : Duration}

theorem Recounts.step (h : t.Recounts log now delay) (hstep : Step now t t') :
    t'.Recounts log now delay := by
  cases hstep with
  | close =>
    refine ⟨h.delay_eq, ?_⟩
    rw [entries_close]
    exact h.recounts.congr (fun _ => rfl) rfl rfl
  | @fill d hfill =>
    obtain ⟨es, hes, hrecounts⟩ := hfill.recounts h.recounts
    refine ⟨?_, ?_⟩
    · rw [← h.delay_eq]
      exact congrArg (fun standing => standing.config.resendDelay) hfill.standing
    · rw [entries_fill hes, emissions_append, ← List.append_assoc]
      rw [h.delay_eq] at hrecounts
      exact hrecounts

end Transmission

namespace Session

variable {s s' : Session} {log : List Event}

theorem Recounts.transmit (h : s.Recounts log) (now : Instant) :
    (s.transmit now).2.Recounts (log ++ emissions (s.transmitted now) now s.config.resendDelay) := by
  rcases s.transmitted_cases now with ⟨hnil, ⟨-, heq⟩ | heq⟩ | ⟨-, t, hentries, hsession, hsteps⟩
  · rw [hnil, heq, emissions_nil, List.append_nil]
    exact h
  · rw [hnil, heq, emissions_nil, List.append_nil]
    exact h.die _
  · have hstart : (Transmission.start s false).Recounts log now s.config.resendDelay := by
      refine ⟨rfl, ?_⟩
      rw [Transmission.entries_start, emissions_nil, List.append_nil]
      exact h
    rw [← hentries, ← hsession]
    exact (hsteps.keep (fun _ _ hstep h => Transmission.Recounts.step h hstep) hstart).recounts

/-- The packets that stand behind those of an earlier state in the queues. -/
def appended (s s' : Session) : List Packet :=
  Priority.all.flatMap fun priority =>
    (s'.queues.get priority).toList.drop (s.queues.get priority).length

theorem appended_eq_nil
    (h : ∀ priority, (s'.queues.get priority).toList.length ≤ (s.queues.get priority).length) :
    s.appended s' = [] :=
  List.flatMap_eq_nil_iff.mpr fun priority _ => List.drop_eq_nil_of_le (h priority)

theorem appended_of_modify {priority : Priority} {packets : List Packet}
    (h : s'.queues = s.queues.modify priority (packets.foldl Fifo.push)) : s.appended s' = packets := by
  have hqueue : ∀ other, (s'.queues.get other).toList.drop (s.queues.get other).length =
      if other = priority then packets else [] := by
    intro other
    rw [h, PerPriority.get_modify, ← Fifo.length_toList]
    split_ifs
    · rw [Fifo.toList_foldl_push, List.drop_left]
    · exact List.drop_length
  simp only [appended, hqueue]
  cases priority <;> simp [Priority.all]

end Session
end ReliableDatagram
