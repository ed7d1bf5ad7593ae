import ReliableDatagram.Proofs.Sending.Deadlines
import ReliableDatagram.Proofs.Session.EventLog
import ReliableDatagram.Proofs.Session.Outbox

/-!
# Deadlines of a session

All deadlines of a session are set by transmissions and by arrivals, with the delay of resending that is
in force then. Acknowledgements wait a quarter of it. A session is `Timed` by a table of these times if
both queues stand in the order in which their deadlines were set.
-/
namespace ReliableDatagram
namespace Session

/-- An acknowledgement waits a quarter of the delay. -/
abbrev coalesce (delay : Duration) : Duration := delay / 4

structure Timed (s : Session) (table : Timetable) : Prop where
  acks : table.Dated coalesce (s.acks.toList.map (·.due))
  inFlight : table.Dated id (s.resend.entries.map (·.due))
  inLine : s.resend.InLine

namespace Timed

variable {s s' : Session} {table : Timetable} {now : Instant} {p : Packet}

theorem empty (hacks : s.acks = .empty) (hresend : s.resend = .empty) (table : Timetable) :
    s.Timed table := by
  refine ⟨?_, ?_, ?_⟩
  · rw [hacks]
    exact .nil table _
  · rw [hresend]
    exact .nil table _
  · rw [hresend]
    exact List.Sublist.refl _

theorem append (h : s.Timed table) (later : Timetable) : s.Timed (table ++ later) :=
  ⟨h.acks.append later, h.inFlight.append later, h.inLine⟩

/-- Acknowledgements and packets are taken away. -/
theorem shrink (h : s.Timed table) (hacks : s'.acks.toList.Sublist s.acks.toList)
    (hentries : s'.resend.entries.Sublist s.resend.entries) (hresend : s.resend.Shrinks s'.resend) :
    s'.Timed table :=
  ⟨h.acks.sublist (hacks.map _), h.inFlight.sublist (hentries.map _), hresend.inLine h.inLine⟩

theorem congr (h : s.Timed table) (hacks : s'.acks.toList = s.acks.toList)
    (hresend : s'.resend = s.resend) : s'.Timed table :=
  ⟨hacks ▸ h.acks, hresend ▸ h.inFlight, hresend ▸ h.inLine⟩

/-- A packet goes to the back, now that the last row of the table has come. -/
theorem push (h : s.Timed table) (hlast : table.getLast? = some (now, s.config.resendDelay))
    (hacks : s'.acks.toList = s.acks.toList)
    (hresend : s'.resend = s.resend.push p (now + s.config.resendDelay)) : s'.Timed table := by
  refine ⟨hacks ▸ h.acks, ?_, ?_⟩
  · have hkept := h.inFlight.sublist ((List.filter_sublist (p := (·.packet.sequence ≠ p.sequence))).map _)
    rw [hresend, ResendQueue.push, List.map_append]
    exact hkept.concat hlast
  · rw [hresend]
    exact h.inLine.push p _

end Timed
end Session

namespace ResendQueue

theorem sublist_entries_popFront (q : ResendQueue) : q.popFront.2.entries.Sublist q.entries := by
  rw [popFront]
  dsimp only
  split
  · exact List.Sublist.refl _
  · exact List.filter_sublist

end ResendQueue

namespace Filling

variable {d d' : Filling} {table : Timetable} {now : Instant} {log : List Event} {es : List Entry}
  {delay : Duration}

theorem Step.timed (h : Step now d d') (hd : d.session.Timed table)
    (hlast : table.getLast? = some (now, d.session.config.resendDelay)) : d'.session.Timed table := by
  cases h with
  | tidy hacks hqueues hresend =>
    rcases hresend with rfl | rfl
    · exact hd.congr hacks rfl
    · exact hd.shrink (hacks ▸ List.Sublist.refl _) (List.Sublist.refl _) (.skipStale _)
  | ackOnly => exact hd.congr rfl rfl
  | @ack a acks hacks =>
    refine hd.shrink ?_ (List.Sublist.refl _) (.refl _)
    rw [hacks]
    exact List.sublist_cons_self ..
  | @again p =>
    have hpopped : ({ d.session with resend := d.session.resend.popFront.2 } : Session).Timed table :=
      hd.shrink (List.Sublist.refl _) d.session.resend.sublist_entries_popFront (.popFront _)
    exact hpopped.push hlast rfl rfl
  | @first priority p queue =>
    have hacks : ((d.withQueue priority queue).sendFirst now priority p).session.acks.toList =
        d.session.acks.toList := by
      rw [acks_sendFirst]
      rfl
    by_cases hreliable : p.reliability.isReliable = true
    · refine hd.push (p := p) hlast hacks ?_
      rw [resend_sendFirst, if_pos hreliable]
      rfl
    · refine hd.congr hacks ?_
      rw [resend_sendFirst, if_neg hreliable]
      rfl

end Filling

namespace Session

variable {s : Session} {table : Timetable} {log : List Event}

theorem Timed.transmit (h : s.Timed table) (now : Instant) :
    (s.transmit now).2.Timed (table ++ [(now, s.config.resendDelay)]) := by
  have h := h.append [(now, s.config.resendDelay)]
  rcases s.transmitted_cases now with ⟨-, ⟨-, heq⟩ | heq⟩ | ⟨-, t, -, hsession, hsteps⟩
  · rw [heq]
    exact h
  · rw [heq]
    exact .empty rfl rfl _
  · rw [← hsession]
    have hkept := hsteps.keep (P := fun t => t.filling.session.config = s.config ∧
      t.filling.session.Timed (table ++ [(now, s.config.resendDelay)])) (fun t t' hstep ht => ?_)
      ⟨rfl, h⟩
    · exact hkept.2
    · obtain ⟨hconfig, htimed⟩ := ht
      cases hstep with
      | close => exact ⟨hconfig, htimed.congr rfl rfl⟩
      | fill hfill =>
        refine ⟨(congrArg Standing.config hfill.standing).trans hconfig, hfill.timed htimed ?_⟩
        rw [hconfig, List.getLast?_concat]

theorem acks_handlePacket (s : Session) (p : Packet) (now : Instant) :
    (s.handlePacket p now).acks = if p.reliability.isReliable then
      s.acks.push { sequence := p.sequence, due := now + coalesce s.config.resendDelay }
    else s.acks := by
  rw [handlePacket]
  generalize s.arrivals.record p.sequence now = answer
  obtain ⟨arrival, arrivals⟩ := answer
  cases arrival with
  | new => exact congrArg Outbox.acks (assembles_acceptNew ..).outbox_eq
  | duplicate => rfl

theorem shrinks_handleAck (s : Session) (q : SequenceNumber) (now : Instant) :
    s.resend.Shrinks (s.handleAck q now).resend := by
  have hacknowledge := ResendQueue.Shrinks.acknowledge s.resend q
  rw [handleAck]
  dsimp only [count]
  split
  · exact .refl _
  · rename_i heq
    rw [heq] at hacknowledge
    split
    · exact hacknowledge.trans (.dropSuperseded ..)
    · exact hacknowledge

theorem shrinks_handleEntry (s : Session) (e : Entry) (now : Instant) :
    s.resend.Shrinks (s.handleEntry now e).resend := by
  cases e with
  | ack q => exact s.shrinks_handleAck q now
  | data p =>
    obtain ⟨acks, houtbox, -⟩ := s.outbox_handlePacket p now
    have hresend : (s.handlePacket p now).resend = s.resend := congrArg Outbox.resend houtbox
    rw [handleEntry, hresend]
    exact .refl _

theorem Timed.handleEntry (h : s.Timed table) (e : Entry) {now : Instant}
    (hlast : table.getLast? = some (now, s.config.resendDelay)) :
    (s.handleEntry now e).Timed table := by
  have hshrinks := s.shrinks_handleEntry e now
  have hentries := (s.thins_handleEntry e now).sublist
  refine ⟨?_, h.inFlight.sublist (hentries.map _), hshrinks.inLine h.inLine⟩
  cases e with
  | ack q =>
    have hacks : (s.handleAck q now).acks = s.acks := congrArg Outbox.acks (s.outbox_handleAck q now)
    rw [Session.handleEntry, hacks]
    exact h.acks
  | data p =>
    rw [Session.handleEntry, acks_handlePacket]
    split_ifs
    · rw [Fifo.toList_push, List.map_append]
      exact h.acks.concat hlast
    · exact h.acks

theorem shrinks_handleEntries (s : Session) (entries : List Entry) (now : Instant) :
    s.resend.Shrinks (entries.foldl (Session.handleEntry now) s).resend := by
  induction entries generalizing s with
  | nil => exact .refl _
  | cons e entries ih => exact (s.shrinks_handleEntry e now).trans (ih _)

theorem Timed.handleEntries (h : s.Timed table) (entries : List Entry) {now : Instant}
    (hlast : table.getLast? = some (now, s.config.resendDelay)) :
    (entries.foldl (Session.handleEntry now) s).Timed table := by
  induction entries generalizing s with
  | nil => exact h
  | cons e entries ih =>
    refine ih (h.handleEntry e hlast) ?_
    rw [(s.handles_handleEntry e now).config_eq]
    exact hlast

theorem shrinks_handleDatagram (s : Session) (data : Bytes) (now : Instant) :
    s.resend.Shrinks (s.handleDatagram data now).2.resend := by
  rcases s.handleDatagram_cases data now with ⟨-, heq⟩ | ⟨-, window, invalid, heq⟩
  · rw [heq]
    exact .refl _
  · rw [heq]
    exact (s.countDatagram data.length).shrinks_handleEntries _ now

theorem Timed.handleDatagram (h : s.Timed table) (data : Bytes) (now : Instant) :
    (s.handleDatagram data now).2.Timed (table ++ [(now, s.config.resendDelay)]) := by
  have h := h.append [(now, s.config.resendDelay)]
  rcases s.handleDatagram_cases data now with ⟨-, heq⟩ | ⟨-, window, invalid, heq⟩
  · rw [heq]
    exact h
  · have hcounted : (s.countDatagram data.length).Timed (table ++ [(now, s.config.resendDelay)]) :=
      h.congr rfl rfl
    rw [heq]
    exact (hcounted.handleEntries (Frame.read data).1 List.getLast?_concat).congr rfl rfl

/-- The order of the packets in flight lists no number twice, and only numbers of packets that the log
says were emitted. -/
structure Lists (s : Session) (log : List Event) : Prop where
  nodup : s.resend.order.Nodup
  emitted : ∀ q ∈ s.resend.order, q ∈ (log.filterMap Event.emitted?).map (·.sequence)

namespace Lists

variable {s' : Session} {p : Packet}

theorem new (config : Config) (now : Instant) : (Session.new config now).Lists [] :=
  ⟨List.nodup_nil, by simp [Session.new, ResendQueue.empty]⟩

theorem shrink (h : s.Lists log) (horder : s'.resend.order.Sublist s.resend.order)
    (later : List Event) : s'.Lists (log ++ later) := by
  refine ⟨h.nodup.sublist horder, fun q hq => ?_⟩
  rw [List.filterMap_append, List.map_append]
  exact List.mem_append_left _ (h.emitted q (horder.subset hq))

/-- A packet goes to the back. -/
theorem push (h : s.Lists log) (hnew : p.sequence ∉ s.resend.order)
    (hemitted : p.sequence ∈ (log.filterMap Event.emitted?).map (·.sequence))
    (horder : s'.resend.order = s.resend.order ++ [p.sequence]) : s'.Lists log := by
  refine ⟨?_, fun q hq => ?_⟩
  · rw [horder]
    exact List.nodup_append_comm.mpr (List.nodup_cons.mpr ⟨hnew, h.nodup⟩)
  · rw [horder] at hq
    rcases List.mem_append.mp hq with hq | hq
    · exact h.emitted q hq
    · rw [List.mem_singleton.mp hq]
      exact hemitted

end Lists
end Session

namespace ResendQueue

variable {q : ResendQueue} {p : Packet} {now : Instant}

/-- The overdue packet at the front is the first one that is listed. -/
theorem order_of_peekDue (h : (q.peekDue now).1 = some p) :
    q.skipStale.order = p.sequence :: q.popFront.2.order := by
  unfold peekDue at h
  unfold popFront
  dsimp only at h ⊢
  split at h
  · cases h
  · rename_i front order horder
    obtain ⟨e, he, rfl⟩ := Option.map_eq_some_iff.mp h
    obtain ⟨hfind, -⟩ := Option.filter_eq_some_iff.mp he
    have hfront : e.packet.sequence = front := by simpa using List.find?_some hfind
    rw [horder, hfront]

end ResendQueue

namespace Filling

variable {d d' : Filling} {now : Instant} {log : List Event} {es : List Entry} {delay : Duration}

theorem Step.lists (h : Step now d d') (hd : d.session.Recounts log) (hl : d.session.Lists log)
    (hes : d'.frame.entries.toList = d.frame.entries.toList ++ es) :
    d'.session.Lists (log ++ emissions es now delay) := by
  cases h with
  | tidy hacks hqueues hresend =>
    refine hl.shrink ?_ _
    rcases hresend with rfl | rfl
    · exact List.Sublist.refl _
    · exact List.dropWhile_sublist _
  | ackOnly =>
    refine hl.shrink ?_ _
    exact List.Sublist.refl _
  | ack =>
    refine hl.shrink ?_ _
    exact List.Sublist.refl _
  | @again p hdue =>
    have horder := ResendQueue.order_of_peekDue hdue
    have hskip : d.session.resend.skipStale.order.Sublist d.session.resend.order :=
      List.dropWhile_sublist _
    rw [horder] at hskip
    have hpopped : ({ d.session with resend := d.session.resend.popFront.2 } : Session).Lists
        (log ++ emissions es now delay) :=
      hl.shrink ((List.sublist_cons_self ..).trans hskip) _
    refine hpopped.push (p := p) (List.nodup_cons.mp (hl.nodup.sublist hskip)).1 ?_ rfl
    rw [List.filterMap_append, List.map_append]
    exact List.mem_append_left _ (hl.emitted _ (hskip.subset List.mem_cons_self))
  | @first priority p queue hqueue =>
    obtain rfl : es = [.data p] := by
      have hpush : d.frame.entries.toList ++ [.data p] = d.frame.entries.toList ++ es :=
        Array.toList_push.symm.trans hes
      exact (List.append_cancel_left hpush).symm
    have hkept : d.session.Lists (log ++ emissions [.data p] now delay) :=
      hl.shrink (List.Sublist.refl _) _
    by_cases hreliable : p.reliability.isReliable = true
    · refine hkept.push (p := p) (fun hmem => ?_) ?_ ?_
      · obtain ⟨-, hqueued, hnot⟩ := hd.not_emitted (p := p) (by rw [hqueue]; simp)
        obtain ⟨x, hx, hsequence⟩ := List.mem_map.mp (hl.emitted _ hmem)
        exact hnot (hd.eq_of_sequence (hd.queued_of_emitted hx) hqueued hsequence ▸ hx)
      · rw [List.filterMap_append, List.map_append]
        exact List.mem_append_right _ (List.mem_singleton_self _)
      · rw [resend_sendFirst, if_pos hreliable]
        rfl
    · refine ⟨?_, ?_⟩ <;> rw [resend_sendFirst, if_neg hreliable]
      · exact hkept.nodup
      · exact hkept.emitted

end Filling

namespace Session

variable {s : Session} {log : List Event}

theorem Lists.transmit (h : s.Lists log) (hlog : s.Recounts log) (now : Instant) :
    (s.transmit now).2.Lists (log ++ emissions (s.transmitted now) now s.config.resendDelay) := by
  rcases s.transmitted_cases now with ⟨-, ⟨-, heq⟩ | heq⟩ | ⟨-, t, hentries, hsession, hsteps⟩
  · rw [heq]
    exact h.shrink (List.Sublist.refl _) _
  · rw [heq]
    exact h.shrink (List.nil_sublist _) _
  · have hstart : (Transmission.start s false).Recounts log now s.config.resendDelay ∧
        (Transmission.start s false).filling.session.Lists (log ++
          emissions (Transmission.start s false).entries now s.config.resendDelay) := by
      rw [Transmission.entries_start, emissions_nil, List.append_nil]
      refine ⟨⟨rfl, ?_⟩, h⟩
      rw [Transmission.entries_start, emissions_nil, List.append_nil]
      exact hlog
    have hkept := hsteps.keep (P := fun t => t.Recounts log now s.config.resendDelay ∧
      t.filling.session.Lists (log ++ emissions t.entries now s.config.resendDelay))
      (fun t t' hstep ht => ⟨ht.1.step hstep, ?_⟩) hstart
    · rw [← hentries, ← hsession]
      exact hkept.2
    · cases hstep with
      | close =>
        rw [Transmission.entries_close]
        exact ⟨ht.2.nodup, ht.2.emitted⟩
      | fill hfill =>
        obtain ⟨es, hes, -⟩ := hfill.recounts ht.1.recounts
        rw [Transmission.entries_fill hes, emissions_append, ← List.append_assoc]
        exact hfill.lists ht.1.recounts ht.2 hes

end Session
end ReliableDatagram
