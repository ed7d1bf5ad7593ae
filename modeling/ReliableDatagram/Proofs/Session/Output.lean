import ReliableDatagram.Session.Send
import ReliableDatagram.Proofs.Session.Outbox

/-!
# What a session completes

The output of a session grows at its end, by the messages that datagrams complete and by nothing else.
The session counts them.
-/
namespace ReliableDatagram
namespace Session

/-- The messages `ms` have been completed, in that order. -/
structure Completes (s s' : Session) (ms : List Delivery) : Prop where
  output_eq : s'.output.toList = s.output.toList ++ ms
  count_eq : s'.counters.messagesReceived = s.counters.messagesReceived + ms.length

namespace Completes

variable {s s' s'' : Session} {ms ms' : List Delivery}

theorem refl (s : Session) : s.Completes s [] := ⟨(List.append_nil _).symm, rfl⟩

theorem trans (h : s.Completes s' ms) (h' : s'.Completes s'' ms') : s.Completes s'' (ms ++ ms') where
  output_eq := by rw [h'.output_eq, h.output_eq, List.append_assoc]
  count_eq := by rw [h'.count_eq, h.count_eq, List.length_append, Nat.add_assoc]

/-- Neither the output nor the count is touched. -/
theorem none (houtput : s'.output = s.output)
    (hcount : s'.counters.messagesReceived = s.counters.messagesReceived) : s.Completes s' [] :=
  ⟨by rw [houtput, List.append_nil], hcount⟩

end Completes

variable {s s' : Session} {now : Instant}

theorem completes_reassemble (s : Session) (p : Packet) (now : Instant) :
    s.Completes (s.reassemble p now).2 [] := by
  rw [reassemble]
  generalize s.reassembler.insert p now = answer
  obtain ⟨result, reassembler⟩ := answer
  cases result <;> exact .none rfl rfl

theorem completes_acceptOrdered (s : Session) (whole : Packet) (place : Place) :
    ∃ ms, s.Completes (s.acceptOrdered whole place) ms := by
  rw [acceptOrdered]
  generalize s.lanes.acceptOrdered (.ofNat place.channel) place.index (.ofPacket whole) = answer
  obtain ⟨arrival, lanes⟩ := answer
  refine ⟨arrival.delivered (.ofPacket whole), Fifo.toList_foldl_push .. ▸ ?_, ?_⟩
  · cases arrival <;> rfl
  · cases arrival with
    | inOrder followers =>
      rw [OrderedArrival.delivered, List.length_cons, Nat.add_comm followers.length, ← Nat.add_assoc]
      rfl
    | buffered => rfl
    | stale => rfl

theorem completes_acceptSequenced (s : Session) (p : Packet) (place : Place) (now : Instant) :
    ∃ ms, s.Completes (s.acceptSequenced p place now) ms := by
  rw [acceptSequenced]
  dsimp only
  split_ifs
  · exact ⟨[], .none rfl rfl⟩
  · have hreassemble := s.completes_reassemble p now
    generalize s.reassemble p now = answer at hreassemble
    obtain ⟨_ | whole, s'⟩ := answer
    · exact ⟨[], hreassemble⟩
    · dsimp only
      split
      · exact ⟨[], hreassemble.trans (.none rfl rfl)⟩
      · exact ⟨_, hreassemble.trans ⟨Fifo.toList_push .., rfl⟩⟩

theorem completes_acceptNew (s : Session) (p : Packet) (now : Instant) :
    ∃ ms, s.Completes (s.acceptNew p now) ms := by
  rw [acceptNew]
  generalize hs₁ : (if p.part.isSome then s.purgeSplits now else s) = s₁
  have hpurge : s.Completes s₁ [] := by
    rw [← hs₁]
    split_ifs <;> exact .none rfl rfl
  suffices hrest : ∃ ms, s₁.Completes _ ms by
    obtain ⟨ms, hms⟩ := hrest
    exact ⟨ms, hpurge.trans hms⟩
  split_ifs with hq ho
  · cases p.place with
    | none => exact ⟨[], .refl s₁⟩
    | some place => exact s₁.completes_acceptSequenced p place now
  all_goals
    have hreassemble := s₁.completes_reassemble p now
    generalize s₁.reassemble p now = answer at hreassemble
    obtain ⟨_ | whole, s'⟩ := answer
    · exact ⟨[], hreassemble⟩
  · dsimp only
    cases p.place with
    | none => exact ⟨[], hreassemble⟩
    | some place =>
      obtain ⟨ms, hms⟩ := s'.completes_acceptOrdered whole place
      exact ⟨ms, hreassemble.trans hms⟩
  · exact ⟨_, hreassemble.trans ⟨Fifo.toList_push .., rfl⟩⟩

theorem completes_handlePacket (s : Session) (p : Packet) (now : Instant) :
    ∃ ms, s.Completes (s.handlePacket p now) ms := by
  rw [handlePacket]
  generalize s.arrivals.record p.sequence now = answer
  obtain ⟨arrival, arrivals⟩ := answer
  cases arrival with
  | new =>
    obtain ⟨ms, hms⟩ := completes_acceptNew _ p now
    exact ⟨ms, hms.output_eq, hms.count_eq⟩
  | duplicate => exact ⟨[], .none rfl rfl⟩

theorem completes_handleAck (s : Session) (q : SequenceNumber) (now : Instant) :
    s.Completes (s.handleAck q now) [] := by
  rw [handleAck]
  dsimp only
  split <;> exact .none rfl rfl

theorem completes_handleEntry (s : Session) (e : Entry) (now : Instant) :
    ∃ ms, s.Completes (s.handleEntry now e) ms := by
  cases e with
  | ack q => exact ⟨[], s.completes_handleAck q now⟩
  | data p => exact s.completes_handlePacket p now

theorem completes_handleEntries (s : Session) (entries : List Entry) (now : Instant) :
    ∃ ms, s.Completes (entries.foldl (handleEntry now) s) ms := by
  induction entries generalizing s with
  | nil => exact ⟨[], .refl s⟩
  | cons e entries ih =>
    obtain ⟨ms, hms⟩ := s.completes_handleEntry e now
    obtain ⟨ms', hms'⟩ := ih (s.handleEntry now e)
    exact ⟨ms ++ ms', hms.trans hms'⟩

/-- The messages that a datagram completes: what comes out of the session because of it. -/
def completed (s : Session) (data : Bytes) (now : Instant) : List Delivery :=
  (s.handleDatagram data now).2.output.toList.drop s.output.length

theorem completes_handleDatagram (s : Session) (data : Bytes) (now : Instant) :
    s.Completes (s.handleDatagram data now).2 (s.completed data now) := by
  have hgrows : ∃ ms, s.Completes (s.handleDatagram data now).2 ms := by
    rcases s.handleDatagram_cases data now with ⟨-, heq⟩ | ⟨-, window, invalid, heq⟩
    · rw [heq]
      exact ⟨[], .refl s⟩
    · obtain ⟨ms, hms⟩ :=
        completes_handleEntries (s.countDatagram data.length) (Frame.read data).1 now
      rw [heq]
      exact ⟨ms, hms.output_eq, hms.count_eq⟩
  obtain ⟨ms, hms⟩ := hgrows
  have hcompleted : s.completed data now = ms := by
    rw [completed, hms.output_eq, ← Fifo.length_toList, List.drop_left]
  exact hcompleted ▸ hms

/-- A dead session takes nothing in. -/
theorem handleDatagram_of_isDead (hdead : s.isDead = true) (data : Bytes) (now : Instant) :
    s.handleDatagram data now = (.ok (), s) := by
  rw [handleDatagram, if_pos hdead]

/-! ### Sending and transmitting -/

theorem completes_takePlace (s : Session) (r : Reliability) (channel : Nat) :
    s.Completes (s.takePlace r channel).2 [] := by
  rw [takePlace]
  split_ifs <;> exact .none rfl rfl

theorem completes_sendBits {payload : Bytes} {bitLength : Nat} {priority : Priority} {r : Reliability}
    {channel : Nat} (h : s.sendBits payload bitLength priority r channel = .ok s') :
    s.Completes s' [] := by
  obtain ⟨-, -, -, ⟨-, rfl⟩ | ⟨size, -, rfl⟩⟩ := sendBits_ok h
  · have hplace := s.completes_takePlace r channel
    exact ⟨hplace.output_eq, hplace.count_eq⟩
  · have hplace := s.completes_takePlace r.asReliable channel
    exact ⟨hplace.output_eq, hplace.count_eq⟩

theorem completes_sendMessage {m : Message} (h : s.sendMessage m = .ok s') : s.Completes s' [] :=
  completes_sendBits (send_ok h)

end Session

theorem Filling.Step.completes {d d' : Filling} {now : Instant} (h : Step now d d') :
    d.session.Completes d'.session [] := by
  cases h with
  | first =>
    rw [sendFirst]
    split_ifs <;> exact .none rfl rfl
  | _ => exact .none rfl rfl

namespace Session

theorem completes_transmit (s : Session) (now : Instant) : s.Completes (s.transmit now).2 [] := by
  rcases s.transmitted_cases now with ⟨-, ⟨-, heq⟩ | heq⟩ | ⟨-, t, -, hsession, hsteps⟩
  · rw [heq]
    exact .refl s
  · rw [heq]
    exact .none rfl rfl
  · rw [← hsession]
    refine hsteps.keep (P := fun t => s.Completes t.filling.session []) (fun t t' hstep ht => ?_)
      (.refl s)
    cases hstep with
    | fill hfill => exact ht.trans hfill.completes
    | close => exact ht.trans (.none rfl rfl)

end Session
end ReliableDatagram
