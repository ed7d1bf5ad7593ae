import ReliableDatagram.Network.Exchange
import ReliableDatagram.Proofs.Session.Outbox
import ReliableDatagram.Proofs.Wire.Normalisation

/-!
# Framing

How entries are put into datagrams does not matter to the session that takes them in. Handling an entry
neither reads nor changes what the framing may touch (`Session.withFraming`): the window, and the counters
of datagrams and of their bits. So a datagram does what its entries do when each of them comes alone.
-/
namespace ReliableDatagram

/-- What depends on how the entries that arrive are put into datagrams. -/
structure Framing where
  window : Window
  framesReceived : Nat
  bitsReceived : Nat

namespace Session

/-- The same session under another framing. -/
def withFraming (s : Session) (x : Framing) : Session :=
  { s with
    window := x.window
    counters :=
      { s.counters with framesReceived := x.framesReceived, bitsReceived := x.bitsReceived } }

variable (s : Session) (x : Framing) (p : Packet) (place : Place) (now : Instant)

@[simp] theorem resend_withFraming : (s.withFraming x).resend = s.resend := rfl

@[simp] theorem reassembler_withFraming : (s.withFraming x).reassembler = s.reassembler := rfl

@[simp] theorem lanes_withFraming : (s.withFraming x).lanes = s.lanes := rfl

@[simp] theorem arrivals_withFraming : (s.withFraming x).arrivals = s.arrivals := rfl

theorem handleAck_withFraming (q : SequenceNumber) :
    (s.withFraming x).handleAck q now = (s.handleAck q now).withFraming x := by
  rw [handleAck, handleAck]
  dsimp only [count]
  rw [resend_withFraming]
  generalize s.resend.acknowledge q = answer
  obtain ⟨acked, resend⟩ := answer
  cases acked <;> rfl

theorem reassemble_withFraming : (s.withFraming x).reassemble p now =
    ((s.reassemble p now).1, (s.reassemble p now).2.withFraming x) := by
  rw [reassemble, reassemble, reassembler_withFraming]
  generalize s.reassembler.insert p now = answer
  obtain ⟨result, reassembler⟩ := answer
  cases result <;> rfl

theorem acceptSequenced_withFraming : (s.withFraming x).acceptSequenced p place now =
    (s.acceptSequenced p place now).withFraming x := by
  rw [acceptSequenced, acceptSequenced, reassemble_withFraming, lanes_withFraming]
  dsimp only
  split_ifs
  · rfl
  · generalize s.reassemble p now = answer
    obtain ⟨_ | whole, s'⟩ := answer
    · rfl
    · dsimp only
      rw [lanes_withFraming]
      cases s'.lanes.acceptSequenced? (.ofNat place.channel) place.index <;> rfl

theorem acceptOrdered_withFraming : (s.withFraming x).acceptOrdered p place =
    (s.acceptOrdered p place).withFraming x := by
  rw [acceptOrdered, acceptOrdered, lanes_withFraming]
  generalize s.lanes.acceptOrdered (.ofNat place.channel) place.index (.ofPacket p) = answer
  obtain ⟨arrival, lanes⟩ := answer
  cases arrival <;> rfl

theorem acceptNew_withFraming :
    (s.withFraming x).acceptNew p now = (s.acceptNew p now).withFraming x := by
  rw [acceptNew, acceptNew]
  have hpurge : (if p.part.isSome then (s.withFraming x).purgeSplits now else s.withFraming x) =
      (if p.part.isSome then s.purgeSplits now else s).withFraming x := by
    split_ifs <;> rfl
  rw [hpurge]
  generalize (if p.part.isSome then s.purgeSplits now else s) = purged
  rw [reassemble_withFraming]
  split_ifs
  · cases p.place with
    | none => rfl
    | some place => exact purged.acceptSequenced_withFraming x p place now
  all_goals
    generalize purged.reassemble p now = answer
    obtain ⟨_ | whole, s'⟩ := answer
    · rfl
  · cases p.place with
    | none => rfl
    | some place => exact s'.acceptOrdered_withFraming x whole place
  · rfl

theorem handlePacket_withFraming :
    (s.withFraming x).handlePacket p now = (s.handlePacket p now).withFraming x := by
  rw [handlePacket, handlePacket, arrivals_withFraming]
  generalize s.arrivals.record p.sequence now = answer
  obtain ⟨arrival, arrivals⟩ := answer
  cases arrival with
  | new =>
    let acks := if p.reliability.isReliable then
        s.acks.push { sequence := p.sequence, due := now + s.config.ackCoalesce }
      else s.acks
    exact acceptNew_withFraming { s with acks, arrivals } x p now
  | duplicate => rfl

theorem handleEntry_withFraming (e : Entry) :
    (s.withFraming x).handleEntry now e = (s.handleEntry now e).withFraming x := by
  cases e with
  | ack q => exact s.handleAck_withFraming x now q
  | data p => exact s.handlePacket_withFraming x p now

theorem handleEntries_withFraming (entries : List Entry) :
    entries.foldl (handleEntry now) (s.withFraming x) =
      (entries.foldl (handleEntry now) s).withFraming x :=
  List.foldl_hom (withFraming · x) fun s e => s.handleEntry_withFraming x now e

/-- A datagram leaves what its entries leave, but for the framing, and one more invalid message if one of
them is malformed. -/
theorem exists_framing_handleDatagram {s : Session} (halive : s.isDead = false) (data : Bytes) :
    ∃ window, s.handleDatagram data now =
      let handled := ((Frame.read data).1.foldl (handleEntry now) s).withFraming
        ⟨window, s.counters.framesReceived + 1, s.counters.bitsReceived + data.length * 8⟩
      match (Frame.read data).2 with
      | none => (.ok (), handled)
      | some e => (.error e, handled.count fun c =>
          { c with invalidMessagesReceived := c.invalidMessagesReceived + 1 }) := by
  have hcounted : (Frame.read data).1.foldl (handleEntry now) (s.countDatagram data.length) =
      ((Frame.read data).1.foldl (handleEntry now) s).withFraming
        ⟨s.window, s.counters.framesReceived + 1, s.counters.bitsReceived + data.length * 8⟩ :=
    s.handleEntries_withFraming ⟨s.window, _, _⟩ now _
  rw [handleDatagram, halive, if_neg Bool.false_ne_true]
  generalize Frame.read data = answer at hcounted ⊢
  obtain ⟨entries, error?⟩ := answer
  dsimp only at hcounted ⊢
  rw [← countDatagram, hcounted]
  cases error? with
  | none => exact ⟨_, rfl⟩
  | some e => exact ⟨_, rfl⟩

/-- Entries that come one by one leave what they leave together, but for the framing. -/
theorem exists_framing_handleDatagrams {s : Session} (halive : s.isDead = false) (maxBytes : Nat)
    {entries : List Entry} (hread : ∀ e ∈ entries, e.WellFormed ∧ e.decoded = e) :
    ∃ x, s.handleDatagrams (entries.map fun e => (Frame.alone maxBytes e).bytes) now =
      (entries.foldl (handleEntry now) s).withFraming x := by
  induction entries generalizing s with
  | nil => exact ⟨⟨s.window, s.counters.framesReceived, s.counters.bitsReceived⟩, rfl⟩
  | cons e entries ih =>
    obtain ⟨hwell, hdecoded⟩ := hread e List.mem_cons_self
    obtain ⟨window, hhandled⟩ :=
      exists_framing_handleDatagram now halive (Frame.alone maxBytes e).bytes
    rw [Frame.read_alone maxBytes hwell, hdecoded] at hhandled
    -- Whatever framing this one leaves, the rest goes on from it as from any other.
    generalize (⟨window, _, _⟩ : Framing) = x at hhandled
    have halive' : ((s.handleEntry now e).withFraming x).isDead = false := by
      rw [← halive]
      exact congrArg Option.isSome (s.handles_handleEntry e now).dead_eq
    obtain ⟨x', hrest⟩ := ih halive' fun e' he' => hread e' (List.mem_cons_of_mem _ he')
    rw [handleDatagrams, handleEntries_withFraming] at hrest
    refine ⟨x', ?_⟩
    rw [handleDatagrams, List.map_cons, List.foldl_cons, hhandled]
    exact hrest

/-- Framing does not matter to the receiver. A datagram does to a live session what its entries do when each
of them comes in a frame of its own, at the same moment. It counts as one datagram, and the window may
differ, which looks at the acknowledgements of a datagram together. A malformed entry is reported and counts
as one more invalid message; nothing behind it is taken in. -/
theorem handleDatagram_alone {s : Session} (halive : s.isDead = false) {data : Bytes} {maxBytes : Nat}
    (hroom : data.length ≤ maxBytes) (now : Instant) :
    let entries := (Frame.read data).1
    let frames := Frame.isolate maxBytes entries
    let whole := s.handleDatagram data now
    let alone := s.handleDatagrams (frames.map Frame.bytes) now
    frames.map (fun f => Frame.read f.bytes) = entries.map (fun e => ([e], none)) ∧
      (∀ e, whole.1 = .error e ↔ (Frame.read data).2 = some e) ∧
      whole.2 =
        { alone with
          window := whole.2.window
          counters :=
            { alone.counters with
              framesReceived := s.counters.framesReceived + 1
              bitsReceived := s.counters.bitsReceived + data.length * 8
              invalidMessagesReceived := alone.counters.invalidMessagesReceived +
                if (Frame.read data).2.isSome then 1 else 0 } } := by
  intro entries frames whole alone
  have hread : ∀ e ∈ entries, e.WellFormed ∧ e.decoded = e := fun e he => Frame.wellFormed_of_mem_read he
  have hframes : frames = entries.map (Frame.alone maxBytes) := Frame.isolate_read hroom
  obtain ⟨window, hwhole⟩ := exists_framing_handleDatagram now halive data
  obtain ⟨x, hrun⟩ := exists_framing_handleDatagrams now halive maxBytes hread
  have halone : alone = (entries.foldl (handleEntry now) s).withFraming x := by
    rw [← hrun]
    show s.handleDatagrams (frames.map Frame.bytes) now = _
    rw [hframes, List.map_map]
    rfl
  refine ⟨?_, ?_, ?_⟩
  · rw [hframes, List.map_map]
    refine List.map_congr_left fun e he => ?_
    obtain ⟨hwell, hdecoded⟩ := hread e he
    rw [Function.comp_apply, Frame.read_alone maxBytes hwell, hdecoded]
  · show ∀ e, (s.handleDatagram data now).1 = .error e ↔ _
    rw [hwhole]
    cases (Frame.read data).2 with
    | none => simp
    | some e' => simp
  · show (s.handleDatagram data now).2 = _
    simp only [halone, whole, hwhole]
    cases (Frame.read data).2 <;> rfl

/-- Five acknowledgements, a packet twice, and the beginning of one whose mode does not exist. -/
def mixture : Bytes :=
  [0, 0, 128, 0, 64, 0, 32, 0, 16, 0, 8, 0, 1, 128, 0, 1, 192, 171, 0, 0, 48, 0, 0, 56, 171, 0, 0, 112]

/-- A session with a message to send takes in the mixture. Together the acknowledgements let the window grow,
one by one they do not. -/
theorem handleDatagram_alone_mixture :
    let s := (new .default 0).sendWhole [1] 8 .high .reliable 0
    let whole := s.handleDatagram mixture 1
    let alone := s.handleDatagrams ((Frame.isolate 28 (Frame.read mixture).1).map Frame.bytes) 1
    s.isDead = false ∧ mixture.length ≤ 28 ∧ whole.1 = .error (.unknownReliability 7) ∧
      whole.2.window.size = 6 ∧ alone.window.size = 5 ∧
      whole.2.output = alone.output ∧ alone.output.length = 1 ∧
      whole.2.counters.invalidMessagesReceived = alone.counters.invalidMessagesReceived + 1 := by
  intro s whole alone
  have halive : s.isDead = false := rfl
  have hroom : mixture.length ≤ 28 := by decide
  have herror : (Frame.read mixture).2 = some (.unknownReliability 7) := by decide +kernel
  have hgrown : whole.2.window.size = 6 := by decide +kernel
  have hsame : alone.window.size = 5 := by decide +kernel
  have houtput : alone.output.length = 1 := by decide +kernel
  obtain ⟨-, hreported, hleft⟩ := handleDatagram_alone halive hroom 1
  refine ⟨halive, hroom, (hreported _).mpr herror, hgrown, hsame, ?_, houtput, ?_⟩
  · rw [hleft]
  · rw [hleft, herror]
    simp only [alone, Option.isSome_some, if_true]

end Session
end ReliableDatagram
