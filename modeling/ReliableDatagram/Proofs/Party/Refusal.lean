import ReliableDatagram.Proofs.Party.Death
import ReliableDatagram.Proofs.Receiving.Accounting
import ReliableDatagram.Proofs.Receiving.NewArrivals
import ReliableDatagram.Proofs.Session.Timing

/-!
# Fragments that are refused for good

A packet is acknowledged and recorded before it is put to reassembly. When there is no room for a fragment
it is dropped, but its number stays recorded: whatever happens later, a repetition of it counts as a
duplicate, until the duplicate log has moved on by half the range.
-/
namespace ReliableDatagram

namespace ArrivalLog

/-- Arrivals have led from one log to the other. -/
def Leads (log log' : ArrivalLog) : Prop := ∃ calls, log' = log.recordAll calls

variable {log log' log'' : ArrivalLog}

theorem Leads.refl (log : ArrivalLog) : log.Leads log := ⟨[], rfl⟩

theorem Leads.trans (h : log.Leads log') (h' : log'.Leads log'') : log.Leads log'' := by
  obtain ⟨calls, rfl⟩ := h
  obtain ⟨calls', rfl⟩ := h'
  exact ⟨calls ++ calls', List.foldl_append.symm⟩

theorem leads_record (log : ArrivalLog) (s : SequenceNumber) (now : Instant) :
    log.Leads (log.record s now).2 :=
  ⟨[(s, now)], rfl⟩

theorem Leads.exists_marks (h : log.Leads log') (hmarks : ∃ news, log.Marks news) :
    ∃ news, log'.Marks news := by
  obtain ⟨calls, rfl⟩ := h
  obtain ⟨news, hmarks⟩ := hmarks
  exact ⟨_, hmarks.recordAll calls⟩

theorem marks_clear (log : ArrivalLog) : log.clear.Marks [] := by
  constructor <;> simp [clear]

/-- What was new is a duplicate from then on, until the base has moved on by half the range. -/
theorem Leads.record_eq_duplicate {s : SequenceNumber} {t t' : Instant} {news : List Nat}
    (hmarks : log.Marks news) (hnew : (log.record s t).1 = .new) (h : (log.record s t).2.Leads log')
    (hbase : log'.base < log.base + 32769) : (log'.record s t').1 = .duplicate := by
  obtain ⟨calls, rfl⟩ := h
  cases hagain : (((log.record s t).2.recordAll calls).record s t').1 with
  | duplicate => rfl
  | new => exact absurd (hmarks.base_le_of_new_again hnew hagain) (Nat.not_le.mpr hbase)

end ArrivalLog

namespace Session

variable {s s' : Session} {x : Packet} {now : Instant} {action : Action}

/-! ### The record of arrivals -/

theorem leads_handleEntry (s : Session) (e : Entry) (now : Instant) :
    s.arrivals.Leads (s.handleEntry now e).arrivals := by
  cases e with
  | ack q =>
    have hsame : (s.handleAck q now).arrivals = s.arrivals :=
      congrArg Outbox.arrivals (s.outbox_handleAck q now)
    rw [handleEntry, hsame]
    exact .refl _
  | data p =>
    obtain ⟨acks, houtbox, -⟩ := s.outbox_handlePacket p now
    have hrecord : (s.handlePacket p now).arrivals = (s.arrivals.record p.sequence now).2 :=
      congrArg Outbox.arrivals houtbox
    rw [handleEntry, hrecord]
    exact s.arrivals.leads_record p.sequence now

theorem leads_handleEntries (s : Session) (entries : List Entry) (now : Instant) :
    s.arrivals.Leads (entries.foldl (handleEntry now) s).arrivals := by
  induction entries generalizing s with
  | nil => exact .refl _
  | cons e entries ih => exact (s.leads_handleEntry e now).trans (ih _)

theorem leads_handleDatagram (s : Session) (data : Bytes) (now : Instant) :
    s.arrivals.Leads (s.handleDatagram data now).2.arrivals := by
  rcases s.handleDatagram_cases data now with ⟨-, heq⟩ | ⟨-, window, invalid, heq⟩
  · rw [heq]
    exact .refl _
  · rw [heq]
    exact (s.countDatagram data.length).leads_handleEntries (Frame.read data).1 now

/-- The record goes on, or it is cleared when the session ends. -/
theorem Changes.arrivals_cases (hs : s.Changes action s') :
    s.arrivals.Leads s'.arrivals ∨ (s'.isDead = true ∧ s'.arrivals = s.arrivals.clear) := by
  cases hs with
  | accepted _ halive hextends => exact Or.inl (hextends.arrivals_eq ▸ .refl _)
  | updated now =>
    rcases s.standing_transmit now with hstanding | hdie
    · have hsame : (s.transmit now).2.arrivals = s.arrivals :=
        congrArg (fun standing => standing.inbox.arrivals) hstanding
      exact Or.inl (hsame ▸ .refl _)
    · rw [hdie]
      exact Or.inr ⟨rfl, rfl⟩
  | handled data now => exact Or.inl (s.leads_handleDatagram data now)
  | ended _ reason output => exact Or.inr ⟨rfl, rfl⟩
  | _ => exact Or.inl (.refl _)

theorem Changes.exists_marks (hs : s.Changes action s') (h : ∃ news, s.arrivals.Marks news) :
    ∃ news, s'.arrivals.Marks news := by
  rcases hs.arrivals_cases with hleads | ⟨-, hclear⟩
  · exact hleads.exists_marks h
  · rw [hclear]
    exact ⟨[], s.arrivals.marks_clear⟩

/-! ### A packet of a datagram -/

/-- While a datagram is taken in, the session comes to one of its packets. -/
structure ComesTo (s₀ : Session) (data : Bytes) (now : Instant) (x : Packet) (s : Session) : Prop where
  alive : s₀.isDead = false
  exists_split : ∃ before after error?, Frame.read data = (before ++ .data x :: after, error?) ∧
    s = before.foldl (handleEntry now) (s₀.countDatagram data.length)

theorem ComesTo.leads {s₀ : Session} {data : Bytes} (h : s₀.ComesTo data now x s) :
    s₀.arrivals.Leads s.arrivals ∧
      (s.handlePacket x now).arrivals.Leads (s₀.handleDatagram data now).2.arrivals := by
  obtain ⟨before, after, error?, hread, rfl⟩ := h.exists_split
  refine ⟨(s₀.countDatagram data.length).leads_handleEntries before now, ?_⟩
  rcases s₀.handleDatagram_cases data now with ⟨hdead, -⟩ | ⟨-, window, invalid, heq⟩
  · rw [h.alive] at hdead
    cases hdead
  · rw [heq, hread, List.foldl_append, List.foldl_cons]
    exact leads_handleEntries _ after now

/-- A reliable packet that was not seen before is a fragment for which there is no room. -/
structure Overflows (s : Session) (x : Packet) (now : Instant) : Prop where
  isReliable : x.reliability.isReliable = true
  new : (s.arrivals.record x.sequence now).1 = .new
  /-- A sequenced packet gets as far as that only if nothing newer was delivered. -/
  current : x.reliability.isSequenced = true → ∃ place, x.place = some place ∧
    (s.lanes.get (.ofNat place.channel)).isSequencedStale place.index = false
  full : ((s.purgeSplits now).reassembler.insert x now).1 = .overflow

theorem Overflows.insert_eq (h : s.Overflows x now) : (s.purgeSplits now).reassembler.insert x now =
    (.overflow, (s.purgeSplits now).reassembler) := by
  have hanswers := (s.purgeSplits now).reassembler.answers_insert x now
  exact Prod.ext h.full (hanswers.unchanged (Or.inr (Or.inl h.full)))

theorem Overflows.part_isSome (h : s.Overflows x now) : x.part.isSome = true := by
  cases hpart : x.part with
  | some part => rfl
  | none =>
    have hfull := h.full
    rw [Reassembler.insert, hpart] at hfull
    cases hfull

theorem Overflows.not_repeats (h : s.Overflows x now) : ¬(s.purgeSplits now).reassembler.Repeats x := by
  have hanswers := (s.purgeSplits now).reassembler.answers_insert x now
  rw [h.full] at hanswers
  obtain ⟨part, g, ha⟩ := hanswers.exists_admits
  exact ha.not_repeats

/-- The fragment is acknowledged, recorded and dropped. -/
theorem Overflows.handlePacket_eq (h : s.Overflows x now) : s.handlePacket x now =
    { s.purgeSplits now with
      acks := s.acks.push { sequence := x.sequence, due := now + s.config.ackCoalesce }
      arrivals := (s.arrivals.record x.sequence now).2
      counters := { (s.purgeSplits now).counters with
        invalidMessagesReceived := (s.purgeSplits now).counters.invalidMessagesReceived + 1 } } := by
  have hinsert := h.insert_eq
  rw [handlePacket]
  have hnew := h.new
  generalize s.arrivals.record x.sequence now = answer at hnew
  obtain ⟨arrival, arrivals⟩ := answer
  obtain rfl : arrival = .new := hnew
  simp only [h.isReliable, if_true]
  rw [acceptNew, if_pos h.part_isSome]
  -- reassembly drops the fragment in a session that differs in what it acknowledges and records only
  have hdropped : ∀ acks, (({ s with acks, arrivals } : Session).purgeSplits now).reassemble x now =
      (none, { s.purgeSplits now with
        acks, arrivals
        counters := { (s.purgeSplits now).counters with
          invalidMessagesReceived := (s.purgeSplits now).counters.invalidMessagesReceived + 1 } }) := by
    intro acks
    have hsame : (({ s with acks, arrivals } : Session).purgeSplits now).reassembler =
        (s.purgeSplits now).reassembler := rfl
    rw [reassemble, hsame, hinsert]
    rfl
  split_ifs with hsequenced
  · obtain ⟨place, hplace, hcurrent⟩ := h.current hsequenced
    simp only [hplace]
    rw [acceptSequenced]
    dsimp only
    rw [if_neg (by simpa [purgeSplits, count] using hcurrent), hdropped]
  all_goals simp only [hdropped]

/-- Nothing comes of a packet but that it is counted as a duplicate. -/
structure Ignores (s : Session) (x : Packet) (now : Instant) : Prop where
  reassembler_eq : (s.handlePacket x now).reassembler = s.reassembler
  lanes_eq : (s.handlePacket x now).lanes = s.lanes
  output_eq : (s.handlePacket x now).output = s.output
  duplicates_eq : (s.handlePacket x now).counters.duplicateMessagesReceived =
    s.counters.duplicateMessagesReceived + 1

theorem ignores_of_duplicate (h : (s.arrivals.record x.sequence now).1 = .duplicate) :
    s.Ignores x now := by
  have hrecord : s.arrivals.record x.sequence now =
      (.duplicate, (s.arrivals.record x.sequence now).2) := Prod.ext h rfl
  constructor <;> rw [handlePacket, hrecord] <;> rfl

end Session

namespace Party

variable {p : Party} {data : Bytes} {now : Instant} {x : Packet} {s : Session}

theorem Reachable.exists_marks (h : p.Reachable) : ∃ news, p.session.arrivals.Marks news :=
  h.keep (P := fun s => ∃ news, s.arrivals.Marks news)
    (fun config _ => ⟨[], ArrivalLog.marks_new config.connectionTimeout⟩) fun _ _ _ hs => hs.exists_marks

/-- As long as the session lives, it forgets no arrival. -/
theorem Reachable.leads_acts (h : p.Reachable) {actions : List Action}
    (halive : (actions.foldl Party.act p).session.isDead = false) :
    p.session.arrivals.Leads (actions.foldl Party.act p).session.arrivals := by
  induction actions generalizing p with
  | nil => exact .refl _
  | cons action actions ih =>
    rcases (h.changes action).arrivals_cases with hleads | ⟨hdead, -⟩
    · exact hleads.trans (ih (h.act action) halive)
    · obtain ⟨reason, hreason⟩ := Option.isSome_iff_exists.mp hdead
      have hstays := ((h.act action).stays_dead hreason actions).1
      rw [Session.isDead, List.foldl_cons, hstays] at halive
      cases halive

/-- A reliable fragment for which there is no room is acknowledged, so that it will not be sent again once
the acknowledgement arrives, and it is not held. If it is sent again nevertheless, in any datagram that a
living session takes in later, it is dropped as a duplicate, however much room there is then, and nothing
comes of it. That ends only when the duplicate log has moved on by half the range. -/
theorem Reachable.refused_for_good (h : p.Reachable) (hx : p.session.ComesTo data now x s)
    (hfull : s.Overflows x now) :
    let s' := s.handlePacket x now
    s'.acks.toList = s.acks.toList ++ [{ sequence := x.sequence, due := now + s.config.ackCoalesce }] ∧
      s'.reassembler = (s.purgeSplits now).reassembler ∧ ¬s'.reassembler.Repeats x ∧
      s'.output = s.output ∧
      s'.counters.invalidMessagesReceived = s.counters.invalidMessagesReceived + 1 ∧
      ∀ (actions : List Action) (data' : Bytes) (later : Instant) (y : Packet) (t : Session),
        (actions.foldl Party.act (p.act (.handle data now))).session.ComesTo data' later y t →
        y.sequence = x.sequence → t.arrivals.base < s.arrivals.base + 32769 → t.Ignores y later := by
  intro s'
  have heq : s' = _ := hfull.handlePacket_eq
  refine ⟨?_, by rw [heq], ?_, by rw [heq]; rfl, by rw [heq]; rfl, ?_⟩
  · rw [heq]
    exact Fifo.toList_push ..
  · rw [heq]
    exact hfull.not_repeats
  · intro actions data' later y t hy hsequence hbase
    obtain ⟨hbefore, hafter⟩ := hx.leads
    obtain ⟨news, hmarks⟩ := hbefore.exists_marks h.exists_marks
    have hhandled := h.act (.handle data now)
    have hleads := (hafter.trans (hhandled.leads_acts hy.alive)).trans hy.leads.1
    rw [show (s.handlePacket x now).arrivals = (s.arrivals.record x.sequence now).2 by
      rw [hfull.handlePacket_eq]] at hleads
    have hduplicate : (t.arrivals.record x.sequence later).1 = .duplicate :=
      hleads.record_eq_duplicate hmarks hfull.new hbase
    exact Session.ignores_of_duplicate (hsequence ▸ hduplicate)

/-- Two messages of two fragments each, transmitted, and again a second later. -/
def insistent : Party :=
  let payload (k : Nat) : Bytes := (List.range 40).map fun i => .ofNat (k + i)
  [.send (payload 0) .medium .reliable 0, .send (payload 100) .medium .reliable 0, .update 0,
    .update 1000000000].foldl act (.new (Config.default.withMtu 64) 0)

def insistentFrame (k : Nat) : Bytes := (insistent.emitted[k]?.map (·.bytes)).getD []

/-- There is room for one fragment, and the first one of the first message has come. -/
def cramped : Party :=
  (new (Config.default.withMaxReassemblyBytes 100) 0).act (.handle (insistentFrame 0) 0)

/-- The first fragment of the second message. -/
def crowdedOut : Packet :=
  { sequence := .ofNat 2
    reliability := .reliable
    place := none
    part := some { id := .ofNat 1, index := 0, count := 2 }
    priority := .medium
    bitLength := 160
    payload := (List.range 20).map fun i => .ofNat (100 + i) }

/-- It is refused. Then the first message is completed, so that nothing is held any more, but what is
transmitted again is a duplicate. -/
theorem refused_for_good_cramped :
    let s := cramped.session.countDatagram (insistentFrame 2).length
    let freed := (cramped.act (.handle (insistentFrame 2) 0)).act (.handle (insistentFrame 1) 0)
    let t := freed.session.countDatagram (insistentFrame 6).length
    cramped.session.ComesTo (insistentFrame 2) 0 crowdedOut s ∧ s.Overflows crowdedOut 0 ∧
      freed.session.reassembler.bytes = 0 ∧
      freed.session.ComesTo (insistentFrame 6) 1000000000 crowdedOut t ∧
      t.Ignores crowdedOut 1000000000 := by
  intro s freed t
  have hcomes : cramped.session.ComesTo (insistentFrame 2) 0 crowdedOut s :=
    ⟨by decide +kernel, [], [], none, by decide +kernel, rfl⟩
  have hfull : s.Overflows crowdedOut 0 :=
    ⟨rfl, by decide +kernel, nofun, by decide +kernel⟩
  have hagain : freed.session.ComesTo (insistentFrame 6) 1000000000 crowdedOut t :=
    ⟨by decide +kernel, [], [], none, by decide +kernel, rfl⟩
  have hreachable : cramped.Reachable := (Reachable.new _ 0).act _
  obtain ⟨-, -, -, -, -, hlater⟩ := hreachable.refused_for_good hcomes hfull
  exact ⟨hcomes, hfull, by decide +kernel, hagain,
    hlater [.handle (insistentFrame 1) 0] _ _ _ t hagain rfl (by decide +kernel)⟩

end Party
end ReliableDatagram
