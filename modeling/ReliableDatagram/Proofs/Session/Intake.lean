import ReliableDatagram.Proofs.Receiving.Answers
import ReliableDatagram.Proofs.Session.Timing

/-!
# What a packet does to what was taken in

A session holds fragments, messages that wait in their lanes, and messages that are complete. A packet
moves them in a few ways only, which `Intake.Step` lists; of the rest of the session nothing matters for
them. So what every such step keeps is kept by datagrams of whatever bytes.
-/
namespace ReliableDatagram

/-- The place of a sequenced packet. -/
def Packet.sequencedPlace (p : Packet) : Option Place :=
  if p.reliability.isSequenced then p.place else none

theorem Packet.sequencedPlace_eq_some {p : Packet} {place : Place} :
    p.sequencedPlace = some place ↔ p.reliability.isSequenced = true ∧ p.place = some place := by
  simp [sequencedPlace]

/-- The channel of the place has gone past it. -/
def Lanes.Overtakes (t : Lanes Delivery) (place : Place) : Prop :=
  (t.get (.ofNat place.channel)).isSequencedStale place.index = true

structure Intake where
  reassembler : Reassembler
  lanes : Lanes Delivery
  output : List Delivery

namespace Intake

/-- A sequenced packet is taken in only if its channel has not gone past it. -/
def Admits (x : Intake) (p : Packet) : Prop :=
  ∀ place, p.sequencedPlace = some place → ¬x.lanes.Overtakes place

theorem admits_of_unsequenced {p : Packet} (h : p.reliability.isSequenced = false) (x : Intake) :
    x.Admits p := fun place hplace => by
  rw [(Packet.sequencedPlace_eq_some.mp hplace).1] at h
  cases h

/-- What a packet may do. -/
inductive Step (p : Packet) (now : Instant) : Intake → Intake → Prop
  /-- Incomplete messages that are too old go. -/
  | purge (x : Intake) (expiry : Duration) :
      Step p now x { x with reassembler := (x.reassembler.purgeExpired now expiry).2 }
  /-- Nothing comes out. -/
  | held {x : Intake} {result : Reassembly} {r' : Reassembler} (hadmits : x.Admits p)
      (h : x.reassembler.Answers p now result r') : Step p now x { x with reassembler := r' }
  | unordered {x : Intake} {whole : Packet} {r' : Reassembler}
      (hsequenced : p.reliability.isSequenced = false) (hordered : p.reliability.isOrdered = false)
      (h : x.reassembler.Answers p now (.complete whole) r') :
      Step p now x { x with reassembler := r', output := x.output ++ [.ofPacket whole] }
  | ordered {x : Intake} {whole : Packet} {r' : Reassembler} {place : Place}
      {arrival : OrderedArrival Delivery} {lanes : Lanes Delivery}
      (hordered : p.reliability.isOrdered = true) (hplace : p.place = some place)
      (h : x.reassembler.Answers p now (.complete whole) r')
      (hlanes : x.lanes.acceptOrdered (.ofNat place.channel) place.index (.ofPacket whole) =
        (arrival, lanes)) :
      Step p now x
        { reassembler := r', lanes, output := x.output ++ arrival.delivered (.ofPacket whole) }
  | sequenced {x : Intake} {whole : Packet} {r' : Reassembler} {place : Place} {lanes : Lanes Delivery}
      (hadmits : x.Admits p) (hplace : p.sequencedPlace = some place)
      (h : x.reassembler.Answers p now (.complete whole) r')
      (hlanes : x.lanes.acceptSequenced? (.ofNat place.channel) place.index = some lanes) :
      Step p now x
        { reassembler :=
            (r'.dropSuperseded place.channel (lanes.get (.ofNat place.channel)).sequenced).2
          lanes
          output := x.output ++ [.ofPacket whole] }

end Intake

def Inbox.intake (i : Inbox) : Intake :=
  { reassembler := i.reassembler, lanes := i.lanes, output := i.output }

namespace Session

variable {s : Session} {p : Packet} {place : Place} {now : Instant} {data : Bytes}

abbrev intake (s : Session) : Intake := s.inbox.intake

theorem exists_intake_eq (s : Session) (x : Intake) : ∃ s' : Session, s'.intake = x :=
  ⟨{ s with reassembler := x.reassembler, lanes := x.lanes, output := .ofList x.output },
    by simp [Inbox.intake, inbox]⟩

/-- The reassembler answers, and nothing else is touched. -/
theorem exists_answer (s : Session) (p : Packet) (now : Instant) :
    ∃ result r', s.reassembler.Answers p now result r' ∧
      (s.reassemble p now).2.intake = { s.intake with reassembler := r' } ∧
      ∀ whole, (s.reassemble p now).1 = some whole → result = .complete whole := by
  have hanswers := s.reassembler.answers_insert p now
  rw [reassemble]
  generalize s.reassembler.insert p now = answer at hanswers ⊢
  obtain ⟨result, r'⟩ := answer
  refine ⟨result, r', hanswers, ?_⟩
  cases result with
  | complete whole => exact ⟨rfl, fun whole' hwhole => congrArg _ (Option.some.inj hwhole)⟩
  | pending | rejected | overflow => exact ⟨rfl, fun whole hwhole => by cases hwhole⟩

theorem intake_deliver (s : Session) (m : Delivery) :
    (s.deliver m).intake = { s.intake with output := s.intake.output ++ [m] } := by
  simp [deliver, count, Inbox.intake, inbox]

theorem intake_acceptOrdered (s : Session) (whole : Packet) (place : Place) :
    ∃ arrival lanes, s.lanes.acceptOrdered (.ofNat place.channel) place.index (.ofPacket whole) =
        (arrival, lanes) ∧
      (s.acceptOrdered whole place).intake =
        { s.intake with lanes, output := s.intake.output ++ arrival.delivered (.ofPacket whole) } := by
  rw [acceptOrdered]
  generalize s.lanes.acceptOrdered (.ofNat place.channel) place.index (.ofPacket whole) = answer
  obtain ⟨arrival, lanes⟩ := answer
  refine ⟨arrival, lanes, rfl, ?_⟩
  cases arrival <;> simp [count, Inbox.intake, inbox, OrderedArrival.delivered, Fifo.toList_foldl_push]

open Relation (ReflTransGen)

theorem steps_acceptSequenced (s : Session) (hplace : p.sequencedPlace = some place) (now : Instant) :
    ReflTransGen (Intake.Step p now) s.intake (s.acceptSequenced p place now).intake := by
  rw [acceptSequenced]
  dsimp only
  split_ifs with hstale
  · exact .refl
  · have hadmits : s.intake.Admits p := by
      intro place' hplace'
      obtain rfl := Option.some.inj (hplace.symm.trans hplace')
      exact hstale
    obtain ⟨result, r', hanswers, hintake, hwhole⟩ := s.exists_answer p now
    have hheld := Intake.Step.held hadmits hanswers
    rw [← hintake] at hheld
    generalize s.reassemble p now = answer at hintake hwhole hheld
    obtain ⟨_ | whole, s'⟩ := answer
    · exact .single hheld
    · obtain rfl := hwhole whole rfl
      have hsame : s'.lanes = s.lanes := congrArg Intake.lanes hintake
      dsimp only
      cases hlanes : s'.lanes.acceptSequenced? (.ofNat place.channel) place.index with
      | none => exact .single hheld
      | some lanes =>
        refine .single ?_
        have hreassembler : s'.reassembler = r' := congrArg Intake.reassembler hintake
        have houtput : s'.output.toList = s.output.toList := congrArg Intake.output hintake
        have hstep := Intake.Step.sequenced hadmits hplace hanswers (hsame ▸ hlanes)
        rw [← hreassembler, show s.intake.output = s'.output.toList from houtput.symm] at hstep
        rw [intake_deliver]
        exact hstep

theorem steps_acceptUnsequenced (s : Session) (hsequenced : p.reliability.isSequenced = false)
    (now : Instant) :
    ReflTransGen (Intake.Step p now) s.intake (match s.reassemble p now with
      | (none, s) => s
      | (some whole, s) =>
        if p.reliability.isOrdered then
          match p.place with
          | none => s
          | some place => s.acceptOrdered whole place
        else s.deliver (.ofPacket whole)).intake := by
  obtain ⟨result, r', hanswers, hintake, hwhole⟩ := s.exists_answer p now
  have hheld := Intake.Step.held (Intake.admits_of_unsequenced hsequenced s.intake) hanswers
  rw [← hintake] at hheld
  generalize s.reassemble p now = answer at hintake hwhole hheld
  obtain ⟨_ | whole, s'⟩ := answer
  · exact .single hheld
  · obtain rfl := hwhole whole rfl
    have hsame : s'.lanes = s.lanes := congrArg Intake.lanes hintake
    dsimp only
    split_ifs with hordered
    · cases hplace : p.place with
      | none => exact .single hheld
      | some place =>
        obtain ⟨arrival, lanes, hlanes, haccepted⟩ := s'.intake_acceptOrdered whole place
        rw [hsame] at hlanes
        refine .single ?_
        rw [haccepted, hintake]
        exact .ordered hordered hplace hanswers hlanes
    · refine .single ?_
      rw [intake_deliver, hintake]
      exact .unordered hsequenced (Bool.eq_false_iff.mpr hordered) hanswers

theorem steps_acceptNew (s : Session) (p : Packet) (now : Instant) :
    ReflTransGen (Intake.Step p now) s.intake (s.acceptNew p now).intake := by
  rw [acceptNew]
  generalize hs' : (if p.part.isSome then s.purgeSplits now else s) = s'
  have hpurged : ReflTransGen (Intake.Step p now) s.intake s'.intake := by
    rw [← hs']
    split_ifs
    · exact .single (.purge s.intake s.config.splitExpiry)
    · exact .refl
  refine hpurged.trans ?_
  by_cases hsequenced : p.reliability.isSequenced = true
  · rw [if_pos hsequenced]
    cases hplace : p.place with
    | none => exact .refl
    | some place =>
      exact s'.steps_acceptSequenced (Packet.sequencedPlace_eq_some.mpr ⟨hsequenced, hplace⟩) now
  · rw [if_neg hsequenced]
    exact s'.steps_acceptUnsequenced (Bool.eq_false_iff.mpr hsequenced) now

theorem steps_handlePacket (s : Session) (p : Packet) (now : Instant) :
    ReflTransGen (Intake.Step p now) s.intake (s.handlePacket p now).intake := by
  rw [handlePacket]
  generalize s.arrivals.record p.sequence now = answer
  obtain ⟨arrival, arrivals⟩ := answer
  cases arrival with
  | new => exact steps_acceptNew { s with acks := _, arrivals } p now
  | duplicate => exact .refl

variable {I : Intake → Prop}

theorem keep_handleEntry (s : Session) {e : Entry}
    (hstep : ∀ p, e = .data p → ∀ x x', Intake.Step p now x x' → I x → I x') (h : I s.intake) :
    I (s.handleEntry now e).intake := by
  cases e with
  | ack q =>
    show I (s.handleAck q now).intake
    rwa [intake, inbox_handleAck]
  | data p =>
    show I (s.handlePacket p now).intake
    have hsteps := s.steps_handlePacket p now
    generalize (s.handlePacket p now).intake = x at hsteps
    induction hsteps with
    | refl => exact h
    | tail _ hlast ih => exact hstep p rfl _ _ hlast ih

theorem keep_handleEntries {entries : List Entry} (s : Session)
    (hstep : ∀ p, .data p ∈ entries → ∀ x x', Intake.Step p now x x' → I x → I x') (h : I s.intake) :
    I (entries.foldl (handleEntry now) s).intake := by
  induction entries generalizing s with
  | nil => exact h
  | cons e entries ih =>
    refine ih _ (fun p hp => hstep p (List.mem_cons_of_mem _ hp)) ?_
    exact s.keep_handleEntry (fun p hp => hstep p (hp ▸ List.mem_cons_self)) h

/-- What every step keeps, a datagram keeps. -/
theorem keep_handleDatagram (s : Session)
    (hstep : ∀ p, .data p ∈ (Frame.read data).1 → ∀ x x', Intake.Step p now x x' → I x → I x')
    (h : I s.intake) : I (s.handleDatagram data now).2.intake := by
  rcases s.handleDatagram_cases data now with ⟨-, heq⟩ | ⟨-, window, invalid, heq⟩
  · rwa [heq]
  · rw [heq]
    exact (s.countDatagram data.length).keep_handleEntries hstep h

end Session
end ReliableDatagram
