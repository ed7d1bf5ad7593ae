import ReliableDatagram.Proofs.Party.Provenance
import ReliableDatagram.Proofs.Session.Intake

/-!
# The length of messages

A packet ends with a byte of which some bits may be unused. When fragments are put together their bits
are added up and their bytes are strung together, so the unused bits of all of them stay in between. The
bytes are as many as the bits ask for if and only if fewer than eight bits are unused in all: so it is
for a message that came whole, and for fragments that are full of whole bytes, the last one excepted.
-/
namespace ReliableDatagram

/-- Bits of the last byte that carry nothing. -/
def Packet.unused (p : Packet) : Nat := 8 * p.payloadLength - p.bitLength

theorem Packet.unused_add (p : Packet) : p.unused + p.bitLength = 8 * p.payloadLength :=
  Nat.sub_add_cancel p.bitLength_le

theorem Packet.unused_lt (p : Packet) : p.unused < 8 := by
  simp only [unused, payloadLength, bytesForBits]
  omega

/-- A packet of whole bytes uses all of them. -/
theorem Packet.unused_eq_zero {p : Packet} (h : 8 ∣ p.bitLength) : p.unused = 0 := by
  simp only [unused, payloadLength, bytesForBits]
  omega

theorem Packet.length_flatMap_body {ps : List Packet} (h : ∀ p ∈ ps, p.WellFormed) :
    (ps.flatMap Packet.body).length = total Packet.payloadLength ps := by
  induction ps with
  | nil => rfl
  | cons p ps ih =>
    rw [List.flatMap_cons, List.length_append, (h p List.mem_cons_self).length_body, total_cons,
      ih fun q hq => h q (List.mem_cons_of_mem _ hq)]

namespace Provenance

variable {o : Provenance} {P : Packet → Prop}

def bits (o : Provenance) : Nat := total Packet.bitLength o.packets

def unused (o : Provenance) : Nat := total Packet.unused o.packets

theorem unused_add_bits (o : Provenance) :
    o.unused + o.bits = 8 * total Packet.payloadLength o.packets := by
  rw [unused, bits]
  induction o.packets with
  | nil => rfl
  | cons p ps ih =>
    have hp := p.unused_add
    simp only [total_cons]
    omega

section wellFormed

variable (h : ∀ p ∈ o.packets, p.WellFormed)
include h

theorem bits_pos : 0 < o.bits :=
  Nat.lt_of_lt_of_le (h o.first List.mem_cons_self).bitLength_pos (Nat.le_add_right ..)

theorem length_payload : o.message.payload.length = total Packet.payloadLength o.packets :=
  Packet.length_flatMap_body h

/-- For eight unused bits there is a byte too many. -/
theorem length_payload_eq : o.message.payload.length = bytesForBits o.bits + o.unused / 8 := by
  have hlength := length_payload h
  have hbits := o.unused_add_bits
  rw [bytesForBits]
  omega

theorem bits_le : o.bits ≤ 8 * o.message.payload.length := by
  rw [length_payload h, ← unused_add_bits]
  exact Nat.le_add_left ..

end wellFormed

theorem unused_lt_of_whole (h : o.packets = [o.last]) : o.unused < 8 := by
  rw [unused, h]
  exact o.last.unused_lt

/-- Only the last packet may end within a byte. -/
theorem unused_lt_of_dvd (h : ∀ p ∈ o.packets.dropLast, 8 ∣ p.bitLength) : o.unused < 8 := by
  have hne : o.packets ≠ [] := List.cons_ne_nil _ _
  have hnone : total Packet.unused o.packets.dropLast = 0 :=
    total_eq_zero fun p hp => Packet.unused_eq_zero (h p hp)
  rw [unused, ← List.dropLast_append_getLast hne, total_append, hnone, Nat.zero_add, total_cons]
  exact Packet.unused_lt _

end Provenance

namespace Reassembler

theorem Answers.maxBytes_eq {r r' : Reassembler} {p : Packet} {now : Instant} {result : Reassembly}
    (h : r.Answers p now result r') : r'.maxBytes = r.maxBytes := by
  cases h <;> rfl

/-- A complete message is no longer than what may be held and one more packet. -/
theorem Balanced.length_le {r r' : Reassembler} {P : Packet → Prop} {p whole : Packet} {now : Instant}
    (h : r.Balanced P) (hP : ∀ p, P p → p.WellFormed ∧ p.decoded = p) (hp : P p)
    (ha : r.Answers p now (.complete whole) r') :
    whole.payload.length ≤ r.maxBytes + Limits.maximumMtu := by
  obtain ⟨hwell, hdecoded⟩ := hP p hp
  have hlt := hwell.payloadLength_lt
  cases ha with
  | whole =>
    have hbody : p.payload = p.body := (congrArg Packet.payload hdecoded).symm
    rw [hbody, hwell.length_body]
    omega
  | @completed part g ha _ _ hwhole =>
    have hgroup := h.group_of_admits ha
    have hcharged := h.bytes_of_admits ha
    have hle := h.bytes_le
    have hperm := FragmentGroup.insertPart_perm part.index p g.parts
    have hparts : whole.payload.length =
        total (·.2.payloadLength) (FragmentGroup.insertPart part.index p g.parts) := by
      have hknown := (h.parts_of_admits ha hp).known
      generalize FragmentGroup.insertPart part.index p g.parts = parts at hwhole hknown
      cases parts with
      | nil => cases hwhole
      | cons x parts =>
        obtain rfl := Option.some.inj hwhole
        have hall : ∀ q ∈ (x :: parts).map Prod.snd, q.WellFormed := by
          intro q hq
          obtain ⟨y, hy, rfl⟩ := List.mem_map.mp hq
          exact (hP _ (hknown y hy)).1
        have hlength := Packet.length_flatMap_body hall
        rwa [List.flatMap_map, total_map] at hlength
    have hheld : total (·.2.payloadLength) g.parts ≤ g.bytes := by
      rw [hgroup.bytes_eq]
      induction g.parts with
      | nil => exact Nat.le_refl _
      | cons x parts ih => exact Nat.add_le_add (Nat.le_add_right ..) ih
    rw [hparts, total_perm hperm, total_cons]
    show p.payloadLength + _ ≤ _
    omega

end Reassembler

/-! ### Messages that wait -/

namespace Lane

variable {α : Type} {l : Lane α} {Q : α → Prop} {a : α}

/-- Whatever waits in the lane satisfies `Q`. -/
def AllWaiting (l : Lane α) (Q : α → Prop) : Prop := ∀ (key : UInt16) (a : α), l.waiting[key]? = some a → Q a

theorem AllWaiting.clear (l : Lane α) (Q : α → Prop) : l.clear.AllWaiting Q := by
  intro key a ha
  simp [Lane.clear] at ha

theorem AllWaiting.releaseWith (h : l.AllWaiting Q) (fuel : Nat) :
    (∀ a ∈ (Lane.releaseWith fuel l).1, Q a) ∧ (Lane.releaseWith fuel l).2.AllWaiting Q := by
  induction fuel generalizing l with
  | zero => exact ⟨by simp [Lane.releaseWith], h⟩
  | succ n ih =>
    rw [Lane.releaseWith]
    cases hnext : l.waiting[l.ordered.value]? with
    | none => exact ⟨by simp, h⟩
    | some a =>
      have hrest : ({ l with
          ordered := l.ordered.next
          waiting := l.waiting.erase l.ordered.value } : Lane α).AllWaiting Q := by
        intro key b hb
        rw [Std.TreeMap.getElem?_erase] at hb
        split_ifs at hb
        exact h key b hb
      obtain ⟨hreleased, hkept⟩ := ih hrest
      exact ⟨List.forall_mem_cons.mpr ⟨h _ a hnext, hreleased⟩, hkept⟩

theorem AllWaiting.acceptOrdered (h : l.AllWaiting Q) (ha : Q a) (index : OrderingIndex) :
    (∀ b ∈ (l.acceptOrdered index a).1.delivered a, Q b) ∧ (l.acceptOrdered index a).2.AllWaiting Q := by
  rw [Lane.acceptOrdered]
  split_ifs
  · have hnext : ({ l with ordered := l.ordered.next } : Lane α).AllWaiting Q := h
    obtain ⟨hreleased, hkept⟩ := hnext.releaseWith l.waiting.size
    exact ⟨List.forall_mem_cons.mpr ⟨ha, hreleased⟩, hkept⟩
  · exact ⟨by simp [OrderedArrival.delivered], h⟩
  · refine ⟨by simp [OrderedArrival.delivered], fun key b hb => ?_⟩
    rw [Std.TreeMap.getElem?_insert] at hb
    split_ifs at hb
    · exact Option.some.inj hb ▸ ha
    · exact h key b hb

end Lane

namespace Lanes

variable {α : Type} {t t' : Lanes α} {Q : α → Prop} {a : α} {c : Channel} {index : OrderingIndex}

def AllWaiting (t : Lanes α) (Q : α → Prop) : Prop := ∀ c, (t.get c).AllWaiting Q

theorem AllWaiting.set (h : t.AllWaiting Q) {lane : Lane α} (hlane : lane.AllWaiting Q) (c : Channel) :
    Lanes.AllWaiting (t.set c lane) Q := by
  intro d
  rw [PerChannel.get_set]
  split_ifs
  · exact hlane
  · exact h d

theorem AllWaiting.clear (t : Lanes α) (Q : α → Prop) : t.clear.AllWaiting Q := by
  intro c
  rw [Lanes.clear, PerChannel.get_map]
  exact .clear _ Q

theorem AllWaiting.acceptOrdered (h : t.AllWaiting Q) (ha : Q a) {arrival : OrderedArrival α}
    (ht : t.acceptOrdered c index a = (arrival, t')) :
    (∀ b ∈ arrival.delivered a, Q b) ∧ t'.AllWaiting Q := by
  obtain ⟨hreleased, hkept⟩ := (h c).acceptOrdered ha index
  have harrival : (t.acceptOrdered c index a).1 = arrival := congrArg Prod.fst ht
  have hlanes : (t.acceptOrdered c index a).2 = t' := congrArg Prod.snd ht
  exact ⟨harrival ▸ hreleased, hlanes ▸ h.set hkept c⟩

theorem AllWaiting.acceptSequenced (h : t.AllWaiting Q) (ht : t.acceptSequenced? c index = some t') :
    t'.AllWaiting Q := by
  obtain ⟨lane, hlane, rfl⟩ := Option.map_eq_some_iff.mp ht
  rw [Lane.acceptSequenced?] at hlane
  split_ifs at hlane
  obtain rfl := Option.some.inj hlane
  have hwaiting : ({ t.get c with sequenced := index.next } : Lane α).AllWaiting Q := h c
  exact h.set hwaiting c

end Lanes

/-- Made of packets that satisfy `P`, and no longer than the limit. -/
def Delivery.MadeOf (P : Packet → Prop) (limit : Nat) (m : Delivery) : Prop :=
  ∃ o : Provenance, o.Sound P ∧ o.message = m ∧ m.payload.length ≤ limit + Limits.maximumMtu

namespace Intake

variable {x x' : Intake} {P : Packet → Prop} {limit : Nat} {p : Packet} {now : Instant}

/-- What is held was made of packets that satisfy `P`. -/
structure MadeOf (x : Intake) (P : Packet → Prop) (limit : Nat) : Prop where
  fragments : x.reassembler.Balanced P
  maxBytes_eq : x.reassembler.maxBytes = limit
  waiting : x.lanes.AllWaiting (Delivery.MadeOf P limit)

theorem madeOf_new (config : Config) (start : Instant) (P : Packet → Prop) :
    (Session.new config start).intake.MadeOf P config.maxReassemblyBytes where
  fragments := Reassembler.balanced_initial ..
  maxBytes_eq := rfl
  waiting c := by
    simp [Session.new, Inbox.intake, Session.inbox, Lanes.initial, Lane.AllWaiting]

theorem MadeOf.congr (h : x.MadeOf P limit) (hreassembler : x'.reassembler = x.reassembler)
    (hlanes : x'.lanes = x.lanes) : x'.MadeOf P limit :=
  ⟨hreassembler ▸ h.fragments, hreassembler ▸ h.maxBytes_eq, hlanes ▸ h.waiting⟩

theorem MadeOf.forget (h : x.MadeOf P limit) (hreassembler : x'.reassembler = x.reassembler.clear)
    (hlanes : x'.lanes = x.lanes.clear) : x'.MadeOf P limit :=
  ⟨hreassembler ▸ x.reassembler.balanced_clear, hreassembler ▸ h.maxBytes_eq, hlanes ▸ .clear _ _⟩

theorem MadeOf.step (hP : ∀ p, P p → p.WellFormed ∧ p.decoded = p) (hp : P p) (hstep : Step p now x x')
    (h : x.MadeOf P limit) : x'.MadeOf P limit ∧
      ∃ new, x'.output = x.output ++ new ∧ ∀ m ∈ new, Delivery.MadeOf P limit m := by
  have hanswers : ∀ {result r'}, x.reassembler.Answers p now result r' →
      r'.Balanced P ∧ r'.maxBytes = limit := fun ha =>
    ⟨h.fragments.answers hp ha, ha.maxBytes_eq.trans h.maxBytes_eq⟩
  have hwhole : ∀ {whole r'}, x.reassembler.Answers p now (.complete whole) r' →
      Delivery.MadeOf P limit (.ofPacket whole) := fun ha => by
    obtain ⟨o, ho, -, hmessage⟩ := h.fragments.exists_provenance hP hp ha
    exact ⟨o, ho, hmessage, h.maxBytes_eq ▸ h.fragments.length_le hP hp ha⟩
  cases hstep with
  | purge expiry =>
    have hpurged : (x.reassembler.purgeExpired now expiry).2.Balanced P := h.fragments.dropWhere _
    exact ⟨⟨hpurged, h.maxBytes_eq, h.waiting⟩, [], by simp⟩
  | held _ ha => exact ⟨⟨(hanswers ha).1, (hanswers ha).2, h.waiting⟩, [], by simp⟩
  | @unordered whole _ _ _ ha =>
    exact ⟨⟨(hanswers ha).1, (hanswers ha).2, h.waiting⟩, [.ofPacket whole], rfl, by simpa using hwhole ha⟩
  | ordered _ _ ha hlanes =>
    obtain ⟨hreleased, hkept⟩ := h.waiting.acceptOrdered (hwhole ha) hlanes
    exact ⟨⟨(hanswers ha).1, (hanswers ha).2, hkept⟩, _, rfl, hreleased⟩
  | @sequenced whole r' place lanes _ _ ha hlanes =>
    have hdropped : (r'.dropSuperseded place.channel
        (lanes.get (.ofNat place.channel)).sequenced).2.Balanced P := (hanswers ha).1.dropWhere _
    exact ⟨⟨hdropped, (hanswers ha).2, h.waiting.acceptSequenced hlanes⟩, [.ofPacket whole], rfl,
      by simpa using hwhole ha⟩

end Intake

namespace Session

variable {s s' : Session} {P : Packet → Prop} {limit : Nat} {data : Bytes} {now : Instant}

/-- What a datagram completes is made of the packets that came. -/
theorem madeOf_handleDatagram (hP : ∀ p, P p → p.WellFormed ∧ p.decoded = p)
    (hdata : ∀ p, .data p ∈ (Frame.read data).1 → P p) (h : s.intake.MadeOf P limit) :
    (s.handleDatagram data now).2.intake.MadeOf P limit ∧
      ∀ m ∈ s.completed data now, m.MadeOf P limit := by
  let I : Intake → Prop := fun x => x.MadeOf P limit ∧
    ∃ new, x.output = s.output.toList ++ new ∧ ∀ m ∈ new, Delivery.MadeOf P limit m
  have hstep : ∀ p, .data p ∈ (Frame.read data).1 → ∀ x x', Intake.Step p now x x' → I x → I x' := by
    intro p hp x x' hstep ⟨hmade, new, houtput, hnew⟩
    obtain ⟨hmade', new', houtput', hnew'⟩ := hmade.step hP (hdata p hp) hstep
    refine ⟨hmade', new ++ new', ?_, List.forall_mem_append.mpr ⟨hnew, hnew'⟩⟩
    rw [houtput', houtput, List.append_assoc]
  obtain ⟨hmade, new, houtput, hnew⟩ : I (s.handleDatagram data now).2.intake :=
    s.keep_handleDatagram hstep ⟨h, [], (List.append_nil _).symm, by simp⟩
  have hcompleted : s.completed data now = new := by
    rw [completed, show (s.handleDatagram data now).2.output.toList = _ from houtput,
      ← Fifo.length_toList, List.drop_left]
  exact ⟨hmade, hcompleted ▸ hnew⟩

end Session

namespace Party

variable {p : Party} {P : Packet → Prop} {limit : Nat}

theorem Reachable.madeOf_act (h : p.Reachable) (hP : ∀ p, P p → p.WellFormed ∧ p.decoded = p)
    (hmade : p.session.intake.MadeOf P limit) {action : Action}
    (haction : ∀ x, .data x ∈ action.decoded → P x) :
    (p.act action).session.intake.MadeOf P limit ∧ ∀ m ∈ p.completes action, m.MadeOf P limit := by
  by_cases hhandle : ∃ data now, action = .handle data now
  · obtain ⟨data, now, rfl⟩ := hhandle
    exact Session.madeOf_handleDatagram hP haction hmade
  · have hnone : p.completes action = [] := by
      cases action with
      | handle data now => exact absurd ⟨data, now, rfl⟩ hhandle
      | _ => rfl
    refine ⟨?_, by simp [hnone]⟩
    rcases (h.changes action).held_cases with ⟨hreassembler, hlanes⟩ | ⟨hreassembler, hlanes⟩ | hother
    · exact hmade.congr hreassembler hlanes
    · exact hmade.forget hreassembler hlanes
    · obtain ⟨data, now, heq, -⟩ := hother
      exact absurd ⟨data, now, heq⟩ hhandle

theorem Reachable.madeOf_acts (h : p.Reachable) (hP : ∀ p, P p → p.WellFormed ∧ p.decoded = p)
    (hmade : p.session.intake.MadeOf P limit) {actions : List Action}
    (hactions : ∀ x, .data x ∈ actions.flatMap Action.decoded → P x) :
    ∀ m ∈ p.completions actions, m.MadeOf P limit := by
  induction actions generalizing p with
  | nil => simp [completions]
  | cons action actions ih =>
    rw [List.flatMap_cons] at hactions
    obtain ⟨hnext, hfirst⟩ := h.madeOf_act hP hmade fun x hx => hactions x (List.mem_append_left _ hx)
    exact List.forall_mem_append.mpr ⟨hfirst,
      ih (h.act action) hnext fun x hx => hactions x (List.mem_append_right _ hx)⟩

/-- What was received, or still can be, was completed. -/
theorem received_subset_act (p : Party) (action : Action) :
    (p.act action).returned ++ (p.act action).session.output.toList ⊆
      p.returned ++ p.session.output.toList ++ p.completes action := by
  by_cases hclose : action = .close
  · subst hclose
    intro m hm
    have hreturned : m ∈ p.returned := by simpa [act, Session.close] using hm
    simp [hreturned]
  · obtain ⟨taken, hreturned, houtput⟩ := p.serves_act hclose
    rw [hreturned, List.append_assoc, ← houtput, List.append_assoc]
    exact fun _ => id

theorem received_subset_acts (p : Party) (actions : List Action) :
    (actions.foldl act p).returned ++ (actions.foldl act p).session.output.toList ⊆
      p.returned ++ p.session.output.toList ++ p.completions actions := by
  induction actions generalizing p with
  | nil => simp [completions]
  | cons action actions ih =>
    intro m hm
    have hstep := p.received_subset_act action
    rcases List.mem_append.mp (ih _ hm) with hearlier | hlater
    · rcases List.mem_append.mp (hstep hearlier) with hbefore | hfirst
      · exact List.mem_append_left _ hbefore
      · exact List.mem_append_right _ (List.mem_append_left _ hfirst)
    · exact List.mem_append_right _ (List.mem_append_right _ hlater)

/-- The length of a message that is received. It was made of packets that came in, at least one bit long,
and a byte is added for every eight bits that they leave unused. So the bytes are those that the bits ask
for just when fewer than eight are unused: if the message came whole, or if all fragments but the last are
of whole bytes. The bits are counted in a word, which has room for them if no more can be held than it
counts. -/
theorem length_of_returned (config : Config) (start : Instant) (actions : List Action) {m : Delivery}
    (hm : m ∈ (actions.foldl act (new config start)).returned) :
    ∃ o : Provenance, o.Sound (.data · ∈ actions.flatMap Action.decoded) ∧ o.message = m ∧
      0 < o.bits ∧ m.bitLength = o.bits % 2 ^ 32 ∧
      m.payload.length = bytesForBits o.bits + o.unused / 8 ∧
      (o.last.part = none → 1 ≤ m.bitLength ∧ m.payload.length = bytesForBits m.bitLength) ∧
      ((∀ p ∈ o.packets.dropLast, 8 ∣ p.bitLength) → o.unused < 8) ∧
      (8 * (config.maxReassemblyBytes + Limits.maximumMtu) < 2 ^ 32 →
        1 ≤ m.bitLength ∧ (m.payload.length = bytesForBits m.bitLength ↔ o.unused < 8)) := by
  have hcompleted : m ∈ (new config start).completions actions :=
    received_subset_acts (new config start) actions (List.mem_append_left _ hm)
  obtain ⟨o, ho, rfl, hlimit⟩ := (Reachable.new config start).madeOf_acts (fun _ => wellFormed_of_decoded)
    (Intake.madeOf_new config start _) (fun _ hx => hx) m hcompleted
  have hwell : ∀ p ∈ o.packets, p.WellFormed := fun p hp => (wellFormed_of_decoded (ho.known p hp)).1
  have hpos := Provenance.bits_pos hwell
  have hlength := Provenance.length_payload_eq hwell
  have hword : o.message.bitLength = o.bits % 2 ^ 32 := rfl
  refine ⟨o, ho, rfl, hpos, hword, hlength, fun hpart => ?_, Provenance.unused_lt_of_dvd, fun hroom => ?_⟩
  · have hwhole : o.packets = [o.last] := by
      rcases ho.fragments with ⟨hwhole, -⟩ | ⟨id, hparts⟩
      · exact hwhole
      · obtain ⟨k, hk⟩ := List.mem_iff_getElem?.mp ho.last_mem
        exact absurd (hparts k _ hk).symm (hpart ▸ Option.some_ne_none _)
    have hunused := Provenance.unused_lt_of_whole hwhole
    have hbits : o.bits = o.last.bitLength := by simp [Provenance.bits, hwhole]
    have hlt := (hwell _ ho.last_mem).bitLength_lt
    rw [hlength, hword, Nat.mod_eq_of_lt (by omega)]
    omega
  · have hle := Provenance.bits_le hwell
    have hlt : o.bits < 2 ^ 32 := by omega
    rw [hlength, hword, Nat.mod_eq_of_lt hlt]
    omega

/-- Two fragments of one bit each and a message of nine bits. -/
def slivers : List Action :=
  [.handle [0, 0, 40, 0, 79, 135, 150, 32, 128, 0, 1, 40, 0, 79, 143, 150, 32, 128, 0, 2, 39, 32, 7,
    128] 0, .receive, .receive]

/-- One byte is asked for, and two are received. -/
theorem length_of_returned_slivers :
    ∃ m ∈ (slivers.foldl act (new .default 0)).returned,
      m = { payload := [0x80, 0x80], bitLength := 2, reliability := .reliable, channel := 0 } ∧
      m.payload.length ≠ bytesForBits m.bitLength ∧
      ∃ o : Provenance, o.Sound (.data · ∈ slivers.flatMap Action.decoded) ∧ o.message = m ∧
        0 < o.bits ∧ ¬o.unused < 8 := by
  have hm : ({ payload := [0x80, 0x80], bitLength := 2, reliability := .reliable, channel := 0 } :
      Delivery) ∈ (slivers.foldl act (new .default 0)).returned := by
    decide +kernel
  have hlong : ([0x80, 0x80] : Bytes).length ≠ bytesForBits 2 := by decide
  obtain ⟨o, ho, hmessage, hpos, -, -, -, -, hexact⟩ := length_of_returned .default 0 slivers hm
  refine ⟨_, hm, rfl, hlong, o, ho, hmessage, hpos, fun hunused => ?_⟩
  exact hlong ((hexact (by decide)).2.mpr hunused)

end Party
end ReliableDatagram
