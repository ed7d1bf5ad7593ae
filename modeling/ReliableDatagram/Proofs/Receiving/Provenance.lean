import Mathlib.Data.List.Chain
import ReliableDatagram.Proofs.Receiving.Accounting
import ReliableDatagram.Proofs.Receiving.OrderedArrivals
import ReliableDatagram.Session.State

/-!
# What messages are made of

Fragments with one id and one count are put together, whatever their modes and their places are. The first
of them lends the message its mode and its channel; whether the message is in order is decided by the one
that came last. A `Provenance` keeps the two apart.
-/
namespace ReliableDatagram

/-- One preimage for each element makes a list of preimages. -/
theorem exists_map_eq {α β γ : Type} {f : α → γ} {g : β → γ} {Q : α → Prop} {l : List β}
    (h : ∀ b ∈ l, ∃ a, Q a ∧ f a = g b) : ∃ l' : List α, (∀ a ∈ l', Q a) ∧ l'.map f = l.map g := by
  induction l with
  | nil => exact ⟨[], by simp, rfl⟩
  | cons b l ih =>
    obtain ⟨a, ha, hfirst⟩ := h b List.mem_cons_self
    obtain ⟨l', hl', hmap⟩ := ih fun b hb => h b (List.mem_cons_of_mem _ hb)
    exact ⟨a :: l', List.forall_mem_cons.mpr ⟨ha, hl'⟩, by rw [List.map_cons, List.map_cons, hfirst, hmap]⟩

/-- The packets that a message was made of, and the one of them that came last. -/
structure Provenance where
  first : Packet
  rest : List Packet
  last : Packet

namespace Provenance

def packets (o : Provenance) : List Packet := o.first :: o.rest

/-- The packets as one message, with the mode and the channel of the first one. -/
def message (o : Provenance) : Delivery :=
  { payload := o.packets.flatMap Packet.body
    bitLength := total Packet.bitLength o.packets % (Limits.largestBitLength + 1)
    reliability := o.first.reliability
    channel := (o.first.place.map (·.channel)).getD 0 }

/-- The channel on which the order was checked. -/
def channel (o : Provenance) : Channel := .ofNat (o.last.place.getD {}).channel

/-- The index by which the order was checked. -/
def index (o : Provenance) : OrderingIndex := (o.last.place.getD {}).index

def isOrderedOn (c : Channel) (o : Provenance) : Bool :=
  o.last.reliability.isOrdered && o.channel == c

def isSequencedOn (c : Channel) (o : Provenance) : Bool :=
  o.last.reliability.isSequenced && o.channel == c

/-- All packets satisfy `P`. There is one, which is no fragment, or they are all fragments under one id. -/
structure Sound (o : Provenance) (P : Packet → Prop) : Prop where
  known : ∀ p ∈ o.packets, P p
  last_mem : o.last ∈ o.packets
  fragments : (o.packets = [o.last] ∧ o.last.part = none) ∨
    ∃ id, ∀ (k : Nat) (p : Packet), o.packets[k]? = some p →
      p.part = some { id, index := k, count := o.packets.length }

variable {o : Provenance} {P : Packet → Prop} {c : Channel}

theorem isOrderedOn_iff : o.isOrderedOn c = true ↔ o.last.reliability.isOrdered = true ∧ o.channel = c := by
  simp [isOrderedOn]

theorem isSequencedOn_iff :
    o.isSequencedOn c = true ↔ o.last.reliability.isSequenced = true ∧ o.channel = c := by
  simp [isSequencedOn]

theorem not_isSequencedOn_of_isOrderedOn {d : Channel} (h : o.isOrderedOn c = true) :
    o.isSequencedOn d = false := by
  have hmode := Reliability.not_isSequenced_of_isOrdered (isOrderedOn_iff.mp h).1
  simp [isSequencedOn, hmode]

/-- All packets say the same mode and the same place. -/
def Uniform (o : Provenance) : Prop :=
  ∀ p ∈ o.packets, p.reliability = o.last.reliability ∧ p.place = o.last.place

/-- Fragments that are put together although they say different modes or different places. -/
def Confusable (p q : Packet) : Prop :=
  ∃ a b : Part, p.part = some a ∧ q.part = some b ∧ a.id = b.id ∧ a.count = b.count ∧
    (p.reliability ≠ q.reliability ∨ p.place ≠ q.place)

/-- Only such fragments make a message that is not uniform. -/
theorem Sound.uniform_or_confusable (h : o.Sound P) :
    o.Uniform ∨ ∃ p q, P p ∧ P q ∧ Confusable p q := by
  refine or_iff_not_imp_left.mpr fun hmixed => ?_
  obtain ⟨p, hp, hdiffer⟩ : ∃ p ∈ o.packets,
      ¬(p.reliability = o.last.reliability ∧ p.place = o.last.place) := by
    simpa [Uniform] using hmixed
  rcases h.fragments with ⟨hone, -⟩ | ⟨id, hparts⟩
  · rw [hone, List.mem_singleton] at hp
    exact absurd ⟨by rw [hp], by rw [hp]⟩ hdiffer
  · obtain ⟨j, hj⟩ := List.mem_iff_getElem?.mp hp
    obtain ⟨k, hk⟩ := List.mem_iff_getElem?.mp h.last_mem
    exact ⟨p, o.last, h.known p hp, h.known _ h.last_mem, _, _, hparts j p hj, hparts k _ hk, rfl, rfl,
      not_and_or.mp hdiffer⟩

/-- A uniform message is reported with the mode and the channel by which its order was checked. -/
theorem Uniform.reported_eq (h : o.Uniform) : o.message.reliability = o.last.reliability ∧
    o.message.channel = (o.last.place.getD {}).channel := by
  obtain ⟨hmode, hplace⟩ := h o.first List.mem_cons_self
  refine ⟨hmode, ?_⟩
  rw [message, hplace]
  cases o.last.place <;> rfl

/-- A packet that is no fragment. -/
def ofWhole (p : Packet) : Provenance := { first := p, rest := [], last := p }

theorem sound_ofWhole {p : Packet} (hp : P p) (hpart : p.part = none) : (ofWhole p).Sound P where
  known _ hq := List.mem_singleton.mp hq ▸ hp
  last_mem := List.mem_singleton_self p
  fragments := Or.inl ⟨rfl, hpart⟩

/-- A packet that was read makes the message that it says. -/
theorem message_ofWhole {p : Packet} (hp : p.WellFormed) (hdecoded : p.decoded = p) :
    (ofWhole p).message = .ofPacket p := by
  have hbody : p.body = p.payload := congrArg Packet.payload hdecoded
  have hword : p.bitLength < Limits.largestBitLength + 1 :=
    Nat.lt_trans hp.bitLength_lt (by decide)
  simp [message, packets, ofWhole, Delivery.ofPacket, hbody, Nat.mod_eq_of_lt hword]

end Provenance

namespace FragmentGroup.Ascending

variable {parts : List (Nat × Packet)} {id : SplitId} {count : Nat} {P : Packet → Prop}

/-- In a full group a fragment stands at the place that its number tells. -/
theorem part_of_getElem? (h : Ascending parts id count P) (hfull : count ≤ parts.length) {k : Nat}
    {p : Packet} (hk : (parts.map Prod.snd)[k]? = some p) :
    p.part = some { id, index := k, count := (parts.map Prod.snd).length } := by
  have hall := h.map_fst_eq hfull
  have hlength : parts.length = count := by simpa using congrArg List.length hall
  rw [List.getElem?_map] at hk
  obtain ⟨x, hx, rfl⟩ := Option.map_eq_some_iff.mp hk
  have hindex : x.1 = k := by
    have hfirst : (parts.map Prod.fst)[k]? = some x.1 := by rw [List.getElem?_map, hx]; rfl
    rw [hall] at hfirst
    exact (List.getElem?_eq_some_iff.mp hfirst).2 ▸ List.getElem_range _
  rw [h.part_eq x (List.mem_of_getElem? hx), List.length_map, hlength, hindex]

end FragmentGroup.Ascending

namespace Reassembler

variable {r r' : Reassembler} {p whole : Packet} {now : Instant} {P : Packet → Prop}

/-- A fragment is rejected if its count is not that of the fragments held. -/
theorem insert_of_count_ne {part : Part} {g : FragmentGroup} (hpart : p.part = some part)
    (hheld : r.group? part.id = some g) (hcount : g.count ≠ part.count) :
    r.insert p now = (.rejected, r) := by
  rw [insert, hpart]
  simp only [hheld, if_pos hcount, ite_self]

/-- A complete message is made of what was held, and of the packet that completes it. -/
theorem Balanced.exists_provenance (h : r.Balanced P) (hP : ∀ p, P p → p.WellFormed ∧ p.decoded = p)
    (hp : P p) (ha : r.Answers p now (.complete whole) r') :
    ∃ o : Provenance, o.Sound P ∧ o.last = p ∧ o.message = .ofPacket whole := by
  cases ha with
  | whole hpart =>
    obtain ⟨hwell, hdecoded⟩ := hP p hp
    exact ⟨.ofWhole p, Provenance.sound_ofWhole hp hpart, rfl,
      Provenance.message_ofWhole hwell hdecoded⟩
  | @completed part g ha hlast _ hwhole =>
    have hascending := h.parts_of_admits ha hp
    have hlength := FragmentGroup.length_insertPart part.index p g.parts
    have hmem : (part.index, p) ∈ FragmentGroup.insertPart part.index p g.parts :=
      (FragmentGroup.insertPart_perm part.index p g.parts).mem_iff.mpr List.mem_cons_self
    generalize FragmentGroup.insertPart part.index p g.parts = parts at hascending hlength hmem hwhole
    cases parts with
    | nil => simp at hmem
    | cons x parts =>
      obtain rfl := Option.some.inj hwhole
      refine ⟨⟨x.2, parts.map Prod.snd, p⟩, ⟨fun q hq => ?_, ?_, Or.inr ⟨part.id, fun k q hq => ?_⟩⟩,
        rfl, ?_⟩
      · obtain ⟨y, hy, rfl⟩ := List.mem_map.mp (show q ∈ (x :: parts).map Prod.snd from hq)
        exact hascending.known y hy
      · exact List.mem_map_of_mem (f := Prod.snd) hmem
      · exact hascending.part_of_getElem? (hlength ▸ hlast) hq
      · simp [Provenance.message, Provenance.packets, Delivery.ofPacket, total_map, List.flatMap_map]

end Reassembler

namespace Lane

section order

variable {α : Type} {l l' : Lane α} {delivered waiting : List (Call α × Nat)}

theorem Rests.congr (h : l.Rests delivered waiting) (hordered : l'.ordered = l.ordered)
    (hwaiting : l'.waiting = l.waiting) : l'.Rests delivered waiting := by
  refine ⟨⟨?_, h.index_eq, ?_, ?_, h.distinct, ?_⟩, ?_⟩
  · rw [hordered, h.ordered_eq]
  · rw [hwaiting]
    exact h.getElem?_iff
  · rw [hwaiting, h.size_eq]
  · rw [hordered]
    exact h.near
  · rw [hordered, hwaiting]
    exact h.next_missing

/-- What has been delivered stays so when the lane forgets what waits. -/
theorem Rests.clear (h : l.Rests delivered waiting) : l.clear.Rests delivered [] := by
  refine ⟨⟨h.ordered_eq, h.index_eq, ?_, Std.TreeMap.size_emptyc, .nil, by simp⟩, ?_⟩
  · simp [Lane.clear]
  · exact Std.TreeMap.getElem?_emptyc

theorem sequenced_releaseWith (fuel : Nat) (l : Lane α) :
    (l.releaseWith fuel).2.sequenced = l.sequenced := by
  induction fuel generalizing l with
  | zero => rfl
  | succ n ih =>
    rw [releaseWith]
    cases l.waiting[l.ordered.value]? with
    | none => rfl
    | some a => exact ih _

theorem sequenced_acceptOrdered (l : Lane α) (index : OrderingIndex) (a : α) :
    (l.acceptOrdered index a).2.sequenced = l.sequenced := by
  rw [acceptOrdered]
  split_ifs
  · exact sequenced_releaseWith _ _
  · rfl
  · rfl

end order

/-- The messages `os` came out in this order: the ordered ones of the channel under the indices from zero on,
the sequenced ones each under a newer index than the one before. What waits has a provenance too. -/
structure Attributed (l : Lane Delivery) (c : Channel) (P : Packet → Prop) (os : List Provenance) :
    Prop where
  ordered : ∃ delivered waiting : List (Call Delivery × Nat), l.Rests delivered waiting ∧
    delivered.map (fun x => (x.1.item, x.1.index)) =
      (os.filter (Provenance.isOrderedOn c)).map (fun o => (o.message, o.index)) ∧
    ∀ x ∈ waiting, ∃ o : Provenance, (o.Sound P ∧ o.isOrderedOn c = true) ∧
      (o.message, o.index) = (x.1.item, x.1.index)
  newer : (os.filter (Provenance.isSequencedOn c)).IsChain fun o o' =>
    o'.index.isOlderThan o.index.next = false
  sequenced_eq : ∀ o ∈ (os.filter (Provenance.isSequencedOn c)).getLast?, l.sequenced = o.index.next

namespace Attributed

variable {l l' : Lane Delivery} {c : Channel} {P : Packet → Prop} {os : List Provenance}
  {o : Provenance}

theorem new (c : Channel) (P : Packet → Prop) : ({} : Lane Delivery).Attributed c P [] :=
  ⟨⟨[], [], rests_new, rfl, by simp⟩, .nil, by simp⟩

theorem index_eq (h : l.Attributed c P os) {k : Nat}
    (hk : (os.filter (Provenance.isOrderedOn c))[k]? = some o) : o.index = .ofNat k := by
  obtain ⟨delivered, waiting, hrests, hsame, -⟩ := h.ordered
  have hmap := congrArg (·[k]?) hsame
  simp only [List.getElem?_map, hk, Option.map_some] at hmap
  obtain ⟨x, hx, heq⟩ := Option.map_eq_some_iff.mp hmap
  exact (congrArg Prod.snd heq).symm.trans (hrests.index_eq k x hx)

theorem clear (h : l.Attributed c P os) : l.clear.Attributed c P os := by
  obtain ⟨delivered, waiting, hrests, hsame, -⟩ := h.ordered
  exact ⟨⟨delivered, [], hrests.clear, hsame, by simp⟩, h.newer, h.sequenced_eq⟩

/-- Messages of other kinds or other channels are no business of the lane. -/
theorem append_others (h : l.Attributed c P os) {new : List Provenance}
    (hordered : ∀ o ∈ new, o.isOrderedOn c = false)
    (hsequenced : ∀ o ∈ new, o.isSequencedOn c = false) : l.Attributed c P (os ++ new) := by
  have hnone : new.filter (Provenance.isOrderedOn c) = [] := by simpa using hordered
  have hnone' : new.filter (Provenance.isSequencedOn c) = [] := by simpa using hsequenced
  constructor
  · rw [List.filter_append, hnone, List.append_nil]
    exact h.ordered
  all_goals rw [List.filter_append, hnone', List.append_nil]
  · exact h.newer
  · exact h.sequenced_eq

/-- A sequenced message is accepted if it is no older than what comes next. -/
theorem acceptSequenced (h : l.Attributed c P os) (ho : o.isSequencedOn c = true)
    (hl : l.acceptSequenced? o.index = some l') : l'.Attributed c P (os ++ [o]) := by
  rw [acceptSequenced?] at hl
  split_ifs at hl with hstale
  obtain rfl := Option.some.inj hl
  have hordered : o.isOrderedOn c = false := by
    have hmode := Reliability.not_isOrdered_of_isSequenced (Provenance.isSequencedOn_iff.mp ho).1
    simp [Provenance.isOrderedOn, hmode]
  have hfilter : (os ++ [o]).filter (Provenance.isSequencedOn c) =
      os.filter (Provenance.isSequencedOn c) ++ [o] := by simp [ho]
  obtain ⟨delivered, waiting, hrests, hsame, hwaiting⟩ := h.ordered
  refine ⟨⟨delivered, waiting, hrests.congr rfl rfl, ?_, hwaiting⟩, ?_, ?_⟩
  · simpa [hordered] using hsame
  · rw [hfilter]
    refine List.isChain_append.mpr ⟨h.newer, .singleton o, fun x hx y hy => ?_⟩
    obtain rfl : o = y := by simpa using hy
    have hnext := h.sequenced_eq x hx
    rw [isSequencedStale, hnext] at hstale
    exact Bool.eq_false_iff.mpr hstale
  · rw [hfilter, List.getLast?_concat]
    intro x hx
    obtain rfl := Option.some.inj hx
    rfl

/-- What an ordered message makes deliverable came in the order of the indices. -/
theorem acceptOrdered (h : l.Attributed c P os) (hsound : o.Sound P) (ho : o.isOrderedOn c = true) :
    ∃ new : List Provenance, (∀ o ∈ new, o.Sound P ∧ o.isOrderedOn c = true) ∧
      (l.acceptOrdered o.index o.message).1.delivered o.message = new.map Provenance.message ∧
      (l.acceptOrdered o.index o.message).2.Attributed c P (os ++ new) := by
  obtain ⟨delivered, waiting, hrests, hsame, hwaiting⟩ := h.ordered
  let x : Call Delivery × Nat :=
    ({ channel := c, index := o.index, item := o.message
       answer := (l.acceptOrdered o.index o.message).1 }, 0)
  obtain ⟨released, waiting', hdelivered, hrests', hperm, -⟩ := hrests.acceptOrdered (x := x) rfl
  have hattributed : ∀ y ∈ released ++ waiting', ∃ o : Provenance,
      (o.Sound P ∧ o.isOrderedOn c = true) ∧ (o.message, o.index) = (y.1.item, y.1.index) := by
    intro y hy
    rcases List.mem_cons.mp (hperm.subset (List.mem_append_left _ hy)) with rfl | hy
    · exact ⟨o, ⟨hsound, ho⟩, rfl⟩
    · exact hwaiting y hy
  obtain ⟨new, hnew, hmap⟩ := exists_map_eq fun y hy => hattributed y (List.mem_append_left _ hy)
  have hfilter : new.filter (Provenance.isOrderedOn c) = new :=
    List.filter_eq_self.mpr fun o ho => (hnew o ho).2
  have hnone : new.filter (Provenance.isSequencedOn c) = [] := by
    refine List.filter_eq_nil_iff.mpr fun o ho => ?_
    simp [Provenance.not_isSequencedOn_of_isOrderedOn (hnew o ho).2]
  refine ⟨new, hnew, ?_, ⟨delivered ++ released, waiting', hrests', ?_, fun y hy => ?_⟩, ?_, ?_⟩
  · have hmessages := congrArg (List.map Prod.fst) hmap
    simp only [List.map_map, Function.comp_def] at hmessages
    exact hdelivered.trans hmessages.symm
  · rw [List.filter_append, hfilter, List.map_append, List.map_append, hsame, hmap]
  · exact hattributed y (List.mem_append_right _ hy)
  all_goals rw [List.filter_append, hnone, List.append_nil]
  · exact h.newer
  · rw [sequenced_acceptOrdered]
    exact h.sequenced_eq

end Attributed
end Lane

namespace Lanes

variable {t t' : Lanes Delivery} {P : Packet → Prop} {os : List Provenance} {o : Provenance} {place : Place}

section attributed

variable (h : ∀ c, (t.get c).Attributed c P os)
include h

/-- A message without order is no business of any lane. -/
theorem attributed_append (hordered : o.last.reliability.isOrdered = false)
    (hsequenced : o.last.reliability.isSequenced = false) (c : Channel) :
    (t.get c).Attributed c P (os ++ [o]) :=
  (h c).append_others (by simp [Provenance.isOrderedOn, hordered])
    (by simp [Provenance.isSequencedOn, hsequenced])

variable (hplace : o.last.place = some place)
include hplace

theorem attributed_acceptOrdered (ho : o.Sound P) (hordered : o.last.reliability.isOrdered = true)
    {arrival : OrderedArrival Delivery}
    (ht : t.acceptOrdered (.ofNat place.channel) place.index o.message = (arrival, t')) :
    ∃ new : List Provenance, (∀ o ∈ new, o.Sound P) ∧
      arrival.delivered o.message = new.map Provenance.message ∧
      ∀ c, (t'.get c).Attributed c P (os ++ new) := by
  have hindex : o.index = place.index := by rw [Provenance.index, hplace]; rfl
  have hchannel : o.channel = .ofNat place.channel := by rw [Provenance.channel, hplace]; rfl
  obtain ⟨new, hnew, hdelivered, hlane⟩ :=
    (h _).acceptOrdered ho (Provenance.isOrderedOn_iff.mpr ⟨hordered, hchannel⟩)
  rw [hindex] at hdelivered hlane
  have harrival : (t.acceptOrdered (.ofNat place.channel) place.index o.message).1 = arrival :=
    congrArg Prod.fst ht
  have hlanes : t' = (t.acceptOrdered (.ofNat place.channel) place.index o.message).2 :=
    (congrArg Prod.snd ht).symm
  refine ⟨new, fun o ho => (hnew o ho).1, harrival ▸ hdelivered, fun c => ?_⟩
  rw [hlanes, Lanes.acceptOrdered, PerChannel.get_set]
  split_ifs with hc
  · exact hc ▸ hlane
  · refine (h c).append_others (fun o ho => ?_) fun o ho => ?_
    · have hown := (Provenance.isOrderedOn_iff.mp (hnew o ho).2).2
      exact Bool.eq_false_iff.mpr fun h => hc ((Provenance.isOrderedOn_iff.mp h).2.symm.trans hown)
    · exact Provenance.not_isSequencedOn_of_isOrderedOn (hnew o ho).2

theorem attributed_acceptSequenced (hsequenced : o.last.reliability.isSequenced = true)
    (ht : t.acceptSequenced? (.ofNat place.channel) place.index = some t') (c : Channel) :
    (t'.get c).Attributed c P (os ++ [o]) := by
  have hindex : o.index = place.index := by rw [Provenance.index, hplace]; rfl
  have hchannel : o.channel = .ofNat place.channel := by rw [Provenance.channel, hplace]; rfl
  have hown : o.isSequencedOn (.ofNat place.channel) = true :=
    Provenance.isSequencedOn_iff.mpr ⟨hsequenced, hchannel⟩
  obtain ⟨lane, hlane, rfl⟩ := Option.map_eq_some_iff.mp ht
  rw [← hindex] at hlane
  rw [PerChannel.get_set]
  split_ifs with hc
  · exact hc ▸ (h _).acceptSequenced hown hlane
  · refine (h c).append_others ?_ ?_
    · have hmode := Reliability.not_isOrdered_of_isSequenced hsequenced
      simp [Provenance.isOrderedOn, hmode]
    · have hother : o.channel ≠ c := fun heq => hc (heq.symm.trans hchannel)
      simp [Provenance.isSequencedOn, hother]

end attributed

end Lanes
end ReliableDatagram
