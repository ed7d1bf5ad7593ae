import ReliableDatagram.Proofs.Party.Changes
import ReliableDatagram.Proofs.Receiving.Provenance
import ReliableDatagram.Proofs.Session.Intake
import ReliableDatagram.Proofs.Wire.Decoded

/-!
# Sequenced messages in pieces

A group remembers the place of the fragment that opened it. If that fragment was sequenced, the place is
never older than what its channel reads next: a fragment behind the channel opens no group, and when the
channel moves on, the groups that fall behind it are dropped. No other fragment of the group matters for
this, so the fragments may disagree about mode and place.
-/
namespace ReliableDatagram

namespace Lanes

variable {α : Type}

/-- A place on a channel that has not gone past it. -/
structure Awaits (t : Lanes α) (place : Place) : Prop where
  channel_lt : place.channel < Limits.channels
  current : (t.get (.ofNat place.channel)).isSequencedStale place.index = false

variable {t t' : Lanes α} {place place' : Place} {c : Channel}

/-- Only the read indices of the sequenced messages matter. -/
theorem Awaits.congr (h : t.Awaits place) (ht : ∀ c, (t'.get c).sequenced = (t.get c).sequenced) :
    t'.Awaits place := by
  refine ⟨h.channel_lt, ?_⟩
  rw [Lane.isSequencedStale, ht]
  exact h.current

/-- The channel goes past a place, and no other channel moves. -/
theorem Awaits.acceptSequenced {index : OrderingIndex} (h : t.Awaits place)
    (ht : t.acceptSequenced? c index = some t') (hc : Channel.ofNat place.channel = c →
      place.index.isOlderThan (t'.get c).sequenced = false) : t'.Awaits place := by
  refine ⟨h.channel_lt, ?_⟩
  by_cases hsame : Channel.ofNat place.channel = c
  · rw [hsame]
    exact hc hsame
  · obtain ⟨lane, -, rfl⟩ := Option.map_eq_some_iff.mp ht
    rw [PerChannel.get_set, if_neg hsame]
    exact h.current

theorem sequenced_acceptOrdered (t : Lanes α) (c d : Channel) (index : OrderingIndex) (a : α) :
    ((t.acceptOrdered c index a).2.get d).sequenced = (t.get d).sequenced := by
  rw [acceptOrdered, PerChannel.get_set]
  split_ifs with hd
  · rw [hd]
    exact Lane.sequenced_acceptOrdered ..
  · rfl

end Lanes

namespace FragmentGroup

variable {g : FragmentGroup} {t t' : Lanes Delivery} {p : Packet} {part : Part} {now : Instant}

/-- The group was opened by a fragment that it holds. If that one is sequenced, its channel has not gone
past it. -/
structure Current (g : FragmentGroup) (t : Lanes Delivery) : Prop where
  opened : ∃ x ∈ g.parts, g.sequenced = x.2.sequencedPlace
  awaited : ∀ place, g.sequenced = some place → t.Awaits place

/-- Fragments that come later change nothing about it. -/
theorem Current.insertPart (h : g.Current t) (index : Nat) (p : Packet) (bytes : Nat) :
    ({ g with parts := insertPart index p g.parts, bytes } : FragmentGroup).Current t := by
  obtain ⟨x, hx, hplace⟩ := h.opened
  refine ⟨⟨x, ?_, hplace⟩, h.awaited⟩
  exact (insertPart_perm index p g.parts).mem_iff.mpr (List.mem_cons_of_mem _ hx)

theorem current_start (hp : ∀ place, p.sequencedPlace = some place → t.Awaits place) (bytes : Nat) :
    ({ start p part now with
        parts := insertPart part.index p (start p part now).parts
        bytes } : FragmentGroup).Current t :=
  ⟨⟨(part.index, p), List.mem_singleton_self _, rfl⟩, hp⟩

end FragmentGroup

namespace Reassembler

variable {r r' : Reassembler} {t t' : Lanes Delivery} {p : Packet} {now : Instant} {result : Reassembly}

/-- No group is behind its channel. -/
def Current (r : Reassembler) (t : Lanes Delivery) : Prop := ∀ x ∈ r.groups, x.2.Current t

theorem Current.congr (h : r.Current t) (ht : ∀ c, (t'.get c).sequenced = (t.get c).sequenced) :
    r.Current t' := fun x hx =>
  ⟨(h x hx).opened, fun place hplace => ((h x hx).awaited place hplace).congr ht⟩

theorem Current.dropWhere (h : r.Current t) (doomed : FragmentGroup → Bool) :
    (r.dropWhere doomed).2.Current t := fun x hx => h x (List.mem_filter.mp hx).1

/-- A packet that its channel has not gone past may open a group. -/
theorem Current.answers (h : r.Current t)
    (hp : ∀ place, p.sequencedPlace = some place → t.Awaits place) (ha : r.Answers p now result r') :
    r'.Current t := by
  cases ha with
  | whole | rejected | again | overflow => exact h
  | @held part g ha =>
    intro x hx
    rcases List.mem_cons.mp hx with rfl | hx
    · rcases ha.group with hgroup | ⟨-, rfl⟩
      · exact (h _ (mem_of_group? hgroup)).insertPart ..
      · exact FragmentGroup.current_start hp _
    · exact h x (mem_eraseGroup.mp hx).1
  | completed => exact fun x hx => h x (mem_eraseGroup.mp hx).1

/-- When a channel moves on, the groups that fall behind it go. -/
theorem Current.dropSuperseded (h : r.Current t) {place : Place} (hplace : place.channel < Limits.channels)
    (ht : t.acceptSequenced? (.ofNat place.channel) place.index = some t') :
    (r.dropSuperseded place.channel (t'.get (.ofNat place.channel)).sequenced).2.Current t' := by
  intro x hx
  obtain ⟨hx, hkept⟩ := List.mem_filter.mp hx
  refine ⟨(h x hx).opened, fun place' hplace' => ?_⟩
  have hawaited := (h x hx).awaited place' hplace'
  refine hawaited.acceptSequenced ht fun hsame => ?_
  have hchannel : place'.channel = place.channel := by
    have hval := congrArg Fin.val hsame
    simpa [Channel.ofNat, Nat.mod_eq_of_lt hawaited.channel_lt, Nat.mod_eq_of_lt hplace] using hval
  simpa [hplace', hchannel] using hkept

end Reassembler

/-- No incomplete sequenced message is behind its channel. -/
def Intake.Current (x : Intake) : Prop := x.reassembler.Current x.lanes

/-- A packet is read with a channel in range, so channels that are told apart differ. -/
theorem Intake.Current.step {x x' : Intake} {p : Packet} {now : Instant} (hp : p.WellFormed)
    (hstep : Step p now x x') (h : x.Current) : x'.Current := by
  have hawaits : x.Admits p → ∀ place, p.sequencedPlace = some place → x.lanes.Awaits place := by
    intro hadmits place hplace
    exact ⟨hp.channel_lt place (Packet.sequencedPlace_eq_some.mp hplace).2,
      Bool.eq_false_iff.mpr (hadmits place hplace)⟩
  cases hstep with
  | purge expiry =>
    show (x.reassembler.purgeExpired now expiry).2.Current x.lanes
    exact Reassembler.Current.dropWhere h _
  | held hadmits hanswers => exact Reassembler.Current.answers h (hawaits hadmits) hanswers
  | unordered hsequenced _ hanswers =>
    exact Reassembler.Current.answers h (hawaits (admits_of_unsequenced hsequenced x)) hanswers
  | @ordered whole r' place _ _ hordered _ hanswers hlanes =>
    have hsequenced := Reliability.not_isSequenced_of_isOrdered hordered
    have hheld := Reassembler.Current.answers h (hawaits (admits_of_unsequenced hsequenced x)) hanswers
    obtain ⟨-, rfl⟩ := Prod.mk.inj hlanes
    exact hheld.congr fun d => x.lanes.sequenced_acceptOrdered _ d place.index (.ofPacket whole)
  | @sequenced whole r' place lanes hadmits hplace hanswers hlanes =>
    have hheld := Reassembler.Current.answers h (hawaits hadmits) hanswers
    exact hheld.dropSuperseded (hawaits hadmits place hplace).channel_lt hlanes

theorem Session.Changes.current {s s' : Session} {action : Action} (hs : s.Changes action s')
    (h : s.intake.Current) : s'.intake.Current := by
  rcases hs.held_cases with ⟨hreassembler, hlanes⟩ | ⟨hreassembler, -⟩ | ⟨data, now, -, rfl⟩
  · show s'.reassembler.Current s'.lanes
    rw [hreassembler, hlanes]
    exact h
  · show s'.reassembler.Current s'.lanes
    rw [hreassembler]
    exact fun x hx => by cases hx
  · exact s.keep_handleDatagram
      (fun p hp x x' => Intake.Current.step (Frame.wellFormed_of_mem_read hp).1) h

namespace Party

/-- Whatever datagrams come, a group that a sequenced fragment opened is never behind the index that its
channel reads next. The fragment is among those that the group holds. -/
theorem Reachable.held_is_current {p : Party} (h : p.Reachable) {id : SplitId} {g : FragmentGroup}
    (hgroup : (id, g) ∈ p.session.reassembler.groups) :
    (∃ x ∈ g.parts, g.sequenced = x.2.sequencedPlace) ∧
      ∀ place, g.sequenced = some place → place.channel < Limits.channels ∧
        place.index.isOlderThan (p.session.lanes.get (.ofNat place.channel)).sequenced = false := by
  have hcurrent : p.session.intake.Current := by
    refine h.keep (P := fun s => s.intake.Current) (fun config now => ?_) fun s s' action hs => hs.current
    simp [Intake.Current, Reassembler.Current, Session.new, Inbox.intake, Session.inbox]
  have hg := hcurrent _ hgroup
  exact ⟨hg.opened, fun place hplace =>
    ⟨(hg.awaited place hplace).channel_lt, (hg.awaited place hplace).current⟩⟩

/-- Two sequenced messages are in pieces, the indices have wrapped around, and one group has taken a
fragment of another mode and another channel. -/
def torn : List Action :=
  [.handle [0, 0, 65, 191, 255, 184, 7, 0, 1, 65, 255, 255, 56, 7, 0, 2, 65, 128, 1, 64, 2, 124, 60,
    248, 7, 0, 3, 17, 128, 0, 64, 2, 60, 60, 184, 7, 0, 4, 50, 128, 3, 192, 2, 124, 124, 248, 7] 0]

/-- A message between the two comes out. -/
def overtaken : List Action := torn ++ [.handle [0, 5, 17, 128, 0, 184, 7] 1]

theorem held_is_current_overtaken :
    (torn.foldl act (new .default 0)).session.reassembler.groups.map Prod.fst = [⟨9⟩, ⟨8⟩] ∧
      ∃ g : FragmentGroup,
        (overtaken.foldl act (new .default 0)).session.reassembler.groups = [(⟨9⟩, g)] ∧
        g.sequenced = some { channel := 3, index := .ofNat 2 } ∧
        g.parts.map (·.2.sequencedPlace) = [some { channel := 3, index := .ofNat 2 }, none] ∧
        (∃ x ∈ g.parts, g.sequenced = x.2.sequencedPlace) ∧
        ∀ place, g.sequenced = some place → place.channel < Limits.channels ∧
          place.index.isOlderThan
            ((overtaken.foldl act (new .default 0)).session.lanes.get
              (.ofNat place.channel)).sequenced = false := by
  refine ⟨by decide +kernel, ?_⟩
  have hgroups : (overtaken.foldl act (new .default 0)).session.reassembler.groups.map
      (fun x => (x.1, x.2.sequenced, x.2.parts.map (·.2.sequencedPlace))) =
      [(⟨9⟩, some { channel := 3, index := .ofNat 2 },
        [some { channel := 3, index := .ofNat 2 }, none])] := by
    decide +kernel
  generalize hp : overtaken.foldl act (new .default 0) = p at hgroups ⊢
  have hreachable : p.Reachable := hp ▸ (Reachable.new .default 0).acts overtaken
  obtain ⟨⟨id, g⟩, hg, heq⟩ := List.map_eq_singleton_iff.mp hgroups
  obtain ⟨rfl, hplace, hparts⟩ : id = ⟨9⟩ ∧ _ ∧ _ := by simpa using heq
  exact ⟨g, hg, hplace, hparts, hreachable.held_is_current (hg ▸ List.mem_singleton_self _)⟩

end Party
end ReliableDatagram
