import ReliableDatagram.Proofs.Network.Completeness
import ReliableDatagram.Proofs.Receiving.Newest

/-!
# Sequenced delivery

A sender has accepted sequenced messages only, and packets of theirs arrive at a new receiver, in any order,
repeatedly or not at all. A message comes out if all of its packets arrive and no newer one of its channel
was complete before it, and nothing else comes out.
-/
namespace ReliableDatagram

/-- The invariant of the inbox; and if nothing was lost, what came out are the newest messages. -/
def Inbox.FollowsNewest (ms : List Shipment) (i : Inbox) (arrived : Arrivals) : Prop :=
  ∃ seen out, i.Receives ms arrived seen [] out ∧
    (i.Unhindered arrived → i.lanes.Leads ms arrived out)

namespace Session

variable {ms : List Shipment} (hms : Manifest ms) (hspan : total Shipment.size ms ≤ Counter.span)
  (hsequenced : ∀ m ∈ ms, m.reliability.isSequenced = true)
include hms hspan hsequenced

theorem followsNewest_new (config : Config) (now : Instant) :
    (new config now).inbox.FollowsNewest ms [] := by
  refine ⟨∅, [], receives_new hms config now, fun _ => Lanes.leads_initial fun m hm => ?_⟩
  have hmc := Shipment.isSequencedOn_iff.mpr ⟨hsequenced m hm, rfl⟩
  exact Nat.le_of_lt (hms.index_lt_span hspan hm hmc)

/-- A packet that was not seen before. Only its own message may become complete by it. -/
theorem Sequences.exists_leads {s s' : Session} {arrived : Arrivals} {seen : Set Nat}
    {returned : List Delivery} {out : List Shipment} {m : Shipment} {j : Nat} {now : Instant}
    (hs : s.Sequences s' ms (arrived ++ [(m.first + j, now)]) seen returned out m j)
    (h : s.inbox.Receives ms arrived seen returned out) (hm : m ∈ ms) (hown : m.Owns (m.first + j))
    (hnew : m.first + j ∉ seen) (hleads : s.lanes.Leads ms arrived out) (hun : s.inbox.Unhindered arrived)
    (hun' : s'.inbox.Unhindered (arrived ++ [(m.first + j, now)])) :
    ∃ out', s'.inbox.Receives ms (arrived ++ [(m.first + j, now)]) (insert (m.first + j) seen) returned
        out' ∧ s'.lanes.Leads ms (arrived ++ [(m.first + j, now)]) out' := by
  have hq := hsequenced m hm
  have hmissing : ¬arrived.Completes m.Owns := fun hall => hnew ((h.completes_iff hun).mp hall _ hown)
  have hothers : ∀ y ∈ ms, y ≠ m →
      (Arrivals.Completes (arrived ++ [(m.first + j, now)]) y.Owns ↔ arrived.Completes y.Owns) :=
    fun y hy hym => Arrivals.completes_snoc_iff fun hy' => absurd (hms.eq_of_owns hy hm hy' hown) hym
  rcases hs.comes with ⟨hreceives, hlanes⟩ | ⟨hreceives, haccepted⟩
  · refine ⟨out, hreceives, ?_⟩
    rw [hlanes]
    refine hleads.pass hm hmissing hothers fun hall => ?_
    rw [← hlanes]
    exact hreceives.isPast_of_completes hun' hms hspan hm hq hall
  · refine ⟨out ++ [m], hreceives, hleads.lead hm hmissing hothers ?_ (fun y hy hprec hall => ?_)
      fun y hy => ?_⟩
    · exact (hreceives.completes_iff hun').mpr (hreceives.mem_out m (by simp)).2
    · have hpast := h.isPast_of_completes hun hms hspan hy hprec.sequenced_newer hall
      exact Lanes.not_isPast_of_acceptSequenced? haccepted
        (h.lanes.isPast_of_lt hms hspan hm hy hprec.on hprec.on_newer hprec.lt hpast)
    · exact (h.lanes.isPast_acceptSequenced_iff hms hspan hm hq haccepted hy (hsequenced y hy)).mp

theorem upholds_followsNewest : Upholds ms (Inbox.FollowsNewest ms) := by
  rintro s arrived m j c now hm hc ⟨seen, out, h, hleads⟩
  have htimeout : (s.handlePacket (m.packet j c).decoded now).arrivals.timeout = s.arrivals.timeout :=
    (s.handles_handleEntry (.data (m.packet j c).decoded) now).timeout_eq
  rcases handlePacket_cases h hms hspan hm hc now with ⟨acks, log, heq, hmeets⟩ | ⟨log, hinbox, hagain⟩
  · have hs := hmeets.acceptNew_of_isSequenced (hsequenced m hm) now
    rw [← heq] at hs
    generalize s.handlePacket (m.packet j c).decoded now = s' at htimeout hs ⊢
    by_cases hun' : s'.inbox.Unhindered (arrived ++ [(m.first + j, now)])
    · have hun : s.inbox.Unhindered arrived := hun'.of_append hs.invalid_le htimeout
      -- neither the log nor the acknowledgements have a part in it
      have hs : s.Sequences s' ms (arrived ++ [(m.first + j, now)]) seen [] out m j :=
        ⟨hs.invalid_le, hs.comes⟩
      obtain ⟨out', hreceives, hleads'⟩ := hs.exists_leads hms hspan hsequenced h hm hmeets.owns
        hmeets.new (hleads hun) hun hun'
      exact ⟨_, out', hreceives, fun _ => hleads'⟩
    · obtain ⟨out', hreceives⟩ := hs.settles
      exact ⟨_, out', hreceives, fun hun => absurd hun hun'⟩
  -- the number has come before, so nothing becomes complete
  · refine ⟨seen, out, hinbox ▸ hagain, fun hun' => ?_⟩
    have hlanes : (s.handlePacket (m.packet j c).decoded now).lanes = s.lanes :=
      congrArg Inbox.lanes hinbox
    have hun : s.inbox.Unhindered arrived :=
      hun'.of_append (Nat.le_of_eq (congrArg Inbox.invalid hinbox).symm) htimeout
    have hlast : m.first + j ∈ arrived.map Prod.fst := by
      rw [hinbox] at hun'
      exact (h.mem_seen_iff hun).mp ((hagain.mem_seen_iff hun').mpr (by simp))
    rw [show (s.handlePacket (m.packet j c).decoded now).inbox.lanes = s.lanes from hlanes]
    exact (hleads hun).stay fun y _ => Arrivals.completes_snoc_iff fun _ => hlast

end Session

theorem Shipment.Carries.owns_eq {m : Shipment} {a : Accepted} (h : m.Carries a) : a.Owns = m.Owns := by
  funext n
  rw [Accepted.Owns, Shipment.Owns, h.first_eq, h.size_eq]

section Carries

variable {ms : List Shipment} {f : Shipment → Accepted} {c : Channel} {i : Nat} {a : Accepted}

/-- In the line of a channel the shipments stand under their indices. -/
theorem Manifest.getElem?_line_iff (hms : Manifest ms) (hf : ∀ m ∈ ms, m.Carries (f m)) :
    ((ms.map f).filter (Accepted.isSequencedOn c))[i]? = some a ↔
      ∃ m ∈ ms, m.isSequencedOn c = true ∧ m.index = i ∧ f m = a := by
  have hindexed := hms.indexed_sequenced c
  rw [filter_isSequencedOn_map hf c fun m hm => hm, List.getElem?_map, Option.map_eq_some_iff]
  constructor
  · rintro ⟨m, hm, rfl⟩
    obtain ⟨hmem, hmc⟩ := List.mem_filter.mp (List.mem_of_getElem? hm)
    exact ⟨m, hmem, hmc, hindexed.index_eq hm, rfl⟩
  · rintro ⟨m, hm, hmc, rfl, rfl⟩
    exact ⟨m, hindexed.getElem?_index (List.mem_filter.mpr ⟨hm, hmc⟩), rfl⟩

/-- What is the newest of the shipments is the newest of the messages. -/
theorem Manifest.newest_iff (hms : Manifest ms) (hf : ∀ m ∈ ms, m.Carries (f m)) {arrived : Arrivals}
    {m : Shipment} (hm : m ∈ ms) (hmc : m.isSequencedOn c = true) :
    Newest ms arrived m ↔ arrived.Completes (f m).Owns ∧ ∀ (j : Nat) (b : Accepted), m.index < j →
      ((ms.map f).filter (Accepted.isSequencedOn c))[j]? = some b →
        ¬arrived.CompletesFirst b.Owns (f m).Owns := by
  have hchannel := (Shipment.isSequencedOn_iff.mp hmc).2
  rw [Newest, (hf m hm).owns_eq]
  refine and_congr_right fun _ => ⟨fun hnewest j b hlt hb => ?_, fun hnewest y hy hprec => ?_⟩
  · obtain ⟨y, hy, hyc, rfl, rfl⟩ := (hms.getElem?_line_iff hf).mp hb
    have hyc' := (Shipment.isSequencedOn_iff.mp hyc).2
    rw [(hf y hy).owns_eq]
    exact hnewest y hy ⟨hyc' ▸ hmc, hyc' ▸ hyc, hlt⟩
  · have hyc : c = Channel.ofNat y.channel :=
      hchannel.trans (Shipment.isSequencedOn_iff.mp hprec.on).2.symm
    have hline := (hms.getElem?_line_iff hf).mpr ⟨y, hy, hyc ▸ hprec.on_newer, rfl, rfl⟩
    rw [← (hf y hy).owns_eq]
    exact hnewest y.index (f y) hprec.lt hline

end Carries

namespace Party

/-- The packet waits for its first transmission, or it was emitted. -/
def Offers (p : Party) (x : Packet) : Prop :=
  x ∈ p.session.queued ∨ ∃ f ∈ p.emitted, .data x ∈ f.entries

variable {sender : Party} {ms : List Shipment}

theorem Sound.exists_of_offers (h : sender.Sound ms) {x : Packet} (hx : sender.Offers x) :
    ∃ m ∈ ms, x ∈ m.packets := by
  rcases hx with hqueued | ⟨f, hf, hx⟩
  · obtain ⟨priority, hx⟩ := Session.mem_queued.mp hqueued
    exact h.stocks.queued priority x hx
  · exact (h.emitted f hf).2 _ hx

/-- A message that takes three fragments, and a newer one. -/
def snapshots : List Action :=
  [.send (List.replicate 40 1) .low .reliableSequenced 3, .sendBits [0xA0] 3 .high .unreliableSequenced 3]

/-- All packets come, one fragment twice, and the newer message is complete before the last of them. -/
def outrun : List Datagram :=
  match (snapshots.foldl act (.new narrow 0)).session.queued with
  | [bits, first, second, third] =>
    [{ maxBytes := 1000, entries := [.data third, .data first], time := 5 },
     { maxBytes := 1000, entries := [.data bits, .data first], time := 3 },
     { maxBytes := 1000, entries := [.data second], time := 9 }]
  | _ => []

end Party
end ReliableDatagram
