import ReliableDatagram.Proofs.Network.Delivery
import ReliableDatagram.Proofs.Receiving.Completion

/-!
# Complete delivery

A sender has accepted messages without sequenced ones among them, and all of its packets are still
queued. However these are put into frames, and in whatever order the frames arrive at a new receiver,
some of them repeatedly: once every packet has come, every message comes out exactly once.
-/
namespace ReliableDatagram

/-- The packets that wait for their first transmission. -/
def Session.queued (s : Session) : List Packet :=
  Priority.all.flatMap fun priority => (s.queues.get priority).toList

theorem Session.mem_queued {s : Session} {p : Packet} :
    p ∈ s.queued ↔ ∃ priority, p ∈ (s.queues.get priority).toList := by
  rw [queued, List.mem_flatMap]
  constructor
  · rintro ⟨priority, -, hp⟩
    exact ⟨priority, hp⟩
  · rintro ⟨priority, hp⟩
    exact ⟨priority, by cases priority <;> simp [Priority.all], hp⟩

/-- A message without a place in a sequence is submitted. -/
def Action.isPlainSend : Action → Bool
  | .send _ _ reliability _ | .sendBits _ _ _ reliability _ => !reliability.isSequenced
  | _ => false

/-- A datagram that arrives: the entries that were offered to its frame, and when it comes. -/
structure Datagram where
  maxBytes : Nat
  entries : List Entry
  time : Instant

namespace Datagram

/-- The frame holds the entries that fit when their turn came. -/
def frame (d : Datagram) : Frame := ((FrameBuilder.ofMaxBytes d.maxBytes).pushAll d.entries).2.finish

theorem encoded_frame (d : Datagram) : d.frame.Encoded :=
  Frame.encoded_finish ((FrameBuilder.consistent_ofMaxBytes d.maxBytes).pushAll d.entries)

end Datagram

theorem FrameBuilder.entries_pushAll_subset (f : FrameBuilder) (es : List Entry) :
    (f.pushAll es).2.entries.toList ⊆ f.entries.toList ++ es := by
  induction es generalizing f with
  | nil => simp [pushAll]
  | cons e es ih =>
    intro x hx
    have hrest := ih (if f.fits e then f.push e else f) hx
    split_ifs at hrest
    · simpa [push] using hrest
    · rcases List.mem_append.mp hrest with hrest | hrest
      · exact List.mem_append_left _ hrest
      · exact List.mem_append_right _ (List.mem_cons_of_mem _ hrest)

theorem Datagram.entries_frame_subset (d : Datagram) : d.frame.entries ⊆ d.entries :=
  FrameBuilder.entries_pushAll_subset (.ofMaxBytes d.maxBytes) d.entries

def Session.takeIn (s : Session) (ds : List Datagram) : Session :=
  ds.foldl (fun s d => (s.handleDatagram d.frame.bytes d.time).2) s

namespace Party

/-- Nothing was transmitted yet: the queues hold the packets of all that was accepted. -/
structure Loaded (p : Party) (ms : List Shipment) : Prop where
  sends : p.session.Sends ms
  carries : List.Forall₂ Shipment.Carries ms p.accepted
  queued : ∀ x, x ∈ p.session.queued ↔ ∃ m ∈ ms, x ∈ m.packets
  plain : ∀ m ∈ ms, m.reliability.isSequenced = false

variable {p : Party} {ms : List Shipment}

theorem loaded_new (config : Config) (now : Instant) : (new config now).Loaded [] where
  sends := Session.sends_new config now
  carries := .nil
  queued x := by simp [Session.mem_queued, new, Session.new]
  plain := by simp

theorem Loaded.submit (h : p.Loaded ms) {payload : Bytes} {bitLength : Nat} {priority : Priority}
    {r : Reliability} (hr : r.isSequenced = false) {channel : Nat} {result : Except SendError Session}
    (hresult : ∀ s', result = .ok s' →
      p.session.sendBits payload bitLength priority r channel = .ok s') :
    ∃ ms', (p.submit payload bitLength r channel result).Loaded ms' := by
  cases result with
  | error e => exact ⟨ms, h⟩
  | ok s' =>
    obtain ⟨m, hm, hsends, hextends, hcarries⟩ := Session.sends_sendBits h.sends (hresult s' rfl)
    refine ⟨ms ++ [m], hsends, List.rel_append h.carries (.cons hcarries .nil), fun x => ?_,
      fun x hx => ?_⟩
    · have hmem : x ∈ s'.queued ↔ x ∈ p.session.queued ∨ x ∈ m.packets := by
        simp only [Session.mem_queued, hextends.queues_eq, PerPriority.get_modify]
        constructor
        · rintro ⟨priority, hx⟩
          split_ifs at hx
          · rw [Fifo.toList_foldl_push] at hx
            exact (List.mem_append.mp hx).imp_left fun hx => ⟨priority, hx⟩
          · exact Or.inl ⟨priority, hx⟩
        · rintro (⟨priority, hx⟩ | hx)
          · refine ⟨priority, ?_⟩
            split_ifs
            · rw [Fifo.toList_foldl_push]
              exact List.mem_append_left _ hx
            · exact hx
          · refine ⟨m.priority, ?_⟩
            rw [if_pos rfl, Fifo.toList_foldl_push]
            exact List.mem_append_right _ hx
      show x ∈ s'.queued ↔ _
      rw [hmem, h.queued]
      constructor
      · rintro (⟨y, hy, hx⟩ | hx)
        · exact ⟨y, by simp [hy], hx⟩
        · exact ⟨m, by simp, hx⟩
      · rintro ⟨y, hy, hx⟩
        rcases List.mem_append.mp hy with hy | hy
        · exact Or.inl ⟨y, hy, hx⟩
        · exact Or.inr (List.mem_singleton.mp hy ▸ hx)
    · rcases List.mem_append.mp hx with hx | hx
      · exact h.plain x hx
      · rw [List.mem_singleton.mp hx]
        rcases hcarries.reliability_eq with hm | hm <;> simp [hm, hr]

theorem Loaded.act (h : p.Loaded ms) {action : Action} (haction : action.isPlainSend = true) :
    ∃ ms', (p.act action).Loaded ms' := by
  cases action with
  | send payload priority r channel =>
    have hr : r.isSequenced = false := by simpa [Action.isPlainSend] using haction
    exact h.submit hr fun s' => Session.send_ok
  | sendBits payload bitLength priority r channel =>
    have hr : r.isSequenced = false := by simpa [Action.isPlainSend] using haction
    exact h.submit hr fun s' => id
  | _ => cases haction

theorem Loaded.acts (h : p.Loaded ms) {actions : List Action}
    (hactions : ∀ action ∈ actions, action.isPlainSend = true) :
    ∃ ms', (actions.foldl Party.act p).Loaded ms' := by
  induction actions generalizing p ms with
  | nil => exact ⟨ms, h⟩
  | cons action actions ih =>
    obtain ⟨ms', h'⟩ := h.act (hactions action (by simp))
    exact ih h' fun a ha => hactions a (by simp [ha])

end Party

namespace Session

/-- The packets of datagrams, and when they came. -/
def arrivalsOf (ds : List Datagram) : Arrivals :=
  ds.flatMap fun d => Entry.arrivals d.frame.entries d.time

theorem mem_arrivalsOf {ds : List Datagram} {x : Nat × Instant} :
    x ∈ arrivalsOf ds ↔
      ∃ d ∈ ds, ∃ p, .data p ∈ d.frame.entries ∧ x = (p.sequence.toNat, d.time) := by
  constructor
  · intro hx
    obtain ⟨d, hd, hx⟩ := List.mem_flatMap.mp hx
    obtain ⟨e, he, hex⟩ := List.mem_filterMap.mp hx
    cases e with
    | ack q => cases hex
    | data p => exact ⟨d, hd, p, he, (Option.some.inj hex).symm⟩
  · rintro ⟨d, hd, p, hp, rfl⟩
    exact List.mem_flatMap.mpr ⟨d, hd, List.mem_filterMap.mpr ⟨.data p, hp, rfl⟩⟩

theorem not_givenUp_arrivalsOf {ds : List Datagram} {timeout : Duration}
    (htime : ∀ d ∈ ds, ∀ d' ∈ ds, elapsed d.time d'.time ≤ timeout) (n : Nat) :
    ¬GivenUp timeout (arrivalsOf ds) n := by
  apply not_givenUp
  intro x hx y hy
  obtain ⟨d, hd, p, -, rfl⟩ := mem_arrivalsOf.mp hx
  obtain ⟨d', hd', p', -, rfl⟩ := mem_arrivalsOf.mp hy
  exact htime d hd d' hd'

variable {s : Session} {ms : List Shipment} {arrived : Arrivals} {seen : Set Nat}
  {returned : List Delivery} {out : List Shipment}

theorem receives_new (hms : Manifest ms) (config : Config) (now : Instant) :
    (new config now).inbox.Receives ms [] ∅ [] [] := by
  induction hms with
  | nil => exact Inbox.receives_initial config now
  | snoc _ hm ih => exact ih.snoc hm

/-- What every packet keeps, datagrams keep. -/
theorem Upholds.takeIn {I : Inbox → Arrivals → Prop} (hI : Upholds ms I) (hms : Manifest ms)
    (hspan : total Shipment.size ms ≤ Counter.span) (h : I s.inbox arrived) (halive : s.isDead = false)
    {ds : List Datagram} (hdata : ∀ d ∈ ds, ∀ p, .data p ∈ d.entries → ∃ m ∈ ms, p ∈ m.packets) :
    s.Handles (s.takeIn ds) ∧ I (s.takeIn ds).inbox (arrived ++ arrivalsOf ds) := by
  induction ds generalizing s arrived with
  | nil => exact ⟨Handles.refl s, by simpa [arrivalsOf, takeIn] using h⟩
  | cons d ds ih =>
    have hframe : ∀ p, .data p ∈ d.frame.entries → ∃ m ∈ ms, p ∈ m.packets := fun p hp =>
      hdata d (by simp) p (d.entries_frame_subset hp)
    have hwell : ∀ e ∈ d.frame.entries, e.WellFormed := by
      intro e he
      cases e with
      | ack q => trivial
      | data p =>
        obtain ⟨m, -, hp⟩ := hframe p he
        obtain ⟨j, c, hc, rfl⟩ := Shipment.mem_packets.mp hp
        exact Shipment.wellFormed_packet hc
    have hhandles := s.handles_handleDatagram d.frame.bytes d.time
    have h' := hI.handleDatagram hms hspan h halive d.encoded_frame hwell hframe d.time
    have halive' : (s.handleDatagram d.frame.bytes d.time).2.isDead = false := by
      rw [isDead, hhandles.dead_eq]
      exact halive
    obtain ⟨hrest, h''⟩ := ih h' halive' fun d hd => hdata d (by simp [hd])
    refine ⟨hhandles.trans hrest, ?_⟩
    rw [Frame.read_encoded d.encoded_frame hwell, Entry.arrivals_decoded, List.append_assoc] at h''
    exact h''

theorem receives_takeIn (h : s.inbox.Receives ms arrived seen returned out) (hms : Manifest ms)
    (hspan : total Shipment.size ms ≤ Counter.span) (halive : s.isDead = false) {ds : List Datagram}
    (hdata : ∀ d ∈ ds, ∀ p, .data p ∈ d.entries → ∃ m ∈ ms, p ∈ m.packets) :
    s.Handles (s.takeIn ds) ∧
      ∃ seen' out', (s.takeIn ds).inbox.Receives ms (arrived ++ arrivalsOf ds) seen' returned out' :=
  (upholds_receives hms hspan returned).takeIn hms hspan ⟨seen, out, h⟩ halive hdata

end Session

namespace Party

variable {sender : Party} {ms : List Shipment}

theorem Loaded.mem_arrivalsOf (h : sender.Loaded ms) (hspan : total Shipment.size ms ≤ Counter.span)
    {ds : List Datagram} (hall : ∀ p ∈ sender.session.queued, ∃ d ∈ ds, .data p ∈ d.frame.entries)
    {n : Nat} (hn : n < total Shipment.size ms) : n ∈ (Session.arrivalsOf ds).map Prod.fst := by
  obtain ⟨m, hm, hown⟩ := h.sends.manifest.exists_owner hn
  obtain ⟨j, c, hc, rfl⟩ := Shipment.exists_chunk hown
  have hpacket : m.packet j c ∈ m.packets := Shipment.mem_packets.mpr ⟨j, c, hc, rfl⟩
  obtain ⟨d, hd, hp⟩ := hall _ ((h.queued _).mpr ⟨m, hm, hpacket⟩)
  have hnumber : (m.packet j c).sequence.toNat = m.first + j := Counter.toNat_ofNat_of_le (by omega)
  refine List.mem_map.mpr ⟨(m.first + j, d.time), ?_, rfl⟩
  exact Session.mem_arrivalsOf.mpr ⟨d, hd, _, hp, by rw [hnumber]⟩

theorem Loaded.hasRoom (h : sender.Loaded ms) {r : Reassembler}
    (hparts : ∀ p ∈ sender.session.queued, ∀ part, p.part = some part → part.count ≤ r.maxParts)
    (hbytes : total Reassembler.cost (sender.session.queued.filter (·.part.isSome)) ≤ r.maxBytes) :
    r.HasRoom ms := by
  refine ⟨fun m hm hsplit => ?_, _, fun m hm hsplit p hp => ?_, hbytes⟩
  · obtain ⟨id, hid⟩ := Option.ne_none_iff_exists'.mp hsplit
    obtain ⟨j, c, hc, -⟩ := Shipment.exists_chunk m.owns_first
    have hpacket : m.packet j c ∈ m.packets := Shipment.mem_packets.mpr ⟨j, c, hc, rfl⟩
    refine hparts _ ((h.queued _).mpr ⟨m, hm, hpacket⟩) { id := .ofNat id, index := j, count := m.size } ?_
    simp [Shipment.packet, hid]
  · obtain ⟨id, hid⟩ := Option.ne_none_iff_exists'.mp hsplit
    refine List.mem_filter.mpr ⟨(h.queued _).mpr ⟨m, hm, hp⟩, ?_⟩
    obtain ⟨j, c, hc, rfl⟩ := Shipment.mem_packets.mp hp
    simp [Shipment.packet, hid]

/-- An ordered message that takes three fragments, and three bits that are sent before them. -/
def submissions : List Action :=
  [.send (List.replicate 40 1) .low .reliableOrdered 3, .sendBits [0xA0] 3 .high .unreliable 0]

def narrow : Config := Config.default.withMtu 64

/-- The packets in the reverse order, the last fragment twice. -/
def backwards : List Datagram :=
  match (submissions.foldl act (.new narrow 0)).session.queued with
  | [bits, first, second, third] =>
    [{ maxBytes := 1000, entries := [.data third], time := 5 },
     { maxBytes := 1000, entries := [.data second], time := 3 },
     { maxBytes := 1000, entries := [.data first, .data third, .data bits], time := 9 }]
  | _ => []

end Party
end ReliableDatagram
