import ReliableDatagram.Proofs.Network.Run

/-!
# Delivery between two sessions

What a party returns are messages that its peer has accepted, whatever the network does, as long as the
peer does not use up half the range of its sequence numbers. And what a sender drops on an
acknowledgement is in the receiver's hands, unless the receiver had given it up.
-/
namespace ReliableDatagram

namespace Accepted

def isOrderedOn (c : Nat) (a : Accepted) : Bool := a.reliability.isOrderedOn a.channel c

def isSequencedOn (c : Nat) (a : Accepted) : Bool := a.reliability.isSequencedOn a.channel c

instance : Nonempty Accepted :=
  ⟨{ payload := [], bitLength := 0, reliability := .reliable, channel := 0, first := 0, size := 0 }⟩

def Owns (a : Accepted) (n : Nat) : Prop := a.first ≤ n ∧ n < a.first + a.size

end Accepted

/-- `origin` tells for each delivery which accepted message it is: with the very bits of that message,
no message twice, and on every channel in the order of sending, the ordered messages without a gap. -/
structure IsOrigin (accepted origin : List Accepted) (deliveries : List Delivery) : Prop where
  conveys : List.Forall₂ Delivery.Conveys deliveries origin
  nodup : origin.Nodup
  subset : origin ⊆ accepted
  ordered : ∀ c : Channel,
    origin.filter (Accepted.isOrderedOn c) <+: accepted.filter (Accepted.isOrderedOn c)
  sequenced : ∀ c : Channel,
    (origin.filter (Accepted.isSequencedOn c)).Sublist (accepted.filter (Accepted.isSequencedOn c))

theorem exists_map_of_forall₂ {α β : Type} [Nonempty β] {R : α → β → Prop} {l : List α} {l' : List β}
    (h : List.Forall₂ R l l') (hl : l.Nodup) : ∃ f : α → β, l' = l.map f ∧ ∀ a ∈ l, R a (f a) := by
  classical
  induction h with
  | nil => exact ⟨fun _ => Classical.ofNonempty, rfl, by simp⟩
  | @cons a b l l' hab hrest ih =>
    obtain ⟨hnew, hl⟩ := List.nodup_cons.mp hl
    obtain ⟨f, rfl, hf⟩ := ih hl
    have hold : ∀ x ∈ l, (if x = a then b else f x) = f x := fun x hx =>
      if_neg fun (hxa : x = a) => hnew (hxa ▸ hx)
    refine ⟨fun x => if x = a then b else f x, ?_, fun x hx => ?_⟩
    · rw [List.map_cons, if_pos rfl]
      exact congrArg _ (List.map_congr_left hold).symm
    · rcases List.mem_cons.mp hx with rfl | hx
      · simpa using hab
      · simpa only [hold x hx] using hf x hx

section Carries

variable {ms : List Shipment} {f : Shipment → Accepted}

theorem filter_isOrderedOn_map (hf : ∀ m ∈ ms, m.Carries (f m)) (c : Nat) {l : List Shipment}
    (hl : ∀ m ∈ l, m ∈ ms) :
    (l.map f).filter (Accepted.isOrderedOn c) = (l.filter (Shipment.isOrderedOn c)).map f := by
  rw [List.filter_map]
  refine congrArg _ (List.filter_congr fun m hm => ?_)
  have hcarries := hf m (hl m hm)
  show (f m).isOrderedOn c = m.isOrderedOn c
  rw [Accepted.isOrderedOn, Shipment.isOrderedOn, hcarries.channel_eq]
  rcases hcarries.reliability_eq with hr | hr <;> simp [hr, Reliability.isOrderedOn]

theorem filter_isSequencedOn_map (hf : ∀ m ∈ ms, m.Carries (f m)) (c : Nat) {l : List Shipment}
    (hl : ∀ m ∈ l, m ∈ ms) :
    (l.map f).filter (Accepted.isSequencedOn c) = (l.filter (Shipment.isSequencedOn c)).map f := by
  rw [List.filter_map]
  refine congrArg _ (List.filter_congr fun m hm => ?_)
  have hcarries := hf m (hl m hm)
  show (f m).isSequencedOn c = m.isSequencedOn c
  rw [Accepted.isSequencedOn, Shipment.isSequencedOn, hcarries.channel_eq]
  rcases hcarries.reliability_eq with hr | hr <;> simp [hr, Reliability.isSequencedOn]

/-- No message is carried by two shipments. -/
theorem Manifest.eq_of_carries (hms : Manifest ms) (hf : ∀ m ∈ ms, m.Carries (f m)) {x y : Shipment}
    (hx : x ∈ ms) (hy : y ∈ ms) (hxy : f x = f y) : x = y := by
  have hfirst : x.first = y.first := by rw [(hf x hx).first_eq, (hf y hy).first_eq, hxy]
  exact hms.eq_of_owns hx hy x.owns_first (hfirst ▸ y.owns_first)

/-- Deliveries of shipments go back to the messages that these carry. -/
theorem Delivered.isOrigin {out : List Shipment} (h : Delivered ms out) (hms : Manifest ms)
    (hf : ∀ m ∈ ms, m.Carries (f m)) :
    IsOrigin (ms.map f) (out.map f) (out.map Shipment.delivery) := by
  refine ⟨?_, ?_, ?_, fun c => ?_, fun c => ?_⟩
  · rw [List.forall₂_map_left_iff, List.forall₂_map_right_iff, List.forall₂_same]
    exact fun m hm => (hf m (h.subset m hm)).conveys
  · exact h.nodup.map_on fun x hx y hy => hms.eq_of_carries hf (h.subset x hx) (h.subset y hy)
  · exact List.map_subset f fun m hm => h.subset m hm
  · rw [filter_isOrderedOn_map hf c h.subset, filter_isOrderedOn_map hf c fun m hm => hm]
    exact (h.ordered c).map f
  · rw [filter_isSequencedOn_map hf c h.subset, filter_isSequencedOn_map hf c fun m hm => hm]
    exact (h.sequenced c).map f

end Carries

/-- The receiver has the packet of an accepted message: the message waits for its turn on its channel,
or the packet is held among the fragments. -/
def Session.Stores (s : Session) (a : Accepted) (p : Packet) : Prop :=
  (∃ place d, p.place = some place ∧
    (s.lanes.get (.ofNat place.channel)).waiting[place.index.value]? = some d ∧ d.Conveys a) ∨
  ∃ part g, p.part = some part ∧ (part.id, g) ∈ s.reassembler.groups ∧
    (part.index, p.decoded) ∈ g.parts

/-- The receiver holds the fragment, and its message is not complete yet. -/
def Session.HoldsFragment (s : Session) (p : Packet) : Prop :=
  ∃ part g, p.part = some part ∧ (part.id, g) ∈ s.reassembler.groups ∧
    (part.index, p.decoded) ∈ g.parts

theorem Session.holdsFragment_packet {s : Session} {ms : List Shipment} {seen : Set Nat} {m : Shipment}
    {j : Nat} {c : Chunk} (holds : s.reassembler.Holds ms seen) (hms : Manifest ms)
    (hspan : total Shipment.size ms ≤ Counter.span) (hm : m ∈ ms) (hc : m.chunks[j]? = some c)
    (hpart : s.reassembler.HoldsPart m j) : s.HoldsFragment (m.packet j c) := by
  obtain ⟨id, g, q, hid, hg, hq⟩ := hpart
  have hof := holds.of_mem hms hspan hm hid hg
  obtain ⟨d, hd, hqd⟩ := Shipment.mem_parts.mp (hof.mem_parts _ hq)
  obtain rfl : c = d := Option.some.inj (hc.symm.trans hd)
  obtain rfl : q = (m.packet j c).decoded := hqd
  refine ⟨{ id := .ofNat id, index := j, count := m.size }, g, ?_, hg, hq⟩
  simp [Shipment.packet, hid]

theorem Session.HoldsFragment.part_ne_none {s : Session} {p : Packet} (h : s.HoldsFragment p) :
    p.part ≠ none := by
  obtain ⟨part, g, hpart, -⟩ := h
  simp [hpart]

/-- A packet that was seen has come out with its message, or is stored. -/
theorem Inbox.Accounts.stores {s : Session} {ms out : List Shipment} {seen : Set Nat} {m : Shipment}
    {a : Accepted} {j : Nat} {c : Chunk} (h : s.inbox.Accounts out seen m)
    (holds : s.reassembler.Holds ms seen) (hms : Manifest ms)
    (hspan : total Shipment.size ms ≤ Counter.span) (hm : m ∈ ms) (hcarries : m.Carries a)
    (hc : m.chunks[j]? = some c) (hseen : m.first + j ∈ seen) :
    m ∈ out ∨ s.Stores a (m.packet j c) := by
  by_cases hall : m.SeenIn seen
  · rcases h.whole hall with hmem | ⟨ho, hwaits⟩
    · exact Or.inl hmem
    · right
      left
      refine ⟨{ channel := m.channel, index := .ofNat m.index }, m.delivery, ?_, hwaits,
        hcarries.conveys⟩
      exact Session.place_eq (by simp [Reliability.usesChannel, ho])
  · have hpart := h.part hall j (Shipment.lt_size hc) hseen
    exact Or.inr (Or.inr (Session.holdsFragment_packet holds hms hspan hm hc hpart))

/-- Acknowledgements arrive as they were sent. -/
theorem Entry.ack_mem_decoded {q : SequenceNumber} {entries : List Entry} :
    .ack q ∈ entries.map Entry.decoded ↔ .ack q ∈ entries := by
  constructor
  · intro hmem
    obtain ⟨e, he, hdecoded⟩ := List.mem_map.mp hmem
    cases e with
    | ack q' =>
      cases hdecoded
      exact he
    | data y => cases hdecoded
  · exact List.mem_map_of_mem (f := Entry.decoded)

namespace Party

/-- Only an acknowledgement takes a packet out of flight that is not sequenced. -/
theorem ack_mem_of_gone {p : Party} {f : Frame} (hf : f.Encoded)
    (hentries : ∀ e ∈ f.entries, e.WellFormed) {x : Packet} (hx : x ∈ p.session.resend.packets)
    (hr : x.reliability = .reliable ∨ x.reliability = .reliableOrdered) {now : Instant}
    (hgone : x ∉ (p.act (.handle f.bytes now)).session.resend.packets) :
    Entry.ack x.sequence ∈ f.entries := by
  by_contra hnone
  refine hgone (Session.mem_packets_handleDatagram hx ?_ ?_)
  · rcases hr with hr | hr <;> simp [hr]
  · rw [Frame.read_encoded hf hentries]
    exact fun hmem => hnone (Entry.ack_mem_decoded.mp hmem)

/-- Of the shipments `ms` of the peer, `out` have come out at this party. -/
structure Gets (p : Party) (ms out : List Shipment) : Prop where
  delivered : Delivered ms out
  output_eq : p.returned ++ p.session.output.toList = out.map Shipment.delivery
  alive : p.session.isDead = false →
    p.session.arrivals.timeout = p.session.config.connectionTimeout ∧
      ∃ seen, p.session.inbox.Receives ms p.arrived seen p.returned out

variable {p p' : Party} {ms out : List Shipment}

theorem gets_new (config : Config) (now : Instant) : (new config now).Gets [] [] where
  delivered := .nil []
  output_eq := rfl
  alive _ := ⟨rfl, ∅, Inbox.receives_initial config now⟩

theorem Gets.grows {ms' : List Shipment} (h : p.Gets ms out) (hms : Grows ms ms') : p.Gets ms' out := by
  cases hms with
  | same => exact h
  | snoc m hm =>
    refine ⟨h.delivered.mono (List.prefix_append ..), h.output_eq, fun halive => ?_⟩
    obtain ⟨htimeout, seen, hreceives⟩ := h.alive halive
    exact ⟨htimeout, seen, hreceives.snoc hm⟩

theorem Gets.congr (h : p.Gets ms out) (hinbox : p'.session.inbox = p.session.inbox)
    (hdead : p'.session.dead = p.session.dead)
    (htimeout : p'.session.config.connectionTimeout = p.session.config.connectionTimeout)
    (hreturned : p'.returned = p.returned) (harrived : p'.arrived = p.arrived) : p'.Gets ms out := by
  have houtput : p'.session.output.toList = p.session.output.toList := congrArg Inbox.output hinbox
  have harrivals : p'.session.arrivals = p.session.arrivals := congrArg Inbox.arrivals hinbox
  have hisDead : p'.session.isDead = p.session.isDead := congrArg Option.isSome hdead
  refine ⟨h.delivered, by rw [hreturned, houtput, h.output_eq], fun halive => ?_⟩
  obtain ⟨htimeout', seen, hreceives⟩ := h.alive (hisDead ▸ halive)
  refine ⟨by rw [harrivals, htimeout, htimeout'], seen, ?_⟩
  rw [hinbox, hreturned, harrived]
  exact hreceives

/-- A dead party returns what had come out, perhaps not all of it. -/
theorem Gets.of_dead (h : p.Gets ms out) (hdead : p'.session.isDead = true)
    (hreturned : p'.returned ++ p'.session.output.toList <+: p.returned ++ p.session.output.toList) :
    ∃ out', p'.Gets ms out' := by
  rw [h.output_eq] at hreturned
  refine ⟨out.take (p'.returned ++ p'.session.output.toList).length,
    h.delivered.of_prefix (List.take_prefix ..), ?_, fun halive => ?_⟩
  · rw [List.map_take]
    exact List.prefix_iff_eq_take.mp hreturned
  · rw [hdead] at halive
    cases halive

theorem Gets.submit (h : p.Gets ms out) {own : List Shipment} (hown : p.session.Sends own)
    {payload : Bytes} {bitLength : Nat} {priority : Priority} {r : Reliability} {channel : Nat}
    {result : Except SendError Session}
    (hresult : ∀ s', result = .ok s' →
      p.session.sendBits payload bitLength priority r channel = .ok s') :
    (p.submit payload bitLength r channel result).Gets ms out := by
  cases result with
  | error e => exact h
  | ok s' =>
    obtain ⟨m, -, -, hextends, -⟩ := Session.sends_sendBits hown (hresult s' rfl)
    have hinbox : s'.inbox = p.session.inbox := by
      rw [Session.inbox, hextends.arrivals_eq, hextends.reassembler_eq, hextends.lanes_eq,
        hextends.output_eq, hextends.invalid_eq]
      rfl
    exact h.congr hinbox hextends.dead_eq (congrArg Config.connectionTimeout hextends.config_eq) rfl rfl

theorem Gets.handle (h : p.Gets ms out) (hms : Manifest ms)
    (hspan : total Shipment.size ms ≤ Counter.span) {f : Frame} (hf : f.Encoded) {acked : Arrivals}
    (hentries : ∀ e ∈ f.entries, e.Among ms acked) (now : Instant) :
    ∃ out', (p.act (.handle f.bytes now)).Gets ms out' := by
  have hhandles := p.session.handles_handleDatagram f.bytes now
  by_cases hdead : p.session.isDead = true
  · have hsame : p.act (.handle f.bytes now) = p := by
      rw [Party.act, Session.handleDatagram, if_pos hdead, if_pos hdead]
    exact ⟨out, by rwa [hsame]⟩
  · have halive : p.session.isDead = false := by simpa using hdead
    obtain ⟨htimeout, seen, hreceives⟩ := h.alive halive
    obtain ⟨seen', out', hreceives'⟩ := (Session.upholds_receives hms hspan p.returned).handleDatagram
      hms hspan ⟨seen, out, hreceives⟩ halive hf (fun e he => (hentries e he).wellFormed)
      (fun x hx => hentries _ hx) now
    refine ⟨out', hreceives'.delivered, hreceives'.output_eq, fun _ => ⟨?_, seen', ?_⟩⟩
    · rw [Party.act]
      exact (hhandles.timeout_eq.trans htimeout).trans
        (congrArg Config.connectionTimeout hhandles.config_eq).symm
    · rw [Party.act, if_neg hdead]
      exact hreceives'

theorem Gets.receive (h : p.Gets ms out) : (p.act .receive).Gets ms out := by
  rw [Party.act]
  cases hreceive : p.session.receive? with
  | none => exact h
  | some received =>
    obtain ⟨⟨d, output⟩, hpop, rfl⟩ := Option.map_eq_some_iff.mp hreceive
    have hlist := Fifo.toList_of_pop? hpop
    refine ⟨h.delivered, ?_, fun halive => ?_⟩
    · rw [← h.output_eq, hlist, List.append_assoc, List.singleton_append]
    · obtain ⟨htimeout, seen, hreceives⟩ := h.alive halive
      exact ⟨htimeout, seen, hreceives.take hlist⟩

/-- Any action but the arrival of a datagram. -/
theorem Gets.act (h : p.Gets ms out) {own : List Shipment} (hown : p.Sound own) (action : Action)
    (hhandle : ∀ data now, action = .handle data now → ∃ out', (p.act action).Gets ms out') :
    ∃ out', (p.act action).Gets ms out' := by
  cases action with
  | send payload priority r channel => exact ⟨out, h.submit hown.sends fun s' => Session.send_ok⟩
  | sendBits payload bitLength priority r channel => exact ⟨out, h.submit hown.sends fun s' => id⟩
  | update now =>
    obtain ⟨-, -, hstanding | hdie⟩ := Session.transmit_spec hown.stocks now
    · refine ⟨out, h.congr ?_ ?_ ?_ rfl rfl⟩
      · exact congrArg Session.Standing.inbox hstanding
      · exact congrArg Session.Standing.dead hstanding
      · exact congrArg (Config.connectionTimeout ∘ Session.Standing.config) hstanding
    · refine h.of_dead ?_ ?_
      · rw [Party.act, hdie]
        rfl
      · rw [Party.act, hdie]
        exact List.prefix_refl _
  | handle data now => exact hhandle data now rfl
  | receive => exact ⟨out, h.receive⟩
  | setResendDelay delay => exact ⟨out, h.congr rfl rfl rfl rfl rfl⟩
  | kill => exact h.of_dead rfl (List.prefix_refl _)
  | close =>
    apply h.of_dead rfl
    show p.returned ++ [] <+: _
    rw [List.append_nil]
    exact List.prefix_append ..

end Party

namespace Network

/-- Both parties keep to what they have accepted, and `b` brings out what `a` has accepted. -/
structure Sound (n : Network) (ms ms' : List Shipment) : Prop where
  a : n.a.Sound ms
  b : n.b.Sound ms'
  gets : total Shipment.size ms ≤ Counter.span → ∃ out, n.b.Gets ms out

theorem Reachable.sound {n : Network} (h : n.Reachable) : ∃ ms ms', n.Sound ms ms' := by
  induction h with
  | start ca cb ta tb =>
    exact ⟨[], [], Party.sound_new ca ta, Party.sound_new cb tb, fun _ => ⟨[], Party.gets_new cb tb⟩⟩
  | @act n h side action hp ih =>
    obtain ⟨ms, ms', ha, hb, hgets⟩ := ih
    cases side with
    | a =>
      obtain ⟨ms₁, hgrows, ha₁⟩ := ha.act action
      refine ⟨ms₁, ms', ha₁, hb, fun hspan => ?_⟩
      have hle : total Shipment.size ms ≤ total Shipment.size ms₁ := by
        cases hgrows with
        | same => exact Nat.le_refl _
        | snoc m hm => simp
      obtain ⟨out, hout⟩ := hgets (Nat.le_trans hle hspan)
      exact ⟨out, hout.grows hgrows⟩
    | b =>
      obtain ⟨ms'₁, -, hb₁⟩ := hb.act action
      refine ⟨ms, ms'₁, ha, hb₁, fun hspan => ?_⟩
      obtain ⟨out, hout⟩ := hgets hspan
      apply hout.act hb action
      intro data now haction
      subst haction
      obtain ⟨f, hf, rfl⟩ := hp
      obtain ⟨hencoded, hentries⟩ := ha.emitted f hf
      exact hout.handle ha.sends.manifest hspan hencoded hentries now

/-- Two new sessions with the settings that sessions have by default. -/
def fresh : Network := { a := .new .default 0, b := .new .default 0 }

theorem reachable_fresh : fresh.Reachable := .start .default .default 0 0

/-- Whatever the network and both parties do, what `b` returns are messages that `a` has accepted, no
message twice and in the order of its channel. -/
theorem Reachable.exists_isOrigin {n : Network} (h : n.Reachable)
    (hspan : n.a.session.numbersTaken ≤ Counter.span) :
    ∃ origin, IsOrigin n.a.accepted origin n.b.returned := by
  obtain ⟨ms, ms', ha, hb, hgets⟩ := h.sound
  obtain ⟨f, haccepted, hf⟩ := exists_map_of_forall₂ ha.carries ha.sends.manifest.nodup
  obtain ⟨out, hout⟩ := hgets (ha.sends.numbers_eq ▸ hspan)
  have hprefix : out.take n.b.returned.length <+: out := List.take_prefix ..
  have hreturned : n.b.returned = (out.take n.b.returned.length).map Shipment.delivery := by
    rw [List.map_take, ← hout.output_eq, List.take_left]
  rw [haccepted, hreturned]
  exact ⟨_, (hout.delivered.of_prefix hprefix).isOrigin ha.sends.manifest hf⟩

/-- The frame of the second of two ordered messages arrives first, and that of the first one twice. -/
def swapped : Network := fresh.run
  [(.a, .send [7] .low .reliableOrdered 3), (.a, .update 0),
   (.a, .sendBits [0xA0] 3 .high .reliableOrdered 3), (.a, .update 1),
   (.b, .handle [0, 1, 49, 128, 0, 179, 160] 2), (.b, .handle [0, 0, 49, 128, 0, 56, 7] 3),
   (.b, .handle [0, 0, 49, 128, 0, 56, 7] 4), (.b, .receive), (.b, .receive)]

theorem exists_isOrigin_swapped :
    swapped.Reachable ∧ swapped.a.session.numbersTaken ≤ Counter.span ∧
      swapped.b.returned.map Delivery.payload = [[7], [0xA0]] ∧
      ∃ origin, IsOrigin swapped.a.accepted origin swapped.b.returned := by
  have hreachable : swapped.Reachable := reachable_fresh.run (by decide +kernel)
  have hspan : swapped.a.session.numbersTaken ≤ Counter.span := by decide +kernel
  exact ⟨hreachable, hspan, by decide +kernel, hreachable.exists_isOrigin hspan⟩

/-- The second of two ordered messages waits for the first one, which is lost, and is acknowledged. -/
def firstLost : Network := fresh.run
  [(.a, .send [7] .low .reliableOrdered 3), (.a, .update 0),
   (.a, .sendBits [0xA0] 3 .high .reliableOrdered 3), (.a, .update 1),
   (.b, .handle [0, 1, 49, 128, 0, 179, 160] 2), (.b, .update 1000000000)]

/-- Three messages, of which the later two overtake the first one. It arrives when it is not waited for
any longer. -/
def overtaken : Network := fresh.run
  [(.a, .send [0] .medium .reliable 0), (.a, .update 0),
   (.a, .send [1] .medium .reliable 0), (.a, .update 0),
   (.a, .send [2] .medium .reliable 0), (.a, .update 0),
   (.b, .handle [0, 1, 39, 0, 1] 0), (.b, .handle [0, 2, 39, 0, 2] 10000000001),
   (.b, .handle [0, 0, 39, 0, 0] 10000000001), (.b, .update 10000000001)]

end Network
end ReliableDatagram
