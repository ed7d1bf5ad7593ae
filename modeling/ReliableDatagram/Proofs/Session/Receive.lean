import ReliableDatagram.Proofs.Receiving.Inbox
import ReliableDatagram.Proofs.Wire.Frames

/-!
# Taking in packets

Every packet of a shipment that arrives at a live session keeps the invariant of its inbox: it was
seen before, it makes a message complete, it is held, or it is dropped where the modes allow it.
-/
namespace ReliableDatagram
namespace Session

variable {s : Session} {ms : List Shipment} {arrived arrived' : Arrivals} {seen : Set Nat}
  {returned : List Delivery} {out : List Shipment} {m : Shipment} {j : Nat} {c : Chunk}

/-- The session with one more packet seen, before anything is done with the packet: `log` is the log as
it was before. -/
structure Meets (s : Session) (log : ArrivalLog) (ms : List Shipment) (arrived arrived' : Arrivals)
    (seen : Set Nat) (returned : List Delivery) (out : List Shipment) (m : Shipment) (j : Nat)
    (c : Chunk) : Prop where
  before : ({ s.inbox with arrivals := log } : Inbox).Receives ms arrived seen returned out
  manifest : Manifest ms
  span : total Shipment.size ms ≤ Counter.span
  mem : m ∈ ms
  chunk : m.chunks[j]? = some c
  new : m.first + j ∉ seen
  tracks : s.arrivals.Tracks (total Shipment.size ms) arrived' (insert (m.first + j) seen)

/-- After the packet the inbox keeps its invariant. -/
def Settles (s : Session) (ms : List Shipment) (arrived' : Arrivals) (seen : Set Nat)
    (returned : List Delivery) (m : Shipment) (j : Nat) : Prop :=
  ∃ out, s.inbox.Receives ms arrived' (insert (m.first + j) seen) returned out

variable {log : ArrivalLog}

theorem Meets.congr {s' : Session} (h : s.Meets log ms arrived arrived' seen returned out m j c)
    (hs : s'.inbox = s.inbox) : s'.Meets log ms arrived arrived' seen returned out m j c := by
  have harrivals : s'.arrivals = s.arrivals := congrArg Inbox.arrivals hs
  exact { h with before := hs ▸ h.before, tracks := harrivals ▸ h.tracks }

namespace Meets

theorem owns (h : s.Meets log ms arrived arrived' seen returned out m j c) : m.Owns (m.first + j) :=
  Shipment.owns_add (Shipment.lt_size h.chunk)

theorem takes (h : s.Meets log ms arrived arrived' seen returned out m j c) (now : Instant) :
    s.reassembler.Takes ms seen m j (s.reassembler.insert (m.packet j c).decoded now).1
      (s.reassembler.insert (m.packet j c).decoded now).2 :=
  h.before.holds.takes_insert h.manifest h.span h.mem h.chunk h.new now

theorem refused (h : s.Meets log ms arrived arrived' seen returned out m j c) {result : Reassembly}
    (ht : s.reassembler.Takes ms seen m j result s.reassembler)
    (hr : result = .rejected ∨ result = .overflow) :
    (s.count fun c =>
        { c with invalidMessagesReceived := c.invalidMessagesReceived + 1 }).inbox.Receives ms arrived'
      (insert (m.first + j) seen) returned out := by
  have hroom : ¬s.reassembler.HasRoom ms := by
    intro hroom
    have := h.before.holds.not_refused h.manifest h.span h.mem h.new hroom ht
    rcases hr with hr | hr
    · exact this.1 hr
    · exact this.2 hr
  have hsplit : m.splitId ≠ none := by
    rcases hr with rfl | rfl <;> cases ht <;> assumption
  have hholds := h.before.holds.mono (fun _ hm => hm) (Set.subset_insert (m.first + j) seen)
  exact h.before.stay h.manifest h.mem h.owns h.tracks hholds rfl rfl (Nat.le_succ _)
    (fun h => absurd h hroom) (fun _ _ _ _ => Iff.rfl) (fun _ hi => absurd hi (Nat.succ_ne_zero _))
    fun _ _ _ _ _ => Or.inr (Or.inr ⟨hsplit, Nat.succ_ne_zero _⟩)

end Meets

theorem inbox_purgeSplits (h : s.reassembler.Holds ms seen) (now : Instant) :
    (s.purgeSplits now).inbox = s.inbox := by
  rw [purgeSplits, h.purgeExpired_eq]
  rfl

theorem place_eq (h : m.reliability.usesChannel = true) :
    m.place = some { channel := m.channel, index := .ofNat m.index } := if_pos h

/-- What the reassembler may answer, and what the session makes of it. -/
theorem Meets.reassemble (h : s.Meets log ms arrived arrived' seen returned out m j c) (now : Instant) :
    ∃ result r', s.reassembler.Takes ms seen m j result r' ∧ r'.maxParts = s.reassembler.maxParts ∧
      r'.maxBytes = s.reassembler.maxBytes ∧
      ((∃ whole, result = .complete whole ∧
          s.reassemble (m.packet j c).decoded now = (some whole, { s with reassembler := r' })) ∨
        (result = .pending ∧
          s.reassemble (m.packet j c).decoded now = (none, { s with reassembler := r' })) ∨
        ((result = .rejected ∨ result = .overflow) ∧ r' = s.reassembler ∧
          s.reassemble (m.packet j c).decoded now = (none, s.count fun c =>
            { c with invalidMessagesReceived := c.invalidMessagesReceived + 1 }))) := by
  have ht := h.takes now
  have hparts := s.reassembler.maxParts_insert (m.packet j c).decoded now
  have hbytes := s.reassembler.maxBytes_insert (m.packet j c).decoded now
  rw [Session.reassemble]
  generalize s.reassembler.insert (m.packet j c).decoded now = answer at ht hparts hbytes
  obtain ⟨result, r'⟩ := answer
  refine ⟨result, r', ht, hparts, hbytes, ?_⟩
  cases ht with
  | complete => exact Or.inl ⟨_, rfl, rfl⟩
  | pending => exact Or.inr (Or.inl ⟨rfl, rfl⟩)
  | rejected => exact Or.inr (Or.inr ⟨Or.inl rfl, rfl, rfl⟩)
  | overflow => exact Or.inr (Or.inr ⟨Or.inr rfl, rfl, rfl⟩)

/-- A complete sequenced message that is not stale comes out, and its channel goes past all that is
older. -/
theorem Meets.overtake (h : s.Meets log ms arrived arrived' seen returned out m j c)
    (hq : m.reliability.isSequenced = true) {whole : Packet} {r' : Reassembler}
    (ht : s.reassembler.Takes ms seen m j (.complete whole) r')
    (hroom : r'.HasRoom ms → s.reassembler.HasRoom ms) {lanes : Lanes Delivery}
    (hlanes : s.lanes.acceptSequenced? (.ofNat m.channel) (.ofNat m.index) = some lanes) :
    (Session.deliver (Session.count { s with
          lanes
          reassembler := (r'.dropSuperseded m.channel (lanes.get (.ofNat m.channel)).sequenced).2 }
        fun c => { c with sequencedInOrder := c.sequencedInOrder + 1 })
      (.ofPacket whole)).inbox.Receives ms arrived' (insert (m.first + j) seen) returned (out ++ [m]) := by
  have hms := h.manifest
  have hspan := h.span
  have hm := h.mem
  cases ht with
  | complete hwhole hall holds hgone hothers =>
  have hlanes' := h.before.lanes.mono (List.prefix_refl ms) (Set.subset_insert (m.first + j) seen)
  obtain ⟨hkeeps, hwaits⟩ := hlanes'.acceptSequenced hms hspan hm hq hlanes
  have hpasts : ∀ x ∈ ms, x.reliability.isSequenced = true →
      (lanes.IsPast x ↔ s.lanes.IsPast x ∨ x = m ∨ x.Precedes m) := fun x hx hxq =>
    hlanes'.isPast_acceptSequenced_iff hms hspan hm hq hlanes hx hxq
  have hnew : m ∉ out := fun hout => h.new ((h.before.mem_out m hout).2 _ h.owns)
  have hdropped : (r'.dropSuperseded m.channel (lanes.get (.ofNat m.channel)).sequenced).2.Holds
      ms (insert (m.first + j) seen) := holds.dropWhere _
  refine h.before.step hms hm h.owns h.tracks hdropped hkeeps ?_
    (List.nodup_singleton m) ?_ (Nat.le_refl _) (fun hr => ⟨hroom hr, rfl⟩) ?_ ?_ ?_ ?_
  · simp [Session.deliver, count, inbox, hwhole]
  · intro x hx
    obtain rfl := List.mem_singleton.mp hx
    exact ⟨hm, hnew, hall⟩
  · exact fun x _ hw => Or.inr ((hwaits x).mpr hw)
  · intro x hx hxm hxq k
    exact (holds.holdsPart_dropSuperseded_iff hms hspan hx hxq ..).trans (hothers x hx hxm k)
  · intro hq'
    rw [hq] at hq'
    cases hq'
  · intro x hx hxq hacc
    by_cases hxm : x = m
    · exact .of_past ((hpasts x hx hxq).mpr (Or.inr (Or.inl hxm)))
    -- the fragments of an older message are dropped, and its channel is past it
    · refine hacc.other hms hx hm h.owns hxm (fun hold => (hpasts x hx hxq).mpr (Or.inl hold))
        (fun k hk => ?_) (Nat.le_refl _)
      have hk' := (hothers x hx hxm k).mpr hk
      refine (holds.holdsPart_dropSuperseded hms hspan hx hxq m.channel _ hk').imp_left ?_
      rintro ⟨hchannel, holder⟩
      rw [← hchannel] at holder
      exact holder

/-- Of a sequenced message one more packet is taken in: nothing comes out and no channel moves, or the
message comes out, and its channel goes past it. -/
structure Sequences (s s' : Session) (ms : List Shipment) (arrived' : Arrivals) (seen : Set Nat)
    (returned : List Delivery) (out : List Shipment) (m : Shipment) (j : Nat) : Prop where
  invalid_le : s.inbox.invalid ≤ s'.inbox.invalid
  comes : s'.inbox.Receives ms arrived' (insert (m.first + j) seen) returned out ∧ s'.lanes = s.lanes ∨
    s'.inbox.Receives ms arrived' (insert (m.first + j) seen) returned (out ++ [m]) ∧
      s.lanes.acceptSequenced? (.ofNat m.channel) (.ofNat m.index) = some s'.lanes

theorem Sequences.settles {s' : Session} (h : s.Sequences s' ms arrived' seen returned out m j) :
    s'.Settles ms arrived' seen returned m j := by
  rcases h.comes with ⟨hreceives, -⟩ | ⟨hreceives, -⟩
  · exact ⟨out, hreceives⟩
  · exact ⟨out ++ [m], hreceives⟩

theorem Sequences.congr {s₁ s' : Session} (h : s₁.Sequences s' ms arrived' seen returned out m j)
    (hs : s₁.inbox = s.inbox) : s.Sequences s' ms arrived' seen returned out m j := by
  have hlanes : s₁.lanes = s.lanes := congrArg Inbox.lanes hs
  exact ⟨hs ▸ h.invalid_le, hlanes ▸ h.comes⟩

/-- A sequenced packet comes out, is held, or is lost. -/
theorem Meets.acceptSequenced (h : s.Meets log ms arrived arrived' seen returned out m j c)
    (hq : m.reliability.isSequenced = true) (now : Instant) :
    s.Sequences (s.acceptSequenced (m.packet j c).decoded
      { channel := m.channel, index := .ofNat m.index } now) ms arrived' seen returned out m j := by
  rw [Session.acceptSequenced]
  dsimp only
  split_ifs with hstale
  · refine ⟨Nat.le_refl _, Or.inl ⟨h.before.skip h.manifest h.mem hq h.owns h.tracks
      (h.before.holds.mono (fun _ hm => hm) (Set.subset_insert ..)) rfl rfl (Nat.le_refl _)
      (fun hroom => ⟨hroom, rfl⟩) (fun _ _ _ _ => Iff.rfl) fun _ => .of_past hstale, rfl⟩⟩
  · obtain ⟨result, r', ht, hparts, hbytes, hcases⟩ := h.reassemble now
    have hroom : r'.HasRoom ms → s.reassembler.HasRoom ms := fun hr =>
      hr.congr hparts.symm hbytes.symm
    rcases hcases with ⟨whole, rfl, heq⟩ | ⟨rfl, heq⟩ | ⟨hrefused, rfl, heq⟩
    · rw [heq]
      dsimp only
      cases hlanes : s.lanes.acceptSequenced? (.ofNat m.channel) (.ofNat m.index) with
      | none => simp [Lanes.acceptSequenced?, Lane.acceptSequenced?, hstale] at hlanes
      | some lanes => exact ⟨Nat.le_refl _, Or.inr ⟨h.overtake hq ht hroom hlanes, hlanes⟩⟩
    · rw [heq]
      cases ht with
      | pending holds hpart hkept hothers =>
      refine ⟨Nat.le_refl _, Or.inl ⟨h.before.skip h.manifest h.mem hq h.owns h.tracks holds rfl rfl
        (Nat.le_refl _) (fun hr => ⟨hroom hr, rfl⟩) hothers fun hacc =>
          hacc.pending rfl hpart hkept (Nat.le_refl _), rfl⟩⟩
    · rw [heq]
      exact ⟨Nat.le_succ _, Or.inl ⟨h.refused ht hrefused, rfl⟩⟩

/-- The packet of a message that is not sequenced changes nothing for those that are. -/
theorem Meets.sequenced_others (h : s.Meets log ms arrived arrived' seen returned out m j c)
    (hq : m.reliability.isSequenced = false) {i : Inbox} (hinvalid : i.invalid = s.inbox.invalid)
    (hothers : ∀ x ∈ ms, x ≠ m → ∀ k, i.reassembler.HoldsPart x k ↔ s.reassembler.HoldsPart x k)
    (hpasts : ∀ x, s.lanes.IsPast x → i.lanes.IsPast x) : ∀ x ∈ ms,
      x.reliability.isSequenced = true → s.inbox.AccountsSequenced seen x →
        i.AccountsSequenced (insert (m.first + j) seen) x := by
  intro x hx hxq hacc
  have hxm : x ≠ m := by
    rintro rfl
    rw [hq] at hxq
    cases hxq
  exact hacc.other h.manifest hx h.mem h.owns hxm (hpasts x)
    (fun k hk => Or.inr ((hothers x hx hxm k).mpr hk)) (Nat.le_of_eq hinvalid.symm)

/-- A complete ordered message goes through its lane. -/
theorem Meets.acceptOrdered (h : s.Meets log ms arrived arrived' seen returned out m j c)
    (ho : m.reliability.isOrdered = true) {whole : Packet} {r' : Reassembler}
    (ht : s.reassembler.Takes ms seen m j (.complete whole) r')
    (hroom : r'.HasRoom ms → s.reassembler.HasRoom ms) :
    (({ s with reassembler := r' } : Session).acceptOrdered whole
      { channel := m.channel, index := .ofNat m.index }).Settles ms arrived' seen returned m j := by
  cases ht with
  | complete hwhole hall holds hgone hothers =>
  have hfresh : ¬m.SeenIn seen := fun hall => h.new (hall _ h.owns)
  rw [Session.acceptOrdered, hwhole]
  dsimp only
  generalize hstep : s.lanes.acceptOrdered (.ofNat m.channel) (.ofNat m.index) m.delivery = step
  obtain ⟨arrival, lanes⟩ := step
  obtain ⟨rs, hdelivered, hkeeps, hnodup, hrs, hself, hwaits, hpasts⟩ :=
    h.before.lanes.acceptOrdered h.manifest h.span h.mem ho hfresh (Set.subset_insert ..) hall hstep
  have houtput : ((arrival.delivered m.delivery).foldl Fifo.push s.output).toList =
      s.output.toList ++ rs.map Shipment.delivery := by
    rw [Fifo.toList_foldl_push, hdelivered]
  -- the counters aside, both outcomes are this session
  have hinbox : ∀ s' : Session, s'.inbox = { s.inbox with
      reassembler := r', lanes, output := ((arrival.delivered m.delivery).foldl Fifo.push
        s.output).toList } → s'.Settles ms arrived' seen returned m j := by
    intro s' hs'
    refine ⟨out ++ rs, hs' ▸ h.before.step h.manifest h.mem h.owns h.tracks holds hkeeps houtput
      hnodup hrs (Nat.le_refl _) (fun hr => ⟨hroom hr, rfl⟩) hwaits
      (fun x hx hxm _ => hothers x hx hxm) ?_ ?_⟩
    · exact fun _ _ _ => .complete hall (hself.imp_left (List.mem_append_right _)) hgone
    · exact h.sequenced_others (Reliability.not_isSequenced_of_isOrdered ho) rfl hothers
        fun x => (hpasts x).mpr
  cases arrival <;> exact hinbox _ rfl

/-- A complete message without order comes out at once. -/
theorem Meets.deliver (h : s.Meets log ms arrived arrived' seen returned out m j c)
    (ho : m.reliability.isOrdered = false) (hq : m.reliability.isSequenced = false) {whole : Packet}
    {r' : Reassembler} (ht : s.reassembler.Takes ms seen m j (.complete whole) r')
    (hroom : r'.HasRoom ms → s.reassembler.HasRoom ms) :
    (({ s with reassembler := r' } : Session).deliver (.ofPacket whole)).Settles ms arrived' seen
      returned m j := by
  cases ht with
  | complete hwhole hall holds hgone hothers =>
  have hlanes := h.before.lanes.mono (List.prefix_refl ms) (Set.subset_insert (m.first + j) seen)
  have hnew : m ∉ out := fun hout => h.new ((h.before.mem_out m hout).2 _ h.owns)
  refine ⟨out ++ [m], h.before.step h.manifest h.mem h.owns h.tracks holds (hlanes.plain ho hq) ?_
    (List.nodup_singleton m) ?_ (Nat.le_refl _) (fun hr => ⟨hroom hr, rfl⟩)
    (fun x _ hw => Or.inr hw) (fun x hx hxm _ => hothers x hx hxm) ?_
    (h.sequenced_others hq rfl hothers fun _ => id)⟩
  · simp [Session.deliver, count, inbox, hwhole]
  · intro x hx
    obtain rfl := List.mem_singleton.mp hx
    exact ⟨h.mem, hnew, hall⟩
  · exact fun _ _ _ => .complete hall (Or.inl (by simp)) hgone

/-- Any other packet comes out or is held, in its order if it has one. -/
theorem Meets.acceptUnsequenced (h : s.Meets log ms arrived arrived' seen returned out m j c)
    (hq : m.reliability.isSequenced = false) (now : Instant) :
    (match s.reassemble (m.packet j c).decoded now with
      | (none, s) => s
      | (some whole, s) =>
        if m.reliability.isOrdered then
          match m.place with
          | none => s
          | some place => s.acceptOrdered whole place
        else s.deliver (.ofPacket whole)).Settles ms arrived' seen returned m j := by
  obtain ⟨result, r', ht, hparts, hbytes, hcases⟩ := h.reassemble now
  have hroom : r'.HasRoom ms → s.reassembler.HasRoom ms := fun hr =>
    hr.congr hparts.symm hbytes.symm
  rcases hcases with ⟨whole, rfl, heq⟩ | ⟨rfl, heq⟩ | ⟨hrefused, rfl, heq⟩
  · rw [heq]
    dsimp only
    split_ifs with ho
    · rw [place_eq (by simp [Reliability.usesChannel, ho])]
      exact h.acceptOrdered ho ht hroom
    · exact h.deliver (by simpa using ho) hq ht hroom
  · rw [heq]
    cases ht with
    | pending holds hpart hkept hothers =>
    exact ⟨out, h.before.stay h.manifest h.mem h.owns h.tracks holds rfl rfl (Nat.le_refl _)
      (fun hr => ⟨hroom hr, rfl⟩) hothers
      (fun _ _ hacc => hacc.pending h.manifest h.span h.mem h.new (Shipment.lt_size h.chunk) holds hpart
        hkept) fun _ hacc => hacc.pending rfl hpart hkept (Nat.le_refl _)⟩
  · rw [heq]
    exact ⟨out, h.refused ht hrefused⟩

/-- Before a fragment is taken in, incomplete messages that are too old would go, but there are none. -/
theorem Meets.purge (h : s.Meets log ms arrived arrived' seen returned out m j c) (now : Instant) :
    let s₁ := if (m.packet j c).decoded.part.isSome then s.purgeSplits now else s
    s₁.inbox = s.inbox ∧ s₁.Meets log ms arrived arrived' seen returned out m j c := by
  intro s₁
  have hinbox : s₁.inbox = s.inbox := by
    simp only [s₁]
    split_ifs
    · exact inbox_purgeSplits h.before.holds now
    · rfl
  exact ⟨hinbox, h.congr hinbox⟩

theorem Meets.acceptNew_of_isSequenced (h : s.Meets log ms arrived arrived' seen returned out m j c)
    (hq : m.reliability.isSequenced = true) (now : Instant) :
    s.Sequences (s.acceptNew (m.packet j c).decoded now) ms arrived' seen returned out m j := by
  obtain ⟨hinbox, h₁⟩ := h.purge now
  have hreliability : (m.packet j c).decoded.reliability = m.reliability := rfl
  have hplace : (m.packet j c).decoded.place = m.place := rfl
  rw [Session.acceptNew, hreliability, hplace, if_pos hq, place_eq (by simp [Reliability.usesChannel, hq])]
  exact (h₁.acceptSequenced hq now).congr hinbox

theorem Meets.acceptNew (h : s.Meets log ms arrived arrived' seen returned out m j c) (now : Instant) :
    (s.acceptNew (m.packet j c).decoded now).Settles ms arrived' seen returned m j := by
  by_cases hq : m.reliability.isSequenced = true
  · exact (h.acceptNew_of_isSequenced hq now).settles
  · obtain ⟨-, h₁⟩ := h.purge now
    have hreliability : (m.packet j c).decoded.reliability = m.reliability := rfl
    have hplace : (m.packet j c).decoded.place = m.place := rfl
    rw [Session.acceptNew, hreliability, hplace, if_neg hq]
    exact h₁.acceptUnsequenced (by simpa using hq) now

/-- The log answers: the number is new, and the packet is taken in, or it is not, and only the log has
changed. -/
theorem handlePacket_cases (h : s.inbox.Receives ms arrived seen returned out) (hms : Manifest ms)
    (hspan : total Shipment.size ms ≤ Counter.span) (hm : m ∈ ms) (hc : m.chunks[j]? = some c)
    (now : Instant) :
    (∃ acks arrivals,
        s.handlePacket (m.packet j c).decoded now =
          ({ s with acks, arrivals } : Session).acceptNew (m.packet j c).decoded now ∧
        ({ s with acks, arrivals } : Session).Meets s.arrivals ms arrived
          (arrived ++ [(m.first + j, now)]) seen returned out m j c) ∨
      ∃ arrivals, (s.handlePacket (m.packet j c).decoded now).inbox = { s.inbox with arrivals } ∧
        ({ s.inbox with arrivals } : Inbox).Receives ms (arrived ++ [(m.first + j, now)]) seen returned
          out := by
  have hn := hms.lt_total hm (Shipment.owns_add (Shipment.lt_size hc))
  rw [handlePacket]
  have htracks : s.arrivals.Tracks (total Shipment.size ms) arrived seen := h.tracks
  have hrecord := htracks.record hspan hn now
  have hsequence : (m.packet j c).decoded.sequence = .ofNat (m.first + j) := rfl
  rw [← hsequence] at hrecord
  generalize s.arrivals.record (m.packet j c).decoded.sequence now = answer at hrecord
  obtain ⟨arrival, log⟩ := answer
  rcases hrecord with ⟨hnew, harrival, htracks⟩ | ⟨-, harrival, htracks⟩
  · obtain rfl : arrival = .new := harrival
    exact Or.inl ⟨_, log, rfl, h, hms, hspan, hm, hc, hnew, htracks⟩
  · obtain rfl : arrival = .duplicate := harrival
    exact Or.inr ⟨log, rfl, h.again htracks⟩

/-- A packet of the sender keeps the invariant, whether it was seen before or not. -/
theorem receives_handlePacket (h : s.inbox.Receives ms arrived seen returned out) (hms : Manifest ms)
    (hspan : total Shipment.size ms ≤ Counter.span) (hm : m ∈ ms) (hc : m.chunks[j]? = some c)
    (now : Instant) :
    ∃ seen' out', (s.handlePacket (m.packet j c).decoded now).inbox.Receives ms
      (arrived ++ [(m.first + j, now)]) seen' returned out' := by
  rcases handlePacket_cases h hms hspan hm hc now with ⟨acks, log, heq, hmeets⟩ | ⟨log, hinbox, hagain⟩
  · rw [heq]
    exact ⟨insert (m.first + j) seen, hmeets.acceptNew now⟩
  · rw [hinbox]
    exact ⟨seen, out, hagain⟩

@[simp] theorem inbox_handleAck (s : Session) (q : SequenceNumber) (now : Instant) :
    (s.handleAck q now).inbox = s.inbox := by
  rw [handleAck]
  dsimp only
  split <;> rfl

end Session

/-- The packets among the entries of a datagram, and when they came. -/
def Entry.arrivals (entries : List Entry) (now : Instant) : Arrivals :=
  entries.filterMap fun
    | .ack _ => none
    | .data p => some (p.sequence.toNat, now)

theorem Entry.arrivals_decoded (entries : List Entry) (now : Instant) :
    Entry.arrivals (entries.map Entry.decoded) now = Entry.arrivals entries now := by
  rw [Entry.arrivals, List.filterMap_map]
  apply List.filterMap_congr
  intro e _
  cases e <;> rfl

namespace Session

variable {s : Session} {ms : List Shipment} {arrived : Arrivals} {seen : Set Nat}
  {returned : List Delivery} {out : List Shipment}

def countDatagram (s : Session) (length : Nat) : Session :=
  s.count fun c =>
    { c with framesReceived := c.framesReceived + 1, bitsReceived := c.bitsReceived + length * 8 }

/-- A datagram comes down to its entries, apart from the window. -/
theorem handleDatagram_eq (halive : s.isDead = false) {data : Bytes} {entries : List Entry}
    (hread : Frame.read data = (entries, none)) (now : Instant) :
    ∃ window, (s.handleDatagram data now).2 =
      { entries.foldl (handleEntry now) (s.countDatagram data.length) with window } := by
  rw [handleDatagram, hread, halive]
  exact ⟨_, rfl⟩

/-- A session that lives counts the datagram and handles the entries. Behind them only the window changes,
and the number of invalid messages. -/
theorem handleDatagram_cases (s : Session) (data : Bytes) (now : Instant) :
    (s.isDead = true ∧ (s.handleDatagram data now).2 = s) ∨
      (s.isDead = false ∧ ∃ window invalid,
        let handled := (Frame.read data).1.foldl (handleEntry now) (s.countDatagram data.length)
        (s.handleDatagram data now).2 =
          { handled with
            window, counters := { handled.counters with invalidMessagesReceived := invalid } }) := by
  rw [handleDatagram]
  split_ifs with hdead
  · exact Or.inl ⟨hdead, rfl⟩
  · refine Or.inr ⟨by simpa using hdead, ?_⟩
    generalize Frame.read data = answer
    obtain ⟨entries, error?⟩ := answer
    cases error? with
    | none => exact ⟨_, _, rfl⟩
    | some e => exact ⟨_, _, rfl⟩

/-- The packets of the shipments keep `I`, which speaks of the inbox and of what has arrived. -/
def Upholds (ms : List Shipment) (I : Inbox → Arrivals → Prop) : Prop :=
  ∀ (s : Session) (arrived : Arrivals) (m : Shipment) (j : Nat) (c : Chunk) (now : Instant), m ∈ ms →
    m.chunks[j]? = some c → I s.inbox arrived →
      I (s.handlePacket (m.packet j c).decoded now).inbox (arrived ++ [(m.first + j, now)])

theorem upholds_receives (hms : Manifest ms) (hspan : total Shipment.size ms ≤ Counter.span)
    (returned : List Delivery) : Upholds ms fun i arrived =>
      ∃ seen out, i.Receives ms arrived seen returned out := by
  rintro s arrived m j c now hm hc ⟨seen, out, h⟩
  exact receives_handlePacket h hms hspan hm hc now

section Upholds

variable {I : Inbox → Arrivals → Prop} (hI : Upholds ms I) (hms : Manifest ms)
  (hspan : total Shipment.size ms ≤ Counter.span)
include hI hms hspan

theorem Upholds.handleEntries (h : I s.inbox arrived) {entries : List Entry}
    (hdata : ∀ p, .data p ∈ entries → ∃ m ∈ ms, p ∈ m.packets) (now : Instant) :
    I ((entries.map Entry.decoded).foldl (handleEntry now) s).inbox
      (arrived ++ Entry.arrivals entries now) := by
  induction entries generalizing s arrived with
  | nil => simpa [Entry.arrivals] using h
  | cons e entries ih =>
    have hrest : ∀ p, .data p ∈ entries → ∃ m ∈ ms, p ∈ m.packets := fun p hp => hdata p (by simp [hp])
    cases e with
    | ack q =>
      have h' : I (s.handleAck q now).inbox arrived := by
        rwa [inbox_handleAck]
      exact ih h' hrest
    | data p =>
      obtain ⟨m, hm, hp⟩ := hdata p (by simp)
      obtain ⟨j, c, hc, rfl⟩ := Shipment.mem_packets.mp hp
      have hn := hms.lt_total hm (Shipment.owns_add (Shipment.lt_size hc))
      have hnumber : (m.packet j c).sequence.toNat = m.first + j :=
        Counter.toNat_ofNat_of_le (by omega)
      have harrived : arrived ++ Entry.arrivals (.data (m.packet j c) :: entries) now =
          arrived ++ [(m.first + j, now)] ++ Entry.arrivals entries now := by
        simp [Entry.arrivals, hnumber]
      rw [harrived]
      exact ih (hI s arrived m j c now hm hc h) hrest

theorem Upholds.handleDatagram (h : I s.inbox arrived) (halive : s.isDead = false) {f : Frame}
    (hf : f.Encoded) (hentries : ∀ e ∈ f.entries, e.WellFormed)
    (hdata : ∀ p, .data p ∈ f.entries → ∃ m ∈ ms, p ∈ m.packets) (now : Instant) :
    I (s.handleDatagram f.bytes now).2.inbox
      (arrived ++ Entry.arrivals (Frame.read f.bytes).1 now) := by
  have hread := Frame.read_encoded hf hentries
  obtain ⟨window, heq⟩ := handleDatagram_eq halive hread now
  have hcounted : I (s.countDatagram f.bytes.length).inbox arrived := h
  rw [heq, hread, Entry.arrivals_decoded]
  exact hI.handleEntries hms hspan hcounted hdata now

end Upholds

end Session
end ReliableDatagram
