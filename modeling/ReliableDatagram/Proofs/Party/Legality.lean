import ReliableDatagram.Proofs.Network.Completeness
import ReliableDatagram.Proofs.Wire.Sizes

/-!
# Legal frames

Every frame that a session transmits holds at least one entry, keeps to the budget of the session, and
is read back as the entries that were put into it. Every packet that is queued or in flight fits an
empty frame, since its message was cut with the largest header in mind.
-/
namespace ReliableDatagram

/-- A packet has room in an empty frame. Of acknowledgements nothing is asked. -/
def Entry.FitsAlone (maxBytes : Nat) : Entry → Prop
  | .ack _ => True
  | .data p => (FrameBuilder.ofMaxBytes maxBytes).fits (.data p) = true

theorem Packet.fitsAlone_of_le {p : Packet} {maxBytes : Nat}
    (h : p.payloadLength + maxHeaderBytes p.reliability p.part.isSome ≤ maxBytes) :
    (Entry.data p).FitsAlone maxBytes := by
  have hbits := p.bitsAt_zero_le
  have hroom : p.bitsAt 0 ≤ maxBytes * 8 - 0 := by omega
  exact decide_eq_true hroom

namespace Config

variable {c : Config} {length : Nat} {r : Reliability}

theorem le_frameBudget_of_shape_whole (h : c.shape length r = .ok .whole) :
    length + Packet.maxHeaderBytes r false ≤ c.frameBudget := by
  unfold shape at h
  dsimp only at h
  split_ifs at h with hfits
  · exact hfits
  · cases h

theorem le_frameBudget_of_shape_cut {size : Nat} (h : c.shape length r = .ok (.cut size)) :
    size + Packet.maxHeaderBytes r.asReliable true ≤ c.frameBudget := by
  have hsize := (size_of_shape_cut h).1
  unfold shape at h
  dsimp only at h
  split_ifs at h with hfits
  · cases h
  · obtain rfl := Shape.cut.inj (Except.ok.inj h)
    omega

end Config

namespace Session

variable {s s' : Session} {payload : Bytes} {bitLength : Nat} {priority : Priority} {r : Reliability}
  {channel : Nat}

theorem queues_takePlace (s : Session) (r : Reliability) (channel : Nat) :
    (s.takePlace r channel).2.queues = s.queues := by
  rw [takePlace]
  split_ifs <;> rfl

/-- Whatever is accepted is queued in packets that fit. -/
theorem queues_sendBits (h : s.sendBits payload bitLength priority r channel = .ok s') :
    ∃ packets : List Packet, s'.queues = s.queues.modify priority (packets.foldl Fifo.push) ∧
      ∀ p ∈ packets, (Entry.data p).FitsAlone s.config.frameBudget := by
  obtain ⟨-, hpos, -, ⟨hshape, rfl⟩ | ⟨size, hshape, rfl⟩⟩ := sendBits_ok h
  · have hroom := Config.le_frameBudget_of_shape_whole hshape
    refine ⟨[_], by rw [← s.queues_takePlace r channel]; rfl, fun p hp => ?_⟩
    obtain rfl := List.mem_singleton.mp hp
    exact Packet.fitsAlone_of_le hroom
  · have hroom := Config.le_frameBudget_of_shape_cut hshape
    have hsize := (Config.size_of_shape_cut hshape).1
    have hbits : effectiveBits payload bitLength ≤ 8 * payload.length := by
      simp only [effectiveBits]
      omega
    refine ⟨_, by rw [← s.queues_takePlace r.asReliable channel]; rfl, fun p hp => ?_⟩
    obtain ⟨⟨chunk, index⟩, hchunk, rfl⟩ := List.mem_map.mp hp
    have hmem : chunk ∈ Chunk.cut payload (effectiveBits payload bitLength) size :=
      List.fst_mem_of_mem_zipIdx hchunk
    have hle := (Chunk.mem_cut hsize hbits chunk hmem).2.1
    exact Packet.fitsAlone_of_le (Nat.le_trans (Nat.add_le_add_right hle _) hroom)

end Session

namespace Transmission

/-- All frames keep to the budget, and none of those that are finished is empty. -/
structure Bounded (t : Transmission) (budget : Nat) : Prop where
  frames : ∀ f ∈ t.frames, f.entries ≠ [] ∧ f.bytes.length ≤ budget
  stocks : t.filling.session.Stocks Entry.WellFormed
  budget_eq : t.filling.session.config.frameBudget = budget
  capacity_eq : t.filling.frame.capacity = budget * 8
  bitLength_le : t.filling.frame.bitLength ≤ t.filling.frame.capacity

variable {t t' : Transmission} {budget : Nat} {now : Instant}

theorem bounded_start {s : Session} (h : s.Stocks Entry.WellFormed) (lost : Bool) :
    (start s lost).Bounded s.config.frameBudget where
  frames := by simp [start]
  stocks := h
  budget_eq := rfl
  capacity_eq := rfl
  bitLength_le := Nat.zero_le _

theorem Bounded.step (h : t.Bounded budget) (hstep : Step now t t') : t'.Bounded budget := by
  cases hstep with
  | @fill d hfill =>
    have hconfig : d.session.config = t.filling.session.config :=
      congrArg Session.Standing.config hfill.standing
    refine ⟨h.frames, hfill.stocks h.stocks, hconfig ▸ h.budget_eq, ?_, ?_⟩
    · rcases hfill.frame_cases (P := Entry.WellFormed) with heq | ⟨e, -, -, heq⟩
      · exact heq ▸ h.capacity_eq
      · exact heq ▸ h.capacity_eq
    · rcases hfill.frame_cases with heq | ⟨e, he, hfits, heq⟩
      · exact heq ▸ h.bitLength_le
      · exact heq ▸ FrameBuilder.bitLength_push_le (he h.stocks).backed h.bitLength_le hfits
  | close hempty =>
    refine ⟨fun f hf => ?_, ⟨h.stocks.queued, h.stocks.inFlight, h.stocks.acks⟩, h.budget_eq, ?_,
      Nat.zero_le _⟩
    · rcases List.mem_append.mp hf with hf | hf
      · exact h.frames f hf
      · obtain rfl := List.mem_singleton.mp hf
        have hle := h.bitLength_le
        rw [h.capacity_eq, Nat.mul_comm] at hle
        exact ⟨by simpa [FrameBuilder.isEmpty, FrameBuilder.finish] using hempty,
          FrameBuilder.length_finish_le hle⟩
    · exact congrArg (· * 8) h.budget_eq

end Transmission

namespace Session

/-- What the session could put into a frame: packets that are queued or in flight, and pending
acknowledgements. -/
def Offers (s : Session) : Entry → Prop
  | .data p => p ∈ s.queued ∨ p ∈ s.resend.packets
  | .ack q => ∃ a ∈ s.acks.toList, a.sequence = q

theorem stocks_offers (s : Session) : s.Stocks s.Offers where
  queued priority _ hp := Or.inl (mem_queued.mpr ⟨priority, hp⟩)
  inFlight _ hp := Or.inr hp
  acks a ha := ⟨a, ha, rfl⟩

end Session

/-- A frame that the session may transmit: it has entries, which the session offers, it keeps to the
budget, and it is read back. -/
structure Frame.Legal (f : Frame) (s : Session) : Prop where
  entries_ne_nil : f.entries ≠ []
  offered : ∀ e ∈ f.entries, s.Offers e
  length_le : f.bytes.length ≤ s.config.frameBudget
  decode_eq : decode f.bytes = .ok (f.entries.map Entry.decoded)

theorem Session.Stocks.legal {s : Session} (h : s.Stocks Entry.WellFormed) (now : Instant) :
    ∀ f ∈ (s.transmit now).1, f.Legal s := by
  intro f hf
  obtain ⟨hencoded, hwell⟩ := (transmit_spec h now).1 f hf
  have hoffered := ((transmit_spec s.stocks_offers now).1 f hf).2
  have hbounded : f.entries ≠ [] ∧ f.bytes.length ≤ s.config.frameBudget := by
    rcases s.transmit_cases now with ⟨-, heq⟩ | ⟨-, -, heq⟩ | ⟨-, -, d, -, -, hsteps⟩
    · simp [heq] at hf
    · simp [heq] at hf
    · have hframes := (hsteps.keep (fun _ _ hstep h => Transmission.Bounded.step h hstep)
        (Transmission.bounded_start h false)).frames
      exact hframes f hf
  refine ⟨hbounded.1, hoffered, hbounded.2, ?_⟩
  rw [Frame.decode, Frame.read_encoded hencoded hwell]

namespace Party

variable {p : Party}

theorem fitsAlone_submit (h : p.Reachable)
    (hfits : p.session.Stocks (Entry.FitsAlone p.session.config.frameBudget)) {payload : Bytes}
    {bitLength : Nat} {priority : Priority} {r : Reliability} {channel : Nat}
    {result : Except SendError Session}
    (hresult : ∀ s', result = .ok s' →
      p.session.sendBits payload bitLength priority r channel = .ok s') :
    let p' := p.submit payload bitLength r channel result
    p'.session.Stocks (Entry.FitsAlone p'.session.config.frameBudget) := by
  cases result with
  | error e => exact hfits
  | ok s' =>
    obtain ⟨ms, hsound⟩ := h.sound
    obtain ⟨m, -, -, hextends, -⟩ := Session.sends_sendBits hsound.sends (hresult s' rfl)
    obtain ⟨packets, hqueues, hpackets⟩ := Session.queues_sendBits (hresult s' rfl)
    show s'.Stocks (Entry.FitsAlone s'.config.frameBudget)
    rw [hextends.config_eq]
    refine ⟨fun other x hx => ?_, hextends.resend_eq ▸ hfits.inFlight, fun a _ => trivial⟩
    rw [hqueues, PerPriority.get_modify] at hx
    split_ifs at hx
    · rw [Fifo.toList_foldl_push] at hx
      rcases List.mem_append.mp hx with hx | hx
      · exact hfits.queued other x hx
      · exact hpackets x hx
    · exact hfits.queued other x hx

theorem Reachable.fitsAlone (h : p.Reachable) :
    p.session.Stocks (Entry.FitsAlone p.session.config.frameBudget) := by
  induction h with
  | new config now => exact Session.stocks_new ..
  | @act p h action ih =>
    cases action with
    | send payload priority r channel => exact fitsAlone_submit h ih fun s' => Session.send_ok
    | sendBits payload bitLength priority r channel => exact fitsAlone_submit h ih fun s' => id
    | update now =>
      obtain ⟨-, hstocks, hstanding | hdie⟩ := Session.transmit_spec ih now
      · have hconfig : (p.session.transmit now).2.config = p.session.config :=
          congrArg Session.Standing.config hstanding
        rw [← hconfig] at hstocks
        exact hstocks
      · rw [Party.act, hdie]
        exact Session.stocks_die _
    | handle data now =>
      obtain ⟨hstocks, hhandles, -⟩ := Session.handleDatagram_spec ih (fun _ _ _ => trivial) now
      rw [← hhandles.config_eq] at hstocks
      exact hstocks
    | receive =>
      obtain ⟨output, returned, hact⟩ := p.exists_receive
      rw [hact]
      exact ⟨ih.queued, ih.inFlight, ih.acks⟩
    | setResendDelay delay => exact ⟨ih.queued, ih.inFlight, ih.acks⟩
    | kill => exact Session.stocks_die _
    | close =>
      have hstocks := @Session.stocks_die p.session
        (Entry.FitsAlone p.session.config.frameBudget) .closedLocally
      exact ⟨hstocks.queued, hstocks.inFlight, hstocks.acks⟩

/-- Whatever was submitted and whatever has arrived: all frames that are transmitted are legal, and no
packet is too large for a frame. -/
theorem Reachable.legal_transmit (h : p.Reachable) :
    (∀ now, ∀ f ∈ (p.session.transmit now).1, f.Legal p.session) ∧
      ∀ x, x ∈ p.session.queued ∨ x ∈ p.session.resend.packets →
        (FrameBuilder.ofMaxBytes p.session.config.frameBudget).fits (.data x) = true := by
  obtain ⟨ms, hsound⟩ := h.sound
  have hwell : p.session.Stocks Entry.WellFormed := hsound.stocks.mono fun e he => he.wellFormed
  refine ⟨hwell.legal, ?_⟩
  rintro x (hx | hx)
  · obtain ⟨priority, hx⟩ := Session.mem_queued.mp hx
    exact h.fitsAlone.queued priority x hx
  · exact h.fitsAlone.inFlight x hx

theorem legal_transmit_fragments :
    let p := submissions.foldl act (.new narrow 0)
    (p.session.transmit 5).1.length = 3 ∧ (∀ now, ∀ f ∈ (p.session.transmit now).1, f.Legal p.session) ∧
      ∀ x, x ∈ p.session.queued ∨ x ∈ p.session.resend.packets →
        (FrameBuilder.ofMaxBytes p.session.config.frameBudget).fits (.data x) = true :=
  ⟨by decide +kernel, Reachable.legal_transmit (Reachable.acts (.new narrow 0) submissions)⟩

end Party
end ReliableDatagram
