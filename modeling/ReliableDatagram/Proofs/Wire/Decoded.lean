import ReliableDatagram.Proofs.Wire.Frames

/-!
# What is read from any datagram

`Decoder.Yields d P` says that whatever `d` reads satisfies `P`, also from bits that nobody wrote. It is
closed under `bind`, so what is known of the fields adds up to this: every entry that is read is well
formed, and it is the same that would be read again.
-/
namespace ReliableDatagram

namespace Decoder

variable {α β : Type} {P : α → Prop} {Q : β → Prop}

/-- Whatever is read satisfies `P`. -/
def Yields (d : Decoder α) (P : α → Prop) : Prop :=
  ∀ (r : BitReader) (a : α) (r' : BitReader), d r = .ok a r' → P a

theorem yields_any (d : Decoder α) : Yields d fun _ => True := fun _ _ _ _ => trivial

theorem Yields.mono {d : Decoder α} (h : Yields d P) {P' : α → Prop} (hP : ∀ a, P a → P' a) :
    Yields d P' :=
  fun r a r' hr => hP a (h r a r' hr)

theorem Yields.pure {a : α} (h : P a) : Yields (Pure.pure a : Decoder α) P := by
  intro r b r' hr
  cases hr
  exact h

theorem Yields.throw (e : Malformed) : Yields (throw e : Decoder α) P := by
  intro r a r' hr
  cases hr

theorem Yields.bind {d : Decoder α} {f : α → Decoder β} (hd : Yields d P)
    (hf : ∀ a, P a → Yields (f a) Q) : Yields (d >>= f) Q := by
  intro r b r' hr
  obtain ⟨a, r₁, h₁, h₂⟩ := of_bind_ok hr
  exact hf a (hd r a r₁ h₁) r₁ b r' h₂

theorem Yields.ite {c : Prop} [Decidable c] {d e : Decoder α} (hd : c → Yields d P)
    (he : ¬c → Yields e P) : Yields (if c then d else e) P := by
  split
  · exact hd ‹_›
  · exact he ‹_›

theorem yields_readBitList (count : Nat) : Yields (readBitList count) (·.length = count) := by
  induction count with
  | zero => exact .pure rfl
  | succ n ih =>
    refine (yields_any readBit).bind fun b _ => ih.bind fun bits hbits => .pure ?_
    rw [List.length_cons, hbits]

theorem yields_readBits (count : Nat) : Yields (readBits count) (· < 2 ^ count) := by
  intro r v r' h
  unfold readBits at h
  split at h
  · simp only [Functor.map, EStateM.map] at h
    split at h
    · rename_i bits r₁ hb
      cases h
      have hlt := Bits.toNat_lt bits
      rwa [yields_readBitList count r bits _ hb, Bits.two_pow_eq_shiftLeft] at hlt
    · cases h
  · cases h

theorem yields_readBytes (count : Nat) : Yields (readBytes count) (·.length = count) := by
  intro r data r' h
  simp only [readBytes] at h
  split at h
  · rename_i hlength
    cases h
    exact hlength
  · cases h

end Decoder

namespace Compressed

theorem yields_readOctets (n value : Nat) :
    Decoder.Yields (readOctets n value) (· < (value + 1) * 256 ^ n) := by
  induction n generalizing value with
  | zero => exact .pure (by simp)
  | succ n ih =>
    refine (Decoder.yields_readBits 8).bind fun b hb => (ih (256 * value + b)).mono fun a ha => ?_
    calc a < (256 * value + b + 1) * 256 ^ n := ha
      _ ≤ (value + 1) * 256 * 256 ^ n := Nat.mul_le_mul_right _ (by omega)
      _ = (value + 1) * 256 ^ (n + 1) := by ring

theorem yields_read {width : Nat} (hw : 0 < width) : Decoder.Yields (read width) (· < 256 ^ width) := by
  fun_induction read width with
  | case1 => omega
  | case2 =>
    refine (Decoder.yields_any _).bind fun b _ => .ite (fun _ => ?_) fun _ => ?_
    · exact (Decoder.yields_readBits 4).mono fun a ha => Nat.lt_trans ha (by decide)
    · exact Decoder.yields_readBits 8
  | case3 n ih =>
    refine (Decoder.yields_any _).bind fun b _ => .ite (fun _ => ?_) fun _ => ?_
    · refine (ih (Nat.succ_pos n)).mono fun a ha => Nat.lt_of_lt_of_le ha ?_
      exact Nat.pow_le_pow_right (by decide) (Nat.le_succ _)
    · exact (yields_readOctets (n + 2) 0).mono fun a ha => by simpa using ha

end Compressed

namespace Entry

theorem yields_readPlace (r : Reliability) : Decoder.Yields (readPlace r) fun place? =>
    place?.isSome = r.usesChannel ∧ ∀ place ∈ place?, place.channel < Limits.channels := by
  unfold readPlace
  refine .ite (fun hchannel => ?_) fun hchannel => .pure ?_
  · refine (Decoder.yields_readBits Limits.channelBits).bind fun channel hlt =>
      (Decoder.yields_any _).bind fun index _ => .pure ?_
    refine ⟨hchannel.symm, fun place hplace => ?_⟩
    obtain rfl := Option.some.inj hplace
    exact hlt
  · rw [Bool.not_eq_true] at hchannel
    rw [hchannel]
    exact ⟨rfl, by simp⟩

theorem yields_readPart : Decoder.Yields readPart fun part? =>
    ∀ part ∈ part?, part.index < part.count ∧ part.count < 2 ^ 32 := by
  unfold readPart
  refine (Decoder.yields_any _).bind fun b _ => .ite (fun _ => ?_) fun _ => .pure (by simp)
  refine (Decoder.yields_any _).bind fun id _ => (Decoder.yields_any _).bind fun index _ =>
    (Compressed.yields_read (by decide)).bind fun count hcount => ?_
  refine .ite (fun _ => (Decoder.Yields.throw (P := fun _ => False) _).bind fun _ h => h.elim)
    fun hindex => .pure ?_
  intro part hpart
  obtain rfl := Option.some.inj hpart
  exact ⟨by simpa using (not_or.mp hindex).2, hcount⟩

theorem yields_readPacket (s : SequenceNumber) :
    Decoder.Yields (readPacket s) fun p => p.WellFormed ∧ p.decoded = p := by
  unfold readPacket
  refine (Decoder.yields_any _).bind fun r _ => (yields_readPlace r).bind fun place? hplace =>
    yields_readPart.bind fun part? hpart => (Decoder.yields_any _).bind fun bitLength _ => ?_
  refine .ite (fun _ => (Decoder.Yields.throw (P := fun _ => False) _).bind fun _ h => h.elim)
    fun hlength => (Decoder.yields_readBytes _).bind fun payload hpayload => .pure ?_
  obtain ⟨hpos, hlt⟩ := not_or.mp hlength
  refine ⟨⟨hplace.1, hplace.2, fun part h => (hpart part h).1, fun part h => (hpart part h).2,
    Nat.pos_of_ne_zero hpos, Nat.lt_of_not_le hlt, Nat.le_of_eq hpayload.symm⟩, ?_⟩
  simp [Packet.decoded, Packet.body, Packet.payloadLength, ← hpayload]

/-- An entry that was read is well formed, and the same would be read again. -/
theorem yields_read : Decoder.Yields read fun e => e.WellFormed ∧ e.decoded = e := by
  unfold read
  refine (Decoder.yields_any _).bind fun s _ => (Decoder.yields_any _).bind fun b _ =>
    .ite (fun _ => .pure ⟨trivial, rfl⟩) fun _ => ?_
  refine (yields_readPacket s).bind fun p hp => .pure ⟨hp.1, ?_⟩
  exact congrArg data hp.2

end Entry

namespace FrameReader

theorem wellFormed_of_next?_ok {r r' : FrameReader} {e : Entry} (h : r.next? = some (.ok e, r')) :
    e.WellFormed ∧ e.decoded = e :=
  Entry.yields_read r.bits e r'.bits (next?_eq_ok_iff.mp h).2.2.1

theorem wellFormed_of_mem_drain (r : FrameReader) :
    ∀ e ∈ r.drain.1, e.WellFormed ∧ e.decoded = e := by
  induction r using next?_induction with
  | last r h =>
    rw [drain_of_next?_none h]
    simp
  | malformed r r' e h =>
    rw [drain_of_next?_error h]
    simp
  | entry r r' e h ih =>
    rw [drain_of_next?_ok h]
    intro e' he'
    rcases List.mem_cons.mp he' with rfl | he'
    · exact wellFormed_of_next?_ok h
    · exact ih e' he'

end FrameReader

theorem Frame.wellFormed_of_mem_read {data : Bytes} {e : Entry} (h : e ∈ (Frame.read data).1) :
    e.WellFormed ∧ e.decoded = e :=
  (FrameReader.ofBytes data).wellFormed_of_mem_drain e h

end ReliableDatagram
