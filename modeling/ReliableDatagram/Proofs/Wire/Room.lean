import Mathlib.Data.List.Induction
import ReliableDatagram.Proofs.Wire.Sizes

/-!
# Room in a frame

A builder asks for the predicted size of an entry before it writes it. The prediction is exact wherever the
writer stands, so an entry is taken exactly when it fits, and what has been written and what may still be
written always make up the whole frame: `sizes_exact`.
-/
namespace ReliableDatagram.FrameBuilder

/-- All that is done to a builder. -/
inductive Operation where
  | push (e : Entry)
  | finish
  deriving DecidableEq, Repr

/-- A refused entry is left out; after a frame is finished the next one begins. -/
def operate (f : FrameBuilder) : Operation → FrameBuilder
  | .push e => (f.push? e).getD f
  | .finish => f.cleared

/-- A new builder, after some operations. -/
def after (maxBytes : Nat) (ops : List Operation) : FrameBuilder :=
  ops.foldl operate (ofMaxBytes maxBytes)

variable {f : FrameBuilder} {maxBytes : Nat} {e : Entry}

/-- What is written is within a frame of so many bytes. -/
structure Within (f : FrameBuilder) (maxBytes : Nat) : Prop where
  capacity_eq : f.capacity = 8 * maxBytes
  bitLength_le : f.bitLength ≤ 8 * maxBytes

theorem within_ofMaxBytes (maxBytes : Nat) : (ofMaxBytes maxBytes).Within maxBytes :=
  ⟨Nat.mul_comm .., Nat.zero_le _⟩

theorem push?_eq_some_iff {f' : FrameBuilder} :
    f.push? e = some f' ↔ f.fits e = true ∧ f' = f.push e := by
  rw [push?]
  split_ifs with hfits <;> simp [hfits, eq_comm]

theorem Within.fits_iff (h : f.Within maxBytes) (e : Entry) :
    f.fits e = true ↔ f.bitLength + e.bitsAt f.bitLength ≤ 8 * maxBytes := by
  have hcapacity := h.capacity_eq
  have hle := h.bitLength_le
  rw [fits, decide_eq_true_eq, remaining]
  omega

theorem Within.push (h : f.Within maxBytes) (he : e.Backed) (hfits : f.fits e = true) :
    (f.push e).Within maxBytes := by
  refine ⟨h.capacity_eq, ?_⟩
  rw [bitLength_push f he]
  exact (h.fits_iff e).mp hfits

theorem Within.operate (h : f.Within maxBytes) {op : Operation} (hop : ∀ e, op = .push e → e.Backed) :
    (f.operate op).Within maxBytes := by
  cases op with
  | push e =>
    rw [FrameBuilder.operate, push?]
    split_ifs with hfits
    · exact h.push (hop e rfl) hfits
    · exact h
  | finish => exact ⟨h.capacity_eq, Nat.zero_le _⟩

theorem within_after {ops : List Operation} (hops : ∀ e, .push e ∈ ops → e.Backed) :
    (after maxBytes ops).Within maxBytes := by
  induction ops using List.reverseRecOn with
  | nil => exact within_ofMaxBytes maxBytes
  | append_singleton ops op ih =>
    rw [after, List.foldl_append]
    refine (ih fun e he => hops e (List.mem_append_left _ he)).operate fun e hop => hops e ?_
    exact List.mem_append_right _ (hop ▸ List.mem_singleton_self op)

/-- Sizes are exact. After any pushes and finished frames, what has been written and what remains make up the
frame, and the bytes are no more than it may have. Writing an entry moves the writer on by the predicted size,
which is 17 bits for an acknowledgement; the entry is taken exactly when the frame has so many bits left, and
a refused one changes nothing. In an empty frame no packet needs more than the longest header of its mode and
its payload. Only the bytes in use must be there: no other field of a packet matters. -/
theorem sizes_exact (maxBytes : Nat) {ops : List Operation} (hops : ∀ e, .push e ∈ ops → e.Backed) :
    let f := after maxBytes ops
    (f.bitLength + f.remaining = 8 * maxBytes ∧ f.finish.bytes.length ≤ maxBytes) ∧
      (∀ e : Entry, e.Backed →
        (e.write f.writer).bitLength = f.bitLength + e.bitsAt f.bitLength ∧
          ((f.push? e).isSome = true ↔ e.bitsAt f.bitLength ≤ f.remaining) ∧
          (f.push? e = none → f.operate (.push e) = f) ∧
          ∀ f', f.push? e = some f' → f'.bitLength = f.bitLength + e.bitsAt f.bitLength ∧
            f'.entries = f.entries.push e) ∧
      (∀ s offset, (Entry.ack s).bitsAt offset = 17) ∧
      ∀ p : Packet,
        p.bitsAt 0 ≤ 8 * (Packet.maxHeaderBytes p.reliability p.part.isSome + p.payloadLength) := by
  intro f
  have hwithin : f.Within maxBytes := within_after hops
  refine ⟨⟨?_, length_finish_le hwithin.bitLength_le⟩, fun e he => ⟨?_, ?_, fun hrefused => ?_, ?_⟩,
    fun _ _ => rfl, Packet.bitsAt_zero_le⟩
  · have hcapacity := hwithin.capacity_eq
    have hle := hwithin.bitLength_le
    rw [remaining]
    omega
  · exact Entry.bitLength_write he f.writer
  · rw [push?, ← decide_eq_true_iff (p := e.bitsAt f.bitLength ≤ f.remaining), ← fits]
    split_ifs with hfits <;> simp [hfits]
  · rw [FrameBuilder.operate, hrefused, Option.getD_none]
  · intro f' htaken
    obtain ⟨-, rfl⟩ := push?_eq_some_iff.mp htaken
    exact ⟨bitLength_push f he, rfl⟩

/-- After an acknowledgement the padding of a fragment is one bit shorter. Of a frame of 18 bytes the two leave
16 bits, and another acknowledgement, which takes one bit more, is refused. -/
theorem sizes_exact_fragment :
    let fragment : Packet :=
      { sequence := ⟨9⟩, reliability := .reliableOrdered, place := some ⟨3, ⟨4⟩⟩, part := some ⟨⟨1⟩, 2, 300⟩
        priority := .medium, bitLength := 12, payload := [0xab, 0xc0, 0xff] }
    let ops : List Operation :=
      [.push (.data fragment), .finish, .push (.ack ⟨1⟩), .push (.data fragment)]
    let f := after 18 ops
    (∀ e, .push e ∈ ops → e.Backed) ∧ fragment.Backed ∧
      (f.bitLength = 17 + 111 ∧ f.remaining = 16 ∧ f.finish.bytes.length ≤ 18) ∧
      f.push? (.ack ⟨2⟩) = none ∧ f.operate (.push (.ack ⟨2⟩)) = f ∧
      fragment.bitsAt 0 = 112 ∧
      fragment.bitsAt 0 ≤ 8 * (Packet.maxHeaderBytes .reliableOrdered true + fragment.payloadLength) := by
  intro fragment ops f
  have hops : ∀ e, .push e ∈ ops → e.Backed := by
    intro e he
    obtain rfl | rfl | rfl : e = .data fragment ∨ e = .ack ⟨1⟩ ∨ e = .data fragment := by simpa [ops] using he
    · decide
    · trivial
    · decide
  obtain ⟨⟨hframe, hbytes⟩, hpush, hack, hheader⟩ := sizes_exact 18 hops
  have hlength : f.bitLength = 17 + 111 := by decide +kernel
  have hremaining : f.remaining = 16 := Nat.add_left_cancel (hlength ▸ hframe)
  obtain ⟨-, htaken, hkept, -⟩ := hpush (.ack ⟨2⟩) trivial
  have hrefused : f.push? (.ack ⟨2⟩) = none := by
    rw [← Option.not_isSome_iff_eq_none, htaken, hack]
    exact hremaining ▸ by decide
  exact ⟨hops, by decide, ⟨hlength, hremaining, hbytes⟩, hrefused, hkept hrefused, by decide +kernel,
    hheader fragment⟩

end ReliableDatagram.FrameBuilder
