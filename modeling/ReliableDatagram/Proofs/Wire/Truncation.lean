import ReliableDatagram.Proofs.Wire.Frames

/-!
# Datagrams cut short

Bytes behind the end of a datagram change nothing of what was read in front of them: a decoder that did
not run out of bits gives the same answer (`Decoder.Built.persists`). So what is left of a datagram that
was cut short is the first entries of the whole. Its only error of its own is that bits are missing.
-/
namespace ReliableDatagram

namespace BitReader

/-- The same place in a datagram that goes on behind its end. -/
def extend (r : BitReader) (more : Bytes) : BitReader := ⟨r.openBits, r.rest ++ more, r.openBits_lt⟩

variable {r : BitReader}

theorem remaining_extend (r : BitReader) (more : Bytes) :
    (r.extend more).remaining = r.remaining + 8 * more.length := by
  simp only [remaining, extend, List.length_append]
  omega

theorem has_extend {count : Nat} (h : r.has count = true) (more : Bytes) :
    (r.extend more).has count = true := by
  rw [has_iff] at h ⊢
  rw [remaining_extend]
  omega

theorem next?_extend {r' : BitReader} {b : Bool} (h : r.next? = some (b, r')) (more : Bytes) :
    (r.extend more).next? = some (b, r'.extend more) := by
  obtain ⟨_ | ⟨c, bits⟩, rest, hlt⟩ := r
  · cases rest with
    | nil => simp [next?] at h
    | cons c rest =>
      simp only [next?, Option.some.injEq, Prod.mk.injEq] at h
      obtain ⟨rfl, rfl⟩ := h
      rfl
  · simp only [next?, Option.some.injEq, Prod.mk.injEq] at h
    obtain ⟨rfl, rfl⟩ := h
    rfl

end BitReader

namespace Decoder

variable {α β : Type}

/-- The answer stays when the datagram goes on behind its end, save that more bits may help one that ran
out of them. -/
def Persists (d : Decoder α) : Prop :=
  ∀ (r : BitReader) (more : Bytes),
    match d r with
    | .ok a r' => d (r.extend more) = .ok a (r'.extend more)
    | .error e r' => e = .unexpectedEnd ∨ d (r.extend more) = .error e (r'.extend more)

theorem Persists.pure (a : α) : Persists (Pure.pure a : Decoder α) := fun _ _ => rfl

theorem Persists.throw (e : Malformed) : Persists (throw e : Decoder α) := fun _ _ => Or.inr rfl

theorem Persists.bind {d : Decoder α} {f : α → Decoder β} (hd : Persists d)
    (hf : ∀ a, Persists (f a)) : Persists (d >>= f) := by
  intro r more
  have h := hd r more
  simp only [Bind.bind, EStateM.bind]
  cases hr : d r with
  | ok a r₁ =>
    simp only [hr] at h
    simp only [h]
    exact hf a r₁ more
  | error e r₁ =>
    simp only [hr] at h
    rcases h with rfl | h
    · exact Or.inl rfl
    · exact Or.inr (by simp only [h])

theorem persists_readBit : Persists readBit := by
  intro r more
  cases h : r.next? with
  | none => simp [readBit, h]
  | some answer => simp [readBit, h, BitReader.next?_extend h]

theorem persists_readBitList (count : Nat) : Persists (readBitList count) := by
  induction count with
  | zero => exact .pure []
  | succ n ih => exact persists_readBit.bind fun b => ih.bind fun bits => .pure (b :: bits)

theorem persists_readBits (count : Nat) : Persists (readBits count) := by
  intro r more
  by_cases h : r.has count = true
  · have hlist := (persists_readBitList count).bind (fun bits => .pure (Bits.toNat bits)) r more
    simp only [readBits, h, r.has_extend h]
    exact hlist
  · simp [readBits, h]

theorem persists_readBytes (count : Nat) : Persists (readBytes count) := by
  intro r more
  by_cases h : (r.rest.take count).length = count
  · have hle : count ≤ r.rest.length := by
      rw [List.length_take] at h
      omega
    simp [readBytes, BitReader.extend, h, List.take_append_of_le_length hle,
      List.drop_append_of_le_length hle]
  · simp only [readBytes, if_neg h, true_or]

theorem Built.persists {d : Decoder α} (h : Built d) : Persists d := by
  induction h with
  | pure a => exact .pure a
  | throw e => exact .throw e
  | readBit => exact persists_readBit
  | readBits count => exact persists_readBits count
  | readBytes count => exact persists_readBytes count
  | bind _ _ ihd ihf => exact ihd.bind ihf

end Decoder

namespace FrameReader

variable {r r' : FrameReader}

def extend (r : FrameReader) (more : Bytes) : FrameReader := { r with bits := r.bits.extend more }

theorem next?_extend_of_ok {e : Entry} (h : r.next? = some (.ok e, r')) (more : Bytes) :
    (r.extend more).next? = some (.ok e, r'.extend more) := by
  obtain ⟨hfailed, hhas, hread, hfailed'⟩ := next?_eq_ok_iff.mp h
  have hmore := Entry.built_read.persists r.bits more
  rw [hread] at hmore
  exact next?_eq_ok_iff.mpr ⟨hfailed, BitReader.has_extend hhas more, hmore, hfailed'⟩

theorem next?_extend_of_error {e : Malformed} (h : r.next? = some (.error e, r')) (more : Bytes) :
    e = .unexpectedEnd ∨ (r.extend more).next? = some (.error e, r'.extend more) := by
  obtain ⟨hfailed, hhas, hread, hfailed'⟩ := next?_eq_error_iff.mp h
  have hmore := Entry.built_read.persists r.bits more
  rw [hread] at hmore
  refine hmore.imp_right fun hmore => ?_
  exact next?_eq_error_iff.mpr ⟨hfailed, BitReader.has_extend hhas more, hmore, hfailed'⟩

/-- What a reader gives, it gives also of a datagram that goes on. -/
theorem drain_extend (r : FrameReader) (more : Bytes) :
    r.drain.1 <+: (r.extend more).drain.1 ∧ ∀ e, r.drain.2.1 = some e → e = .unexpectedEnd ∨
      (r.extend more).drain.1 = r.drain.1 ∧ (r.extend more).drain.2.1 = some e := by
  induction r using next?_induction with
  | last r h =>
    rw [drain_of_next?_none h]
    exact ⟨List.nil_prefix, fun e he => by cases he⟩
  | malformed r r' e h =>
    rw [drain_of_next?_error h]
    refine ⟨List.nil_prefix, fun e' he => ?_⟩
    obtain rfl := Option.some.inj he
    refine (next?_extend_of_error h more).imp_right fun hnext => ?_
    rw [drain_of_next?_error hnext]
    exact ⟨rfl, rfl⟩
  | entry r r' e h ih =>
    rw [drain_of_next?_ok h, drain_of_next?_ok (next?_extend_of_ok h more)]
    refine ⟨List.cons_prefix_cons.mpr ⟨rfl, ih.1⟩, fun e' he => (ih.2 e' he).imp_right fun hsame => ?_⟩
    exact ⟨congrArg (e :: ·) hsame.1, hsame.2⟩

/-- What the reader answers when it is asked for the `index`-th time, counted from zero. -/
def answer : (index : Nat) → FrameReader → Option (Except Malformed Entry)
  | 0, r => r.next?.map Prod.fst
  | n + 1, r =>
    match r.next? with
    | none => answer n r
    | some (_, r') => answer n r'

theorem answer_of_next?_none (h : r.next? = none) (n : Nat) : r.answer n = none := by
  induction n with
  | zero => simp [answer, h]
  | succ n ih => simp [answer, h, ih]

/-- The answers are the entries, then the error if there is one, and then nothing any more. -/
theorem answer_eq (r : FrameReader) (n : Nat) :
    r.answer n = (r.drain.1.map Except.ok ++ r.drain.2.1.toList.map Except.error)[n]? := by
  induction r using next?_induction generalizing n with
  | last r h => simp [drain_of_next?_none h, answer_of_next?_none h]
  | malformed r r' e h =>
    have hstop := answer_of_next?_none (next?_of_failed (failed_of_next?_error h))
    cases n <;> simp [drain_of_next?_error h, answer, h, hstop]
  | entry r r' e h ih =>
    cases n <;> simp [drain_of_next?_ok h, answer, h, ih]

end FrameReader

namespace Frame

/-- Cutting a datagram short only shortens what is read. The entries of `front` are the first ones of the
whole, and if an error ends them it is that bits are missing, or the whole ends there with the same error.
An error is the last answer, and there is no second one. -/
theorem read_truncated (front back : Bytes) :
    (read front).1 <+: (read (front ++ back)).1 ∧
      (∀ e, (read front).2 = some e →
        e = .unexpectedEnd ∨ read (front ++ back) = ((read front).1, some e)) ∧
      ∀ n, (FrameReader.ofBytes front).answer n =
        ((read front).1.map Except.ok ++ (read front).2.toList.map Except.error)[n]? := by
  obtain ⟨hentries, herror⟩ := (FrameReader.ofBytes front).drain_extend back
  refine ⟨hentries, fun e he => (herror e he).imp_right fun hsame => ?_,
    (FrameReader.ofBytes front).answer_eq⟩
  exact Prod.ext hsame.1 hsame.2

/-- Behind an acknowledgement, a mode that does not exist is reported as soon as its bits are there. -/
example : read [0, 4, 0x80, 0] = ([.ack ⟨4⟩], none) ∧
    read [0, 4, 0x80, 0, 0x38] = ([.ack ⟨4⟩], some (.unknownReliability 7)) ∧
    read [0, 4, 0x80, 0, 0x38, 0xFF] = ([.ack ⟨4⟩], some (.unknownReliability 7)) := by decide

end Frame
end ReliableDatagram
