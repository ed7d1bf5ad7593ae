import Mathlib.Tactic.Common
import Mathlib.Tactic.Ring
import ReliableDatagram.Wire.Entry

/-!
# Fields of an entry, read back

`Decoder.Reads d bits a` says that `d` reads `a` from `bits` whatever follows. It is closed under
`bind`, so the fields in front of a payload are read back one by one. A payload stands at a byte
boundary, which `readBytes_of_toBits` accounts for. `Decoder.Shortens d n` bounds from below what any
successful read takes, also one of bits that nobody wrote. What holds of every read of bits and bytes and
of one read behind another holds of every field: `Decoder.Built`.
-/
namespace ReliableDatagram

namespace Bits

theorem two_pow_eq_shiftLeft (n : Nat) : 1 <<< n = 2 ^ n := by
  rw [Nat.shiftLeft_eq, Nat.one_mul]

theorem toNat_ofNat_of_lt {count value : Nat} (h : value < 2 ^ count) :
    toNat (ofNat count value) = value := by
  rw [toNat_ofNat, two_pow_eq_shiftLeft, Nat.mod_eq_of_lt h]

theorem ofNat_mod (count value : Nat) : ofNat count (value % 2 ^ count) = ofNat count value := by
  rw [← two_pow_eq_shiftLeft, ← toNat_ofNat]
  simpa using ofNat_toNat (ofNat count value)

/-- The high bits and then the low bits of a number. -/
theorem ofNat_add (m n value : Nat) :
    ofNat (m + n) value = ofNat m (value >>> n) ++ ofNat n value := by
  induction m with
  | zero => simp [ofNat]
  | succ m ih =>
    rw [Nat.succ_add, ofNat, ih, ofNat, Nat.testBit_shiftRight, Nat.add_comm n m]
    rfl

theorem ofByte_injective {a b : UInt8} (h : ofByte a = ofByte b) : a = b := by
  have := congrArg toNat h
  rw [ofByte, ofByte, toNat_ofNat_of_lt a.toNat_lt, toNat_ofNat_of_lt b.toNat_lt] at this
  exact UInt8.toNat_inj.mp this

@[simp] theorem ofBytes_append (a b : Bytes) : ofBytes (a ++ b) = ofBytes a ++ ofBytes b := by
  simp [ofBytes]

theorem ofBytes_injective {a b : Bytes} (h : ofBytes a = ofBytes b) : a = b := by
  have hl : a.length = b.length := by
    have := congrArg List.length h
    simp only [length_ofBytes] at this
    omega
  induction a generalizing b with
  | nil => simpa [eq_comm] using hl
  | cons x a ih =>
    cases b with
    | nil => simp at hl
    | cons y b =>
      have hxy : ofByte x ++ ofBytes a = ofByte y ++ ofBytes b := h
      obtain ⟨hx, ha⟩ := List.append_inj hxy (by simp)
      rw [ofByte_injective hx, ih ha (by simpa using hl)]

theorem drop_ofBytes (n : Nat) (data : Bytes) :
    (ofBytes data).drop (8 * n) = ofBytes (data.drop n) := by
  conv_lhs => rw [← List.take_append_drop n data, ofBytes_append]
  by_cases h : n ≤ data.length
  · rw [List.drop_append_of_le_length (by simp [h]), List.drop_of_length_le (by simp [h])]
    rfl
  · rw [List.drop_of_length_le (l := data) (by omega)]
    exact List.drop_of_length_le (by simp)

end Bits

namespace Decoder

variable {α β : Type}

/-- The value is read from these bits, whatever follows them. -/
def Reads (d : Decoder α) (bits : List Bool) (a : α) : Prop :=
  ∀ (r : BitReader) (tail : List Bool), r.toBits = bits ++ tail →
    ∃ r', d r = .ok a r' ∧ r'.toBits = tail

/-- A successful read takes at least `n` bits. -/
def Shortens (d : Decoder α) (n : Nat) : Prop :=
  ∀ (r : BitReader) (a : α) (r' : BitReader), d r = .ok a r' → r'.remaining + n ≤ r.remaining

/-- Decoders that read bits and bytes, one after the other, and do nothing else. -/
inductive Built : {α : Type} → Decoder α → Prop
  | pure {α : Type} (a : α) : Built (Pure.pure a : Decoder α)
  | throw {α : Type} (e : Malformed) : Built (throw e : Decoder α)
  | readBit : Built readBit
  | readBits (count : Nat) : Built (readBits count)
  | readBytes (count : Nat) : Built (readBytes count)
  | bind {α β : Type} {d : Decoder α} {f : α → Decoder β} (hd : Built d) (hf : ∀ a, Built (f a)) :
    Built (d >>= f)

theorem Built.ite {c : Prop} [Decidable c] {d e : Decoder α} (hd : Built d) (he : Built e) :
    Built (if c then d else e) := by
  split
  · exact hd
  · exact he

theorem bind_ok {d : Decoder α} {f : α → Decoder β} {r r' : BitReader} {a : α}
    (h : d r = .ok a r') : (d >>= f) r = f a r' := by
  simp [bind, EStateM.bind, h]

theorem of_bind_ok {d : Decoder α} {f : α → Decoder β} {r r' : BitReader} {b : β}
    (h : (d >>= f) r = .ok b r') : ∃ a r₁, d r = .ok a r₁ ∧ f a r₁ = .ok b r' := by
  simp only [bind, EStateM.bind] at h
  split at h
  · rename_i a r₁ hd
    exact ⟨a, r₁, hd, h⟩
  · cases h

theorem Reads.pure (a : α) : Reads (Pure.pure a : Decoder α) [] a :=
  fun r _ h => ⟨r, rfl, h⟩

theorem Reads.bind {d : Decoder α} {f : α → Decoder β} {bits bits' : List Bool} {a : α} {b : β}
    (hd : Reads d bits a) (hf : Reads (f a) bits' b) : Reads (d >>= f) (bits ++ bits') b := by
  intro r tail h
  rw [List.append_assoc] at h
  obtain ⟨r₁, h₁, ht₁⟩ := hd r _ h
  obtain ⟨r₂, h₂, ht₂⟩ := hf r₁ tail ht₁
  exact ⟨r₂, by rw [bind_ok h₁, h₂], ht₂⟩

theorem Reads.map {d : Decoder α} {bits : List Bool} {a : α} (hd : Reads d bits a) (f : α → β) :
    Reads (do return f (← d)) bits (f a) := by
  have := hd.bind (f := fun a => Pure.pure (f a)) (Reads.pure (f a))
  rwa [List.append_nil] at this

theorem reads_readBit (b : Bool) : Reads readBit [b] b :=
  fun _ _ h => readBit_of_toBits h

theorem reads_readBits {count value : Nat} (h : value < 2 ^ count) :
    Reads (readBits count) (Bits.ofNat count value) value := by
  intro r tail hr
  obtain ⟨r', h', ht⟩ := readBits_of_toBits hr
  rw [Bits.length_ofNat, Bits.toNat_ofNat_of_lt h] at h'
  exact ⟨r', h', ht⟩

theorem Shortens.zero_of {d : Decoder α} {n : Nat} (h : Shortens d n) : Shortens d 0 := by
  intro r a r' hr
  have := h r a r' hr
  omega

theorem Shortens.pure (a : α) : Shortens (Pure.pure a : Decoder α) 0 := by
  intro r b r' h
  cases h
  exact le_rfl

theorem Shortens.throw (e : Malformed) : Shortens (throw e : Decoder α) 0 := by
  intro r a r' h
  cases h

theorem Shortens.bind {d : Decoder α} {f : α → Decoder β} {m n : Nat} (hd : Shortens d m)
    (hf : ∀ a, Shortens (f a) n) : Shortens (d >>= f) (m + n) := by
  intro r b r' h
  obtain ⟨a, r₁, h₁, h₂⟩ := of_bind_ok h
  have := hd r a r₁ h₁
  have := hf a r₁ b r' h₂
  omega

/-- The form in which only the first read counts. -/
theorem Shortens.bind_left {d : Decoder α} {f : α → Decoder β} {m : Nat} (hd : Shortens d m)
    (hf : ∀ a, Shortens (f a) 0) : Shortens (d >>= f) m := hd.bind hf

theorem shortens_readBit : Shortens readBit 1 := by
  intro r b r' h
  unfold readBit at h
  split at h
  · rename_i c r₁ hn
    cases h
    have := congrArg List.length (BitReader.next?_eq_some hn)
    simp only [BitReader.length_toBits, List.length_cons] at this
    omega
  · cases h

theorem shortens_readBitList (count : Nat) : Shortens (readBitList count) count := by
  induction count with
  | zero => exact Shortens.pure _
  | succ n ih =>
    have := shortens_readBit.bind fun b =>
      ih.bind_left (f := fun bits => Pure.pure (b :: bits)) fun _ => Shortens.pure _
    rwa [Nat.add_comm] at this

theorem shortens_readBits (count : Nat) : Shortens (readBits count) count := by
  intro r v r' h
  unfold readBits at h
  split at h
  · simp only [Functor.map, EStateM.map] at h
    split at h
    · rename_i bits r₁ hb
      cases h
      exact shortens_readBitList count r bits _ hb
    · cases h
  · cases h

theorem shortens_readBytes (count : Nat) : Shortens (readBytes count) 0 := by
  intro r data r' h
  simp only [readBytes] at h
  split at h
  · cases h
    simp only [BitReader.remaining, List.length_nil, List.length_drop]
    omega
  · cases h

/-- Nothing is ever put back. -/
theorem Built.shortens {d : Decoder α} (h : Built d) : Shortens d 0 := by
  induction h with
  | pure a => exact Shortens.pure a
  | throw e => exact Shortens.throw e
  | readBit => exact shortens_readBit.zero_of
  | readBits count => exact (shortens_readBits count).zero_of
  | readBytes count => exact shortens_readBytes count
  | bind _ _ ihd ihf => exact ihd.bind_left ihf

/-- Behind fewer than eight bits of padding stand whole bytes, up to the end of the data. -/
theorem readBytes_of_toBits {r : BitReader} {pad : List Bool} {data : Bytes} {tail : List Bool}
    (h : r.toBits = pad ++ Bits.ofBytes data ++ tail) (hp : pad.length < 8)
    (ht : tail.length % 8 = 0) :
    ∃ r', readBytes data.length r = .ok data r' ∧ r'.toBits = tail := by
  have hlen := congrArg List.length h
  simp only [BitReader.length_toBits, BitReader.remaining, List.length_append,
    Bits.length_ofBytes] at hlen
  have hlt := r.openBits_lt
  have hopen : r.openBits.length = pad.length := by omega
  have hsplit : r.openBits ++ Bits.ofBytes r.rest = pad ++ (Bits.ofBytes data ++ tail) := by
    rw [← List.append_assoc]
    exact h
  obtain ⟨-, hrest⟩ := List.append_inj hsplit hopen
  have hdrop : Bits.ofBytes (r.rest.drop data.length) = tail := by
    rw [← Bits.drop_ofBytes, hrest, List.drop_left' (by simp)]
  have htake : r.rest.take data.length = data := by
    apply Bits.ofBytes_injective
    rw [← List.take_append_drop data.length r.rest, Bits.ofBytes_append, hdrop] at hrest
    exact List.append_cancel_right hrest
  refine ⟨⟨[], r.rest.drop data.length, Nat.succ_pos 7⟩, ?_, ?_⟩
  · simp [readBytes, htake]
  · simpa [BitReader.toBits] using hdrop

end Decoder

namespace Compressed

theorem reads_readOctets (n value prior : Nat) :
    Decoder.Reads (readOctets n prior) (Bits.ofNat (8 * n) value)
      (prior * 2 ^ (8 * n) + value % 2 ^ (8 * n)) := by
  induction n generalizing prior with
  | zero => simpa [readOctets, Bits.ofNat, Nat.mod_one] using Decoder.Reads.pure prior
  | succ n ih =>
    have hsplit : 8 * (n + 1) = 8 + 8 * n := by ring
    have hlow : value >>> (8 * n) % 2 ^ 8 < 2 ^ 8 := Nat.mod_lt _ (by decide)
    have hstep := (Decoder.reads_readBits hlow).bind
      (f := fun b => readOctets n (256 * prior + b)) (ih _)
    have hvalue : (256 * prior + value >>> (8 * n) % 2 ^ 8) * 2 ^ (8 * n) + value % 2 ^ (8 * n) =
        prior * 2 ^ (8 + 8 * n) + value % 2 ^ (8 + 8 * n) := by
      rw [Nat.shiftRight_eq_div_pow, Nat.pow_add, Nat.mul_comm (2 ^ 8), Nat.mod_mul]
      ring
    rw [Bits.ofNat_mod, ← Bits.ofNat_add, hvalue] at hstep
    rw [hsplit]
    exact hstep

theorem shiftRight_mod_eq_zero {n value : Nat} (hv : value < 2 ^ (8 * (n + 2)))
    (h : value >>> (8 * (n + 1)) % 256 = 0) : value < 2 ^ (8 * (n + 1)) := by
  rw [Nat.shiftRight_eq_div_pow] at h
  have hpos : 0 < 2 ^ (8 * (n + 1)) := Nat.two_pow_pos _
  have hq : value / 2 ^ (8 * (n + 1)) < 256 := by
    apply Nat.div_lt_of_lt_mul
    calc value < 2 ^ (8 * (n + 2)) := hv
      _ = 2 ^ (8 * (n + 1)) * 256 := by rw [show 8 * (n + 2) = 8 * (n + 1) + 8 by ring, Nat.pow_add]
  rw [Nat.mod_eq_of_lt hq] at h
  exact Nat.lt_of_div_eq_zero hpos h

theorem reads_read {width value : Nat} (hw : 0 < width) (hv : value < 2 ^ (8 * width)) :
    Decoder.Reads (read width) (encode width value) value := by
  fun_induction encode width value with
  | case1 => omega
  | case2 v last hlast =>
    have hm : last = v := Nat.mod_eq_of_lt hv
    rw [hm] at hlast ⊢
    exact (Decoder.reads_readBit true).bind (Decoder.reads_readBits hlast)
  | case3 v last hlast =>
    have hm : last = v := Nat.mod_eq_of_lt hv
    rw [hm] at hlast ⊢
    exact (Decoder.reads_readBit false).bind (Decoder.reads_readBits hv)
  | case4 n v hz ih =>
    have := ih (Nat.succ_pos n) (shiftRight_mod_eq_zero hv hz)
    exact (Decoder.reads_readBit true).bind this
  | case5 n v hz =>
    have := reads_readOctets (n + 2) v 0
    rw [Nat.zero_mul, Nat.zero_add, Nat.mod_eq_of_lt hv] at this
    exact (Decoder.reads_readBit false).bind this

theorem built_readOctets (n value : Nat) : Decoder.Built (readOctets n value) := by
  induction n generalizing value with
  | zero => exact .pure value
  | succ n ih => exact (Decoder.Built.readBits 8).bind fun b => ih (256 * value + b)

theorem built_read (width : Nat) : Decoder.Built (read width) := by
  fun_induction read width with
  | case1 => exact .pure 0
  | case2 => exact Decoder.Built.readBit.bind fun b => .ite (.readBits 4) (.readBits 8)
  | case3 n ih => exact Decoder.Built.readBit.bind fun b => .ite ih (built_readOctets (n + 2) 0)

end Compressed

namespace Counter

variable {kind : CounterKind}

@[simp] theorem ofNat_toNat (c : Counter kind) : ofNat c.toNat = c := by
  simp [ofNat, toNat]

theorem toNat_lt (c : Counter kind) : c.toNat < 2 ^ 16 := c.value.toNat_lt

theorem reads_read (c : Counter kind) : Decoder.Reads read c.toBits c := by
  have := (Decoder.reads_readBits c.toNat_lt).map (ofNat : Nat → Counter kind)
  rwa [ofNat_toNat] at this

theorem built_read : Decoder.Built (read : Decoder (Counter kind)) :=
  (Decoder.Built.readBits 16).bind fun n => .pure (ofNat n)

theorem shortens_read : Decoder.Shortens (read : Decoder (Counter kind)) 16 :=
  (Decoder.shortens_readBits 16).bind_left fun _ => Decoder.Shortens.pure _

end Counter

namespace Reliability

theorem code_lt (r : Reliability) : r.code < 2 ^ width := by cases r <;> decide

theorem reads_read (r : Reliability) : Decoder.Reads read r.toBits r := by
  have hcode := Decoder.reads_readBits r.code_lt
  rw [← List.append_nil r.toBits]
  apply hcode.bind
  rw [ofCode_code]
  exact Decoder.Reads.pure r

theorem built_ofCode (n : Nat) : Decoder.Built (match ofCode n with
    | .ok r => return r
    | .error e => throw e : Decoder Reliability) := by
  cases ofCode n with
  | ok r => exact .pure r
  | error e => exact .throw e

theorem built_read : Decoder.Built read := (Decoder.Built.readBits width).bind built_ofCode

end Reliability
end ReliableDatagram
