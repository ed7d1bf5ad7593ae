import Mathlib.Tactic.Common
import ReliableDatagram.Session.Send
import ReliableDatagram.Fifo

/-!
# A cut payload is the payload

The chunks of a payload hold its bytes in order and its bits in total, none of them is empty, and
none is longer than it should be. The bound on the number of steps is never reached.
-/
namespace ReliableDatagram.Chunk

/-- The bytes of a chunk that are in use. -/
def used (c : Chunk) : Bytes := c.bytes.take (bytesForBits c.bitLength)

theorem bytesForBits_sub {bits size : Nat} (h : size < bytesForBits bits) :
    bytesForBits (bits - size * 8) = bytesForBits bits - size := by
  simp only [bytesForBits] at h ⊢
  omega

theorem bytesForBits_le {bits length : Nat} (h : bits ≤ 8 * length) : bytesForBits bits ≤ length := by
  simp only [bytesForBits]
  omega

theorem flatMap_used_cutWith {fuel : Nat} {payload : Bytes} {bits size : Nat} (hs : 0 < size)
    (hf : bytesForBits bits ≤ fuel) (hp : bits ≤ 8 * payload.length) :
    (cutWith fuel payload bits size).flatMap used = payload.take (bytesForBits bits) := by
  fun_induction cutWith fuel payload bits size with
  | case1 payload bits size =>
    rw [Nat.le_zero.mp hf]
    rfl
  | case2 n payload bits size length h0 =>
    have : bytesForBits bits = 0 := h0
    rw [this]
    rfl
  | case3 n payload bits size length h0 hle => simp [used, length, List.take_take]
  | case4 n payload bits size length h0 hle ih =>
    have hlt : size < bytesForBits bits := Nat.not_le.mp hle
    have hsub := bytesForBits_sub hlt
    have hrest := ih hs (by omega) (by rw [List.length_drop]; simp only [bytesForBits] at hlt; omega)
    have hfirst : bytesForBits (size * 8) = size := by
      simp only [bytesForBits]
      omega
    rw [List.flatMap_cons, hrest, used, hfirst, List.take_take, Nat.min_self, hsub]
    conv_rhs => rw [← Nat.add_sub_cancel' (Nat.le_of_lt hlt), List.take_add]

theorem total_cutWith {fuel : Nat} {payload : Bytes} {bits size : Nat} (hs : 0 < size)
    (hf : bytesForBits bits ≤ fuel) :
    total bitLength (cutWith fuel payload bits size) = bits := by
  fun_induction cutWith fuel payload bits size with
  | case1 payload bits size =>
    simp only [bytesForBits] at hf
    simp only [total_nil]
    omega
  | case2 n payload bits size length h0 =>
    simp only [bytesForBits, length] at h0
    simp only [total_nil]
    omega
  | case3 n payload bits size length h0 hle => simp
  | case4 n payload bits size length h0 hle ih =>
    have hlt : size < bytesForBits bits := Nat.not_le.mp hle
    have hsub := bytesForBits_sub hlt
    rw [total_cons, ih hs (by omega)]
    show size * 8 + (bits - size * 8) = bits
    simp only [bytesForBits] at hlt
    omega

/-- No chunk is empty, too long, or short of its own bits. -/
theorem mem_cutWith {fuel : Nat} {payload : Bytes} {bits size : Nat} (hs : 0 < size)
    (hp : bits ≤ 8 * payload.length) :
    ∀ c ∈ cutWith fuel payload bits size,
      0 < c.bitLength ∧ bytesForBits c.bitLength ≤ size ∧ c.bytes.length = bytesForBits c.bitLength := by
  fun_induction cutWith fuel payload bits size with
  | case1 => simp
  | case2 => simp
  | case3 n payload bits size length h0 hle =>
    intro c hc
    obtain rfl := List.mem_singleton.mp hc
    have hlen := bytesForBits_le hp
    refine ⟨?_, hle, ?_⟩
    · simp only [bytesForBits, length] at h0
      show 0 < bits
      omega
    · simp [length, hlen]
  | case4 n payload bits size length h0 hle ih =>
    have hlt : size < bytesForBits bits := Nat.not_le.mp hle
    have hlen := bytesForBits_le hp
    intro c hc
    rcases List.mem_cons.mp hc with rfl | hc
    · refine ⟨by show 0 < size * 8; omega, ?_, ?_⟩
      · simp only [bytesForBits]
        omega
      · simp only [bytesForBits, List.length_take] at hlt ⊢
        omega
    · refine ih hs ?_ c hc
      rw [List.length_drop]
      simp only [bytesForBits] at hlt
      omega

theorem length_le_total {chunks : List Chunk} (h : ∀ c ∈ chunks, 0 < c.bitLength) :
    chunks.length ≤ total bitLength chunks := by
  induction chunks with
  | nil => simp
  | cons c chunks ih =>
    have := ih fun c hc => h c (by simp [hc])
    have := h c (by simp)
    simp only [List.length_cons, total_cons]
    omega

section cut

variable {payload : Bytes} {bits size : Nat}

theorem cut_eq (hs : 0 < size) :
    cut payload bits size = cutWith (bytesForBits bits) payload bits size :=
  if_neg (Nat.ne_of_gt hs)

theorem flatMap_used_cut (hs : 0 < size) (hp : bits ≤ 8 * payload.length) :
    (cut payload bits size).flatMap used = payload.take (bytesForBits bits) := by
  rw [cut_eq hs]
  exact flatMap_used_cutWith hs (Nat.le_refl _) hp

theorem total_cut (hs : 0 < size) : total bitLength (cut payload bits size) = bits := by
  rw [cut_eq hs]
  exact total_cutWith hs (Nat.le_refl _)

theorem mem_cut (hs : 0 < size) (hp : bits ≤ 8 * payload.length) :
    ∀ c ∈ cut payload bits size,
      0 < c.bitLength ∧ bytesForBits c.bitLength ≤ size ∧ c.bytes.length = bytesForBits c.bitLength := by
  rw [cut_eq hs]
  exact mem_cutWith hs hp

theorem cut_ne_nil (hs : 0 < size) (hb : 0 < bits) : cut payload bits size ≠ [] := by
  intro h
  have := @total_cut payload bits size hs
  rw [h, total_nil] at this
  omega

end cut
end ReliableDatagram.Chunk
