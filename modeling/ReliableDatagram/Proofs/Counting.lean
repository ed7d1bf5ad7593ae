import Mathlib.Tactic.Common
import ReliableDatagram.Counter

/-!
# Counters that have not wrapped

A counter stands for the number of steps it has taken, modulo the range. As long as no more than half
the range is used, the counter tells the number, and "older" is "smaller".
-/
namespace ReliableDatagram.Counter

variable {kind : CounterKind}

/-- Steps that a counter may take before two of its values are confused. -/
def span : Nat := 32767

/-- Values that a counter has. -/
def period : Nat := 65536

@[simp] theorem toNat_ofNat (n : Nat) : (ofNat n : Counter kind).toNat = n % 65536 := rfl

theorem toNat_ofNat_of_le {n : Nat} (h : n ≤ span) : (ofNat n : Counter kind).toNat = n := by
  rw [toNat_ofNat, Nat.mod_eq_of_lt]
  simp only [span] at h
  omega

theorem ofNat_inj {m n : Nat} (hm : m ≤ span) (hn : n ≤ span) :
    (ofNat m : Counter kind) = ofNat n ↔ m = n := by
  constructor
  · intro h
    rw [← toNat_ofNat_of_le hm, h, toNat_ofNat_of_le hn]
  · exact congrArg _

/-- Within one period no value comes twice. -/
theorem eq_of_ofNat_eq {m n : Nat} (hm : m < period) (hn : n < period)
    (h : (ofNat m : Counter kind) = ofNat n) : m = n := by
  have hmod := congrArg toNat h
  simp only [toNat_ofNat, period] at hmod hm hn
  omega

theorem ext_toNat {c d : Counter kind} (h : c.toNat = d.toNat) : c = d := by
  cases c
  cases d
  exact congrArg _ (UInt16.toNat_inj.mp h)

@[simp] theorem default_eq : (default : Counter kind) = ofNat 0 := rfl

@[simp] theorem advance_ofNat (m n : Nat) : (ofNat m : Counter kind).advance n = ofNat (m + n) := by
  apply ext_toNat
  simp [advance, toNat, ofNat, Nat.add_mod]

@[simp] theorem next_ofNat (n : Nat) : (ofNat n : Counter kind).next = ofNat (n + 1) :=
  advance_ofNat n 1

theorem toNat_distanceFrom (c base : Counter kind) :
    (c.distanceFrom base).toNat = (65536 - base.toNat + c.toNat) % 65536 :=
  UInt16.toNat_sub ..

theorem distanceFrom_ofNat_of_le {m n : Nat} (h : m ≤ n) (hn : n ≤ span) :
    ((ofNat n : Counter kind).distanceFrom (ofNat m)).toNat = n - m := by
  rw [toNat_distanceFrom, toNat_ofNat_of_le hn, toNat_ofNat_of_le (Nat.le_trans h hn)]
  simp only [span] at hn
  omega

theorem distanceFrom_ofNat_of_lt {m n : Nat} (h : n < m) (hm : m ≤ span) :
    0x8000 ≤ ((ofNat n : Counter kind).distanceFrom (ofNat m)).toNat := by
  rw [toNat_distanceFrom, toNat_ofNat_of_le hm, toNat_ofNat_of_le (Nat.le_trans (Nat.le_of_lt h) hm)]
  simp only [span] at hm
  omega

theorem isOlderThan_iff (c reference : Counter kind) :
    c.isOlderThan reference = true ↔
      0 < (reference.distanceFrom c).toNat ∧ (reference.distanceFrom c).toNat < 0x8000 := by
  simp only [isOlderThan, Bool.and_eq_true, bne_iff_ne, ne_eq, decide_eq_true_eq,
    UInt16.lt_iff_toNat_lt, ← UInt16.toNat_inj, UInt16.toNat_zero]
  have : (0x8000 : UInt16).toNat = 0x8000 := rfl
  omega

theorem isOlderThan_ofNat {m n : Nat} (hm : m ≤ span) (hn : n ≤ span) :
    (ofNat m : Counter kind).isOlderThan (ofNat n) = true ↔ m < n := by
  rw [isOlderThan_iff]
  rcases Nat.lt_or_ge m n with h | h
  · rw [distanceFrom_ofNat_of_le (Nat.le_of_lt h) hn]
    simp only [span] at hn
    omega
  · rcases Nat.eq_or_lt_of_le h with rfl | h
    · rw [distanceFrom_ofNat_of_le (Nat.le_refl _) hn]
      omega
    · have := @distanceFrom_ofNat_of_lt kind _ _ h hm
      omega

end ReliableDatagram.Counter
