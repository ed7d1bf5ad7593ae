import Mathlib.Data.List.Infix
import ReliableDatagram.Proofs.Sending.Shipment

/-!
# Order on a lane

A lane that is given complete messages delivers the ordered ones as a prefix of what was sent on its
channel, and the sequenced ones as a selection of it. The messages of one kind on one channel are the
list `os` below, counted by their indices. `Lane.Keeps` says that the first `k` of them are delivered
and that whatever waits lies behind a gap.
-/
namespace ReliableDatagram

/-- Every number of the shipment was seen. -/
def Shipment.SeenIn (seen : Set Nat) (m : Shipment) : Prop := ∀ n, m.Owns n → n ∈ seen

theorem Shipment.SeenIn.mono {m : Shipment} {seen seen' : Set Nat} (h : m.SeenIn seen)
    (hs : seen ⊆ seen') : m.SeenIn seen' :=
  fun n hn => hs (h n hn)

/-- The shipments stand at the places that their indices tell. -/
def Indexed (os : List Shipment) : Prop := os.map Shipment.index = List.range os.length

namespace Indexed

variable {os : List Shipment} {m : Shipment}

theorem index_eq (h : Indexed os) {i : Nat} (hi : os[i]? = some m) : m.index = i := by
  have hlt := (List.getElem?_eq_some_iff.mp hi).1
  have hmap : (os.map Shipment.index)[i]? = some m.index := by rw [List.getElem?_map, hi]; rfl
  rw [h, List.getElem?_range hlt] at hmap
  exact (Option.some.inj hmap).symm

theorem getElem?_index (h : Indexed os) (hm : m ∈ os) : os[m.index]? = some m := by
  obtain ⟨i, hi⟩ := List.mem_iff_getElem?.mp hm
  rw [h.index_eq hi, hi]

theorem index_lt (h : Indexed os) (hm : m ∈ os) : m.index < os.length :=
  (List.getElem?_eq_some_iff.mp (h.getElem?_index hm)).1

theorem eq_of_index (h : Indexed os) {m' : Shipment} (hm : m ∈ os) (hm' : m' ∈ os)
    (hi : m.index = m'.index) : m = m' := by
  have heq := h.getElem?_index hm
  rw [hi, h.getElem?_index hm'] at heq
  exact (Option.some.inj heq).symm

theorem mem_take (h : Indexed os) (hm : m ∈ os) {k : Nat} (hk : m.index < k) : m ∈ os.take k := by
  refine List.mem_iff_getElem?.mpr ⟨m.index, ?_⟩
  rw [List.getElem?_take, if_pos hk, h.getElem?_index hm]

theorem drop_index (h : Indexed os) (hm : m ∈ os) :
    os.drop m.index = m :: os.drop (m.index + 1) := by
  obtain ⟨hlt, heq⟩ := List.getElem?_eq_some_iff.mp (h.getElem?_index hm)
  rw [List.drop_eq_getElem_cons hlt, heq]

theorem index_eq_of_key (h : Indexed os) (hspan : os.length ≤ Counter.span) (hm : m ∈ os) {i : Nat}
    (hi : i ≤ os.length)
    (hkey : (.ofNat m.index : OrderingIndex).value = (.ofNat i : OrderingIndex).value) :
    m.index = i := by
  have hlt := h.index_lt hm
  have heq : (.ofNat m.index : OrderingIndex) = .ofNat i := congrArg Counter.mk hkey
  exact (Counter.ofNat_inj (by omega) (by omega)).mp heq

end Indexed

namespace Lane

def Waits (l : Lane Delivery) (m : Shipment) : Prop :=
  l.waiting[(.ofNat m.index : OrderingIndex).value]? = some m.delivery

/-- What waits is complete and belongs to the messages from place `k` on. -/
def WaitsFrom (l : Lane Delivery) (os : List Shipment) (seen : Set Nat) (k : Nat) : Prop :=
  ∀ key d, l.waiting[key]? = some d → ∃ m ∈ os, key = (.ofNat m.index : OrderingIndex).value ∧
    d = m.delivery ∧ k ≤ m.index ∧ m.SeenIn seen

/-- The first `k` messages are delivered, and nothing else. -/
structure Stands (l : Lane Delivery) (os : List Shipment) (seen : Set Nat) (k : Nat) : Prop where
  ordered_eq : l.ordered = .ofNat k
  le_length : k ≤ os.length
  done : ∀ m ∈ os.take k, m.SeenIn seen
  waiting : l.WaitsFrom os seen k

/-- The lane stands in front of a gap. -/
structure Keeps (l : Lane Delivery) (os : List Shipment) (seen : Set Nat) (k : Nat) : Prop
    extends l.Stands os seen k where
  next_missing : l.waiting[l.ordered.value]? = none

variable {l : Lane Delivery} {os : List Shipment} {seen : Set Nat} {k : Nat} {m : Shipment}

theorem keeps_initial (os : List Shipment) (seen : Set Nat) :
    ({} : Lane Delivery).Keeps os seen 0 := by
  refine ⟨⟨rfl, Nat.zero_le _, by simp, ?_⟩, Std.TreeMap.getElem?_emptyc⟩
  intro key d hd
  rw [Std.TreeMap.getElem?_emptyc] at hd
  cases hd

theorem Keeps.mono {os' : List Shipment} {seen' : Set Nat} (h : l.Keeps os seen k)
    (hos : os <+: os') (hs : seen ⊆ seen') : l.Keeps os' seen' k := by
  refine ⟨⟨h.ordered_eq, Nat.le_trans h.le_length hos.length_le, ?_, ?_⟩, h.next_missing⟩
  · intro m hm
    obtain ⟨rest, rfl⟩ := hos
    rw [List.take_append_of_le_length h.le_length] at hm
    exact (h.done m hm).mono hs
  · intro key d hd
    obtain ⟨m, hm, hkey, hdel, hk, hseen⟩ := h.waiting key d hd
    exact ⟨m, hos.subset hm, hkey, hdel, hk, hseen.mono hs⟩

namespace Stands

/-- The next message, which is complete, is taken out of the lane if it waits there. -/
theorem next (h : l.Stands os seen k) (hos : Indexed os) (hm : m ∈ os) (hmk : m.index = k)
    (hseen : m.SeenIn seen) {l' : Lane Delivery} (hordered : l'.ordered = l.ordered.next)
    (hwaiting : ∀ (key : UInt16) d, l'.waiting[key]? = some d →
      key ≠ (.ofNat k : OrderingIndex).value ∧ l.waiting[key]? = some d) :
    l'.Stands os seen (k + 1) := by
  have hlt := hos.index_lt hm
  refine ⟨?_, by omega, ?_, ?_⟩
  · rw [hordered, h.ordered_eq, Counter.next_ofNat]
  · intro x hx
    rw [List.take_add_one, ← hmk, hos.getElem?_index hm, hmk] at hx
    rcases List.mem_append.mp hx with hx | hx
    · exact h.done x hx
    · obtain rfl : x = m := by simpa using hx
      exact hseen
  · intro key d hd
    obtain ⟨hne, hd⟩ := hwaiting key d hd
    obtain ⟨x, hx, rfl, hdel, hxk, hxseen⟩ := h.waiting key d hd
    have hxne : x.index ≠ k := fun hxk => hne (by rw [hxk])
    exact ⟨x, hx, rfl, hdel, by omega, hxseen⟩

/-- Releasing goes on until a message is missing. -/
theorem releaseWith (hos : Indexed os) (hspan : os.length ≤ Counter.span) {fuel : Nat}
    (h : l.Stands os seen k) (hfuel : l.waiting.size ≤ fuel) :
    ∃ rs, rs <+: os.drop k ∧ (Lane.releaseWith fuel l).1 = rs.map Shipment.delivery ∧
      (Lane.releaseWith fuel l).2.Keeps os seen (k + rs.length) ∧
      (Lane.releaseWith fuel l).2.sequenced = l.sequenced ∧
      ∀ m ∈ os, l.Waits m → m ∈ rs ∨ (Lane.releaseWith fuel l).2.Waits m := by
  induction fuel generalizing l k with
  | zero =>
    have hempty : l.waiting.isEmpty = true := by
      rw [Std.TreeMap.isEmpty_eq_size_eq_zero]
      simpa using hfuel
    have hnone := Std.TreeMap.getElem?_of_isEmpty hempty (a := l.ordered.value)
    exact ⟨[], List.nil_prefix, rfl, ⟨h, hnone⟩, rfl, fun m _ hm => Or.inr hm⟩
  | succ n ih =>
    rw [Lane.releaseWith]
    cases hnext : l.waiting[l.ordered.value]? with
    | none => exact ⟨[], List.nil_prefix, rfl, ⟨h, hnext⟩, rfl, fun m _ hm => Or.inr hm⟩
    | some a =>
      obtain ⟨m, hm, hkey, rfl, -, hseen⟩ := h.waiting _ a hnext
      rw [h.ordered_eq] at hkey hnext
      have hmk := hos.index_eq_of_key hspan hm h.le_length hkey.symm
      let l₁ : Lane Delivery :=
        { l with ordered := l.ordered.next, waiting := l.waiting.erase l.ordered.value }
      have hget : ∀ key : UInt16, l₁.waiting[key]? =
          if (.ofNat k : OrderingIndex).value = key then none else l.waiting[key]? := by
        intro key
        show (l.waiting.erase l.ordered.value)[key]? = _
        rw [Std.TreeMap.getElem?_erase, h.ordered_eq]
        simp only [Std.compare_eq_iff_eq]
      have hstands : l₁.Stands os seen (k + 1) := by
        apply h.next hos hm hmk hseen rfl
        intro key d hd
        rw [hget] at hd
        split_ifs at hd with hne
        exact ⟨fun h => hne h.symm, hd⟩
      have hfuel₁ : l₁.waiting.size ≤ n := by
        have hcontains : l.waiting.contains (.ofNat k : OrderingIndex).value = true := by
          rw [Std.TreeMap.contains_eq_isSome_getElem?, hnext]
          rfl
        show (l.waiting.erase l.ordered.value).size ≤ n
        rw [Std.TreeMap.size_erase, h.ordered_eq, if_pos hcontains]
        omega
      obtain ⟨rs, hrs, hreleased, hkeeps, hsequenced, hkept⟩ := ih hstands hfuel₁
      refine ⟨m :: rs, ?_, ?_, ?_, hsequenced, ?_⟩
      · rw [← hmk, hos.drop_index hm, hmk]
        exact (List.prefix_cons_inj m).mpr hrs
      · rw [List.map_cons, ← hreleased]
      · rw [List.length_cons, ← Nat.add_assoc, Nat.add_right_comm]
        exact hkeeps
      · intro x hx hxwaits
        by_cases hxm : x = m
        · exact Or.inl (by simp [hxm])
        · have hne : (.ofNat k : OrderingIndex).value ≠ (.ofNat x.index : OrderingIndex).value := by
            intro hkey
            have hxk := hos.index_eq_of_key hspan hx h.le_length hkey.symm
            exact hxm (hos.eq_of_index hx hm (hxk.trans hmk.symm))
          have hxwaits₁ : l₁.Waits x := by
            rw [Waits, hget, if_neg hne]
            exact hxwaits
          exact (hkept x hx hxwaits₁).imp_left (List.mem_cons_of_mem m)

end Stands

/-- A message that was not complete before is neither delivered nor waiting. -/
theorem Keeps.fresh (h : l.Keeps os seen k) (hos : Indexed os) (hspan : os.length ≤ Counter.span)
    (hm : m ∈ os) (hnew : ¬m.SeenIn seen) :
    k ≤ m.index ∧ l.waiting[(.ofNat m.index : OrderingIndex).value]? = none := by
  have hlt := hos.index_lt hm
  constructor
  · by_contra hlt
    exact hnew (h.done m (hos.mem_take hm (by omega)))
  · cases hw : l.waiting[(.ofNat m.index : OrderingIndex).value]? with
    | none => rfl
    | some d =>
      obtain ⟨x, hx, hkey, -, -, hxseen⟩ := h.waiting _ d hw
      have hxm := hos.index_eq_of_key hspan hx (Nat.le_of_lt hlt) hkey.symm
      exact absurd (hos.eq_of_index hx hm hxm ▸ hxseen) hnew

/-- A complete message begins to wait in front of a gap. -/
theorem Keeps.wait (h : l.Keeps os seen k) (hm : m ∈ os) (hk : k ≤ m.index) (hseen : m.SeenIn seen)
    (hmissing : l.waiting[(.ofNat m.index : OrderingIndex).value]? = none)
    (hnext : (.ofNat m.index : OrderingIndex) ≠ l.ordered) :
    let l' : Lane Delivery :=
      { l with waiting := l.waiting.insert (.ofNat m.index : OrderingIndex).value m.delivery }
    l'.Keeps os seen k ∧ l'.Waits m ∧ ∀ x, l.Waits x → l'.Waits x := by
  intro l'
  have hget : ∀ key : UInt16, l'.waiting[key]? =
      if (.ofNat m.index : OrderingIndex).value = key then some m.delivery else l.waiting[key]? := by
    intro key
    show (l.waiting.insert (.ofNat m.index : OrderingIndex).value m.delivery)[key]? = _
    rw [Std.TreeMap.getElem?_insert]
    simp only [Std.compare_eq_iff_eq]
  refine ⟨⟨⟨h.ordered_eq, h.le_length, h.done, ?_⟩, ?_⟩, ?_, ?_⟩
  · intro key d hd
    rw [hget] at hd
    split_ifs at hd with hkey
    · cases hd
      exact ⟨m, hm, hkey.symm, rfl, hk, hseen⟩
    · exact h.waiting key d hd
  · rw [hget, if_neg]
    · exact h.next_missing
    · intro hkey
      exact hnext (congrArg Counter.mk hkey)
  · rw [Waits, hget, if_pos rfl]
  · intro x hx
    rw [Waits, hget, if_neg]
    · exact hx
    · intro hkey
      rw [Waits, ← hkey, hmissing] at hx
      cases hx

/-- An ordered message that has just become complete is delivered, perhaps with others that waited
for it, or it begins to wait. It is never stale. -/
theorem Keeps.acceptOrdered {seen' : Set Nat} (h : l.Keeps os seen k) (hos : Indexed os)
    (hspan : os.length ≤ Counter.span) (hm : m ∈ os) (hnew : ¬m.SeenIn seen)
    (hs : seen ⊆ seen') (hseen : m.SeenIn seen') :
    ∃ rs, rs <+: os.drop k ∧
      (l.acceptOrdered (.ofNat m.index) m.delivery).1.delivered m.delivery =
        rs.map Shipment.delivery ∧
      (l.acceptOrdered (.ofNat m.index) m.delivery).2.Keeps os seen' (k + rs.length) ∧
      (l.acceptOrdered (.ofNat m.index) m.delivery).2.sequenced = l.sequenced ∧
      (m ∈ rs ∨ (l.acceptOrdered (.ofNat m.index) m.delivery).2.Waits m) ∧
      ∀ x ∈ os, l.Waits x → x ∈ rs ∨ (l.acceptOrdered (.ofNat m.index) m.delivery).2.Waits x := by
  have hlt := hos.index_lt hm
  have hle := h.le_length
  have hkeeps := h.mono (List.prefix_refl os) hs
  obtain ⟨hfresh, hmissing⟩ := h.fresh hos hspan hm hnew
  rw [Lane.acceptOrdered]
  split_ifs with hnext hstale
  · have hmk : m.index = k := by
      rw [h.ordered_eq] at hnext
      exact (Counter.ofNat_inj (by omega) (by omega)).mp hnext
    have hstands : ({ l with ordered := l.ordered.next } : Lane Delivery).Stands os seen' (k + 1) := by
      refine hkeeps.next hos hm hmk hseen rfl fun key d hd => ⟨?_, hd⟩
      rintro rfl
      rw [← hmk, hmissing] at hd
      cases hd
    obtain ⟨rs, hrs, hreleased, hkeeps', hsequenced, hkept⟩ :=
      hstands.releaseWith hos hspan (Nat.le_refl _)
    refine ⟨m :: rs, ?_, ?_, ?_, hsequenced, Or.inl List.mem_cons_self, ?_⟩
    · rw [← hmk, hos.drop_index hm, hmk]
      exact (List.prefix_cons_inj m).mpr hrs
    · rw [List.map_cons, ← hreleased]
      rfl
    · rw [List.length_cons, ← Nat.add_assoc, Nat.add_right_comm]
      exact hkeeps'
    · intro x hx hxwaits
      exact (hkept x hx hxwaits).imp_left (List.mem_cons_of_mem m)
  · exfalso
    rcases Bool.or_eq_true_iff.mp hstale with holder | hcontains
    · rw [h.ordered_eq, Counter.isOlderThan_ofNat (by omega) (by omega)] at holder
      omega
    · rw [Std.TreeMap.contains_eq_isSome_getElem?, hmissing] at hcontains
      cases hcontains
  · obtain ⟨hkeeps', hself, hothers⟩ := hkeeps.wait hm hfresh hseen hmissing hnext
    exact ⟨[], List.nil_prefix, rfl, hkeeps', rfl, Or.inr hself, fun x _ hx => Or.inr (hothers x hx)⟩

end Lane

theorem Manifest.indexed_ordered {ms : List Shipment} (h : Manifest ms) (c : Nat) :
    Indexed (ms.filter (Shipment.isOrderedOn c)) := by
  rw [Indexed, h.map_index_ordered, List.countP_eq_length_filter]

theorem Manifest.indexed_sequenced {ms : List Shipment} (h : Manifest ms) (c : Nat) :
    Indexed (ms.filter (Shipment.isSequencedOn c)) := by
  rw [Indexed, h.map_index_sequenced, List.countP_eq_length_filter]

/-- Indices do not wrap as long as the numbers do not. -/
theorem Manifest.index_lt_span {ms : List Shipment} (h : Manifest ms)
    (hspan : total Shipment.size ms ≤ Counter.span) {m : Shipment} (hm : m ∈ ms) {c : Nat}
    (hc : m.isSequencedOn c = true) : m.index < Counter.span := by
  have hlt := (h.indexed_sequenced c).index_lt (List.mem_filter.mpr ⟨hm, hc⟩)
  have hcount := countP_le_total (Shipment.isSequencedOn c) ms
  rw [List.countP_eq_length_filter] at hcount
  omega

namespace Shipment

variable {m : Shipment}

theorem val_channel (m : Shipment) : (Channel.ofNat m.channel : Nat) = m.channel :=
  Nat.mod_eq_of_lt m.channel_lt

theorem isOrderedOn_iff {c : Channel} :
    m.isOrderedOn c = true ↔ m.reliability.isOrdered = true ∧ c = Channel.ofNat m.channel := by
  have hc : m.channel = c ↔ c = Channel.ofNat m.channel := by
    rw [Fin.ext_iff, val_channel, eq_comm]
  simp only [isOrderedOn, Reliability.isOrderedOn, Bool.and_eq_true, beq_iff_eq, hc]

theorem isSequencedOn_iff {c : Channel} :
    m.isSequencedOn c = true ↔ m.reliability.isSequenced = true ∧ c = Channel.ofNat m.channel := by
  have hc : m.channel = c ↔ c = Channel.ofNat m.channel := by
    rw [Fin.ext_iff, val_channel, eq_comm]
  simp only [isSequencedOn, Reliability.isSequencedOn, Bool.and_eq_true, beq_iff_eq, hc]

/-- Both messages are sequenced on one channel, and the first one is older. -/
structure Precedes (m m' : Shipment) : Prop where
  on : m.isSequencedOn (Channel.ofNat m'.channel) = true
  on_newer : m'.isSequencedOn (Channel.ofNat m'.channel) = true
  lt : m.index < m'.index

theorem Precedes.sequenced {m' : Shipment} (h : m.Precedes m') :
    m.reliability.isSequenced = true := (isSequencedOn_iff.mp h.on).1

theorem Precedes.sequenced_newer {m' : Shipment} (h : m.Precedes m') :
    m'.reliability.isSequenced = true := (isSequencedOn_iff.mp h.on_newer).1

end Shipment

namespace Lanes

def Waits (t : Lanes Delivery) (m : Shipment) : Prop :=
  m.reliability.isOrdered = true ∧ (t.get (.ofNat m.channel)).Waits m

/-- The channel has gone past the sequenced message, which would be stale if it came now. -/
def IsPast (t : Lanes Delivery) (m : Shipment) : Prop :=
  (t.get (.ofNat m.channel)).isSequencedStale (.ofNat m.index) = true

theorem not_isPast_of_acceptSequenced? {t t' : Lanes Delivery} {m : Shipment}
    (ht : t.acceptSequenced? (.ofNat m.channel) (.ofNat m.index) = some t') : ¬t.IsPast m := by
  obtain ⟨lane, hlane, -⟩ := Option.map_eq_some_iff.mp ht
  unfold Lane.acceptSequenced? at hlane
  split_ifs at hlane with hstale
  exact hstale

/-- Of the messages `ms` the messages `out` were delivered, and every lane is where they left it. -/
structure Keeps (t : Lanes Delivery) (ms out : List Shipment) (seen : Set Nat) : Prop where
  ordered : ∀ c : Channel, ∃ k, (t.get c).Keeps (ms.filter (Shipment.isOrderedOn c)) seen k ∧
    out.filter (Shipment.isOrderedOn c) = (ms.filter (Shipment.isOrderedOn c)).take k
  sequenced : ∀ c : Channel, ∃ k ≤ (ms.filter (Shipment.isSequencedOn c)).length,
    (t.get c).sequenced = .ofNat k ∧ (out.filter (Shipment.isSequencedOn c)).Sublist
      ((ms.filter (Shipment.isSequencedOn c)).take k)

theorem keeps_initial (ms : List Shipment) (seen : Set Nat) :
    (initial : Lanes Delivery).Keeps ms [] seen := by
  constructor
  · intro c
    refine ⟨0, ?_, by simp⟩
    rw [initial, PerChannel.get_replicate]
    exact Lane.keeps_initial ..
  · intro c
    refine ⟨0, Nat.zero_le _, ?_, by simp⟩
    rw [initial, PerChannel.get_replicate]
    rfl

namespace Keeps

variable {t : Lanes Delivery} {ms out : List Shipment} {seen seen' : Set Nat} {m : Shipment}

theorem mono {ms' : List Shipment} (h : t.Keeps ms out seen) (hms : ms <+: ms')
    (hs : seen ⊆ seen') : t.Keeps ms' out seen' := by
  constructor
  · intro c
    obtain ⟨k, hkeeps, hout⟩ := h.ordered c
    have hfilter := hms.filter (Shipment.isOrderedOn c)
    refine ⟨k, hkeeps.mono hfilter hs, ?_⟩
    obtain ⟨rest, hrest⟩ := hfilter
    rw [hout, ← hrest, List.take_append_of_le_length hkeeps.le_length]
  · intro c
    obtain ⟨k, hk, hsequenced, hout⟩ := h.sequenced c
    obtain ⟨rest, hrest⟩ := hms.filter (Shipment.isSequencedOn c)
    refine ⟨k, ?_, hsequenced, ?_⟩
    · rw [← hrest, List.length_append]
      omega
    · rw [← hrest, List.take_append_of_le_length hk]
      exact hout

theorem plain (h : t.Keeps ms out seen) (ho : m.reliability.isOrdered = false)
    (hq : m.reliability.isSequenced = false) : t.Keeps ms (out ++ [m]) seen := by
  constructor
  · intro c
    have hm : m.isOrderedOn c = false := by simp [Shipment.isOrderedOn, Reliability.isOrderedOn, ho]
    simpa [hm] using h.ordered c
  · intro c
    have hm : m.isSequencedOn c = false := by
      simp [Shipment.isSequencedOn, Reliability.isSequencedOn, hq]
    simpa [hm] using h.sequenced c

/-- A sequenced message that is not stale is the newest on its channel. -/
theorem acceptSequenced (h : t.Keeps ms out seen) (hms : Manifest ms)
    (hspan : total Shipment.size ms ≤ Counter.span) (hm : m ∈ ms)
    (hq : m.reliability.isSequenced = true) {t' : Lanes Delivery}
    (ht : t.acceptSequenced? (.ofNat m.channel) (.ofNat m.index) = some t') :
    t'.Keeps ms (out ++ [m]) seen ∧ ∀ x, t'.Waits x ↔ t.Waits x := by
  obtain ⟨lane, hlane, rfl⟩ := Option.map_eq_some_iff.mp ht
  unfold Lane.acceptSequenced? at hlane
  split_ifs at hlane with hstale
  cases hlane
  have ho := Reliability.not_isOrdered_of_isSequenced hq
  refine ⟨⟨?_, ?_⟩, ?_⟩
  · intro c
    have hmc : m.isOrderedOn c = false := by simp [Shipment.isOrderedOn, Reliability.isOrderedOn, ho]
    obtain ⟨k, hkeeps, hout⟩ := h.ordered c
    refine ⟨k, ?_, by simpa [hmc] using hout⟩
    rw [PerChannel.get_set]
    split_ifs with hc
    · subst hc
      exact ⟨⟨hkeeps.ordered_eq, hkeeps.le_length, hkeeps.done, hkeeps.waiting⟩, hkeeps.next_missing⟩
    · exact hkeeps
  · intro c
    obtain ⟨k, hk, hsequenced, hout⟩ := h.sequenced c
    rw [PerChannel.get_set]
    by_cases hc : c = .ofNat m.channel
    · have hmc : m.isSequencedOn c = true := Shipment.isSequencedOn_iff.mpr ⟨hq, hc⟩
      have hos := hms.indexed_sequenced c
      have hmem : m ∈ ms.filter (Shipment.isSequencedOn c) := List.mem_filter.mpr ⟨hm, hmc⟩
      have hlt := hos.index_lt hmem
      have hcount := Manifest.countP_le_total (Shipment.isSequencedOn c) ms
      rw [List.countP_eq_length_filter] at hcount
      rw [← hc, Lane.isSequencedStale, hsequenced,
        Counter.isOlderThan_ofNat (by omega) (by omega)] at hstale
      refine ⟨m.index + 1, hlt, ?_, ?_⟩
      · rw [if_pos hc, Counter.next_ofNat]
      · rw [List.filter_append, List.filter_singleton, hmc, List.take_add_one,
          hos.getElem?_index hmem]
        have hle : k ≤ m.index := by omega
        exact (hout.trans (List.take_sublist_take_left hle)).append (List.Sublist.refl _)
    · have hmc : ¬m.isSequencedOn c = true := fun hmc => hc (Shipment.isSequencedOn_iff.mp hmc).2
      rw [if_neg hc]
      exact ⟨k, hk, hsequenced, by simpa [hmc] using hout⟩
  · intro x
    rw [Waits, Waits, PerChannel.get_set]
    split_ifs with hc
    · rw [hc]
      rfl
    · exact Iff.rfl

/-- What is past on a channel are the sequenced messages in front of one place. -/
theorem exists_isPast_iff (h : t.Keeps ms out seen) (hms : Manifest ms)
    (hspan : total Shipment.size ms ≤ Counter.span) (c : Channel) : ∃ k ≤ Counter.span,
      (t.get c).sequenced = .ofNat k ∧
        ∀ m ∈ ms, m.isSequencedOn c = true → (t.IsPast m ↔ m.index < k) := by
  obtain ⟨k, hk, hsequenced, -⟩ := h.sequenced c
  have hcount := Manifest.countP_le_total (Shipment.isSequencedOn c) ms
  rw [List.countP_eq_length_filter] at hcount
  refine ⟨k, by omega, hsequenced, fun m hm hmc => ?_⟩
  have hindex := hms.index_lt_span hspan hm hmc
  rw [IsPast, ← (Shipment.isSequencedOn_iff.mp hmc).2, Lane.isSequencedStale, hsequenced,
    Counter.isOlderThan_ofNat (by omega) (by omega)]

theorem isPast_of_lt (h : t.Keeps ms out seen) (hms : Manifest ms)
    (hspan : total Shipment.size ms ≤ Counter.span) {m' : Shipment} (hm : m ∈ ms) (hm' : m' ∈ ms)
    {c : Channel} (hc : m.isSequencedOn c = true) (hc' : m'.isSequencedOn c = true)
    (hlt : m.index < m'.index) (hpast : t.IsPast m') : t.IsPast m := by
  obtain ⟨k, -, -, hiff⟩ := h.exists_isPast_iff hms hspan c
  have := (hiff m' hm' hc').mp hpast
  exact (hiff m hm hc).mpr (by omega)

/-- Behind a sequenced message that is accepted the channel is past it and all older ones, and past what it
was past before. -/
theorem isPast_acceptSequenced_iff (h : t.Keeps ms out seen) (hms : Manifest ms)
    (hspan : total Shipment.size ms ≤ Counter.span) (hm : m ∈ ms)
    (hq : m.reliability.isSequenced = true) {t' : Lanes Delivery}
    (ht : t.acceptSequenced? (.ofNat m.channel) (.ofNat m.index) = some t') {x : Shipment} (hx : x ∈ ms)
    (hxq : x.reliability.isSequenced = true) :
    t'.IsPast x ↔ t.IsPast x ∨ x = m ∨ x.Precedes m := by
  have hkeeps' := (h.acceptSequenced hms hspan hm hq ht).1
  have hfresh := not_isPast_of_acceptSequenced? ht
  obtain ⟨lane, hlane, rfl⟩ := Option.map_eq_some_iff.mp ht
  unfold Lane.acceptSequenced? at hlane
  split_ifs at hlane
  cases hlane
  have hmc : m.isSequencedOn (Channel.ofNat m.channel) = true :=
    Shipment.isSequencedOn_iff.mpr ⟨hq, rfl⟩
  obtain ⟨k, hk, -, hpast⟩ := h.exists_isPast_iff hms hspan (.ofNat m.channel)
  obtain ⟨k', hk', hsequenced', hpast'⟩ := hkeeps'.exists_isPast_iff hms hspan (.ofNat m.channel)
  have hlt := hms.index_lt_span hspan hm hmc
  obtain rfl : m.index + 1 = k' := by
    rw [PerChannel.get_set, if_pos rfl, Counter.next_ofNat] at hsequenced'
    exact (Counter.ofNat_inj (by omega) hk').mp hsequenced'
  have hle : k ≤ m.index := Nat.not_lt.mp fun hlt => hfresh ((hpast m hm hmc).mpr hlt)
  by_cases hxc : Channel.ofNat x.channel = .ofNat m.channel
  · have hxc' : x.isSequencedOn (Channel.ofNat m.channel) = true :=
      Shipment.isSequencedOn_iff.mpr ⟨hxq, hxc.symm⟩
    rw [hpast x hx hxc', hpast' x hx hxc']
    constructor
    · intro hlast
      rcases Nat.lt_or_eq_of_le (Nat.lt_succ_iff.mp hlast) with hlt | heq
      · exact Or.inr (Or.inr ⟨hxc', hmc, hlt⟩)
      · exact Or.inr (Or.inl ((hms.indexed_sequenced _).eq_of_index (List.mem_filter.mpr ⟨hx, hxc'⟩)
          (List.mem_filter.mpr ⟨hm, hmc⟩) heq))
    · rintro (hold | rfl | holder)
      · omega
      · exact Nat.lt_succ_self _
      · exact Nat.lt_succ_of_lt holder.lt
  · rw [IsPast, PerChannel.get_set, if_neg hxc]
    refine (or_iff_left ?_).symm
    rintro (rfl | holder)
    · exact hxc rfl
    · exact hxc (Shipment.isSequencedOn_iff.mp holder.on).2.symm

/-- One lane moves on by the messages `rs` of its channel. -/
theorem set (h : t.Keeps ms out seen) (hs : seen ⊆ seen') {c : Channel} {k : Nat}
    {rs : List Shipment} {lane : Lane Delivery}
    (hout : out.filter (Shipment.isOrderedOn c) = (ms.filter (Shipment.isOrderedOn c)).take k)
    (hrs : rs <+: (ms.filter (Shipment.isOrderedOn c)).drop k)
    (hlane : lane.Keeps (ms.filter (Shipment.isOrderedOn c)) seen' (k + rs.length))
    (hsequenced : lane.sequenced = (t.get c).sequenced) :
    Lanes.Keeps (t.set c lane) ms (out ++ rs) seen' := by
  have hon : ∀ x ∈ rs, x.isOrderedOn c = true := fun x hx =>
    (List.mem_filter.mp (List.mem_of_mem_drop (hrs.subset hx))).2
  constructor
  · intro d
    rw [PerChannel.get_set]
    by_cases hd : d = c
    · subst hd
      rw [if_pos rfl, List.filter_append, hout, List.filter_eq_self.mpr hon]
      refine ⟨k + rs.length, hlane, ?_⟩
      rw [List.take_add, ← List.prefix_iff_eq_take.mp hrs]
    · obtain ⟨k', hkeeps, hout'⟩ := h.ordered d
      have hnone : rs.filter (Shipment.isOrderedOn d) = [] := by
        apply List.filter_eq_nil_iff.mpr
        intro x hx hxd
        exact hd ((Shipment.isOrderedOn_iff.mp hxd).2.trans (Shipment.isOrderedOn_iff.mp (hon x hx)).2.symm)
      rw [if_neg hd, List.filter_append, hnone, List.append_nil]
      exact ⟨k', hkeeps.mono (List.prefix_refl _) hs, hout'⟩
  · intro d
    have hnone : rs.filter (Shipment.isSequencedOn d) = [] := by
      apply List.filter_eq_nil_iff.mpr
      intro x hx hxd
      have hxo := Reliability.not_isSequenced_of_isOrdered (Shipment.isOrderedOn_iff.mp (hon x hx)).1
      rw [(Shipment.isSequencedOn_iff.mp hxd).1] at hxo
      cases hxo
    rw [PerChannel.get_set, List.filter_append, hnone, List.append_nil]
    obtain ⟨k', hk', hsequenced', hout'⟩ := h.sequenced d
    refine ⟨k', hk', ?_, hout'⟩
    split_ifs with hd
    · rw [hsequenced, ← hd, hsequenced']
    · exact hsequenced'

/-- An ordered message that has just become complete is delivered, perhaps with others that waited
for it, or it begins to wait. -/
theorem acceptOrdered (h : t.Keeps ms out seen) (hms : Manifest ms)
    (hspan : total Shipment.size ms ≤ Counter.span) (hm : m ∈ ms)
    (ho : m.reliability.isOrdered = true) (hnew : ¬m.SeenIn seen) (hs : seen ⊆ seen')
    (hseen : m.SeenIn seen') {arrival : OrderedArrival Delivery} {t' : Lanes Delivery}
    (ht : t.acceptOrdered (.ofNat m.channel) (.ofNat m.index) m.delivery = (arrival, t')) :
    ∃ rs, arrival.delivered m.delivery = rs.map Shipment.delivery ∧ t'.Keeps ms (out ++ rs) seen' ∧
      rs.Nodup ∧ (∀ x ∈ rs, x ∈ ms ∧ x ∉ out ∧ x.SeenIn seen') ∧ (m ∈ rs ∨ t'.Waits m) ∧
      (∀ x ∈ ms, t.Waits x → x ∈ rs ∨ t'.Waits x) ∧ ∀ x, t'.IsPast x ↔ t.IsPast x := by
  obtain ⟨k, hkeeps, hout⟩ := h.ordered (.ofNat m.channel)
  have hmc : m.isOrderedOn (Channel.ofNat m.channel) = true := Shipment.isOrderedOn_iff.mpr ⟨ho, rfl⟩
  generalize hc : Channel.ofNat m.channel = c at *
  have hos := hms.indexed_ordered c
  have hnodup := hms.nodup.filter (Shipment.isOrderedOn c)
  have hlen : (ms.filter (Shipment.isOrderedOn c)).length ≤ Counter.span := by
    have hcount := Manifest.countP_le_total (Shipment.isOrderedOn c) ms
    rw [List.countP_eq_length_filter] at hcount
    omega
  obtain ⟨rs, hrs, hdelivered, hkeeps', hsequenced', hself, hothers⟩ :=
    hkeeps.acceptOrdered hos hlen (List.mem_filter.mpr ⟨hm, hmc⟩) hnew hs hseen
  generalize hlane : (t.get c).acceptOrdered (.ofNat m.index) m.delivery = result at *
  obtain ⟨arrival', lane⟩ := result
  have ht' : arrival' = arrival ∧ t.set c lane = t' := by
    rw [Lanes.acceptOrdered, hlane] at ht
    exact Prod.mk.inj ht
  obtain ⟨rfl, rfl⟩ := ht'
  have hget : ∀ x, Waits (t.set c lane) x ↔
      if .ofNat x.channel = c then x.reliability.isOrdered = true ∧ lane.Waits x else t.Waits x := by
    intro x
    rw [Waits, Waits, PerChannel.get_set]
    split_ifs <;> exact Iff.rfl
  refine ⟨rs, hdelivered, h.set hs hout hrs hkeeps' hsequenced', ?_, ?_, ?_, ?_, ?_⟩
  · exact (hnodup.sublist (List.drop_sublist k _)).sublist hrs.sublist
  · intro x hx
    have hxdrop := hrs.subset hx
    obtain ⟨hxms, hxc⟩ := List.mem_filter.mp (List.mem_of_mem_drop hxdrop)
    refine ⟨hxms, fun hxout => ?_, hkeeps'.done x ?_⟩
    · have hxtake := List.mem_filter.mpr ⟨hxout, hxc⟩
      rw [hout] at hxtake
      exact List.disjoint_take_drop hnodup (Nat.le_refl k) hxtake hxdrop
    · rw [List.take_add, ← List.prefix_iff_eq_take.mp hrs]
      exact List.mem_append_right _ hx
  · refine hself.imp_right fun hwaits => ?_
    rw [hget, if_pos hc]
    exact ⟨ho, hwaits⟩
  · intro x hx hxwaits
    rw [hget]
    by_cases hxc : .ofNat x.channel = c
    · rw [if_pos hxc]
      have hxlane : (t.get c).Waits x := hxc ▸ hxwaits.2
      have hxos := List.mem_filter.mpr ⟨hx, Shipment.isOrderedOn_iff.mpr ⟨hxwaits.1, hxc.symm⟩⟩
      exact (hothers x hxos hxlane).imp_right fun hw => ⟨hxwaits.1, hw⟩
    · rw [if_neg hxc]
      exact Or.inr hxwaits
  · intro x
    rw [IsPast, IsPast, PerChannel.get_set, Lane.isSequencedStale, Lane.isSequencedStale]
    split_ifs with hxc
    · rw [hsequenced', hxc]
    · exact Iff.rfl

end Keeps
end Lanes
end ReliableDatagram
