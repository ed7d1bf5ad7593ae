import ReliableDatagram.Proofs.Receiving.Answers
import ReliableDatagram.Proofs.Wire.RoundTrip

/-!
# The charges of held fragments

A reassembler keeps its books whatever packets it is given, from whomever they come: a group holds some
fragments of one message, but not all, and is charged with them, and the reassembler is charged with its
groups, within its bound. What holds of all packets that it was given (`P`) holds of those that it keeps.
-/
namespace ReliableDatagram

/-- Bits of a payload are no more than its bytes hold. -/
theorem Packet.bitLength_le (p : Packet) : p.bitLength ≤ 8 * p.payloadLength := by
  simp only [payloadLength, bytesForBits]
  omega

namespace FragmentGroup

variable {P : Packet → Prop} {parts : List (Nat × Packet)} {id : SplitId} {count : Nat}

/-- Fragments of one message, each under its own part number, by ascending number. -/
structure Ascending (parts : List (Nat × Packet)) (id : SplitId) (count : Nat) (P : Packet → Prop) :
    Prop where
  known : ∀ x ∈ parts, P x.2
  part_eq : ∀ x ∈ parts, x.2.part = some { id, index := x.1, count }
  sorted : parts.Pairwise fun x y => x.1 < y.1
  index_lt : ∀ x ∈ parts, x.1 < count

namespace Ascending

theorem nil : Ascending [] id count P := by
  constructor <;> simp

theorem mono {Q : Packet → Prop} (h : Ascending parts id count P) (hQ : ∀ p, P p → Q p) :
    Ascending parts id count Q :=
  { h with known := fun x hx => hQ x.2 (h.known x hx) }

theorem known_insertPart (h : Ascending parts id count P) {p : Packet} (hp : P p) (index : Nat) :
    ∀ x ∈ FragmentGroup.insertPart index p parts, P x.2 := by
  intro x hx
  rcases List.mem_cons.mp ((insertPart_perm index p parts).mem_iff.mp hx) with rfl | hx
  · exact hp
  · exact h.known x hx

theorem insertPart (h : Ascending parts id count P) {p : Packet} (hp : P p) {index : Nat}
    (hpart : p.part = some { id, index, count }) (hindex : index < count)
    (hnew : ∀ x ∈ parts, x.1 ≠ index) :
    Ascending (FragmentGroup.insertPart index p parts) id count P := by
  have hperm := insertPart_perm index p parts
  refine ⟨h.known_insertPart hp index, fun x hx => ?_, insertPart_pairwise h.sorted hnew, fun x hx => ?_⟩
  all_goals rcases List.mem_cons.mp (hperm.mem_iff.mp hx) with rfl | hx
  · exact hpart
  · exact h.part_eq x hx
  · exact hindex
  · exact h.index_lt x hx

theorem nodup_map_snd (h : Ascending parts id count P) : (parts.map Prod.snd).Nodup := by
  apply List.pairwise_map.mpr
  refine h.sorted.imp_of_mem fun {x y} hx hy hlt heq => ?_
  have hsame : x.1 = y.1 := by
    have hpart := (h.part_eq x hx).symm.trans ((congrArg Packet.part heq).trans (h.part_eq y hy))
    exact congrArg Part.index (Option.some.inj hpart)
  exact Nat.ne_of_lt hlt hsame

/-- As many fragments as the message has are all of them. -/
theorem map_fst_eq (h : Ascending parts id count P) (hfull : count ≤ parts.length) :
    parts.map Prod.fst = List.range count := by
  have hsorted : (parts.map Prod.fst).Pairwise (· < ·) := List.pairwise_map.mpr h.sorted
  have hsub : parts.map Prod.fst ⊆ List.range count := by
    intro i hi
    obtain ⟨x, hx, rfl⟩ := List.mem_map.mp hi
    exact List.mem_range.mpr (h.index_lt x hx)
  exact eq_of_ascending hsub hsorted List.pairwise_lt_range (by simpa using hfull)

end Ascending

/-- Not all fragments of a message, which the group is charged with. -/
structure Balanced (g : FragmentGroup) (id : SplitId) (P : Packet → Prop) : Prop
    extends Ascending g.parts id g.count P where
  incomplete : g.parts.length < g.count
  bytes_eq : g.bytes = total (fun x => Reassembler.cost x.2) g.parts

variable {g : FragmentGroup} {p : Packet} {part : Part}

theorem balanced_start (hindex : part.index < part.count) (p : Packet) (now : Instant) :
    (start p part now).Balanced part.id P :=
  { Ascending.nil with incomplete := Nat.zero_lt_of_lt hindex, bytes_eq := rfl }

/-- The charge of a group and one more payload bound the bits of all its fragments. -/
theorem Balanced.total_bitLength_le (h : g.Balanced id P) (index : Nat) (p : Packet) :
    total (·.2.bitLength) (FragmentGroup.insertPart index p g.parts) ≤
      8 * (g.bytes + p.payloadLength) := by
  have hparts : ∀ parts : List (Nat × Packet),
      total (·.2.bitLength) parts ≤ 8 * total (fun x => Reassembler.cost x.2) parts := by
    intro parts
    induction parts with
    | nil => exact Nat.le_refl _
    | cons x parts ih =>
      have hx := x.2.bitLength_le
      have hcost : x.2.payloadLength ≤ Reassembler.cost x.2 := Nat.le_add_right ..
      simp only [total_cons]
      omega
  have hle := hparts g.parts
  have hp := p.bitLength_le
  rw [total_perm (insertPart_perm ..), total_cons, h.bytes_eq]
  show p.bitLength + _ ≤ _
  omega

end FragmentGroup

namespace Reassembler

/-- The groups stand under different ids and are charged, within the bound. -/
structure Balanced (r : Reassembler) (P : Packet → Prop) : Prop where
  keys_nodup : (r.groups.map Prod.fst).Nodup
  groups : ∀ x ∈ r.groups, x.2.Balanced x.1 P ∧ x.2.parts ≠ [] ∧ x.2.count ≤ r.maxParts
  bytes_eq : r.bytes = total (·.2.bytes) r.groups
  bytes_le : r.bytes ≤ r.maxBytes

variable {P : Packet → Prop} {r r' : Reassembler} {g : FragmentGroup} {p : Packet} {part : Part}
  {id : SplitId} {now : Instant} {result : Reassembly}

theorem balanced_initial (maxParts maxBytes : Nat) :
    ({ maxParts, maxBytes } : Reassembler).Balanced P where
  keys_nodup := List.nodup_nil
  groups := by simp
  bytes_eq := rfl
  bytes_le := Nat.zero_le _

theorem balanced_clear (r : Reassembler) : r.clear.Balanced P := balanced_initial r.maxParts r.maxBytes

namespace Balanced

theorem mono {Q : Packet → Prop} (h : r.Balanced P) (hQ : ∀ p, P p → Q p) : r.Balanced Q := by
  refine { h with groups := fun x hx => ?_ }
  obtain ⟨hg, hrest⟩ := h.groups x hx
  exact ⟨{ hg with toAscending := hg.toAscending.mono hQ }, hrest⟩

/-- Some of the groups are kept, and charged. -/
theorem filter (h : r.Balanced P) (keep : SplitId × FragmentGroup → Bool) {bytes : Nat}
    (hbytes : bytes = total (·.2.bytes) (r.groups.filter keep)) :
    ({ r with groups := r.groups.filter keep, bytes } : Reassembler).Balanced P where
  keys_nodup := h.keys_nodup.sublist (List.filter_sublist.map _)
  groups x hx := h.groups x (List.mem_filter.mp hx).1
  bytes_eq := hbytes
  bytes_le := by
    have hle := total_le_of_sublist (f := fun x : SplitId × FragmentGroup => x.2.bytes)
      (List.filter_sublist (p := keep) (l := r.groups))
    rw [← h.bytes_eq, ← hbytes] at hle
    exact Nat.le_trans hle h.bytes_le

/-- What is charged is the group of an id, if there is one, and the others. -/
theorem bytes_of_group?_some (h : r.Balanced P) (hg : r.group? id = some g) :
    r.bytes = g.bytes + total (·.2.bytes) (r.eraseGroup id) := by
  rw [h.bytes_eq, total_perm (perm_eraseGroup h.keys_nodup (mem_of_group? hg)), total_cons]

theorem bytes_of_group?_none (h : r.Balanced P) (hg : r.group? id = none) :
    r.bytes = total (·.2.bytes) (r.eraseGroup id) := by
  have hall : r.eraseGroup id = r.groups :=
    List.filter_eq_self.mpr fun x hx => by simpa using ne_of_group?_none hg x hx
  rw [hall, h.bytes_eq]

theorem bytes_group_le (h : r.Balanced P) (hg : r.group? id = some g) : g.bytes ≤ r.bytes := by
  rw [h.bytes_of_group?_some hg]
  exact Nat.le_add_right ..

theorem bytes_doomed_le (h : r.Balanced P) (doomed : FragmentGroup → Bool) :
    total (·.2.bytes) (r.groups.filter (doomed ·.2)) ≤ r.bytes := by
  rw [h.bytes_eq]
  exact total_le_of_sublist List.filter_sublist

/-- The groups under other ids hold no fragment of this id. -/
theorem id_ne_of_mem_eraseGroup (h : r.Balanced P) {id : SplitId} {x : SplitId × FragmentGroup} {q : Packet}
    {part : Part} (hx : x ∈ r.eraseGroup id) (hq : q ∈ x.2.parts.map Prod.snd)
    (hpart : q.part = some part) : part.id ≠ id := by
  obtain ⟨hx, hne⟩ := mem_eraseGroup.mp hx
  obtain ⟨y, hy, rfl⟩ := List.mem_map.mp hq
  have hown := hpart.symm.trans ((h.groups x hx).1.part_eq y hy)
  exact fun hid => hne ((congrArg Part.id (Option.some.inj hown)).symm.trans hid)

section admits

variable (h : r.Balanced P) (ha : r.Admits p now part g)
include h ha

theorem group_of_admits : g.Balanced part.id P := by
  rcases ha.group with hgroup | ⟨-, rfl⟩
  · exact (h.groups _ (mem_of_group? hgroup)).1
  · exact FragmentGroup.balanced_start ha.index_lt p now

theorem bytes_of_admits : r.bytes = g.bytes + total (·.2.bytes) (r.eraseGroup part.id) := by
  rcases ha.group with hgroup | ⟨hgroup, rfl⟩
  · exact h.bytes_of_group?_some hgroup
  · rw [h.bytes_of_group?_none hgroup]
    exact (Nat.zero_add _).symm

/-- The fragments of the group, the new one among them. -/
theorem parts_of_admits (hp : P p) : FragmentGroup.Ascending
    (FragmentGroup.insertPart part.index p g.parts) part.id g.count P := by
  refine (h.group_of_admits ha).insertPart hp ?_ (ha.count_eq ▸ ha.index_lt) ha.new
  rw [ha.part_eq, ha.count_eq]

theorem keep (hp : P p) (hmissing : g.parts.length + 1 < g.count)
    (hroom : r.bytes + cost p ≤ r.maxBytes) : (r.keep part g p).Balanced P := by
  have hlength := FragmentGroup.length_insertPart part.index p g.parts
  have hbytes := h.bytes_of_admits ha
  refine ⟨List.nodup_cons.mpr ⟨fun hkey => ?_, ?_⟩, fun x hx => ?_, ?_, hroom⟩
  · obtain ⟨x, hx, hid⟩ := List.mem_map.mp hkey
    exact (mem_eraseGroup.mp hx).2 hid
  · exact h.keys_nodup.sublist (List.filter_sublist.map _)
  · rcases List.mem_cons.mp hx with rfl | hx
    · refine ⟨⟨h.parts_of_admits ha hp, ?_, ?_⟩, fun hnil => ?_, ha.count_eq ▸ ha.count_le⟩
      · exact hlength ▸ hmissing
      · rw [total_perm (FragmentGroup.insertPart_perm ..), total_cons, (h.group_of_admits ha).bytes_eq,
          Nat.add_comm]
      · rw [show FragmentGroup.insertPart part.index p g.parts = [] from hnil] at hlength
        cases hlength
    · exact h.groups x (mem_eraseGroup.mp hx).1
  · show r.bytes + cost p = g.bytes + cost p + total (·.2.bytes) (r.eraseGroup part.id)
    omega

theorem finish : (r.finish part g p).Balanced P := by
  have hbytes := h.bytes_of_admits ha
  refine h.filter (·.1 ≠ part.id) ?_
  show r.bytes + cost p - (g.bytes + cost p) = total (·.2.bytes) (r.eraseGroup part.id)
  omega

/-- What is held are the fragments of this group and those of the others. -/
theorem mem_held_of_admits {q : Packet} : q ∈ r.held ↔
    q ∈ g.parts.map Prod.snd ∨ ∃ x ∈ r.eraseGroup part.id, q ∈ x.2.parts.map Prod.snd := by
  rw [held, List.mem_flatMap]
  rcases ha.group with hgroup | ⟨hgroup, rfl⟩
  · have hperm := perm_eraseGroup h.keys_nodup (mem_of_group? hgroup)
    simp only [hperm.mem_iff, List.mem_cons, exists_eq_or_imp]
  · have hothers : ∀ x, x ∈ r.eraseGroup part.id ↔ x ∈ r.groups := fun x =>
      mem_eraseGroup.trans (and_iff_left_of_imp (ne_of_group?_none hgroup x))
    simp [hothers, FragmentGroup.start]

theorem mem_held_keep {q : Packet} : q ∈ (r.keep part g p).held ↔ q = p ∨ q ∈ r.held := by
  have hperm := (FragmentGroup.insertPart_perm part.index p g.parts).map Prod.snd
  rw [h.mem_held_of_admits ha, held, List.mem_flatMap]
  simp only [Reassembler.keep, List.mem_cons, exists_eq_or_imp, hperm.mem_iff, List.map_cons, or_assoc]

theorem not_mem_held_of_admits : p ∉ r.held := by
  intro hp
  rcases (h.mem_held_of_admits ha).mp hp with hown | ⟨x, hx, hother⟩
  · obtain ⟨y, hy, rfl⟩ := List.mem_map.mp hown
    have hpart := ((h.group_of_admits ha).part_eq y hy).symm.trans ha.part_eq
    exact ha.new y hy (congrArg Part.index (Option.some.inj hpart))
  · exact h.id_ne_of_mem_eraseGroup hx hother ha.part_eq rfl

end admits

theorem answers (h : r.Balanced P) (hp : P p) (ha : r.Answers p now result r') : r'.Balanced P := by
  cases ha with
  | whole | rejected | again | overflow => exact h
  | held ha hmissing hroom => exact h.keep ha hp hmissing hroom
  | completed ha => exact h.finish ha

theorem insert (h : r.Balanced P) (hp : P p) (now : Instant) : (r.insert p now).2.Balanced P :=
  h.answers hp (r.answers_insert p now)

theorem dropWhere (h : r.Balanced P) (doomed : FragmentGroup → Bool) :
    (r.dropWhere doomed).2.Balanced P := by
  refine h.filter (!doomed ·.2) ?_
  have hsplit := total_filter_add (·.2.bytes) (doomed ·.2) r.groups
  rw [h.bytes_eq]
  omega

theorem total_cost_held (h : r.Balanced P) : total cost r.held = r.bytes := by
  rw [h.bytes_eq, held, total_flatMap]
  apply total_congr
  intro x hx
  rw [total_map, (h.groups x hx).1.bytes_eq]

theorem known_of_held (h : r.Balanced P) (hp : p ∈ r.held) : P p := by
  obtain ⟨x, hx, hp⟩ := List.mem_flatMap.mp hp
  obtain ⟨y, hy, rfl⟩ := List.mem_map.mp hp
  exact (h.groups x hx).1.known y hy

/-- Every fragment is held once. -/
theorem nodup_held (h : r.Balanced P) : r.held.Nodup := by
  refine List.nodup_flatMap.mpr ⟨fun x hx => (h.groups x hx).1.nodup_map_snd, ?_⟩
  apply (List.pairwise_map.mp h.keys_nodup).imp_of_mem
  intro x y hx hy hne p hpx hpy
  obtain ⟨a, ha, rfl⟩ := List.mem_map.mp hpx
  obtain ⟨b, hb, hab⟩ := List.mem_map.mp hpy
  have hpart := ((h.groups x hx).1.part_eq a ha).symm.trans
    ((congrArg Packet.part hab.symm).trans ((h.groups y hy).1.part_eq b hb))
  exact hne (congrArg Part.id (Option.some.inj hpart))

end Balanced

/-- All that is done to a reassembler. -/
inductive Operation where
  | insert (p : Packet) (now : Instant)
  | purgeExpired (now : Instant) (expiry : Duration)
  | dropSuperseded (channel : Nat) (read : OrderingIndex)
  | clear

def operate (r : Reassembler) : Operation → Reassembler
  | .insert p now => (r.insert p now).2
  | .purgeExpired now expiry => (r.purgeExpired now expiry).2
  | .dropSuperseded channel read => (r.dropSuperseded channel read).2
  | .clear => r.clear

/-- A fragment of this id and this part number is held. -/
def Repeats (r : Reassembler) (p : Packet) : Prop :=
  ∃ part g, p.part = some part ∧ r.group? part.id = some g ∧ part.index ∈ g.parts.map Prod.fst

theorem Admits.not_repeats (ha : r.Admits p now part g) : ¬r.Repeats p := by
  rintro ⟨part', g', hpart, hgroup, hindex⟩
  obtain rfl := Option.some.inj (ha.part_eq.symm.trans hpart)
  rcases ha.group with hsome | ⟨hnone, -⟩
  · obtain rfl := Option.some.inj (hsome.symm.trans hgroup)
    obtain ⟨x, hx, hxindex⟩ := List.mem_map.mp hindex
    exact ha.new x hx hxindex
  · rw [hgroup] at hnone
    cases hnone

theorem Balanced.operate (h : r.Balanced fun _ => True) (op : Operation) :
    (r.operate op).Balanced fun _ => True := by
  cases op with
  | insert p now => exact h.insert trivial now
  | purgeExpired now expiry => exact h.dropWhere _
  | dropSuperseded channel read => exact h.dropWhere _
  | clear => exact r.balanced_clear

theorem limits_operate (r : Reassembler) (op : Operation) :
    (r.operate op).maxParts = r.maxParts ∧ (r.operate op).maxBytes = r.maxBytes := by
  cases op with
  | insert p now => exact ⟨r.maxParts_insert p now, r.maxBytes_insert p now⟩
  | purgeExpired | dropSuperseded | clear => exact ⟨rfl, rfl⟩

theorem Balanced.operations (h : r.Balanced fun _ => True) (ops : List Operation) :
    (ops.foldl Reassembler.operate r).Balanced (fun _ => True) ∧
      (ops.foldl Reassembler.operate r).maxParts = r.maxParts ∧
      (ops.foldl Reassembler.operate r).maxBytes = r.maxBytes := by
  induction ops generalizing r with
  | nil => exact ⟨h, rfl, rfl⟩
  | cons op ops ih =>
    obtain ⟨hbalanced, hparts, hbytes⟩ := ih (h.operate op)
    obtain ⟨hparts', hbytes'⟩ := r.limits_operate op
    exact ⟨hbalanced, hparts.trans hparts', hbytes.trans hbytes'⟩

/-- What is refused, and what is held already, changes nothing. -/
theorem Answers.unchanged (ha : r.Answers p now result r')
    (hresult : result = .rejected ∨ result = .overflow ∨ (result = .pending ∧ r.Repeats p)) :
    r' = r := by
  cases ha with
  | whole | rejected | again | overflow => rfl
  | completed => simp at hresult
  | held ha => exact absurd (by simpa using hresult) ha.not_repeats

/-- The books after any operations, with any packets. The reassembler is charged with the fragments that it
holds, within its bound, and nothing is ever taken off a charge that is less. A group is charged with its
fragments; it has one or more of them, under different numbers, but not all. What is refused changes
nothing, nor does a fragment that is held already. -/
theorem books_after_operations (maxParts maxBytes : Nat) (ops : List Operation) :
    let r := ops.foldl operate { maxParts, maxBytes }
    r.bytes = total (fun p => p.payloadLength + 64) r.held ∧ r.bytes ≤ maxBytes ∧
      (∀ id g, r.group? id = some g → g.bytes ≤ r.bytes) ∧
      (∀ doomed : FragmentGroup → Bool,
        total (·.2.bytes) (r.groups.filter (doomed ·.2)) ≤ r.bytes) ∧
      (r.groups.map Prod.fst).Nodup ∧
      (∀ x ∈ r.groups, x.2.bytes = total (fun y => y.2.payloadLength + 64) x.2.parts ∧
        1 ≤ x.2.parts.length ∧ x.2.parts.length < x.2.count ∧ x.2.count ≤ maxParts ∧
        (x.2.parts.map Prod.fst).Nodup ∧ ∀ y ∈ x.2.parts, y.1 < x.2.count) ∧
      ∀ p now, (r.insert p now).1 = .rejected ∨ (r.insert p now).1 = .overflow ∨
        ((r.insert p now).1 = .pending ∧ r.Repeats p) → (r.insert p now).2 = r := by
  intro r
  obtain ⟨h, hparts, hbytes⟩ := (balanced_initial maxParts maxBytes).operations ops
  have hlimit : r.maxBytes = maxBytes := hbytes
  refine ⟨h.total_cost_held.symm, hlimit ▸ h.bytes_le, fun _ _ => h.bytes_group_le, h.bytes_doomed_le,
    h.keys_nodup, fun x hx => ?_, fun p now hresult => (r.answers_insert p now).unchanged hresult⟩
  obtain ⟨hg, hnonempty, hcount⟩ := h.groups x hx
  refine ⟨hg.bytes_eq, List.length_pos_iff.mpr hnonempty, hg.incomplete, ?_, ?_, hg.index_lt⟩
  · exact Nat.le_trans hcount (Nat.le_of_eq hparts)
  · exact List.pairwise_map.mpr (hg.sorted.imp Nat.ne_of_lt)

end Reassembler
end ReliableDatagram
