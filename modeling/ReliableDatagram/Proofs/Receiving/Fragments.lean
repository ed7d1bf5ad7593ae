import Mathlib.Data.List.Nodup
import ReliableDatagram.Proofs.Sending.Shipment

/-!
# Fragments of shipments

A reassembler that is given nothing but the packets of accepted messages, each of them once, holds a
group for each message that came in part. `Reassembler.Holds` ties the groups to the messages and to
the numbers that were seen, and `Reassembler.Takes` lists what may become of one more packet.
-/
namespace ReliableDatagram

section Totals

variable {α : Type} {f : α → Nat} {l l' : List α}

theorem total_perm (h : l.Perm l') : total f l = total f l' := by
  induction h with
  | nil => rfl
  | cons a _ ih => rw [total_cons, total_cons, ih]
  | swap a b l =>
    simp only [total_cons]
    omega
  | trans _ _ ih₁ ih₂ => exact ih₁.trans ih₂

theorem total_le_of_sublist (h : l.Sublist l') : total f l ≤ total f l' := by
  induction h with
  | slnil => exact Nat.le_refl _
  | cons a _ ih =>
    rw [total_cons]
    omega
  | cons_cons a _ ih =>
    rw [total_cons, total_cons]
    omega

theorem total_le_of_subperm (h : l.Subperm l') : total f l ≤ total f l' := by
  obtain ⟨k, hperm, hsub⟩ := h
  rw [← total_perm hperm]
  exact total_le_of_sublist hsub

theorem total_map {β : Type} (f : β → Nat) (g : α → β) (l : List α) :
    total f (l.map g) = total (fun a => f (g a)) l := by
  induction l with
  | nil => rfl
  | cons a l ih => rw [List.map_cons, total_cons, total_cons, ih]

theorem total_flatMap {β : Type} (f : β → Nat) (g : α → List β) (l : List α) :
    total f (l.flatMap g) = total (fun a => total f (g a)) l := by
  induction l with
  | nil => rfl
  | cons a l ih => rw [List.flatMap_cons, total_append, total_cons, ih]

theorem total_congr {f g : α → Nat} (h : ∀ a ∈ l, f a = g a) : total f l = total g l := by
  induction l with
  | nil => rfl
  | cons a l ih =>
    rw [total_cons, total_cons, h a (by simp), ih fun b hb => h b (by simp [hb])]

theorem total_eq_zero (h : ∀ a ∈ l, f a = 0) : total f l = 0 := by
  induction l with
  | nil => rfl
  | cons a l ih =>
    rw [total_cons, h a (by simp), ih fun b hb => h b (by simp [hb])]

end Totals

namespace FragmentGroup

theorem insertPart_perm (j : Nat) (p : Packet) (parts : List (Nat × Packet)) :
    (insertPart j p parts).Perm ((j, p) :: parts) := by
  induction parts with
  | nil => exact List.Perm.refl _
  | cons x parts ih =>
    rw [insertPart]
    split_ifs with h
    · exact List.Perm.refl _
    · exact (ih.cons x).trans (List.Perm.swap ..)

theorem insertPart_pairwise {j : Nat} {p : Packet} {parts : List (Nat × Packet)}
    (h : parts.Pairwise fun x y => x.1 < y.1) (hj : ∀ x ∈ parts, x.1 ≠ j) :
    (insertPart j p parts).Pairwise fun x y => x.1 < y.1 := by
  induction parts with
  | nil => simp [insertPart]
  | cons x parts ih =>
    obtain ⟨hx, hparts⟩ := List.pairwise_cons.mp h
    have hne : x.1 ≠ j := hj x (by simp)
    rw [insertPart]
    split_ifs with hlt
    · refine List.pairwise_cons.mpr ⟨fun y hy => ?_, h⟩
      rcases List.mem_cons.mp hy with rfl | hy
      · exact hlt
      · exact Nat.lt_trans hlt (hx y hy)
    · refine List.pairwise_cons.mpr ⟨fun y hy => ?_, ih hparts fun y hy => hj y (by simp [hy])⟩
      rcases List.mem_cons.mp ((insertPart_perm j p parts).mem_iff.mp hy) with rfl | hy
      · show x.1 < j
        omega
      · exact hx y hy

/-- The group holds fragments of this shipment that were seen, and not all of them. -/
structure Of (g : FragmentGroup) (m : Shipment) (seen : Set Nat) : Prop where
  mem_parts : ∀ x ∈ g.parts, x ∈ m.parts
  seen_of_mem : ∀ x ∈ g.parts, m.first + x.1 ∈ seen
  sorted : g.parts.Pairwise fun x y => x.1 < y.1
  count_eq : g.count = m.size
  incomplete : g.parts.length < m.size
  reliable : g.reliable = true
  sequenced_eq : g.sequenced = if m.reliability.isSequenced then m.place else none
  bytes_eq : g.bytes = total (fun x => Reassembler.cost x.2) g.parts

namespace Of

variable {g : FragmentGroup} {m : Shipment} {seen : Set Nat}

theorem mono {seen' : Set Nat} (h : g.Of m seen) (hs : seen ⊆ seen') : g.Of m seen' :=
  { h with seen_of_mem := fun x hx => hs (h.seen_of_mem x hx) }

theorem start {id j : Nat} {c : Chunk} (hid : m.splitId = some id) (now : Instant) :
    (FragmentGroup.start (m.packet j c).decoded { id := .ofNat id, index := j, count := m.size }
      now).Of m seen := by
  have hr : m.reliability.isReliable = true := m.isReliable_of_split (by simp [hid])
  refine ⟨?_, ?_, ?_, rfl, m.size_pos, hr, rfl, rfl⟩ <;> simp [FragmentGroup.start]

/-- With one more fragment the group has the fragments of the shipment, perhaps all. -/
theorem insertPart {j : Nat} {c : Chunk} (h : g.Of m seen) (hc : m.chunks[j]? = some c)
    (hnew : m.first + j ∉ seen) :
    let parts := FragmentGroup.insertPart j (m.packet j c).decoded g.parts
    (∀ x ∈ parts, x ∈ m.parts ∧ m.first + x.1 ∈ insert (m.first + j) seen) ∧
      parts.Pairwise fun x y => x.1 < y.1 := by
  intro parts
  have hperm := insertPart_perm j (m.packet j c).decoded g.parts
  refine ⟨fun x hx => ?_, insertPart_pairwise h.sorted fun x hx hxj => ?_⟩
  · rcases List.mem_cons.mp (hperm.mem_iff.mp hx) with rfl | hx
    · exact ⟨Shipment.mem_parts.mpr ⟨c, hc, rfl⟩, Set.mem_insert ..⟩
    · exact ⟨h.mem_parts x hx, Set.mem_insert_of_mem _ (h.seen_of_mem x hx)⟩
  · exact hnew (hxj ▸ h.seen_of_mem x hx)

/-- As long as fragments are missing, it stays a group of the shipment. -/
theorem grow {j : Nat} {c : Chunk} (h : g.Of m seen) (hc : m.chunks[j]? = some c)
    (hnew : m.first + j ∉ seen)
    (hshort : (FragmentGroup.insertPart j (m.packet j c).decoded g.parts).length < m.size) :
    ({ g with
        parts := FragmentGroup.insertPart j (m.packet j c).decoded g.parts
        count := m.size
        bytes := g.bytes + Reassembler.cost (m.packet j c).decoded } : FragmentGroup).Of m
      (insert (m.first + j) seen) := by
  obtain ⟨hparts, hsorted⟩ := h.insertPart hc hnew
  refine ⟨fun x hx => (hparts x hx).1, fun x hx => (hparts x hx).2, hsorted, rfl, hshort, h.reliable,
    h.sequenced_eq, ?_⟩
  show g.bytes + Reassembler.cost (m.packet j c).decoded = _
  rw [total_perm (insertPart_perm ..), total_cons, h.bytes_eq, Nat.add_comm]

end Of
end FragmentGroup

namespace Reassembler

/-- The groups are those of messages that were accepted, and the charges add up. -/
structure Holds (r : Reassembler) (ms : List Shipment) (seen : Set Nat) : Prop where
  keys_nodup : (r.groups.map Prod.fst).Nodup
  group_of : ∀ x ∈ r.groups, ∃ m ∈ ms, ∃ id, m.splitId = some id ∧ x.1 = .ofNat id ∧ x.2.Of m seen
  bytes_eq : r.bytes = total (·.2.bytes) r.groups

def HoldsPart (r : Reassembler) (m : Shipment) (j : Nat) : Prop :=
  ∃ id g p, m.splitId = some id ∧ ((.ofNat id : SplitId), g) ∈ r.groups ∧ (j, p) ∈ g.parts

def held (r : Reassembler) : List Packet := r.groups.flatMap fun x => x.2.parts.map Prod.snd

/-- What may become of packet `j` of a shipment that was not seen before: the message is complete,
the fragment is held, or it is refused. -/
inductive Takes (r : Reassembler) (ms : List Shipment) (seen : Set Nat) (m : Shipment) (j : Nat) :
    Reassembly → Reassembler → Prop
  | complete {whole : Packet} {r' : Reassembler} (hwhole : Delivery.ofPacket whole = m.delivery)
      (hall : ∀ n, m.Owns n → n ∈ Insert.insert (m.first + j) seen)
      (holds : r'.Holds ms (Insert.insert (m.first + j) seen)) (hgone : ∀ i, ¬r'.HoldsPart m i)
      (hothers : ∀ m' ∈ ms, m' ≠ m → ∀ i, r'.HoldsPart m' i ↔ r.HoldsPart m' i) :
      Takes r ms seen m j (.complete whole) r'
  | pending {r' : Reassembler} (holds : r'.Holds ms (Insert.insert (m.first + j) seen))
      (hpart : r'.HoldsPart m j) (hkept : ∀ i, r.HoldsPart m i → r'.HoldsPart m i)
      (hothers : ∀ m' ∈ ms, m' ≠ m → ∀ i, r'.HoldsPart m' i ↔ r.HoldsPart m' i) :
      Takes r ms seen m j .pending r'
  | rejected (hsplit : m.splitId ≠ none) (h : r.maxParts < m.size) : Takes r ms seen m j .rejected r
  | overflow (c : Chunk) (hc : m.chunks[j]? = some c) (hsplit : m.splitId ≠ none)
      (h : r.maxBytes < r.bytes + cost (m.packet j c).decoded) : Takes r ms seen m j .overflow r

/-- The limits let all packets of these messages in. -/
def HasRoom (r : Reassembler) (ms : List Shipment) : Prop :=
  (∀ m ∈ ms, m.splitId ≠ none → m.size ≤ r.maxParts) ∧
    ∃ l : List Packet, (∀ m ∈ ms, m.splitId ≠ none → ∀ p ∈ m.packets, p ∈ l) ∧ total cost l ≤ r.maxBytes

theorem HasRoom.of_subset {r : Reassembler} {ms ms' : List Shipment} (h : r.HasRoom ms')
    (hms : ∀ m ∈ ms, m ∈ ms') : r.HasRoom ms := by
  obtain ⟨hparts, l, hl, hle⟩ := h
  exact ⟨fun m hm => hparts m (hms m hm), l, fun m hm => hl m (hms m hm), hle⟩

theorem HasRoom.congr {r r' : Reassembler} {ms : List Shipment} (h : r.HasRoom ms)
    (hparts : r'.maxParts = r.maxParts) (hbytes : r'.maxBytes = r.maxBytes) : r'.HasRoom ms := by
  rwa [HasRoom, hparts, hbytes]

theorem holds_initial (ms : List Shipment) (seen : Set Nat) (maxParts maxBytes : Nat) :
    ({ maxParts, maxBytes } : Reassembler).Holds ms seen := by
  constructor <;> simp

theorem mem_eraseGroup {r : Reassembler} {id : SplitId} {x : SplitId × FragmentGroup} :
    x ∈ r.eraseGroup id ↔ x ∈ r.groups ∧ x.1 ≠ id := by
  simp [eraseGroup]

theorem perm_eraseGroup {r : Reassembler} {id : SplitId} {g : FragmentGroup}
    (hkeys : (r.groups.map Prod.fst).Nodup) (h : (id, g) ∈ r.groups) :
    r.groups.Perm ((id, g) :: r.eraseGroup id) := by
  unfold eraseGroup
  generalize r.groups = groups at hkeys h
  induction groups with
  | nil => simp at h
  | cons x groups ih =>
    rw [List.map_cons, List.nodup_cons] at hkeys
    rcases List.mem_cons.mp h with rfl | h
    · have hrest : ∀ y ∈ groups, decide (y.1 ≠ id) = true := fun y hy =>
        decide_eq_true fun hy' => hkeys.1 (List.mem_map.mpr ⟨y, hy, hy'⟩)
      rw [List.filter_cons_of_neg (by simp), List.filter_eq_self.mpr hrest]
    · have hx : x.1 ≠ id := fun hx => hkeys.1 (hx ▸ List.mem_map_of_mem h)
      rw [List.filter_cons_of_pos (by simpa using hx)]
      exact ((ih hkeys.2 h).cons x).trans (List.Perm.swap ..)

theorem mem_of_group? {r : Reassembler} {id : SplitId} {g : FragmentGroup}
    (h : r.group? id = some g) : (id, g) ∈ r.groups := by
  obtain ⟨front, back, hsplit, -⟩ := List.lookup_eq_some_iff.mp h
  simp [hsplit]

theorem ne_of_group?_none {r : Reassembler} {id : SplitId} (h : r.group? id = none) :
    ∀ x ∈ r.groups, x.1 ≠ id := by
  intro x hx hid
  have := List.lookup_eq_none_iff.mp h x hx
  simp [hid] at this

@[simp] theorem maxParts_insert (r : Reassembler) (p : Packet) (now : Instant) :
    (r.insert p now).2.maxParts = r.maxParts := by
  unfold insert add
  grind

@[simp] theorem maxBytes_insert (r : Reassembler) (p : Packet) (now : Instant) :
    (r.insert p now).2.maxBytes = r.maxBytes := by
  unfold insert add
  grind

namespace Holds

variable {r : Reassembler} {ms : List Shipment} {seen : Set Nat} {m : Shipment} {j : Nat} {c : Chunk}

theorem mono {ms' : List Shipment} {seen' : Set Nat} (h : r.Holds ms seen)
    (hms : ∀ m ∈ ms, m ∈ ms') (hs : seen ⊆ seen') : r.Holds ms' seen' := by
  refine { h with group_of := fun x hx => ?_ }
  obtain ⟨m, hm, id, hid, hkey, hof⟩ := h.group_of x hx
  exact ⟨m, hms m hm, id, hid, hkey, hof.mono hs⟩

theorem eq_of_key (hms : Manifest ms) (hspan : total Shipment.size ms ≤ Counter.span)
    {m' : Shipment} (hm : m ∈ ms) (hm' : m' ∈ ms) {id id' : Nat} (hid : m.splitId = some id)
    (hid' : m'.splitId = some id') (hkey : (.ofNat id : SplitId) = .ofNat id') : m = m' := by
  have hlt := hms.splitId_lt hm hid
  have hlt' := hms.splitId_lt hm' hid'
  have hcount := Manifest.countP_le_total (·.splitId.isSome) ms
  obtain rfl := (Counter.ofNat_inj (by omega) (by omega)).mp hkey
  exact hms.eq_of_splitId hm hm' hid hid'

theorem of_mem (h : r.Holds ms seen) (hms : Manifest ms)
    (hspan : total Shipment.size ms ≤ Counter.span) (hm : m ∈ ms) {id : Nat}
    (hid : m.splitId = some id) {g : FragmentGroup} (hg : ((.ofNat id : SplitId), g) ∈ r.groups) :
    g.Of m seen := by
  obtain ⟨m', hm', id', hid', hkey, hof⟩ := h.group_of _ hg
  obtain rfl := eq_of_key hms hspan hm hm' hid hid' hkey
  exact hof

/-- What happens to the group of one shipment leaves the fragments of the others alone. -/
theorem holdsPart_iff_of_ne (hms : Manifest ms) (hspan : total Shipment.size ms ≤ Counter.span)
    (hm : m ∈ ms) {id : Nat} (hid : m.splitId = some id) {r' : Reassembler}
    (hgroups : ∀ x : SplitId × FragmentGroup, x.1 ≠ .ofNat id → (x ∈ r'.groups ↔ x ∈ r.groups))
    {m' : Shipment} (hm' : m' ∈ ms) (hne : m' ≠ m) (i : Nat) :
    r'.HoldsPart m' i ↔ r.HoldsPart m' i := by
  have hkey : ∀ {id'}, m'.splitId = some id' → (.ofNat id' : SplitId) ≠ .ofNat id :=
    fun hid' hkey => hne (eq_of_key hms hspan hm' hm hid' hid hkey)
  constructor
  · rintro ⟨id', g, p, hid', hg, hp⟩
    exact ⟨id', g, p, hid', (hgroups _ (hkey hid')).mp hg, hp⟩
  · rintro ⟨id', g, p, hid', hg, hp⟩
    exact ⟨id', g, p, hid', (hgroups _ (hkey hid')).mpr hg, hp⟩

section add

variable {id : Nat} {g : FragmentGroup}

/-- A new fragment of a group, which is `g` whether it is stored already or only started. -/
theorem takes_add (h : r.Holds ms seen) (hms : Manifest ms)
    (hspan : total Shipment.size ms ≤ Counter.span) (hm : m ∈ ms) (hid : m.splitId = some id)
    (hc : m.chunks[j]? = some c) (hnew : m.first + j ∉ seen) (hg : g.Of m seen)
    (hmem : ∀ x ∈ r.groups, x = (.ofNat id, g) ∨ x ∈ r.eraseGroup (.ofNat id))
    (hbytes : r.bytes = g.bytes + total (·.2.bytes) (r.eraseGroup (.ofNat id))) :
    let part : Part := { id := .ofNat id, index := j, count := m.size }
    r.Takes ms seen m j (r.add g part (m.packet j c).decoded).1
      (r.add g part (m.packet j c).decoded).2 := by
  intro part
  obtain ⟨hparts, hsorted⟩ := hg.insertPart hc hnew
  have hperm := FragmentGroup.insertPart_perm j (m.packet j c).decoded g.parts
  -- what stands under other keys is not touched
  have hkeys : ((r.eraseGroup (.ofNat id)).map Prod.fst).Nodup :=
    h.keys_nodup.sublist (List.filter_sublist.map Prod.fst)
  have hrest : ∀ x ∈ r.eraseGroup (.ofNat id), ∃ m' ∈ ms, ∃ id', m'.splitId = some id' ∧
      x.1 = .ofNat id' ∧ x.2.Of m' (Insert.insert (m.first + j) seen) := by
    intro x hx
    have hgrown := h.mono (fun _ hm => hm) (Set.subset_insert (m.first + j) seen)
    exact hgrown.group_of x (mem_eraseGroup.mp hx).1
  rw [Reassembler.add, hg.count_eq]
  dsimp only
  split_ifs with hover hshort
  · exact .overflow c hc (by simp [hid]) hover.2
  · refine .pending ⟨?_, ?_, ?_⟩ ?_ ?_ fun m' hm' hne => holdsPart_iff_of_ne hms hspan hm hid ?_ hm' hne
    · refine List.nodup_cons.mpr ⟨fun hkey => ?_, hkeys⟩
      obtain ⟨x, hx, hxid⟩ := List.mem_map.mp hkey
      exact (mem_eraseGroup.mp hx).2 hxid
    · intro x hx
      rcases List.mem_cons.mp hx with rfl | hx
      · exact ⟨m, hm, id, hid, rfl, hg.grow hc hnew hshort⟩
      · exact hrest x hx
    · show r.bytes + cost (m.packet j c).decoded = g.bytes + cost (m.packet j c).decoded +
        total (·.2.bytes) (r.eraseGroup (.ofNat id))
      omega
    · exact ⟨id, _, (m.packet j c).decoded, hid, List.mem_cons_self, hperm.mem_iff.mpr (by simp)⟩
    · rintro i ⟨id', g', p, hid', hg', hp⟩
      obtain rfl : id' = id := Option.some.inj (hid'.symm.trans hid)
      rcases hmem _ hg' with heq | hother
      · obtain rfl : g' = g := congrArg Prod.snd heq
        exact ⟨id', _, p, hid, List.mem_cons_self, hperm.mem_iff.mpr (List.mem_cons_of_mem _ hp)⟩
      · exact absurd rfl (mem_eraseGroup.mp hother).2
    · intro x hx
      constructor
      · intro hxm
        rcases List.mem_cons.mp hxm with rfl | hxm
        · exact absurd rfl hx
        · exact (mem_eraseGroup.mp hxm).1
      · intro hxm
        exact List.mem_cons_of_mem _ (mem_eraseGroup.mpr ⟨hxm, hx⟩)
  · have hfull : FragmentGroup.insertPart j (m.packet j c).decoded g.parts = m.parts :=
      Shipment.eq_parts (fun x hx => (hparts x hx).1) hsorted (Nat.not_lt.mp hshort)
    obtain ⟨whole, hwhole, hdelivery⟩ := m.assemble_parts
    rw [hfull, hwhole]
    refine .complete hdelivery ?_ ⟨hkeys, hrest, ?_⟩ ?_ fun m' hm' hne =>
      holdsPart_iff_of_ne hms hspan hm hid ?_ hm' hne
    · intro n hn
      obtain ⟨i, d, hd, rfl⟩ := Shipment.exists_chunk hn
      have hi : (i, (m.packet i d).decoded) ∈ m.parts := Shipment.mem_parts.mpr ⟨d, hd, rfl⟩
      exact (hparts _ (hfull ▸ hi)).2
    · show r.bytes + cost (m.packet j c).decoded - (g.bytes + cost (m.packet j c).decoded) =
        total (·.2.bytes) (r.eraseGroup (.ofNat id))
      omega
    · rintro i ⟨id', g', p, hid', hg', hp⟩
      obtain rfl : id' = id := Option.some.inj (hid'.symm.trans hid)
      exact absurd rfl (mem_eraseGroup.mp hg').2
    · intro x hx
      exact mem_eraseGroup.trans (and_iff_left hx)

end add

/-- A packet that was not seen before completes its message, is held, or is refused. -/
theorem takes_insert (h : r.Holds ms seen) (hms : Manifest ms)
    (hspan : total Shipment.size ms ≤ Counter.span) (hm : m ∈ ms) (hc : m.chunks[j]? = some c)
    (hnew : m.first + j ∉ seen) (now : Instant) :
    r.Takes ms seen m j (r.insert (m.packet j c).decoded now).1
      (r.insert (m.packet j c).decoded now).2 := by
  have hj := Shipment.lt_size hc
  rw [Reassembler.insert]
  cases hid : m.splitId with
  | none =>
    have hpart : (m.packet j c).decoded.part = none := by simp [Shipment.packet, Packet.decoded, hid]
    have hone : m.size = 1 := m.length_of_whole hid
    obtain rfl : j = 0 := by omega
    rw [hpart]
    refine .complete (Shipment.ofPacket_whole hid hc) ?_ (h.mono (fun _ hm => hm) (by simp)) ?_
      fun _ _ _ _ => Iff.rfl
    · intro n hn
      have hn₁ := hn.1
      have hn₂ := hn.2
      exact Or.inl (by omega)
    · rintro i ⟨id, g, p, hid', -⟩
      rw [hid] at hid'
      cases hid'
  | some id =>
    have hpart : (m.packet j c).decoded.part =
        some { id := .ofNat id, index := j, count := m.size } := by
      simp [Shipment.packet, Packet.decoded, hid]
    rw [hpart]
    dsimp only
    split_ifs with hlimit
    · exact .rejected (by simp [hid]) (by omega)
    · split
      · rename_i hnone
        have hne := ne_of_group?_none hnone
        have herase : r.eraseGroup (.ofNat id) = r.groups := by
          apply List.filter_eq_self.mpr
          intro x hx
          simpa using hne x hx
        refine h.takes_add hms hspan hm hid hc hnew (.start hid now) ?_ ?_
        · intro x hx
          exact Or.inr (herase ▸ hx)
        · rw [herase, h.bytes_eq]
          exact (Nat.zero_add _).symm
      · rename_i g hsome
        have hg := mem_of_group? hsome
        have hof := h.of_mem hms hspan hm hid hg
        have hperm := perm_eraseGroup h.keys_nodup hg
        have hfresh : ¬(g.parts.any fun x => decide (x.1 = j)) = true := by
          intro hany
          obtain ⟨x, hx, hxj⟩ := List.any_eq_true.mp hany
          exact hnew (of_decide_eq_true hxj ▸ hof.seen_of_mem x hx)
        rw [if_neg (by simp [hof.count_eq]), if_neg hfresh]
        refine h.takes_add hms hspan hm hid hc hnew hof ?_ ?_
        · intro x hx
          simpa using hperm.mem_iff.mp hx
        · rw [h.bytes_eq, total_perm hperm, total_cons]

theorem exists_missing (h : r.Holds ms seen) (hms : Manifest ms)
    (hspan : total Shipment.size ms ≤ Counter.span) (hm : m ∈ ms) :
    ∃ i < m.size, ¬r.HoldsPart m i := by
  by_contra hall
  push Not at hall
  obtain ⟨id, g, p, hid, hg, -⟩ := hall 0 m.size_pos
  have hof := h.of_mem hms hspan hm hid hg
  have hsub : List.range m.size ⊆ g.parts.map Prod.fst := by
    intro i hi
    obtain ⟨id', g', q, hid', hg', hq⟩ := hall i (List.mem_range.mp hi)
    obtain rfl : id' = id := Option.some.inj (hid'.symm.trans hid)
    have heq : ((.ofNat id' : SplitId), g') = (.ofNat id', g) :=
      List.inj_on_of_nodup_map h.keys_nodup hg' hg rfl
    obtain rfl : g' = g := congrArg Prod.snd heq
    exact List.mem_map_of_mem hq
  have hle := (List.nodup_range.subperm hsub).length_le
  rw [List.length_range, List.length_map] at hle
  exact absurd hof.incomplete (Nat.not_lt.mpr hle)

theorem dropWhere (h : r.Holds ms seen) (doomed : FragmentGroup → Bool) :
    (r.dropWhere doomed).2.Holds ms seen := by
  refine ⟨h.keys_nodup.sublist (List.filter_sublist.map Prod.fst), ?_, ?_⟩
  · intro x hx
    exact h.group_of x (List.mem_filter.mp hx).1
  · have := total_filter_add (·.2.bytes) (fun x : SplitId × FragmentGroup => doomed x.2) r.groups
    show r.bytes - total (·.2.bytes) (r.groups.filter (doomed ·.2)) =
      total (·.2.bytes) (r.groups.filter (!doomed ·.2))
    rw [h.bytes_eq]
    omega

/-- All groups are reliable, so none of them expires. -/
theorem purgeExpired_eq (h : r.Holds ms seen) (now : Instant) (expiry : Duration) :
    r.purgeExpired now expiry = (0, r) := by
  have hnone : ∀ x ∈ r.groups, (!x.2.reliable && decide (expiry < elapsed x.2.firstSeen now)) = false
      := by
    intro x hx
    obtain ⟨m, -, id, -, -, hof⟩ := h.group_of x hx
    simp [hof.reliable]
  have hkept : r.groups.filter (fun x => !(!x.2.reliable &&
      decide (expiry < elapsed x.2.firstSeen now))) = r.groups :=
    List.filter_eq_self.mpr fun x hx => by rw [hnone x hx]; rfl
  have hdropped : r.groups.filter (fun x => !x.2.reliable &&
      decide (expiry < elapsed x.2.firstSeen now)) = [] :=
    List.filter_eq_nil_iff.mpr fun x hx => by rw [hnone x hx]; simp
  simp only [purgeExpired, Reassembler.dropWhere, hkept, hdropped, total_nil, Nat.sub_self,
    Nat.sub_zero]

theorem holdsPart_dropSuperseded_iff (h : r.Holds ms seen) (hms : Manifest ms)
    (hspan : total Shipment.size ms ≤ Counter.span) (hm : m ∈ ms)
    (hseq : m.reliability.isSequenced = false) (channel : Nat) (read : OrderingIndex) :
    (r.dropSuperseded channel read).2.HoldsPart m j ↔ r.HoldsPart m j := by
  constructor
  · rintro ⟨id, g, p, hid, hg, hp⟩
    exact ⟨id, g, p, hid, (List.mem_filter.mp hg).1, hp⟩
  rintro ⟨id, g, p, hid, hg, hp⟩
  refine ⟨id, g, p, hid, List.mem_filter.mpr ⟨hg, ?_⟩, hp⟩
  have hof := h.of_mem hms hspan hm hid hg
  have hnone : g.sequenced = none := by rw [hof.sequenced_eq, hseq]; rfl
  simp [hnone]

/-- Fragments of a sequenced message stay, unless the message is older than what is read next. -/
theorem holdsPart_dropSuperseded (h : r.Holds ms seen) (hms : Manifest ms)
    (hspan : total Shipment.size ms ≤ Counter.span) (hm : m ∈ ms)
    (hq : m.reliability.isSequenced = true) (channel : Nat) (read : OrderingIndex)
    (hpart : r.HoldsPart m j) :
    m.channel = channel ∧ (.ofNat m.index : OrderingIndex).isOlderThan read = true ∨
      (r.dropSuperseded channel read).2.HoldsPart m j := by
  obtain ⟨id, g, p, hid, hg, hp⟩ := hpart
  have hplace : g.sequenced = some { channel := m.channel, index := .ofNat m.index } := by
    rw [(h.of_mem hms hspan hm hid hg).sequenced_eq, if_pos hq, Shipment.place,
      if_pos (by simp [Reliability.usesChannel, hq])]
  by_cases hold : m.channel = channel ∧ (.ofNat m.index : OrderingIndex).isOlderThan read = true
  · exact Or.inl hold
  · right
    refine ⟨id, g, p, hid, List.mem_filter.mpr ⟨hg, ?_⟩, hp⟩
    simpa [hplace] using not_and_or.mp hold

theorem total_cost_held (h : r.Holds ms seen) : total cost r.held = r.bytes := by
  rw [h.bytes_eq, held, total_flatMap]
  apply total_congr
  intro x hx
  obtain ⟨m, -, id, -, -, hof⟩ := h.group_of x hx
  rw [total_map, hof.bytes_eq]

theorem mem_held (h : r.Holds ms seen) {p : Packet} (hp : p ∈ r.held) :
    ∃ m ∈ ms, m.splitId ≠ none ∧ ∃ i, (i, p) ∈ m.parts ∧ m.first + i ∈ seen := by
  obtain ⟨x, hx, hp⟩ := List.mem_flatMap.mp hp
  obtain ⟨⟨i, q⟩, hq, rfl⟩ := List.mem_map.mp hp
  obtain ⟨m, hm, id, hid, -, hof⟩ := h.group_of x hx
  exact ⟨m, hm, by simp [hid], i, hof.mem_parts _ hq, hof.seen_of_mem _ hq⟩

theorem nodup_held (h : r.Holds ms seen) (hms : Manifest ms)
    (hspan : total Shipment.size ms ≤ Counter.span) : r.held.Nodup := by
  refine List.nodup_flatMap.mpr ⟨fun x hx => ?_, ?_⟩
  · obtain ⟨m, hm, id, -, -, hof⟩ := h.group_of x hx
    refine List.pairwise_map.mpr (hof.sorted.imp_of_mem ?_)
    intro a b ha hb hab heq
    have := (hms.eq_of_parts hspan hm hm (hof.mem_parts a ha) (hof.mem_parts b hb) heq).2
    omega
  · apply (List.pairwise_map.mp h.keys_nodup).imp_of_mem
    intro x y hx hy hne p hpx hpy
    obtain ⟨a, ha, rfl⟩ := List.mem_map.mp hpx
    obtain ⟨b, hb, hab⟩ := List.mem_map.mp hpy
    obtain ⟨m, hm, id, hid, hkey, hof⟩ := h.group_of x hx
    obtain ⟨m', hm', id', hid', hkey', hof'⟩ := h.group_of y hy
    obtain ⟨rfl, -⟩ :=
      hms.eq_of_parts hspan hm hm' (hof.mem_parts a ha) (hof'.mem_parts b hb) hab.symm
    have hids : id = id' := Option.some.inj (hid.symm.trans hid')
    exact hne (by rw [hkey, hkey', hids])

/-- What is held and one new fragment cost no more than all packets together. -/
theorem bytes_add_cost_le (h : r.Holds ms seen) (hms : Manifest ms)
    (hspan : total Shipment.size ms ≤ Counter.span) (hm : m ∈ ms) (hc : m.chunks[j]? = some c)
    (hsplit : m.splitId ≠ none) (hnew : m.first + j ∉ seen) {l : List Packet}
    (hl : ∀ m ∈ ms, m.splitId ≠ none → ∀ p ∈ m.packets, p ∈ l) :
    r.bytes + cost (m.packet j c).decoded ≤ total cost l := by
  have hfresh : (m.packet j c).decoded ∉ r.held := by
    intro hp
    obtain ⟨m', hm', -, i, hi, hseen⟩ := h.mem_held hp
    have hj : (j, (m.packet j c).decoded) ∈ m.parts := Shipment.mem_parts.mpr ⟨c, hc, rfl⟩
    obtain ⟨rfl, hij⟩ := hms.eq_of_parts hspan hm hm' hj hi rfl
    obtain rfl : j = i := hij
    exact hnew hseen
  have hsub : ((m.packet j c).decoded :: r.held) ⊆ l.map Packet.decoded := by
    intro p hp
    rcases List.mem_cons.mp hp with rfl | hp
    · exact List.mem_map_of_mem (hl m hm hsplit _ (Shipment.mem_packets.mpr ⟨j, c, hc, rfl⟩))
    · obtain ⟨m', hm', hsplit', i, hi, -⟩ := h.mem_held hp
      obtain ⟨d, hd, hpd⟩ := Shipment.mem_parts.mp hi
      obtain rfl : p = (m'.packet i d).decoded := hpd
      exact List.mem_map_of_mem (hl m' hm' hsplit' _ (Shipment.mem_packets.mpr ⟨i, d, hd, rfl⟩))
  have hnodup := List.nodup_cons.mpr ⟨hfresh, h.nodup_held hms hspan⟩
  have hle := total_le_of_subperm (f := cost) (hnodup.subperm hsub)
  rw [total_cons, h.total_cost_held, total_map] at hle
  have hcost : total (fun p : Packet => cost p.decoded) l = total cost l := rfl
  omega

theorem not_refused (h : r.Holds ms seen) (hms : Manifest ms)
    (hspan : total Shipment.size ms ≤ Counter.span) (hm : m ∈ ms) (hnew : m.first + j ∉ seen)
    (hroom : r.HasRoom ms) {result : Reassembly} {r' : Reassembler}
    (ht : r.Takes ms seen m j result r') : result ≠ .rejected ∧ result ≠ .overflow := by
  obtain ⟨hparts, l, hl, hle⟩ := hroom
  cases ht with
  | complete => simp
  | pending => simp
  | rejected hsplit hlimit => exact absurd hlimit (Nat.not_lt.mpr (hparts m hm hsplit))
  | overflow c hc hsplit hover =>
    have := h.bytes_add_cost_le hms hspan hm hc hsplit hnew hl
    omega

end Holds
end Reassembler
end ReliableDatagram
