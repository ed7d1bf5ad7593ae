import ReliableDatagram.Proofs.Receiving.Accounting

/-!
# What was cut is put together again

The fragments of several messages come to a reassembler, in any order and mixed, and some of them more
than once while their message is incomplete. Every message is answered once, with what it was before it was
cut, and nothing is left behind.
-/
namespace ReliableDatagram

/-- A message whose payload is cut into chunks, one fragment for each. -/
structure CutMessage where
  id : SplitId
  payload : Bytes
  bitLength : Nat
  /-- Bytes of a chunk. -/
  size : Nat
  /-- The fields of a fragment that have nothing to do with the cut. -/
  header : Nat → Packet
  size_pos : 0 < size
  bitLength_pos : 0 < bitLength
  bitLength_le : bitLength ≤ 8 * payload.length
  bitLength_word : bitLength ≤ Limits.largestBitLength

namespace CutMessage

section defs

variable (m : CutMessage)

def chunks : List Chunk := Chunk.cut m.payload m.bitLength m.size

def fragment (j : Nat) (c : Chunk) : Packet :=
  { m.header j with
    part := some { id := m.id, index := j, count := m.chunks.length }
    bitLength := c.bitLength
    payload := c.bytes }

/-- The fragments, each under its part number. -/
def parts : List (Nat × Packet) := m.chunks.zipIdx.map fun (c, j) => (j, m.fragment j c)

def fragments : List Packet := m.parts.map Prod.snd

/-- What was cut, under the header of the first fragment. -/
def whole : Packet :=
  { m.header 0 with
    part := none
    bitLength := m.bitLength
    payload := m.payload.take (bytesForBits m.bitLength) }

/-- Not all fragments have come. -/
def Misses (came : List Packet) : Prop := ∃ p ∈ m.fragments, p ∉ came

instance (came : List Packet) : Decidable (m.Misses came) :=
  inferInstanceAs (Decidable (∃ p ∈ m.fragments, p ∉ came))

theorem chunks_ne_nil : m.chunks ≠ [] := Chunk.cut_ne_nil m.size_pos m.bitLength_pos

@[simp] theorem length_parts : m.parts.length = m.chunks.length := by simp [parts]

theorem map_fst_parts : m.parts.map Prod.fst = List.range m.chunks.length := by
  rw [parts, List.map_map, List.range_eq_range']
  exact List.zipIdx_map_snd 0 m.chunks

theorem parts_pairwise : m.parts.Pairwise fun x y => x.1 < y.1 := by
  rw [← List.pairwise_map, map_fst_parts]
  exact List.pairwise_lt_range

theorem total_parts : total (·.2.bitLength) m.parts = m.bitLength := by
  have hchunks : total Chunk.bitLength (m.chunks.zipIdx.map Prod.fst) = m.bitLength := by
    rw [List.zipIdx_map_fst]
    exact Chunk.total_cut m.size_pos
  rw [parts, total_map]
  rwa [total_map] at hchunks

theorem flatMap_body_parts :
    m.parts.flatMap (·.2.body) = m.payload.take (bytesForBits m.bitLength) := by
  have hchunks : (m.chunks.zipIdx.map Prod.fst).flatMap Chunk.used =
      m.payload.take (bytesForBits m.bitLength) := by
    rw [List.zipIdx_map_fst]
    exact Chunk.flatMap_used_cut m.size_pos m.bitLength_le
  rw [parts, List.flatMap_map]
  rwa [List.flatMap_map] at hchunks

theorem assemble_parts : FragmentGroup.assemble m.parts = some m.whole := by
  obtain ⟨c, rest, hc⟩ := List.exists_cons_of_ne_nil m.chunks_ne_nil
  obtain ⟨tail, htail⟩ : ∃ tail, m.parts = (0, m.fragment 0 c) :: tail := by
    rw [parts, hc]
    exact ⟨_, rfl⟩
  have hword : m.bitLength % (Limits.largestBitLength + 1) = m.bitLength :=
    Nat.mod_eq_of_lt (Nat.lt_succ_of_le m.bitLength_word)
  rw [htail, FragmentGroup.assemble, ← htail, total_parts, flatMap_body_parts, hword]
  rfl

end defs

variable {m : CutMessage} {p q : Packet} {came : List Packet}

theorem part_of_mem_parts {x : Nat × Packet} (hx : x ∈ m.parts) :
    x.2.part = some { id := m.id, index := x.1, count := m.chunks.length } := by
  obtain ⟨⟨c, j⟩, -, rfl⟩ := List.mem_map.mp hx
  rfl

theorem exists_mem_parts (hp : p ∈ m.fragments) : ∃ j, (j, p) ∈ m.parts := by
  obtain ⟨⟨j, p⟩, hx, rfl⟩ := List.mem_map.mp hp
  exact ⟨j, hx⟩

theorem exists_part_eq (hp : p ∈ m.fragments) :
    ∃ j, p.part = some { id := m.id, index := j, count := m.chunks.length } := by
  obtain ⟨j, hj⟩ := exists_mem_parts hp
  exact ⟨j, part_of_mem_parts hj⟩

theorem lt_of_mem_parts {x : Nat × Packet} (hx : x ∈ m.parts) : x.1 < m.chunks.length := by
  have hmem : x.1 ∈ m.parts.map Prod.fst := List.mem_map_of_mem hx
  rw [map_fst_parts] at hmem
  exact List.mem_range.mp hmem

/-- What a fragment says about itself. -/
theorem part_of_mem {part : Part} (hp : p ∈ m.fragments) (hpart : p.part = some part) :
    part.id = m.id ∧ part.count = m.chunks.length ∧ (part.index, p) ∈ m.parts := by
  obtain ⟨j, hj⟩ := exists_mem_parts hp
  obtain rfl := Option.some.inj (hpart.symm.trans (part_of_mem_parts hj))
  exact ⟨rfl, rfl, hj⟩

/-- A part number stands for one fragment. -/
theorem eq_of_mem_parts {j : Nat} (hp : (j, p) ∈ m.parts) (hq : (j, q) ∈ m.parts) : p = q := by
  have hnodup : (m.parts.map Prod.fst).Nodup := by
    rw [map_fst_parts]
    exact List.nodup_range
  exact congrArg Prod.snd (List.inj_on_of_nodup_map hnodup hp hq rfl)

theorem nodup_fragments (m : CutMessage) : m.fragments.Nodup := by
  refine List.pairwise_map.mpr (m.parts_pairwise.imp_of_mem fun {x y} hx hy hlt heq => ?_)
  have hpart := (part_of_mem_parts hx).symm.trans
    ((congrArg Packet.part heq).trans (part_of_mem_parts hy))
  exact Nat.ne_of_lt hlt (congrArg Part.index (Option.some.inj hpart))

theorem misses_nil (m : CutMessage) : m.Misses [] := by
  obtain ⟨c, rest, hc⟩ := List.exists_cons_of_ne_nil m.chunks_ne_nil
  refine ⟨m.fragment 0 c, ?_, List.not_mem_nil⟩
  rw [fragments, parts, hc]
  exact List.mem_cons_self

theorem Misses.of_subset {came' : List Packet} (h : m.Misses came') (hsub : came ⊆ came') :
    m.Misses came := by
  obtain ⟨p, hp, hnew⟩ := h
  exact ⟨p, hp, fun hcame => hnew (hsub hcame)⟩

theorem not_misses : ¬m.Misses came ↔ m.fragments ⊆ came := by
  simp only [Misses, not_exists, not_and, not_not]
  rfl

/-- What belongs to another message does not help. -/
theorem misses_append_of_not_mem (hp : p ∉ m.fragments) : m.Misses (came ++ [p]) ↔ m.Misses came := by
  refine ⟨fun h => h.of_subset (List.subset_append_left ..), ?_⟩
  rintro ⟨q, hq, hnew⟩
  refine ⟨q, hq, fun hcame => ?_⟩
  rcases List.mem_append.mp hcame with hcame | hcame
  · exact hnew hcame
  · exact hp (List.mem_singleton.mp hcame ▸ hq)

/-- Nor does what came already. -/
theorem misses_append_of_mem (hp : p ∈ came) : m.Misses (came ++ [p]) ↔ m.Misses came := by
  have hsub : came ++ [p] ⊆ came :=
    List.append_subset.mpr ⟨List.Subset.refl _, by simpa using hp⟩
  exact ⟨fun h => h.of_subset (List.subset_append_left ..), fun h => h.of_subset hsub⟩

section ids

variable {ms : List CutMessage} {m' : CutMessage} (hids : (ms.map CutMessage.id).Nodup)
include hids

theorem eq_of_id (hm : m ∈ ms) (hm' : m' ∈ ms) (hid : m.id = m'.id) : m = m' :=
  List.inj_on_of_nodup_map hids hm hm' hid

theorem eq_of_fragment (hm : m ∈ ms) (hm' : m' ∈ ms) (hp : p ∈ m.fragments)
    (hp' : p ∈ m'.fragments) : m = m' := by
  obtain ⟨j, hj⟩ := exists_mem_parts hp
  obtain ⟨hid, -⟩ := part_of_mem hp' (part_of_mem_parts hj)
  exact eq_of_id hids hm hm' hid

end ids
end CutMessage

namespace Reassembler

/-- The fragments that came, and are held as long as their message is incomplete. -/
structure Rejoins (r : Reassembler) (ms : List CutMessage) (came : List Packet) : Prop where
  count_le : ∀ m ∈ ms, m.chunks.length ≤ r.maxParts
  cost_le : total cost (ms.flatMap CutMessage.fragments) ≤ r.maxBytes
  own : ∀ p ∈ came, ∃ m ∈ ms, p ∈ m.fragments
  balanced : r.Balanced (· ∈ came)
  mem_held : ∀ m ∈ ms, ∀ p ∈ m.fragments, p ∈ r.held ↔ p ∈ came ∧ m.Misses came

namespace Rejoins

variable {r r' : Reassembler} {ms : List CutMessage} {came : List Packet} {m : CutMessage}
  {p : Packet} {now : Instant} {result : Reassembly} {part : Part} {g : FragmentGroup}

theorem initial {maxParts maxBytes : Nat} (hcount : ∀ m ∈ ms, m.chunks.length ≤ maxParts)
    (hcost : total cost (ms.flatMap CutMessage.fragments) ≤ maxBytes) :
    ({ maxParts, maxBytes } : Reassembler).Rejoins ms [] :=
  ⟨hcount, hcost, by simp, balanced_initial maxParts maxBytes, by simp [held]⟩

theorem own_append (h : r.Rejoins ms came) (hm : m ∈ ms) (hp : p ∈ m.fragments) :
    ∀ q ∈ came ++ [p], ∃ m ∈ ms, q ∈ m.fragments := by
  intro q hq
  rcases List.mem_append.mp hq with hq | hq
  · exact h.own q hq
  · exact ⟨m, hm, List.mem_singleton.mp hq ▸ hp⟩

/-- A fragment that came again changes nothing. -/
theorem again (h : r.Rejoins ms came) (hp : p ∈ came) : r.Rejoins ms (came ++ [p]) := by
  have hmem : ∀ q, q ∈ came ++ [p] ↔ q ∈ came := fun q => by
    rw [List.mem_append, List.mem_singleton]
    exact or_iff_left_of_imp fun hq => hq ▸ hp
  refine { h with own := fun q hq => h.own q ((hmem q).mp hq), balanced := ?_, mem_held := ?_ }
  · exact h.balanced.mono fun q hq => (hmem q).mpr hq
  · intro m hm q hq
    rw [h.mem_held m hm q hq, hmem, CutMessage.misses_append_of_mem hp]

section fragment

variable (hids : (ms.map CutMessage.id).Nodup) (h : r.Rejoins ms came) (hm : m ∈ ms)
include hids h hm

/-- What came under the id of a message is one of its parts. -/
theorem mem_parts {index count : Nat} (hp : p ∈ came)
    (hpart : p.part = some { id := m.id, index, count }) :
    count = m.chunks.length ∧ (index, p) ∈ m.parts := by
  obtain ⟨m', hm', hp⟩ := h.own p hp
  obtain ⟨hid, hcount, hmem⟩ := CutMessage.part_of_mem hp hpart
  obtain rfl := CutMessage.eq_of_id hids hm hm' hid
  exact ⟨hcount, hmem⟩

/-- So the group under its id holds nothing else. -/
theorem parts_of_group? (hgroup : r.group? m.id = some g) :
    g.count = m.chunks.length ∧ ∀ x ∈ g.parts, x ∈ m.parts := by
  obtain ⟨hg, hnonempty, -⟩ := h.balanced.groups _ (mem_of_group? hgroup)
  have hparts : ∀ x ∈ g.parts, g.count = m.chunks.length ∧ x ∈ m.parts := fun x hx =>
    h.mem_parts hids hm (hg.known x hx) (hg.part_eq x hx)
  obtain ⟨x, hx⟩ := List.exists_mem_of_ne_nil _ hnonempty
  exact ⟨(hparts x hx).1, fun x hx => (hparts x hx).2⟩

variable (hp : p ∈ m.fragments)
include hp

theorem not_rejected (hpart : p.part = some part) :
    ¬(r.maxParts < part.count ∨ part.count ≤ part.index ∨
      ∃ g, r.group? part.id = some g ∧ g.count ≠ part.count) := by
  obtain ⟨hid, hcount, hmem⟩ := CutMessage.part_of_mem hp hpart
  rintro (hmany | hbehind | ⟨g, hgroup, hdiffers⟩)
  · have := h.count_le m hm
    omega
  · have : part.index < m.chunks.length := CutMessage.lt_of_mem_parts hmem
    omega
  · rw [hid] at hgroup
    exact hdiffers ((h.parts_of_group? hids hm hgroup).1.trans hcount.symm)

theorem mem_came_of_again (hpart : p.part = some part) (hgroup : r.group? part.id = some g)
    (hheld : part.index ∈ g.parts.map Prod.fst) : p ∈ came := by
  obtain ⟨hid, -, hmem⟩ := CutMessage.part_of_mem hp hpart
  obtain ⟨⟨j, q⟩, hq, rfl⟩ := List.mem_map.mp hheld
  have hsame := CutMessage.eq_of_mem_parts ((h.parts_of_group? hids hm (hid ▸ hgroup)).2 _ hq) hmem
  exact hsame ▸ (h.balanced.groups _ (mem_of_group? hgroup)).1.known _ hq

omit hids in
/-- The bound has room for every fragment, each taken once. -/
theorem has_room (ha : r.Admits p now part g) : r.bytes + cost p ≤ r.maxBytes := by
  have hnodup : (p :: r.held).Nodup :=
    List.nodup_cons.mpr ⟨h.balanced.not_mem_held_of_admits ha, h.balanced.nodup_held⟩
  have hsub : p :: r.held ⊆ ms.flatMap CutMessage.fragments := by
    intro q hq
    rcases List.mem_cons.mp hq with rfl | hq
    · exact List.mem_flatMap.mpr ⟨m, hm, hp⟩
    · exact List.mem_flatMap.mpr (h.own q (h.balanced.known_of_held hq))
  have hle := total_le_of_subperm (f := cost) (hnodup.subperm hsub)
  rw [total_cons, h.balanced.total_cost_held] at hle
  have := h.cost_le
  omega

/-- The fragments of the group, the new one among them, are parts of the message. -/
theorem parts_of_admits (ha : r.Admits p now part g) : g.count = m.chunks.length ∧
    FragmentGroup.Ascending (FragmentGroup.insertPart part.index p g.parts) m.id m.chunks.length
      (· ∈ came ++ [p]) ∧
    ∀ x ∈ FragmentGroup.insertPart part.index p g.parts, x ∈ m.parts := by
  obtain ⟨hid, hcount, hmem⟩ := CutMessage.part_of_mem hp ha.part_eq
  have hgcount : g.count = m.chunks.length := ha.count_eq.trans hcount
  have hascending := (h.balanced.mono fun q (hq : q ∈ came) =>
    List.mem_append_left [p] hq).parts_of_admits ha (by simp)
  rw [hid, hgcount] at hascending
  refine ⟨hgcount, hascending, fun x hx => ?_⟩
  rcases List.mem_cons.mp ((FragmentGroup.insertPart_perm part.index p g.parts).mem_iff.mp hx)
    with rfl | hx
  · exact hmem
  · have hg := h.balanced.group_of_admits ha
    rw [hid] at hg
    exact (h.mem_parts hids hm (hg.known x hx) (hg.part_eq x hx)).2

theorem eq_parts_of_last (ha : r.Admits p now part g) (hlast : g.count ≤ g.parts.length + 1) :
    FragmentGroup.insertPart part.index p g.parts = m.parts := by
  obtain ⟨hcount, hascending, hparts⟩ := h.parts_of_admits hids hm hp ha
  refine eq_of_ascending hparts hascending.sorted m.parts_pairwise ?_
  rwa [FragmentGroup.length_insertPart, CutMessage.length_parts, ← hcount]

omit hids hm in
/-- What is held of the message is in its group. -/
theorem mem_group_of_held (ha : r.Admits p now part g) {q : Packet} (hq : q ∈ m.fragments)
    (hheld : q ∈ r.held) : q ∈ g.parts.map Prod.snd := by
  rcases (h.balanced.mem_held_of_admits ha).mp hheld with hown | ⟨x, hx, hother⟩
  · exact hown
  · obtain ⟨hid, -⟩ := CutMessage.part_of_mem hp ha.part_eq
    obtain ⟨j, hpart⟩ := CutMessage.exists_part_eq hq
    exact absurd hid.symm (h.balanced.id_ne_of_mem_eraseGroup hx hother hpart)

/-- A group that is short of a fragment tells that the message is. -/
theorem misses_of_short (ha : r.Admits p now part g) (hcame : m.Misses came)
    (hmissing : g.parts.length + 1 < g.count) : m.Misses (came ++ [p]) := by
  obtain ⟨hcount, -, -⟩ := h.parts_of_admits hids hm hp ha
  by_contra hall
  have hsub : m.fragments ⊆ p :: g.parts.map Prod.snd := by
    intro q hq
    rcases List.mem_append.mp (CutMessage.not_misses.mp hall hq) with hq' | hq'
    · have hheld := (h.mem_held m hm q hq).mpr ⟨hq', hcame⟩
      exact List.mem_cons_of_mem _ (h.mem_group_of_held hp ha hq hheld)
    · exact List.mem_cons.mpr (Or.inl (List.mem_singleton.mp hq'))
  have hle := (m.nodup_fragments.subperm hsub).length_le
  simp only [CutMessage.fragments, List.length_map, CutMessage.length_parts, List.length_cons] at hle
  omega

theorem keep (ha : r.Admits p now part g) (hcame : m.Misses came)
    (hmissing : g.parts.length + 1 < g.count) (hroom : r.bytes + cost p ≤ r.maxBytes) :
    (r.keep part g p).Rejoins ms (came ++ [p]) := by
  refine ⟨h.count_le, h.cost_le, h.own_append hm hp, ?_, fun m' hm' q hq => ?_⟩
  · exact (h.balanced.mono fun q hq => List.mem_append_left [p] hq).keep ha (by simp) hmissing hroom
  · rw [h.balanced.mem_held_keep ha, h.mem_held m' hm' q hq, List.mem_append, List.mem_singleton]
    by_cases hown : p ∈ m'.fragments
    · obtain rfl := CutMessage.eq_of_fragment hids hm hm' hp hown
      have hshort := h.misses_of_short hids hm hp ha hcame hmissing
      simp only [hcame, hshort, and_true, or_comm]
    · rw [CutMessage.misses_append_of_not_mem hown]
      have hne : q ≠ p := fun heq => hown (heq ▸ hq)
      simp only [hne, false_or, or_false]

theorem not_misses_of_last (ha : r.Admits p now part g) (hlast : g.count ≤ g.parts.length + 1) :
    ¬m.Misses (came ++ [p]) := by
  obtain ⟨-, hascending, -⟩ := h.parts_of_admits hids hm hp ha
  refine CutMessage.not_misses.mpr fun q hq => ?_
  obtain ⟨x, hx, rfl⟩ := List.mem_map.mp hq
  rw [← h.eq_parts_of_last hids hm hp ha hlast] at hx
  exact hascending.known x hx

theorem finish (ha : r.Admits p now part g) (hlast : g.count ≤ g.parts.length + 1) :
    (r.finish part g p).Rejoins ms (came ++ [p]) := by
  obtain ⟨hid, -⟩ := CutMessage.part_of_mem hp ha.part_eq
  have hbalanced := (h.balanced.mono fun q hq => List.mem_append_left [p] hq).finish ha
  refine ⟨h.count_le, h.cost_le, h.own_append hm hp, hbalanced, fun m' hm' q hq => ?_⟩
  -- what the groups under other ids hold
  have hothers : q ∈ (r.finish part g p).held ↔
      ∃ x ∈ r.eraseGroup part.id, q ∈ x.2.parts.map Prod.snd := List.mem_flatMap
  by_cases hown : p ∈ m'.fragments
  · obtain rfl := CutMessage.eq_of_fragment hids hm hm' hp hown
    refine iff_of_false (fun hheld => ?_) fun hq' => ?_
    · obtain ⟨x, hx, hother⟩ := hothers.mp hheld
      obtain ⟨j, hpart⟩ := CutMessage.exists_part_eq hq
      exact h.balanced.id_ne_of_mem_eraseGroup hx hother hpart hid.symm
    · exact h.not_misses_of_last hids hm hp ha hlast hq'.2
  · have hne : q ≠ p := fun heq => hown (heq ▸ hq)
    have hgroup : q ∉ g.parts.map Prod.snd := by
      intro hq'
      obtain ⟨y, hy, rfl⟩ := List.mem_map.mp hq'
      have hpart := (h.balanced.group_of_admits ha).part_eq y hy
      obtain ⟨hid', -⟩ := CutMessage.part_of_mem hq hpart
      exact hown (CutMessage.eq_of_id hids hm hm' (hid.symm.trans hid') ▸ hp)
    rw [hothers, CutMessage.misses_append_of_not_mem hown, List.mem_append, List.mem_singleton,
      or_iff_left hne, ← h.mem_held m' hm' q hq, h.balanced.mem_held_of_admits ha, or_iff_right hgroup]

/-- The fragment that completes its message is answered with it, any other one with nothing. -/
theorem answers (hcame : m.Misses came) (ha : r.Answers p now result r') :
    r'.Rejoins ms (came ++ [p]) ∧
      result = if m.Misses (came ++ [p]) then .pending else .complete m.whole := by
  cases ha with
  | whole hpart =>
    obtain ⟨j, hj⟩ := CutMessage.exists_part_eq hp
    rw [hj] at hpart
    cases hpart
  | rejected hpart hrejected => exact absurd hrejected (h.not_rejected hids hm hp hpart)
  | again hpart hgroup _ hheld =>
    have hagain := h.mem_came_of_again hids hm hp hpart hgroup hheld
    refine ⟨h.again hagain, ?_⟩
    rw [if_pos ((CutMessage.misses_append_of_mem hagain).mpr hcame)]
  | overflow ha _ hfull => exact absurd (h.has_room hm hp ha) (Nat.not_le_of_lt hfull)
  | held ha hmissing hroom =>
    refine ⟨h.keep hids hm hp ha hcame hmissing hroom, ?_⟩
    rw [if_pos (h.misses_of_short hids hm hp ha hcame hmissing)]
  | completed ha hlast hwhole =>
    refine ⟨h.finish hids hm hp ha hlast, ?_⟩
    rw [h.eq_parts_of_last hids hm hp ha hlast, m.assemble_parts] at hwhole
    rw [if_neg (h.not_misses_of_last hids hm hp ha hlast), Option.some.inj hwhole]

end fragment

/-- When all fragments have come, nothing is held. -/
theorem groups_eq_nil (h : r.Rejoins ms came) (hall : ∀ m ∈ ms, ¬m.Misses came) : r.groups = [] := by
  have hheld : ∀ p, p ∉ r.held := by
    intro p hp
    obtain ⟨m, hm, hown⟩ := h.own p (h.balanced.known_of_held hp)
    exact hall m hm ((h.mem_held m hm p hown).mp hp).2
  refine List.eq_nil_iff_forall_not_mem.mpr fun x hx => ?_
  obtain ⟨y, hy⟩ := List.exists_mem_of_ne_nil _ (h.balanced.groups x hx).2.1
  exact hheld y.2 (List.mem_flatMap.mpr ⟨x, hx, List.mem_map_of_mem hy⟩)

end Rejoins

/-- The answers to some packets, one after the other, and what is left. -/
def insertAll (r : Reassembler) : List (Packet × Instant) → List Reassembly × Reassembler
  | [] => ([], r)
  | (p, now) :: calls =>
    let (answer, r) := r.insert p now
    let (answers, r) := r.insertAll calls
    (answer :: answers, r)

theorem length_insertAll (r : Reassembler) (calls : List (Packet × Instant)) :
    (r.insertAll calls).1.length = calls.length := by
  induction calls generalizing r with
  | nil => rfl
  | cons call calls ih => rw [insertAll, List.length_cons, List.length_cons, ih]

/-- The first `k` packets. -/
def came (calls : List (Packet × Instant)) (k : Nat) : List Packet := (calls.take k).map Prod.fst

variable {ms : List CutMessage} {calls : List (Packet × Instant)} {m : CutMessage}

theorem came_subset {j k : Nat} (h : j ≤ k) : came calls j ⊆ came calls k :=
  List.map_subset _ (List.take_subset_take_left calls h)

theorem append_came_zero (before : List Packet) (calls : List (Packet × Instant)) :
    before ++ came calls 0 = before :=
  List.append_nil before

theorem append_came_succ (call : Packet × Instant) (k : Nat) (before : List Packet) :
    before ++ came (call :: calls) (k + 1) = before ++ [call.1] ++ came calls k := by
  simp [came]

/-- Fragments come, none of them when its message is complete. -/
theorem Rejoins.insertAll {r : Reassembler} {before : List Packet}
    (hids : (ms.map CutMessage.id).Nodup) (h : r.Rejoins ms before)
    (hcalls : ∀ k, (hk : k < calls.length) →
      ∃ m ∈ ms, calls[k].1 ∈ m.fragments ∧ m.Misses (before ++ came calls k)) :
    (r.insertAll calls).2.Rejoins ms (before ++ came calls calls.length) ∧
      ∀ k, (hk : k < calls.length) → ∀ m ∈ ms, calls[k].1 ∈ m.fragments →
        (r.insertAll calls).1[k]? =
          some (if m.Misses (before ++ came calls (k + 1)) then .pending else .complete m.whole) := by
  induction calls generalizing r before with
  | nil =>
    refine ⟨?_, fun k hk => absurd hk (Nat.not_lt_zero k)⟩
    rw [List.length_nil, append_came_zero]
    exact h
  | cons call calls ih =>
    obtain ⟨m, hm, hp, hmisses⟩ := hcalls 0 (Nat.zero_lt_succ _)
    rw [append_came_zero] at hmisses
    obtain ⟨hfirst, hanswer⟩ := h.answers hids hm hp hmisses (r.answers_insert call.1 call.2)
    obtain ⟨hrest, hanswers⟩ := ih hfirst fun k hk => by
      have hlater := hcalls (k + 1) (Nat.succ_lt_succ hk)
      rwa [append_came_succ] at hlater
    refine ⟨?_, fun k hk m' hm' hp' => ?_⟩
    · rw [List.length_cons, append_came_succ]
      exact hrest
    · rw [append_came_succ]
      cases k with
      | zero =>
        obtain rfl := CutMessage.eq_of_fragment hids hm hm' hp hp'
        rw [append_came_zero]
        exact congrArg some hanswer
      | succ k => exact hanswers k (Nat.lt_of_succ_lt_succ hk) m' hm' hp'

/-- All fragments of the messages in some order, with repetitions as long as a message is incomplete. -/
structure Interleaving (ms : List CutMessage) (calls : List (Packet × Instant)) : Prop where
  own : ∀ call ∈ calls, ∃ m ∈ ms, call.1 ∈ m.fragments
  all : ∀ m ∈ ms, ∀ p ∈ m.fragments, p ∈ calls.map Prod.fst
  repeats : ∀ k, (hk : k < calls.length) → ∀ m ∈ ms, calls[k].1 ∈ m.fragments →
    calls[k].1 ∈ came calls k → m.Misses (came calls k)

namespace Interleaving

variable (h : Interleaving ms calls) (hm : m ∈ ms)
include h hm

/-- No fragment comes when its message is complete. -/
theorem misses {k : Nat} (hk : k < calls.length) (hp : calls[k].1 ∈ m.fragments) :
    m.Misses (came calls k) := by
  by_cases hcame : calls[k].1 ∈ came calls k
  · exact h.repeats k hk m hm hp hcame
  · exact ⟨_, hp, hcame⟩

theorem not_misses_length : ¬m.Misses (came calls calls.length) := by
  refine CutMessage.not_misses.mpr fun p hp => ?_
  rw [came, List.take_length]
  exact h.all m hm p hp

/-- A message has one last fragment. -/
theorem exists_last : ∃ k, ∃ hk : k < calls.length, calls[k].1 ∈ m.fragments ∧
    m.Misses (came calls k) ∧ ¬m.Misses (came calls (k + 1)) := by
  have hsome : ∃ k, ¬m.Misses (came calls k) := ⟨_, h.not_misses_length hm⟩
  -- the first moment at which all fragments are there
  have hall := Nat.find_spec hsome
  have hfirst : ∀ {k}, k < Nat.find hsome → m.Misses (came calls k) := fun hk =>
    not_not.mp (Nat.find_min hsome hk)
  have hle : Nat.find hsome ≤ calls.length := Nat.find_le (h.not_misses_length hm)
  cases hk : Nat.find hsome with
  | zero =>
    rw [hk] at hall
    exact absurd m.misses_nil hall
  | succ k =>
    rw [hk] at hall hfirst hle
    have hbefore := hfirst (Nat.lt_succ_self k)
    refine ⟨k, hle, ?_, hbefore, hall⟩
    by_contra hother
    have hsucc : came calls (k + 1) = came calls k ++ [calls[k].1] := by
      rw [came, List.take_succ_eq_append_getElem hle, List.map_append]
      rfl
    rw [hsucc, CutMessage.misses_append_of_not_mem hother] at hall
    exact hall hbefore

end Interleaving

/-- Messages under different ids, within the limits, whose fragments all come, interleaved in any way, and
repeated at most while their message is incomplete. The one fragment that completes a message is answered
with the message as it was before it was cut; all other fragments are answered with nothing. In the end
nothing is held and nothing is charged. -/
theorem rejoined (ms : List CutMessage) (maxParts maxBytes : Nat) (calls : List (Packet × Instant))
    (hids : (ms.map CutMessage.id).Nodup) (hcount : ∀ m ∈ ms, m.chunks.length ≤ maxParts)
    (hcost : total cost (ms.flatMap CutMessage.fragments) ≤ maxBytes) (h : Interleaving ms calls) :
    let (answers, r) := insertAll { maxParts, maxBytes } calls
    answers.length = calls.length ∧
      (∀ m ∈ ms, ∃ last, ∃ hlast : last < calls.length, calls[last].1 ∈ m.fragments ∧
        m.Misses (came calls last) ∧ ¬m.Misses (came calls (last + 1)) ∧
        answers[last]? = some (.complete m.whole) ∧
        ∀ k, (hk : k < calls.length) → calls[k].1 ∈ m.fragments → k ≠ last →
          answers[k]? = some .pending) ∧
      r.groups = [] ∧ r.bytes = 0 := by
  have hstart := Rejoins.initial hcount hcost
  obtain ⟨hend, hanswers⟩ := hstart.insertAll hids fun k hk => by
    obtain ⟨m, hm, hp⟩ := h.own calls[k] (List.getElem_mem hk)
    exact ⟨m, hm, hp, h.misses hm hk hp⟩
  have hempty := hend.groups_eq_nil fun m hm => h.not_misses_length hm
  refine ⟨length_insertAll _ calls, fun m hm => ?_, hempty, ?_⟩
  · obtain ⟨last, hlast, hp, hmisses, hall⟩ := h.exists_last hm
    refine ⟨last, hlast, hp, hmisses, hall, ?_, fun k hk hpk hne => ?_⟩
    · rw [hanswers last hlast m hm hp]
      exact congrArg some (if_neg hall)
    · -- after the last fragment of a message none comes, not even again
      have hearlier : k + 1 ≤ last := by
        by_contra hlater
        have hsub : came calls (last + 1) ⊆ came calls k :=
          came_subset (Nat.lt_of_le_of_ne (by omega) (Ne.symm hne))
        exact hall ((h.misses hm hk hpk).of_subset hsub)
      rw [hanswers k hk m hm hpk]
      exact congrArg some (if_pos (hmisses.of_subset (came_subset hearlier)))
  · rw [hend.balanced.bytes_eq, hempty]
    rfl

/-- A message of 21 bits in three fragments and one of 9 bits in two. -/
def inThree : CutMessage where
  id := .ofNat 1
  payload := [0xAB, 0xCD, 0xEF]
  bitLength := 21
  size := 1
  header j :=
    { sequence := .ofNat j, reliability := .reliable, place := none, part := none, priority := .medium,
      bitLength := 0, payload := [] }
  size_pos := by decide
  bitLength_pos := by decide
  bitLength_le := by decide
  bitLength_word := by decide

def inTwo : CutMessage :=
  { inThree with
    id := .ofNat 2
    payload := [1, 2]
    bitLength := 9
    bitLength_pos := by decide
    bitLength_le := by decide
    bitLength_word := by decide }

/-- Their fragments, backwards and mixed, two of them again. -/
def mingled : List (Packet × Instant) :=
  let three := inThree.fragments.reverse
  let two := inTwo.fragments.reverse
  (three.take 2 ++ two.take 1 ++ three.take 1 ++ three.drop 2 ++ two).map fun p => (p, 0)

theorem rejoined_mingled :
    mingled.length = 7 ∧ Interleaving [inThree, inTwo] mingled ∧
      let (answers, r) := insertAll { maxParts := 3, maxBytes := 325 } mingled
      answers.length = mingled.length ∧
        (∀ m ∈ [inThree, inTwo], ∃ last, ∃ hlast : last < mingled.length,
          mingled[last].1 ∈ m.fragments ∧
          m.Misses (came mingled last) ∧ ¬m.Misses (came mingled (last + 1)) ∧
          answers[last]? = some (.complete m.whole) ∧
          ∀ k, (hk : k < mingled.length) → mingled[k].1 ∈ m.fragments → k ≠ last →
            answers[k]? = some .pending) ∧
        r.groups = [] ∧ r.bytes = 0 := by
  have hmingled : Interleaving [inThree, inTwo] mingled :=
    ⟨by decide +kernel, by decide +kernel, by decide +kernel⟩
  exact ⟨by decide, hmingled,
    rejoined [inThree, inTwo] 3 325 mingled (by decide) (by decide) (by decide) hmingled⟩

end Reassembler
end ReliableDatagram
