import ReliableDatagram.Proofs.Receiving.Fragments

/-!
# What a reassembler answers

A packet that is no fragment passes through. A fragment is rejected, or held already, or there is a group
that admits it; then it is refused for lack of room, or held, or it completes its message.
`Reassembler.Answers` lists these cases for any packet, and says what is left behind in each of them.
-/
namespace ReliableDatagram

/-- Fragments with one more make a message. -/
theorem FragmentGroup.exists_assemble (index : Nat) (p : Packet) (parts : List (Nat × Packet)) :
    ∃ whole, assemble (insertPart index p parts) = some whole := by
  cases parts with
  | nil => exact ⟨_, rfl⟩
  | cons x parts =>
    rw [insertPart]
    split_ifs <;> exact ⟨_, rfl⟩

theorem FragmentGroup.length_insertPart (index : Nat) (p : Packet) (parts : List (Nat × Packet)) :
    (insertPart index p parts).length = parts.length + 1 :=
  (insertPart_perm index p parts).length_eq

namespace Reassembler

/-- The group that a new fragment goes into: the one of its id, or an empty one. -/
structure Admits (r : Reassembler) (p : Packet) (now : Instant) (part : Part) (g : FragmentGroup) :
    Prop where
  part_eq : p.part = some part
  count_le : part.count ≤ r.maxParts
  index_lt : part.index < part.count
  group : r.group? part.id = some g ∨ r.group? part.id = none ∧ g = .start p part now
  count_eq : g.count = part.count
  new : ∀ x ∈ g.parts, x.1 ≠ part.index

/-- The reassembler with one more fragment in a group. -/
def keep (r : Reassembler) (part : Part) (g : FragmentGroup) (p : Packet) : Reassembler :=
  { r with
    groups :=
      (part.id,
        { g with
          parts := FragmentGroup.insertPart part.index p g.parts
          bytes := g.bytes + cost p }) :: r.eraseGroup part.id
    bytes := r.bytes + cost p }

/-- The reassembler when a group is complete and gone. -/
def finish (r : Reassembler) (part : Part) (g : FragmentGroup) (p : Packet) : Reassembler :=
  { r with groups := r.eraseGroup part.id, bytes := r.bytes + cost p - (g.bytes + cost p) }

/-- What may become of a packet. -/
inductive Answers (r : Reassembler) (p : Packet) (now : Instant) : Reassembly → Reassembler → Prop
  | whole (hpart : p.part = none) : Answers r p now (.complete p) r
  | rejected {part : Part} (hpart : p.part = some part)
      (h : r.maxParts < part.count ∨ part.count ≤ part.index ∨
        ∃ g, r.group? part.id = some g ∧ g.count ≠ part.count) : Answers r p now .rejected r
  | again {part : Part} {g : FragmentGroup} (hpart : p.part = some part)
      (hgroup : r.group? part.id = some g) (hcount : g.count = part.count)
      (hheld : part.index ∈ g.parts.map Prod.fst) : Answers r p now .pending r
  | overflow {part : Part} {g : FragmentGroup} (h : r.Admits p now part g)
      (hmissing : g.parts.length + 1 ≠ g.count) (hfull : r.maxBytes < r.bytes + cost p) :
      Answers r p now .overflow r
  | held {part : Part} {g : FragmentGroup} (h : r.Admits p now part g)
      (hmissing : g.parts.length + 1 < g.count) (hroom : r.bytes + cost p ≤ r.maxBytes) :
      Answers r p now .pending (r.keep part g p)
  | completed {part : Part} {g : FragmentGroup} (h : r.Admits p now part g)
      (hlast : g.count ≤ g.parts.length + 1) {whole : Packet}
      (hwhole : FragmentGroup.assemble (FragmentGroup.insertPart part.index p g.parts) = some whole) :
      Answers r p now (.complete whole) (r.finish part g p)

variable {r : Reassembler} {p : Packet} {now : Instant} {part : Part} {g : FragmentGroup}

theorem Admits.answers (h : r.Admits p now part g) :
    r.Answers p now (r.add g part p).1 (r.add g part p).2 := by
  have hlength := FragmentGroup.length_insertPart part.index p g.parts
  rw [add]
  dsimp only
  split_ifs with hover hshort
  · exact .overflow h hover.1 hover.2
  · rw [hlength] at hshort
    exact .held h hshort (Nat.le_of_not_lt fun hfull => hover ⟨Nat.ne_of_lt hshort, hfull⟩)
  · rw [hlength] at hshort
    obtain ⟨whole, hwhole⟩ := FragmentGroup.exists_assemble part.index p g.parts
    simp only [hwhole]
    exact .completed h (Nat.le_of_not_lt hshort) hwhole

/-- What is refused would have gone into a group. -/
theorem Answers.exists_admits {r' : Reassembler} (h : r.Answers p now .overflow r') :
    ∃ part g, r.Admits p now part g := by
  cases h with
  | overflow ha => exact ⟨_, _, ha⟩

theorem answers_insert (r : Reassembler) (p : Packet) (now : Instant) :
    r.Answers p now (r.insert p now).1 (r.insert p now).2 := by
  rw [insert]
  cases hpart : p.part with
  | none => exact .whole hpart
  | some part =>
    dsimp only
    split_ifs with hlimits
    · exact .rejected hpart (hlimits.imp_right Or.inl)
    · obtain ⟨hcount, hindex⟩ := not_or.mp hlimits
      rw [Nat.not_lt] at hcount
      rw [Nat.not_le] at hindex
      cases hgroup : r.group? part.id with
      | none =>
        refine Admits.answers ⟨hpart, hcount, hindex, Or.inr ⟨hgroup, rfl⟩, rfl, ?_⟩
        simp [FragmentGroup.start]
      | some g =>
        dsimp only
        split_ifs with hdiffers hheld
        · exact .rejected hpart (Or.inr (Or.inr ⟨g, hgroup, hdiffers⟩))
        · obtain ⟨x, hx, hindex⟩ := List.any_eq_true.mp hheld
          refine .again hpart hgroup (not_not.mp hdiffers) ?_
          exact List.mem_map.mpr ⟨x, hx, of_decide_eq_true hindex⟩
        · refine Admits.answers ⟨hpart, hcount, hindex, Or.inl hgroup, not_not.mp hdiffers, ?_⟩
          exact fun x hx heq => hheld (List.any_eq_true.mpr ⟨x, hx, decide_eq_true heq⟩)

end Reassembler
end ReliableDatagram
