import ReliableDatagram.Proofs.Checked.Reading
import ReliableDatagram.Proofs.Receiving.Accounting
import ReliableDatagram.Proofs.Receiving.DuplicateLog
import ReliableDatagram.Session.State

/-!
# Holding what has arrived, with checks

The duplicate log, the lanes and the reassembler, with every index, difference and sum checked and every
loop bounded. The log and the lanes never go wrong; a reassembler does not as long as its books are
balanced and its bound leaves the bits of a message in one word.
-/
namespace ReliableDatagram.Checked

/-! ### The duplicate log -/

/-- Pushes holes until there are `size` slots. -/
def extend (now : Instant) (size : Nat) : (fuel : Nat) → Array Slot → Option (Array Slot)
  | 0, _ => none
  | n + 1, slots => if slots.size < size then extend now size n (slots.push (.hole now)) else some slots

/-- Pops passable slots off the front, one by one. -/
def advance (now : Instant) : (fuel : Nat) → ArrivalLog → Option ArrivalLog
  | 0, _ => none
  | n + 1, log =>
    match log.slots[0]? with
    | none => some log
    | some front =>
      if log.isPassable now front then
        advance now n { log with base := log.base + 1, slots := log.slots.extract 1 log.slots.size }
      else some log

def record (log : ArrivalLog) (s : SequenceNumber) (now : Instant) : Option (Arrival × ArrivalLog) := do
  let offset := log.offset s
  if 0x8000 ≤ offset then return (.duplicate, log)
  let (arrival, slots) ←
    if offset < log.slots.size then do
      match ← log.slots[offset]? with
      | .hole _ => pure (Arrival.new, log.slots.setIfInBounds offset (.received now))
      | .received _ => pure (Arrival.duplicate, log.slots)
    else do
      let slots ← extend now offset (offset + 1) log.slots
      pure (Arrival.new, slots.push (.received now))
  return (arrival, ← advance now (slots.size + 1) { log with slots })

theorem extend_eq {now : Instant} {size fuel : Nat} {slots : Array Slot} (h : size < slots.size + fuel)
    (hfuel : 0 < fuel) :
    extend now size fuel slots = some (slots ++ Array.replicate (size - slots.size) (.hole now)) := by
  induction fuel generalizing slots with
  | zero => omega
  | succ n ih =>
    rw [extend]
    split_ifs with hsize
    · rw [ih (by rw [Array.size_push]; omega) (by omega), Array.size_push]
      obtain ⟨k, hk⟩ := Nat.exists_eq_add_of_lt hsize
      have hone : size - slots.size = (size - (slots.size + 1)) + 1 := by omega
      rw [hone]
      congr 1
      apply Array.ext'
      simp [List.replicate_succ]
    · have hzero : size - slots.size = 0 := by omega
      rw [hzero]
      simp

theorem ext_log {log log' : ArrivalLog} (htimeout : log.timeout = log'.timeout)
    (hbase : log.base = log'.base) (hslots : log.slots.toList = log'.slots.toList) : log = log' := by
  obtain ⟨timeout, base, slots⟩ := log
  obtain ⟨timeout', base', slots'⟩ := log'
  obtain rfl := Array.toList_inj.mp hslots
  obtain rfl : timeout = timeout' := htimeout
  obtain rfl : base = base' := hbase
  rfl

theorem advance_eq {now : Instant} {fuel : Nat} {log : ArrivalLog} (h : log.slots.size < fuel) :
    advance now fuel log = some (log.advance now) := by
  induction fuel generalizing log with
  | zero => omega
  | succ n ih =>
    have hbase := log.base_advance now
    have hslots := log.toList_slots_advance now
    rw [advance]
    cases hfront : log.slots[0]? with
    | none =>
      have hnil : log.slots.toList = [] := by simpa using hfront
      rw [hnil] at hbase hslots
      refine congrArg some (ext_log ?_ ?_ ?_)
      · rw [ArrivalLog.timeout_advance]
      · exact hbase.symm
      · rw [hnil, hslots, List.dropWhile_nil]
    | some front =>
      have hcons : log.slots.toList = front :: (log.slots.extract 1 log.slots.size).toList := by
        rw [← Array.getElem?_toList] at hfront
        rw [Array.toList_extract, List.extract_eq_take_drop]
        cases hl : log.slots.toList with
        | nil => rw [hl] at hfront; cases hfront
        | cons a l =>
          obtain rfl : a = front := by simpa [hl] using hfront
          have hsize : log.slots.size = l.length + 1 := by
            rw [← Array.length_toList, hl, List.length_cons]
          simp [hsize]
      rw [hcons] at hbase hslots
      dsimp only
      split_ifs with hpassable
      · have hsize := congrArg List.length hcons
        rw [Array.length_toList, List.length_cons, Array.length_toList] at hsize
        rw [ih (by dsimp only; omega)]
        rw [List.takeWhile_cons_of_pos hpassable, List.length_cons] at hbase
        rw [List.dropWhile_cons_of_pos hpassable] at hslots
        refine congrArg some (ext_log ?_ ?_ ?_)
        · rw [ArrivalLog.timeout_advance, ArrivalLog.timeout_advance]
        · rw [ArrivalLog.base_advance, hbase, Nat.add_assoc, Nat.add_comm 1]
          rfl
        · rw [ArrivalLog.toList_slots_advance, hslots]
          rfl
      · rw [List.takeWhile_cons_of_neg hpassable] at hbase
        rw [List.dropWhile_cons_of_neg hpassable, ← hcons] at hslots
        exact congrArg some (ext_log (ArrivalLog.timeout_advance ..).symm hbase.symm hslots.symm)

theorem record_eq (log : ArrivalLog) (s : SequenceNumber) (now : Instant) :
    record log s now = some (log.record s now) := by
  rw [record, ArrivalLog.record]
  dsimp only
  split_ifs with hbehind hinside
  · rfl
  · obtain ⟨slot, hslot⟩ : ∃ slot, log.slots[log.offset s]? = some slot :=
      ⟨_, Array.getElem?_eq_getElem hinside⟩
    cases slot <;> simp [hslot, advance_eq]
  · have hnone : log.slots[log.offset s]? = none := Array.getElem?_eq_none (Nat.le_of_not_lt hinside)
    have hextend : extend now (log.offset s) (log.offset s + 1) log.slots = some _ :=
      extend_eq (by omega) (Nat.succ_pos _)
    simp [hnone, hextend, advance_eq]

/-! ### Lanes -/

def channel (n : Nat) : Option Channel :=
  if h : n < Limits.channels then some ⟨n, h⟩ else none

theorem channel_of_lt {n : Nat} (h : n < Limits.channels) : channel n = some (.ofNat n) := by
  rw [channel, dif_pos h]
  exact congrArg some (Fin.ext (Nat.mod_eq_of_lt h).symm)

section lanes

variable {α : Type}

/-- Takes out the waiting messages that are next in order. -/
def release : (fuel : Nat) → Lane α → Option (List α × Lane α)
  | 0, _ => none
  | n + 1, l =>
    match l.waiting[l.ordered.value]? with
    | none => some ([], l)
    | some a => do
      let waiting := l.waiting.erase l.ordered.value
      let (released, l) ← release n { l with ordered := l.ordered.next, waiting }
      return (a :: released, l)

def acceptOnLane (t : Lanes α) (n : Nat) (index : OrderingIndex) (a : α) :
    Option (OrderedArrival α × Lanes α) := do
  let c ← channel n
  let l := t.get c
  if index = l.ordered then
    let (followers, l) ← release (l.waiting.size + 1) { l with ordered := l.ordered.next }
    return (.inOrder followers, t.set c l)
  else if index.isOlderThan l.ordered || l.waiting.contains index.value then
    return (.stale, t.set c l)
  else
    return (.buffered, t.set c { l with waiting := l.waiting.insert index.value a })

theorem release_eq {l : Lane α} {n : Nat} (h : l.waiting.size ≤ n) :
    release (n + 1) l = some (l.releaseWith n) := by
  induction n generalizing l with
  | zero =>
    have hempty : l.waiting.isEmpty = true := by
      rw [Std.TreeMap.isEmpty_eq_size_eq_zero, Nat.le_zero.mp h]
      rfl
    have hnone : l.waiting[l.ordered.value]? = none := Std.TreeMap.getElem?_of_isEmpty hempty
    rw [release, hnone]
    rfl
  | succ n ih =>
    rw [release, Lane.releaseWith]
    cases hnext : l.waiting[l.ordered.value]? with
    | none => rfl
    | some a =>
      have hcontains : l.waiting.contains l.ordered.value = true := by
        rw [Std.TreeMap.contains_eq_isSome_getElem?, hnext]
        rfl
      have hsize : (l.waiting.erase l.ordered.value).size ≤ n := by
        rw [Std.TreeMap.size_erase, if_pos hcontains]
        omega
      have hrest : release (n + 1)
          { l with ordered := l.ordered.next, waiting := l.waiting.erase l.ordered.value } = some _ :=
        ih hsize
      simp [hrest]

theorem acceptOnLane_eq (t : Lanes α) {n : Nat} (h : n < Limits.channels) (index : OrderingIndex)
    (a : α) : acceptOnLane t n index a = some (t.acceptOrdered (.ofNat n) index a) := by
  have hrelease := release_eq (l := { t.get (.ofNat n) with ordered := (t.get (.ofNat n)).ordered.next })
    (Nat.le_refl _)
  simp only [acceptOnLane, channel_of_lt h, Lanes.acceptOrdered, Lane.acceptOrdered, Option.pure_def,
    Option.bind_eq_bind, Option.bind_some]
  split_ifs
  · rw [hrelease]
    rfl
  · rfl
  · rfl

end lanes

/-! ### Fragments -/

/-- Payload and bits so far, with those of one more fragment. -/
def join (whole : Bytes × Nat) (x : Nat × Packet) : Option (Bytes × Nat) := do
  let body ← slice x.2.payload 0 x.2.payloadLength
  let bitLength ← word (whole.2 + x.2.bitLength)
  return (whole.1 ++ body, bitLength)

/-- All fragments as one packet. -/
def assemble : List (Nat × Packet) → Option (Option Packet)
  | [] => some none
  | (_, first) :: parts => do
    let payload ← slice first.payload 0 first.payloadLength
    let (payload, bitLength) ← parts.foldlM join (payload, first.bitLength)
    return some { first with part := none, bitLength, payload }

def add (r : Reassembler) (g : FragmentGroup) (part : Part) (p : Packet) :
    Option (Reassembly × Reassembler) :=
  let cost := Reassembler.cost p
  let completes := g.parts.length + 1 = g.count
  if ¬completes ∧ r.maxBytes < r.bytes + cost then some (.overflow, r)
  else
    let parts := FragmentGroup.insertPart part.index p g.parts
    if parts.length < g.count then
      let g := { g with parts, bytes := g.bytes + cost }
      some (.pending, { r with groups := (part.id, g) :: r.eraseGroup part.id, bytes := r.bytes + cost })
    else do
      let bytes ← sub (r.bytes + cost) (g.bytes + cost)
      let r := { r with groups := r.eraseGroup part.id, bytes }
      match ← assemble parts with
      | some whole => return (.complete whole, r)
      | none => return (.pending, r)

def insert (r : Reassembler) (p : Packet) (now : Instant) : Option (Reassembly × Reassembler) :=
  match p.part with
  | none => some (.complete p, r)
  | some part =>
    if r.maxParts < part.count ∨ part.count ≤ part.index then some (.rejected, r)
    else
      match r.group? part.id with
      | none => add r (.start p part now) part p
      | some g =>
        if g.count ≠ part.count then some (.rejected, r)
        else if g.parts.any (·.1 = part.index) then some (.pending, r)
        else add r g part p

def dropWhere (r : Reassembler) (doomed : FragmentGroup → Bool) : Option (Nat × Reassembler) := do
  let groups := r.groups.filter (!doomed ·.2)
  let freed := total (·.2.bytes) (r.groups.filter (doomed ·.2))
  let bytes ← sub r.bytes freed
  let dropped ← sub r.groups.length groups.length
  return (dropped, { r with groups, bytes })

theorem slice_body {p : Packet} (h : p.WellFormed) :
    slice p.payload 0 p.payloadLength = some p.body := by
  rw [slice_of_le (Nat.zero_le _) h.payloadLength_le]
  rfl

theorem foldlM_join {parts : List (Nat × Packet)} (h : ∀ x ∈ parts, x.2.WellFormed)
    {whole : Bytes × Nat}
    (hbits : whole.2 + total (·.2.bitLength) parts ≤ Limits.largestBitLength) :
    parts.foldlM join whole =
      some (whole.1 ++ parts.flatMap (·.2.body), whole.2 + total (·.2.bitLength) parts) := by
  induction parts generalizing whole with
  | nil => simp
  | cons x parts ih =>
    rw [total_cons] at hbits
    have hword : whole.2 + x.2.bitLength ≤ Limits.largestBitLength := by omega
    have hjoin : join whole x = some (whole.1 ++ x.2.body, whole.2 + x.2.bitLength) := by
      simp [join, slice_body (h x (by simp)), hword]
    rw [List.foldlM_cons, hjoin]
    rw [Option.bind_eq_bind, Option.bind_some, ih (fun y hy => h y (by simp [hy])) (by omega)]
    simp [Nat.add_assoc]

theorem assemble_eq {parts : List (Nat × Packet)} (h : ∀ x ∈ parts, x.2.WellFormed)
    (hbits : total (·.2.bitLength) parts ≤ Limits.largestBitLength) :
    assemble parts = some (FragmentGroup.assemble parts) := by
  cases parts with
  | nil => rfl
  | cons x parts =>
    have hjoin : parts.foldlM join (x.2.body, x.2.bitLength) = some _ :=
      foldlM_join (fun y hy => h y (by simp [hy])) hbits
    have hmod : total (·.2.bitLength) (x :: parts) % (Limits.largestBitLength + 1) =
        total (·.2.bitLength) (x :: parts) := Nat.mod_eq_of_lt (Nat.lt_succ_of_le hbits)
    rw [FragmentGroup.assemble, hmod]
    simp [assemble, slice_body (h x (by simp)), hjoin]

/-- The bits of a message that was held in fragments fit one word. -/
def Roomy (r : Reassembler) : Prop := 8 * (r.maxBytes + Limits.maximumMtu) ≤ Limits.largestBitLength

section fragments

variable {r : Reassembler} {g : FragmentGroup} {p : Packet} {part : Part} {id : SplitId}

theorem add_eq (h : r.Balanced Packet.WellFormed) (hroomy : Roomy r)
    (hg : g.Balanced id Packet.WellFormed) (hp : p.WellFormed)
    (hle : g.bytes ≤ r.bytes) : add r g part p = some (r.add g part p) := by
  have hsub : g.bytes + Reassembler.cost p ≤ r.bytes + Reassembler.cost p := Nat.add_le_add_right hle _
  have hbits : total (·.2.bitLength) (FragmentGroup.insertPart part.index p g.parts) ≤
      Limits.largestBitLength := by
    refine Nat.le_trans (hg.total_bitLength_le part.index p) (Nat.le_trans ?_ hroomy)
    exact Nat.mul_le_mul_left 8 (Nat.add_le_add (Nat.le_trans hle h.bytes_le) hp.payloadLength_lt.le)
  rw [add, Reassembler.add]
  dsimp only
  split_ifs
  · rfl
  · rfl
  · rw [sub_of_le hsub, assemble_eq (hg.known_insertPart hp part.index) hbits]
    cases FragmentGroup.assemble (FragmentGroup.insertPart part.index p g.parts) <;> rfl

theorem insert_eq (h : r.Balanced Packet.WellFormed) (hroomy : Roomy r) (hp : p.WellFormed) (now : Instant) :
    insert r p now = some (r.insert p now) := by
  rw [insert, Reassembler.insert]
  cases hpart : p.part with
  | none => rfl
  | some part =>
    dsimp only
    split_ifs
    · rfl
    · cases hgroup : r.group? part.id with
      | none =>
        exact add_eq h hroomy (FragmentGroup.balanced_start (hp.index_lt part hpart) p now) hp
          (Nat.zero_le _)
      | some g =>
        have hg := (h.groups _ (Reassembler.mem_of_group? hgroup)).1
        dsimp only
        split_ifs
        · rfl
        · rfl
        · exact add_eq h hroomy hg hp (h.bytes_group_le hgroup)

theorem dropWhere_eq (h : r.Balanced Packet.WellFormed) (doomed : FragmentGroup → Bool) :
    dropWhere r doomed = some (r.dropWhere doomed) := by
  rw [dropWhere, sub_of_le (h.bytes_doomed_le doomed), sub_of_le (List.length_filter_le ..)]
  rfl

end fragments
end ReliableDatagram.Checked
