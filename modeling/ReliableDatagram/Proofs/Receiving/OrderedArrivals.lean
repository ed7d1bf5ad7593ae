import Mathlib.Data.List.Perm.Basic
import ReliableDatagram.Proofs.Counting
import ReliableDatagram.Receiving.Lanes

/-!
# Order for any arrivals

Nothing is asked here of the ordered messages that come in: an index may be skipped, come twice or belong
to another turn of the counter. Every message is handed in once and counted, so that two equal ones
are told apart. On a lane that `Holds` some of them, `delivered` are those that went out, in order, and
`waiting` those that are still in it.
-/
namespace ReliableDatagram

open scoped List

/-- An ordered message as it is handed in. -/
structure Submission (α : Type) where
  channel : Channel
  index : OrderingIndex
  item : α

/-- A submission and what became of it. -/
structure Call (α : Type) extends Submission α where
  answer : OrderedArrival α

variable {α : Type}

def OrderedArrival.isStale : OrderedArrival α → Bool
  | stale => true
  | inOrder _ | buffered => false

namespace Call

/-- The items that the call makes deliverable, in order. -/
def delivered (x : Call α) : List α := x.answer.delivered x.item

/-- The calls on one channel, each with its number among all calls. -/
def numberedOn (c : Channel) (calls : List (Call α)) : List (Call α × Nat) :=
  calls.zipIdx.filter (·.1.channel = c)

/-- What the calls on one channel have delivered, in order. -/
def deliveredOn (c : Channel) (calls : List (Call α)) : List α :=
  (calls.filter (·.channel = c)).flatMap delivered

variable (c : Channel) (calls : List (Call α)) (x : Call α)

theorem numberedOn_concat : numberedOn c (calls ++ [x]) =
    numberedOn c calls ++ if x.channel = c then [(x, calls.length)] else [] := by
  by_cases hc : x.channel = c <;> simp [numberedOn, List.zipIdx_append, hc]

theorem deliveredOn_concat : deliveredOn c (calls ++ [x]) =
    deliveredOn c calls ++ if x.channel = c then x.delivered else [] := by
  by_cases hc : x.channel = c <;> simp [deliveredOn, hc]

end Call

namespace Lane

/-- The messages `delivered` went out of the lane in the order of their indices, and `waiting` are in it,
none of them further ahead than half the range. -/
structure Holds (l : Lane α) (delivered waiting : List (Call α × Nat)) : Prop where
  ordered_eq : l.ordered = .ofNat delivered.length
  index_eq : ∀ (k : Nat) (x : Call α × Nat), delivered[k]? = some x → x.1.index = .ofNat k
  getElem?_iff : ∀ (key : UInt16) a,
    l.waiting[key]? = some a ↔ ∃ x ∈ waiting, x.1.index.value = key ∧ x.1.item = a
  size_eq : l.waiting.size = waiting.length
  distinct : waiting.Pairwise fun x y => x.1.index ≠ y.1.index
  near : ∀ x ∈ waiting, (x.1.index.distanceFrom l.ordered).toNat ≤ 32768

/-- The message that is next in order is not in the lane. -/
structure Rests (l : Lane α) (delivered waiting : List (Call α × Nat)) : Prop
    extends l.Holds delivered waiting where
  next_missing : l.waiting[l.ordered.value]? = none

variable {l : Lane α} {delivered waiting : List (Call α × Nat)} {x : Call α × Nat}

theorem rests_new : ({} : Lane α).Rests [] [] := by
  refine ⟨⟨rfl, by simp, ?_, Std.TreeMap.size_emptyc, .nil, by simp⟩, Std.TreeMap.getElem?_emptyc⟩
  simp

namespace Holds

theorem perm {waiting' : List (Call α × Nat)} (h : l.Holds delivered waiting)
    (hperm : waiting ~ waiting') : l.Holds delivered waiting' := by
  refine ⟨h.ordered_eq, h.index_eq, ?_, h.size_eq.trans hperm.length_eq, ?_, ?_⟩
  · simpa [hperm.mem_iff] using h.getElem?_iff
  · exact (hperm.pairwise_iff fun hne heq => hne heq.symm).mp h.distinct
  · simpa [hperm.mem_iff] using h.near

/-- Nothing waits under the index of a message that is not in the lane. -/
theorem ne_of_missing (h : l.Holds delivered waiting) {index : OrderingIndex}
    (hmissing : l.waiting[index.value]? = none) : ∀ x ∈ waiting, x.1.index ≠ index := by
  rintro x hx rfl
  have hsome := (h.getElem?_iff _ x.1.item).mpr ⟨x, hx, rfl, rfl⟩
  rw [hmissing] at hsome
  cases hsome

/-- The message that is next in order is delivered, and the others come one step nearer. -/
theorem deliver (h : l.Holds delivered waiting) (hx : x.1.index = l.ordered)
    (hmissing : ∀ y ∈ waiting, y.1.index ≠ l.ordered) :
    ({ l with ordered := l.ordered.next } : Lane α).Holds (delivered ++ [x]) waiting := by
  refine ⟨?_, ?_, h.getElem?_iff, h.size_eq, h.distinct, ?_⟩
  · simp [h.ordered_eq]
  · intro k y hy
    rw [List.getElem?_append] at hy
    split_ifs at hy with hk
    · exact h.index_eq k y hy
    · obtain ⟨hlast, rfl⟩ := List.getElem?_eq_some_iff.mp hy
      rw [List.length_singleton] at hlast
      have hlast : k = delivered.length := by omega
      simp [hx, h.ordered_eq, hlast]
  · intro y hy
    have hnear := h.near y hy
    have hne : y.1.index.toNat ≠ l.ordered.toNat := fun heq => hmissing y hy (Counter.ext_toNat heq)
    have hlt := y.1.index.value.toNat_lt
    simp only [h.ordered_eq, Counter.next_ofNat, Counter.toNat_distanceFrom, Counter.toNat_ofNat]
      at hnear hne ⊢
    simp only [Counter.toNat] at hnear hne ⊢
    omega

/-- The message that is next in order goes out of the lane. -/
theorem take (h : l.Holds delivered (x :: waiting)) (hx : x.1.index = l.ordered) :
    let waiting' := l.waiting.erase l.ordered.value
    waiting'.size + 1 = l.waiting.size ∧
      ({ l with ordered := l.ordered.next, waiting := waiting' } : Lane α).Holds
        (delivered ++ [x]) waiting := by
  intro waiting'
  obtain ⟨hhead, hdistinct⟩ := List.pairwise_cons.mp h.distinct
  have hothers : ∀ y ∈ waiting, y.1.index ≠ l.ordered := fun y hy heq =>
    hhead y hy (hx.trans heq.symm)
  have hsize : waiting'.size + 1 = l.waiting.size := by
    have hself := (h.getElem?_iff l.ordered.value x.1.item).mpr
      ⟨x, List.mem_cons_self, by rw [hx], rfl⟩
    have hcontains : l.waiting.contains l.ordered.value = true := by
      rw [Std.TreeMap.contains_eq_isSome_getElem?, hself]
      rfl
    have hpos := h.size_eq
    simp only [List.length_cons] at hpos
    simp only [waiting', Std.TreeMap.size_erase, if_pos hcontains]
    omega
  have herased : ({ l with waiting := waiting' } : Lane α).Holds delivered waiting := by
    refine ⟨h.ordered_eq, h.index_eq, ?_, ?_, hdistinct, ?_⟩
    · intro key a
      simp only [waiting', Std.TreeMap.getElem?_erase, Std.compare_eq_iff_eq]
      split_ifs with hkey
      · subst hkey
        simp only [false_iff, not_exists, not_and]
        exact fun y hy heq => absurd (congrArg Counter.mk heq) (hothers y hy)
      · rw [h.getElem?_iff]
        simp [hx, hkey]
    · have hlength := h.size_eq
      simp only [List.length_cons] at hlength
      exact Nat.succ.inj (hsize.trans hlength)
    · exact fun y hy => h.near y (List.mem_cons_of_mem x hy)
  exact ⟨hsize, herased.deliver hx hothers⟩

/-- Releasing goes on until the next message is missing. -/
theorem releaseWith {fuel : Nat} (h : l.Holds delivered waiting) (hfuel : l.waiting.size ≤ fuel) :
    ∃ followers rest, followers ++ rest ~ waiting ∧
      (l.releaseWith fuel).1 = followers.map (·.1.item) ∧
      (l.releaseWith fuel).2.Rests (delivered ++ followers) rest := by
  induction fuel generalizing l delivered waiting with
  | zero =>
    have hempty : l.waiting.isEmpty = true := by
      rw [Std.TreeMap.isEmpty_eq_size_eq_zero]
      simpa using hfuel
    have hnone := Std.TreeMap.getElem?_of_isEmpty hempty (a := l.ordered.value)
    exact ⟨[], waiting, List.Perm.refl _, rfl, by rwa [List.append_nil], hnone⟩
  | succ n ih =>
    rw [Lane.releaseWith]
    cases hnext : l.waiting[l.ordered.value]? with
    | none => exact ⟨[], waiting, List.Perm.refl _, rfl, by rwa [List.append_nil], hnext⟩
    | some a =>
      obtain ⟨x, hx, hkey, rfl⟩ := (h.getElem?_iff _ a).mp hnext
      obtain ⟨front, back, rfl⟩ := List.append_of_mem hx
      obtain ⟨hsize, htaken⟩ := (h.perm List.perm_middle).take (congrArg Counter.mk hkey)
      obtain ⟨followers, rest, hperm, hitems, hrests⟩ :=
        ih htaken (Nat.le_of_succ_le_succ (Nat.le_trans (Nat.le_of_eq hsize) hfuel))
      refine ⟨x :: followers, rest, (hperm.cons x).trans List.perm_middle.symm, ?_, ?_⟩
      · simp [hitems]
      · simpa using hrests

theorem release (h : l.Holds delivered waiting) :
    ∃ followers rest, followers ++ rest ~ waiting ∧
      l.release.1 = followers.map (·.1.item) ∧ l.release.2.Rests (delivered ++ followers) rest :=
  h.releaseWith (Nat.le_refl _)

end Holds

/-- A message that is ahead, and of whose index none is in the lane, begins to wait. -/
theorem Rests.wait (h : l.Rests delivered waiting) (hnext : x.1.index ≠ l.ordered)
    (hfresh : ¬x.1.index.isOlderThan l.ordered = true)
    (hmissing : l.waiting[x.1.index.value]? = none) :
    ({ l with waiting := l.waiting.insert x.1.index.value x.1.item } : Lane α).Rests delivered
      (x :: waiting) := by
  have hne := h.ne_of_missing hmissing
  refine ⟨⟨h.ordered_eq, h.index_eq, ?_, ?_, ?_, ?_⟩, ?_⟩
  · intro key a
    simp only [Std.TreeMap.getElem?_insert, Std.compare_eq_iff_eq, List.exists_mem_cons_iff]
    split_ifs with hkey
    · have hothers : ¬∃ y ∈ waiting, y.1.index.value = key ∧ y.1.item = a := by
        rintro ⟨y, hy, heq, -⟩
        exact hne y hy (congrArg Counter.mk (heq.trans hkey.symm))
      simp [hkey, hothers]
    · simp [hkey, h.getElem?_iff]
  · have hcontains : l.waiting.contains x.1.index.value ≠ true := by
      simp [Std.TreeMap.contains_eq_isSome_getElem?, hmissing]
    simp [Std.TreeMap.size_insert, hcontains, h.size_eq]
  · exact List.pairwise_cons.mpr ⟨fun y hy heq => hne y hy heq.symm, h.distinct⟩
  · apply List.forall_mem_cons.mpr ⟨?_, h.near⟩
    have hapart : x.1.index.toNat ≠ l.ordered.toNat := fun heq => hnext (Counter.ext_toNat heq)
    have hlt := x.1.index.value.toNat_lt
    have hlt' := l.ordered.value.toNat_lt
    rw [Counter.isOlderThan_iff] at hfresh
    simp only [Counter.toNat_distanceFrom, Counter.toNat] at hfresh hapart ⊢
    omega
  · simp only [Std.TreeMap.getElem?_insert, Std.compare_eq_iff_eq]
    rw [if_neg fun hkey => hnext (congrArg Counter.mk hkey)]
    exact h.next_missing

/-- One call on a lane. The message goes out, perhaps with others that waited for it, or it begins to
wait, or it is stale and changes nothing. -/
theorem Rests.acceptOrdered (h : l.Rests delivered waiting) {l' : Lane α}
    (hx : l.acceptOrdered x.1.index x.1.item = (x.1.answer, l')) :
    ∃ released waiting', x.1.delivered = released.map (·.1.item) ∧
      l'.Rests (delivered ++ released) waiting' ∧
      released ++ waiting' ++ [x].filter (·.1.answer.isStale) ~ x :: waiting ∧
      ∀ followers, x.1.answer = .inOrder followers → released.length = 1 + followers.length := by
  rw [Lane.acceptOrdered] at hx
  rw [Call.delivered]
  split_ifs at hx with hnext hstale
  · have hmissing := h.ne_of_missing h.next_missing
    obtain ⟨followers, rest, hperm, hitems, hrests⟩ := (h.deliver hnext hmissing).release
    generalize ({ l with ordered := l.ordered.next } : Lane α).release = result at hx hitems hrests
    obtain ⟨items, l₁⟩ := result
    obtain ⟨hanswer, rfl⟩ := Prod.mk.inj hx
    obtain rfl : items = followers.map (·.1.item) := hitems
    refine ⟨x :: followers, rest, ?_, by simpa using hrests, ?_, ?_⟩
    · simp [← hanswer, OrderedArrival.delivered]
    · simpa [← hanswer, OrderedArrival.isStale] using hperm
    · simp [← hanswer, Nat.add_comm]
  · obtain ⟨hanswer, rfl⟩ := Prod.mk.inj hx
    refine ⟨[], waiting, ?_, by rwa [List.append_nil], ?_, ?_⟩
    · simp [← hanswer, OrderedArrival.delivered]
    · simp [← hanswer, OrderedArrival.isStale]
    · simp [← hanswer]
  · obtain ⟨hanswer, rfl⟩ := Prod.mk.inj hx
    obtain ⟨hfresh, hmissing⟩ := not_or.mp (mt Bool.or_eq_true_iff.mpr hstale)
    rw [Std.TreeMap.contains_eq_isSome_getElem?, Option.isSome_iff_ne_none, not_not] at hmissing
    refine ⟨[], x :: waiting, ?_, ?_, ?_, ?_⟩
    · simp [← hanswer, OrderedArrival.delivered]
    · simpa using h.wait hnext hfresh hmissing
    · simp [← hanswer, OrderedArrival.isStale]
    · simp [← hanswer]

end Lane

namespace Lanes

def submit (t : Lanes α) (x : Submission α) : Call α × Lanes α :=
  let (answer, t') := t.acceptOrdered x.channel x.index x.item
  ({ x with answer }, t')

/-- Hands in several messages, whatever their channels. -/
def submitAll (t : Lanes α) : List (Submission α) → List (Call α) × Lanes α
  | [] => ([], t)
  | x :: xs =>
    let (call, t') := t.submit x
    let (calls, t') := t'.submitAll xs
    (call :: calls, t')

theorem map_toSubmission_submitAll (t : Lanes α) (xs : List (Submission α)) :
    (t.submitAll xs).1.map Call.toSubmission = xs := by
  induction xs generalizing t with
  | nil => rfl
  | cons x xs ih =>
    have hfirst : (t.submit x).1.toSubmission = x := rfl
    simp [submitAll, ih, hfirst]

variable {t t' : Lanes α} {x : Submission α} {c : Channel}

theorem get_submit_of_ne (hc : x.channel ≠ c) : (t.submit x).2.get c = t.get c := by
  simp [submit, Lanes.acceptOrdered, hc.symm]

theorem acceptOrdered_get (hc : x.channel = c) :
    (t.get c).acceptOrdered x.index x.item = ((t.submit x).1.answer, (t.submit x).2.get c) := by
  simp [submit, Lanes.acceptOrdered, hc]

/-- What a channel answers and becomes depends on its own lane and on its own messages only. -/
theorem submitAll_congr (h : t.get c = t'.get c) (xs : List (Submission α)) :
    (t.submitAll xs).1.filter (·.channel = c) = (t'.submitAll (xs.filter (·.channel = c))).1 ∧
      (t.submitAll xs).2.get c = (t'.submitAll (xs.filter (·.channel = c))).2.get c := by
  induction xs generalizing t t' with
  | nil => exact ⟨rfl, h⟩
  | cons x xs ih =>
    have hkept : (t.submit x).1.channel = x.channel := rfl
    by_cases hc : x.channel = c
    · have hanswer := acceptOrdered_get (t := t) hc
      rw [h, acceptOrdered_get (t := t') hc] at hanswer
      obtain ⟨hanswer, hlane⟩ := Prod.mk.inj hanswer
      have hcall : (t.submit x).1 = (t'.submit x).1 := congrArg (Call.mk x) hanswer.symm
      obtain ⟨hcalls, hget⟩ := ih hlane.symm
      have hown : (t'.submit x).1.channel = c := hc
      simp [submitAll, hc, hcall, hown, hcalls, hget]
    · obtain ⟨hcalls, hget⟩ := ih ((get_submit_of_ne hc).trans h)
      simp [submitAll, hc, hkept, hcalls, hget]

/-- Every call on the channel was delivered once, waits, or was stale. -/
structure Accounts (t : Lanes α) (c : Channel) (calls : List (Call α))
    (delivered waiting : List (Call α × Nat)) : Prop where
  rests : (t.get c).Rests delivered waiting
  items_eq : delivered.map (·.1.item) = Call.deliveredOn c calls
  perm : delivered ++ waiting ++ (Call.numberedOn c calls).filter (·.1.answer.isStale) ~
    Call.numberedOn c calls

theorem accounts_initial (c : Channel) : (initial : Lanes α).Accounts c [] [] [] := by
  refine ⟨?_, rfl, List.Perm.refl _⟩
  rw [initial, PerChannel.get_replicate]
  exact Lane.rests_new

/-- One more call turns up among those that are delivered, that wait or that are stale. -/
theorem perm_concat {β : Type} {delivered waiting stale released waiting' stale' calls : List β}
    {call : β} (h : delivered ++ waiting ++ stale ~ calls)
    (hstep : released ++ waiting' ++ stale' ~ call :: waiting) :
    delivered ++ released ++ waiting' ++ (stale ++ stale') ~ calls ++ [call] :=
  calc delivered ++ released ++ waiting' ++ (stale ++ stale')
    _ ~ delivered ++ released ++ waiting' ++ (stale' ++ stale) := List.perm_append_comm.append_left _
    _ = delivered ++ (released ++ waiting' ++ stale' ++ stale) := by simp
    _ ~ delivered ++ (call :: waiting ++ stale) := (hstep.append_right _).append_left _
    _ ~ call :: (delivered ++ waiting ++ stale) := by simp [List.perm_middle]
    _ ~ call :: calls := h.cons call
    _ ~ calls ++ [call] := (List.perm_append_singleton call calls).symm

/-- A call that is in order takes out of the lane what it delivers besides its own message. -/
theorem Accounts.submit {calls : List (Call α)} {delivered waiting : List (Call α × Nat)}
    (h : t.Accounts c calls delivered waiting) (x : Submission α) :
    ∃ released waiting', (t.submit x).2.Accounts c (calls ++ [(t.submit x).1])
        (delivered ++ released) waiting' ∧
      ∀ followers, x.channel = c → (t.submit x).1.answer = .inOrder followers →
        waiting'.length + followers.length = waiting.length := by
  have hkept : (t.submit x).1.channel = x.channel := rfl
  by_cases hc : x.channel = c
  · obtain ⟨released, waiting', hdelivered, hrests, hperm, hcount⟩ :=
      h.rests.acceptOrdered (x := ((t.submit x).1, calls.length)) (acceptOrdered_get hc)
    refine ⟨released, waiting', ⟨hrests, ?_, ?_⟩, ?_⟩
    · rw [List.map_append, h.items_eq, ← hdelivered, Call.deliveredOn_concat, if_pos (hkept.trans hc)]
    · rw [Call.numberedOn_concat, if_pos (hkept.trans hc), List.filter_append]
      exact perm_concat h.perm hperm
    · intro followers _ hinOrder
      have hlength := hperm.length_eq
      simp [hinOrder, OrderedArrival.isStale, hcount followers hinOrder] at hlength
      omega
  · refine ⟨[], waiting, ⟨?_, ?_, ?_⟩, fun _ hc' => absurd hc' hc⟩
    · simpa [get_submit_of_ne hc] using h.rests
    · simpa [Call.deliveredOn_concat, hkept, hc] using h.items_eq
    · simpa [Call.numberedOn_concat, hkept, hc] using h.perm

theorem Accounts.submitAll {calls : List (Call α)} {delivered waiting : List (Call α × Nat)}
    (h : t.Accounts c calls delivered waiting) (xs : List (Submission α)) : ∃ delivered waiting,
    (t.submitAll xs).2.Accounts c (calls ++ (t.submitAll xs).1) delivered waiting := by
  induction xs generalizing t calls delivered waiting with
  | nil => exact ⟨delivered, waiting, by simpa [Lanes.submitAll] using h⟩
  | cons x xs ih =>
    obtain ⟨released, waiting', h', -⟩ := h.submit x
    simpa [Lanes.submitAll] using ih h'

/-- The lanes under any ordered messages. On a channel every message that was handed in has been
delivered once, or waits, or was stale; what is delivered is in the order of the indices, which wrap, and
what waits is ahead by half the range or less. A message that comes in order takes out of the lane
what it delivers besides itself. What a channel does depends on its own messages only. -/
theorem any_arrivals_in_order (xs : List (Submission α)) (c : Channel) :
    let t := ((initial : Lanes α).submitAll xs).2
    let calls := ((initial : Lanes α).submitAll xs).1
    let own := (initial : Lanes α).submitAll (xs.filter (·.channel = c))
    calls.map Call.toSubmission = xs ∧
      (∃ delivered waiting : List (Call α × Nat),
        delivered ++ waiting ++ (Call.numberedOn c calls).filter (·.1.answer.isStale) ~
          Call.numberedOn c calls ∧
        delivered.map (·.1.item) = Call.deliveredOn c calls ∧
        (∀ (k : Nat) (x : Call α × Nat), delivered[k]? = some x → x.1.index = .ofNat k) ∧
        (t.get c).ordered = .ofNat delivered.length ∧
        (t.get c).waiting.size = waiting.length ∧
        (∀ (key : UInt16) a, (t.get c).waiting[key]? = some a ↔
          ∃ x ∈ waiting, x.1.index.value = key ∧ x.1.item = a) ∧
        ∀ x ∈ waiting, 1 ≤ (x.1.index.distanceFrom (t.get c).ordered).toNat ∧
          (x.1.index.distanceFrom (t.get c).ordered).toNat ≤ 32768) ∧
      (∀ x followers, x.channel = c → (t.submit x).1.answer = .inOrder followers →
        (t.submit x).1.delivered = x.item :: followers ∧
          ((t.submit x).2.get c).waiting.size + followers.length = (t.get c).waiting.size) ∧
      calls.filter (·.channel = c) = own.1 ∧ t.get c = own.2.get c := by
  intro t calls own
  obtain ⟨delivered, waiting, h⟩ := (accounts_initial c).submitAll xs
  refine ⟨map_toSubmission_submitAll _ xs, ⟨delivered, waiting, h.perm, h.items_eq, h.rests.index_eq,
    h.rests.ordered_eq, h.rests.size_eq, h.rests.getElem?_iff, fun x hx => ⟨?_, h.rests.near x hx⟩⟩,
    ?_, submitAll_congr rfl xs⟩
  · have hne := h.rests.ne_of_missing h.rests.next_missing x hx
    have hapart : x.1.index.toNat ≠ (t.get c).ordered.toNat := fun heq => hne (Counter.ext_toNat heq)
    have hlt := x.1.index.value.toNat_lt
    have hlt' := (t.get c).ordered.value.toNat_lt
    simp only [Counter.toNat_distanceFrom, Counter.toNat] at hapart ⊢
    omega
  · intro x followers hc hinOrder
    obtain ⟨released, waiting', h', hcount⟩ := h.submit x
    have hlength := hcount followers hc hinOrder
    rw [← h.rests.size_eq, ← h'.rests.size_eq] at hlength
    refine ⟨?_, hlength⟩
    rw [Call.delivered, hinOrder]
    rfl

end Lanes
end ReliableDatagram
