import ReliableDatagram.Proofs.Sending.Deadlines

/-!
# Packets in flight as a plain queue

A plain queue is a list of packets with their deadlines, in the order in which they were pushed, and nothing
else: no numbers of packets that are gone, and nothing to skip. A resend queue gives the answers of a plain
queue through all its operations (`answers_eq_plain`), as long as no number is pushed that its order still
lists. What the order lists then, it lists once, so the packets stand in line in it.
-/
namespace ReliableDatagram

namespace ResendQueue

/-- All that is done to the packets in flight. -/
inductive Operation where
  | push (p : Packet) (due : Instant)
  | acknowledge (s : SequenceNumber)
  | peekDue (now : Instant)
  | popFront
  | dropSuperseded (channel : Nat) (index : OrderingIndex)
  | clear
  deriving DecidableEq, Repr

inductive Answer where
  | done
  | packet (p? : Option Packet)
  | count (n : Nat)
  deriving DecidableEq, Repr

def operate (q : ResendQueue) : Operation → Answer × ResendQueue
  | .push p due => (.done, q.push p due)
  | .acknowledge s => (.packet (q.acknowledge s).1, (q.acknowledge s).2)
  | .peekDue now => (.packet (q.peekDue now).1, (q.peekDue now).2)
  | .popFront => (.packet q.popFront.1, q.popFront.2)
  | .dropSuperseded channel index =>
    (.count (q.dropSuperseded channel index).1, (q.dropSuperseded channel index).2)
  | .clear => (.done, empty)

/-- The queue after some operations. -/
def after (q : ResendQueue) (ops : List Operation) : ResendQueue :=
  ops.foldl (fun q op => (q.operate op).2) q

/-- A number that is pushed is not in the order. -/
def Admits (q : ResendQueue) : Operation → Prop
  | .push p _ => p.sequence ∉ q.order
  | _ => True

instance (q : ResendQueue) : DecidablePred q.Admits
  | .push p _ => inferInstanceAs (Decidable (p.sequence ∉ q.order))
  | .acknowledge _ | .peekDue _ | .popFront | .dropSuperseded .. | .clear =>
    inferInstanceAs (Decidable True)

/-- The queue admits every operation when its turn comes. -/
def AdmitsAll (q : ResendQueue) : List Operation → Prop
  | [] => True
  | op :: ops => q.Admits op ∧ (q.operate op).2.AdmitsAll ops

instance decidableAdmitsAll : (q : ResendQueue) → (ops : List Operation) → Decidable (q.AdmitsAll ops)
  | _, [] => inferInstanceAs (Decidable True)
  | q, op :: ops =>
    have := decidableAdmitsAll (q.operate op).2 ops
    inferInstanceAs (Decidable (q.Admits op ∧ (q.operate op).2.AdmitsAll ops))

/-- The numbers pushed since the queue was cleared, when `numbers` were pushed before. -/
def noted (numbers : List SequenceNumber) : Operation → List SequenceNumber
  | .push p _ => numbers ++ [p.sequence]
  | .clear => []
  | _ => numbers

/-- What a queue answers to some operations, and what `look` sees of it after each. -/
def answers {σ τ : Type} (operate : σ → Operation → Answer × σ) (look : σ → τ) :
    σ → List Operation → List (Answer × τ)
  | _, [] => []
  | q, op :: ops =>
    ((operate q op).1, look (operate q op).2) :: answers operate look (operate q op).2 ops

end ResendQueue

namespace PlainQueue

/-- A reliable sequenced packet of the channel with an older index. -/
def isOlder (channel : Nat) (index : OrderingIndex) (e : ResendEntry) : Bool :=
  e.packet.reliability = .reliableSequenced &&
    e.packet.place.any fun place => place.channel = channel && place.index.isOlderThan index

def operate (l : List ResendEntry) : ResendQueue.Operation → ResendQueue.Answer × List ResendEntry
  | .push p due => (.done, l ++ [{ packet := p, due }])
  | .acknowledge s =>
    (.packet ((l.find? (·.packet.sequence = s)).map (·.packet)), l.eraseP (·.packet.sequence = s))
  | .peekDue now => (.packet ((l.head?.filter (·.due ≤ now)).map (·.packet)), l)
  | .popFront => (.packet (l.head?.map (·.packet)), l.tail)
  | .dropSuperseded channel index =>
    (.count (l.countP (isOlder channel index)), l.filter (!isOlder channel index ·))
  | .clear => (.done, [])

theorem isOlder_eq (channel : Nat) (index : OrderingIndex) (e : ResendEntry) :
    isOlder channel index e = ResendQueue.isSuperseded channel index e.packet := by
  rw [isOlder, ResendQueue.isSuperseded]
  cases e.packet.place <;> simp

/-- One number is that of one packet at most. -/
theorem filter_eq_eraseP {l : List ResendEntry} (h : (l.map (·.packet.sequence)).Nodup)
    (s : SequenceNumber) : l.filter (·.packet.sequence ≠ s) = l.eraseP (·.packet.sequence = s) := by
  induction l with
  | nil => rfl
  | cons e l ih =>
    obtain ⟨hnew, hrest⟩ := List.nodup_cons.mp h
    by_cases he : e.packet.sequence = s
    · rw [List.filter_cons_of_neg (by simp [he]), List.eraseP_cons_of_pos (by simp [he])]
      refine List.filter_eq_self.mpr fun x hx => decide_eq_true fun hxs => hnew ?_
      exact List.mem_map.mpr ⟨x, hx, hxs.trans he.symm⟩
    · rw [List.filter_cons_of_pos (by simp [he]), List.eraseP_cons_of_neg (by simp [he]), ih hrest]

end PlainQueue

namespace ResendQueue

variable {q : ResendQueue} {p : Packet} {op : Operation}

/-- The order lists no number twice, and the packets as they were pushed. -/
structure Straight (q : ResendQueue) : Prop where
  inLine : q.InLine
  nodup : q.order.Nodup

namespace Straight

theorem empty : ResendQueue.empty.Straight := ⟨List.Sublist.refl _, List.nodup_nil⟩

theorem shrink (h : q.Straight) {q' : ResendQueue} (hq : q.Shrinks q') : q'.Straight :=
  ⟨hq.inLine h.inLine, h.nodup.sublist hq.order⟩

theorem push (h : q.Straight) (hnew : p.sequence ∉ q.order) (due : Instant) :
    (q.push p due).Straight := by
  refine ⟨h.inLine.push p due, ?_⟩
  rw [ResendQueue.push, ← List.concat_eq_append]
  exact h.nodup.concat hnew

theorem operate (h : q.Straight) (hop : q.Admits op) : (q.operate op).2.Straight := by
  cases op with
  | push p due => exact h.push hop due
  | acknowledge s => exact h.shrink (.acknowledge q s)
  | peekDue now => exact h.shrink (.peekDue q now)
  | popFront => exact h.shrink (.popFront q)
  | dropSuperseded channel index => exact h.shrink (.dropSuperseded q channel index)
  | clear => exact .empty

theorem eraseP_entries (h : q.Straight) (s : SequenceNumber) :
    q.entries.filter (·.packet.sequence ≠ s) = q.entries.eraseP (·.packet.sequence = s) :=
  PlainQueue.filter_eq_eraseP (h.nodup.sublist h.inLine) s

/-- A new number is added to the packets as they are. -/
theorem entries_push (h : q.Straight) (hnew : p.sequence ∉ q.order) (due : Instant) :
    (q.push p due).entries = q.entries ++ [{ packet := p, due }] := by
  have hkept : (q.erase p.sequence).entries = q.entries := by
    refine List.filter_eq_self.mpr fun e he => decide_eq_true fun hs => hnew (h.inLine.subset ?_)
    exact List.mem_map.mpr ⟨e, he, hs⟩
  rw [ResendQueue.push, hkept]

theorem popFront_eq (h : q.Straight) :
    q.popFront.1 = q.entries.head?.map (·.packet) ∧ q.popFront.2.entries = q.entries.tail := by
  rw [ResendQueue.popFront]
  rcases skipStale_cases h.inLine h.nodup with
    ⟨hentries, horder⟩ | ⟨first, rest, order, hentries, horder, hfind⟩
  · have hkept : q.skipStale.entries = [] := hentries
    simp [hentries, horder, hkept]
  · have htail : (q.skipStale.erase first.packet.sequence).entries = rest := by
      show q.entries.filter _ = rest
      rw [h.eraseP_entries, hentries, List.eraseP_cons_of_pos (by simp)]
    simp [hentries, horder, hfind, htail]

/-- The number of a packet that was taken is free again. -/
theorem not_mem_order_popFront (h : q.Straight) (hpop : q.popFront.1 = some p) :
    p.sequence ∉ q.popFront.2.order := by
  rw [ResendQueue.popFront] at hpop ⊢
  rcases skipStale_cases h.inLine h.nodup with
    ⟨hentries, horder⟩ | ⟨first, rest, order, hentries, horder, hfind⟩
  · simp [horder] at hpop
  · have hnodup := (h.shrink (.skipStale q)).nodup
    rw [horder] at hnodup
    simp only [horder, hfind, Option.map_some, Option.some.injEq] at hpop ⊢
    rw [← hpop]
    exact (List.nodup_cons.mp hnodup).1

/-- One operation, and the same operation on the packets as a plain queue. -/
theorem operate_eq_plain (h : q.Straight) (hop : q.Admits op) :
    PlainQueue.operate q.entries op = ((q.operate op).1, (q.operate op).2.entries) := by
  cases op with
  | push p due =>
    rw [ResendQueue.operate, h.entries_push hop]
    rfl
  | acknowledge s =>
    have hanswer : (q.acknowledge s).1 = (q.find? s).map (·.packet) := by
      rw [ResendQueue.acknowledge]
      cases q.find? s <;> rfl
    rw [ResendQueue.operate, entries_acknowledge, hanswer, h.eraseP_entries]
    rfl
  | peekDue now =>
    rw [ResendQueue.operate, peekDue_fst h.inLine h.nodup, peekDue_snd]
    rfl
  | popFront =>
    rw [ResendQueue.operate, h.popFront_eq.1, h.popFront_eq.2]
    rfl
  | dropSuperseded channel index =>
    have hcount : (q.dropSuperseded channel index).1 =
        q.entries.countP (isSuperseded channel index ·.packet) := by
      have hsplit := q.entries.length_eq_countP_add_countP (isSuperseded channel index ·.packet)
      simp only [decide_not, Bool.decide_eq_true] at hsplit
      show q.entries.length - (q.entries.filter _).length = _
      rw [← List.countP_eq_length_filter]
      omega
    have holder : PlainQueue.isOlder channel index = (isSuperseded channel index ·.packet) :=
      funext (PlainQueue.isOlder_eq channel index)
    rw [ResendQueue.operate, entries_dropSuperseded, hcount, PlainQueue.operate, holder]
  | clear => rfl

end Straight

/-- The order holds numbers that were pushed since the queue was cleared, and no others. -/
theorem order_operate_subset {numbers : List SequenceNumber} (h : q.order ⊆ numbers) (op : Operation) :
    (q.operate op).2.order ⊆ noted numbers op := by
  cases op with
  | push p due => exact List.append_subset.mpr ⟨fun s hs => List.mem_append_left _ (h hs), by simp [noted]⟩
  | acknowledge s => exact fun _ hs => h ((Shrinks.acknowledge q s).order.subset hs)
  | peekDue now => exact fun _ hs => h ((Shrinks.peekDue q now).order.subset hs)
  | popFront => exact fun _ hs => h ((Shrinks.popFront q).order.subset hs)
  | dropSuperseded channel index =>
    exact fun _ hs => h ((Shrinks.dropSuperseded q channel index).order.subset hs)
  | clear => exact List.nil_subset _

theorem order_after_subset {numbers : List SequenceNumber} (h : q.order ⊆ numbers) (ops : List Operation) :
    (q.after ops).order ⊆ ops.foldl noted numbers := by
  induction ops generalizing q numbers with
  | nil => exact h
  | cons op ops ih => exact ih (order_operate_subset h op)

namespace Straight

theorem after {ops : List Operation} (h : q.Straight) (hops : q.AdmitsAll ops) : (q.after ops).Straight := by
  induction ops generalizing q with
  | nil => exact h
  | cons op ops ih => exact ih (h.operate hops.1) hops.2

theorem answers_eq {ops : List Operation} (h : q.Straight) (hops : q.AdmitsAll ops) {τ : Type}
    (look : List ResendEntry → τ) :
    answers ResendQueue.operate (fun q => look q.entries) q ops =
      answers PlainQueue.operate look q.entries ops := by
  induction ops generalizing q with
  | nil => rfl
  | cons op ops ih => rw [answers, answers, h.operate_eq_plain hops.1, ih (h.operate hops.1) hops.2]

end Straight

/-- Packets in flight are a plain queue. Whatever is done to a new resend queue, as long as no number is pushed
that is in its order, it gives the answers of a plain queue, and has as many packets and payload bits in flight
after each. A number is not in the order if it was not pushed since the queue was cleared, or if it is that of
the packet that was just taken. -/
theorem answers_eq_plain {ops : List Operation} (hops : empty.AdmitsAll ops) :
    answers operate (fun q => (q.length, q.pendingBits)) empty ops =
        answers PlainQueue.operate (fun l => (l.length, total (·.packet.bitLength) l)) [] ops ∧
      (∀ s, s ∉ ops.foldl noted [] → s ∉ (empty.after ops).order) ∧
      ∀ p, (empty.after ops).popFront.1 = some p → p.sequence ∉ (empty.after ops).popFront.2.order := by
  refine ⟨?_, fun s hs hlisted => ?_, fun p => (Straight.empty.after hops).not_mem_order_popFront⟩
  · exact Straight.empty.answers_eq hops fun l => (l.length, total (·.packet.bitLength) l)
  · exact hs (order_after_subset (List.nil_subset []) ops hlisted)

/-- A packet that was acknowledged is skipped; one that was taken is pushed again under its number, behind the
others; an older one is dropped; and a number comes back after everything was cleared. -/
theorem answers_of_pushedAgain :
    let packet (s : UInt16) (r : Reliability) (index : UInt16) : Packet :=
      { sequence := ⟨s⟩, reliability := r, place := some ⟨2, ⟨index⟩⟩, part := none, priority := .medium
        bitLength := 8, payload := [7] }
    let first := packet 1 .reliableOrdered 0
    let older := packet 2 .reliableSequenced 4
    let newer := packet 3 .reliableSequenced 7
    let ops : List Operation := [.push first 10, .push older 10, .push newer 20, .acknowledge ⟨1⟩,
      .peekDue 15, .popFront, .push older 30, .peekDue 15, .dropSuperseded 2 ⟨6⟩, .peekDue 25, .clear,
      .push first 5, .popFront]
    empty.AdmitsAll ops ∧
      answers operate (fun q => (q.length, q.pendingBits)) empty ops =
        [(.done, 1, 8), (.done, 2, 16), (.done, 3, 24), (.packet (some first), 2, 16),
          (.packet (some older), 2, 16), (.packet (some older), 1, 8), (.done, 2, 16), (.packet none, 2, 16),
          (.count 1, 1, 8), (.packet (some newer), 1, 8), (.done, 0, 0), (.done, 1, 8),
          (.packet (some first), 0, 0)] := by
  intro packet first older newer ops
  have hops : empty.AdmitsAll ops := by decide
  refine ⟨hops, ?_⟩
  rw [(answers_eq_plain hops).1]
  rfl

end ResendQueue
end ReliableDatagram
