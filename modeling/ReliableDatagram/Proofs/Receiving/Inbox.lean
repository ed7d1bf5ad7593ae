import ReliableDatagram.Proofs.Receiving.DuplicateLog
import ReliableDatagram.Proofs.Receiving.Fragments
import ReliableDatagram.Proofs.Receiving.LaneOrder
import ReliableDatagram.Session.Receive

/-!
# What a session has received

The `Inbox` of a session is all that arriving packets act on and all that decides what becomes of
them. `Inbox.Receives` is the invariant of a receiver. It ties the inbox to the shipments of the
sender, to the history of arrivals, and to the shipments `out` whose deliveries came out.
-/
namespace ReliableDatagram

/-- Shipments came out of a session: each of them once at most, and in order where that is promised. -/
structure Delivered (ms out : List Shipment) : Prop where
  nodup : out.Nodup
  subset : ∀ m ∈ out, m ∈ ms
  ordered : ∀ c : Channel,
    out.filter (Shipment.isOrderedOn c) <+: ms.filter (Shipment.isOrderedOn c)
  sequenced : ∀ c : Channel,
    (out.filter (Shipment.isSequencedOn c)).Sublist (ms.filter (Shipment.isSequencedOn c))

namespace Delivered

variable {ms out : List Shipment}

theorem nil (ms : List Shipment) : Delivered ms [] := by
  constructor <;> simp

theorem mono {ms' : List Shipment} (h : Delivered ms out) (hms : ms <+: ms') : Delivered ms' out where
  nodup := h.nodup
  subset m hm := hms.subset (h.subset m hm)
  ordered c := (h.ordered c).trans (hms.filter _)
  sequenced c := (h.sequenced c).trans (hms.filter _).sublist

theorem of_prefix {out' : List Shipment} (h : Delivered ms out) (hout : out' <+: out) :
    Delivered ms out' where
  nodup := h.nodup.sublist hout.sublist
  subset m hm := h.subset m (hout.subset hm)
  ordered c := (hout.filter _).trans (h.ordered c)
  sequenced c := (hout.filter _).sublist.trans (h.sequenced c)

end Delivered

structure Inbox where
  arrivals : ArrivalLog
  reassembler : Reassembler
  lanes : Lanes Delivery
  output : List Delivery
  /-- Packets that the reassembler refused, and malformed datagrams. -/
  invalid : Nat

def Session.inbox (s : Session) : Inbox :=
  { arrivals := s.arrivals
    reassembler := s.reassembler
    lanes := s.lanes
    output := s.output.toList
    invalid := s.counters.invalidMessagesReceived }

namespace Inbox

/-- What was seen of a shipment is somewhere: the complete message has come out or waits for its turn,
the fragments of an incomplete one are held. -/
structure Accounts (i : Inbox) (out : List Shipment) (seen : Set Nat) (m : Shipment) : Prop where
  whole : m.SeenIn seen → m ∈ out ∨ i.lanes.Waits m
  part : ¬m.SeenIn seen → ∀ j < m.size, m.first + j ∈ seen → i.reassembler.HoldsPart m j
  incomplete : ∀ j, i.reassembler.HoldsPart m j → ¬m.SeenIn seen

theorem Accounts.congr {i i' : Inbox} {out : List Shipment} {seen : Set Nat} {m : Shipment}
    (h : i.Accounts out seen m) (hlanes : i'.lanes = i.lanes)
    (hreassembler : i'.reassembler = i.reassembler) : i'.Accounts out seen m :=
  ⟨hlanes ▸ h.whole, hreassembler ▸ h.part, hreassembler ▸ h.incomplete⟩

/-- What was seen of a sequenced shipment: its channel has gone past it, or the fragment is held, unless
fragments were refused. -/
def AccountsSequenced (i : Inbox) (seen : Set Nat) (m : Shipment) : Prop :=
  ∀ j < m.size, m.first + j ∈ seen →
    i.lanes.IsPast m ∨ i.reassembler.HoldsPart m j ∨ m.splitId ≠ none ∧ i.invalid ≠ 0

namespace AccountsSequenced

variable {i i' : Inbox} {seen seen' : Set Nat} {m : Shipment} {j : Nat}

theorem of_past (h : i.lanes.IsPast m) : i.AccountsSequenced seen m := fun _ _ _ => Or.inl h

/-- Nothing more is seen of the shipment, and what is held of it is dropped only behind it. -/
theorem mono (h : i.AccountsSequenced seen m)
    (hseen : ∀ j < m.size, m.first + j ∈ seen' → m.first + j ∈ seen)
    (past : i.lanes.IsPast m → i'.lanes.IsPast m)
    (held : ∀ j, i.reassembler.HoldsPart m j → i'.lanes.IsPast m ∨ i'.reassembler.HoldsPart m j)
    (invalid : i.invalid ≤ i'.invalid) : i'.AccountsSequenced seen' m := by
  intro j hj hj'
  rcases h j hj (hseen j hj hj') with hpast | hheld | ⟨hsplit, hrefused⟩
  · exact Or.inl (past hpast)
  · exact (held j hheld).imp_right Or.inl
  · exact Or.inr (Or.inr ⟨hsplit, by omega⟩)

/-- A number is seen that belongs to another shipment. -/
theorem other (h : i.AccountsSequenced seen m) {ms : List Shipment} (hms : Manifest ms) (hm : m ∈ ms)
    {x : Shipment} (hx : x ∈ ms) {n : Nat} (hn : x.Owns n) (hne : m ≠ x)
    (past : i.lanes.IsPast m → i'.lanes.IsPast m)
    (held : ∀ j, i.reassembler.HoldsPart m j → i'.lanes.IsPast m ∨ i'.reassembler.HoldsPart m j)
    (invalid : i.invalid ≤ i'.invalid) : i'.AccountsSequenced (insert n seen) m := by
  refine h.mono (fun j hj hseen => Set.mem_of_mem_insert_of_ne hseen ?_) past held invalid
  rintro rfl
  exact hne (hms.eq_of_owns hm hx (Shipment.owns_add hj) hn)

/-- One more fragment is seen, and held. -/
theorem pending (h : i.AccountsSequenced seen m) (hlanes : i'.lanes = i.lanes)
    (hpart : i'.reassembler.HoldsPart m j)
    (hkept : ∀ k, i.reassembler.HoldsPart m k → i'.reassembler.HoldsPart m k)
    (invalid : i.invalid ≤ i'.invalid) : i'.AccountsSequenced (insert (m.first + j) seen) m := by
  intro k hk hseen
  rcases eq_or_ne k j with rfl | hkj
  · exact Or.inr (Or.inl hpart)
  · have hne : m.first + k ≠ m.first + j := by omega
    have hold := h.mono (fun _ _ => id) (fun hp => hlanes ▸ hp) (fun k hk => Or.inr (hkept k hk)) invalid
    exact hold k hk (Set.mem_of_mem_insert_of_ne hseen hne)

end AccountsSequenced

structure Receives (i : Inbox) (ms : List Shipment) (arrived : Arrivals) (seen : Set Nat)
    (returned : List Delivery) (out : List Shipment) : Prop where
  tracks : i.arrivals.Tracks (total Shipment.size ms) arrived seen
  holds : i.reassembler.Holds ms seen
  lanes : i.lanes.Keeps ms out seen
  output_eq : returned ++ i.output = out.map Shipment.delivery
  nodup : out.Nodup
  mem_out : ∀ m ∈ out, m ∈ ms ∧ m.SeenIn seen
  accounts : i.invalid = 0 → ∀ m ∈ ms, m.reliability.isSequenced = false → i.Accounts out seen m
  sequenced : ∀ m ∈ ms, m.reliability.isSequenced = true → i.AccountsSequenced seen m
  invalid_eq : i.reassembler.HasRoom ms → i.invalid = 0

theorem receives_initial (config : Config) (now : Instant) :
    (Session.new config now).inbox.Receives [] [] ∅ [] [] where
  tracks := ArrivalLog.tracks_initial _
  holds := Reassembler.holds_initial ..
  lanes := Lanes.keeps_initial ..
  output_eq := rfl
  nodup := List.nodup_nil
  mem_out := by simp
  accounts := by simp
  sequenced := by simp
  invalid_eq _ := rfl

namespace Receives

variable {i : Inbox} {ms : List Shipment} {arrived : Arrivals} {seen : Set Nat}
  {returned : List Delivery} {out : List Shipment} {m : Shipment}

theorem delivered (h : i.Receives ms arrived seen returned out) : Delivered ms out where
  nodup := h.nodup
  subset m hm := (h.mem_out m hm).1
  ordered c := by
    obtain ⟨k, -, hout⟩ := h.lanes.ordered c
    rw [hout]
    exact List.take_prefix ..
  sequenced c := by
    obtain ⟨k, -, -, hout⟩ := h.lanes.sequenced c
    exact hout.trans (List.take_sublist ..)

/-- Nothing can have been seen of a message that is accepted only now. -/
theorem unseen_of_follows (h : i.Receives ms arrived seen returned out) (hm : m.Follows ms) {n : Nat}
    (hn : m.Owns n) : n ∉ seen := by
  intro hseen
  have hlt := h.tracks.seen_lt n hseen
  have hend := h.tracks.end_le
  have hfirst := hm.first_eq
  have hge := hn.1
  omega

/-- The sender has accepted one more message. -/
theorem snoc (h : i.Receives ms arrived seen returned out) (hm : m.Follows ms) :
    i.Receives (ms ++ [m]) arrived seen returned out where
  tracks := h.tracks.mono (by simp)
  holds := h.holds.mono (by simp +contextual) (by simp)
  lanes := h.lanes.mono (by simp) (by simp)
  output_eq := h.output_eq
  nodup := h.nodup
  mem_out x hx := ⟨by simp [(h.mem_out x hx).1], (h.mem_out x hx).2⟩
  accounts hi x hx hq := by
    rcases List.mem_append.mp hx with hx | hx
    · exact h.accounts hi x hx hq
    · obtain rfl : x = m := by simpa using hx
      have hnot : ¬x.SeenIn seen := fun hall =>
        h.unseen_of_follows hm x.owns_first (hall _ x.owns_first)
      exact ⟨fun hall => absurd hall hnot,
        fun _ j hj hseen => absurd hseen (h.unseen_of_follows hm (Shipment.owns_add hj)),
        fun _ _ => hnot⟩
  sequenced x hx hq := by
    rcases List.mem_append.mp hx with hx | hx
    · exact h.sequenced x hx hq
    · obtain rfl : x = m := by simpa using hx
      exact fun j hj hseen => absurd hseen (h.unseen_of_follows hm (Shipment.owns_add hj))
  invalid_eq hroom := h.invalid_eq (hroom.of_subset (by simp +contextual))

/-- One number more is seen, and the shipments `rs` come out. What is to be shown of its own shipment
is `self`; the others keep what they have. -/
theorem step (h : i.Receives ms arrived seen returned out) (hms : Manifest ms) (hm : m ∈ ms) {n : Nat}
    (hn : m.Owns n) {i' : Inbox} {arrived' : Arrivals} {rs : List Shipment}
    (tracks : i'.arrivals.Tracks (total Shipment.size ms) arrived' (insert n seen))
    (holds : i'.reassembler.Holds ms (insert n seen)) (lanes : i'.lanes.Keeps ms (out ++ rs) (insert n seen))
    (output : i'.output = i.output ++ rs.map Shipment.delivery) (nodup : rs.Nodup)
    (mem : ∀ x ∈ rs, x ∈ ms ∧ x ∉ out ∧ x.SeenIn (insert n seen)) (invalid : i.invalid ≤ i'.invalid)
    (room : i'.reassembler.HasRoom ms → i.reassembler.HasRoom ms ∧ i'.invalid = i.invalid)
    (waits : ∀ x ∈ ms, i.lanes.Waits x → x ∈ rs ∨ i'.lanes.Waits x)
    (others : ∀ x ∈ ms, x ≠ m → x.reliability.isSequenced = false →
      ∀ k, i'.reassembler.HoldsPart x k ↔ i.reassembler.HoldsPart x k)
    (self : m.reliability.isSequenced = false → i'.invalid = 0 → i.Accounts out seen m →
      i'.Accounts (out ++ rs) (insert n seen) m)
    (sequenced : ∀ x ∈ ms, x.reliability.isSequenced = true → i.AccountsSequenced seen x →
      i'.AccountsSequenced (insert n seen) x) :
    i'.Receives ms arrived' (insert n seen) returned (out ++ rs) := by
  refine ⟨tracks, holds, lanes, ?_, ?_, ?_, ?_, fun x hx hq => sequenced x hx hq (h.sequenced x hx hq),
    ?_⟩
  · rw [output, ← List.append_assoc, h.output_eq, List.map_append]
  · refine List.nodup_append.mpr ⟨h.nodup, nodup, ?_⟩
    rintro a ha b hb rfl
    exact (mem a hb).2.1 ha
  · intro x hx
    rcases List.mem_append.mp hx with hx | hx
    · exact ⟨(h.mem_out x hx).1, (h.mem_out x hx).2.mono (Set.subset_insert ..)⟩
    · exact ⟨(mem x hx).1, (mem x hx).2.2⟩
  · intro hi x hx hq
    have hacc := h.accounts (by omega) x hx hq
    by_cases hxm : x = m
    · subst hxm
      exact self hq hi hacc
    · have hne : ∀ k, x.Owns k → k ≠ n := by
        rintro k hk rfl
        exact hxm (hms.eq_of_owns hx hm hk hn)
      have hseen : ∀ k, x.Owns k → (k ∈ insert n seen ↔ k ∈ seen) := fun k hk =>
        Set.mem_insert_iff.trans (or_iff_right (hne k hk))
      have hall : x.SeenIn (insert n seen) ↔ x.SeenIn seen :=
        forall₂_congr fun k hk => hseen k hk
      have hparts := others x hx hxm hq
      refine ⟨fun hx' => ?_, fun hx' j hj hj' => ?_, fun j hj => ?_⟩
      · rcases hacc.whole (hall.mp hx') with hout | hw
        · exact Or.inl (List.mem_append_left _ hout)
        · exact (waits x hx hw).imp_left (List.mem_append_right _)
      · rw [hseen _ (Shipment.owns_add hj)] at hj'
        exact (hparts j).mpr (hacc.part (fun h => hx' (hall.mpr h)) j hj hj')
      · exact fun hx' => hacc.incomplete j ((hparts j).mp hj) (hall.mp hx')
  · intro hroom
    obtain ⟨hroom', heq⟩ := room hroom
    rw [heq]
    exact h.invalid_eq hroom'

/-- A packet that brings nothing out. -/
theorem stay (h : i.Receives ms arrived seen returned out) (hms : Manifest ms) (hm : m ∈ ms) {n : Nat}
    (hn : m.Owns n) {i' : Inbox} {arrived' : Arrivals}
    (tracks : i'.arrivals.Tracks (total Shipment.size ms) arrived' (insert n seen))
    (holds : i'.reassembler.Holds ms (insert n seen)) (lanes : i'.lanes = i.lanes)
    (output : i'.output = i.output) (invalid : i.invalid ≤ i'.invalid)
    (room : i'.reassembler.HasRoom ms → i.reassembler.HasRoom ms ∧ i'.invalid = i.invalid)
    (others : ∀ x ∈ ms, x ≠ m → ∀ k, i'.reassembler.HoldsPart x k ↔ i.reassembler.HoldsPart x k)
    (self : m.reliability.isSequenced = false → i'.invalid = 0 → i.Accounts out seen m →
      i'.Accounts out (insert n seen) m)
    (own : m.reliability.isSequenced = true → i.AccountsSequenced seen m →
      i'.AccountsSequenced (insert n seen) m) :
    i'.Receives ms arrived' (insert n seen) returned out := by
  have hlanes : i'.lanes.Keeps ms (out ++ []) (insert n seen) := by
    rw [lanes, List.append_nil]
    exact h.lanes.mono (List.prefix_refl ms) (Set.subset_insert ..)
  have hself : m.reliability.isSequenced = false → i'.invalid = 0 → i.Accounts out seen m →
      i'.Accounts (out ++ []) (insert n seen) m := by
    rw [List.append_nil]
    exact self
  rw [← List.append_nil out]
  refine h.step hms hm hn tracks holds hlanes (by simpa using output) List.nodup_nil (by simp) invalid
    room (fun x _ hw => Or.inr (lanes ▸ hw)) (fun x hx hxm _ => others x hx hxm) hself ?_
  intro x hx hxq hacc
  by_cases hxm : x = m
  · subst hxm
    exact own hxq hacc
  · exact hacc.other hms hx hm hn hxm (fun hp => lanes ▸ hp)
      (fun k hk => Or.inr ((others x hx hxm k).mpr hk)) invalid

/-- A packet of a sequenced message that brings nothing out: it may be lost. -/
theorem skip (h : i.Receives ms arrived seen returned out) (hms : Manifest ms) (hm : m ∈ ms)
    (hq : m.reliability.isSequenced = true) {n : Nat} (hn : m.Owns n) {i' : Inbox}
    {arrived' : Arrivals} (tracks : i'.arrivals.Tracks (total Shipment.size ms) arrived' (insert n seen))
    (holds : i'.reassembler.Holds ms (insert n seen)) (lanes : i'.lanes = i.lanes)
    (output : i'.output = i.output) (invalid : i.invalid ≤ i'.invalid)
    (room : i'.reassembler.HasRoom ms → i.reassembler.HasRoom ms ∧ i'.invalid = i.invalid)
    (others : ∀ x ∈ ms, x ≠ m → ∀ k, i'.reassembler.HoldsPart x k ↔ i.reassembler.HoldsPart x k)
    (own : i.AccountsSequenced seen m → i'.AccountsSequenced (insert n seen) m) :
    i'.Receives ms arrived' (insert n seen) returned out := by
  refine h.stay hms hm hn tracks holds lanes output invalid room others ?_ fun _ => own
  intro hq'
  rw [hq] at hq'
  cases hq'

/-- A packet that was seen before leaves no trace but its arrival. -/
theorem again (h : i.Receives ms arrived seen returned out) {log : ArrivalLog} {arrived' : Arrivals}
    (tracks : log.Tracks (total Shipment.size ms) arrived' seen) :
    ({ i with arrivals := log } : Inbox).Receives ms arrived' seen returned out :=
  { h with tracks, accounts := fun hi m hm hq => (h.accounts hi m hm hq).congr rfl rfl }

theorem take (h : i.Receives ms arrived seen returned out) {d : Delivery} {output : List Delivery}
    (houtput : i.output = d :: output) :
    ({ i with output } : Inbox).Receives ms arrived seen (returned ++ [d]) out := by
  have hall : returned ++ [d] ++ output = out.map Shipment.delivery := by
    rw [← h.output_eq, houtput, List.append_assoc, List.singleton_append]
  exact { h with
    output_eq := hall
    accounts := fun hi m hm hq => (h.accounts hi m hm hq).congr rfl rfl }

end Receives

namespace Accounts

variable {i i' : Inbox} {out rs : List Shipment} {seen : Set Nat} {m : Shipment} {j : Nat}

theorem complete (hall : m.SeenIn seen) (hm : m ∈ out ∨ i.lanes.Waits m)
    (hgone : ∀ k, ¬i.reassembler.HoldsPart m k) : i.Accounts out seen m :=
  ⟨fun _ => hm, fun hnot => absurd hall hnot, fun k hk => absurd hk (hgone k)⟩

theorem pending {ms : List Shipment} (h : i.Accounts out seen m) (hms : Manifest ms)
    (hspan : total Shipment.size ms ≤ Counter.span) (hm : m ∈ ms) (hnew : m.first + j ∉ seen)
    (hj : j < m.size) (holds : i'.reassembler.Holds ms (insert (m.first + j) seen))
    (hpart : i'.reassembler.HoldsPart m j)
    (hkept : ∀ k, i.reassembler.HoldsPart m k → i'.reassembler.HoldsPart m k) :
    i'.Accounts out (insert (m.first + j) seen) m := by
  have hold : ¬m.SeenIn seen := fun hall => hnew (hall _ (Shipment.owns_add hj))
  have hparts : ∀ k < m.size, m.first + k ∈ insert (m.first + j) seen →
      i'.reassembler.HoldsPart m k := by
    intro k hk hseen
    rcases eq_or_ne k j with rfl | hkj
    · exact hpart
    · have hne : m.first + k ≠ m.first + j := by omega
      exact hkept k (h.part hold k hk (Set.mem_of_mem_insert_of_ne hseen hne))
  have hnot : ¬m.SeenIn (insert (m.first + j) seen) := by
    intro hall
    obtain ⟨k, hk, hmissing⟩ := holds.exists_missing hms hspan hm
    exact hmissing (hparts k hk (hall _ (Shipment.owns_add hk)))
  exact ⟨fun hall => absurd hall hnot, fun _ => hparts, fun _ _ => hnot⟩

end Accounts
end Inbox
end ReliableDatagram
