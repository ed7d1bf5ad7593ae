import Mathlib.Data.List.Nodup
import ReliableDatagram.Peers.Table

/-!
# The sessions of a table

The sessions are a list of keys and values in which no key comes twice, so that their order does not
matter. What an operation does for one peer depends on the session of that peer alone.
-/
namespace ReliableDatagram

section keyed

variable {α β γ : Type} [DecidableEq α] {l l' : List (α × β)}

theorem filter_key_eq (hkeys : (l.map Prod.fst).Nodup) (k : α) :
    l.filter (·.1 = k) = ((l.lookup k).map (k, ·)).toList := by
  induction l with
  | nil => rfl
  | cons x l ih =>
    obtain ⟨a, b⟩ := x
    rw [List.map_cons, List.nodup_cons] at hkeys
    by_cases ha : a = k
    · subst ha
      have hrest : l.filter (·.1 = a) = [] := by
        rw [List.filter_eq_nil_iff]
        intro y hy hya
        exact hkeys.1 (List.mem_map.mpr ⟨y, hy, of_decide_eq_true hya⟩)
      rw [List.filter_cons_of_pos (by simp), hrest, List.lookup_cons_self]
      rfl
    · have hlookup : ((a, b) :: l).lookup k = l.lookup k := by
        rw [List.lookup_cons, beq_false_of_ne (Ne.symm ha)]
      rw [List.filter_cons_of_neg (by simpa using ha), hlookup, ih hkeys.2]

theorem lookup_eq_some_iff_mem (hkeys : (l.map Prod.fst).Nodup) {k : α} {b : β} :
    l.lookup k = some b ↔ (k, b) ∈ l := by
  have hfilter : (k, b) ∈ l ↔ (k, b) ∈ l.filter (·.1 = k) := by simp
  rw [hfilter, filter_key_eq hkeys]
  simp

/-- The order of the entries does not matter. -/
theorem lookup_eq_of_perm (hperm : l'.Perm l) (hkeys : (l.map Prod.fst).Nodup) (k : α) :
    l'.lookup k = l.lookup k := by
  have hkeys' : (l'.map Prod.fst).Nodup := (hperm.map Prod.fst).nodup_iff.mpr hkeys
  ext b
  rw [lookup_eq_some_iff_mem hkeys, lookup_eq_some_iff_mem hkeys', hperm.mem_iff]

/-- What the entries are turned into one by one, and marked with their keys, is for one key what its
entry is turned into. -/
theorem filter_flatMap_key (hkeys : (l.map Prod.fst).Nodup) {f : α × β → List γ} {key : γ → α}
    (hf : ∀ x, ∀ y ∈ f x, key y = x.1) (k : α) :
    (l.flatMap f).filter (key · = k) = ((l.lookup k).map fun b => f (k, b)).getD [] := by
  have hpart : ∀ x, (f x).filter (key · = k) = if x.1 = k then f x else [] := by
    intro x
    split_ifs with hx
    · exact List.filter_eq_self.mpr fun y hy => decide_eq_true ((hf x y hy).trans hx)
    · refine List.filter_eq_nil_iff.mpr fun y hy hyk => hx ?_
      rw [← hf x y hy]
      exact of_decide_eq_true hyk
  have hall : (l.flatMap f).filter (key · = k) = (l.filter (·.1 = k)).flatMap f := by
    clear hkeys
    induction l with
    | nil => rfl
    | cons x l ih =>
      rw [List.flatMap_cons, List.filter_append, hpart, ih]
      by_cases hx : x.1 = k <;> simp [hx]
  rw [hall, filter_key_eq hkeys]
  cases l.lookup k with
  | none => rfl
  | some b => exact List.append_nil _

/-- The values are changed one by one, and the keys stay. -/
theorem lookup_map_of_key {f : α × β → α × γ} (hf : ∀ x, (f x).1 = x.1) (l : List (α × β)) (k : α) :
    (l.map f).lookup k = (l.lookup k).map fun b => (f (k, b)).2 := by
  induction l with
  | nil => rfl
  | cons x l ih =>
    obtain ⟨a, b⟩ := x
    have hx : f (a, b) = (a, (f (a, b)).2) := Prod.ext (hf (a, b)) rfl
    rw [List.map_cons, hx, List.lookup_cons, List.lookup_cons]
    cases hk : k == a with
    | false => exact ih
    | true => rw [eq_of_beq hk]; rfl

theorem lookup_filter (hkeys : (l.map Prod.fst).Nodup) (keep : α × β → Bool) (k : α) :
    (l.filter keep).lookup k = (l.lookup k).filter fun b => keep (k, b) := by
  have hkept : ((l.filter keep).map Prod.fst).Nodup := hkeys.sublist (List.filter_sublist.map _)
  ext b
  rw [lookup_eq_some_iff_mem hkept, List.mem_filter, Option.filter_eq_some_iff,
    lookup_eq_some_iff_mem hkeys]

end keyed

namespace PeerTable

/-- No peer has two sessions. -/
def Keyed (t : PeerTable) : Prop := (t.sessions.map Prod.fst).Nodup

variable {t : PeerTable} {peer : Address} {s : Session}

theorem not_mem_keys_of_none (hs : t.session? peer = none) : peer ∉ t.sessions.map Prod.fst := by
  intro hpeer
  obtain ⟨⟨a, s⟩, hmem, rfl⟩ := List.mem_map.mp hpeer
  simpa using List.lookup_eq_none_iff.mp hs _ hmem

theorem Keyed.add (h : t.Keyed) (hs : t.session? peer = none) (s : Session) :
    ({ t with sessions := t.sessions ++ [(peer, s)] } : PeerTable).Keyed := by
  rw [Keyed, List.map_append, List.nodup_append]
  refine ⟨h, List.nodup_singleton _, ?_⟩
  rintro a ha b hb rfl
  have hpeer : a = peer := List.mem_singleton.mp hb
  exact not_mem_keys_of_none hs (hpeer ▸ ha)

theorem session?_add (hs : t.session? peer = none) (s : Session) (p : Address) :
    ({ t with sessions := t.sessions ++ [(peer, s)] } : PeerTable).session? p =
      if p = peer then some s else t.session? p := by
  have hsplit : (t.sessions ++ [(peer, s)]).lookup p = (t.session? p).or ([(peer, s)].lookup p) :=
    List.lookup_append
  rw [session?, hsplit]
  split_ifs with hp
  · rw [hp, hs, Option.none_or, List.lookup_cons_self]
  · have hother : [(peer, s)].lookup p = none := by
      rw [List.lookup_cons, beq_false_of_ne hp]
      rfl
    rw [hother, Option.or_none]

theorem Keyed.filter (h : t.Keyed) (keep : Address × Session → Bool) :
    ({ t with sessions := t.sessions.filter keep } : PeerTable).Keyed :=
  h.sublist (List.filter_sublist.map _)

theorem Keyed.session?_filter (h : t.Keyed) (keep : Address × Session → Bool) (p : Address) :
    ({ t with sessions := t.sessions.filter keep } : PeerTable).session? p =
      (t.session? p).filter fun s => keep (p, s) :=
  lookup_filter h keep p

theorem Keyed.setSession (h : t.Keyed) (peer : Address) (s : Session) :
    (t.setSession peer s).Keyed := by
  have hkeys : (t.setSession peer s).sessions.map Prod.fst = t.sessions.map Prod.fst := by
    rw [PeerTable.setSession, List.map_map]
    refine List.map_congr_left fun entry _ => ?_
    rw [Function.comp_apply]
    split_ifs with hentry
    · exact hentry.symm
    · rfl
  rw [Keyed, hkeys]
  exact h

theorem session?_setSession (t : PeerTable) (peer : Address) (s : Session) (p : Address) :
    (t.setSession peer s).session? p = (t.session? p).map fun s' => if p = peer then s else s' := by
  rw [session?, setSession, lookup_map_of_key]
  · refine Option.map_congr fun s' _ => ?_
    split_ifs <;> rfl
  · intro entry
    split_ifs with h
    · exact h.symm
    · rfl

/-! ### Ticks -/

/-- The events of a tick: for each session that is dead after its transmission, the loss of it. -/
def losses (t : PeerTable) (now : Instant) : List PeerEvent :=
  t.sessions.flatMap fun (peer, s) => ((s.transmit now).2.dead.map (PeerEvent.lost peer)).toList

theorem tick_fst (t : PeerTable) (now : Instant) : (t.tick now).1 =
    t.sessions.flatMap fun (peer, s) => (s.transmit now).1.map (peer, ·) := by
  rw [tick, List.flatMap_map]

theorem sessions_tick (t : PeerTable) (now : Instant) : (t.tick now).2.sessions =
    (t.sessions.map fun entry => (entry.1, (entry.2.transmit now).2)).filter (!·.2.isDead) := by
  rw [tick, List.map_map]
  rfl

theorem events_tick (t : PeerTable) (now : Instant) :
    (t.tick now).2.events.toList = t.events.toList ++ t.losses now := by
  rw [tick, losses]
  dsimp only
  rw [Fifo.toList_foldl_push, List.map_map, List.filterMap_map, List.filterMap_eq_flatMap_toList]
  rfl

theorem Keyed.transmit (h : t.Keyed) (now : Instant) :
    ((t.sessions.map fun entry => (entry.1, (entry.2.transmit now).2)).map Prod.fst).Nodup := by
  rw [List.map_map]
  exact h

theorem Keyed.tick (h : t.Keyed) (now : Instant) : (t.tick now).2.Keyed := by
  rw [Keyed, sessions_tick]
  exact (h.transmit now).sublist (List.filter_sublist.map _)

theorem Keyed.session?_tick (h : t.Keyed) (now : Instant) (p : Address) :
    (t.tick now).2.session? p =
      ((t.session? p).map fun s => (s.transmit now).2).filter fun s => !s.isDead := by
  have hlookup : (t.sessions.map fun entry => (entry.1, (entry.2.transmit now).2)).lookup p =
      (t.session? p).map fun s => (s.transmit now).2 :=
    lookup_map_of_key (by simp) _ p
  rw [session?, sessions_tick, lookup_filter (h.transmit now), hlookup]

/-- The frames for one peer are those of its session. -/
theorem Keyed.filter_frames (h : t.Keyed) (now : Instant) (p : Address) :
    (t.tick now).1.filter (·.1 = p) =
      ((t.session? p).map fun s => (s.transmit now).1.map (p, ·)).getD [] := by
  rw [tick_fst]
  refine filter_flatMap_key h (fun entry frame hframe => ?_) p
  obtain ⟨f, -, rfl⟩ := List.mem_map.mp hframe
  rfl

theorem Keyed.filter_losses (h : t.Keyed) (now : Instant) (p : Address) :
    (t.losses now).filter (·.peer = p) =
      ((t.session? p).map fun s => ((s.transmit now).2.dead.map (PeerEvent.lost p)).toList).getD [] := by
  refine filter_flatMap_key h (fun entry e he => ?_) p
  obtain ⟨reason, -, rfl⟩ := Option.map_eq_some_iff.mp (Option.mem_toList.mp he)
  rfl

end PeerTable
end ReliableDatagram
