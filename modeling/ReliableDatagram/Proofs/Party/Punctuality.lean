import ReliableDatagram.Proofs.Party.Changes
import ReliableDatagram.Proofs.Party.Exhaustion
import ReliableDatagram.Proofs.Party.History
import ReliableDatagram.Proofs.Session.Timing

/-!
# What a transmission leaves behind

A transmission looks at the first acknowledgement and the first packet in flight only. Deadlines are set
in the order of the queues, so while the delay stays the same nothing overdue is left. When the delay
becomes shorter, deadlines that were set with the longer one stand in front of earlier ones, and
hold them up. Packets in flight are held up in another way too: after 65536 packets the numbers begin
again, and a number that is listed twice brings a later packet to the front.
-/
namespace ReliableDatagram

/-- When the action happens, if it takes notice of the time. -/
def Action.time? : Action → Option Instant
  | .update now | .handle _ now => some now
  | .send .. | .sendBits .. | .receive | .setResendDelay _ | .kill | .close => none

namespace Session

variable {s s' : Session} {action : Action} {table : Timetable} {now : Instant}

/-- The time of the action, and the delay that is in force then. -/
def row (s : Session) (action : Action) : Timetable :=
  (action.time?.map fun now => (now, s.config.resendDelay)).toList

theorem Changes.timed (hs : s.Changes action s') (h : s.Timed table) :
    s'.Timed (table ++ s.row action) := by
  have hlater := h.append (s.row action)
  cases hs with
  | refused => exact hlater
  | accepted _ halive hextends =>
    exact hlater.congr (congrArg Fifo.toList hextends.acks_eq) hextends.resend_eq
  | updated now => exact h.transmit now
  | handled data now => exact h.handleDatagram data now
  | received output => exact hlater.congr rfl rfl
  | delayed delay => exact hlater.congr rfl rfl
  | ended _ reason output => exact .empty rfl rfl _

/-- A session that is alive after a transmission has nothing left that should have been sent. -/
theorem exhausted_of_alive (hbudget : 3 ≤ s.config.frameBudget)
    (hfits : s.Stocks (Entry.FitsAlone s.config.frameBudget))
    (halive : (s.transmit now).2.isDead = false) : (s.transmit now).2.Exhausted now := by
  have hunsent : s.work now < s.unsent + 1 := Nat.lt_succ_of_le (s.work_le_unsent now)
  rw [transmit] at halive ⊢
  split_ifs at halive ⊢ with hdead htime
  · rw [hdead] at halive
    cases halive
  · cases halive
  · exact exhausted_buildFrames hbudget hfits hunsent

/-- A queue whose front is not overdue holds up what it does only because the delay became shorter. -/
structure HeldUp (s : Session) (table : Timetable) (now : Instant) : Prop where
  acks : ∀ a ∈ s.acks.toList, a.due ≤ now → ∃ b ∈ s.acks.toList.head?,
    now < b.due ∧ table.Outlasts coalesce b.due a.due
  inFlight : ∀ e ∈ s.resend.entries, e.due ≤ now → Counter.period < s.numbersTaken ∨
    ∃ f ∈ s.resend.entries.head?, now < f.due ∧ table.Outlasts id f.due e.due

theorem Exhausted.heldUp (h : s.Exhausted now) (htimed : s.Timed table)
    (htimes : (table.map Prod.fst).Pairwise (· ≤ ·))
    (hnodup : s.numbersTaken ≤ Counter.period → s.resend.order.Nodup) : s.HeldUp table now where
  acks a ha hdue := by
    have hwait : Monotone coalesce := fun _ _ hle => Nat.div_le_div_right hle
    exact htimed.acks.exists_outlasts hwait htimes h.oldest ha hdue
  inFlight e he hdue := by
    rcases Nat.lt_or_ge Counter.period s.numbersTaken with hperiod | hperiod
    · exact Or.inl hperiod
    · have hfront := ResendQueue.lt_due_of_peekDue_eq_none htimed.inLine (hnodup hperiod) h.front
      exact Or.inr (htimed.inFlight.exists_outlasts monotone_id htimes hfront he hdue)

end Session

namespace Party

variable {p : Party} {ms : List Shipment} {log : List Event} {table : Timetable}

/-- When the party took notice of the time, and the delays that were in force. -/
def timetable (p : Party) : List Action → Timetable
  | [] => []
  | action :: actions => p.session.row action ++ (p.act action).timetable actions

theorem map_fst_timetable (p : Party) (actions : List Action) :
    (p.timetable actions).map Prod.fst = actions.filterMap Action.time? := by
  induction actions generalizing p with
  | nil => rfl
  | cons action actions ih =>
    rw [timetable, List.map_append, ih, List.filterMap_cons, Session.row]
    cases action.time? <;> rfl

theorem Reachable.timed_acts (h : p.Reachable) (ht : p.session.Timed table) (actions : List Action) :
    (actions.foldl Party.act p).session.Timed (table ++ p.timetable actions) := by
  induction actions generalizing p table with
  | nil =>
    rw [timetable, List.append_nil]
    exact ht
  | cons action actions ih =>
    rw [timetable, ← List.append_assoc]
    exact ih (h.act action) ((h.changes action).timed ht)

theorem Reachable.lists_act (h : p.Reachable) (hlog : p.session.Recounts log)
    (hl : p.session.Lists log) (action : Action) :
    (p.act action).session.Lists (log ++ p.events action) := by
  have hchanges := h.changes action
  have hlater := hl.shrink (List.Sublist.refl _) (p.events action)
  generalize (p.act action).session = s' at hchanges ⊢
  cases hchanges with
  | refused => exact hlater
  | accepted _ halive hextends =>
    refine hl.shrink ?_ _
    rw [hextends.resend_eq]
  | updated now => exact hl.transmit hlog now
  | handled data now => exact hl.shrink (p.session.shrinks_handleDatagram data now).order _
  | received output => exact ⟨hlater.nodup, hlater.emitted⟩
  | delayed delay => exact ⟨hlater.nodup, hlater.emitted⟩
  | ended _ reason output => exact hl.shrink (List.nil_sublist _) _

theorem Recounts.lists_acts (h : p.Recounts ms log) (hl : p.session.Lists log) (hp : p.Reachable)
    (actions : List Action)
    (hperiod : (actions.foldl Party.act p).session.numbersTaken ≤ Counter.period) :
    (actions.foldl Party.act p).session.Lists (log ++ p.history actions) := by
  induction actions generalizing p ms log with
  | nil =>
    rw [history, List.append_nil]
    exact hl
  | cons action actions ih =>
    have hnext := (hp.act action).numbersTaken_le_acts actions
    obtain ⟨ms', h'⟩ := h.act action (Nat.le_trans hnext hperiod)
    rw [history, ← List.append_assoc]
    exact ih h' (hp.lists_act h.recounts hl action) (hp.act action) hperiod

theorem Reachable.frameBudget_acts (h : p.Reachable) (actions : List Action) :
    (actions.foldl Party.act p).session.config.frameBudget = p.session.config.frameBudget :=
  h.eq_acts (f := (·.config.frameBudget)) (fun _ _ _ hs => hs.frameBudget_eq) actions

theorem heldUp_acts {config : Config} {start now : Instant} {actions : List Action}
    (htimes : ((actions ++ [Action.update now]).filterMap Action.time?).Pairwise (· ≤ ·))
    (hbudget : 3 ≤ config.frameBudget)
    (halive : ((actions ++ [Action.update now]).foldl act (new config start)).session.isDead = false) :
    ((actions ++ [Action.update now]).foldl act (new config start)).session.HeldUp
      ((new config start).timetable (actions ++ [Action.update now])) now := by
  have hreachable := (Reachable.new config start).acts actions
  have hstart : (new config start).session.Timed [] := .empty rfl rfl []
  have htimed := (Reachable.new config start).timed_acts hstart (actions ++ [Action.update now])
  have hexhausted : ((actions ++ [Action.update now]).foldl act (new config start)).session.Exhausted now := by
    rw [List.foldl_append] at halive ⊢
    refine Session.exhausted_of_alive ?_ hreachable.fitsAlone halive
    rw [(Reachable.new config start).frameBudget_acts actions]
    exact hbudget
  rw [List.nil_append] at htimed
  refine hexhausted.heldUp htimed ?_ fun hperiod => ?_
  · rw [map_fst_timetable]
    exact htimes
  · exact ((recounts_new config start).lists_acts (.new config start) (.new config start) _
      hperiod).nodup

theorem Reachable.timetable_constant (h : p.Reachable) {actions : List Action}
    (hactions : ∀ delay, .setResendDelay delay ∉ actions) :
    ∀ row ∈ p.timetable actions, row.2 = p.session.config.resendDelay := by
  induction actions generalizing p with
  | nil => simp [timetable]
  | cons action actions ih =>
    intro row hrow
    rcases List.mem_append.mp hrow with hrow | hrow
    · obtain ⟨now, -, rfl⟩ := Option.map_eq_some_iff.mp (Option.mem_toList.mp hrow)
      rfl
    · have hrest := ih (h.act action) (fun delay hmem => hactions delay (List.mem_cons_of_mem _ hmem))
      rcases (h.changes action).config_cases with hconfig | ⟨delay, rfl, -⟩
      · rw [hrest row hrow, hconfig]
      · exact absurd List.mem_cons_self (hactions delay)

/-- After a transmission that a session survives, nothing overdue is left in front. What is overdue
behind the front is held up because the delay became shorter, or because numbers were used again; so
nothing overdue is left if neither has happened. -/
theorem left_behind (config : Config) (start now : Instant) (actions : List Action)
    (htimes : ((actions ++ [Action.update now]).filterMap Action.time?).Pairwise (· ≤ ·))
    (hbudget : 3 ≤ config.frameBudget)
    (halive : ((actions ++ [Action.update now]).foldl act (new config start)).session.isDead = false) :
    let s := ((actions ++ [Action.update now]).foldl act (new config start)).session
    s.HeldUp ((new config start).timetable (actions ++ [Action.update now])) now ∧
      ((∀ delay, .setResendDelay delay ∉ actions) → s.numbersTaken ≤ Counter.period →
        (∀ a ∈ s.acks.toList, now < a.due) ∧ ∀ e ∈ s.resend.entries, now < e.due) := by
  have hheld := heldUp_acts htimes hbudget halive
  refine ⟨hheld, fun hactions hperiod => ?_⟩
  have hconstant : ∀ row ∈ (new config start).timetable (actions ++ [Action.update now]),
      row.2 = config.resendDelay :=
    (Reachable.new config start).timetable_constant (by simpa using hactions)
  refine ⟨fun a ha => Nat.lt_of_not_le fun hdue => ?_, fun e he => Nat.lt_of_not_le fun hdue => ?_⟩
  · obtain ⟨b, -, -, houtlasts⟩ := hheld.acks a ha hdue
    exact houtlasts.not_constant hconstant
  · rcases hheld.inFlight e he hdue with hused | ⟨f, -, -, houtlasts⟩
    · exact absurd hperiod (Nat.not_le.mpr hused)
    · exact houtlasts.not_constant hconstant

/-- A message that waits for a second, and behind it one that waits for less. -/
def impatience : List Action :=
  [.send [0xaa] .medium .reliable 0, .update 0, .setResendDelay 150000000,
    .send [0xbb] .medium .reliable 0, .update 1000000]

theorem left_behind_impatience :
    let run := impatience ++ [Action.update 200000000]
    let s := (run.foldl act (new .default 0)).session
    (run.filterMap Action.time?).Pairwise (· ≤ ·) ∧ 3 ≤ Config.default.frameBudget ∧
      s.isDead = false ∧ s.resend.entries.map (·.due) = [1000000000, 151000000] ∧
      s.HeldUp ((new .default 0).timetable run) 200000000 := by
  have htimes : ((impatience ++ [Action.update 200000000]).filterMap Action.time?).Pairwise
      (· ≤ ·) := by
    decide
  have halive : ((impatience ++ [Action.update 200000000]).foldl act
      (new .default 0)).session.isDead = false := by
    decide +kernel
  exact ⟨htimes, by decide, halive, by decide +kernel,
    (left_behind .default 0 200000000 impatience htimes (by decide) halive).1⟩

end Party
end ReliableDatagram
