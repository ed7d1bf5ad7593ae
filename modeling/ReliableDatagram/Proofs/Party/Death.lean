import ReliableDatagram.Proofs.Party.Changes
import ReliableDatagram.Proofs.Receiving.Completion
import ReliableDatagram.Proofs.Session.Output

/-!
# The end of a session

A session ends for one reason and stays ended. It lets go of everything but the messages that are
complete, and no operation gives it anything again: what is left to do is to receive those messages, or
to drop them by closing.
-/
namespace ReliableDatagram

namespace Session

/-- Nothing is held that could be sent, repeated, acknowledged or completed. -/
structure Bare (s : Session) : Prop where
  queues : ∀ priority, (s.queues.get priority).toList = []
  inFlight : s.resend = .empty
  acks : s.acks.toList = []
  fragments : s.reassembler.groups = [] ∧ s.reassembler.bytes = 0
  waiting : ∀ c, (s.lanes.get c).waiting = ∅
  slots : s.arrivals.slots = #[]
  timer : s.lastAck = none

/-- Nothing is accepted, transmitted or taken in. -/
structure Refuses (s : Session) : Prop where
  send : ∀ payload bitLength priority r channel,
    s.sendBits payload bitLength priority r channel = .error .deadConnection
  transmit : ∀ now, s.transmit now = ([], s)
  handle : ∀ data now, s.handleDatagram data now = (.ok (), s)

variable {s s' : Session} {action : Action} {reason : DisconnectReason}

theorem bare_die (s : Session) (reason : DisconnectReason) : (s.die reason).Bare where
  queues priority := by simp [die]
  inFlight := rfl
  acks := rfl
  fragments := ⟨rfl, rfl⟩
  waiting c := by simp [die, Lanes.clear, Lane.clear]
  slots := rfl
  timer := rfl

theorem Bare.withOutput (h : s.Bare) (output : Fifo Delivery) : ({ s with output } : Session).Bare :=
  ⟨h.queues, h.inFlight, h.acks, h.fragments, h.waiting, h.slots, h.timer⟩

/-- Only complete messages can be pending in a bare session. -/
theorem Bare.hasPendingData_iff (h : s.Bare) :
    s.hasPendingData = true ↔ s.output.toList ≠ [] := by
  have hbacklog : s.hasBacklog = false := by
    have hempty : ∀ priority, (s.queues.get priority).isEmpty = true := fun priority =>
      (Fifo.isEmpty_iff _).mpr (h.queues priority)
    have hsystem := hempty .system
    have hhigh := hempty .high
    have hmedium := hempty .medium
    have hlow := hempty .low
    simp only [PerPriority.get] at hsystem hhigh hmedium hlow
    simp [hasBacklog, PerPriority.toList, hsystem, hhigh, hmedium, hlow]
  have hacks : s.acks.isEmpty = true := (Fifo.isEmpty_iff _).mpr h.acks
  have hresend : s.resend.isEmpty = true := by
    rw [h.inFlight]
    rfl
  have hwaiting : s.lanes.waiting = 0 := by
    refine total_eq_zero fun lane hlane => ?_
    obtain ⟨c, rfl⟩ := PerChannel.exists_get hlane
    rw [h.waiting c]
    exact Std.TreeMap.size_emptyc
  have hfragments : s.reassembler.isEmpty = true := by
    rw [Reassembler.isEmpty, h.fragments.1]
    rfl
  rw [hasPendingData, hbacklog, hacks, hresend, hwaiting, hfragments]
  simp [← Fifo.isEmpty_iff]

theorem refuses_of_isDead (hdead : s.isDead = true) : s.Refuses where
  send payload bitLength priority r channel := by
    rw [sendBits, if_pos hdead]
    rfl
  transmit now := by rw [transmit, if_pos hdead]
  handle data now := handleDatagram_of_isDead hdead data now

/-- The first reason stays, and nothing is counted any more. -/
theorem Changes.of_dead (hs : s.Changes action s') (hdead : s.dead = some reason) :
    s'.dead = some reason ∧ s'.counters = s.counters := by
  have hisDead : s.isDead = true := by rw [isDead, hdead]; rfl
  have hrefuses := refuses_of_isDead hisDead
  cases hs with
  | refused => exact ⟨hdead, rfl⟩
  | accepted _ halive hextends => rw [hisDead] at halive; cases halive
  | updated now => rw [hrefuses.transmit now]; exact ⟨hdead, rfl⟩
  | handled data now => rw [hrefuses.handle data now]; exact ⟨hdead, rfl⟩
  | received output => exact ⟨hdead, rfl⟩
  | delayed delay => exact ⟨hdead, rfl⟩
  | ended _ other output =>
    refine ⟨?_, rfl⟩
    rw [die, hdead]
    rfl

/-- Whatever ends a session leaves it bare. -/
theorem Changes.bare (hs : s.Changes action s') (h : s.isDead = true → s.Bare) :
    s'.isDead = true → s'.Bare := by
  intro hdead
  cases hs with
  | refused => exact h hdead
  | accepted _ halive hextends =>
    rw [isDead, hextends.dead_eq] at hdead
    rw [isDead, hdead] at halive
    cases halive
  | updated now =>
    rcases s.standing_transmit now with hstanding | hdie
    · have hold : s.isDead = true := by
        rwa [isDead, show (s.transmit now).2.dead = s.dead from congrArg Standing.dead hstanding] at hdead
      rw [(refuses_of_isDead hold).transmit now]
      exact h hold
    · rw [hdie]
      exact s.bare_die .timedOut
  | handled data now =>
    have hold : s.isDead = true := by
      rwa [isDead, (s.handles_handleDatagram data now).dead_eq] at hdead
    rw [(refuses_of_isDead hold).handle data now]
    exact h hold
  | received output => exact (h hdead).withOutput output
  | delayed delay =>
    have hbare := h hdead
    exact ⟨hbare.queues, hbare.inFlight, hbare.acks, hbare.fragments, hbare.waiting, hbare.slots,
      hbare.timer⟩
  | ended _ reason output => exact (s.bare_die reason).withOutput output

end Session

namespace Party

variable {p : Party} {reason : DisconnectReason}

theorem Reachable.bare (h : p.Reachable) : p.session.isDead = true → p.session.Bare :=
  h.keep (P := fun s => s.isDead = true → s.Bare) (fun _ _ hdead => by cases hdead)
    fun _ _ _ hs hbare => hs.bare hbare

theorem Reachable.stays_dead (h : p.Reachable) (hdead : p.session.dead = some reason)
    (actions : List Action) :
    (actions.foldl Party.act p).session.dead = some reason ∧
      (actions.foldl Party.act p).session.counters = p.session.counters := by
  induction actions generalizing p with
  | nil => exact ⟨hdead, rfl⟩
  | cons action actions ih =>
    obtain ⟨hdead', hcounters⟩ := (h.changes action).of_dead hdead
    obtain ⟨hlast, hfrozen⟩ := ih (h.act action) hdead'
    exact ⟨hlast, hfrozen.trans hcounters⟩

/-- Every end has its moment, and the reason was given then. -/
theorem Reachable.exists_death (h : p.Reachable) (halive : p.session.dead = none) {actions : List Action}
    (hdead : (actions.foldl Party.act p).session.dead = some reason) :
    ∃ lived last rest, actions = lived ++ last :: rest ∧ (lived.foldl Party.act p).session.dead = none ∧
      ((lived ++ [last]).foldl Party.act p).session.dead = some reason := by
  induction actions generalizing p with
  | nil =>
    rw [List.foldl_nil, halive] at hdead
    cases hdead
  | cons action actions ih =>
    cases hnext : (p.act action).session.dead with
    | none =>
      obtain ⟨lived, last, rest, rfl, hlived, hlast⟩ := ih (h.act action) hnext hdead
      exact ⟨action :: lived, last, rest, rfl, hlived, hlast⟩
    | some first =>
      have hstays := ((h.act action).stays_dead hnext actions).1
      rw [List.foldl_cons, hstays] at hdead
      exact ⟨[], action, actions, rfl, halive, hnext.trans hdead⟩

/-! ### What is left to receive -/

/-- The messages that an action completes. -/
def completes (p : Party) : Action → List Delivery
  | .handle data now => p.session.completed data now
  | _ => []

/-- The messages that a run completes, in that order. -/
def completions (p : Party) : List Action → List Delivery
  | [] => []
  | action :: actions => p.completes action ++ (p.act action).completions actions

theorem completions_append (p : Party) (actions later : List Action) :
    p.completions (actions ++ later) =
      p.completions actions ++ (actions.foldl Party.act p).completions later := by
  induction actions generalizing p with
  | nil => rfl
  | cons action actions ih =>
    rw [List.cons_append, completions, completions, ih, List.append_assoc, List.foldl_cons]

/-- The completed messages queue up, and only the application takes them, from the front. -/
def Serves (p p' : Party) (ms : List Delivery) : Prop :=
  ∃ taken, p'.returned = p.returned ++ taken ∧
    p.session.output.toList ++ ms = taken ++ p'.session.output.toList

theorem Serves.trans {p' p'' : Party} {ms ms' : List Delivery} (h : p.Serves p' ms)
    (h' : p'.Serves p'' ms') : p.Serves p'' (ms ++ ms') := by
  obtain ⟨taken, hreturned, houtput⟩ := h
  obtain ⟨taken', hreturned', houtput'⟩ := h'
  refine ⟨taken ++ taken', ?_, ?_⟩
  · rw [hreturned', hreturned, List.append_assoc]
  · rw [← List.append_assoc, houtput, List.append_assoc, houtput', List.append_assoc]

theorem Serves.of_completes {p' : Party} {ms : List Delivery} (hreturned : p'.returned = p.returned)
    (h : p.session.Completes p'.session ms) : p.Serves p' ms :=
  ⟨[], by rw [hreturned, List.append_nil], h.output_eq.symm⟩

theorem serves_submit (p : Party) {payload : Bytes} {bitLength : Nat} {priority : Priority}
    {r : Reliability} {channel : Nat} {result : Except SendError Session}
    (hresult : ∀ s', result = .ok s' →
      p.session.sendBits payload bitLength priority r channel = .ok s') :
    p.Serves (p.submit payload bitLength r channel result) [] := by
  cases result with
  | error e => exact .of_completes rfl (.refl _)
  | ok s' => exact .of_completes rfl (Session.completes_sendBits (hresult s' rfl))

theorem serves_act (p : Party) {action : Action} (hopen : action ≠ .close) :
    p.Serves (p.act action) (p.completes action) := by
  cases action with
  | send payload priority r channel => exact p.serves_submit fun s' => Session.send_ok
  | sendBits payload bitLength priority r channel => exact p.serves_submit fun s' => id
  | update now => exact .of_completes rfl (p.session.completes_transmit now)
  | handle data now => exact .of_completes rfl (p.session.completes_handleDatagram data now)
  | receive =>
    have hnone : p.completes .receive = [] := rfl
    rw [hnone, act, Session.receive?]
    cases hpop : p.session.output.pop? with
    | none => exact .of_completes rfl (.refl _)
    | some popped =>
      refine ⟨[popped.1], rfl, ?_⟩
      rw [List.append_nil]
      exact Fifo.toList_of_pop? hpop
  | setResendDelay delay => exact .of_completes rfl (.none rfl rfl)
  | kill => exact .of_completes rfl (.none rfl rfl)
  | close => exact absurd rfl hopen

theorem serves_acts (p : Party) {actions : List Action} (hopen : .close ∉ actions) :
    p.Serves (actions.foldl Party.act p) (p.completions actions) := by
  induction actions generalizing p with
  | nil => exact .of_completes rfl (.refl _)
  | cons action actions ih =>
    have hnext : action ≠ .close := fun h => hopen (by simp [h])
    exact (p.serves_act hnext).trans (ih _ fun h => hopen (List.mem_cons_of_mem _ h))

theorem Reachable.completions_of_dead (h : p.Reachable) (hdead : p.session.dead = some reason)
    (actions : List Action) : p.completions actions = [] := by
  induction actions generalizing p with
  | nil => rfl
  | cons action actions ih =>
    have hnone : p.completes action = [] := by
      have hisDead : p.session.isDead = true := by rw [Session.isDead, hdead]; rfl
      cases action with
      | handle data now =>
        rw [completes, Session.completed, Session.handleDatagram_of_isDead hisDead, ← Fifo.length_toList]
        exact List.drop_length
      | _ => rfl
    rw [completions, hnone, ih (h.act action) ((h.changes action).of_dead hdead).1, List.append_nil]

/-- No message is completed in the moment of death. -/
theorem completes_of_death {action : Action} (halive : p.session.dead = none)
    (hdead : (p.act action).session.dead = some reason) : p.completes action = [] := by
  cases action with
  | handle data now =>
    have hstays : (p.act (.handle data now)).session.dead = p.session.dead :=
      (p.session.handles_handleDatagram data now).dead_eq
    rw [hstays, halive] at hdead
    cases hdead
  | _ => rfl

/-- Closing leaves nothing to receive, then and later. -/
theorem Reachable.output_of_close (h : p.Reachable) {actions : List Action} (hclose : .close ∈ actions) :
    (actions.foldl Party.act p).session.output.toList = [] := by
  obtain ⟨before, after, rfl, hopen⟩ : ∃ before after, actions = before ++ .close :: after ∧
      .close ∉ after := by
    obtain ⟨after, before, heq, hopen⟩ := List.eq_append_cons_of_mem (List.mem_reverse.mpr hclose)
    refine ⟨before.reverse, after.reverse, ?_, by simpa using hopen⟩
    rw [← List.reverse_reverse actions, heq]
    simp
  rw [List.foldl_append, List.foldl_cons]
  have hclosed := (h.acts before).act .close
  have hdead : ((before.foldl Party.act p).act .close).session.dead =
      some ((before.foldl Party.act p).session.dead.getD .closedLocally) := rfl
  obtain ⟨taken, -, houtput⟩ := serves_acts _ hopen
  rw [hclosed.completions_of_dead hdead, List.append_nil] at houtput
  exact (List.append_eq_nil_iff.mp houtput.symm).2

/-- The end of a session is final. Whatever is done then, the reason stays the first one; the session is
bare, refuses everything and counts nothing; and what is pending are the messages that were completed
while it lived and not received, unless it is closed. -/
theorem death_final {config : Config} {start : Instant} {before : List Action}
    (hdead : (before.foldl act (new config start)).session.dead = some reason) (after : List Action) :
    let p := before.foldl act (new config start)
    let q := after.foldl act p
    q.session.dead = some reason ∧ q.session.Bare ∧ q.session.Refuses ∧
      q.session.counters = p.session.counters ∧
      (q.session.hasPendingData = true ↔ q.session.output.toList ≠ []) ∧
      (.close ∈ before ++ after → q.session.output.toList = []) ∧
      ∃ lived last rest, before = lived ++ last :: rest ∧
        (lived.foldl act (new config start)).session.dead = none ∧
        ((lived ++ [last]).foldl act (new config start)).session.dead = some reason ∧
        (.close ∉ before ++ after →
          q.returned ++ q.session.output.toList = (new config start).completions lived) := by
  intro p q
  have hnew : (new config start).Reachable := .new config start
  have hq : q = (before ++ after).foldl act (new config start) := List.foldl_append.symm
  have hreachable : q.Reachable := hq ▸ hnew.acts _
  obtain ⟨hreason, hcounters⟩ := (hnew.acts before).stays_dead hdead after
  have hisDead : q.session.isDead = true := by rw [Session.isDead, hreason]; rfl
  have hbare := hreachable.bare hisDead
  obtain ⟨lived, last, rest, rfl, hlived, hlast⟩ := hnew.exists_death rfl hdead
  refine ⟨hreason, hbare, Session.refuses_of_isDead hisDead, hcounters, hbare.hasPendingData_iff,
    fun hclose => ?_, lived, last, rest, rfl, hlived, hlast, fun hopen => ?_⟩
  · rw [hq]
    exact hnew.output_of_close hclose
  · have hlater := (hnew.acts (lived ++ [last])).completions_of_dead hlast (rest ++ after)
    have hmoment : (lived.foldl act (new config start)).completes last = [] :=
      completes_of_death hlived (by rwa [List.foldl_append] at hlast)
    have hsplit : (lived ++ last :: rest) ++ after = (lived ++ [last]) ++ (rest ++ after) := by simp
    obtain ⟨taken, hreturned, houtput⟩ := serves_acts (new config start) hopen
    rw [← hq] at hreturned houtput
    rw [hsplit, completions_append, hlater, completions_append, completions, completions, hmoment,
      List.append_nil, List.append_nil, List.append_nil] at houtput
    rw [hreturned, show (new config start).returned = [] from rfl, List.nil_append, ← houtput]
    rfl

/-- Two messages arrive in one datagram before the session is killed. -/
def lastWords : List Action := [.handle [0, 0, 39, 0, 7, 0, 1, 36, 32, 8, 9] 0, .kill]

/-- One of the two is received, and nothing comes of the rest. -/
theorem death_final_lastWords :
    let p := lastWords.foldl act (new .default 0)
    let q := [.receive, .send [1] .low .reliable 0, .update 99999, .handle [0, 0, 39, 0, 7] 0].foldl act p
    p.session.dead = some .killed ∧ q.session.dead = some .killed ∧ q.session.Bare ∧
      q.session.Refuses ∧ q.session.hasPendingData = true ∧ q.returned.map (·.payload) = [[7]] ∧
      q.session.output.toList.map (·.payload) = [[8, 9]] := by
  intro p q
  have hdead : p.session.dead = some .killed := by decide +kernel
  obtain ⟨hreason, hbare, hrefuses, -, hpending, -⟩ := death_final hdead
    [.receive, .send [1] .low .reliable 0, .update 99999, .handle [0, 0, 39, 0, 7] 0]
  exact ⟨hdead, hreason, hbare, hrefuses, hpending.mpr (by decide +kernel), by decide +kernel,
    by decide +kernel⟩

end Party
end ReliableDatagram
