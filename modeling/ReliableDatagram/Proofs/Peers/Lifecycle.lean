import ReliableDatagram.Proofs.Peers.Isolation

/-!
# The lives of a peer

A peer that is added is lost once, whether it is destroyed, killed or timed out, unless it is still there.
While it lives all that its session completes is passed on at once, so that nothing is left to be lost
with the session, and when it is dead nothing more is heard of it.
-/
namespace ReliableDatagram

def PeerEvent.isLost : PeerEvent → Bool
  | .lost _ _ => true
  | .malformed _ _ => false

namespace Outcome

/-- How many sessions there are. -/
def present (session : Option Session) : Nat := session.toList.length

/-- All that the session has completed has been taken. -/
def Drained : Option Session → Prop
  | some s => s.output.toList = []
  | none => True

/-- The session is dead, or there is none. -/
def Silent : Option Session → Prop
  | some s => s.isDead = true
  | none => True

/-- What every outcome keeps to: peers are added and lost one by one, messages are passed on when they
are completed, and the dead are silent. -/
structure Fair (o : Outcome) (before : Option Session) : Prop where
  balance : o.events.countP PeerEvent.isLost + present o.session = present before + o.created
  drained : Drained o.session
  messages_eq : o.messages = o.completed
  count_eq : ∀ s s', before = some s → o.session = some s' →
    s'.counters.messagesReceived = s.counters.messagesReceived + o.messages.length
  silent : Silent before → o.created = 0 →
    Silent o.session ∧ o.messages = [] ∧ o.events.filter (!·.isLost) = []

variable {session : Option Session} {s s' : Session}

theorem fair_none : Fair { session := none } none where
  balance := rfl
  drained := trivial
  messages_eq := rfl
  count_eq := by simp
  silent _ _ := ⟨trivial, rfl, rfl⟩

theorem fair_create (config : Config) (now : Instant) :
    Fair { session := some (.new config now), created := 1 } none where
  balance := rfl
  drained := rfl
  messages_eq := rfl
  count_eq := by simp
  silent _ hcreated := absurd hcreated Nat.one_ne_zero

/-- The session goes on, and completes nothing. -/
theorem fair_update (hs : Drained (some s)) (hcompletes : s.Completes s' [])
    (hdead : s.isDead = true → s'.isDead = true) : Fair { session := some s' } (some s) where
  balance := rfl
  drained := by
    rw [Drained, hcompletes.output_eq, List.append_nil]
    exact hs
  messages_eq := rfl
  count_eq _ _ h h' := by
    obtain rfl := Option.some.inj h
    obtain rfl := Option.some.inj h'
    exact hcompletes.count_eq
  silent hsilent _ := ⟨hdead hsilent, rfl, rfl⟩

/-- The session is gone, and one event tells so. -/
theorem fair_lost (peer : Address) (reason : DisconnectReason) :
    Fair { session := none, events := [.lost peer reason] } (some s) where
  balance := rfl
  drained := trivial
  messages_eq := rfl
  count_eq := by simp
  silent _ _ := ⟨trivial, rfl, rfl⟩

theorem fair_send (hs : Drained (some s)) (m : Message) :
    Fair { session := some ((s.sendMessage m).toOption.getD s) } (some s) := by
  cases hsend : s.sendMessage m with
  | error e => exact fair_update hs (.refl s) id
  | ok s' =>
    have halive := (Session.sendBits_ok (Session.send_ok hsend)).1
    refine fair_update hs (Session.completes_sendMessage hsend) fun hdead => ?_
    rw [hdead] at halive
    cases halive

theorem fair_handle (hs : Drained (some s)) (config : Config) (peer : Address) (data : Bytes)
    (now : Instant) : Fair ((Hub.Request.handle data now).outcome config peer (some s)) (some s) := by
  have hcompletes := s.completes_handleDatagram data now
  have houtput : (s.handleDatagram data now).2.output.toList = s.completed data now := by
    have hnil : s.output.toList = [] := hs
    rw [hcompletes.output_eq, hnil, List.nil_append]
  refine ⟨?_, rfl, houtput, fun _ _ h h' => ?_, fun hdead _ => ?_⟩
  · rw [Hub.Request.outcome]
    cases (s.handleDatagram data now).1 <;> rfl
  · obtain rfl := Option.some.inj h
    obtain rfl := Option.some.inj h'
    rw [Hub.Request.outcome, houtput]
    exact hcompletes.count_eq
  · rw [Hub.Request.outcome, Session.handleDatagram_of_isDead hdead]
    exact ⟨hdead, hs, rfl⟩

theorem fair_ask (hs : Drained session) (config : Config) (peer : Address) (r : Hub.Request) :
    Fair (r.outcome config peer session) session := by
  cases session with
  | none =>
    cases r with
    | create now => exact fair_create config now
    | _ => exact fair_none
  | some s =>
    cases r with
    | create now => exact fair_update hs (.refl s) id
    | destroy => exact fair_lost peer .closedLocally
    | kill => exact fair_update hs (.none rfl rfl) fun _ => rfl
    | send m => exact fair_send hs m
    | handle data now => exact fair_handle hs config peer data now

theorem fair_still (hs : Drained session) : Fair { session } session := by
  cases session with
  | none => exact fair_none
  | some s => exact fair_update hs (.refl s) id

theorem fair_tick (hs : Drained session) (peer : Address) (now : Instant) :
    Fair (ofTick peer now session) session := by
  cases session with
  | none => exact fair_none
  | some s =>
    cases hdead : (s.transmit now).2.dead with
    | none =>
      have htick : ofTick peer now (some s) = { session := some (s.transmit now).2 } := by
        simp [ofTick, Session.isDead, hdead]
      rw [htick]
      refine fair_update hs (s.completes_transmit now) fun hdead' => ?_
      rw [Session.transmit, if_pos hdead']
      exact hdead'
    | some reason =>
      have htick : ofTick peer now (some s) = { session := none, events := [.lost peer reason] } := by
        simp [ofTick, Session.isDead, hdead]
      rw [htick]
      exact fair_lost peer reason

end Outcome

namespace PeerView

open Outcome

variable {v : PeerView}

/-- Whatever happens is fair. -/
theorem exists_fair (hdrained : Drained v.session) (action : Hub.Action) :
    ∃ o ticks, o.Fair v.session ∧ v.act action = { v.become o with ticks } := by
  have hstill : v = { v.become { session := v.session } with ticks := v.ticks } := by
    ext : 1 <;> simp [become]
  cases action with
  | ask peer r => exact ⟨_, v.ticks, fair_ask hdrained v.config v.peer r, rfl⟩
  | tick now => exact ⟨_, _, fair_tick hdrained v.peer now, rfl⟩
  | receive => exact ⟨_, v.ticks, fair_still hdrained, hstill⟩
  | poll => exact ⟨_, v.ticks, fair_still hdrained, hstill⟩

/-- What holds of a peer all the time. -/
structure Settled (v : PeerView) : Prop where
  balance : v.events.countP PeerEvent.isLost + present v.session = v.created
  drained : Drained v.session

theorem Settled.act (hv : v.Settled) (action : Hub.Action) : (v.act action).Settled := by
  obtain ⟨o, ticks, hfair, hact⟩ := exists_fair hv.drained action
  have hbalance := hfair.balance
  have hbefore := hv.balance
  rw [hact]
  refine ⟨?_, hfair.drained⟩
  simp only [become, List.countP_append]
  omega

theorem Settled.foldl (hv : v.Settled) (actions : List Hub.Action) :
    (actions.foldl PeerView.act v).Settled := by
  induction actions generalizing v with
  | nil => exact hv
  | cons action actions ih => exact ih (hv.act action)

theorem created_le_foldl (hv : v.Settled) (actions : List Hub.Action) :
    v.created ≤ (actions.foldl PeerView.act v).created := by
  induction actions generalizing v with
  | nil => exact Nat.le_refl _
  | cons action actions ih =>
    obtain ⟨o, ticks, -, hact⟩ := exists_fair hv.drained action
    have hstep : v.created ≤ (v.act action).created := hact ▸ Nat.le_add_right ..
    exact hstep.trans (ih (hv.act action))

/-- Nothing more is heard of a peer that is dead, until it is added again. -/
theorem silent_foldl (hv : v.Settled) (hsilent : Silent v.session) {actions : List Hub.Action}
    (hcreated : (actions.foldl PeerView.act v).created = v.created) :
    (actions.foldl PeerView.act v).messages = v.messages ∧
      (actions.foldl PeerView.act v).events.filter (!·.isLost) = v.events.filter (!·.isLost) := by
  induction actions generalizing v with
  | nil => exact ⟨rfl, rfl⟩
  | cons action actions ih =>
    obtain ⟨o, ticks, hfair, hact⟩ := exists_fair hv.drained action
    -- The number of additions never falls, so this action has not made one.
    have hlast := created_le_foldl (hv.act action) actions
    have hstep : (v.act action).created = v.created + o.created := by
      rw [hact]
      rfl
    rw [List.foldl_cons] at hcreated ⊢
    obtain ⟨hsilent', hmessages, hevents⟩ := hfair.silent hsilent (by omega)
    obtain ⟨hmessages', hevents'⟩ := ih (hv.act action) (by rw [hact]; exact hsilent') (by omega)
    rw [hmessages', hevents', hact]
    simp [become, hmessages, hevents]

/-- As long as a peer is there, its session counts the messages. -/
theorem count_foldl (hv : v.Settled) {actions : List Hub.Action} {s s' : Session}
    (hs : v.session = some s) (hs' : (actions.foldl PeerView.act v).session = some s')
    (hcreated : (actions.foldl PeerView.act v).created = v.created) :
    (actions.foldl PeerView.act v).messages.length + s.counters.messagesReceived =
      v.messages.length + s'.counters.messagesReceived := by
  -- From the end, since a peer that was there before the last action is there after it.
  induction actions using List.reverseRecOn generalizing s' with
  | nil =>
    rw [List.foldl_nil, hs] at hs'
    rw [List.foldl_nil, Option.some.inj hs']
  | append_singleton actions action ih =>
    rw [List.foldl_append, List.foldl_cons, List.foldl_nil] at hs' hcreated ⊢
    have hbefore := hv.foldl actions
    have hfirst := created_le_foldl hv actions
    generalize actions.foldl PeerView.act v = v' at ih hs' hcreated hbefore hfirst ⊢
    obtain ⟨o, ticks, hfair, hact⟩ := exists_fair hbefore.drained action
    rw [hact] at hs' hcreated ⊢
    have hcreated : v'.created + o.created = v.created := hcreated
    have hsession : o.session = some s' := hs'
    cases hs'' : v'.session with
    | none =>
      have hbalance := hfair.balance
      rw [hsession, hs''] at hbalance
      simp only [present, Option.toList_some, Option.toList_none, List.length_cons] at hbalance
      omega
    | some s'' =>
      have hcount := hfair.count_eq s'' s' hs'' hsession
      have hprefix := ih hs'' (by omega)
      simp only [become, List.length_append, List.length_map]
      omega

end PeerView

namespace Hub

variable {h h' : Hub}

/-- What holds of a hub all the time. -/
structure Sound (h : Hub) : Prop where
  keyed : h.table.Keyed
  settled : ∀ p, (h.view p).Settled
  messages_eq : h.messages = h.completed

theorem sound_new (config : Config) : (new config).Sound where
  keyed := keyed_new config
  settled _ := ⟨rfl, trivial⟩
  messages_eq := rfl

theorem Sound.rearranged (hs : h.Sound) (hr : h.Rearranged h') : h'.Sound where
  keyed := hr.keyed hs.keyed
  settled p := hr.view hs.keyed p ▸ hs.settled p
  messages_eq := by
    obtain ⟨sessions, -, rfl⟩ := hr
    exact hs.messages_eq

theorem Sound.messages_act (hs : h.Sound) (action : Action) :
    (h.act action).messages = (h.act action).completed := by
  cases action with
  | ask peer r =>
    have hb := becomes_ask hs.keyed peer r
    have hfair := Outcome.fair_ask (hs.settled peer).drained h.table.config peer r
    rw [act, hb.messages_eq, hb.completed_eq, hs.messages_eq]
    exact congrArg (fun ms => h.completed ++ ms.map (peer, ·)) hfair.messages_eq
  | tick now => exact hs.messages_eq
  | receive =>
    obtain ⟨received, returned, hact, hmessages⟩ := h.exists_receive
    rw [hact]
    exact hmessages.trans hs.messages_eq
  | poll =>
    obtain ⟨events, polled, hact, -⟩ := h.exists_poll
    rw [hact]
    exact hs.messages_eq

theorem Sound.act (hs : h.Sound) (action : Action) : (h.act action).Sound where
  keyed := keyed_act hs.keyed action
  settled p := by
    rw [view_act hs.keyed]
    split_ifs
    · exact (hs.settled p).act action
    · exact hs.settled p
  messages_eq := hs.messages_act action

theorem Run.sound {config : Config} {actions : List Action} (hrun : Run (new config) actions h) :
    h.Sound :=
  hrun.keep (sound_new config) (fun hr hs => hs.rearranged hr) fun _ action hs => hs.act action

/-- The events about one peer, of one kind. -/
theorem filter_view_events (h : Hub) (p : Address) (kind : PeerEvent → Bool) :
    (h.view p).events.filter kind = h.events.filter fun e => kind e && e.peer = p :=
  List.filter_filter

theorem Sound.lost_add (hs : h.Sound) (p : Address) :
    h.events.countP (fun e => e.isLost && e.peer = p) + (if h.table.contains p then 1 else 0) =
      h.created.count p := by
  have hbalance := (hs.settled p).balance
  rw [List.countP_eq_length_filter, filter_view_events, ← List.countP_eq_length_filter] at hbalance
  have hpresent : (if h.table.contains p then 1 else 0) = Outcome.present (h.view p).session := by
    rw [PeerTable.contains, Outcome.present]
    show _ = (h.table.session? p).toList.length
    cases h.table.session? p <;> rfl
  rw [hpresent]
  exact hbalance

theorem Sound.drained (hs : h.Sound) {p : Address} {s : Session} (hp : h.table.session? p = some s) :
    s.output.toList = [] := by
  have hdrained : Outcome.Drained (h.table.session? p) := (hs.settled p).drained
  rwa [hp] at hdrained

theorem Sound.counted (hs : h.Sound) {actions : List Action} (hrun : Run h actions h') {p : Address}
    (hcreated : h'.created.count p = h.created.count p) {s s' : Session}
    (hp : h.table.session? p = some s) (hp' : h'.table.session? p = some s') :
    (h'.messages.filter (·.1 = p)).length + s.counters.messagesReceived =
      (h.messages.filter (·.1 = p)).length + s'.counters.messagesReceived := by
  have hview := hrun.view hs.keyed p
  have hcreated : (h'.view p).created = (h.view p).created := hcreated
  have hp' : (h'.view p).session = some s' := hp'
  have hcount := PeerView.count_foldl (hs.settled p) hp (hview ▸ hp') (hview ▸ hcreated)
  rw [← hview] at hcount
  exact hcount

theorem Sound.silent (hs : h.Sound) {p : Address}
    (hsilent : ∀ s, h.table.session? p = some s → s.isDead = true) {actions : List Action}
    (hrun : Run h actions h') (hcreated : h'.created.count p = h.created.count p) :
    h'.messages.filter (·.1 = p) = h.messages.filter (·.1 = p) ∧
      h'.events.filter (fun e => !e.isLost && e.peer = p) =
        h.events.filter (fun e => !e.isLost && e.peer = p) := by
  have hview := hrun.view hs.keyed p
  have hcreated : (h'.view p).created = (h.view p).created := hcreated
  have hsilent : Outcome.Silent (h.view p).session := by
    show Outcome.Silent (h.table.session? p)
    cases hp : h.table.session? p with
    | none => trivial
    | some s => exact hsilent s hp
  obtain ⟨hmessages, hevents⟩ := PeerView.silent_foldl (hs.settled p) hsilent (hview ▸ hcreated)
  rw [← hview] at hmessages hevents
  rw [filter_view_events, filter_view_events] at hevents
  exact ⟨hmessages, hevents⟩

theorem Sound.isDead_tick (hs : h.Sound) {now : Instant} {p : Address} {s : Session}
    (hp : (h.table.tick now).2.session? p = some s) : s.isDead = false := by
  rw [hs.keyed.session?_tick] at hp
  simpa using (Option.filter_eq_some_iff.mp hp).2

theorem Sound.exists_of_mem_losses (hs : h.Sound) {now : Instant} {e : PeerEvent}
    (he : e ∈ h.table.losses now) : ∃ p s reason, e = .lost p reason ∧
      h.table.session? p = some s ∧ (s.transmit now).2.dead = some reason ∧
        (s.transmit now).2.output.toList = [] := by
  obtain ⟨⟨p, s⟩, hmem, he⟩ := List.mem_flatMap.mp he
  obtain ⟨reason, hdead, rfl⟩ := Option.map_eq_some_iff.mp (Option.mem_toList.mp he)
  have hp : h.table.session? p = some s := (lookup_eq_some_iff_mem hs.keyed).mpr hmem
  have houtput := (s.completes_transmit now).output_eq
  rw [hs.drained hp, List.nil_append] at houtput
  exact ⟨p, s, reason, rfl, hp, hdead, houtput⟩

theorem Sound.ticked (hs : h.Sound) {now : Instant} (hrun : Run h [.tick now] h') :
    (∀ p s, h'.table.session? p = some s → s.isDead = false) ∧
      ∃ lost, h'.events = h.events ++ lost ∧ ∀ e ∈ lost, ∃ p s reason, e = .lost p reason ∧
        h.table.session? p = some s ∧ (s.transmit now).2.dead = some reason ∧
          (s.transmit now).2.output.toList = [] := by
  cases hrun with
  | @cons _ h₁ _ _ hr _ hrest =>
    cases hrest
    have hs₁ := hs.rearranged hr
    have hsame : ∀ p, h₁.table.session? p = h.table.session? p := fun p =>
      congrArg PeerView.session (hr.view hs.keyed p)
    have hevents : h₁.events = h.events := by
      obtain ⟨sessions, -, rfl⟩ := hr
      rfl
    refine ⟨fun p s hp => hs₁.isDead_tick hp, h₁.table.losses now, ?_, fun e he => ?_⟩
    · rw [events_tick, hevents]
    · obtain ⟨p, s, reason, heq, hp, hlost⟩ := hs₁.exists_of_mem_losses he
      exact ⟨p, s, reason, heq, hsame p ▸ hp, hlost⟩

/-- The accounts of the lives of all peers, at any moment. -/
structure Accounted (h : Hub) : Prop where
  /-- Each time a peer was added it was lost once, or it is still there. -/
  lost_add : ∀ p, h.events.countP (fun e => e.isLost && e.peer = p) +
    (if h.table.contains p then 1 else 0) = h.created.count p
  /-- No session holds a message that it has completed. -/
  drained : ∀ p s, h.table.session? p = some s → s.output.toList = []
  /-- All that was completed was queued once, in order, and marked with its peer. -/
  messages_eq : h.messages = h.completed
  /-- Nothing was left out, by the count of the session itself. -/
  counted : ∀ p actions h', Run h actions h' → h'.created.count p = h.created.count p →
    ∀ s s', h.table.session? p = some s → h'.table.session? p = some s' →
      (h'.messages.filter (·.1 = p)).length + s.counters.messagesReceived =
        (h.messages.filter (·.1 = p)).length + s'.counters.messagesReceived
  /-- A tick leaves no dead session behind. Those it removes have nothing left to be taken, and their
  own reasons are told. -/
  ticked : ∀ now h', Run h [.tick now] h' →
    (∀ p s, h'.table.session? p = some s → s.isDead = false) ∧
      ∃ lost, h'.events = h.events ++ lost ∧ ∀ e ∈ lost, ∃ p s reason,
        e = .lost p reason ∧ h.table.session? p = some s ∧ (s.transmit now).2.dead = some reason ∧
          (s.transmit now).2.output.toList = []
  /-- Until a peer is added again, nothing more is heard of it when it is dead or gone. -/
  silent : ∀ p, (∀ s, h.table.session? p = some s → s.isDead = true) →
    ∀ actions h', Run h actions h' → h'.created.count p = h.created.count p →
      h'.messages.filter (·.1 = p) = h.messages.filter (·.1 = p) ∧
        h'.events.filter (fun e => !e.isLost && e.peer = p) =
          h.events.filter (fun e => !e.isLost && e.peer = p)

/-- The accounts of all peers are right after any run. -/
theorem Run.accounted {config : Config} {actions : List Action} (hrun : Run (new config) actions h) :
    h.Accounted where
  lost_add := hrun.sound.lost_add
  drained _ _ hp := hrun.sound.drained hp
  messages_eq := hrun.sound.messages_eq
  counted _ _ _ hrun' hcreated _ _ hp hp' := hrun.sound.counted hrun' hcreated hp hp'
  ticked _ _ hrun' := hrun.sound.ticked hrun'
  silent _ hsilent _ _ hrun' hcreated := hrun.sound.silent hsilent hrun' hcreated

/-- A peer that sends a message and is killed, destroyed the second time, and added a third time. -/
def lives : List Action :=
  [.ask (loopback 1) (.create 0), .ask (loopback 1) (.handle [0, 0, 7, 0, 7] 1),
    .ask (loopback 1) .kill, .tick 2, .ask (loopback 1) (.create 3), .ask (loopback 1) .destroy,
    .ask (loopback 1) (.create 4)]

theorem accounted_lives :
    let h := lives.foldl act (new .default)
    h.messages.length = 1 ∧ h.messages = h.completed ∧ h.created.count (loopback 1) = 3 ∧
      h.table.contains (loopback 1) = true ∧
        h.events.countP (fun e => e.isLost && e.peer = loopback 1) + 1 = 3 := by
  intro h
  have hrun : Run (new .default) lives h := run_foldl ..
  have haccounted := hrun.accounted
  have hcreated : h.created.count (loopback 1) = 3 := by decide +kernel
  have hthere : h.table.contains (loopback 1) = true := by decide +kernel
  have hlost := haccounted.lost_add (loopback 1)
  rw [hthere, hcreated] at hlost
  exact ⟨by decide +kernel, haccounted.messages_eq, hcreated, hthere, hlost⟩

end Hub
end ReliableDatagram
