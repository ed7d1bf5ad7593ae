import ReliableDatagram.Proofs.Peers.Run

/-!
# Isolation of peers

What a request does is decided by the session of its peer, and it shows nowhere but there. So what there
is to see of one peer makes up a system of its own, a `PeerView`, in which the requests for others do
not occur.
-/
namespace ReliableDatagram

/-- What a request leads to: the session that the peer has afterwards, and what is added to the
history. -/
structure Outcome where
  session : Option Session
  created : Nat := 0
  completed : List Delivery := []
  messages : List Delivery := []
  events : List PeerEvent := []

/-- What a tick means for one peer. -/
def Outcome.ofTick (peer : Address) (now : Instant) (session : Option Session) : Outcome :=
  { session := (session.map fun s => (s.transmit now).2).filter fun s => !s.isDead
    events :=
      (session.map fun s => ((s.transmit now).2.dead.map (PeerEvent.lost peer)).toList).getD [] }

/-- The end of a datagram, as an event. -/
def complaints (peer : Address) : Except Malformed Unit → List PeerEvent
  | .ok () => []
  | .error e => [.malformed peer e]

namespace Hub

def Request.outcome (config : Config) (peer : Address) : Request → Option Session → Outcome
  | .create now, none => { session := some (.new config now), created := 1 }
  | .create _, some s => { session := some s }
  | .destroy, some _ => { session := none, events := [.lost peer .closedLocally] }
  | .kill, some s => { session := some s.kill }
  | .send m, some s => { session := some ((s.sendMessage m).toOption.getD s) }
  | .handle data now, some s =>
    let after := (s.handleDatagram data now).2
    { session := some { after with output := .empty }
      completed := s.completed data now
      messages := after.output.toList
      events := complaints peer (s.handleDatagram data now).1 }
  | .destroy, none | .kill, none | .send _, none | .handle _ _, none => { session := none }

/-- Nothing has changed but what the outcome says of one peer. -/
structure Becomes (h : Hub) (peer : Address) (o : Outcome) (h' : Hub) : Prop where
  config_eq : h'.table.config = h.table.config
  keyed : h'.table.Keyed
  session?_eq : ∀ p, h'.table.session? p = if p = peer then o.session else h.table.session? p
  created_eq : h'.created = h.created ++ .replicate o.created peer
  ticks_eq : h'.ticks = h.ticks
  completed_eq : h'.completed = h.completed ++ o.completed.map (peer, ·)
  messages_eq : h'.messages = h.messages ++ o.messages.map (peer, ·)
  events_eq : h'.events = h.events ++ o.events
  peer_eq : ∀ e ∈ o.events, e.peer = peer

variable {h h' : Hub} {p peer : Address} {s : Session}

/-- Nothing has changed at all. -/
theorem Becomes.refl (hkeyed : h.table.Keyed) {session : Option Session}
    (hs : h.table.session? peer = session) : h.Becomes peer { session } h := by
  refine ⟨rfl, hkeyed, fun p => ?_, by simp, rfl, by simp, by simp, by simp, by simp⟩
  split_ifs with hp
  · rw [hp, hs]
  · rfl

/-- Another session takes the place of the one that the peer has. -/
theorem Becomes.update (hkeyed : h.table.Keyed) (hs : h.table.session? peer = some s) (s' : Session) :
    h.Becomes peer { session := some s' } { h with table := h.table.setSession peer s' } where
  config_eq := rfl
  keyed := hkeyed.setSession peer s'
  session?_eq p := by
    rw [PeerTable.session?_setSession]
    split_ifs with hp
    · rw [hp, hs, Option.map_some]
    · exact Option.map_id'
  created_eq := by simp
  ticks_eq := rfl
  completed_eq := by simp
  messages_eq := by simp [messages, PeerTable.setSession]
  events_eq := by simp [events, PeerTable.setSession]
  peer_eq := by simp

theorem becomes_create (hkeyed : h.table.Keyed) (peer : Address) (now : Instant) :
    h.Becomes peer ((Request.create now).outcome h.table.config peer (h.table.session? peer))
      (h.ask peer (.create now)) := by
  rw [ask, PeerTable.create, PeerTable.contains]
  cases hs : h.table.session? peer with
  | some s => exact .refl hkeyed hs
  | none =>
    exact {
      config_eq := rfl
      keyed := hkeyed.add hs _
      session?_eq := PeerTable.session?_add hs _
      created_eq := rfl
      ticks_eq := rfl
      completed_eq := by simp [Request.outcome]
      messages_eq := by simp [messages, Request.outcome]
      events_eq := by simp [events, Request.outcome]
      peer_eq := by simp [Request.outcome] }

theorem becomes_destroy (hkeyed : h.table.Keyed) (peer : Address) :
    h.Becomes peer (Request.destroy.outcome h.table.config peer (h.table.session? peer))
      (h.ask peer .destroy) := by
  rw [ask, PeerTable.destroy, PeerTable.contains]
  cases hs : h.table.session? peer with
  | none => exact .refl hkeyed hs
  | some s =>
    exact {
      config_eq := rfl
      keyed := hkeyed.filter _
      session?_eq := fun p => by
        refine (hkeyed.session?_filter _ p).trans ?_
        split_ifs with hp
        · simp [hp, Request.outcome]
        · cases h.table.session? p <;> simp [hp]
      created_eq := by simp [Request.outcome]
      ticks_eq := rfl
      completed_eq := by simp [Request.outcome]
      messages_eq := by simp [messages, Request.outcome]
      events_eq := by simp [events, Request.outcome]
      peer_eq := by simp [Request.outcome, PeerEvent.peer] }

theorem becomes_kill (hkeyed : h.table.Keyed) (peer : Address) :
    h.Becomes peer (Request.kill.outcome h.table.config peer (h.table.session? peer))
      (h.ask peer .kill) := by
  rw [ask, PeerTable.kill]
  cases hs : h.table.session? peer with
  | none => exact .refl hkeyed hs
  | some s => exact .update hkeyed hs s.kill

theorem becomes_send (hkeyed : h.table.Keyed) (peer : Address) (m : Message) :
    h.Becomes peer ((Request.send m).outcome h.table.config peer (h.table.session? peer))
      (h.ask peer (.send m)) := by
  rw [ask, PeerTable.send]
  cases hs : h.table.session? peer with
  | none => exact .refl hkeyed hs
  | some s =>
    rw [Request.outcome]
    dsimp only
    cases s.sendMessage m with
    | ok s' => exact .update hkeyed hs s'
    | error e => exact .refl hkeyed hs

theorem becomes_handle (hkeyed : h.table.Keyed) (peer : Address) (data : Bytes) (now : Instant) :
    h.Becomes peer ((Request.handle data now).outcome h.table.config peer (h.table.session? peer))
      (h.ask peer (.handle data now)) := by
  rw [ask, PeerTable.handleDatagram]
  cases hs : h.table.session? peer with
  | none =>
    rw [List.map_nil, List.append_nil]
    exact .refl hkeyed hs
  | some s =>
    have hupdate := Becomes.update hkeyed hs { (s.handleDatagram data now).2 with output := .empty }
    exact {
      config_eq := rfl
      keyed := hupdate.keyed
      session?_eq := hupdate.session?_eq
      created_eq := by simp [Request.outcome]
      ticks_eq := rfl
      completed_eq := rfl
      messages_eq := by simp [messages, Request.outcome, Session.receiveAll]
      events_eq := by
        rw [events, Request.outcome]
        dsimp only
        cases (s.handleDatagram data now).1 with
        | ok => simp [events, complaints]
        | error e => simp [events, complaints]
      peer_eq := by
        rw [Request.outcome]
        dsimp only
        cases (s.handleDatagram data now).1 with
        | ok => simp [complaints]
        | error e => simp [complaints, PeerEvent.peer] }

/-- A request does what its outcome says, which depends on the session of the peer alone. -/
theorem becomes_ask (hkeyed : h.table.Keyed) (peer : Address) (r : Request) :
    h.Becomes peer (r.outcome h.table.config peer (h.table.session? peer)) (h.ask peer r) := by
  cases r with
  | create now => exact becomes_create hkeyed peer now
  | destroy => exact becomes_destroy hkeyed peer
  | kill => exact becomes_kill hkeyed peer
  | send m => exact becomes_send hkeyed peer m
  | handle data now => exact becomes_handle hkeyed peer data now

end Hub

/-- What there is to see of one peer. -/
@[ext]
structure PeerView where
  peer : Address
  config : Config
  session : Option Session
  created : Nat
  ticks : List (List (Address × Frame))
  messages : List (Address × Delivery)
  events : List PeerEvent

namespace PeerView

/-- The view after something has happened to the peer. -/
def become (v : PeerView) (o : Outcome) : PeerView :=
  { v with
    session := o.session
    created := v.created + o.created
    messages := v.messages ++ o.messages.map (v.peer, ·)
    events := v.events ++ o.events }

def ask (v : PeerView) (r : Hub.Request) : PeerView := v.become (r.outcome v.config v.peer v.session)

def tick (v : PeerView) (now : Instant) : PeerView :=
  { v.become (.ofTick v.peer now v.session) with
    ticks := v.ticks ++ [(v.session.map fun s => (s.transmit now).1.map (v.peer, ·)).getD []] }

def act (v : PeerView) : Hub.Action → PeerView
  | .ask _ r => v.ask r
  | .tick now => v.tick now
  | .receive | .poll => v

end PeerView

namespace Hub

variable {h h' : Hub} {p peer : Address}

def view (h : Hub) (p : Address) : PeerView :=
  { peer := p
    config := h.table.config
    session := h.table.session? p
    created := h.created.count p
    ticks := h.ticks.map (·.filter (·.1 = p))
    messages := h.messages.filter (·.1 = p)
    events := h.events.filter (·.peer = p) }

theorem Rearranged.keyed (hr : h.Rearranged h') (hkeyed : h.table.Keyed) : h'.table.Keyed := by
  obtain ⟨sessions, hperm, rfl⟩ := hr
  exact (hperm.map Prod.fst).nodup_iff.mpr hkeyed

theorem Rearranged.view (hr : h.Rearranged h') (hkeyed : h.table.Keyed) (p : Address) :
    h'.view p = h.view p := by
  obtain ⟨sessions, hperm, rfl⟩ := hr
  ext : 1
  case session => exact lookup_eq_of_perm hperm hkeyed p
  all_goals rfl

theorem keyed_act (hkeyed : h.table.Keyed) (action : Action) : (h.act action).table.Keyed := by
  cases action with
  | ask peer r => exact (becomes_ask hkeyed peer r).keyed
  | tick now => exact hkeyed.tick now
  | receive =>
    obtain ⟨received, returned, hact, -⟩ := h.exists_receive
    rw [hact]
    exact hkeyed
  | poll =>
    obtain ⟨events, polled, hact, -⟩ := h.exists_poll
    rw [hact]
    exact hkeyed

section Becomes

variable {o : Outcome} (hb : h.Becomes peer o h')
include hb

theorem Becomes.view_peer : h'.view peer = (h.view peer).become o := by
  have hevents : o.events.filter (·.peer = peer) = o.events :=
    List.filter_eq_self.mpr fun e he => decide_eq_true (hb.peer_eq e he)
  ext : 1
  case peer => rfl
  case config => exact hb.config_eq
  case session => exact (hb.session?_eq peer).trans (if_pos rfl)
  case created => simp [view, hb.created_eq, PeerView.become]
  case ticks => simp [view, hb.ticks_eq, PeerView.become]
  case messages =>
    simp [view, hb.messages_eq, PeerView.become, List.filter_map, Function.comp_def]
  case events => simp [view, hb.events_eq, PeerView.become, hevents]

theorem Becomes.view_other (hp : peer ≠ p) : h'.view p = h.view p := by
  have hevents : o.events.filter (·.peer = p) = [] := by
    refine List.filter_eq_nil_iff.mpr fun e he hep => hp ?_
    rw [← hb.peer_eq e he]
    exact of_decide_eq_true hep
  ext : 1
  case peer => rfl
  case config => exact hb.config_eq
  case session => exact (hb.session?_eq p).trans (if_neg hp.symm)
  case created => simp [view, hb.created_eq, List.count_replicate, hp]
  case ticks => simp [view, hb.ticks_eq]
  case messages => simp [view, hb.messages_eq, List.filter_map, Function.comp_def, hp]
  case events => simp [view, hb.events_eq, hevents]

end Becomes

theorem events_tick (h : Hub) (now : Instant) :
    (h.act (.tick now)).events = h.events ++ h.table.losses now := by
  rw [events, events, act, PeerTable.events_tick, List.append_assoc]

theorem view_tick (hkeyed : h.table.Keyed) (now : Instant) (p : Address) :
    (h.act (.tick now)).view p = (h.view p).tick now := by
  ext : 1
  case session => exact hkeyed.session?_tick now p
  case messages =>
    show h.messages.filter _ = h.messages.filter _ ++ []
    rw [List.append_nil]
  case ticks =>
    show (h.ticks ++ [(h.table.tick now).1]).map _ = _
    rw [List.map_append, List.map_singleton, hkeyed.filter_frames]
    rfl
  case events =>
    show (h.act (.tick now)).events.filter _ = _
    rw [events_tick, List.filter_append, hkeyed.filter_losses]
    rfl
  all_goals rfl

/-- What there is to see of one peer is a system of its own: it goes on by itself with the actions that
concern the peer, and stands still when another peer is asked for something. -/
theorem view_act (hkeyed : h.table.Keyed) (action : Action) (p : Address) :
    (h.act action).view p = if action.concerns p then (h.view p).act action else h.view p := by
  cases action with
  | ask peer r =>
    have hb := becomes_ask hkeyed peer r
    by_cases hp : peer = p
    · subst hp
      have hconcerns : (Action.ask peer r).concerns peer = true := decide_eq_true rfl
      rw [if_pos hconcerns]
      exact hb.view_peer
    · have hconcerns : ¬(Action.ask peer r).concerns p = true := by simpa [Action.concerns] using hp
      rw [if_neg hconcerns]
      exact hb.view_other hp
  | tick now => exact view_tick hkeyed now p
  | receive =>
    obtain ⟨received, returned, hact, hmessages⟩ := h.exists_receive
    rw [hact]
    ext : 1
    case messages => exact congrArg (List.filter _) hmessages
    all_goals rfl
  | poll =>
    obtain ⟨events, polled, hact, hevents⟩ := h.exists_poll
    rw [hact]
    ext : 1
    case events => exact congrArg (List.filter _) hevents
    all_goals rfl

theorem Run.view {actions : List Action} (hrun : Run h actions h') (hkeyed : h.table.Keyed)
    (p : Address) :
    h'.view p = (actions.filter (·.concerns p)).foldl PeerView.act (h.view p) := by
  induction hrun with
  | nil h => rfl
  | cons hr action _ ih =>
    have hkeyed' := hr.keyed hkeyed
    rw [ih (keyed_act hkeyed' action), view_act hkeyed', hr.view hkeyed]
    by_cases hconcerns : action.concerns p = true
    · rw [if_pos hconcerns, List.filter_cons_of_pos hconcerns, List.foldl_cons]
    · rw [if_neg hconcerns, List.filter_cons_of_neg hconcerns]

theorem keyed_new (config : Config) : (new config).table.Keyed := List.nodup_nil

/-- Peers are isolated. Whatever is asked for other peers, and in whatever order the sessions are visited,
the session of a peer, the frames for it, its messages and the events about it are the same as if nothing
had been asked for the others. -/
theorem Run.isolated {config : Config} {actions : List Action} {p : Address} {h alone : Hub}
    (hrun : Run (new config) actions h)
    (halone : Run (new config) (actions.filter (·.concerns p)) alone) :
    h.table.session? p = alone.table.session? p ∧
      h.ticks.map (·.filter (·.1 = p)) = alone.ticks.map (·.filter (·.1 = p)) ∧
      h.messages.filter (·.1 = p) = alone.messages.filter (·.1 = p) ∧
      h.events.filter (·.peer = p) = alone.events.filter (·.peer = p) := by
  have hview : h.view p = alone.view p := by
    rw [hrun.view (keyed_new config), halone.view (keyed_new config), List.filter_filter]
    simp
  exact ⟨congrArg PeerView.session hview, congrArg PeerView.ticks hview,
    congrArg PeerView.messages hview, congrArg PeerView.events hview⟩

/-- A peer on the same machine. -/
def loopback (port : UInt16) : Address := { host := .ipv4 #v[127, 0, 0, 1], port }

/-- While there is one message for the first peer, the second one sends nonsense and dies. -/
def neighbours : List Action :=
  [.ask (loopback 1) (.create 0), .ask (loopback 2) (.create 0),
    .ask (loopback 1) (.send (.ofText "hello")), .ask (loopback 2) (.handle [0, 0, 0x70, 0] 1),
    .ask (loopback 2) .kill, .tick 5]

theorem isolated_neighbours :
    let h := neighbours.foldl act (new .default)
    let alone := (neighbours.filter (·.concerns (loopback 1))).foldl act (new .default)
    h.events.length = 2 ∧ alone.events.length = 0 ∧ alone.ticks.flatten.length = 1 ∧
      h.table.session? (loopback 1) = alone.table.session? (loopback 1) ∧
        h.ticks.map (·.filter (·.1 = loopback 1)) =
          alone.ticks.map (·.filter (·.1 = loopback 1)) := by
  intro h alone
  have hrun : Run (new .default) neighbours h := run_foldl ..
  have halone : Run (new .default) (neighbours.filter (·.concerns (loopback 1))) alone := run_foldl ..
  obtain ⟨hsession, hticks, -⟩ := hrun.isolated halone
  exact ⟨by decide +kernel, by decide +kernel, by decide +kernel, hsession, hticks⟩

end Hub
end ReliableDatagram
