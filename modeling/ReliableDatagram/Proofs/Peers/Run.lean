import ReliableDatagram.Proofs.Peers.Sessions
import ReliableDatagram.Proofs.Session.Output

/-!
# Runs of a table

A `Hub` is a table of peers with the history of what it did. The sessions of a table stand in no
particular order: an action may find them in another one than the action before left them in, and a
tick visits them in the order in which it finds them.
-/
namespace ReliableDatagram

structure Hub where
  table : PeerTable
  /-- The peers that were added, each as often as it was. -/
  created : List Address := []
  /-- What each tick has returned. -/
  ticks : List (List (Address × Frame)) := []
  /-- What the sessions have completed. -/
  completed : List (Address × Delivery) := []
  /-- What the owner has received. -/
  returned : List (Address × Delivery) := []
  /-- The events that the owner has polled. -/
  polled : List PeerEvent := []

namespace Hub

/-- What can be asked for a single peer. -/
inductive Request where
  | create (now : Instant)
  | destroy
  | kill
  | send (m : Message)
  | handle (data : Bytes) (now : Instant)
  deriving DecidableEq, Repr

inductive Action where
  | ask (peer : Address) (r : Request)
  | tick (now : Instant)
  | receive
  | poll
  deriving DecidableEq, Repr

/-- A request for this peer, or an action for all peers alike. -/
def Action.concerns (p : Address) : Action → Bool
  | .ask peer _ => peer = p
  | .tick _ | .receive | .poll => true

def new (config : Config) : Hub := { table := .new config }

/-- All messages that were ever queued, in that order. -/
def messages (h : Hub) : List (Address × Delivery) := h.returned ++ h.table.received.toList

/-- All events that were ever queued, in that order. -/
def events (h : Hub) : List PeerEvent := h.polled ++ h.table.events.toList

def ask (h : Hub) (peer : Address) : Request → Hub
  | .create now =>
    match h.table.create peer now with
    | (true, table) => { h with table, created := h.created ++ [peer] }
    | (false, table) => { h with table }
  | .destroy => { h with table := (h.table.destroy peer).2 }
  | .kill => { h with table := (h.table.kill peer).2 }
  | .send m =>
    match h.table.send peer m with
    | .ok table => { h with table }
    | .error _ => h
  | .handle data now =>
    let completed := match h.table.session? peer with
      | some s => s.completed data now
      | none => []
    { h with
      table := h.table.handleDatagram peer data now
      completed := h.completed ++ completed.map (peer, ·) }

def act (h : Hub) : Action → Hub
  | .ask peer r => h.ask peer r
  | .tick now =>
    { h with table := (h.table.tick now).2, ticks := h.ticks ++ [(h.table.tick now).1] }
  | .receive =>
    match h.table.receive? with
    | some (m, table) => { h with table, returned := h.returned ++ [m] }
    | none => h
  | .poll =>
    match h.table.pollEvent? with
    | some (e, table) => { h with table, polled := h.polled ++ [e] }
    | none => h

/-- The same sessions in any order. -/
def Rearranged (h h' : Hub) : Prop :=
  ∃ sessions, sessions.Perm h.table.sessions ∧
    h' = { h with table := { h.table with sessions } }

inductive Run : Hub → List Action → Hub → Prop
  | nil (h : Hub) : Run h [] h
  | cons {h h₁ h₂ : Hub} {actions : List Action} (hr : h.Rearranged h₁) (action : Action)
      (hrun : Run (h₁.act action) actions h₂) : Run h (action :: actions) h₂

variable {h h' : Hub}

theorem Rearranged.refl (h : Hub) : h.Rearranged h := ⟨h.table.sessions, .refl _, rfl⟩

/-- There is a run of any actions: the sessions may well stay in their order. -/
theorem run_foldl (h : Hub) (actions : List Action) : Run h actions (actions.foldl act h) := by
  induction actions generalizing h with
  | nil => exact .nil h
  | cons action actions ih => exact .cons (.refl h) action (ih _)

/-- What every action keeps, whatever the order of the sessions, is kept. -/
theorem Run.keep {P : Hub → Prop} {actions : List Action} (hrun : Run h actions h') (hp : P h)
    (hrearranged : ∀ {h h' : Hub}, h.Rearranged h' → P h → P h')
    (hact : ∀ (h : Hub) (action : Action), P h → P (h.act action)) : P h' := by
  induction hrun with
  | nil h => exact hp
  | cons hr action _ ih => exact ih (hact _ action (hrearranged hr hp))

/-- A message goes from the queue to the owner, if there is one. -/
theorem exists_receive (h : Hub) : ∃ received returned,
    h.act .receive = { h with table := { h.table with received }, returned } ∧
      returned ++ received.toList = h.messages := by
  rw [act]
  cases hreceive : h.table.receive? with
  | none => exact ⟨h.table.received, h.returned, rfl, rfl⟩
  | some answer =>
    obtain ⟨⟨m, received⟩, hpop, rfl⟩ := Option.map_eq_some_iff.mp hreceive
    refine ⟨received, h.returned ++ [m], rfl, ?_⟩
    rw [messages, Fifo.toList_of_pop? hpop, ← List.append_cons]

theorem exists_poll (h : Hub) : ∃ events polled,
    h.act .poll = { h with table := { h.table with events }, polled } ∧
      polled ++ events.toList = h.events := by
  rw [act]
  cases hpoll : h.table.pollEvent? with
  | none => exact ⟨h.table.events, h.polled, rfl, rfl⟩
  | some answer =>
    obtain ⟨⟨e, events⟩, hpop, rfl⟩ := Option.map_eq_some_iff.mp hpoll
    refine ⟨events, h.polled ++ [e], rfl, ?_⟩
    rw [Hub.events, Fifo.toList_of_pop? hpop, ← List.append_cons]

end Hub
end ReliableDatagram
