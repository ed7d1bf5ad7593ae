import ReliableDatagram.Proofs.Session.Outbox

/-!
# Runs of two sessions

A `Party` is a session with the history of what it did: what it accepted and returned, the frames that
it transmitted, and the packets that reached it. In a `Network` either party acts at any time. A datagram
that it takes in is a frame that the other one has transmitted at some time before, so that the network
may lose, repeat, delay and reorder.
-/
namespace ReliableDatagram

structure Party where
  session : Session
  emitted : List Frame := []
  /-- Every accepted message, in the order of sending. -/
  accepted : List Accepted := []
  /-- What the application has received, in that order. -/
  returned : List Delivery := []
  /-- The packets that reached the session while it lived. -/
  arrived : Arrivals := []

inductive Action where
  | send (payload : Bytes) (priority : Priority) (reliability : Reliability) (channel : Nat)
  | sendBits (payload : Bytes) (bitLength : Nat) (priority : Priority) (reliability : Reliability)
      (channel : Nat)
  | update (now : Instant)
  | handle (data : Bytes) (now : Instant)
  | receive
  | setResendDelay (delay : Duration)
  | kill
  | close
  deriving DecidableEq, Repr

namespace Party

def new (config : Config) (now : Instant) : Party := { session := .new config now }

/-- What a submission leads to. A refused message changes nothing. -/
def submit (p : Party) (payload : Bytes) (bitLength : Nat) (reliability : Reliability) (channel : Nat) :
    Except SendError Session → Party
  | .error _ => p
  | .ok session =>
    { p with
      session
      accepted := p.accepted ++
        [{ payload
           bitLength := Session.effectiveBits payload bitLength
           reliability
           channel
           first := p.session.numbersTaken
           size := session.numbersTaken - p.session.numbersTaken }] }

def act (p : Party) : Action → Party
  | .send payload priority reliability channel =>
    p.submit payload (8 * payload.length) reliability channel
      (p.session.send payload priority reliability channel)
  | .sendBits payload bitLength priority reliability channel =>
    p.submit payload bitLength reliability channel
      (p.session.sendBits payload bitLength priority reliability channel)
  | .update now =>
    { p with
      session := (p.session.transmit now).2
      emitted := p.emitted ++ (p.session.transmit now).1 }
  | .handle data now =>
    { p with
      session := (p.session.handleDatagram data now).2
      arrived := if p.session.isDead then p.arrived
        else p.arrived ++ Entry.arrivals (Frame.read data).1 now }
  | .receive =>
    match p.session.receive? with
    | none => p
    | some (d, session) => { p with session, returned := p.returned ++ [d] }
  | .setResendDelay delay => { p with session := p.session.setResendDelay delay }
  | .kill => { p with session := p.session.kill }
  | .close => { p with session := p.session.close }

end Party

/-- Only datagrams that the peer has transmitted arrive. -/
def Action.Possible (emitted : List Frame) : Action → Prop
  | .handle data _ => ∃ f ∈ emitted, f.bytes = data
  | _ => True

instance decidablePossible (emitted : List Frame) : ∀ action : Action,
    Decidable (action.Possible emitted)
  | .handle data _ => inferInstanceAs (Decidable (∃ f ∈ emitted, f.bytes = data))
  | .send .. | .sendBits .. | .update _ | .receive | .setResendDelay _ | .kill | .close =>
    inferInstanceAs (Decidable True)

structure Network where
  a : Party
  b : Party

inductive Side where
  | a
  | b
  deriving DecidableEq, Repr

namespace Network

def act (n : Network) (side : Side) (action : Action) : Network :=
  match side with
  | .a => { n with a := n.a.act action }
  | .b => { n with b := n.b.act action }

def inbound (n : Network) : Side → List Frame
  | .a => n.b.emitted
  | .b => n.a.emitted

/-- The states that two new sessions may come to. -/
inductive Reachable : Network → Prop
  | start (ca cb : Config) (ta tb : Instant) : Reachable { a := .new ca ta, b := .new cb tb }
  | act {n : Network} (h : Reachable n) (side : Side) (action : Action)
      (hp : action.Possible (n.inbound side)) : Reachable (n.act side action)

def run (n : Network) : List (Side × Action) → Network
  | [] => n
  | (side, action) :: steps => (n.act side action).run steps

def Feasible (n : Network) : List (Side × Action) → Prop
  | [] => True
  | (side, action) :: steps =>
    action.Possible (n.inbound side) ∧ (n.act side action).Feasible steps

instance decidableFeasible : ∀ (n : Network) (steps : List (Side × Action)),
    Decidable (n.Feasible steps)
  | _, [] => inferInstanceAs (Decidable True)
  | n, (side, action) :: steps =>
    have := decidableFeasible (n.act side action) steps
    inferInstanceAs (Decidable (_ ∧ _))

theorem Reachable.run {n : Network} (h : n.Reachable) {steps : List (Side × Action)}
    (hp : n.Feasible steps) : (n.run steps).Reachable := by
  induction steps generalizing n with
  | nil => exact h
  | cons step steps ih => exact ih (h.act step.1 step.2 hp.1) hp.2

end Network

/-- An entry of the party's own making: a packet of what it accepted, or the acknowledgement of a
packet that reached it. -/
def Entry.Among (ms : List Shipment) (arrived : Arrivals) : Entry → Prop
  | .data p => ∃ m ∈ ms, p ∈ m.packets
  | .ack q => q.toNat ∈ arrived.map Prod.fst

namespace Entry.Among

variable {ms : List Shipment} {arrived : Arrivals} {e : Entry}

theorem append (h : e.Among ms arrived) (later : List Shipment) (later' : Arrivals) :
    e.Among (ms ++ later) (arrived ++ later') := by
  cases e with
  | ack q =>
    show q.toNat ∈ (arrived ++ later').map Prod.fst
    rw [List.map_append]
    exact List.mem_append_left _ h
  | data p =>
    obtain ⟨m, hm, hp⟩ := h
    exact ⟨m, List.mem_append_left _ hm, hp⟩

theorem wellFormed (h : e.Among ms arrived) : e.WellFormed := by
  cases e with
  | ack q => trivial
  | data p =>
    obtain ⟨m, -, hp⟩ := h
    obtain ⟨j, c, hc, rfl⟩ := Shipment.mem_packets.mp hp
    exact Shipment.wellFormed_packet hc

end Entry.Among

namespace Party

theorem exists_receive (p : Party) : ∃ output returned,
    p.act .receive = { p with session := { p.session with output }, returned } := by
  rw [act]
  cases hreceive : p.session.receive? with
  | none => exact ⟨p.session.output, p.returned, rfl⟩
  | some received =>
    obtain ⟨⟨d, output⟩, -, rfl⟩ := Option.map_eq_some_iff.mp hreceive
    exact ⟨output, p.returned ++ [d], rfl⟩

/-- What a party has accepted are the shipments `ms`, and it transmits nothing but their packets and
its acknowledgements. -/
structure Sound (p : Party) (ms : List Shipment) : Prop where
  sends : p.session.Sends ms
  carries : List.Forall₂ Shipment.Carries ms p.accepted
  stocks : p.session.Stocks (Entry.Among ms p.arrived)
  emitted : ∀ f ∈ p.emitted, f.Encoded ∧ ∀ e ∈ f.entries, e.Among ms p.arrived

/-- The shipments of a party after one action. -/
inductive Grows (ms : List Shipment) : List Shipment → Prop
  | same : Grows ms ms
  | snoc (m : Shipment) (h : m.Follows ms) : Grows ms (ms ++ [m])

variable {p : Party} {ms : List Shipment}

theorem sound_new (config : Config) (now : Instant) : (new config now).Sound [] where
  sends := Session.sends_new config now
  carries := .nil
  stocks := Session.stocks_new ..
  emitted := by simp [new]

theorem Sound.submit (h : p.Sound ms) {payload : Bytes} {bitLength : Nat} {priority : Priority}
    {r : Reliability} {channel : Nat} {result : Except SendError Session}
    (hresult : ∀ s', result = .ok s' →
      p.session.sendBits payload bitLength priority r channel = .ok s') :
    ∃ ms', Grows ms ms' ∧ (p.submit payload bitLength r channel result).Sound ms' := by
  cases result with
  | error e => exact ⟨ms, .same, h⟩
  | ok s' =>
    obtain ⟨m, hm, hsends, hextends, hcarries⟩ := Session.sends_sendBits h.sends (hresult s' rfl)
    have hamong : ∀ e : Entry, e.Among ms p.arrived → e.Among (ms ++ [m]) p.arrived := by
      intro e he
      simpa using he.append [m] []
    refine ⟨ms ++ [m], .snoc m hm, hsends, ?_, ⟨fun priority x hx => ?_, ?_, ?_⟩, fun f hf => ?_⟩
    · exact List.rel_append h.carries (.cons hcarries .nil)
    · have hx : x ∈ (s'.queues.get priority).toList := hx
      rw [hextends.queues_eq, PerPriority.get_modify] at hx
      split_ifs at hx
      · rw [Fifo.toList_foldl_push] at hx
        rcases List.mem_append.mp hx with hx | hx
        · exact hamong _ (h.stocks.queued priority x hx)
        · exact ⟨m, by simp, hx⟩
      · exact hamong _ (h.stocks.queued priority x hx)
    · intro x hx
      have hx : x ∈ s'.resend.packets := hx
      rw [hextends.resend_eq] at hx
      exact hamong _ (h.stocks.inFlight x hx)
    · intro x hx
      have hx : x ∈ s'.acks.toList := hx
      rw [hextends.acks_eq] at hx
      exact hamong _ (h.stocks.acks x hx)
    · exact ⟨(h.emitted f hf).1, fun e he => hamong e ((h.emitted f hf).2 e he)⟩

theorem Sound.congr (h : p.Sound ms) {p' : Party} (hledger : p'.session.ledger = p.session.ledger)
    (hstocks : p'.session.Stocks (Entry.Among ms p.arrived)) (hemitted : p'.emitted = p.emitted)
    (haccepted : p'.accepted = p.accepted) (harrived : p'.arrived = p.arrived) : p'.Sound ms :=
  ⟨h.sends.congr hledger, haccepted ▸ h.carries, harrived ▸ hstocks, hemitted ▸ harrived ▸ h.emitted⟩

/-- Whatever arrives, and whoever has made it. -/
theorem Sound.handle (h : p.Sound ms) (data : Bytes) (now : Instant) :
    (p.act (.handle data now)).Sound ms := by
  generalize harrived : (if p.session.isDead = true then p.arrived
    else p.arrived ++ Entry.arrivals (Frame.read data).1 now) = arrived
  have hold : ∀ e : Entry, e.Among ms p.arrived → e.Among ms arrived := by
    intro e he
    rw [← harrived]
    split_ifs
    · exact he
    · simpa using he.append [] (Entry.arrivals (Frame.read data).1 now)
  have hnew : p.session.isDead = false → ∀ x, .data x ∈ (Frame.read data).1 →
      (Entry.ack x.sequence).Among ms arrived := by
    intro halive x hx
    rw [← harrived, halive]
    refine List.mem_map.mpr ⟨(x.sequence.toNat, now), ?_, rfl⟩
    exact List.mem_append_right _ (List.mem_filterMap.mpr ⟨.data x, hx, rfl⟩)
  obtain ⟨hstocks, hhandles, -⟩ := Session.handleDatagram_spec (h.stocks.mono hold) hnew now
  have hact : p.act (.handle data now) =
      { p with session := (p.session.handleDatagram data now).2, arrived } := by
    rw [Party.act, harrived]
  rw [hact]
  exact ⟨h.sends.congr hhandles.ledger_eq, h.carries, hstocks,
    fun f hf => ⟨(h.emitted f hf).1, fun e he => hold e ((h.emitted f hf).2 e he)⟩⟩

theorem Sound.act (h : p.Sound ms) (action : Action) :
    ∃ ms', Grows ms ms' ∧ (p.act action).Sound ms' := by
  cases action with
  | send payload priority r channel => exact h.submit fun s' => Session.send_ok
  | sendBits payload bitLength priority r channel => exact h.submit fun s' => id
  | update now =>
    obtain ⟨hframes, hstocks, -⟩ := Session.transmit_spec h.stocks now
    refine ⟨ms, .same, ?_, h.carries, hstocks, fun f hf => ?_⟩
    · exact h.sends.congr (p.session.ledger_transmit now)
    · rcases List.mem_append.mp hf with hf | hf
      · exact h.emitted f hf
      · exact hframes f hf
  | handle data now => exact ⟨ms, .same, h.handle data now⟩
  | receive =>
    obtain ⟨output, returned, hact⟩ := p.exists_receive
    rw [hact]
    exact ⟨ms, .same, h.congr rfl ⟨h.stocks.queued, h.stocks.inFlight, h.stocks.acks⟩ rfl rfl rfl⟩
  | setResendDelay delay =>
    refine ⟨ms, .same, ?_⟩
    exact h.congr rfl ⟨h.stocks.queued, h.stocks.inFlight, h.stocks.acks⟩ rfl rfl rfl
  | kill =>
    refine ⟨ms, .same, ?_⟩
    exact h.congr rfl (Session.stocks_die .killed) rfl rfl rfl
  | close =>
    refine ⟨ms, .same, ?_⟩
    have hstocks := @Session.stocks_die p.session (Entry.Among ms p.arrived) .closedLocally
    exact h.congr rfl ⟨hstocks.queued, hstocks.inFlight, hstocks.acks⟩ rfl rfl rfl

/-- The states of a party, whoever has made the datagrams that it takes in. -/
inductive Reachable : Party → Prop
  | new (config : Config) (now : Instant) : Reachable (.new config now)
  | act {p : Party} (h : Reachable p) (action : Action) : Reachable (p.act action)

theorem Reachable.acts (h : p.Reachable) (actions : List Action) :
    (actions.foldl Party.act p).Reachable := by
  induction actions generalizing p with
  | nil => exact h
  | cons action actions ih => exact ih (h.act action)

theorem Reachable.sound (h : p.Reachable) : ∃ ms, p.Sound ms := by
  induction h with
  | new config now => exact ⟨[], sound_new config now⟩
  | act _ action ih =>
    obtain ⟨ms, hms⟩ := ih
    obtain ⟨ms', -, hms'⟩ := hms.act action
    exact ⟨ms', hms'⟩

end Party
end ReliableDatagram
