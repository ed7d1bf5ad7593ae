import ReliableDatagram.Proofs.Network.Run
import ReliableDatagram.Proofs.Session.EventLog

/-!
# The history of packets

The history of a party says when each packet was queued, when it was emitted and with what delay
before it may be emitted again, and when it was released, because an acknowledgement has come for it or
it was dropped for a newer one of its channel. While no number is used twice a packet is known by its
number, an unreliable one is emitted once, a reliable one not before the delay has passed, and none after
it was released; and the packets of one priority are emitted first in the order in which they were queued.
-/
namespace ReliableDatagram
namespace Party

/-- Packets in flight that a datagram releases: an acknowledgement of their number comes in it, or they are
not in flight behind it. -/
def releases (p : Party) (data : Bytes) (now : Instant) : List Packet :=
  p.session.resend.packets.filter fun x => .ack x.sequence ∈ p.session.heeded data ∨
    x ∉ (p.session.handleDatagram data now).2.resend.packets

/-- What an action does to packets. -/
def events (p : Party) (action : Action) : List Event :=
  match action with
  | .update now => emissions (p.session.transmitted now) now p.session.config.resendDelay
  | .handle data now => (p.releases data now).map .released
  | _ => (p.session.appended (p.act action).session).map .queued

def history (p : Party) : List Action → List Event
  | [] => []
  | action :: actions => p.events action ++ (p.act action).history actions

/-- The log is the history of the party, whose accepted messages are the shipments `ms`. -/
structure Recounts (p : Party) (ms : List Shipment) (log : List Event) : Prop where
  sends : p.session.Sends ms
  queued_eq : log.filterMap Event.queued? = ms.flatMap Shipment.packets
  recounts : p.session.Recounts log

variable {p : Party} {ms : List Shipment} {log : List Event}

theorem Recounts.submit (h : p.Recounts ms log) {payload : Bytes} {bitLength : Nat}
    {priority : Priority} {r : Reliability} {channel : Nat} {result : Except SendError Session}
    (hresult : ∀ s', result = .ok s' →
      p.session.sendBits payload bitLength priority r channel = .ok s')
    (hperiod : (p.submit payload bitLength r channel result).session.numbersTaken ≤ Counter.period) :
    ∃ ms', (p.submit payload bitLength r channel result).Recounts ms' (log ++
      (p.session.appended (p.submit payload bitLength r channel result).session).map .queued) := by
  cases result with
  | error e =>
    have hnone : p.session.appended p.session = [] :=
      Session.appended_eq_nil fun _ => Nat.le_of_eq (Fifo.length_toList _)
    refine ⟨ms, ?_⟩
    rw [Party.submit, hnone, List.map_nil, List.append_nil]
    exact h
  | ok s' =>
    obtain ⟨m, -, hsends, hextends, -⟩ := Session.sends_sendBits h.sends (hresult s' rfl)
    have hqueued : (log ++ m.packets.map Event.queued).filterMap Event.queued? =
        (ms ++ [m]).flatMap Shipment.packets := by
      rw [List.filterMap_append, h.queued_eq]
      simp [List.filterMap_map, Function.comp_def, Event.queued?]
    have hpriority : ∀ x ∈ m.packets, x.priority = m.priority := by
      intro x hx
      obtain ⟨j, c, -, rfl⟩ := Shipment.mem_packets.mp hx
      rfl
    have hnumbers := hsends.manifest.nodup_sequences (hsends.numbers_eq ▸ hperiod)
    have happended : p.session.appended s' = m.packets := Session.appended_of_modify hextends.queues_eq
    refine ⟨ms ++ [m], hsends, ?_, ?_⟩
    · rw [Party.submit, happended]
      exact hqueued
    · rw [Party.submit, happended]
      exact h.recounts.queue (Session.sendBits_ok (hresult s' rfl)).1 hpriority (hqueued ▸ hnumbers)
        hextends.queues_eq hextends.resend_eq

/-- An action by which no packet is queued. -/
theorem Recounts.still (h : p.Recounts ms log) {p' : Party} {later : List Event}
    (hledger : p'.session.ledger = p.session.ledger) (hlater : ∀ event ∈ later, event.queued? = none)
    (hrecounts : p'.session.Recounts (log ++ later)) : p'.Recounts ms (log ++ later) := by
  refine ⟨h.sends.congr hledger, ?_, hrecounts⟩
  rw [List.filterMap_append, List.filterMap_eq_nil_iff.mpr hlater, List.append_nil]
  exact h.queued_eq

/-- An action that does nothing to packets, or ends the session. -/
theorem Recounts.quiet (h : p.Recounts ms log) {p' : Party}
    (hledger : p'.session.ledger = p.session.ledger)
    (hqueues : ∀ priority, (p'.session.queues.get priority).toList.length ≤
      (p.session.queues.get priority).length)
    (hrecounts : p'.session.Recounts log) :
    p'.Recounts ms (log ++ (p.session.appended p'.session).map .queued) := by
  rw [Session.appended_eq_nil hqueues, List.map_nil]
  exact h.still hledger (by simp) (by rwa [List.append_nil])

theorem Recounts.act (h : p.Recounts ms log) (action : Action)
    (hperiod : (p.act action).session.numbersTaken ≤ Counter.period) :
    ∃ ms', (p.act action).Recounts ms' (log ++ p.events action) := by
  have hsame : ∀ priority, (p.session.queues.get priority).toList.length ≤
      (p.session.queues.get priority).length := fun _ => Nat.le_of_eq (Fifo.length_toList _)
  cases action with
  | send payload priority r channel => exact h.submit (fun s' => Session.send_ok) hperiod
  | sendBits payload bitLength priority r channel => exact h.submit (fun s' => id) hperiod
  | update now =>
    refine ⟨ms, h.still ?_ ?_ (h.recounts.transmit now)⟩
    · exact p.session.ledger_transmit now
    · intro event hevent
      obtain ⟨e, -, he⟩ := List.mem_filterMap.mp hevent
      cases e with
      | ack q => cases he
      | data x =>
        obtain rfl := Option.some.inj he
        rfl
  | handle data now =>
    have hhandles := p.session.handles_handleDatagram data now
    have hthins := p.session.thins_handleDatagram data now
    refine ⟨ms, h.still hhandles.ledger_eq ?_ (h.recounts.release ?_ ?_ hthins.sublist ?_)⟩
    · intro event hevent
      obtain ⟨x, -, rfl⟩ := List.mem_map.mp hevent
      rfl
    · exact hhandles.queues_eq
    · exact congrArg Option.isSome hhandles.dead_eq
    · intro x hx
      obtain ⟨hflight, hgoes⟩ := List.mem_filter.mp hx
      refine ⟨hflight, fun hstays => ?_⟩
      rcases of_decide_eq_true hgoes with hack | hgone
      · exact hthins.gone _ hack x hstays rfl
      · exact hgone hstays
  | receive =>
    obtain ⟨output, returned, hact⟩ := p.exists_receive
    refine ⟨ms, h.quiet ?_ ?_ ?_⟩
    · rw [hact]
      rfl
    · rw [hact]
      exact hsame
    · rw [hact]
      exact h.recounts.congr (fun _ => rfl) rfl rfl
  | setResendDelay delay =>
    exact ⟨ms, h.quiet rfl hsame (h.recounts.congr (fun _ => rfl) rfl rfl)⟩
  | kill => exact ⟨ms, h.quiet rfl (by simp [Party.act, Session.kill, Session.die]) (h.recounts.die _)⟩
  | close =>
    refine ⟨ms, h.quiet rfl (by simp [Party.act, Session.close, Session.die]) ?_⟩
    exact (h.recounts.die .closedLocally).congr (fun _ => rfl) rfl rfl

theorem recounts_new (config : Config) (now : Instant) : (new config now).Recounts [] [] where
  sends := Session.sends_new config now
  queued_eq := rfl
  recounts := Session.Recounts.new config now

theorem Reachable.numbersTaken_le_act (h : p.Reachable) (action : Action) :
    p.session.numbersTaken ≤ (p.act action).session.numbersTaken := by
  obtain ⟨ms, hms⟩ := h.sound
  obtain ⟨ms', hgrows, hms'⟩ := hms.act action
  rw [hms.sends.numbers_eq, hms'.sends.numbers_eq]
  cases hgrows with
  | same => exact Nat.le_refl _
  | snoc m => rw [total_append]; exact Nat.le_add_right ..

theorem Reachable.numbersTaken_le_acts (h : p.Reachable) (actions : List Action) :
    p.session.numbersTaken ≤ (actions.foldl Party.act p).session.numbersTaken := by
  induction actions generalizing p with
  | nil => exact Nat.le_refl _
  | cons action actions ih => exact Nat.le_trans (h.numbersTaken_le_act action) (ih (h.act action))

theorem Recounts.acts (h : p.Recounts ms log) (hp : p.Reachable) (actions : List Action)
    (hperiod : (actions.foldl Party.act p).session.numbersTaken ≤ Counter.period) :
    ∃ ms', (actions.foldl Party.act p).Recounts ms' (log ++ p.history actions) := by
  induction actions generalizing p ms log with
  | nil => exact ⟨ms, by rwa [history, List.append_nil]⟩
  | cons action actions ih =>
    have hnext := (hp.act action).numbersTaken_le_acts actions
    obtain ⟨ms', h'⟩ := h.act action (Nat.le_trans hnext hperiod)
    obtain ⟨ms'', h''⟩ := ih h' (hp.act action) hperiod
    refine ⟨ms'', ?_⟩
    rw [history, ← List.append_assoc]
    exact h''

/-- While no number is used twice, some log recounts the party. -/
theorem Reachable.recounts (h : p.Reachable) (hperiod : p.session.numbersTaken ≤ Counter.period) :
    ∃ ms log, p.Recounts ms log := by
  induction h with
  | new config now => exact ⟨[], [], recounts_new config now⟩
  | act h action ih =>
    obtain ⟨ms, log, hlog⟩ := ih (Nat.le_trans (h.numbersTaken_le_act action) hperiod)
    obtain ⟨ms', hlog'⟩ := hlog.act action hperiod
    exact ⟨ms', _, hlog'⟩

theorem history_append (p : Party) (before later : List Action) :
    p.history (before ++ later) = p.history before ++ (before.foldl act p).history later := by
  induction before generalizing p with
  | nil => rfl
  | cons action before ih =>
    rw [List.cons_append, history, ih, ← List.append_assoc, history, List.foldl_cons]

/-- An acknowledgement releases the packet in flight that has its number. -/
theorem released_of_ack {x : Packet} (hx : x ∈ p.session.resend.packets) {data : Bytes} {now : Instant}
    (hack : .ack x.sequence ∈ p.session.heeded data) : .released x ∈ p.events (.handle data now) :=
  List.mem_map_of_mem (List.mem_filter.mpr ⟨hx, decide_eq_true (Or.inl hack)⟩)

/-- The discipline of emission. While no number is used twice, a number belongs to one packet; an
unreliable packet is emitted once, a reliable one again when the delay has passed that was in force,
and none when it was released; and in each priority packets are emitted first as they were queued. So
behind a datagram that acknowledges a packet in flight its number is not emitted any more. -/
theorem emission_discipline (config : Config) (now : Instant) (actions : List Action)
    (hperiod : (actions.foldl act (new config now)).session.numbersTaken ≤ Counter.period) :
    ((new config now).history actions).Pairwise Event.Allows ∧
      (∀ priority, firstEmitted priority ((new config now).history actions) <+:
        queuedOn priority ((new config now).history actions)) ∧
      ∀ before data t later, actions = before ++ .handle data t :: later →
        let p := before.foldl act (new config now)
        ∀ x ∈ p.session.resend.packets, .ack x.sequence ∈ p.session.heeded data →
          ∀ y t' delay, .emitted y t' delay ∈ (p.act (.handle data t)).history later →
            x.sequence ≠ y.sequence := by
  obtain ⟨ms, h⟩ := (recounts_new config now).acts (.new config now) actions hperiod
  rw [List.nil_append] at h
  refine ⟨h.recounts.allowed, fun priority => ?_, ?_⟩
  · exact (List.prefix_append ..).trans (h.recounts.line priority)
  · rintro before data t later rfl p x hx hack y t' delay hy
    have hallowed := h.recounts.allowed
    rw [history_append, history, ← List.append_assoc] at hallowed
    have hreleased : .released x ∈ (new config now).history before ++ p.events (.handle data t) :=
      List.mem_append_right _ (released_of_ack hx hack)
    exact (List.pairwise_append.mp hallowed).2.2 _ hreleased _ hy

/-- A message that is sent twice until it is acknowledged, and one that is sent once. -/
def conversation : List Action :=
  [.send [7] .high .reliable 0, .send [9] .low .unreliable 0, .update 0, .update 1000000000,
    .handle [0, 0, 0x80] 1000000001, .update 3000000000]

theorem emission_discipline_conversation :
    let p := (conversation.take 4).foldl act (new .default 0)
    (conversation.foldl act (new .default 0)).session.numbersTaken ≤ Counter.period ∧
      ((new .default 0).history conversation).length = 6 ∧
      ((new .default 0).history conversation).Pairwise Event.Allows ∧
      (∀ priority, firstEmitted priority ((new .default 0).history conversation) <+:
        queuedOn priority ((new .default 0).history conversation)) ∧
      ∃ x ∈ p.session.resend.packets, .ack x.sequence ∈ p.session.heeded [0, 0, 0x80] ∧
        ∀ y t delay, .emitted y t delay ∈ (p.act (.handle [0, 0, 0x80] 1000000001)).history
          [.update 3000000000] → x.sequence ≠ y.sequence := by
  intro p
  have hperiod : (conversation.foldl act (new .default 0)).session.numbersTaken ≤ Counter.period := by
    decide +kernel
  obtain ⟨hallowed, hline, hacked⟩ := emission_discipline .default 0 conversation hperiod
  obtain ⟨x, hx, hack⟩ : ∃ x ∈ p.session.resend.packets,
      .ack x.sequence ∈ p.session.heeded [0, 0, 0x80] := by
    decide +kernel
  exact ⟨hperiod, by decide +kernel, hallowed, hline, x, hx, hack,
    hacked (conversation.take 4) [0, 0, 0x80] 1000000001 [.update 3000000000] rfl x hx hack⟩

end Party
end ReliableDatagram
