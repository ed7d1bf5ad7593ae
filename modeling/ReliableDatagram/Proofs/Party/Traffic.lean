import ReliableDatagram.Proofs.Party.Death
import ReliableDatagram.Proofs.Session.Traffic

/-!
# The traffic of a run

Through every run of a session that lives, its counters account for the packets it was given, the
acknowledgements it owes, the frames it has transmitted and the messages it has completed.
-/
namespace ReliableDatagram

/-- The entries in front of the first malformed one, of every datagram that comes in. -/
def Action.decoded : Action → List Entry
  | .handle data _ => (Frame.read data).1
  | .send .. | .sendBits .. | .update _ | .receive | .setResendDelay _ | .kill | .close => []

theorem Entry.isAck_decoded (e : Entry) : e.decoded.isAck = e.isAck := by
  cases e <;> rfl

namespace Party

variable {p : Party} {heard : List Entry}

/-- The entries of all frames that were transmitted, as they are read from the bytes. -/
def told (p : Party) : List Entry := p.emitted.flatMap fun f => (Frame.read f.bytes).1

/-- The counters stand behind what was heard, told and completed. -/
structure Tallied (p : Party) (heard : List Entry) : Prop where
  tallies : p.session.Tallies heard p.emitted []
  completed : p.session.counters.messagesReceived = p.returned.length + p.session.output.length

theorem tallied_new (config : Config) (start : Instant) : (new config start).Tallied [] :=
  ⟨Session.tallies_new config start, rfl⟩

/-- What is completed is counted. -/
theorem Tallied.serve (h : p.Tallied heard) {p' : Party} {heard' : List Entry} {ms : List Delivery}
    (htallies : p'.session.Tallies heard' p'.emitted []) (hserves : p.Serves p' ms)
    (hcount : p'.session.counters.messagesReceived =
      p.session.counters.messagesReceived + ms.length) : p'.Tallied heard' := by
  obtain ⟨taken, hreturned, houtput⟩ := hserves
  have hlength := congrArg List.length houtput
  have hold := h.completed
  simp only [List.length_append, Fifo.length_toList] at hlength
  refine ⟨htallies, ?_⟩
  simp only [hcount, hreturned, List.length_append]
  omega

theorem Tallied.submit (h : p.Tallied heard) {payload : Bytes} {bitLength : Nat} {priority : Priority}
    {r : Reliability} {channel : Nat} {result : Except SendError Session}
    (hresult : ∀ s', result = .ok s' →
      p.session.sendBits payload bitLength priority r channel = .ok s') :
    (p.submit payload bitLength r channel result).Tallied heard := by
  have hserves := p.serves_submit hresult
  cases result with
  | error e => exact h
  | ok s' =>
    have hs := hresult s' rfl
    exact h.serve (h.tallies.sendBits hs) hserves (Session.completes_sendBits hs).count_eq

theorem Tallied.act (h : p.Tallied heard) {action : Action}
    (halive : (p.act action).session.isDead = false) : (p.act action).Tallied (heard ++ action.decoded) := by
  cases action with
  | send payload priority r channel =>
    rw [Action.decoded, List.append_nil]
    exact h.submit fun s' => Session.send_ok
  | sendBits payload bitLength priority r channel =>
    rw [Action.decoded, List.append_nil]
    exact h.submit fun s' => id
  | update now =>
    have htallies := h.tallies.transmit halive
    have hcompletes := p.session.completes_transmit now
    rw [Action.decoded, List.append_nil]
    exact h.serve htallies (.of_completes rfl hcompletes) hcompletes.count_eq
  | handle data now =>
    have htallies := h.tallies.handleDatagram data now
    have hcompletes := p.session.completes_handleDatagram data now
    have hheeded : p.session.heeded data = (Frame.read data).1 := by
      have hold : p.session.isDead = false := by
        rwa [Session.isDead, ← (p.session.handles_handleDatagram data now).dead_eq]
      rw [Session.heeded, if_neg (Bool.eq_false_iff.mp hold)]
    rw [hheeded] at htallies
    exact h.serve htallies (.of_completes rfl hcompletes) hcompletes.count_eq
  | receive =>
    have hserves := p.serves_act (by decide : Action.receive ≠ .close)
    have hkept : (p.act .receive).session.Tallies heard (p.act .receive).emitted [] ∧
        (p.act .receive).session.counters = p.session.counters := by
      obtain ⟨output, returned, hact⟩ := p.exists_receive
      rw [hact]
      exact ⟨h.tallies.congr rfl rfl rfl fun _ => rfl, rfl⟩
    rw [Action.decoded, List.append_nil]
    exact h.serve hkept.1 hserves (congrArg Counters.messagesReceived hkept.2)
  | setResendDelay delay =>
    rw [Action.decoded, List.append_nil]
    exact ⟨h.tallies.congr rfl rfl rfl fun _ => rfl, h.completed⟩
  | kill => cases halive
  | close => cases halive

theorem Reachable.tallied_acts (h : p.Reachable) (ht : p.Tallied heard) {actions : List Action}
    (halive : (actions.foldl Party.act p).session.isDead = false) :
    (actions.foldl Party.act p).Tallied (heard ++ actions.flatMap Action.decoded) := by
  induction actions generalizing p heard with
  | nil => simpa using ht
  | cons action actions ih =>
    have hnext : (p.act action).session.isDead = false := by
      cases hdead : (p.act action).session.dead with
      | none => rw [Session.isDead, hdead]; rfl
      | some reason =>
        have hstays := ((h.act action).stays_dead hdead actions).1
        rw [List.foldl_cons, Session.isDead, hstays] at halive
        cases halive
    simpa using ih (h.act action) (ht.act hnext) halive

/-- What is read from a frame is what was put into it. -/
theorem Reachable.read_emitted (h : p.Reachable) {f : Frame} (hf : f ∈ p.emitted) :
    (Frame.read f.bytes).1 = f.entries.map Entry.decoded := by
  obtain ⟨ms, hms⟩ := h.sound
  obtain ⟨hencoded, hentries⟩ := hms.emitted f hf
  rw [Frame.read_encoded hencoded fun e he => (hentries e he).wellFormed]

theorem Reachable.countP_told (h : p.Reachable) {q : Entry → Bool} (hq : ∀ e, q e.decoded = q e) :
    p.told.countP q = (p.emitted.flatMap (·.entries)).countP q := by
  have hread : ∀ f ∈ p.emitted, (Frame.read f.bytes).1.countP q = f.entries.countP q := by
    intro f hf
    rw [h.read_emitted hf, List.countP_map]
    exact List.countP_congr fun e _ => by simp [hq]
  rw [told, List.countP_flatMap, List.countP_flatMap]
  exact congrArg List.sum (List.map_congr_left hread)

/-- The counters of a session that lives account for its traffic. Packets that were given a number have
been sent or are queued; for every reliable packet that was read, new or not, an acknowledgement has been
sent or is pending; the frames hold just the packets and acknowledgements that are counted, and their
number and bits are counted; and every message that is complete was received or can be. -/
theorem traffic_accounted {config : Config} {start : Instant} {actions : List Action}
    (halive : (actions.foldl act (new config start)).session.isDead = false) :
    let p := actions.foldl act (new config start)
    let c := p.session.counters
    c.totalMessagesSent + p.session.backlog = c.unsplitMessagesSent + c.totalSplits ∧
      c.acksSent + p.session.acks.length = (actions.flatMap Action.decoded).countP Entry.isReliable ∧
      p.told.countP (!·.isAck) = c.totalMessagesSent + c.messagesResent ∧
      p.told.countP Entry.isAck = c.acksSent ∧
      p.emitted.length = c.framesSent ∧
      total (fun f => f.bytes.length * 8) p.emitted = c.bitsSent ∧
      c.messagesReceived = p.returned.length + p.session.output.length := by
  intro p c
  have hnew : (new config start).Reachable := .new config start
  have hreachable : p.Reachable := hnew.acts actions
  have htallied : p.Tallied (actions.flatMap Action.decoded) := by
    simpa using hnew.tallied_acts (tallied_new config start) halive
  have htallies := htallied.tallies
  have hdata := htallies.data_eq
  have hacks := htallies.acks_eq
  rw [List.append_nil] at hdata hacks
  refine ⟨htallies.submitted, htallies.acknowledged, ?_, ?_, htallies.frames_eq, htallies.bits_eq,
    htallied.completed⟩
  · rw [hreachable.countP_told fun e => by rw [e.isAck_decoded], hdata]
  · rw [hreachable.countP_told Entry.isAck_decoded, hacks]

/-- Two messages come in twice while four are submitted, of which three are sent and one is sent again. -/
def dialogue : List Action :=
  [.send [1, 2, 3] .high .reliableOrdered 4, .send [5] .low .unreliable 0, .update 0,
    .handle [0, 0, 39, 0, 7, 0, 1, 36, 32, 8, 9] 1, .handle [0, 0, 39, 0, 7, 0, 1, 36, 32, 8, 9] 2,
    .receive, .send [6] .low .reliable 0, .update 1000000000, .send [6] .low .reliable 0]

theorem traffic_accounted_dialogue :
    let p := dialogue.foldl act (new .default 0)
    p.session.isDead = false ∧ p.session.counters.totalMessagesSent = 3 ∧ p.session.backlog = 1 ∧
      p.told.countP (!·.isAck) = 4 ∧ p.told.countP Entry.isAck = 4 ∧
      (dialogue.flatMap Action.decoded).countP Entry.isReliable = 4 ∧ p.emitted.length = 2 ∧
      total (fun f => f.bytes.length * 8) p.emitted = 304 ∧ p.returned.length = 1 := by
  intro p
  have halive : p.session.isDead = false := by decide +kernel
  obtain ⟨-, hheard, hdata, hacks, hframes, hbits, -⟩ := traffic_accounted halive
  exact ⟨halive, by decide +kernel, by decide +kernel, hdata.trans (by decide +kernel),
    hacks.trans (by decide +kernel), hheard.symm.trans (by decide +kernel),
    hframes.trans (by decide +kernel), hbits.trans (by decide +kernel), by decide +kernel⟩

end Party
end ReliableDatagram
