import ReliableDatagram.Proofs.Party.Death
import ReliableDatagram.Proofs.Party.Retention
import ReliableDatagram.Proofs.Session.Timer

/-!
# When a session times out

The acknowledgement timer follows the packets in flight through every run. So a session times out when
it is asked to transmit while packets are in flight and the last start of the timer lies further back than
the connection timeout, and in no other way.
-/
namespace ReliableDatagram

namespace Session

variable {s s' : Session} {action : Action}

theorem lastAck_takePlace (s : Session) (r : Reliability) (channel : Nat) :
    (s.takePlace r channel).2.lastAck = s.lastAck := by
  rw [takePlace]
  split_ifs <;> rfl

theorem lastAck_sendBits {payload : Bytes} {bitLength : Nat} {priority : Priority} {r : Reliability}
    {channel : Nat} (h : s.sendBits payload bitLength priority r channel = .ok s') :
    s'.lastAck = s.lastAck := by
  obtain ⟨-, -, -, ⟨-, rfl⟩ | ⟨size, -, rfl⟩⟩ := sendBits_ok h
  · exact s.lastAck_takePlace r channel
  · exact s.lastAck_takePlace r.asReliable channel

theorem Changes.connectionTimeout_eq (hs : s.Changes action s') :
    s'.config.connectionTimeout = s.config.connectionTimeout := by
  rcases hs.config_cases with heq | ⟨delay, -, heq⟩
  · rw [heq]
  · rw [heq]
    rfl

theorem hasTimedOut_iff (s : Session) (now : Instant) : s.hasTimedOut now = true ↔
    s.resend.isEmpty = false ∧ ∃ t, s.lastAck = some t ∧ t + s.config.connectionTimeout < now := by
  rw [hasTimedOut]
  cases s.lastAck with
  | none => simp
  | some t =>
    have helapsed : s.config.connectionTimeout < elapsed t now ↔
        t + s.config.connectionTimeout < now := Nat.lt_sub_iff_add_lt'
    simp [helapsed]

/-- A transmission ends a session by its timeout only. -/
theorem dead_transmit (halive : s.isDead = false) (now : Instant) :
    (s.transmit now).2.dead = if s.hasTimedOut now then some .timedOut else none := by
  have hnone : s.dead = none := by simpa [isDead] using halive
  rcases s.transmit_cases now with ⟨hdead, -⟩ | ⟨-, htime, heq⟩ | ⟨-, htime, d, -, hsession, hsteps⟩
  · rw [halive] at hdead
    cases hdead
  · rw [heq, htime, if_pos rfl, die, hnone]
    rfl
  · rw [htime, if_neg Bool.false_ne_true, ← hsession, ← hnone]
    refine hsteps.keep (P := fun t => t.filling.session.dead = s.dead) (fun t t' hstep ht => ?_) rfl
    cases hstep with
    | fill hfill => exact (congrArg Standing.dead hfill.standing).trans ht
    | close => exact ht

end Session

namespace Party

variable {p : Party} {starts : List Instant}

/-- The times at which an action starts the timer. -/
def timerStarts (p : Party) : Action → List Instant
  | .update now => p.session.startsOfTransmit now
  | .handle data now => p.session.startsOfDatagram data now
  | .send .. | .sendBits .. | .receive | .setResendDelay _ | .kill | .close => []

/-- The times at which the timer starts in a run. -/
def allTimerStarts (p : Party) : List Action → List Instant
  | [] => []
  | action :: actions => p.timerStarts action ++ (p.act action).allTimerStarts actions

theorem Reachable.clocked_submit (h : p.Reachable) (hclocked : p.session.Clocked starts)
    {payload : Bytes} {bitLength : Nat} {priority : Priority} {r : Reliability} {channel : Nat}
    {result : Except SendError Session} (hresult : ∀ s', result = .ok s' →
      p.session.sendBits payload bitLength priority r channel = .ok s') :
    (p.submit payload bitLength r channel result).session.Clocked starts := by
  have hresend := resend_submit h hresult
  cases result with
  | error e => exact hclocked
  | ok s' =>
    exact hclocked.congr (congrArg ResendQueue.isEmpty hresend)
      (Session.lastAck_sendBits (hresult s' rfl))

theorem Reachable.clocked_act (h : p.Reachable) (hclocked : p.session.Clocked starts) (action : Action) :
    (p.act action).session.Clocked (starts ++ p.timerStarts action) := by
  cases action with
  | send payload priority r channel =>
    rw [timerStarts, List.append_nil]
    exact h.clocked_submit hclocked fun s' => Session.send_ok
  | sendBits payload bitLength priority r channel =>
    rw [timerStarts, List.append_nil]
    exact h.clocked_submit hclocked fun s' => id
  | update now => exact hclocked.transmit now
  | handle data now => exact hclocked.handleDatagram data now
  | receive =>
    obtain ⟨output, returned, hact⟩ := p.exists_receive
    rw [hact, timerStarts, List.append_nil]
    exact hclocked.congr rfl rfl
  | setResendDelay delay =>
    rw [timerStarts, List.append_nil]
    exact hclocked.congr rfl rfl
  | kill => exact .off rfl rfl
  | close => exact .off rfl rfl

theorem Reachable.clocked_acts (h : p.Reachable) (hclocked : p.session.Clocked starts)
    (actions : List Action) :
    (actions.foldl Party.act p).session.Clocked (starts ++ p.allTimerStarts actions) := by
  induction actions generalizing p starts with
  | nil =>
    rw [allTimerStarts, List.append_nil]
    exact hclocked
  | cons action actions ih =>
    rw [allTimerStarts, ← List.append_assoc]
    exact ih (h.act action) (h.clocked_act hclocked action)

theorem Reachable.connectionTimeout_acts (h : p.Reachable) (actions : List Action) :
    (actions.foldl Party.act p).session.config.connectionTimeout = p.session.config.connectionTimeout :=
  h.eq_acts (f := (·.config.connectionTimeout)) (fun _ _ _ hs => hs.connectionTimeout_eq) actions

theorem Reachable.dead_submit (h : p.Reachable) {payload : Bytes} {bitLength : Nat}
    {priority : Priority} {r : Reliability} {channel : Nat} {result : Except SendError Session}
    (hresult : ∀ s', result = .ok s' →
      p.session.sendBits payload bitLength priority r channel = .ok s') :
    (p.submit payload bitLength r channel result).session.dead = p.session.dead := by
  cases result with
  | error e => rfl
  | ok s' =>
    obtain ⟨ms, hms⟩ := h.sound
    obtain ⟨m, -, -, hextends, -⟩ := Session.sends_sendBits hms.sends (hresult s' rfl)
    exact hextends.dead_eq

/-- The reason for which an action ends a live session, if it does. -/
def reason? (p : Party) : Action → Option DisconnectReason
  | .update now => if p.session.hasTimedOut now then some .timedOut else none
  | .kill => some .killed
  | .close => some .closedLocally
  | .send .. | .sendBits .. | .handle .. | .receive | .setResendDelay _ => none

theorem Reachable.dead_act (h : p.Reachable) (halive : p.session.dead = none) (action : Action) :
    (p.act action).session.dead = p.reason? action := by
  cases action with
  | send payload priority r channel =>
    exact (h.dead_submit fun s' => Session.send_ok).trans halive
  | sendBits payload bitLength priority r channel =>
    exact (h.dead_submit fun s' => id).trans halive
  | update now =>
    have hisDead : p.session.isDead = false := by rw [Session.isDead, halive]; rfl
    exact Session.dead_transmit hisDead now
  | handle data now => exact (p.session.handles_handleDatagram data now).dead_eq.trans halive
  | receive =>
    obtain ⟨output, returned, hact⟩ := p.exists_receive
    rw [hact]
    exact halive
  | setResendDelay delay => exact halive
  | kill => simp [Party.act, Session.kill, Session.die, halive, reason?]
  | close => simp [Party.act, Session.close, Session.die, halive, reason?]

/-- The timer is exact. After any run it is armed just when packets are in flight, and then with the
time at which it was started last; and an action makes the session time out just when it is a
transmission of a live session with packets in flight, later than that time by more than the connection
timeout. -/
theorem timeout_exact (config : Config) (start : Instant) (actions : List Action) :
    let p := actions.foldl act (new config start)
    let starts := (new config start).allTimerStarts actions
    (p.session.lastAck.isSome = true ↔ p.session.resend.isEmpty = false) ∧
      (p.session.resend.isEmpty = false → p.session.lastAck = starts.getLast?) ∧
      ∀ action, p.session.dead ≠ some .timedOut ∧ (p.act action).session.dead = some .timedOut ↔
        p.session.dead = none ∧ p.session.resend.isEmpty = false ∧ ∃ now t, action = .update now ∧
          starts.getLast? = some t ∧ t + config.connectionTimeout < now := by
  intro p starts
  have hnew : (new config start).Reachable := .new config start
  have hreachable : p.Reachable := hnew.acts actions
  have hstart : (new config start).session.Clocked [] := .off rfl rfl
  have hclocked : p.session.Clocked starts := hnew.clocked_acts hstart actions
  have htimeout : p.session.config.connectionTimeout = config.connectionTimeout :=
    hnew.connectionTimeout_acts actions
  have hlast : p.session.resend.isEmpty = false → p.session.lastAck = starts.getLast? := by
    intro hbusy
    obtain ⟨t, htimer, hstart⟩ := hclocked.exists_last hbusy
    rw [htimer, hstart]
  refine ⟨?_, hlast, fun action => ⟨?_, ?_⟩⟩
  · rw [hclocked.armed, Bool.not_eq_true']
  · rintro ⟨hbefore, hafter⟩
    have halive : p.session.dead = none := by
      cases hdead : p.session.dead with
      | none => rfl
      | some reason =>
        obtain ⟨hstays, -⟩ := (hreachable.changes action).of_dead hdead
        exact absurd (hdead.trans (hstays.symm.trans hafter)) hbefore
    rw [hreachable.dead_act halive action] at hafter
    cases action with
    | update now =>
      have htime : p.session.hasTimedOut now = true := by
        by_contra hno
        rw [reason?, if_neg hno] at hafter
        cases hafter
      obtain ⟨hbusy, t, htimer, hlate⟩ := (p.session.hasTimedOut_iff now).mp htime
      exact ⟨halive, hbusy, now, t, rfl, (hlast hbusy).symm.trans htimer, htimeout ▸ hlate⟩
    | _ => cases hafter
  · rintro ⟨halive, hbusy, now, t, rfl, hstart, hlate⟩
    have htime : p.session.hasTimedOut now = true := (p.session.hasTimedOut_iff now).mpr
      ⟨hbusy, t, (hlast hbusy).trans hstart, htimeout.symm ▸ hlate⟩
    refine ⟨by simp [halive], ?_⟩
    rw [hreachable.dead_act halive, reason?, if_pos htime]

example :
    let p := [.send [7] .high .reliable 0, .update 5].foldl act (new .default 0)
    (p.act (.update (5 + Limits.connectionTimeout))).session.dead = none ∧
      (p.act (.update (6 + Limits.connectionTimeout))).session.dead = some .timedOut := by
  decide +kernel

end Party
end ReliableDatagram
