import ReliableDatagram.Proofs.Checked.Handling
import ReliableDatagram.Proofs.Party.Changes

/-!
# Datagrams from anyone

No datagram does a session harm, whoever has made it and whenever it arrives: it is taken in without
going wrong, and the session stays alive with all that it has to send.
-/
namespace ReliableDatagram

namespace Session

variable {s s' : Session} {action : Action}

theorem Changes.maxBytes_eq (hs : s.Changes action s') :
    s'.reassembler.maxBytes = s.reassembler.maxBytes := by
  cases hs with
  | accepted _ halive hextends => rw [hextends.reassembler_eq]
  | updated now =>
    rcases s.standing_transmit now with hstanding | hdie
    · exact congrArg (fun standing => standing.inbox.reassembler.maxBytes) hstanding
    · rw [hdie]
      rfl
  | handled data now => exact (s.handles_handleDatagram data now).maxBytes_eq
  | _ => rfl

/-- The books stay balanced, whatever happens. -/
theorem Changes.secure (hs : s.Changes action s') (h : Checked.Secure s.reassembler) :
    Checked.Secure s'.reassembler := by
  have hcleared : Checked.Secure s.reassembler.clear := ⟨s.reassembler.balanced_clear, h.roomy⟩
  cases hs with
  | accepted _ halive hextends => exact hextends.reassembler_eq ▸ h
  | updated now =>
    rcases s.standing_transmit now with hstanding | hdie
    · have hsame : (s.transmit now).2.reassembler = s.reassembler :=
        congrArg (fun standing => standing.inbox.reassembler) hstanding
      exact hsame ▸ h
    · rw [hdie]
      exact hcleared
  | handled data now => exact (Checked.handleDatagram_eq h data now).2
  | ended _ reason output => exact hcleared
  | _ => exact h

end Session

namespace Party

variable {p : Party}

theorem Reachable.maxBytes_eq (h : p.Reachable) :
    p.session.reassembler.maxBytes = p.session.config.maxReassemblyBytes := by
  refine h.keep (P := fun s => s.reassembler.maxBytes = s.config.maxReassemblyBytes)
    (fun _ _ => rfl) fun s s' action hs hsame => ?_
  rw [hs.maxBytes_eq, hsame]
  rcases hs.config_cases with heq | ⟨delay, -, heq⟩
  · rw [heq]
  · rw [heq]
    rfl

theorem Reachable.secure (h : p.Reachable) (hroomy : Checked.Roomy p.session.reassembler) :
    Checked.Secure p.session.reassembler := by
  induction h with
  | new config now => exact ⟨Reassembler.balanced_initial .., hroomy⟩
  | act h action ih =>
    have hchanges := h.changes action
    refine hchanges.secure (ih ?_)
    rwa [Checked.Roomy, ← hchanges.maxBytes_eq]

/-- A session withstands any datagram. It is taken in without an index out of range, a difference below
zero, or a bit length that does not fit its word; a session that was alive stays alive, and nothing
changes of what it sends, how it numbers, and how it is set. -/
theorem Reachable.withstands (h : p.Reachable)
    (hroom : 8 * (p.session.config.maxReassemblyBytes + 8000) < 2 ^ 32) (data : Bytes) (now : Instant) :
    Checked.handleDatagram p.session data now = some (p.session.handleDatagram data now) ∧
      let s := (p.session.handleDatagram data now).2
      (p.session.isDead = false → s.isDead = false) ∧ s.queues = p.session.queues ∧
        s.nextSequence = p.session.nextSequence ∧ s.nextSplitId = p.session.nextSplitId ∧
        s.writes = p.session.writes ∧ s.config = p.session.config := by
  have hroomy : Checked.Roomy p.session.reassembler := by
    rw [Checked.Roomy, h.maxBytes_eq]
    exact Nat.le_of_lt_succ hroom
  have hhandles := p.session.handles_handleDatagram data now
  refine ⟨(Checked.handleDatagram_eq (h.secure hroomy) data now).1, fun halive => ?_, hhandles.queues_eq,
    congrArg Session.Ledger.nextSequence hhandles.ledger_eq,
    congrArg Session.Ledger.nextSplitId hhandles.ledger_eq,
    congrArg Session.Ledger.writes hhandles.ledger_eq, hhandles.config_eq⟩
  rw [Session.isDead, hhandles.dead_eq]
  exact halive

/-- A fragment that waits for others, and behind it an acknowledgement of nothing and a packet that is
longer than any datagram, at an earlier time. -/
def hostilities : List Bytes :=
  [[0, 2, 49, 128, 0, 64, 0, 60, 188, 227, 0, 1, 1, 1, 1, 1, 1], [0, 0, 0x80, 0, 1, 0xff, 0xff, 0xff]]

theorem withstands_hostilities :
    let p := (hostilities.take 1).foldl (fun p data => p.act (.handle data 7)) (new .default 0)
    8 * (p.session.config.maxReassemblyBytes + 8000) < 2 ^ 32 ∧ p.session.reassembler.pending = 1 ∧
      p.session.isDead = false ∧ ∀ data ∈ hostilities.drop 1,
        (p.session.handleDatagram data 3).1 = .error (.invalidPayloadLength 65535) ∧
          (Checked.handleDatagram p.session data 3).isSome = true ∧
          (p.session.handleDatagram data 3).2.isDead = false := by
  intro p
  have hreachable : p.Reachable := (Reachable.new .default 0).act (.handle _ 7)
  have hroom : 8 * (p.session.config.maxReassemblyBytes + 8000) < 2 ^ 32 := by decide +kernel
  have halive : p.session.isDead = false := by decide +kernel
  refine ⟨hroom, by decide +kernel, halive, fun data hdata => ?_⟩
  obtain ⟨hchecked, hstays, -⟩ := hreachable.withstands hroom data 3
  refine ⟨?_, by rw [hchecked]; rfl, hstays halive⟩
  obtain rfl := List.mem_singleton.mp hdata
  decide +kernel

end Party
end ReliableDatagram
