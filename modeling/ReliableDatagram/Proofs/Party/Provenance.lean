import ReliableDatagram.Proofs.Party.Traffic
import ReliableDatagram.Proofs.Receiving.Provenance
import ReliableDatagram.Proofs.Session.Intake
import ReliableDatagram.Proofs.Wire.Decoded

/-!
# Where messages come from

Every message that a session completes was made of packets that it was given: of one that is no fragment, or
of all fragments under one id and one count. Fragments of different messages may be among them, for modes and
places are not compared. The order is kept among the packets that came last.
-/
namespace ReliableDatagram

namespace Session

/-- The messages `os` have come out, and whatever is still held came from packets that satisfy `P`. -/
structure Attributed (s : Session) (P : Packet → Prop) (os : List Provenance) : Prop where
  sound : ∀ o ∈ os, o.Sound P
  fragments : s.reassembler.Balanced P
  lanes : ∀ c, (s.lanes.get c).Attributed c P os

/-- The messages `new` come out behind the messages `os`. -/
structure Issues (s s' : Session) (P : Packet → Prop) (os new : List Provenance) : Prop where
  attributed : s'.Attributed P (os ++ new)
  output_eq : s'.output.toList = s.output.toList ++ new.map Provenance.message

variable {s s' s'' : Session} {P : Packet → Prop} {os new new' : List Provenance} {p : Packet}
  {now : Instant}

theorem attributed_new (config : Config) (start : Instant) (P : Packet → Prop) :
    (Session.new config start).Attributed P [] where
  sound := by simp
  fragments := Reassembler.balanced_initial ..
  lanes c := by
    simp only [Session.new, Lanes.initial, PerChannel.get_replicate]
    exact .new c P

theorem Attributed.congr (h : s.Attributed P os) (hreassembler : s'.reassembler = s.reassembler)
    (hlanes : s'.lanes = s.lanes) : s'.Attributed P os :=
  ⟨h.sound, hreassembler ▸ h.fragments, hlanes ▸ h.lanes⟩

theorem Attributed.of_intake {x : Intake} (hs : s.intake = x) (sound : ∀ o ∈ os, o.Sound P)
    (fragments : x.reassembler.Balanced P) (lanes : ∀ c, (x.lanes.get c).Attributed c P os) :
    s.Attributed P os := by
  subst hs
  exact ⟨sound, fragments, lanes⟩

namespace Issues

theorem none (h : s'.Attributed P os) (houtput : s'.output.toList = s.output.toList) :
    s.Issues s' P os [] :=
  ⟨by rwa [List.append_nil], by rw [houtput, List.map_nil, List.append_nil]⟩

theorem trans (h : s.Issues s' P os new) (h' : s'.Issues s'' P (os ++ new) new') :
    s.Issues s'' P os (new ++ new') where
  attributed := List.append_assoc .. ▸ h'.attributed
  output_eq := by rw [h'.output_eq, h.output_eq, List.map_append, List.append_assoc]

end Issues

section handle

variable (hP : ∀ p, P p → p.WellFormed ∧ p.decoded = p)
include hP

/-- What a packet makes complete comes out with a provenance, of which that packet is the last. -/
theorem Attributed.step {x x' : Intake} (h : s.Attributed P os) (hp : P p) (hs : s.intake = x)
    (hs' : s'.intake = x') (hstep : Intake.Step p now x x') : ∃ new, s.Issues s' P os new := by
  subst hs
  have houtput := congrArg Intake.output hs'
  cases hstep with
  | purge expiry =>
    have hpurged : (s.reassembler.purgeExpired now expiry).2.Balanced P := h.fragments.dropWhere _
    exact ⟨[], .none (.of_intake hs' h.sound hpurged h.lanes) houtput⟩
  | held _ ha => exact ⟨[], .none (.of_intake hs' h.sound (h.fragments.answers hp ha) h.lanes) houtput⟩
  | unordered hsequenced hordered ha =>
    obtain ⟨o, ho, rfl, hmessage⟩ := h.fragments.exists_provenance hP hp ha
    rw [← hmessage] at houtput
    have hsound : ∀ o' ∈ os ++ [o], o'.Sound P := List.forall_mem_append.mpr ⟨h.sound, by simpa using ho⟩
    exact ⟨[o], .of_intake hs' hsound (h.fragments.answers hp ha)
      (Lanes.attributed_append h.lanes hordered hsequenced), houtput⟩
  | ordered hordered hplace ha haccept =>
    obtain ⟨o, ho, rfl, hmessage⟩ := h.fragments.exists_provenance hP hp ha
    rw [← hmessage] at haccept houtput
    obtain ⟨new, hnew, hdelivered, hlanes⟩ :=
      Lanes.attributed_acceptOrdered h.lanes hplace ho hordered haccept
    have hsound : ∀ o' ∈ os ++ new, o'.Sound P := List.forall_mem_append.mpr ⟨h.sound, hnew⟩
    exact ⟨new, .of_intake hs' hsound (h.fragments.answers hp ha) hlanes, hdelivered ▸ houtput⟩
  | @sequenced whole r' place lanes _ hplace ha haccept =>
    obtain ⟨o, ho, rfl, hmessage⟩ := h.fragments.exists_provenance hP hp ha
    rw [← hmessage] at houtput
    obtain ⟨hsequenced, hplace⟩ := Packet.sequencedPlace_eq_some.mp hplace
    have hsound : ∀ o' ∈ os ++ [o], o'.Sound P := List.forall_mem_append.mpr ⟨h.sound, by simpa using ho⟩
    have hdropped : (r'.dropSuperseded place.channel
        (lanes.get (.ofNat place.channel)).sequenced).2.Balanced P :=
      (h.fragments.answers hp ha).dropWhere _
    exact ⟨[o], .of_intake hs' hsound hdropped
      (Lanes.attributed_acceptSequenced h.lanes hplace hsequenced haccept), houtput⟩

theorem Attributed.handleDatagram (h : s.Attributed P os) {data : Bytes}
    (hdata : ∀ p, .data p ∈ (Frame.read data).1 → P p) (now : Instant) :
    ∃ new, s.Issues (s.handleDatagram data now).2 P os new := by
  let I : Intake → Prop := fun x => ∀ s' : Session, s'.intake = x → ∃ new, s.Issues s' P os new
  have hstart : I s.intake := fun s' hs' =>
    ⟨[], .none (h.congr (congrArg Intake.reassembler hs') (congrArg Intake.lanes hs'))
      (congrArg Intake.output hs')⟩
  have hstep : ∀ p, .data p ∈ (Frame.read data).1 → ∀ x x', Intake.Step p now x x' → I x → I x' := by
    intro p hp x x' hstep hx s'' hs''
    obtain ⟨s', hs'⟩ := s.exists_intake_eq x
    obtain ⟨new, hissues⟩ := hx s' hs'
    obtain ⟨new', hissues'⟩ := hissues.attributed.step hP (hdata p hp) hs' hs'' hstep
    exact ⟨new ++ new', hissues.trans hissues'⟩
  exact s.keep_handleDatagram hstep hstart _ rfl

end handle

/-- No other action touches what is held, unless it is forgotten. -/
theorem Changes.attributed {action : Action} (hs : s.Changes action s')
    (hother : ∀ data now, action ≠ .handle data now) (h : s.Attributed P os) : s'.Attributed P os := by
  rcases hs.held_cases with ⟨hreassembler, hlanes⟩ | ⟨hreassembler, hlanes⟩ | ⟨data, now, heq, -⟩
  · exact h.congr hreassembler hlanes
  · refine ⟨h.sound, hreassembler ▸ s.reassembler.balanced_clear, fun c => ?_⟩
    rw [hlanes, Lanes.clear, PerChannel.get_map]
    exact (h.lanes c).clear
  · exact absurd heq (hother data now)

end Session

namespace Party

variable {p : Party} {P : Packet → Prop} {os : List Provenance}

/-- What was read is well formed, and the same would be read again. -/
theorem wellFormed_of_decoded {actions : List Action} {x : Packet}
    (hx : .data x ∈ actions.flatMap Action.decoded) : x.WellFormed ∧ x.decoded = x := by
  obtain ⟨action, -, hmem⟩ := List.mem_flatMap.mp hx
  cases action with
  | handle data now =>
    obtain ⟨hwell, heq⟩ := Frame.wellFormed_of_mem_read hmem
    exact ⟨hwell, Entry.data.inj heq⟩
  | _ => cases hmem

theorem Reachable.attributed_act (h : p.Reachable) (hP : ∀ p, P p → p.WellFormed ∧ p.decoded = p)
    (ha : p.session.Attributed P os) {action : Action} (haction : ∀ x, .data x ∈ action.decoded → P x) :
    ∃ new, (p.act action).session.Attributed P (os ++ new) ∧
      p.completes action = new.map Provenance.message := by
  by_cases hhandle : ∃ data now, action = .handle data now
  · obtain ⟨data, now, rfl⟩ := hhandle
    obtain ⟨new, hissues⟩ := ha.handleDatagram hP haction now
    refine ⟨new, hissues.attributed, ?_⟩
    rw [completes, Session.completed, hissues.output_eq, ← Fifo.length_toList, List.drop_left]
  · have hother : ∀ data now, action ≠ .handle data now := fun data now heq =>
      hhandle ⟨data, now, heq⟩
    refine ⟨[], ?_, ?_⟩
    · rw [List.append_nil]
      exact (h.changes action).attributed hother ha
    · cases action with
      | handle data now => exact absurd rfl (hother data now)
      | _ => rfl

theorem Reachable.attributed_acts (h : p.Reachable) (hP : ∀ p, P p → p.WellFormed ∧ p.decoded = p)
    (ha : p.session.Attributed P os) {actions : List Action}
    (hactions : ∀ x, .data x ∈ actions.flatMap Action.decoded → P x) :
    ∃ new, (actions.foldl Party.act p).session.Attributed P (os ++ new) ∧
      p.completions actions = new.map Provenance.message := by
  induction actions generalizing p os with
  | nil => exact ⟨[], by rwa [List.append_nil], rfl⟩
  | cons action actions ih =>
    rw [List.flatMap_cons] at hactions
    obtain ⟨new, hnext, hcompletes⟩ :=
      h.attributed_act hP ha fun x hx => hactions x (List.mem_append_left _ hx)
    obtain ⟨new', hlast, hcompletions⟩ :=
      ih (h.act action) hnext fun x hx => hactions x (List.mem_append_right _ hx)
    refine ⟨new ++ new', ?_, ?_⟩
    · rw [← List.append_assoc]
      exact hlast
    · rw [completions, hcompletes, hcompletions, List.map_append]

/-- Whatever datagrams come, a message that a session completes is one packet, or it is made of all fragments
under one id and one count. The order is kept by what the packet says that came last, while the mode and the
channel of the first one are reported. These may differ only if there came fragments that agree in id and count
but not in mode and place. A fragment of another count is rejected and changes nothing. -/
theorem provenance_of_completions (config : Config) (start : Instant) (actions : List Action) :
    let decoded := actions.flatMap Action.decoded
    let r := (actions.foldl Party.act (new config start)).session.reassembler
    ∃ os : List Provenance,
      (new config start).completions actions = os.map Provenance.message ∧
      (∀ o ∈ os, o.Sound (.data · ∈ decoded) ∧
        (o.Uniform ∨ ∃ p q, .data p ∈ decoded ∧ .data q ∈ decoded ∧ Provenance.Confusable p q) ∧
        (o.Uniform → o.message.reliability = o.last.reliability ∧
          o.message.channel = (o.last.place.getD {}).channel)) ∧
      (∀ c : Channel,
        (∀ (k : Nat) (o : Provenance), (os.filter (Provenance.isOrderedOn c))[k]? = some o →
          o.index = .ofNat k) ∧
        (os.filter (Provenance.isSequencedOn c)).IsChain fun o o' =>
          o'.index.isOlderThan o.index.next = false) ∧
      ∀ (x : Packet) (now : Instant) (part : Part) (g : FragmentGroup),
        x.part = some part → r.group? part.id = some g → g.count ≠ part.count →
          r.insert x now = (.rejected, r) := by
  intro decoded r
  have hread : ∀ x, .data x ∈ decoded → x.WellFormed ∧ x.decoded = x := fun x => wellFormed_of_decoded
  obtain ⟨os, hattributed, hcompletions⟩ := (Reachable.new config start).attributed_acts hread
    (Session.attributed_new config start _) fun _ hx => hx
  rw [List.nil_append] at hattributed
  refine ⟨os, hcompletions, fun o ho => ?_, fun c => ?_, fun x now part g hpart hheld hcount => ?_⟩
  · have hsound := hattributed.sound o ho
    exact ⟨hsound, hsound.uniform_or_confusable, Provenance.Uniform.reported_eq⟩
  · exact ⟨fun k o => (hattributed.lanes c).index_eq, (hattributed.lanes c).newer⟩
  · exact Reassembler.insert_of_count_ne hpart hheld hcount

example :
    let first : Bytes := [0, 0, 48, 128, 2, 192, 2, 124, 60, 184, 170]
    let second : Bytes := [0, 1, 8, 0, 79, 143, 151, 0, 187]
    (new Config.default 0).completions [.handle first 0, .handle second 0] =
      [{ payload := [0xaa, 0xbb], bitLength := 16, reliability := .reliableOrdered, channel := 1 }] := by
  decide +kernel

end Party
end ReliableDatagram
