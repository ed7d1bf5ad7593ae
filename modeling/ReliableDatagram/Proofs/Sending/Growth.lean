import ReliableDatagram.Proofs.Sending.FlowControl

/-!
# The growth of the window

Through any calls the window keeps between its bounds and moves by one place at a time. It remembers a time
that is no earlier than any loss, nor than any growth that began at the ceiling. So the next growth that
begins there comes more than the cooldown after each of them: `growth_limited`. The ceiling is not raised
above its first place until the window has all the places there are: `growth_saturates`.
-/
namespace ReliableDatagram.Window

/-- All that is done to a window. -/
inductive Call where
  | acks (now : Instant) (acked : Nat) (backlog : Bool)
  | loss (now : Instant)
  | setCooldown (cooldown : Duration)
  deriving DecidableEq, Repr

def Call.time? : Call → Option Instant
  | acks now _ _ => some now
  | loss now => some now
  | setCooldown _ => none

def call (w : Window) : Call → Window
  | .acks now acked backlog => (w.onAcks now acked backlog).2
  | .loss now => w.onLoss now
  | .setCooldown cooldown => { w with cooldown }

/-- The answer to acknowledgements: the window was allowed to grow. -/
def allows (w : Window) : Call → Bool
  | .acks now acked backlog => (w.onAcks now acked backlog).1
  | .loss _ | .setCooldown _ => false

/-- Growth that does not begin below the ceiling. -/
def Restrained (w : Window) (c : Call) : Prop := w.allows c = true ∧ w.lossy ≤ w.size

instance (w : Window) (c : Call) : Decidable (w.Restrained c) :=
  inferInstanceAs (Decidable (_ ∧ _))

/-- A new window, after some calls. -/
def after (cooldown : Duration) (calls : List Call) : Window := calls.foldl call (initial cooldown)

/-- What a call may do. -/
inductive Responds (w : Window) : Call → Window → Prop
  | refused {now : Instant} {acked : Nat} {backlog : Bool}
      (hrefused : w.allows (.acks now acked backlog) = false) : Responds w (.acks now acked backlog) w
  | grown {now : Instant} {acked : Nat} {backlog : Bool}
      (hallowed : w.allows (.acks now acked backlog) = true)
      (hfree : w.size < w.lossy ∨ w.hasCooled now = true) :
      Responds w (.acks now acked backlog) (w.grow now)
  | shrunk (now : Instant) : Responds w (.loss now) (w.onLoss now)
  | set (cooldown : Duration) : Responds w (.setCooldown cooldown) { w with cooldown }

variable {w w' : Window} {c : Call} {now t : Instant} {cooldown : Duration}

theorem responds_call (w : Window) (c : Call) : w.Responds c (w.call c) := by
  cases c with
  | acks now acked backlog =>
    rcases w.onAcks_eq now acked backlog with heq | ⟨⟨-, -, hfree⟩, heq⟩
    · rw [call, heq]
      exact .refused (congrArg Prod.fst heq)
    · rw [call, heq]
      exact .grown (congrArg Prod.fst heq) hfree
  | loss now => exact .shrunk now
  | setCooldown cooldown => exact .set cooldown

/-! ### Bounds -/

/-- The ceiling is raised past the first one only while the window has all places. -/
structure Bounded (w : Window) : Prop where
  minimum_le : Limits.minimumWindow ≤ w.size
  le_maximum : w.size ≤ Limits.maximumWindow
  minimum_le_lossy : Limits.minimumWindow ≤ w.lossy
  lossy_le : w.size < Limits.maximumWindow → w.lossy ≤ Limits.maximumWindow + 1

theorem bounded_initial (cooldown : Duration) : (initial cooldown).Bounded := by
  constructor <;> simp [initial, Limits.minimumWindow, Limits.maximumWindow, Limits.maximumMtu,
    Limits.udpHeader, Limits.ackBits]

theorem size_grow (w : Window) (now : Instant) :
    (w.grow now).size = min (w.size + 1) Limits.maximumWindow := rfl

/-- The ceiling gives way to growth that reaches the maximum, or that is far above it. -/
theorem lossy_grow (w : Window) (now : Instant) :
    (w.grow now).lossy = w.lossy + 1 ∧ ((w.grow now).size = Limits.maximumWindow ∨
        w.lossy + Limits.lossyHeadroom < (w.grow now).size) ∨
      (w.grow now).lossy = w.lossy ∧ (w.grow now).size ≠ Limits.maximumWindow := by
  by_cases hraised : (w.grow now).size = Limits.maximumWindow ∨
      w.lossy + Limits.lossyHeadroom < (w.grow now).size
  · exact Or.inl ⟨if_pos hraised, hraised⟩
  · exact Or.inr ⟨if_neg hraised, fun hmax => hraised (Or.inl hmax)⟩

theorem Bounded.grow (h : w.Bounded) (now : Instant) : (w.grow now).Bounded := by
  obtain ⟨hmin, hmax, hlossy, hceiling⟩ := h
  have hsize := w.size_grow now
  rcases w.lossy_grow now with ⟨hraised, hreached⟩ | ⟨hkept, hbelow⟩
  · constructor <;> omega
  · constructor <;> omega

theorem Bounded.respond (h : w.Bounded) (hc : w.Responds c w') : w'.Bounded := by
  cases hc with
  | refused => exact h
  | grown => exact h.grow _
  | shrunk now =>
    have hmin := w.minimum_le_size_onLoss now
    have hmax := Nat.le_trans (size_onLoss_le now h.minimum_le) h.le_maximum
    exact ⟨hmin, hmax, hmin, fun _ => Nat.le_succ_of_le hmax⟩
  | set => exact ⟨h.minimum_le, h.le_maximum, h.minimum_le_lossy, h.lossy_le⟩

theorem Bounded.calls (h : w.Bounded) (calls : List Call) : (calls.foldl call w).Bounded := by
  induction calls generalizing w with
  | nil => exact h
  | cons c calls ih => exact ih (h.respond (w.responds_call c))

theorem bounded_after (cooldown : Duration) (calls : List Call) : (after cooldown calls).Bounded :=
  (bounded_initial cooldown).calls calls

/-- The window moves by one place, upwards when growth was allowed and downwards by a loss. -/
theorem Bounded.moves (h : w.Bounded) (hc : w.Responds c w') :
    w'.size = w.size ∨ w'.size = w.size + 1 ∧ w.allows c = true ∨
      w.size = w'.size + 1 ∧ ∃ now, c = .loss now := by
  cases hc with
  | refused => exact Or.inl rfl
  | @grown now _ _ hallowed =>
    have hsize := w.size_grow now
    have hmax := h.le_maximum
    by_cases hfull : w.size = Limits.maximumWindow
    · exact Or.inl (by omega)
    · exact Or.inr (Or.inl ⟨by omega, hallowed⟩)
  | shrunk now =>
    have hle := size_onLoss_le now h.minimum_le
    have hge := w.size_le_onLoss now
    by_cases hsame : (w.onLoss now).size = w.size
    · exact Or.inl hsame
    · exact Or.inr (Or.inr ⟨by omega, now, rfl⟩)
  | set => exact Or.inl rfl

/-! ### The cooldown -/

/-- The window remembers a time no earlier than `t`. -/
def Stamped (w : Window) (t : Instant) : Prop := ∃ last, w.lastIncrease = some last ∧ t ≤ last

theorem Stamped.grow (h : w.Stamped t) (hlater : t ≤ now) : (w.grow now).Stamped t := by
  by_cases hcooled : w.hasCooled now = true
  · exact ⟨now, if_pos hcooled, hlater⟩
  · obtain ⟨last, hlast, hle⟩ := h
    exact ⟨last, (if_neg hcooled).trans hlast, hle⟩

theorem Stamped.respond (h : w.Stamped t) (hc : w.Responds c w') (hlater : ∀ now ∈ c.time?, t ≤ now) :
    w'.Stamped t := by
  cases hc with
  | refused => exact h
  | grown => exact h.grow (hlater _ rfl)
  | shrunk now => exact ⟨now, rfl, hlater now rfl⟩
  | set => exact h

theorem Stamped.calls (h : w.Stamped t) {calls : List Call}
    (hlater : ∀ now ∈ calls.filterMap Call.time?, t ≤ now) : (calls.foldl call w).Stamped t := by
  induction calls generalizing w with
  | nil => exact h
  | cons c calls ih =>
    have hmem : ∀ now, now ∈ c.time? ∨ now ∈ calls.filterMap Call.time? → t ≤ now := by
      intro now hnow
      refine hlater now (List.mem_filterMap.mpr ?_)
      rcases hnow with hnow | hnow
      · exact ⟨c, List.mem_cons_self, hnow⟩
      · obtain ⟨c', hc', htime⟩ := List.mem_filterMap.mp hnow
        exact ⟨c', List.mem_cons_of_mem c hc', htime⟩
    exact ih (h.respond (w.responds_call c) fun now hnow => hmem now (Or.inl hnow))
      fun now hnow => hmem now (Or.inr hnow)

/-- At the ceiling only the cooldown allows growth. -/
theorem Restrained.hasCooled (h : w.Restrained c) (htime : c.time? = some now) :
    w.hasCooled now = true ∧ w.call c = w.grow now := by
  obtain ⟨hallowed, hceiling⟩ := h
  have hc := w.responds_call c
  generalize w.call c = w' at hc
  cases hc with
  | refused hrefused =>
    rw [hrefused] at hallowed
    cases hallowed
  | grown _ hfree =>
    obtain rfl := Option.some.inj htime
    exact ⟨hfree.resolve_left (Nat.not_lt.mpr hceiling), rfl⟩
  | shrunk | set => cases hallowed

theorem Restrained.stamped (h : w.Restrained c) (htime : c.time? = some now) : (w.call c).Stamped now := by
  obtain ⟨hcooled, hgrown⟩ := h.hasCooled htime
  rw [hgrown]
  exact ⟨now, if_pos hcooled, Nat.le_refl now⟩

theorem stamped_call (htime : c.time? = some t) (h : c = .loss t ∨ w.Restrained c) :
    (w.call c).Stamped t := by
  rcases h with rfl | hrestrained
  · exact ⟨t, rfl, Nat.le_refl t⟩
  · exact hrestrained.stamped htime

theorem Restrained.lt (h : w.Restrained c) (htime : c.time? = some now) (hstamped : w.Stamped t) :
    t + w.cooldown < now := by
  obtain ⟨last, hlast, hle⟩ := hstamped
  have hcooled := (h.hasCooled htime).1
  rw [Window.hasCooled, hlast] at hcooled
  have helapsed : w.cooldown < now - last := of_decide_eq_true hcooled
  calc t + w.cooldown ≤ last + w.cooldown := Nat.add_le_add_right hle _
    _ < now := Nat.add_lt_of_lt_sub' helapsed

theorem Responds.cooldown_eq (hc : w.Responds c w') (hfixed : ∀ d, c ≠ .setCooldown d) :
    w'.cooldown = w.cooldown := by
  cases hc with
  | refused | grown | shrunk => rfl
  | set cooldown => exact absurd rfl (hfixed cooldown)

theorem cooldown_after {calls : List Call} (hfixed : ∀ d, Call.setCooldown d ∉ calls) :
    (after cooldown calls).cooldown = cooldown := by
  induction calls using List.reverseRecOn with
  | nil => rfl
  | append_singleton calls c ih =>
    have hc := (after cooldown calls).responds_call c
    rw [after, List.foldl_append]
    refine (hc.cooldown_eq fun d hd => hfixed d (by simp [hd])).trans (ih fun d hd => hfixed d ?_)
    exact List.mem_append_left _ hd

/-- Growth is limited while the cooldown stays and time does not run backwards. The window has 5 to 3751
places, and a ceiling of 5 places or more. A call moves the window by one place at most, upwards only with
acknowledgements and downwards only by a loss, which also brings the ceiling down to it. Growth that does not
begin below the ceiling comes more than the cooldown after every loss, and after every growth of its kind. -/
theorem growth_limited (cooldown : Duration) {calls : List Call} (hfixed : ∀ d, Call.setCooldown d ∉ calls)
    (htimes : (calls.filterMap Call.time?).Pairwise (· ≤ ·)) :
    (5 ≤ (after cooldown calls).size ∧ (after cooldown calls).size ≤ 3751 ∧
      5 ≤ (after cooldown calls).lossy) ∧
    (∀ before c later, calls = before ++ c :: later →
      let w := after cooldown before
      let w' := w.call c
      (w.size ≤ w'.size + 1 ∧ w'.size ≤ w.size + 1) ∧ (w.size < w'.size → w.allows c = true) ∧
        (w'.size < w.size → ∃ now, c = .loss now) ∧ ((∃ now, c = .loss now) → w'.lossy = w'.size)) ∧
    ∀ before c between c' later t now, calls = before ++ c :: (between ++ c' :: later) →
      c.time? = some t → c'.time? = some now →
      (c = .loss t ∨ (after cooldown before).Restrained c) →
      (after cooldown (before ++ c :: between)).Restrained c' → t + cooldown < now := by
  have hbounded := bounded_after cooldown calls
  refine ⟨⟨hbounded.minimum_le, hbounded.le_maximum, hbounded.minimum_le_lossy⟩, ?_, ?_⟩
  · rintro before c later - w w'
    have hbefore : w.Bounded := bounded_after cooldown before
    have hcall : w.Responds c w' := w.responds_call c
    have hlossy : (∃ now, c = .loss now) → w'.lossy = w'.size := by
      rintro ⟨now, rfl⟩
      rfl
    rcases hbefore.moves hcall with hsame | ⟨hmore, hallowed⟩ | ⟨hless, hloss⟩
    · exact ⟨by omega, fun hup => by omega, fun hdown => by omega, hlossy⟩
    · exact ⟨by omega, fun _ => hallowed, fun hdown => by omega, hlossy⟩
    · exact ⟨by omega, fun hup => by omega, fun _ => hloss, hlossy⟩
  · rintro before c between c' later t now rfl htime htime' hevent hrestrained
    have hfirst := stamped_call htime hevent
    rw [List.filterMap_append, List.filterMap_cons_some htime, List.filterMap_append] at htimes
    have hlater := (List.pairwise_cons.mp (List.pairwise_append.mp htimes).2.1).1
    have hstamped : (after cooldown (before ++ c :: between)).Stamped t := by
      rw [after, List.foldl_append, List.foldl_cons]
      exact hfirst.calls fun u hu => hlater u (List.mem_append_left _ hu)
    have hcooldown : (after cooldown (before ++ c :: between)).cooldown = cooldown := by
      refine cooldown_after fun d hd => hfixed d ?_
      rw [← List.cons_append, ← List.append_assoc]
      exact List.mem_append_left _ hd
    have hlt := hrestrained.lt htime' hstamped
    rwa [hcooldown] at hlt

/-- Growth from 5 to 6 is free. Behind the loss it is not, and two growths at the ceiling are further apart
than the cooldown. -/
theorem growth_limited_afterLoss :
    let calls : List Call := [.acks 0 5 true, .loss 1, .acks 4 5 true, .acks 5 6 true, .acks 7 6 true]
    (∀ d, Call.setCooldown d ∉ calls) ∧ (calls.filterMap Call.time?).Pairwise (· ≤ ·) ∧
      (after 2 (calls.take 2)).Restrained (.acks 4 5 true) ∧
      ¬(after 2 (calls.take 3)).Restrained (.acks 5 6 true) ∧
      (after 2 (calls.take 4)).Restrained (.acks 7 6 true) ∧ 1 + 2 < 4 ∧ 4 + 2 < 7 := by
  intro calls
  have hfixed : ∀ d, Call.setCooldown d ∉ calls := by simp [calls]
  have htimes : (calls.filterMap Call.time?).Pairwise (· ≤ ·) := by decide
  have hfirst : (after 2 (calls.take 2)).Restrained (.acks 4 5 true) := by decide
  have hsecond : (after 2 (calls.take 4)).Restrained (.acks 7 6 true) := by decide
  obtain ⟨-, -, hlimited⟩ := growth_limited 2 hfixed htimes
  refine ⟨hfixed, htimes, hfirst, by decide, hsecond, ?_, ?_⟩
  · exact hlimited [.acks 0 5 true] (.loss 1) [] (.acks 4 5 true) _ 1 4 rfl rfl rfl (Or.inl rfl) hfirst
  · exact hlimited [.acks 0 5 true, .loss 1] (.acks 4 5 true) [.acks 5 6 true] (.acks 7 6 true) [] 4 7 rfl
      rfl rfl (Or.inr hfirst) hsecond

/-! ### The maximum -/

/-- The ceiling is lowered by a loss only. -/
theorem Responds.lossy_le (hc : w.Responds c w') (hkept : ∀ now, c ≠ .loss now) : w.lossy ≤ w'.lossy := by
  cases hc with
  | refused | set => exact Nat.le_refl _
  | @grown now =>
    have := w.lossy_grow now
    omega
  | shrunk now => exact absurd rfl (hkept now)

/-- Without a loss a window that has all places keeps them. -/
theorem Bounded.size_of_full (h : w.Bounded) (hfull : w.size = Limits.maximumWindow) {calls : List Call}
    (hkept : ∀ now, Call.loss now ∉ calls) :
    (calls.foldl call w).size = Limits.maximumWindow ∧ w.lossy ≤ (calls.foldl call w).lossy := by
  induction calls generalizing w with
  | nil => exact ⟨hfull, Nat.le_refl _⟩
  | cons c calls ih =>
    have hc := w.responds_call c
    have hnext := h.respond hc
    have hcall : ∀ now, c ≠ .loss now := fun now hloss => hkept now (hloss ▸ List.mem_cons_self)
    have hsize : (w.call c).size = Limits.maximumWindow := by
      have hmax := hnext.le_maximum
      rcases h.moves hc with hsame | ⟨hmore, -⟩ | ⟨-, now, hloss⟩
      · exact hsame.trans hfull
      · omega
      · exact absurd hloss (hcall now)
    obtain ⟨hend, hlossy⟩ := ih hnext hsize fun now hmem => hkept now (List.mem_cons_of_mem c hmem)
    exact ⟨hend, Nat.le_trans (hc.lossy_le hcall) hlossy⟩

/-- The window saturates. Acknowledgements that enlarge it do so by one place and say so; below the maximum
they say nothing else, and when they do not say so they change nothing. Below the maximum the ceiling is no
higher than it was at first, and the growth that reaches the maximum raises it by one place. A window that
has 3751 places keeps them without a loss, whatever else is done to it, and its ceiling does not come down. -/
theorem growth_saturates (cooldown : Duration) (calls : List Call) :
    let w := after cooldown calls
    (w.size < 3751 → w.lossy ≤ 3752) ∧
      (∀ now acked backlog, let answer := w.onAcks now acked backlog
        (answer.2.size = w.size ∨ answer.2.size = w.size + 1 ∧ answer.1 = true) ∧
          (w.size < 3751 → (answer.1 = true ↔ answer.2.size = w.size + 1)) ∧
          (answer.1 = false → answer.2 = w) ∧
          answer.2.lossy ≤ w.lossy + 1 ∧
          (answer.2.size = w.size + 1 → answer.2.size = 3751 → answer.2.lossy = w.lossy + 1)) ∧
      (w.size = 3751 → ∀ more : List Call, (∀ now, Call.loss now ∉ more) →
        (more.foldl call w).size = 3751 ∧ w.lossy ≤ (more.foldl call w).lossy) := by
  intro w
  have hbounded : w.Bounded := bounded_after cooldown calls
  refine ⟨hbounded.lossy_le, fun now acked backlog => ?_, fun hfull more => hbounded.size_of_full hfull⟩
  rcases w.onAcks_eq now acked backlog with heq | ⟨-, heq⟩
  · rw [heq]
    simp
  · have hsize : (w.grow now).size = min (w.size + 1) 3751 := rfl
    have hmax : w.size ≤ 3751 := hbounded.le_maximum
    have hlossy := w.lossy_grow now
    rw [heq]
    refine ⟨by simp only [and_true]; omega, fun hbelow => ?_, by simp, ?_, fun _ hreached => ?_⟩
    · simp only [true_iff]
      omega
    · show (w.grow now).lossy ≤ w.lossy + 1
      omega
    · rcases hlossy with ⟨hraised, -⟩ | ⟨-, hbelow⟩
      · exact hraised
      · exact absurd hreached hbelow

/-- Below the ceiling a whole window of acknowledgements is enough. -/
theorem onAcks_of_lt (now : Instant) {acked : Nat} (hacked : w.size ≤ acked) (hbelow : w.size < w.lossy) :
    w.onAcks now acked true = (true, w.grow now) := by
  simp [onAcks, Nat.not_lt.mpr hacked, hbelow]

/-- A new window, after so many whole windows of acknowledgements. -/
def climbed (cooldown : Duration) (n : Nat) : Window :=
  after cooldown (List.replicate n (.acks 0 3751 true))

theorem climbed_succ {n : Nat} (hmax : (climbed cooldown n).size ≤ 3751)
    (hbelow : (climbed cooldown n).size < (climbed cooldown n).lossy) :
    climbed cooldown (n + 1) = (climbed cooldown n).grow 0 := by
  rw [climbed, List.replicate_succ', after, List.foldl_append, ← after, ← climbed]
  exact congrArg Prod.snd (onAcks_of_lt 0 hmax hbelow)

theorem size_climbed (cooldown : Duration) {n : Nat} (hn : 5 + n < 3751) :
    (climbed cooldown n).size = 5 + n ∧ (climbed cooldown n).lossy = 3752 := by
  induction n with
  | zero => exact ⟨rfl, rfl⟩
  | succ n ih =>
    obtain ⟨hsize, hlossy⟩ := ih (by omega)
    rw [climbed_succ (by omega) (by omega)]
    have hgrown : ((climbed cooldown n).grow 0).size = min ((climbed cooldown n).size + 1) 3751 := rfl
    have hceiling := (climbed cooldown n).lossy_grow 0
    have hmax : Limits.maximumWindow = 3751 := rfl
    simp only [Limits.lossyHeadroom] at hceiling
    omega

/-- After 3746 whole windows of acknowledgements the window has all places, and its ceiling has been raised
above the first one. -/
theorem climbed_full (cooldown : Duration) :
    (climbed cooldown 3746).size = 3751 ∧ (climbed cooldown 3746).lossy = 3753 := by
  obtain ⟨hsize, hlossy⟩ := size_climbed cooldown (n := 3745) (by decide)
  rw [climbed_succ (by omega) (by omega)]
  have hfull : ((climbed cooldown 3745).grow 0).size = Limits.maximumWindow := by
    rw [size_grow, hsize]
    rfl
  refine ⟨hfull, ?_⟩
  rcases (climbed cooldown 3745).lossy_grow 0 with ⟨hraised, -⟩ | ⟨-, hbelow⟩
  · rw [hraised, hlossy]
  · exact absurd hfull hbelow

/-- With all places and room below the ceiling, growth is allowed, and only the ceiling rises. -/
theorem onAcks_of_full (now : Instant) (hfull : w.size = Limits.maximumWindow) (hbelow : w.size < w.lossy) :
    w.onAcks now 3751 true = (true, w.grow now) ∧ (w.grow now).size = w.size ∧
      (w.grow now).lossy = w.lossy + 1 := by
  have hsame : (w.grow now).size = Limits.maximumWindow := by
    rw [size_grow, hfull]
    rfl
  refine ⟨onAcks_of_lt now (Nat.le_of_eq hfull) hbelow, hsame.trans hfull.symm, ?_⟩
  rcases w.lossy_grow now with ⟨hraised, -⟩ | ⟨-, hless⟩
  · exact hraised
  · exact absurd hsame hless

/-- The next acknowledgements are told that the window grew, and raise the ceiling again. -/
theorem not_unchanged_at_maximum :
    ¬(climbed 2000000000 3746).lossy ≤ 3752 ∧
      ¬(((climbed 2000000000 3746).onAcks 0 3751 true).1 = true ↔
        ((climbed 2000000000 3746).onAcks 0 3751 true).2.size = (climbed 2000000000 3746).size + 1) ∧
      ((climbed 2000000000 3746).onAcks 0 3751 true).2 ≠ climbed 2000000000 3746 := by
  obtain ⟨hsize, hlossy⟩ := climbed_full 2000000000
  generalize climbed 2000000000 3746 = w at hsize hlossy ⊢
  obtain ⟨hanswer, hsame, hraised⟩ := onAcks_of_full 0 hsize (by omega)
  rw [hanswer]
  refine ⟨by omega, ?_, fun hunchanged => ?_⟩
  · simp only [true_iff, hsame]
    omega
  · simp only at hunchanged
    rw [hunchanged] at hraised
    omega

end ReliableDatagram.Window
