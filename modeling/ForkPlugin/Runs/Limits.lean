import ForkPlugin.Runs.Local
import ForkPlugin.Runs.Resolve

/-!
# What the limits mean

Two consequences of the offline decision, for all runs that the offline decision describes.

* `Typed`, `Brings`         a stream of keys, and a run that brings it with all times in order;
* `Patient`                 a configuration with the same forks, and with no shorter limit;
* `ForksLater`              what a patient machine may send instead;
* `patience`                longer limits never fork what shorter limits do not, up to the first
                            press that only the shorter limits fork;
* `OneLimit`                no other key shortens the interval of a key that forks;
* `LongHeld`, `MayBeHeld`   a press that is held for its interval, and one that may still be;
* `tap_hold`                with one limit for each key the held presses fork, and only they do.
-/

namespace ForkNS

open Runs Machine

variable {E Time : Type} [LinearOrder Time] [Add Time] [Zero Time] [NatCast Time]

/-- the events of keys, after the start -/
structure Typed (env : Environment E Time) (es : List E) : Prop where
  late : ∀ e ∈ es, 0 < env.timeOf e
  keys : ∀ e ∈ es, 1 ≤ env.detailOf e
  alternates : Alternates env es

/-- the run brings `es` to a machine with room for them, skips none, and can be ended at `T` -/
structure Brings (S : Setup E Time) (c : ℕ) (es : List E) (T : Time) (acts : List (Act E Time)) :
    Prop where
  unforced : .call .acceptConfirmation ∉ acts
  offered : offered acts = es
  sorted : (times S.env (calls acts) ++ [T]).Pairwise (· ≤ ·)
  roomy : WithinCapacity S c acts
  idle : ∃ u, runs (Sys.step S) (Sys.create (Triqueue.create c)) acts = some u ∧
    u.control = .idle ∧ u.pushed = es

theorem Brings.ends {S : Setup E Time} {c : ℕ} {es : List E} {T : Time} {acts : List (Act E Time)}
    (hb : Brings S c es T acts) (hE : S.env.Lawful) (hc : 2 ≤ c) (h0 : 0 ≤ T)
    (ht : Typed S.env es) (hcalm : Calm S T .start es) :
    ∃ s, EndsAt S (Triqueue.create c) acts T s ∧ relayed s.trace = (resolve S T .start es).1 := by
  obtain ⟨u, hu, hidle, hpushed⟩ := hb.idle
  obtain ⟨v, hv, halike⟩ := ring_run hc hb.roomy hu
  obtain ⟨t, ht, hrelayed, -⟩ := lists_resolve hE h0 ht.late ht.keys ht.alternates hb.unforced
    hb.offered hb.sorted hv (halike.control ▸ hidle) (halike.pushed ▸ hpushed)
  obtain ⟨s, hs, hst⟩ := ring_endsAt halike hu hv ht
  refine ⟨s, hs, ?_⟩
  rw [hst.trace]
  exact (hrelayed hcalm).1

omit [LinearOrder Time] [Add Time] [Zero Time] [NatCast Time] in
/-- what is offered comes in the order of the calls -/
theorem offered_times (env : Environment E Time) (acts : List (Act E Time)) :
    ((offered acts).map env.timeOf).Sublist (times env (calls acts)) := by
  induction acts with
  | nil => exact .slnil
  | cons a acts ih =>
    rcases a with (e | now | -) | frozen
    · exact ih.cons_cons _
    · exact ih.cons _
    · exact ih
    · exact ih

theorem Brings.times_sorted {S : Setup E Time} {c : ℕ} {es : List E} {T : Time}
    {acts : List (Act E Time)} (hb : Brings S c es T acts) :
    (es.map S.env.timeOf ++ [T]).Pairwise (· ≤ ·) := by
  rw [← hb.offered]
  exact hb.sorted.sublist ((offered_times S.env acts).append (.refl _))

/-! ## longer limits -/

/-- the forks of `config`, and no limit is shorter -/
structure ForkConfiguration.Patient (config patient : ForkConfiguration Time) : Prop where
  forkKeycode : patient.forkKeycode = config.forkKeycode
  repeatMax : patient.repeatMax = config.repeatMax
  considerForksForRepeat : patient.considerForksForRepeat = config.considerForksForRepeat
  interval : ∀ k l, config.verificationIntervalOf k l ≤ patient.verificationIntervalOf k l
  tolerance : ∀ k l, config.overlapToleranceOf k l ≤ patient.overlapToleranceOf k l

/-- the same is sent, up to a press which only the first has forked: the other has sent it as it
is, or still waits -/
def ForksLater (S : Setup E Time) (sent patient : List E) : Prop :=
  patient = sent ∨ ∃ common h, S.env.pressP h ∧
    S.config.forkKeycode (S.env.detailOf h) ≠ noKey ∧
    common ++ [S.env.rewriteEvent h (S.config.forkKeycode (S.env.detailOf h))] <+: sent ∧
    (common ++ [h] <+: patient ∨ patient = common)

omit [LinearOrder Time] [Add Time] [Zero Time] [NatCast Time] in
theorem ForksLater.cons {S : Setup E Time} {sent patient : List E} (h : ForksLater S sent patient)
    (r : E) : ForksLater S (r :: sent) (r :: patient) := by
  rcases h with rfl | ⟨common, h, hp, hc, hsent, hpatient⟩
  · exact .inl rfl
  · exact .inr ⟨r :: common, h, hp, hc, (List.prefix_cons_inj r).mpr hsent,
      hpatient.imp (List.prefix_cons_inj r).mpr (congrArg _)⟩

omit [LinearOrder Time] [Add Time] [Zero Time] [NatCast Time] in
@[simp] theorem Setup.withConfig_env (S : Setup E Time) (config : ForkConfiguration Time) :
    (S.withConfig config).env = S.env := rfl

omit [LinearOrder Time] [Add Time] [Zero Time] [NatCast Time] in
@[simp] theorem Setup.withConfig_config (S : Setup E Time) (config : ForkConfiguration Time) :
    (S.withConfig config).config = config := rfl

theorem ForkConfiguration.verifierDecisionTime_eq (config : ForkConfiguration Time) (k : Keycode)
    (t : Time) (l : Keycode) (t' : Time) : config.verifierDecisionTime k t l t'
      = min (t' + config.overlapToleranceOf k l) (t + config.verificationIntervalOf k l) := by
  simp only [verifierDecisionTime, min_def]
  split_ifs with hlt hle hle
  · rfl
  · exact absurd (le_of_lt hlt) hle
  · exact le_antisymm (not_lt.mp hlt) hle
  · rfl

section
variable {S : Setup E Time} {config : ForkConfiguration Time} (hp : S.config.Patient config)
  (T : Time) [AddLeftMono Time]
include hp

/-- the look-ahead sees the same, and its deadline is not earlier -/
theorem see_patient (h e : E) {l l' : Look Time} (hv : l'.verificator = l.verificator)
    (hd : l.deadline ≤ l'.deadline) :
    (l'.see (S.withConfig config) h e).verificator = (l.see S h e).verificator ∧
      (l.see S h e).deadline ≤ (l'.see (S.withConfig config) h e).deadline := by
  have hdecision : S.config.verifierDecisionTime (S.env.detailOf h) (S.env.timeOf h)
      (S.env.detailOf e) (S.env.timeOf e) ≤ config.verifierDecisionTime (S.env.detailOf h)
        (S.env.timeOf h) (S.env.detailOf e) (S.env.timeOf e) := by
    rw [ForkConfiguration.verifierDecisionTime_eq, ForkConfiguration.verifierDecisionTime_eq]
    exact min_le_min (add_le_add_right (hp.tolerance _ _) _) (add_le_add_right (hp.interval _ _) _)
  unfold Look.see
  simp only [Setup.withConfig_env, Setup.withConfig_config, hv]
  split_ifs
  · exact ⟨rfl, min_le_min hd hdecision⟩
  · exact ⟨rfl, hd⟩
  · exact ⟨hv, hd⟩

/-- the suspect ends the same way, unless the shorter limits fork it -/
theorem lookAhead_patient (h : E) (es : List E) :
    ∀ l l' : Look Time, l'.verificator = l.verificator → l.deadline ≤ l'.deadline →
      lookAhead S T h l es = .forked ∨
        lookAhead (S.withConfig config) T h l' es = lookAhead S T h l es := by
  induction es with
  | nil =>
    intro l l' _ hd
    by_cases hT : l.deadline ≤ T
    · exact .inl (if_pos hT)
    · right
      rw [lookAhead, lookAhead, if_neg hT, if_neg fun h => hT (le_trans hd h)]
  | cons e es ih =>
    intro l l' hv hd
    by_cases hlate : l.deadline ≤ S.env.timeOf e
    · exact .inl (if_pos hlate)
    have hlate' : ¬l'.deadline ≤ S.env.timeOf e := fun h => hlate (le_trans hd h)
    rw [lookAhead, lookAhead, Setup.withConfig_env, if_neg hlate, if_neg hlate']
    by_cases hr : S.env.releaseP e ∧ S.env.detailOf e = S.env.detailOf h
    · exact .inr (by rw [if_pos hr, if_pos hr])
    · rw [if_neg hr, if_neg hr]
      obtain ⟨hv', hd'⟩ := see_patient hp h e hv hd
      exact ih _ _ hv' hd'

omit [Add Time] [AddLeftMono Time] in
theorem release_patient (ks : Keys Time) (e : E) :
    ks.release (S.withConfig config) e = ks.release S e := by
  simp only [Keys.release, Setup.withConfig_env, Setup.withConfig_config,
    hp.considerForksForRepeat]

omit [Add Time] [AddLeftMono Time] in
theorem decide_patient (ks : Keys Time) (e : E) (o : Outcome) :
    o.decide (S.withConfig config) ks e = o.decide S ks e := by
  cases o
  · simp only [Outcome.decide, Setup.withConfig_env, Setup.withConfig_config, hp.forkKeycode]
  · rfl
  · rfl

/-- one event is sent the same, unless the shorter limits fork it -/
theorem choose_patient (ks : Keys Time) (e : E) (es : List E) :
    choose (S.withConfig config) T ks e es = choose S T ks e es ∨
      Keys.mayFork S e ∧ choose S T ks e es = Outcome.decide S ks e .forked ∧
        (choose (S.withConfig config) T ks e es = some (e, ks) ∨
          choose (S.withConfig config) T ks e es = none) := by
  have hmay : Keys.mayFork (S.withConfig config) e ↔ Keys.mayFork S e := by
    simp only [Keys.mayFork, Setup.withConfig_env, Setup.withConfig_config, hp.forkKeycode]
  have hquick : ks.quick (S.withConfig config) e ↔ ks.quick S e := by
    simp only [Keys.quick, Setup.withConfig_env, Setup.withConfig_config, hp.repeatMax]
  unfold choose
  simp only [Setup.withConfig_env, hmay, hquick, release_patient hp, decide_patient hp]
  by_cases hr : S.env.releaseP e = true
  · exact .inl (by rw [if_pos hr, if_pos hr])
  rw [if_neg hr, if_neg hr]
  by_cases hm : Keys.mayFork S e
  · rw [if_pos hm, if_pos hm]
    by_cases hq : ks.quick S e
    · exact .inl (by rw [if_pos hq, if_pos hq])
    · rw [if_neg hq, if_neg hq]
      have hstart : (Look.start S e).deadline ≤ (Look.start (S.withConfig config) e).deadline :=
        add_le_add_right (hp.interval _ _) _
      rcases lookAhead_patient hp T e es (Look.start S e) (Look.start (S.withConfig config) e)
        rfl hstart with hf | heq
      · rw [hf]
        cases lookAhead (S.withConfig config) T e (Look.start (S.withConfig config) e) es with
        | forked => exact .inl rfl
        | unforked => exact .inr ⟨hm, rfl, .inl rfl⟩
        | undecided => exact .inr ⟨hm, rfl, .inr rfl⟩
      · exact .inl (by rw [heq])
  · exact .inl (by rw [if_neg hm, if_neg hm])

theorem resolve_patient (es : List E) : ∀ ks : Keys Time,
    ForksLater S (resolve S T ks es).1 (resolve (S.withConfig config) T ks es).1 := by
  induction es with
  | nil => exact fun _ => .inl rfl
  | cons e es ih =>
    intro ks
    rw [resolve, resolve]
    rcases choose_patient hp T ks e es with heq | ⟨⟨hpress, hcode, -⟩, hforked, hlater⟩
    · rw [heq]
      cases choose S T ks e es with
      | none => exact .inl rfl
      | some p => exact (ih p.2).cons p.1
    · rw [hforked]
      have hfork : ∀ {r : E} {l : List E}, [] ++ [r] <+: r :: l :=
        (List.prefix_cons_inj _).mpr List.nil_prefix
      rcases hlater with hlater | hlater
      · rw [hlater]
        exact .inr ⟨[], e, hpress, hcode, hfork, .inl hfork⟩
      · rw [hlater]
        exact .inr ⟨[], e, hpress, hcode, hfork, .inr rfl⟩

end

/-- key 1 as in `testConfiguration`; the others must be held for longer, alone or not -/
def slowConfiguration : ForkConfiguration Nat :=
  { testConfiguration with
    matrices := some {
      overlapTolerance := fun _ _ => 1000
      verificationInterval := fun code _ => if code = 1 then 1000 else 250 } }

/-- key 3 is held while key 20 is typed, and is tapped over key 20 -/
def heldThenTapped : List TestEvent :=
  [down 3 100, down 20 150, up 20 180, up 3 400, down 3 500, down 20 550, up 3 720, up 20 730]

def heldThenTappedAtOnce : List (Act TestEvent Nat) :=
  during (.acceptEvent (down 3 100)) 7 ++ during (.acceptEvent (down 20 150)) 7 ++
    during (.acceptEvent (up 20 180)) 7 ++ during (.acceptEvent (up 3 400)) 17 ++
    during (.acceptEvent (down 3 500)) 7 ++ during (.acceptEvent (down 20 550)) 7 ++
    during (.acceptEvent (up 3 720)) 14 ++ during (.acceptEvent (up 20 730)) 8

theorem slowConfiguration_patient : testSetup.config.Patient slowConfiguration where
  forkKeycode := rfl
  repeatMax := rfl
  considerForksForRepeat := rfl
  interval k l := by
    simp only [testSetup, testConfiguration, slowConfiguration, getValueFromMatrix,
      ForkConfiguration.verificationIntervalOf]
    split_ifs <;> omega
  tolerance k l := by
    simp only [testSetup, testConfiguration, slowConfiguration, getValueFromMatrix,
      ForkConfiguration.overlapToleranceOf]
    split_ifs <;> omega

theorem heldThenTapped_typed : Typed testEnvironment heldThenTapped :=
  ⟨by decide, by decide, by decide⟩

theorem heldThenTapped_brings :
    Brings testSetup 100 heldThenTapped 800 heldThenTappedAtOnce where
  unforced := by decide
  offered := by decide
  sorted := by decide
  roomy := by decide
  idle := ⟨_, Option.eq_some_of_isSome (by decide), by decide, by decide⟩

theorem heldThenTapped_brings_slow :
    Brings (testSetup.withConfig slowConfiguration) 100 heldThenTapped 800
      heldThenTappedAtOnce where
  unforced := by decide
  offered := by decide
  sorted := by decide
  roomy := by decide
  idle := ⟨_, Option.eq_some_of_isSome (by decide), by decide, by decide⟩

/-- no other key makes a fork come sooner than the key itself -/
def ForkConfiguration.OneLimit (config : ForkConfiguration Time) : Prop :=
  ∀ k l, config.forkKeycode k ≠ noKey →
    config.verificationIntervalOf k noKey ≤ config.verificationIntervalOf k l ∧
      config.verificationIntervalOf k noKey ≤ config.overlapToleranceOf k l

section
variable (env : Environment E Time)

def lastRelease (past : List E) : Option E := past.reverse.find? env.releaseP

/-- the event that lets the key of `h` up -/
def ownRelease (h : E) (es : List E) : Option E :=
  es.find? fun e => env.releaseP e && env.detailOf e == env.detailOf h

variable {env}

omit [LinearOrder Time] [Add Time] [Zero Time] [NatCast Time]

theorem lastRelease_snoc (past : List E) (e : E) :
    lastRelease env (past ++ [e]) = if env.releaseP e then some e else lastRelease env past := by
  rw [lastRelease, List.reverse_append]
  exact List.find?_cons.trans (by cases env.releaseP e <;> rfl)

theorem ownRelease_cons (h e : E) (es : List E) : ownRelease env h (e :: es)
    = if env.releaseP e = true ∧ env.detailOf e = env.detailOf h then some e
      else ownRelease env h es := by
  unfold ownRelease
  split_ifs with hr
  · exact List.find?_cons_of_pos (by simpa using hr)
  · exact List.find?_cons_of_neg (by simpa using hr)

variable [LE Time] in
/-- in order of time, nothing that follows `e` is earlier, nor the end -/
theorem sorted_cons {T : Time} {e : E} {es : List E}
    (h : ((e :: es).map env.timeOf ++ [T]).Pairwise (· ≤ ·)) :
    (∀ x ∈ es, env.timeOf e ≤ env.timeOf x) ∧ env.timeOf e ≤ T ∧
      (es.map env.timeOf ++ [T]).Pairwise (· ≤ ·) := by
  rw [List.map_cons, List.cons_append, List.pairwise_cons] at h
  obtain ⟨hlater, hrest⟩ := h
  refine ⟨fun x hx => ?_, hlater T (by simp), hrest⟩
  exact hlater _ (List.mem_append_left _ (List.mem_map_of_mem hx))

variable [LE Time] in
/-- it is not earlier than what follows -/
theorem le_ownRelease {T t : Time} {h : E} {es : List E} (hes : ∀ e ∈ es, t ≤ env.timeOf e)
    (hT : t ≤ T) : t ≤ (ownRelease env h es).elim T env.timeOf := by
  cases hr : ownRelease env h es with
  | none => exact hT
  | some r => exact hes r (List.mem_of_find?_eq_some hr)

end

section
variable (S : Setup E Time)

/-- the same key was released just before -/
def FollowsRelease (past : List E) (e : E) : Prop :=
  ∃ r ∈ lastRelease S.env past, S.env.detailOf r = S.env.detailOf e ∧
    S.env.timeOf e ≤ S.env.timeOf r + S.config.repeatMax

/-- a press of a key that forks, down for its interval: until it is released, or until `T` -/
def LongHeld (T : Time) (past : List E) (h : E) (es : List E) : Prop :=
  Keys.mayFork S h ∧ ¬FollowsRelease S past h ∧
    S.env.timeOf h + S.config.verificationIntervalOf (S.env.detailOf h) noKey ≤
      (ownRelease S.env h es).elim T S.env.timeOf

/-- one that is still down at `T`, for less than its interval -/
def MayBeHeld (T : Time) (past : List E) (h : E) (es : List E) : Prop :=
  Keys.mayFork S h ∧ ¬FollowsRelease S past h ∧ ownRelease S.env h es = none ∧
    T < S.env.timeOf h + S.config.verificationIntervalOf (S.env.detailOf h) noKey

instance (past : List E) (e : E) : Decidable (FollowsRelease S past e) :=
  inferInstanceAs (Decidable (∃ r ∈ lastRelease S.env past, _))

instance (T : Time) (past : List E) (h : E) (es : List E) : Decidable (LongHeld S T past h es) :=
  inferInstanceAs (Decidable (_ ∧ _ ∧ _))

/-- a held press leaves as its fork, any other as it is -/
def pressAs (T : Time) (past : List E) (h : E) (es : List E) : E :=
  if LongHeld S T past h es then S.env.rewriteEvent h (S.config.forkKeycode (S.env.detailOf h))
  else h

end

/-- the keys after `past` know its last release -/
def Remembers (env : Environment E Time) (past : List E) (ks : Keys Time) : Prop :=
  match lastRelease env past with
  | some r => ks.lastReleased = env.detailOf r ∧ ks.lastReleasedTime = env.timeOf r
  | none => ks.lastReleased = noKey

section
variable {S : Setup E Time} {T : Time} {past : List E} {ks : Keys Time}

omit [Zero Time] [NatCast Time] in
theorem quick_iff {e : E} (hks : Remembers S.env past ks) (hkey : S.env.detailOf e ≠ noKey) :
    ks.quick S e ↔ FollowsRelease S past e := by
  unfold Remembers at hks
  unfold Keys.quick FollowsRelease
  cases hr : lastRelease S.env past with
  | none =>
    rw [hr] at hks
    simp [hks, hkey.symm]
  | some r =>
    rw [hr] at hks
    simp [hks.1, hks.2]

/-- only a release changes the last release -/
theorem choose_lastReleased {e r : E} {es : List E} {ks' : Keys Time}
    (hr : ¬S.env.releaseP e = true) (h : choose S T ks e es = some (r, ks')) :
    ks'.lastReleased = ks.lastReleased ∧ ks'.lastReleasedTime = ks.lastReleasedTime := by
  unfold choose at h
  rw [if_neg hr] at h
  split_ifs at h
  · cases h
    exact ⟨rfl, rfl⟩
  · cases hla : lookAhead S T e (Look.start S e) es with
    | forked =>
      rw [hla] at h
      cases h
      exact ⟨rfl, rfl⟩
    | unforked =>
      rw [hla] at h
      cases h
      exact ⟨rfl, rfl⟩
    | undecided =>
      rw [hla] at h
      cases h
  · cases h
    exact ⟨rfl, rfl⟩

theorem remembers_choose (hfr : S.config.considerForksForRepeat = true) {e r : E} {es : List E}
    {ks' : Keys Time} (hks : Remembers S.env past ks) (h : choose S T ks e es = some (r, ks')) :
    Remembers S.env (past ++ [e]) ks' := by
  unfold Remembers
  rw [lastRelease_snoc]
  by_cases hr : S.env.releaseP e = true
  · unfold choose at h
    rw [if_pos hr, Option.some.injEq] at h
    have hks' : ks' = (ks.release S e).2 := (congrArg Prod.snd h).symm
    rw [if_pos hr, hks']
    simp only [Keys.release, hfr, if_true]
    split_ifs
    · exact ⟨rfl, rfl⟩
    · exact ⟨rfl, rfl⟩
  · obtain ⟨hkey, htime⟩ := choose_lastReleased hr h
    rw [if_neg hr, hkey, htime]
    exact hks

section
variable [AddLeftMono Time] [AddRightMono Time] (hone : S.config.OneLimit) {h : E}
include hone

/-- the deadline stays that of the press -/
theorem see_oneLimit (hc : S.config.forkKeycode (S.env.detailOf h) ≠ noKey) {e : E}
    (hle : S.env.timeOf h ≤ S.env.timeOf e) {l : Look Time}
    (hd : l.deadline = (Look.start S h).deadline) :
    (l.see S h e).deadline = (Look.start S h).deadline := by
  obtain ⟨hinterval, htolerance⟩ := hone _ (S.env.detailOf e) hc
  unfold Look.see
  dsimp only
  split_ifs
  · rw [hd, ForkConfiguration.verifierDecisionTime_eq]
    exact min_eq_left (le_min (add_le_add hle htolerance) (add_le_add_right hinterval _))
  · exact hd
  · exact hd

theorem lookAhead_oneLimit (hc : S.config.forkKeycode (S.env.detailOf h) ≠ noKey) (es : List E) :
    ∀ l : Look Time, l.deadline = (Look.start S h).deadline →
      (∀ e ∈ es, S.env.timeOf h ≤ S.env.timeOf e) →
      (es.map S.env.timeOf ++ [T]).Pairwise (· ≤ ·) →
      lookAhead S T h l es =
        if (Look.start S h).deadline ≤ (ownRelease S.env h es).elim T S.env.timeOf then .forked
        else if (ownRelease S.env h es).isSome then .unforked else .undecided := by
  induction es with
  | nil =>
    intro l hd _ _
    rw [lookAhead, hd]
    rfl
  | cons e es ih =>
    intro l hd hle hsort
    obtain ⟨hlater, hT, hrest⟩ := sorted_cons hsort
    rw [lookAhead, hd]
    by_cases hdue : (Look.start S h).deadline ≤ S.env.timeOf e
    · have hlong : (Look.start S h).deadline ≤
          (ownRelease S.env h (e :: es)).elim T S.env.timeOf := by
        refine le_ownRelease ?_ (le_trans hdue hT)
        intro x hx
        rcases List.mem_cons.mp hx with rfl | hx
        · exact hdue
        · exact le_trans hdue (hlater x hx)
      rw [if_pos hdue, if_pos hlong]
    · rw [if_neg hdue, ownRelease_cons]
      by_cases hr : S.env.releaseP e = true ∧ S.env.detailOf e = S.env.detailOf h
      · rw [if_pos hr, if_pos hr, Option.elim_some, if_neg hdue, Option.isSome_some, if_pos rfl]
      · rw [if_neg hr, if_neg hr]
        exact ih _ (see_oneLimit hone hc (hle e List.mem_cons_self) hd)
          (fun x hx => hle x (List.mem_cons_of_mem e hx)) hrest

/-- a press is sent as its fork where it is held, and waits only where it may still be -/
theorem choose_oneLimit (hE : S.env.Lawful) {e : E} {es : List E}
    (hks : Remembers S.env past ks) (hkey : S.env.detailOf e ≠ noKey)
    (hsort : ((e :: es).map S.env.timeOf ++ [T]).Pairwise (· ≤ ·)) :
    match choose S T ks e es with
    | some (r, _) => S.env.pressP e → r = pressAs S T past e es
    | none => MayBeHeld S T past e es := by
  unfold choose pressAs
  dsimp only
  by_cases hr : S.env.releaseP e = true
  · rw [if_pos hr]
    intro hp
    rw [hE.oneKind e hp] at hr
    cases hr
  rw [if_neg hr]
  by_cases hm : Keys.mayFork S e
  · rw [if_pos hm]
    by_cases hq : ks.quick S e
    · rw [if_pos hq]
      exact fun _ => (if_neg fun h => h.2.1 ((quick_iff hks hkey).mp hq)).symm
    · have hfol : ¬FollowsRelease S past e := fun h => hq ((quick_iff hks hkey).mpr h)
      obtain ⟨hlater, -, hrest⟩ := sorted_cons hsort
      rw [if_neg hq, lookAhead_oneLimit hone hm.2.1 es _ rfl hlater hrest]
      by_cases hlong : (Look.start S e).deadline ≤ (ownRelease S.env e es).elim T S.env.timeOf
      · rw [if_pos hlong]
        exact fun _ => (if_pos ⟨hm, hfol, hlong⟩).symm
      · rw [if_neg hlong]
        cases hown : ownRelease S.env e es with
        | some r => exact fun _ => (if_neg fun h => hlong h.2.2).symm
        | none =>
          rw [hown] at hlong
          exact ⟨hm, hfol, hown, not_le.mp hlong⟩
  · rw [if_neg hm]
    exact fun _ => (if_neg fun h => hm h.1).symm

theorem resolve_oneLimit (hE : S.env.Lawful) (hfr : S.config.considerForksForRepeat = true)
    (es : List E) : ∀ (past : List E) (ks : Keys Time), Remembers S.env past ks →
      (∀ e ∈ es, S.env.detailOf e ≠ noKey) → (es.map S.env.timeOf ++ [T]).Pairwise (· ≤ ·) →
      ∀ before e after, es = before ++ e :: after →
        (∀ r, (resolve S T ks es).1[before.length]? = some r → S.env.pressP e →
          r = pressAs S T (past ++ before) e after) ∧
        ((resolve S T ks es).1.length = before.length →
          MayBeHeld S T (past ++ before) e after) := by
  induction es with
  | nil =>
    intro past ks _ _ _ before e after heq
    cases before <;> cases heq
  | cons x es ih =>
    intro past ks hks hkeys hsort before e after heq
    have hfirst := choose_oneLimit hone hE hks (hkeys x List.mem_cons_self) hsort
    rw [resolve]
    cases before with
    | nil =>
      cases heq
      rw [List.append_nil]
      cases hch : choose S T ks x es with
      | none =>
        rw [hch] at hfirst
        exact ⟨fun r h => (by cases h), fun _ => hfirst⟩
      | some p =>
        rw [hch] at hfirst
        refine ⟨fun r h => ?_, fun h => by cases h⟩
        cases h
        exact hfirst
    | cons b before =>
      cases heq
      cases hch : choose S T ks x (before ++ e :: after) with
      | none => exact ⟨fun r h => (by cases h), fun h => by cases h⟩
      | some p =>
        have hrest := ih (past ++ [x]) p.2 (remembers_choose hfr hks hch)
          (fun y hy => hkeys y (List.mem_cons_of_mem x hy)) (sorted_cons hsort).2.2 before e after
          rfl
        rw [List.append_assoc, List.singleton_append] at hrest
        exact ⟨hrest.1, fun h => hrest.2 (Nat.succ.inj h)⟩

end

end

theorem slowConfiguration_oneLimit : slowConfiguration.OneLimit := by
  intro k l _
  simp only [slowConfiguration, getValueFromMatrix, ForkConfiguration.verificationIntervalOf,
    ForkConfiguration.overlapToleranceOf]
  split_ifs <;> omega

example : pressAs (testSetup.withConfig slowConfiguration) 800 [] (down 3 100)
    (heldThenTapped.drop 1) = down 13 100 := by decide

example : pressAs (testSetup.withConfig slowConfiguration) 800 (heldThenTapped.take 4) (down 3 500)
    (heldThenTapped.drop 5) = down 3 500 := by decide

end ForkNS
