import ForkPlugin.Lib.Runs
import ForkPlugin.Ports.HotKeys

/-!
# Sessions of the hot keys

In `config_mode` two presses make a fork: the first key is kept in `key_to_fork`, the second is what
it forks to.  The mode ends by a release of Pause or, when it is latched, after one more event.  The
key that is kept is not forgotten then.

* `moments`             the values of the variables that an event leads through;
* `EndsSession`, `LeavesKey`   the event ends the mode; a key is kept after it;
* `Forgotten`           no key is kept while the mode is off;
* `SameSession`         the two presses of a fork are made with the mode on all the time between;
* `forgotten_iff`       no key is kept exactly if no event ends the mode and leaves a key;
* `sessions_independent`   then each fork is made within one session;
* `fork_across_sessions`   two keys of different sessions.
-/

namespace ForkNS

variable {h : HotKeys} {events : List KeyEvent} {event : KeyEvent}

def moments (h : HotKeys) (event : KeyEvent) : List HotKeys :=
  [(afterConfigMode h event).state, (filterConfigKeyMaybe h event).state]

def momentsFrom (before : List KeyEvent) : List KeyEvent → List HotKeys
  | [] => []
  | event :: events => moments (.after before) event ++ momentsFrom (before ++ [event]) events

theorem momentsFrom_append (before events events' : List KeyEvent) :
    momentsFrom before (events ++ events')
      = momentsFrom before events ++ momentsFrom (before ++ events) events' := by
  induction events generalizing before with
  | nil => simp [momentsFrom]
  | cons event events ih =>
    rw [List.cons_append, momentsFrom, momentsFrom, ih, List.append_assoc, List.append_assoc]
    rfl

/-! ## one event -/

/-- the mode is on; Pause is released and not tolerated, or another event uses up the latch -/
def EndsSession (h : HotKeys) (event : KeyEvent) : Prop :=
  h.configMode = true ∧
    if pauseReleased event then ¬event.time - h.lastPressTime < minimumDuration
    else h.latch = true

/-- a key is kept: the one that is pressed, or the one kept before -/
def LeavesKey (h : HotKeys) (event : KeyEvent) : Prop :=
  if plainPressed event then h.keyToFork = 0 ∧ event.detail ≠ 0 else h.keyToFork ≠ 0

theorem afterConfigMode_key (h : HotKeys) (event : KeyEvent) :
    (afterConfigMode h event).state.keyToFork = keyAfter h event := by
  cases hr : pauseReleased event with
  | false => rw [(afterConfigMode_other hr).2]
  | true =>
    rw [keyAfter, plainPressed_pause (pauseReleased_iff.mp hr).1]
    simp only [afterConfigMode, configModeBlock, hr, if_true, Bool.false_eq_true, and_false,
      if_false]
    split_ifs <;> rfl

theorem afterConfigMode_mode (h : HotKeys) (event : KeyEvent) :
    (afterConfigMode h event).state.configMode = true ↔
      h.configMode = true ∧ ¬EndsSession h event := by
  cases hr : pauseReleased event with
  | false =>
    rw [(afterConfigMode_other hr).2]
    cases hm : h.configMode <;> cases hl : h.latch <;> simp [EndsSession, hr, hm, hl]
  | true =>
    simp only [afterConfigMode, configModeBlock, hr, if_true, EndsSession]
    by_cases hm : h.configMode = true
    · by_cases ht : event.time - h.lastPressTime < minimumDuration <;> simp [hm, ht]
    · simp [hm]

/-- the rest of the filter keeps the key, and can only enter the mode -/
theorem filter_after (h : HotKeys) (event : KeyEvent) :
    (filterConfigKeyMaybe h event).state.keyToFork = keyAfter h event ∧
      ((filterConfigKeyMaybe h event).state.configMode = false →
        (afterConfigMode h event).state.configMode = false) := by
  rw [← afterConfigMode_key]
  simp only [filterConfigKeyMaybe, pauseBlock]
  split_ifs <;> simp

theorem keyAfter_ne (hm : h.configMode = true) : keyAfter h event ≠ 0 ↔ LeavesKey h event := by
  unfold keyAfter LeavesKey
  by_cases hp : plainPressed event = true
  · by_cases hk : h.keyToFork = 0 <;> simp [hm, hp, hk]
  · simp [hp]

theorem keyAfter_off (hm : h.configMode = false) : keyAfter h event = h.keyToFork := by
  simp [keyAfter, hm]

theorem keyAfter_origin (hk : keyAfter h event ≠ 0) : keyAfter h event = h.keyToFork ∨
    plainPressed event = true ∧ keyAfter h event = event.detail := by
  unfold keyAfter at hk ⊢
  split_ifs at hk ⊢ with hp hz
  · exact .inr ⟨hp.2, rfl⟩
  · exact absurd rfl hk
  · exact .inl rfl

theorem handleConfigKey_fork {key value : Keycode}
    (hs : .forkKeycode key value ∈ (handleConfigKey h event).services) :
    key = h.keyToFork ∧ key ≠ 0 ∧ event.press = true ∧ value = event.detail := by
  simp only [handleConfigKey] at hs
  split_ifs at hs with hp hpause hl hk hz <;> simp at hs
  obtain ⟨rfl, rfl⟩ := hs
  exact ⟨rfl, hz, hp, rfl⟩

theorem filter_forkKeycode {key value : Keycode}
    (hs : .forkKeycode key value ∈ (filterConfigKeyMaybe h event).services) :
    h.configMode = true ∧ key = h.keyToFork ∧ key ≠ 0 ∧ event.press = true ∧
      value = event.detail := by
  have hblock : .forkKeycode key value ∈ (afterConfigMode h event).services := by
    simp only [filterConfigKeyMaybe, pauseBlock] at hs
    split_ifs at hs <;> exact hs
  simp only [afterConfigMode, configModeBlock] at hblock
  split_ifs at hblock with hm hr ht hl
  · simp at hblock
  · simp at hblock
  · have hfork := handleConfigKey_fork hblock
    exact ⟨hm, hfork⟩
  · have hfork := handleConfigKey_fork hblock
    exact ⟨hm, hfork⟩
  · simp at hblock

/-! ## event after event -/

/-- `key_to_fork` is 0 whenever `config_mode` is off -/
def Forgotten (events : List KeyEvent) : Prop :=
  ∀ m ∈ momentsFrom [] events, m.configMode = false → m.keyToFork = 0

/-- the mode was on all the time since the first key was pressed -/
def SameSession (events : List KeyEvent) : Prop :=
  ∀ before event after key value, events = before ++ event :: after →
    .forkKeycode key value ∈ (filterConfigKeyMaybe (.after before) event).services →
    event.press = true ∧ event.detail = value ∧ ∃ earlier first between,
      before = earlier ++ first :: between ∧ first.press = true ∧ first.detail = key ∧
      ∀ m ∈ momentsFrom earlier (first :: between), m.configMode = true

theorem moments_key {m : HotKeys} (hm : m ∈ moments h event) : m.keyToFork = keyAfter h event := by
  simp only [moments, List.mem_cons, List.not_mem_nil, or_false] at hm
  rcases hm with rfl | rfl
  · exact afterConfigMode_key h event
  · exact (filter_after h event).1

theorem forgotten_snoc : Forgotten (events ++ [event]) ↔ Forgotten events ∧
    ∀ m ∈ moments (.after events) event, m.configMode = false → m.keyToFork = 0 := by
  rw [Forgotten, momentsFrom_append, List.forall_mem_append]
  simp [Forgotten, momentsFrom]

theorem Forgotten.after (hF : Forgotten events) (hm : (HotKeys.after events).configMode = false) :
    (HotKeys.after events).keyToFork = 0 := by
  rcases List.eq_nil_or_concat events with rfl | ⟨events, event, rfl⟩
  · rfl
  · rw [List.concat_eq_append] at hF hm ⊢
    rw [HotKeys.after_snoc] at hm ⊢
    exact (forgotten_snoc.mp hF).2 _ (by simp [moments]) hm

theorem moments_forgotten (hoff : h.configMode = false → h.keyToFork = 0) :
    (∀ m ∈ moments h event, m.configMode = false → m.keyToFork = 0) ↔
      (EndsSession h event → ¬LeavesKey h event) := by
  constructor
  · intro hm hends hleaves
    have hoff' : (afterConfigMode h event).state.configMode = false := by
      rw [← Bool.not_eq_true, afterConfigMode_mode]
      exact fun hon => hon.2 hends
    have hzero := hm _ (by simp [moments]) hoff'
    rw [afterConfigMode_key] at hzero
    exact (keyAfter_ne hends.1).mpr hleaves hzero
  · intro hno m hm hmode
    rw [moments_key hm]
    have hoff' : (afterConfigMode h event).state.configMode = false := by
      simp only [moments, List.mem_cons, List.not_mem_nil, or_false] at hm
      rcases hm with rfl | rfl
      · exact hmode
      · exact (filter_after h event).2 hmode
    cases hon : h.configMode with
    | false => rw [keyAfter_off hon, hoff hon]
    | true =>
      have hends : EndsSession h event := by
        by_contra hends
        rw [(afterConfigMode_mode h event).mpr ⟨hon, hends⟩] at hoff'
        cases hoff'
      by_contra hne
      exact hno hends ((keyAfter_ne hon).mp hne)

/-- no key is kept while the mode is off, exactly if no event ends the mode and leaves a key -/
theorem forgotten_iff (events : List KeyEvent) : Forgotten events ↔
    ∀ before event after, events = before ++ event :: after →
      EndsSession (.after before) event → ¬LeavesKey (.after before) event := by
  induction events using List.reverseRecOn with
  | nil =>
    refine iff_of_true (fun m hm => by cases hm) fun before event after he => ?_
    simp at he
  | append_singleton events event ih =>
    rw [forgotten_snoc, ih]
    constructor
    · rintro ⟨hall, hlast⟩ before e after he
      rcases Runs.snoc_eq_split he with ⟨rfl, rfl, -⟩ | ⟨after', -, rfl⟩
      · exact (moments_forgotten (ih.mpr hall).after).mp hlast
      · exact hall before e after' rfl
    · intro hall
      have hbefore : ∀ before e after, events = before ++ e :: after →
          EndsSession (.after before) e → ¬LeavesKey (.after before) e := fun before e after he =>
        hall before e (after ++ [event]) (by rw [he, List.append_assoc]; rfl)
      exact ⟨hbefore, (moments_forgotten (ih.mpr hbefore).after).mpr (hall events event [] rfl)⟩

theorem Forgotten.origin (hF : Forgotten events) (hk : (HotKeys.after events).keyToFork ≠ 0) :
    ∃ earlier first between, events = earlier ++ first :: between ∧ first.press = true ∧
      first.detail = (HotKeys.after events).keyToFork ∧
      ∀ m ∈ momentsFrom earlier (first :: between), m.configMode = true := by
  induction events using List.reverseRecOn with
  | nil => exact absurd rfl hk
  | append_singleton events event ih =>
    obtain ⟨hevents, hlast⟩ := forgotten_snoc.mp hF
    rw [HotKeys.after_snoc, (filter_after _ event).1] at hk ⊢
    -- a key is kept at both moments, so the mode is on
    have hon : ∀ m ∈ moments (.after events) event, m.configMode = true := by
      intro m hm
      by_contra hoff
      rw [Bool.not_eq_true] at hoff
      exact hk (moments_key hm ▸ hlast m hm hoff)
    rcases keyAfter_origin hk with hsame | ⟨hp, hnew⟩
    · rw [hsame] at hk ⊢
      obtain ⟨earlier, first, between, rfl, hpress, hdetail, hmode⟩ := ih hevents hk
      refine ⟨earlier, first, between ++ [event], by simp, hpress, hdetail, ?_⟩
      rw [← List.cons_append, momentsFrom_append, List.forall_mem_append]
      refine ⟨hmode, ?_⟩
      simpa [momentsFrom] using hon
    · refine ⟨events, event, [], rfl, (plainPressed_iff.mp hp).1, hnew.symm, ?_⟩
      simpa [momentsFrom] using hon

theorem Forgotten.sameSession (hF : Forgotten events) : SameSession events := by
  rintro before event after key value rfl hs
  obtain ⟨-, rfl, hne, hpress, rfl⟩ := filter_forkKeycode hs
  have hbefore : Forgotten before := by
    intro m hm
    refine hF m ?_
    rw [momentsFrom_append]
    exact List.mem_append_left _ hm
  exact ⟨hpress, rfl, hbefore.origin hne⟩

/-- **Sessions are independent** as long as no event ends the mode and leaves a key. -/
theorem sessions_independent (events : List KeyEvent) :
    (Forgotten events ↔ ∀ before event after, events = before ++ event :: after →
      EndsSession (.after before) event → ¬LeavesKey (.after before) event) ∧
    (Forgotten events → SameSession events) :=
  ⟨forgotten_iff events, Forgotten.sameSession⟩

/-- key 38 is pressed while Pause is held, and Pause is pressed again later -/
def keptAcross : List KeyEvent :=
  [⟨true, pauseKey, 1000⟩, ⟨true, 38, 1200⟩, ⟨false, 38, 1300⟩, ⟨false, pauseKey, 1400⟩,
    ⟨true, pauseKey, 5000⟩]

/-- Key 39 is pressed in the second session: 38 forks to 39. -/
theorem fork_across_sessions :
    HotKeys.after (keptAcross.take 4) = ⟨false, false, 0, 38⟩ ∧
      .forkKeycode 38 39
        ∈ (filterConfigKeyMaybe (.after keptAcross) ⟨true, 39, 5100⟩).services ∧
      ¬Forgotten keptAcross ∧ ¬SameSession (keptAcross ++ [⟨true, 39, 5100⟩]) := by
  refine ⟨by decide, by decide, fun hF => ?_, fun hS => ?_⟩
  · exact absurd (hF ⟨false, false, 0, 38⟩ (by decide) rfl) (by decide)
  obtain ⟨-, -, earlier, first, between, hsplit, hpress, hdetail, hmode⟩ :=
    hS keptAcross ⟨true, 39, 5100⟩ [] 38 39 rfl (by decide)
  unfold keptAcross at hsplit
  -- the press of key 38 is the second event
  rcases earlier with - | ⟨e, - | ⟨e', rest⟩⟩
  · obtain ⟨rfl, -⟩ := List.cons.inj hsplit
    exact absurd hdetail (by decide)
  · obtain ⟨rfl, htail⟩ := List.cons.inj hsplit
    obtain ⟨rfl, rfl⟩ := List.cons.inj htail
    exact absurd (hmode ⟨false, false, 0, 38⟩ (by decide)) (by decide)
  · have hmem : first ∈ keptAcross.drop 2 := by
      rw [show keptAcross = e :: e' :: (rest ++ first :: between) from hsplit]
      simp
    have hnone : ∀ e ∈ keptAcross.drop 2, e.press = true → e.detail ≠ 38 := by decide
    exact hnone first hmem hpress hdetail

end ForkNS
