import ForkPlugin.Machine.Lockstep
import ForkPlugin.Runs.Conserve
import ForkPlugin.Runs.Keystroke
import ForkPlugin.Runs.Delay
import Mathlib.Data.ZMod.Defs
import Mathlib.Order.Fin.Basic

/-!
# Near the end of the clock range

With times of 32 bits the machine forms three sums: `suspect_time` and an interval, the time of a
verificator and a tolerance, the last release and `repeat_max`.  Each of them can wrap.

* `Time32`          unsigned, with addition modulo 2^32;
* `Unwrapped`       what an iteration reads of an event does not wrap, and the deadline is not 0;
* `wrapClocks`      then all stored times are the same numbers as with unbounded times;
* `rescan_onward`   over unbounded times in order, the deadline does not precede the suspicion;
* `fork_in_time`    so the run decides as with unbounded times;
* `premature_fork`  otherwise it need not.
-/

namespace ForkNS

open Runs Machine
open scoped Fin.NatCast

/-- unsigned integers of 32 bits -/
abbrev Time32 := Fin (2 ^ 32)

variable {E : Type}

theorem add_val {a b : Time32} (h : a.val + b.val < 2 ^ 32) : (a + b).val = a.val + b.val := by
  rw [Fin.val_add, Nat.mod_eq_of_lt h]

/-! ## the same configuration with unbounded times -/

section
variable (config : ForkConfiguration Time32) (code verificator : Keycode)

theorem getValueFromMatrix_val (matrix : ParameterMatrix Time32) :
    getValueFromMatrix (fun i j => (matrix i j).val) code verificator
      = (getValueFromMatrix matrix code verificator).val := by
  have hz : ∀ t : Time32, t.val ≠ 0 ↔ t ≠ 0 := fun t => by
    rw [ne_eq, ne_eq, Fin.val_eq_zero_iff]
  simp only [getValueFromMatrix, hz]
  split_ifs <;> rfl

theorem interval_val : (config.retimed Fin.val).verificationIntervalOf code verificator
    = (config.verificationIntervalOf code verificator).val := by
  rcases config with ⟨fk, fr, - | m, rm, cf⟩
  · rfl
  · exact getValueFromMatrix_val code verificator m.verificationInterval

theorem tolerance_val : (config.retimed Fin.val).overlapToleranceOf code verificator
    = (config.overlapToleranceOf code verificator).val := by
  rcases config with ⟨fk, fr, - | m, rm, cf⟩
  · rfl
  · exact getValueFromMatrix_val code verificator m.overlapTolerance

variable {code verificator}

theorem verifier_val {s t : Time32}
    (hs : s.val + (config.verificationIntervalOf code verificator).val < 2 ^ 32)
    (ht : t.val + (config.overlapToleranceOf code verificator).val < 2 ^ 32) :
    (config.retimed Fin.val).verifierDecisionTime code s.val verificator t.val
      = (config.verifierDecisionTime code s verificator t).val := by
  simp only [ForkConfiguration.verifierDecisionTime, interval_val, tolerance_val, Fin.lt_def,
    add_val hs, add_val ht]
  split_ifs
  · exact (add_val ht).symm
  · exact (add_val hs).symm

end

/-! ## what does not wrap -/

variable (S : Setup E Time32)

/-- the sums that an iteration forms of the event it reads are below 2^32, and a deadline is
not 0 -/
def Unwrapped (m : Machine (Triqueue E) Time32) (e : E) : Prop :=
  let key := S.env.detailOf e
  let time := (S.env.timeOf e).val
  let start := time + (S.config.verificationIntervalOf key noKey).val
  let oneKey := m.suspectTime.val + (S.config.verificationIntervalOf m.suspect key).val
  let decisionPoint := time + (S.config.overlapToleranceOf m.suspect key).val
  (m.verdict S e = .startSuspect → 0 < start ∧ start < 2 ^ 32) ∧
  (m.verdict S e = .verify →
    (0 < oneKey ∧ oneKey < 2 ^ 32) ∧ 0 < decisionPoint ∧ decisionPoint < 2 ^ 32) ∧
  (m.ReadsRelease S e → m.lastReleasedTime.val + S.config.repeatMax.val < 2 ^ 32)

instance (m : Machine (Triqueue E) Time32) (e : E) : Decidable (Unwrapped S m e) :=
  inferInstanceAs (Decidable (_ ∧ _))

/-- the same numbers, and the deadline is not 0 -/
def wrapClocks : Clocks Time32 ℕ where
  decision s d s' d' := s' = s.val ∧ d' = d.val ∧ 0 < d'
  release _ r r' := r' = r.val
  clock c c' := c' = c.val
  release_none := rfl
  clock_none := rfl

variable {S}

theorem wrap_synchronous : Synchronous wrapClocks id S (S.retimed Fin.val) id Fin.val
    (Unwrapped S) where
  setup := setupAlike_retimed S Fin.val
  zero := rfl
  clock {c c'} h := ⟨h, by rw [show c' = c.val from h, Fin.val_eq_zero_iff]⟩
  event e := ⟨rfl, Fin.val_eq_zero_iff⟩
  due h := h.2.1
  deadline e h := by
    rw [h.2.1]
    exact Fin.le_def
  timer {_ _ _ _ c c'} h hc _ := by
    rw [h.2.1, show c' = c.val from hc]
    exact Fin.le_def
  release _ := rfl
  quick {m m' e} h hok hr := by
    rw [show m'.lastReleasedTime = m.lastReleasedTime.val from h.release, Fin.lt_def,
      add_val (hok.2.2 hr)]
    rfl
  start {m e} hok hv := by
    obtain ⟨hpos, hlt⟩ := hok.1 hv
    refine ⟨rfl, ?_, ?_⟩
    · rw [add_val hlt]
      exact congrArg _ (interval_val S.config _ _)
    · show 0 < (S.env.timeOf e).val + (S.config.retimed Fin.val).verificationIntervalOf _ noKey
      rwa [interval_val]
  verify {m m' e} h hok hv := by
    obtain ⟨⟨hpos, hlt⟩, hpos', hlt'⟩ := hok.2.1 hv
    have hs := guard_verdict S m e
    rw [hv] at hs
    obtain ⟨hsus, hdec, hd⟩ := h.decision (by rw [hs.1]; decide)
    have hmin : m'.verifiedTime (S.retimed Fin.val) e = (m.verifiedTime S e).val := by
      rw [verifiedTime, verifiedTime, h.suspect, hsus, hdec]
      show min _ ((S.config.retimed Fin.val).verifierDecisionTime _ _ (S.env.detailOf e)
        (S.env.timeOf e).val) = _
      rw [verifier_val S.config hlt hlt']
      exact (Fin.val_strictMono.monotone.map_min).symm
    refine ⟨hsus, hmin, ?_⟩
    have hpos'' : 0 < (m.verifiedTime S e).val := by
      rw [verifiedTime, Fin.val_strictMono.monotone.map_min, ← hdec]
      refine lt_min hd ?_
      simp only [ForkConfiguration.verifierDecisionTime]
      split_ifs
      · rwa [add_val hlt']
      · rwa [add_val hlt]
    exact hmin ▸ hpos''

/-! ## the deadline of times in order -/

section
variable {Time : Type} [LinearOrder Time] [Add Time] [Zero Time] [NatCast Time]

/-- the times pushed are among those that the calls carry, in that order -/
theorem pushed_times {S : Setup E Time} {acts : List (Act E Time)}
    {s : Sys (ThreeLists E) E Time} (h : runs (Sys.step S) (Sys.create .nil) acts = some s) :
    (s.pushed.map S.env.timeOf).Sublist (times S.env (calls acts)) := by
  refine runs_ind (P := fun acts (s : Sys (ThreeLists E) E Time) =>
    (s.pushed.map S.env.timeOf).Sublist (times S.env (calls acts))) ?_ ?_ acts s h
  · exact List.nil_sublist _
  intro acts u a v ih hstep
  rw [calls_append, times_append]
  rcases step_pushed hstep with ⟨-, hp⟩ | ⟨e, rfl, hp⟩
  · rw [hp]
    exact ih.trans (List.sublist_append_left _ _)
  · rw [hp, List.map_append]
    refine ih.append ?_
    split_ifs
    · exact List.nil_sublist _
    · exact List.Sublist.refl _

end

section
variable {S : Setup E ℕ} {h : E}

theorem scan_onward {d : Decision ℕ} (hd : d.suspectTime ≤ d.mDecisionTime) {e : E}
    (he : d.suspectTime ≤ S.env.timeOf e) :
    (Decision.scan S d e).suspectTime ≤ (Decision.scan S d e).mDecisionTime := by
  have hver : d.suspectTime ≤ S.config.verifierDecisionTime d.suspect d.suspectTime
      (S.env.detailOf e) (S.env.timeOf e) := by
    simp only [ForkConfiguration.verifierDecisionTime]
    split_ifs <;> omega
  simp only [Decision.scan]
  split_ifs
  · exact le_min hd hver
  · exact hd
  · exact hd

/-- where no later event is earlier, the deadline is not before the suspicion -/
theorem rescan_onward {t : List E} (ht : ∀ e ∈ t, S.env.timeOf h ≤ S.env.timeOf e) :
    (Decision.rescan S h t).suspectTime = S.env.timeOf h ∧
      (Decision.rescan S h t).suspectTime ≤ (Decision.rescan S h t).mDecisionTime := by
  induction t using List.reverseRecOn with
  | nil => exact ⟨rfl, Nat.le_add_right _ _⟩
  | append_singleton t e ih =>
    obtain ⟨hs, hd⟩ := ih fun x hx => ht x (List.mem_append_left _ hx)
    rw [Decision.rescan_snoc]
    refine ⟨by rw [Decision.scan_suspectTime, hs], scan_onward hd ?_⟩
    rw [hs]
    exact ht e (by simp)

theorem lists_deadline {acts : List (Act E ℕ)} {s : Sys (ThreeLists E) E ℕ}
    (hsorted : (times S.env (calls acts)).Pairwise (· ≤ ·))
    (h : runs (Sys.step S) (Sys.create .nil) acts = some s) (hs : s.machine.state ≠ .normal) :
    s.machine.suspectTime ≤ s.machine.mDecisionTime := by
  have hsound := runs_sound h
  obtain ⟨sent, hp⟩ := Sys.pushed_line h
  have hline : (s.machine.line.map S.env.timeOf).Pairwise (· ≤ ·) := by
    have hall := hsorted.sublist (pushed_times h)
    rw [hp, List.map_append] at hall
    exact (List.pairwise_append.mp hall).2.1
  obtain ⟨x, t, hmid, -⟩ := hsound.head hs
  have hd := ((coherent_cons hmid).mp hsound.coherent).2
  have hlater : ∀ e ∈ t, S.env.timeOf x ≤ S.env.timeOf e := by
    rw [line, hmid, List.cons_append, List.map_cons] at hline
    intro e he
    exact List.rel_of_pairwise_cons hline (List.mem_map_of_mem (List.mem_append_left _ he))
  have honward := (rescan_onward hlater).2
  rw [← hd] at honward
  exact honward

end

/-! ## runs -/

section
variable {S : Setup E Time32} {c : ℕ} {acts : List (Act E Time32)}

omit S c in
theorem times_retimed (S : Setup E Time32) (acts : List (Act E Time32)) :
    times (S.retimed Fin.val).env (calls (acts.map (Act.map id Fin.val)))
      = (times S.env (calls acts)).map Fin.val := by
  simp only [times, calls, List.filterMap_map, List.map_filterMap, List.filterMap_filterMap]
  refine List.filterMap_congr fun a _ => ?_
  rcases a with (e | now | -) | frozen <;> rfl

/-- the run with unbounded times -/
theorem unwrapped_lockstep (hok : EachEvent S (Triqueue.create c) (Unwrapped S) acts) :
    Option.Rel (SysLike wrapClocks id id Fin.val)
      (runs (Sys.step S) (Sys.create (Triqueue.create c)) acts)
      (runs (Sys.step (S.retimed Fin.val)) (Sys.create (Triqueue.create c))
        (acts.map (Act.map id Fin.val))) := by
  refine lockstep TriqueueMap.id wrap_synchronous (fun now _ => ⟨rfl, fun b b' hb => ?_⟩) hok
  rw [show b' = b.val from hb]
  exact Fin.lt_def

theorem unwrapped_within (hok : EachEvent S (Triqueue.create c) (Unwrapped S) acts)
    (hw : WithinCapacity S c acts) :
    WithinCapacity (S.retimed Fin.val) c (acts.map (Act.map id Fin.val)) := by
  intro pre' post' s' heq hs'
  obtain ⟨pre, post, rfl, rfl, rfl⟩ := List.map_eq_append_iff.mp heq
  have hrel := unwrapped_lockstep hok.left
  rw [hs'] at hrel
  generalize hs : runs (Sys.step S) (Sys.create (Triqueue.create c)) pre = s at hrel
  cases hrel with
  | some hlike =>
    rw [show s'.machine.tq = _ from hlike.machine.tq]
    exact hw pre post _ rfl hs

/-- **No premature fork, and none missed, where no sum wraps.**  The deadline of a suspected key
is never 0, and within capacity, if times are in order, it does not precede the suspicion. -/
theorem fork_in_time (hok : EachEvent S (Triqueue.create c) (Unwrapped S) acts)
    {s : Sys (Triqueue E) E Time32}
    (h : runs (Sys.step S) (Sys.create (Triqueue.create c)) acts = some s) :
    (∃ s', runs (Sys.step (S.retimed Fin.val)) (Sys.create (Triqueue.create c))
        (acts.map (Act.map id Fin.val)) = some s' ∧ relayed s.trace = relayed s'.trace) ∧
      (s.machine.state ≠ .normal → s.machine.mDecisionTime ≠ 0) ∧
      (2 ≤ c → WithinCapacity S c acts → (times S.env (calls acts)).Pairwise (· ≤ ·) →
        s.machine.state ≠ .normal → s.machine.suspectTime ≤ s.machine.mDecisionTime) := by
  have hrel := unwrapped_lockstep hok
  rw [h] at hrel
  generalize hs' : runs (Sys.step (S.retimed Fin.val)) (Sys.create (Triqueue.create c))
    (acts.map (Act.map id Fin.val)) = x at hrel
  cases hrel with
  | @some _ s' hlike =>
    refine ⟨⟨s', rfl, ?_⟩, fun hn => ?_, fun hc hw hsorted hn => ?_⟩
    · rw [hlike.trace, relayed_map]
      exact (List.map_id _).symm
    · obtain ⟨-, hd, hpos⟩ := hlike.machine.decision hn
      rintro hz
      rw [hd, hz] at hpos
      exact absurd hpos (by decide)
    · obtain ⟨t, ht, halike⟩ := ring_run hc (unwrapped_within hok hw) hs'
      obtain ⟨hsus, hd, -⟩ := hlike.machine.decision hn
      have hsorted' : (times (S.retimed Fin.val).env
          (calls (acts.map (Act.map id Fin.val)))).Pairwise (· ≤ ·) := by
        rw [times_retimed]
        exact hsorted.map _ fun _ _ hle => hle
      have hn' : t.machine.state ≠ .normal := by
        rw [← halike.stands.state, hlike.machine.state]
        exact hn
      have hle := lists_deadline hsorted' ht hn'
      rw [← halike.stands.suspectTime, ← halike.stands.mDecisionTime, hsus, hd] at hle
      exact hle

end

/-- the setup of the tests, with times of 32 bits -/
abbrev setup32 : Setup TestEvent Time32 := testSetup.retimed Nat.cast

/-- key 1 is pressed so much before the end of the range, and released at once -/
def beforeTheEnd (left : ℕ) : List (Act TestEvent Time32) :=
  (during (.acceptEvent (down 1 (2 ^ 32 - left))) 7 ++
    during (.acceptEvent (up 1 (2 ^ 32 - left + 10))) 9).map (Act.map id Nat.cast)

theorem fork_in_time_late : ∃ s,
    runs (Sys.step setup32) (Sys.create (Triqueue.create 2)) (beforeTheEnd 2000) = some s ∧
    relayed s.trace = [down 1 (2 ^ 32 - 2000), up 1 (2 ^ 32 - 1990)] ∧
    ∃ s', runs (Sys.step (setup32.retimed Fin.val)) (Sys.create (Triqueue.create 2))
        ((beforeTheEnd 2000).map (Act.map id Fin.val)) = some s' ∧
      relayed s.trace = relayed s'.trace := by
  have hs := Option.eq_some_of_isSome (o := runs (Sys.step setup32)
    (Sys.create (Triqueue.create 2)) (beforeTheEnd 2000)) (by decide)
  exact ⟨_, hs, by decide, (fork_in_time (by decide) hs).1⟩

/-- The deadline, 1000 after the press, wraps to 0: no timer is wanted, and the release that comes
in time is too late.  With unbounded times the key is not forked. -/
theorem premature_fork :
    (∀ code verificator, (setup32.config.verificationIntervalOf code verificator).val < 2 ^ 16 ∧
      (setup32.config.overlapToleranceOf code verificator).val < 2 ^ 16) ∧
    setup32.config.repeatMax.val < 2 ^ 16 ∧
    (times setup32.env (calls (beforeTheEnd 1000))).Pairwise (· ≤ ·) ∧
    WithinCapacity setup32 2 (beforeTheEnd 1000) ∧
    (∃ u, runs (Sys.step setup32) (Sys.create (Triqueue.create 2)) ((beforeTheEnd 1000).take 8)
        = some u ∧
      u.machine.state = .suspect ∧ u.machine.mDecisionTime = 0 ∧
      u.machine.mDecisionTime < u.machine.suspectTime) ∧
    ∃ s s', runs (Sys.step setup32) (Sys.create (Triqueue.create 2)) (beforeTheEnd 1000) = some s ∧
      runs (Sys.step (setup32.retimed Fin.val)) (Sys.create (Triqueue.create 2))
        ((beforeTheEnd 1000).map (Act.map id Fin.val)) = some s' ∧
      relayed s.trace = [down 11 (2 ^ 32 - 1000), up 11 (2 ^ 32 - 990)] ∧
      relayed s'.trace = [down 1 (2 ^ 32 - 1000), up 1 (2 ^ 32 - 990)] := by
  refine ⟨fun code verificator => ⟨?_, ?_⟩, by decide, by decide, by decide, ?_, ?_⟩
  · simp only [ForkConfiguration.verificationIntervalOf, Setup.retimed, ForkConfiguration.retimed,
      testSetup, testConfiguration, Option.map_some, getValueFromMatrix,
      ParameterMatrices.retimed]
    split_ifs <;> decide
  · simp only [ForkConfiguration.overlapToleranceOf, Setup.retimed, ForkConfiguration.retimed,
      testSetup, testConfiguration, Option.map_some, getValueFromMatrix,
      ParameterMatrices.retimed]
    split_ifs <;> decide
  · have hu := Option.eq_some_of_isSome (o := runs (Sys.step setup32)
      (Sys.create (Triqueue.create 2)) ((beforeTheEnd 1000).take 8)) (by decide)
    exact ⟨_, hu, by decide, by decide, by decide⟩
  · have hs := Option.eq_some_of_isSome (o := runs (Sys.step setup32)
      (Sys.create (Triqueue.create 2)) (beforeTheEnd 1000)) (by decide)
    have hs' := Option.eq_some_of_isSome (o := runs (Sys.step (setup32.retimed Fin.val))
      (Sys.create (Triqueue.create 2)) ((beforeTheEnd 1000).map (Act.map id Fin.val))) (by decide)
    exact ⟨_, _, hs, hs', by decide, by decide⟩

end ForkNS
