import ForkPlugin.Machine.Verdict

/-!
# When a verdict is taken

* `guard`          for each verdict, what holds of the machine and the event where it is taken;
* `guard_verdict`  and it does hold there.

Every invariant of the machine is proved from `transitionByKey_eq` and `guard_verdict`: one case
for each verdict, with its guard and its effect.
-/

namespace ForkNS

namespace Machine
variable {Q E Time : Type} [LinearOrder Time] [Add Time] (S : Setup E Time)

/-- what holds where a verdict is taken -/
def guard (m : Machine Q Time) (e : E) : Verdict → Prop
  | .refork => m.state = .normal ∧ S.env.pressP e ∧ m.keyForked (S.env.detailOf e)
  | .startSuspect => m.state = .normal ∧ S.env.pressP e ∧ forkableP S (S.env.detailOf e) ∧
      S.env.ignoreEvent e = false ∧ m.forkActive (S.env.detailOf e) = noKey ∧
      (m.lastReleased = S.env.detailOf e →
        timeDifferenceMore (S.env.timeOf e) m.lastReleasedTime S.config.repeatMax)
  | .autoRepeat => m.state = .normal ∧ S.env.pressP e ∧ forkableP S (S.env.detailOf e) ∧
      S.env.ignoreEvent e = false ∧ m.forkActive (S.env.detailOf e) = S.env.detailOf e
  | .selfFork => m.state = .normal ∧ S.env.pressP e ∧ forkableP S (S.env.detailOf e) ∧
      S.env.ignoreEvent e = false ∧ m.keyForked (S.env.detailOf e) = false ∧
      m.lastReleased = S.env.detailOf e ∧
      timeDifferenceMore (S.env.timeOf e) m.lastReleasedTime S.config.repeatMax = false
  | .unfork => m.state = .normal ∧ S.env.releaseP e ∧ m.forkActive (S.env.detailOf e) ≠ noKey
  | .pass => m.state = .normal ∧ (S.env.pressP e → m.keyForked (S.env.detailOf e) = false) ∧
      (S.env.releaseP e → m.forkActive (S.env.detailOf e) = noKey) ∧
      (S.env.pressP e → forkableP S (S.env.detailOf e) → S.env.ignoreEvent e)
  | .forkHead => m.state ≠ .normal ∧
      (S.env.pressP e ∧ m.keyForked (S.env.detailOf e) ∨ m.mDecisionTime ≤ S.env.timeOf e)
  | .confirmHead => m.state ≠ .normal ∧ S.env.releaseP e ∧ S.env.detailOf e = m.suspect ∧
      S.env.timeOf e < m.mDecisionTime
  | .repeatHead => m.state = .suspect ∧ S.env.pressP e ∧ S.env.releaseP e = false ∧
      S.env.detailOf e = m.suspect ∧ S.env.timeOf e < m.mDecisionTime ∧
      m.keyForked (S.env.detailOf e) = false ∧ S.config.forkRepeatable (S.env.detailOf e)
  | .discard => m.state = .suspect ∧ S.env.pressP e ∧ S.env.releaseP e = false ∧
      S.env.detailOf e = m.suspect ∧ S.env.timeOf e < m.mDecisionTime ∧
      m.keyForked (S.env.detailOf e) = false ∧ S.config.forkRepeatable (S.env.detailOf e) = false
  | .verify => m.state = .suspect ∧ S.env.pressP e ∧ S.env.releaseP e = false ∧
      S.env.detailOf e ≠ m.suspect ∧ S.env.timeOf e < m.mDecisionTime ∧
      m.keyForked (S.env.detailOf e) = false
  | .unverify => m.state = .verify ∧ S.env.releaseP e ∧ S.env.detailOf e ≠ m.suspect ∧
      S.env.detailOf e = m.verificatorKeycode ∧ S.env.timeOf e < m.mDecisionTime
  | .wait => m.state ≠ .normal ∧ S.env.timeOf e < m.mDecisionTime ∧
      (S.env.releaseP e → S.env.detailOf e ≠ m.suspect) ∧
      (m.state = .suspect → S.env.pressP e → S.env.releaseP e) ∧
      (m.state = .verify → S.env.releaseP e → S.env.detailOf e ≠ m.verificatorKeycode) ∧
      (S.env.pressP e → m.keyForked (S.env.detailOf e) = false)

/-! ## the exits of each handler -/

omit [LinearOrder Time] [Add Time] in
theorem keyForked_false {m : Machine Q Time} {k : Keycode} :
    m.keyForked k = false ↔ m.forkActive k = k ∨ m.forkActive k = noKey := by
  simp [keyForked, or_iff_not_imp_left]

omit [Add Time] [LinearOrder Time] in
theorem forkedPress_iff {m : Machine Q Time} {e : E} :
    (m.keyForked (S.env.detailOf e) && S.env.pressP e
      && S.env.detailOf e != m.forkActive (S.env.detailOf e)) = true
      ↔ S.env.pressP e ∧ m.keyForked (S.env.detailOf e) := by
  simp only [keyForked, Bool.and_eq_true, bne_iff_ne]
  constructor
  · rintro ⟨⟨h, hp⟩, -⟩
    exact ⟨hp, h⟩
  · rintro ⟨hp, h⟩
    exact ⟨⟨h, hp⟩, h.1.symm⟩

theorem guard_normalVerdict {m : Machine Q Time} {e : E} (hs : m.state = .normal)
    (hk : S.env.pressP e → m.keyForked (S.env.detailOf e) = false) :
    m.guard S e (m.normalVerdict S e) := by
  simp only [normalVerdict]
  by_cases hf : (forkableP S (S.env.detailOf e) && S.env.pressP e && !S.env.ignoreEvent e) = true
  · rw [if_pos hf]
    simp only [Bool.and_eq_true, Bool.not_eq_true'] at hf
    obtain ⟨⟨hf, hp⟩, hi⟩ := hf
    have hkf := hk hp
    by_cases hq : (!m.keyForked (S.env.detailOf e) && (m.lastReleased != S.env.detailOf e
        || timeDifferenceMore (S.env.timeOf e) m.lastReleasedTime S.config.repeatMax)) = true
    · rw [if_pos hq]
      simp only [hkf, Bool.not_false, Bool.true_and, Bool.or_eq_true, bne_iff_ne] at hq
      by_cases ha : m.forkActive (S.env.detailOf e) = S.env.detailOf e
      · rw [if_pos ha]
        exact ⟨hs, hp, hf, hi, ha⟩
      · rw [if_neg ha]
        refine ⟨hs, hp, hf, hi, (keyForked_false.mp hkf).resolve_left ha, fun hl => ?_⟩
        exact hq.resolve_left fun h => h hl
    · rw [if_neg hq]
      simp only [hkf, Bool.not_false, Bool.true_and, Bool.or_eq_true, bne_iff_ne, not_or,
        not_not, Bool.not_eq_true] at hq
      exact ⟨hs, hp, hf, hi, hkf, hq⟩
  · rw [if_neg hf]
    simp only [Bool.and_eq_true, Bool.not_eq_true'] at hf
    by_cases hr : (S.env.releaseP e && m.forkActive (S.env.detailOf e) != noKey) = true
    · rw [if_pos hr]
      simp only [Bool.and_eq_true, bne_iff_ne] at hr
      exact ⟨hs, hr⟩
    · rw [if_neg hr]
      simp only [Bool.and_eq_true, bne_iff_ne, not_and, not_not] at hr
      refine ⟨hs, hk, hr, fun hp hfo => ?_⟩
      by_contra hi
      exact hf ⟨⟨hfo, hp⟩, by simpa using hi⟩

theorem guard_suspectVerdict {m : Machine Q Time} {e : E} (hs : m.state = .suspect)
    (hk : S.env.pressP e → m.keyForked (S.env.detailOf e) = false)
    (ht : S.env.timeOf e < m.mDecisionTime) (hb : S.env.pressP e ∨ S.env.releaseP e) :
    m.guard S e (m.suspectVerdict S e) := by
  have hn : m.state ≠ .normal := by rw [hs]; decide
  have hv : m.state ≠ .verify := by rw [hs]; decide
  simp only [suspectVerdict]
  by_cases hr : S.env.releaseP e = true
  · rw [if_pos hr]
    by_cases hq : S.env.detailOf e = m.suspect
    · rw [if_pos hq]
      exact ⟨hn, hr, hq, ht⟩
    · rw [if_neg hq]
      exact ⟨hn, ht, fun _ => hq, fun _ _ => hr, fun h => absurd h hv, hk⟩
  · rw [if_neg hr]
    have hp := hb.resolve_right hr
    have hr' := Bool.eq_false_iff.mpr hr
    by_cases hq : S.env.detailOf e = m.suspect
    · rw [if_pos hq]
      by_cases hc : S.config.forkRepeatable (S.env.detailOf e) = true
      · rw [if_pos hc]
        exact ⟨hs, hp, hr', hq, ht, hk hp, hc⟩
      · rw [if_neg hc]
        exact ⟨hs, hp, hr', hq, ht, hk hp, Bool.eq_false_iff.mpr hc⟩
    · rw [if_neg hq]
      exact ⟨hs, hp, hr', hq, ht, hk hp⟩

theorem guard_verifyVerdict {m : Machine Q Time} {e : E} (hs : m.state = .verify)
    (hk : S.env.pressP e → m.keyForked (S.env.detailOf e) = false)
    (ht : S.env.timeOf e < m.mDecisionTime) : m.guard S e (m.verifyVerdict S e) := by
  have hn : m.state ≠ .normal := by rw [hs]; decide
  have hv : m.state ≠ .suspect := by rw [hs]; decide
  simp only [verifyVerdict]
  by_cases hq : S.env.detailOf e = m.suspect ∧ S.env.releaseP e
  · rw [if_pos hq]
    exact ⟨hn, hq.2, hq.1, ht⟩
  · rw [if_neg hq]
    by_cases hu : m.verificatorKeycode = S.env.detailOf e ∧ S.env.releaseP e
    · rw [if_pos hu]
      exact ⟨hs, hu.2, fun h => hq ⟨h, hu.2⟩, hu.1.symm, ht⟩
    · rw [if_neg hu]
      exact ⟨hn, ht, fun hr h => hq ⟨h, hr⟩, fun h => absurd h hv, fun _ hr h => hu ⟨h.symm, hr⟩,
        hk⟩

/-- **The guard holds where its verdict is taken.** -/
theorem guard_verdict (m : Machine Q Time) (e : E) : m.guard S e (m.verdict S e) := by
  simp only [verdict]
  by_cases hk : (m.keyForked (S.env.detailOf e) && S.env.pressP e
      && S.env.detailOf e != m.forkActive (S.env.detailOf e)) = true
  · rw [if_pos hk]
    rw [forkedPress_iff] at hk
    by_cases hn : m.state = .normal
    · rw [if_pos hn]
      exact ⟨hn, hk⟩
    · rw [if_neg hn]
      exact ⟨hn, .inl hk⟩
  rw [if_neg hk]
  rw [forkedPress_iff, not_and, Bool.not_eq_true] at hk
  by_cases hn : m.state = .normal
  · rw [if_pos hn]
    exact guard_normalVerdict S hn hk
  rw [if_neg hn]
  by_cases ht : S.env.timeOf e ≥ m.mDecisionTime
  · rw [if_pos ht]
    exact ⟨hn, .inr ht⟩
  rw [if_neg ht]
  rw [ge_iff_le, not_le] at ht
  by_cases hb : (!S.env.pressP e && !S.env.releaseP e) = true
  · rw [if_pos hb]
    simp only [Bool.and_eq_true, Bool.not_eq_true'] at hb
    simp [guard, hn, ht, hb.1, hb.2]
  rw [if_neg hb]
  by_cases hs : m.state = .suspect
  · rw [if_pos hs]
    refine guard_suspectVerdict S hs hk ht ?_
    by_contra hpr
    exact hb (by simpa using hpr)
  · rw [if_neg hs]
    refine guard_verifyVerdict S ?_ hk ht
    cases hst : m.state with
    | normal => exact absurd hst hn
    | suspect => exact absurd hst hs
    | verify => rfl

end Machine

end ForkNS
