import ForkPlugin.Machine.Respond
import Mathlib.Data.List.Induction

/-!
# The decision state is a function of the internal queue

* `Decision`        the fields that decide about the head of the internal part;
* `Decision.rescan` their values, computed from the internal part alone;
* `Coherent`        the machine holds these values;
* `HeadOpen`        the head is a press that is neither forked nor confirmed yet;
* `Sound`           both, and no bug logged: kept by every event (`Sound.transitionByKey`) and
                    by every fork of the head (`Sound.forkHead`).
-/

namespace ForkNS

/-! ## the decision about the head of the internal part -/

structure Decision (Time : Type) where
  state : ForkState
  suspect : Keycode
  suspectTime : Time
  verificatorKeycode : Keycode
  mDecisionTime : Time
deriving DecidableEq, Repr

variable {E Time : Type} [LinearOrder Time] [Add Time] [Zero Time] [NatCast Time]
  (S : Setup E Time)

namespace Decision

/-- the press `h` has become suspect -/
def start (h : E) : Decision Time where
  state := .suspect
  suspect := S.env.detailOf h
  suspectTime := S.env.timeOf h
  verificatorKeycode := noKey
  mDecisionTime := S.env.timeOf h + S.config.verificationIntervalOf (S.env.detailOf h) noKey

/-- one later event: a press of another key becomes the verificator, if there is none, and lowers
the deadline; the release of the verificator clears it; nothing else counts -/
def scan (d : Decision Time) (e : E) : Decision Time :=
  let key := S.env.detailOf e
  if d.state = .suspect ∧ S.env.pressP e ∧ S.env.releaseP e = false ∧ key ≠ d.suspect then
    { d with state := .verify, verificatorKeycode := key,
             mDecisionTime := min d.mDecisionTime
               (S.config.verifierDecisionTime d.suspect d.suspectTime key (S.env.timeOf e)) }
  else if d.state = .verify ∧ S.env.releaseP e ∧ key = d.verificatorKeycode then
    { d with state := .suspect, verificatorKeycode := noKey }
  else d

/-- the decision after the press `h` and the events `t` -/
def rescan (h : E) (t : List E) : Decision Time := t.foldl (scan S) (start S h)

theorem rescan_snoc (h : E) (t : List E) (e : E) :
    rescan S h (t ++ [e]) = scan S (rescan S h t) e := by
  rw [rescan, List.foldl_append]
  rfl

theorem scan_le (d : Decision Time) (e : E) : (scan S d e).mDecisionTime ≤ d.mDecisionTime := by
  simp only [scan]
  split_ifs
  · exact min_le_left _ _
  · exact le_refl _
  · exact le_refl _

theorem scan_suspect (d : Decision Time) (e : E) : (scan S d e).suspect = d.suspect := by
  simp only [scan]
  split_ifs <;> rfl

theorem scan_suspectTime (d : Decision Time) (e : E) :
    (scan S d e).suspectTime = d.suspectTime := by
  simp only [scan]
  split_ifs <;> rfl

theorem scan_state {d : Decision Time} (hd : d.state ≠ .normal) (e : E) :
    (scan S d e).state ≠ .normal := by
  simp only [scan]
  split_ifs
  · simp
  · simp
  · exact hd

theorem rescan_suspect (h : E) (t : List E) : (rescan S h t).suspect = S.env.detailOf h := by
  induction t using List.reverseRecOn with
  | nil => rfl
  | append_singleton t e ih => rw [rescan_snoc, scan_suspect, ih]

theorem rescan_state (h : E) (t : List E) : (rescan S h t).state ≠ .normal := by
  induction t using List.reverseRecOn with
  | nil => simp [rescan, start]
  | append_singleton t e ih =>
    rw [rescan_snoc]
    exact scan_state S ih e

end Decision

namespace Machine

def decision (m : ListMachine E Time) : Decision Time :=
  ⟨m.state, m.suspect, m.suspectTime, m.verificatorKeycode, m.mDecisionTime⟩

/-- the decision state is a function of the internal part -/
def Coherent (m : ListMachine E Time) : Prop :=
  match m.tq.mid with
  | [] => m.state = .normal ∧ m.suspect = noKey ∧ m.verificatorKeycode = noKey ∧
      m.mDecisionTime = 0
  | h :: t => S.env.pressP h ∧ m.decision = Decision.rescan S h t

/-- the head of the internal part is neither forked nor confirmed, and not released since -/
def HeadOpen (m : ListMachine E Time) : Prop :=
  match m.tq.mid with
  | [] => True
  | h :: t => forkableP S (S.env.detailOf h) ∧ S.env.ignoreEvent h = false ∧
      m.forkActive (S.env.detailOf h) = noKey ∧
      ∀ e ∈ t, S.env.releaseP e → S.env.detailOf e ≠ S.env.detailOf h

/-- what holds between any two iterations of a loop -/
structure Sound (m : ListMachine E Time) : Prop where
  coherent : Coherent S m
  headOpen : HeadOpen S m
  bugs : m.bugs = []

variable {S}

theorem coherent_nil {m : ListMachine E Time} (hm : m.tq.mid = []) :
    Coherent S m ↔ m.state = .normal ∧ m.suspect = noKey ∧ m.verificatorKeycode = noKey ∧
      m.mDecisionTime = 0 := by
  rw [Coherent, hm]

theorem coherent_cons {m : ListMachine E Time} {h : E} {t : List E} (hm : m.tq.mid = h :: t) :
    Coherent S m ↔ S.env.pressP h ∧ m.decision = Decision.rescan S h t := by
  rw [Coherent, hm]

omit [LinearOrder Time] [Add Time] [Zero Time] [NatCast Time] in
theorem headOpen_cons {m : ListMachine E Time} {h : E} {t : List E} (hm : m.tq.mid = h :: t) :
    HeadOpen S m ↔ forkableP S (S.env.detailOf h) ∧ S.env.ignoreEvent h = false ∧
      m.forkActive (S.env.detailOf h) = noKey ∧
      ∀ e ∈ t, S.env.releaseP e → S.env.detailOf e ≠ S.env.detailOf h := by
  rw [HeadOpen, hm]

theorem Coherent.normal_iff {m : ListMachine E Time} (hm : Coherent S m) :
    m.state = .normal ↔ m.tq.mid = [] := by
  rcases hmid : m.tq.mid with - | ⟨h, t⟩
  · simp [((coherent_nil hmid).mp hm).1]
  · have hd := ((coherent_cons hmid).mp hm).2
    have hs : m.state = (Decision.rescan S h t).state := congrArg Decision.state hd
    simp [hs, Decision.rescan_state S h t]

theorem Coherent.suspect_eq {m : ListMachine E Time} (hm : Coherent S m) {h : E} {t : List E}
    (hmid : m.tq.mid = h :: t) : m.suspect = S.env.detailOf h :=
  (congrArg Decision.suspect ((coherent_cons hmid).mp hm).2).trans (Decision.rescan_suspect S h t)

/-- the head of the internal part is not released in it -/
theorem Sound.not_released {m : ListMachine E Time} (hm : Sound S m) {h : E} {t : List E}
    (hmid : m.tq.mid = h :: t) : ∀ e ∈ t, S.env.releaseP e → S.env.detailOf e ≠ S.env.detailOf h :=
  ((headOpen_cons hmid).mp hm.headOpen).2.2.2

/-- outside the normal state the internal part begins with the suspect -/
theorem Sound.head {m : ListMachine E Time} (hm : Sound S m) (hs : m.state ≠ .normal) :
    ∃ h t, m.tq.mid = h :: t ∧ S.env.pressP h ∧ forkableP S (S.env.detailOf h) ∧
      m.forkActive (S.env.detailOf h) = noKey ∧ m.suspect = S.env.detailOf h := by
  obtain ⟨h, t, hmid⟩ :=
    List.exists_cons_of_ne_nil fun hmid => hs (hm.coherent.normal_iff.mpr hmid)
  obtain ⟨hf, -, ha, -⟩ := (headOpen_cons hmid).mp hm.headOpen
  exact ⟨h, t, hmid, ((coherent_cons hmid).mp hm.coherent).1, hf, ha,
    hm.coherent.suspect_eq hmid⟩

/-! ## every verdict keeps the machine sound -/

theorem create_sound : Sound S (create ThreeLists.nil) :=
  ⟨⟨rfl, rfl, rfl, rfl⟩, trivial, rfl⟩

/-- nothing internal, nothing suspected -/
theorem sound_of_nil {m : ListMachine E Time} (hm : m.tq.mid = [])
    (hc : m.state = .normal ∧ m.suspect = noKey ∧ m.verificatorKeycode = noKey ∧
      m.mDecisionTime = 0) (hb : m.bugs = []) : Sound S m :=
  ⟨(coherent_nil hm).mpr hc, by rw [HeadOpen, hm]; trivial, hb⟩

theorem settleAs_sound {m : ListMachine E Time} (hb : m.bugs = []) (r : E) :
    Sound S (m.settleAs r) :=
  sound_of_nil rfl ⟨rfl, rfl, rfl, rfl⟩ hb

theorem Sound.confirmHead {m : ListMachine E Time} (hm : Sound S m) : Sound S m.confirmHead := by
  rcases hmid : m.tq.mid with - | ⟨h, t⟩
  · rwa [confirmHead_nil hmid]
  · rw [confirmHead_cons hmid]
    exact settleAs_sound hm.bugs h

theorem Sound.forkHead {m : ListMachine E Time} (hm : Sound S m) : Sound S (m.forkHead S) := by
  rcases hmid : m.tq.mid with - | ⟨h, t⟩
  · rwa [forkHead_nil S hmid]
  · rw [forkHead_cons S hmid]
    exact settleAs_sound (m := m.setForkActive _ _) hm.bugs _

/-- an event is kept behind the suspect -/
theorem Sound.keep {m m' : ListMachine E Time} (hm : Sound S m) {h : E} {t : List E} {e : E}
    (hmid : m.tq.mid = h :: t) (hmid' : m'.tq.mid = h :: (t ++ [e]))
    (hd : m'.decision = Decision.scan S m.decision e) (hf : m'.forkActive = m.forkActive)
    (hb : m'.bugs = m.bugs) (hr : S.env.releaseP e → S.env.detailOf e ≠ m.suspect) :
    Sound S m' := by
  obtain ⟨hp, hdec⟩ := (coherent_cons hmid).mp hm.coherent
  obtain ⟨hfork, hig, hact, hrel⟩ := (headOpen_cons hmid).mp hm.headOpen
  refine ⟨(coherent_cons hmid').mpr ⟨hp, ?_⟩, (headOpen_cons hmid').mpr ⟨hfork, hig, ?_, ?_⟩, ?_⟩
  · rw [hd, hdec, Decision.rescan_snoc]
  · rw [hf, hact]
  · intro x hx
    rcases List.mem_append.mp hx with hx | hx
    · exact hrel x hx
    · rw [List.mem_singleton.mp hx, ← hm.coherent.suspect_eq hmid]
      exact hr
  · rw [hb, hm.bugs]

theorem Sound.enact {m : ListMachine E Time} {e : E} (hm : Sound S m) :
    Sound S (m.enact S e (m.verdict S e)) := by
  have hg := guard_verdict S m e
  have hn := hm.coherent.normal_iff
  have hcons : m.state ≠ .normal → ∃ h t, m.tq.mid = h :: t := fun h =>
    List.exists_cons_of_ne_nil fun hmid => h (hn.mpr hmid)
  generalize m.verdict S e = v at hg ⊢
  cases v with
  | refork => exact sound_of_nil (hn.mp hg.1) ⟨rfl, rfl, rfl, rfl⟩ hm.bugs
  | startSuspect =>
    obtain ⟨hs, hp, hf, hi, ha, -⟩ := hg
    have hmid := hn.mp hs
    have hmid' : ((m.startSuspect S e).keep e).tq.mid = [e] := by
      show m.tq.mid ++ [e] = [e]
      rw [hmid, List.nil_append]
    have hv : m.verificatorKeycode = noKey := ((coherent_nil hmid).mp hm.coherent).2.2.1
    refine ⟨(coherent_cons hmid').mpr ⟨hp, ?_⟩, (headOpen_cons hmid').mpr ⟨hf, hi, ha, ?_⟩, hm.bugs⟩
    · simp [decision, Machine.keep, startSuspect, Decision.rescan, Decision.start, hv]
    · simp
  | autoRepeat =>
    have hmid := hn.mp hg.1
    exact sound_of_nil hmid ((coherent_nil hmid).mp hm.coherent) hm.bugs
  | selfFork =>
    have hmid := hn.mp hg.1
    exact sound_of_nil hmid ((coherent_nil hmid).mp hm.coherent) hm.bugs
  | unfork =>
    have hmid := hn.mp hg.1
    obtain ⟨k, t, hk⟩ := recordForkRelease_eq S m e
    rw [Machine.enact, hk]
    exact sound_of_nil hmid ((coherent_nil hmid).mp hm.coherent) hm.bugs
  | pass =>
    have hmid := hn.mp hg.1
    obtain ⟨k, t, hk⟩ := recordRelease_eq S m e
    rw [Machine.enact, hk]
    exact sound_of_nil hmid ((coherent_nil hmid).mp hm.coherent) hm.bugs
  | forkHead => exact hm.forkHead
  | confirmHead => exact hm.confirmHead
  | repeatHead =>
    obtain ⟨h, t, hmid⟩ := hcons (by rw [hg.1]; decide)
    rw [Machine.enact, confirmHead_cons (m := m.setForkActive _ _) hmid]
    exact settleAs_sound (m := m.setForkActive _ _) hm.bugs h
  | discard => exact hm
  | verify =>
    obtain ⟨hs, hp, hr, hk, -, -⟩ := hg
    obtain ⟨h, t, hmid⟩ := hcons (by rw [hs]; decide)
    refine hm.keep hmid (congrArg (· ++ [e]) hmid) ?_ rfl rfl (fun h => absurd h (by simp [hr]))
    exact (if_pos ⟨hs, hp, hr, hk⟩).symm
  | unverify =>
    obtain ⟨hs, hr, hk, hv, -⟩ := hg
    obtain ⟨h, t, hmid⟩ := hcons (by rw [hs]; decide)
    refine hm.keep hmid (congrArg (· ++ [e]) hmid) ?_ rfl rfl fun _ => hk
    have hns : ¬(m.decision.state = .suspect ∧ S.env.pressP e ∧ S.env.releaseP e = false ∧
        S.env.detailOf e ≠ m.decision.suspect) := fun h => by simp [hr] at h
    simp only [Decision.scan, if_neg hns]
    exact (if_pos ⟨hs, hr, hv⟩).symm
  | wait =>
    obtain ⟨hs, -, hr, hv, hu, -⟩ := hg
    obtain ⟨h, t, hmid⟩ := hcons hs
    refine hm.keep hmid (congrArg (· ++ [e]) hmid) ?_ rfl rfl hr
    have hns : ¬(m.decision.state = .suspect ∧ S.env.pressP e ∧ S.env.releaseP e = false ∧
        S.env.detailOf e ≠ m.decision.suspect) := fun h => by
      have := hv h.1 h.2.1
      simp [h.2.2.1] at this
    have hnv : ¬(m.decision.state = .verify ∧ S.env.releaseP e ∧
        S.env.detailOf e = m.decision.verificatorKeycode) := fun h => hu h.1 h.2.1 h.2.2
    simp only [Decision.scan, if_neg hns, if_neg hnv]
    rfl

/-- **One event keeps the machine sound.** -/
theorem Sound.transitionByKey {m : ListMachine E Time} {e : E} {rest : List E} (hm : Sound S m)
    (hi : m.tq.inp = e :: rest) : Sound S (m.transitionByKey S e) := by
  rw [transitionByKey_eq hm.coherent.normal_iff hi]
  exact hm.enact

end Machine

end ForkNS
