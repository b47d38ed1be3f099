import ForkPlugin.Machine.Model

/-!
# What one event does

`transitionByKey` is a choice, followed by an effect.  The choice does not read the queue; the
effect is given here on a machine over three lists.

* `Verdict`, `verdict`     the exits of the handlers, and which of them an event takes;
* `passAs`, `keep`, `settleAs`   the effects on the queue: the event leaves at once, it is kept
                           in the internal part, the head of the internal part leaves and all the
                           rest is to be replayed;
* `enact`                  the effect of a verdict;
* `framed`, `enact_framed` a machine with more output in front, more input behind and another
                           clock decides the same.
-/

namespace ForkNS

/-- one constructor for each exit of the handlers -/
inductive Verdict where
  | refork        -- a press of a forked key, nothing suspected
  | startSuspect
  | autoRepeat    -- "it's AR .- now"
  | selfFork      -- ".- trick"
  | unfork        -- release of a (self-)forked key
  | pass          -- "pass along the un-forkable event"
  | forkHead      -- too late, or a press of a forked key while another is suspected
  | confirmHead   -- release of the suspect
  | repeatHead    -- the suspect repeats, and is configured to
  | discard       -- the suspect repeats, and is not
  | verify        -- another key is pressed
  | unverify      -- the verificator is released
  | wait
deriving DecidableEq, Repr

abbrev ListMachine (E Time : Type) := Machine (ThreeLists E) Time

namespace Machine

variable {E Time : Type}

/-! ## verdicts -/

section
variable {Q : Type} [LinearOrder Time] [Add Time] (S : Setup E Time)

def normalVerdict (m : Machine Q Time) (e : E) : Verdict :=
  let key := S.env.detailOf e
  if forkableP S key && S.env.pressP e && !S.env.ignoreEvent e then
    if !m.keyForked key && (m.lastReleased != key
        || timeDifferenceMore (S.env.timeOf e) m.lastReleasedTime S.config.repeatMax) then
      if m.forkActive key = key then .autoRepeat else .startSuspect
    else .selfFork
  else if S.env.releaseP e && m.forkActive key != noKey then .unfork
  else .pass

def suspectVerdict (m : Machine Q Time) (e : E) : Verdict :=
  let key := S.env.detailOf e
  if S.env.releaseP e then
    if key = m.suspect then .confirmHead else .wait
  else if key = m.suspect then
    if S.config.forkRepeatable key then .repeatHead else .discard
  else .verify

def verifyVerdict (m : Machine Q Time) (e : E) : Verdict :=
  let key := S.env.detailOf e
  if key = m.suspect ∧ S.env.releaseP e then .confirmHead
  else if m.verificatorKeycode = key ∧ S.env.releaseP e then .unverify
  else .wait

def verdict (m : Machine Q Time) (e : E) : Verdict :=
  let key := S.env.detailOf e
  if m.keyForked key && S.env.pressP e && key != m.forkActive key then
    if m.state = .normal then .refork else .forkHead
  else if m.state = .normal then m.normalVerdict S e
  else if S.env.timeOf e ≥ m.mDecisionTime then .forkHead
  else if !S.env.pressP e && !S.env.releaseP e then .wait
  else if m.state = .suspect then m.suspectVerdict S e
  else m.verifyVerdict S e

end

/-! ## effects -/

def passAs (m : ListMachine E Time) (r : E) : ListMachine E Time :=
  { m with tq := ⟨m.tq.out ++ [r], m.tq.mid, m.tq.inp.tail⟩ }

def keep (m : ListMachine E Time) (e : E) : ListMachine E Time :=
  { m with tq := ⟨m.tq.out, m.tq.mid ++ [e], m.tq.inp.tail⟩ }

/-- nothing is suspected any more -/
def clear [Zero Time] (m : ListMachine E Time) : ListMachine E Time :=
  { m with state := .normal, suspect := noKey, verificatorKeycode := noKey, mDecisionTime := 0 }

def settleAs [Zero Time] (m : ListMachine E Time) (r : E) : ListMachine E Time :=
  { m.clear with tq := ⟨m.tq.out ++ [r], [], m.tq.mid.tail ++ m.tq.inp⟩ }

/-- more output in front, more input behind, and another clock -/
def framed (m : ListMachine E Time) (l r : List E) (c : Time) : ListMachine E Time :=
  { m with tq := ⟨l ++ m.tq.out, m.tq.mid, m.tq.inp ++ r⟩, mCurrentTime := c }

section
variable [Zero Time] (S : Setup E Time)

/-- the head of the internal part is confirmed as it is -/
def confirmHead (m : ListMachine E Time) : ListMachine E Time :=
  match m.tq.mid with
  | [] => m
  | h :: _ => m.settleAs h

/-- the head of the internal part is forked -/
def forkHead (m : ListMachine E Time) : ListMachine E Time :=
  match m.tq.mid with
  | [] => m
  | h :: _ =>
    let key := S.env.detailOf h
    let code := S.config.forkKeycode key
    (m.setForkActive key code).settleAs (S.env.rewriteEvent h code)

/-- the release of `key` is recorded, or a forked one is forgotten -/
def recordForkRelease (m : ListMachine E Time) (e : E) : ListMachine E Time :=
  if S.config.considerForksForRepeat then m.recordLastReleaseEvent S e
  else { m with lastReleased := noKey, lastReleasedTime := 0 }

def recordRelease (m : ListMachine E Time) (e : E) : ListMachine E Time :=
  if S.env.releaseP e then m.recordLastReleaseEvent S e else m

variable [LinearOrder Time] [Add Time] [NatCast Time]

def startSuspect (m : ListMachine E Time) (e : E) : ListMachine E Time :=
  let key := S.env.detailOf e
  { m with state := .suspect, suspect := key, suspectTime := S.env.timeOf e,
           mDecisionTime := S.env.timeOf e + S.config.verificationIntervalOf key noKey }

def startVerify (m : ListMachine E Time) (e : E) : ListMachine E Time :=
  let key := S.env.detailOf e
  { m with state := .verify, verificatorTime := S.env.timeOf e, verificatorKeycode := key,
           mDecisionTime := min m.mDecisionTime
             (S.config.verifierDecisionTime m.suspect m.suspectTime key (S.env.timeOf e)) }

def enact (m : ListMachine E Time) (e : E) : Verdict → ListMachine E Time
  | .refork =>
    let key := S.env.detailOf e
    let code := S.config.forkKeycode key
    (m.setForkActive key code).clear.passAs (S.env.rewriteEvent e code)
  | .startSuspect => (m.startSuspect S e).keep e
  | .autoRepeat => m.passAs e
  | .selfFork => (m.setForkActive (S.env.detailOf e) (S.env.detailOf e)).passAs e
  | .unfork =>
    let key := S.env.detailOf e
    ((m.recordForkRelease S e).setForkActive key noKey).passAs
      (S.env.rewriteEvent e (m.forkActive key))
  | .pass => (m.recordRelease S e).passAs e
  | .forkHead => m.forkHead S
  | .confirmHead => m.confirmHead
  | .repeatHead => (m.setForkActive m.suspect m.suspect).confirmHead
  | .discard => m
  | .verify => (m.startVerify S e).keep e
  | .unverify => { m with state := .suspect, verificatorKeycode := noKey }.keep e
  | .wait => m.keep e

end

/-! ## what the operations of the handlers do -/

theorem check_true (m : ListMachine E Time) (b : Bug) : m.check true b = m := rfl

theorem moveToSecond_eq {m : ListMachine E Time} {e : E} {rest : List E}
    (hi : m.tq.inp = e :: rest) : m.moveToSecond = m.keep e := by
  rcases m with ⟨_, _, _, _, _, _, _, _, _, _, ⟨out, mid, inp⟩, _⟩
  subst hi
  rfl

theorem pass_eq {m : ListMachine E Time} {e : E} {rest : List E} (hm : m.tq.mid = [])
    (hi : m.tq.inp = e :: rest) : m.moveToSecond.moveToFirst = m.passAs e := by
  rcases m with ⟨_, _, _, _, _, _, _, _, _, _, ⟨out, mid, inp⟩, _⟩
  subst hi hm
  rfl

section
variable [Zero Time]

theorem settle_eq {m : ListMachine E Time} {h : E} {t : List E} (hm : m.tq.mid = h :: t) :
    m.moveToFirst.rewindMachine = m.settleAs h := by
  rcases m with ⟨_, _, _, _, _, _, _, _, _, _, ⟨out, mid, inp⟩, _⟩
  subst hm
  rfl

theorem confirmHead_nil {m : ListMachine E Time} (hm : m.tq.mid = []) : m.confirmHead = m := by
  rw [confirmHead, hm]

theorem confirmHead_cons {m : ListMachine E Time} {h : E} {t : List E}
    (hm : m.tq.mid = h :: t) : m.confirmHead = m.settleAs h := by
  rw [confirmHead, hm]

theorem forkHead_nil (S : Setup E Time) {m : ListMachine E Time} (hm : m.tq.mid = []) :
    m.forkHead S = m := by
  rw [forkHead, hm]

theorem forkHead_cons (S : Setup E Time) {m : ListMachine E Time} {h : E} {t : List E}
    (hm : m.tq.mid = h :: t) :
    m.forkHead S = (m.setForkActive (S.env.detailOf h)
        (S.config.forkKeycode (S.env.detailOf h))).settleAs
      (S.env.rewriteEvent h (S.config.forkKeycode (S.env.detailOf h))) := by
  rw [forkHead, hm]

theorem doConfirmNonForkBy_eq {m : ListMachine E Time} (hs : m.state ≠ .normal)
    (hm : m.tq.mid ≠ []) : m.doConfirmNonForkBy = m.confirmHead := by
  obtain ⟨h, t, hm⟩ := List.exists_cons_of_ne_nil hm
  have hc : (m.state == .suspect || m.state == .verify) = true := by
    cases hst : m.state <;> first | rfl | exact absurd hst hs
  rw [doConfirmNonForkBy, hc, check_true, settle_eq hm, confirmHead_cons hm]

theorem activateForkRewind_eq (S : Setup E Time) {m : ListMachine E Time} (hm : m.tq.mid ≠ []) :
    m.activateForkRewind S = m.forkHead S := by
  obtain ⟨h, t, hm⟩ := List.exists_cons_of_ne_nil hm
  rcases m with ⟨_, _, _, _, _, _, _, _, _, _, ⟨out, mid, inp⟩, _⟩
  subst hm
  simp [activateForkRewind, forkHead, TriqueueOps.middleEmpty, TriqueueOps.peekMiddle,
    TriqueueOps.writeMiddle, setForkActive, moveToFirst, rewindMachine, check, settleAs, clear,
    changeState, TriqueueOps.moveToFirst, TriqueueOps.rewindMiddle]

end

section
variable (S : Setup E Time) {m : ListMachine E Time} {e : E} {rest : List E}

/-- a release of a (self-)forked key is rewritten in the input part and leaves -/
theorem unfork_eq (hm : m.tq.mid = []) (hi : m.tq.inp = e :: rest) (key code : Keycode) :
    (({ m with tq := TriqueueOps.writeThird m.tq (S.env.rewriteEvent e code) }).setForkActive key
      noKey).moveToSecond.moveToFirst
      = (m.setForkActive key noKey).passAs (S.env.rewriteEvent e code) := by
  rcases m with ⟨_, _, _, _, _, _, _, _, _, _, ⟨out, mid, inp⟩, _⟩
  subst hi hm
  rfl

theorem recordRelease_eq (m : ListMachine E Time) (e : E) :
    ∃ k t, m.recordRelease S e = { m with lastReleased := k, lastReleasedTime := t } := by
  unfold recordRelease recordLastReleaseEvent
  split_ifs
  · exact ⟨_, _, rfl⟩
  · exact ⟨m.lastReleased, m.lastReleasedTime, rfl⟩

variable [Zero Time]

theorem recordForkRelease_eq (m : ListMachine E Time) (e : E) :
    ∃ k t, m.recordForkRelease S e = { m with lastReleased := k, lastReleasedTime := t } := by
  unfold recordForkRelease recordLastReleaseEvent
  split_ifs
  · exact ⟨_, _, rfl⟩
  · exact ⟨_, _, rfl⟩

variable [LinearOrder Time] [Add Time] [NatCast Time]

omit [LinearOrder Time] [Add Time] [NatCast Time] in
theorem forkHead_mCurrentTime (m : ListMachine E Time) :
    (m.forkHead S).mCurrentTime = m.mCurrentTime := by
  rcases hm : m.tq.mid with - | ⟨h, t⟩
  · rw [forkHead_nil S hm]
  · rw [forkHead_cons S hm]
    rfl

omit [LinearOrder Time] [Add Time] [NatCast Time] in
theorem confirmHead_mCurrentTime (m : ListMachine E Time) :
    m.confirmHead.mCurrentTime = m.mCurrentTime := by
  rcases hm : m.tq.mid with - | ⟨h, t⟩
  · rw [confirmHead_nil hm]
  · rw [confirmHead_cons hm]
    rfl

theorem enact_mCurrentTime (m : ListMachine E Time) (e : E) (v : Verdict) :
    (m.enact S e v).mCurrentTime = m.mCurrentTime := by
  cases v with
  | unfork =>
    obtain ⟨k, t, hk⟩ := recordForkRelease_eq S m e
    rw [enact, hk]
    rfl
  | pass =>
    obtain ⟨k, t, hk⟩ := recordRelease_eq S m e
    rw [enact, hk]
    rfl
  | forkHead => exact forkHead_mCurrentTime S m
  | confirmHead => exact confirmHead_mCurrentTime m
  | repeatHead => exact confirmHead_mCurrentTime _
  | _ => rfl

/-! ## more output before, more input after, another clock -/

omit [Zero Time] [LinearOrder Time] [Add Time] [NatCast Time] in
theorem passAs_framed (l r : List E) (c : Time) (x : E) (hi : m.tq.inp ≠ []) :
    (m.framed l r c).passAs x = (m.passAs x).framed l r c := by
  simp [framed, passAs, List.tail_append_of_ne_nil hi]

omit [Zero Time] [LinearOrder Time] [Add Time] [NatCast Time] in
theorem keep_framed (l r : List E) (c : Time) (x : E) (hi : m.tq.inp ≠ []) :
    (m.framed l r c).keep x = (m.keep x).framed l r c := by
  simp [framed, keep, List.tail_append_of_ne_nil hi]

omit [LinearOrder Time] [Add Time] [NatCast Time] in
theorem settleAs_framed (l r : List E) (c : Time) (x : E) :
    (m.framed l r c).settleAs x = (m.settleAs x).framed l r c := by
  simp [framed, settleAs, clear]

omit [LinearOrder Time] [Add Time] [NatCast Time] in
theorem confirmHead_framed (l r : List E) (c : Time) :
    (m.framed l r c).confirmHead = m.confirmHead.framed l r c := by
  rcases hm : m.tq.mid with - | ⟨h, t⟩
  · rw [confirmHead_nil hm, confirmHead_nil (m := m.framed l r c) hm]
  · rw [confirmHead_cons hm, confirmHead_cons (m := m.framed l r c) hm, settleAs_framed]

omit [LinearOrder Time] [Add Time] [NatCast Time] in
theorem forkHead_framed (l r : List E) (c : Time) :
    (m.framed l r c).forkHead S = (m.forkHead S).framed l r c := by
  rcases hm : m.tq.mid with - | ⟨h, t⟩
  · rw [forkHead_nil S hm, forkHead_nil S (m := m.framed l r c) hm]
  · rw [forkHead_cons S hm, forkHead_cons S (m := m.framed l r c) hm, ← settleAs_framed]
    rfl

theorem enact_framed (l r : List E) (c : Time) (hi : m.tq.inp ≠ []) (v : Verdict) :
    (m.framed l r c).enact S e v = (m.enact S e v).framed l r c := by
  cases v with
  | confirmHead => exact confirmHead_framed l r c
  | repeatHead => exact confirmHead_framed (m := m.setForkActive _ _) l r c
  | forkHead => exact forkHead_framed S l r c
  | discard => rfl
  | startSuspect => exact keep_framed (m := m.startSuspect S e) l r c e hi
  | verify => exact keep_framed (m := m.startVerify S e) l r c e hi
  | unverify =>
    exact keep_framed (m := { m with state := .suspect, verificatorKeycode := noKey }) l r c e hi
  | wait => exact keep_framed l r c e hi
  | refork => exact passAs_framed (m := (m.setForkActive _ _).clear) l r c _ hi
  | autoRepeat => exact passAs_framed l r c e hi
  | selfFork => exact passAs_framed (m := m.setForkActive _ _) l r c e hi
  | unfork =>
    obtain ⟨k, t, hk⟩ := recordForkRelease_eq S m e
    have hk' : (m.framed l r c).recordForkRelease S e = (m.recordForkRelease S e).framed l r c := by
      unfold recordForkRelease
      split_ifs <;> rfl
    rw [enact, enact, hk', hk]
    exact passAs_framed (m := { m with lastReleased := k, lastReleasedTime := t }.setForkActive _ _)
      l r c _ hi
  | pass =>
    obtain ⟨k, t, hk⟩ := recordRelease_eq S m e
    have hk' : (m.framed l r c).recordRelease S e = (m.recordRelease S e).framed l r c := by
      unfold recordRelease
      split_ifs <;> rfl
    rw [enact, enact, hk', hk]
    exact passAs_framed (m := { m with lastReleased := k, lastReleasedTime := t }) l r c _ hi

end

end Machine

end ForkNS
