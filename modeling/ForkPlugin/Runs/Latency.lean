import ForkPlugin.Machine.Sends
import ForkPlugin.Runs.Quiescent
import ForkPlugin.Runs.Safe

/-!
# No event is held for long

* `Punctual`          each event of the internal part came before the deadline that the events in
                      front of it set; every move keeps it so;
* `kept_in_time`      so it is in every reachable state;
* `Punctual.before`   so none came as late as the interval of the head after the head;
* `held_in_time`      when a call returns, an event is still held only if neither a later event nor
                      the timer came by the longest interval after it.
-/

namespace ForkNS

open Runs Machine

variable {E Time : Type} [LinearOrder Time] [Add Time] [Zero Time] [NatCast Time]
  {S : Setup E Time}

/-! ## the internal part is punctual -/

def Punctual (S : Setup E Time) (m : ListMachine E Time) : Prop :=
  ∀ h t e r, m.tq.mid = h :: (t ++ e :: r) →
    S.env.timeOf e < (Decision.rescan S h t).mDecisionTime

theorem punctual_nil {m : ListMachine E Time} (hm : m.tq.mid = []) : Punctual S m := by
  intro h t e r heq
  rw [hm] at heq
  cases heq

theorem Punctual.same {m m' : ListMachine E Time} (hp : Punctual S m)
    (hm : m'.tq.mid = m.tq.mid) : Punctual S m' := by
  intro h t e r heq
  exact hp h t e r (hm.symm.trans heq)

/-- an event that is not late is kept -/
theorem Punctual.keep {m m' : ListMachine E Time} (hp : Punctual S m) (hm : Sound S m)
    (hs : m.state ≠ .normal) {e : E} (hmid' : m'.tq.mid = m.tq.mid ++ [e])
    (ht : S.env.timeOf e < m.mDecisionTime) : Punctual S m' := by
  obtain ⟨h, t, hmid, -⟩ := hm.head hs
  have hd : m.mDecisionTime = (Decision.rescan S h t).mDecisionTime :=
    congrArg Decision.mDecisionTime ((coherent_cons hmid).mp hm.coherent).2
  intro h' t' x r heq
  rw [hmid', hmid, List.cons_append] at heq
  obtain ⟨rfl, htail⟩ := List.cons.inj heq
  rcases snoc_eq_split htail with ⟨rfl, rfl, -⟩ | ⟨r', -, hl⟩
  · rwa [← hd]
  · exact hp h t' x r' (by rw [hmid, hl])

theorem forkHead_punctual {m : ListMachine E Time} (hp : Punctual S m) :
    Punctual S (m.forkHead S) :=
  (forkHead_mid m).elim punctual_nil hp.same

theorem confirmHead_punctual {m : ListMachine E Time} (hp : Punctual S m) :
    Punctual S m.confirmHead :=
  (confirmHead_mid m).elim punctual_nil hp.same

theorem enact_punctual {m : ListMachine E Time} {e : E} (hp : Punctual S m) (hm : Sound S m) :
    Punctual S (m.enact S e (m.verdict S e)) := by
  have hg := guard_verdict S m e
  generalize m.verdict S e = v at hg ⊢
  cases v with
  | startSuspect =>
    have hmid : m.tq.mid = [] := hm.coherent.normal_iff.mp hg.1
    intro h t x r heq
    have hone : m.tq.mid ++ [e] = h :: (t ++ x :: r) := heq
    rw [hmid] at hone
    simp at hone
  | unfork =>
    obtain ⟨k, t, hk⟩ := recordForkRelease_eq S m e
    rw [enact, hk]
    exact hp.same rfl
  | pass =>
    obtain ⟨k, t, hk⟩ := recordRelease_eq S m e
    rw [enact, hk]
    exact hp.same rfl
  | forkHead => exact forkHead_punctual hp
  | confirmHead => exact confirmHead_punctual hp
  | repeatHead =>
    have hset : Punctual S (m.setForkActive m.suspect m.suspect) := hp.same rfl
    exact confirmHead_punctual hset
  | verify =>
    obtain ⟨hs, -, -, -, ht, -⟩ := hg
    exact hp.keep hm (by rw [hs]; decide) rfl ht
  | unverify =>
    obtain ⟨hs, -, -, -, ht⟩ := hg
    exact hp.keep hm (by rw [hs]; decide) rfl ht
  | wait =>
    obtain ⟨hs, ht, -⟩ := hg
    exact hp.keep hm hs rfl ht
  | _ => exact hp.same rfl

theorem Move.punctual {a : Act E Time} {f : Bool} {m m' : ListMachine E Time} {es : List E}
    (hmove : Move S a f m es m') (hm : Sound S m) (hp : Punctual S m) : Punctual S m' := by
  cases hmove with
  | key e rest hi => exact enact_punctual hp hm
  | time => exact forkHead_punctual hp
  | force => exact forkHead_punctual hp
  | _ => exact hp.same rfl

theorem runs_punctual {acts : List (Act E Time)} {s : Sys (ThreeLists E) E Time}
    (h : runs (Sys.step S) (Sys.create .nil) acts = some s) : Punctual S s.machine :=
  (Sys.view_ind (P := fun _ _ m => Punctual S m) (punctual_nil rfl)
    (fun _ _ _ _ _ _ _ _ hm hp hmove => hmove.punctual hm hp) h).2

/-- **Nothing waits behind an overdue suspect.**  In every reachable state, whatever was frozen,
each event of the internal part came before the deadline that the events in front of it set. -/
theorem kept_in_time {c : ℕ} (hc : 2 ≤ c) {acts : List (Act E Time)}
    (hw : WithinCapacity S c acts) {s : Sys (Triqueue E) E Time}
    (h : runs (Sys.step S) (Sys.create (Triqueue.create c)) acts = some s) :
    ∃ l : ListMachine E Time, Stands c s.machine l ∧ Punctual S l := by
  obtain ⟨t, ht, halike⟩ := ring_run hc hw h
  exact ⟨t.machine, halike.stands, runs_punctual ht⟩

/-- key 3 is suspected until 300, then until 210; key 20 was pressed at 110 -/
theorem kept_in_time_typed : ∃ s,
    runs (Sys.step testSetup) (Sys.create (Triqueue.create 2))
      (during (.acceptEvent (down 3 100)) 7 ++ during (.acceptEvent (down 20 110)) 7) = some s ∧
    s.machine.state = .verify ∧
    ∃ l : ListMachine TestEvent Nat, Stands 2 s.machine l ∧ Punctual testSetup l := by
  have hs := Option.eq_some_of_isSome (o := runs (Sys.step testSetup)
    (Sys.create (Triqueue.create 2))
    (during (.acceptEvent (down 3 100)) 7 ++ during (.acceptEvent (down 20 110)) 7)) (by decide)
  exact ⟨_, hs, by decide, kept_in_time (le_refl 2) (by decide) hs⟩

/-! ## the delay -/

/-- the deadline of the head is not after its interval -/
theorem rescan_le_interval (h : E) (t : List E) : (Decision.rescan S h t).mDecisionTime
    ≤ S.env.timeOf h + S.config.verificationIntervalOf (S.env.detailOf h) noKey :=
  Decision.rescan_le h [] t

/-- the events behind the head came before the end of its interval -/
theorem Punctual.before {m : ListMachine E Time} (hp : Punctual S m) {h : E} {t : List E}
    (hmid : m.tq.mid = h :: t) : ∀ e ∈ t, S.env.timeOf e
      < S.env.timeOf h + S.config.verificationIntervalOf (S.env.detailOf h) noKey := by
  intro e he
  obtain ⟨pre, post, rfl⟩ := List.append_of_mem he
  exact lt_of_lt_of_le (hp h pre e post hmid) (rescan_le_interval h pre)

/-- the events that left, and those that are held -/
theorem lists_held {acts : List (Act E Time)} {s : Sys (ThreeLists E) E Time}
    (h : runs (Sys.step S) (Sys.create .nil) acts = some s) :
    ∃ sent : List E, s.pushed = sent ++ s.machine.tq.mid ++ s.machine.tq.inp ∧
      s.handed.length = sent.length := by
  obtain ⟨pairs, hp, hh, -⟩ := Sys.sends_ind (S := S) (P := fun _ _ => True) trivial
    (fun _ _ _ _ _ _ _ => trivial) h
  exact ⟨pairs.map Prod.fst, hp, by rw [hh, List.length_map, List.length_map]⟩

variable [AddLeftMono Time] [AddRightMono Time]

/-- an event that is held: its deadline, and what came after it -/
theorem Punctual.held {m : ListMachine E Time} (hp : Punctual S m) (hm : Sound S m)
    {sent : List E} (hsorted : ((sent ++ m.tq.mid).map S.env.timeOf).Pairwise (· ≤ ·)) {D : Time}
    (hD : ∀ e ∈ m.tq.mid, S.config.verificationIntervalOf (S.env.detailOf e) noKey ≤ D)
    {i : ℕ} {e : E} (hi : (sent ++ m.tq.mid)[i]? = some e) (hle : sent.length ≤ i) :
    m.state ≠ .normal ∧ m.mDecisionTime ≤ S.env.timeOf e + D ∧
      ∀ j e', i < j → (sent ++ m.tq.mid)[j]? = some e' →
        S.env.timeOf e' < S.env.timeOf e + D := by
  rw [List.getElem?_append_right hle] at hi
  rcases hmid : m.tq.mid with - | ⟨h, t⟩
  · simp [hmid] at hi
  rw [hmid] at hsorted hD hi
  have hhead : S.env.timeOf h ≤ S.env.timeOf e := by
    rw [List.map_append, List.map_cons] at hsorted
    have htail := (List.pairwise_cons.mp (List.pairwise_append.mp hsorted).2.1).1
    rcases List.mem_cons.mp (List.mem_of_getElem? hi) with rfl | het
    · exact le_refl _
    · exact htail _ (List.mem_map_of_mem het)
  have hend : S.env.timeOf h + S.config.verificationIntervalOf (S.env.detailOf h) noKey
      ≤ S.env.timeOf e + D := add_le_add hhead (hD h List.mem_cons_self)
  have hd : m.mDecisionTime = (Decision.rescan S h t).mDecisionTime :=
    congrArg Decision.mDecisionTime ((coherent_cons hmid).mp hm.coherent).2
  refine ⟨fun hs => ?_, ?_, fun j e' hj he' => ?_⟩
  · rw [hm.coherent.normal_iff.mp hs] at hmid
    cases hmid
  · rw [hd]
    exact le_trans (rescan_le_interval h t) hend
  · -- a later event is behind the head
    obtain ⟨k, rfl⟩ : ∃ k, j = sent.length + (k + 1) := ⟨j - sent.length - 1, by omega⟩
    rw [List.getElem?_append_right (by omega), Nat.add_sub_cancel_left,
      List.getElem?_cons_succ] at he'
    exact lt_of_lt_of_le (hp.before hmid e' (List.mem_of_getElem? he')) hend

/-- **No event is held for long.**  Where the intervals of all keys are at most `D` and the events
came in order of time: when a call returns, an event is still held only if no later event came
`D` after it, and the call is no timer that came `D` after it. -/
theorem held_in_time {c : ℕ} (hc : 2 ≤ c) {acts : List (Act E Time)} {call : Call E Time} {n : ℕ}
    (hw : WithinCapacity S c (acts ++ .call call :: List.replicate n (.tick false)))
    {s s' : Sys (Triqueue E) E Time}
    (h : runs (Sys.step S) (Sys.create (Triqueue.create c)) acts = some s)
    (hadm : Accepts S s.machine call)
    (hrun : runs (Sys.step S) s (.call call :: List.replicate n (.tick false)) = some s')
    (hidle : s'.control = .idle)
    (hsorted : (s'.pushed.map S.env.timeOf).Pairwise (· ≤ ·)) {D : Time}
    (hD : ∀ e ∈ s'.pushed, S.config.verificationIntervalOf (S.env.detailOf e) noKey ≤ D) :
    ∀ i e, s'.pushed[i]? = some e →
      ((∃ now, call = .acceptTime now ∧ now ≠ 0 ∧ S.env.timeOf e + D ≤ now) ∨
        ∃ j e', i < j ∧ s'.pushed[j]? = some e' ∧ S.env.timeOf e + D ≤ S.env.timeOf e') →
      i < (relayed s'.trace).length := by
  obtain ⟨t', ht', halike'⟩ := ring_run hc hw (runs_append_some.mpr ⟨s, h, hrun⟩)
  obtain ⟨t, ht, hticks⟩ := runs_append_some.mp ht'
  have halike := ring_run_alike hc hw.left h ht
  have hsound := runs_sound ht
  obtain ⟨hs, hq⟩ := lists_quiescent hsound (hadm.stands halike.stands) hticks
  rw [← halike'.control, hidle] at hq
  obtain ⟨hset, hout⟩ := hq
  obtain ⟨sent, hpushed, hlen⟩ := lists_held ht'
  rw [hset.inp, List.append_nil] at hpushed
  have hin : t'.control.inHand = [] := by
    rw [← halike'.control, hidle]
    rfl
  have hrelayed : (relayed t'.trace).length = sent.length := by
    rw [← hlen, Sys.handed, hin, hout, List.append_nil, List.append_nil]
  rw [halike'.pushed, hpushed] at hsorted hD ⊢
  rw [halike'.trace, hrelayed]
  intro i e hi hlate
  by_contra hle
  obtain ⟨hn, hd, hbehind⟩ := (runs_punctual ht').held hs hsorted
    (fun e he => hD e (List.mem_append_right _ he)) hi (not_lt.mp hle)
  rcases hlate with ⟨now, rfl, hnow, hle⟩ | ⟨j, e', hj, he', hle⟩
  · have hahead := hset.ahead now (by rw [Call.timer, if_neg hnow]; rfl) hn
    exact absurd (lt_of_lt_of_le hahead (le_trans hd hle)) (lt_irrefl _)
  · exact absurd (lt_of_lt_of_le (hbehind j e' hj he') hle) (lt_irrefl _)

/-- key 3 is pressed and then key 20, both with the interval 200; a timer comes at 310 -/
theorem held_in_time_typed : ∃ s s',
    runs (Sys.step testSetup) (Sys.create (Triqueue.create 2))
      (during (.acceptEvent (down 3 100)) 7 ++ during (.acceptEvent (down 20 110)) 7) = some s ∧
    runs (Sys.step testSetup) s (during (.acceptTime 310) 12) = some s' ∧
    s.machine.state = .verify ∧ 1 < (relayed s'.trace).length := by
  have hall := Option.eq_some_of_isSome (o := runs (Sys.step testSetup)
    (Sys.create (Triqueue.create 2))
    ((during (.acceptEvent (down 3 100)) 7 ++ during (.acceptEvent (down 20 110)) 7) ++
      during (.acceptTime 310) 12)) (by decide)
  obtain ⟨s, hs, hs'⟩ := runs_append_some.mp hall
  have hbefore : ∀ u ∈ runs (Sys.step testSetup) (Sys.create (Triqueue.create 2))
      (during (.acceptEvent (down 3 100)) 7 ++ during (.acceptEvent (down 20 110)) 7),
      u.machine.state = .verify ∧ u.machine.mCurrentTime ≤ 310 := by decide
  obtain ⟨hstate, hclock⟩ := hbefore s hs
  refine ⟨s, _, hs, hs', hstate, ?_⟩
  have hadm : Accepts testSetup s.machine (.acceptTime 310 : Call TestEvent Nat) := hclock
  exact held_in_time (le_refl 2) (by decide) hs hadm hs' (by decide) (by decide)
    (show ∀ e ∈ _, _ ≤ 200 by decide) 1 (down 20 110) (by decide)
    (.inl ⟨310, rfl, by decide, by decide⟩)

end ForkNS
