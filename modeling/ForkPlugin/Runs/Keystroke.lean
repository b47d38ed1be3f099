import ForkPlugin.Machine.Ring
import ForkPlugin.Machine.Sends
import ForkPlugin.Machine.TestEvents

/-!
# When a keystroke is taken for auto-repeat

`accept_event` skips the press of a key that is forked.  `forkActive` is cleared when the release
of the key is decided, not when it arrives: while another key is suspected that release waits in
the queue, and the next press of the key is skipped although the key had gone up.

* `ReleaseWaits`      where the skipped press is no repeat;
* `lists_keep`        on streams that alternate, every event is pushed exactly when no press
                      arrives while the release of its forked key waits;
* `keystrokes_kept`   the same over the ring, where an event also needs room;
* `keystroke_lost`    a press that is lost while there is room.
-/

namespace ForkNS

open Runs Machine

variable {E Time : Type}

section
variable [LinearOrder Time] [Add Time] [Zero Time] [NatCast Time] (S : Setup E Time)

/-- a release of the forked key that `e` presses still waits behind the output part -/
def ReleaseWaits (m : Machine (Triqueue E) Time) (e : E) : Prop :=
  S.env.pressP e ∧ m.keyForked (S.env.detailOf e) ∧
    ∃ r, (∃ i, m.tq.endOutput ≤ i ∧ i < m.tq.buffer.size ∧ m.tq.buffer.atUnchecked i = some r) ∧
      S.env.releaseP r ∧ S.env.detailOf r = S.env.detailOf e

def ListReleaseWaits (m : ListMachine E Time) (e : E) : Prop :=
  S.env.pressP e ∧ m.keyForked (S.env.detailOf e) ∧
    ∃ r ∈ m.tq.mid ++ m.tq.inp, S.env.releaseP r ∧ S.env.detailOf r = S.env.detailOf e

variable {S}

omit [LinearOrder Time] [Add Time] [Zero Time] [NatCast Time] in
theorem releaseWaits_iff {c : ℕ} {m : Machine (Triqueue E) Time} {l : ListMachine E Time}
    (h : Stands c m l) {e : E} : ReleaseWaits S m e ↔ ListReleaseWaits S l e := by
  unfold ReleaseWaits ListReleaseWaits keyForked
  simp only [h.forkActive, Triqueue.mem_waiting h.rep]

omit [LinearOrder Time] [Add Time] [NatCast Time] in
theorem acceptEvent_pushed (m : ListMachine E Time) (e : E) :
    (acceptEvent S m e).pushed = if S.maxKeycode < S.env.detailOf e ∨
      S.env.pressP e ∧ m.keyForked (S.env.detailOf e) then [] else [e] := by
  have hk : ({ m with mCurrentTime := 0 } : ListMachine E Time).keyForked = m.keyForked := rfl
  simp only [acceptEvent, hk, gt_iff_lt, Bool.and_eq_true]
  by_cases hmax : S.maxKeycode < S.env.detailOf e
  · simp [hmax]
  · by_cases hf : S.env.pressP e = true ∧ m.keyForked (S.env.detailOf e) = true
    · simp [hmax, hf]
    · simp [hmax, hf]

theorem step_pushed {s s' : Sys (ThreeLists E) E Time} {a : Act E Time}
    (h : s.step S a = some s') :
    (offered [a] = [] ∧ s'.pushed = s.pushed) ∨
    ∃ e, a = .call (.acceptEvent e) ∧ s'.pushed = s.pushed ++
      if S.maxKeycode < S.env.detailOf e ∨
        S.env.pressP e ∧ s.machine.keyForked (S.env.detailOf e) then [] else [e] := by
  cases a with
  | tick frozen =>
    obtain ⟨x, hx, rfl⟩ := Sys.step_tick h
    refine .inl ⟨rfl, ?_⟩
    rw [Sys.apply, (tick_cases hx).pushed, List.append_nil]
  | call c =>
    obtain ⟨-, rfl⟩ := Sys.step_call h
    cases c with
    | acceptEvent e =>
      refine .inr ⟨e, rfl, ?_⟩
      show s.pushed ++ (acceptEvent S s.machine e).pushed = _
      rw [acceptEvent_pushed]
    | acceptTime now =>
      refine .inl ⟨rfl, ?_⟩
      show s.pushed ++ (acceptTime s.machine now).pushed = _
      unfold acceptTime
      split_ifs <;> exact List.append_nil _
    | acceptConfirmation => exact .inl ⟨rfl, List.append_nil _⟩

theorem step_offered {s s' : Sys (ThreeLists E) E Time} {a : Act E Time} {es : List E}
    (h : s.step S a = some s') (hp : s'.pushed = s.pushed ++ es) : ∀ e ∈ es, e ∈ offered [a] := by
  intro e he
  rcases step_pushed h with ⟨-, hp'⟩ | ⟨e', rfl, hp'⟩
  · rw [hp, List.append_right_eq_self] at hp'
    rw [hp'] at he
    exact absurd he List.not_mem_nil
  · rw [hp] at hp'
    rw [List.append_cancel_left hp'] at he
    split_ifs at he
    · exact absurd he List.not_mem_nil
    · exact he

theorem pushed_offered {acts : List (Act E Time)} {s : Sys (ThreeLists E) E Time}
    (h : runs (Sys.step S) (Sys.create .nil) acts = some s) : ∀ e ∈ s.pushed, e ∈ offered acts := by
  induction acts using List.reverseRecOn generalizing s with
  | nil =>
    cases h
    exact fun e he => he
  | append_singleton acts a ih =>
    obtain ⟨u, hu, hstep⟩ := runs_snoc_some.mp h
    obtain ⟨es, hes, -⟩ := Sys.view_step (runs_sound hu) hstep
    intro e he
    rw [offered_append]
    rw [hes] at he
    rcases List.mem_append.mp he with he | he
    · exact List.mem_append_left _ (ih hu e he)
    · exact List.mem_append_right _ (step_offered hstep hes e he)

theorem line_offered {acts : List (Act E Time)} {s : Sys (ThreeLists E) E Time}
    (h : runs (Sys.step S) (Sys.create .nil) acts = some s) :
    ∀ e ∈ s.machine.line, e ∈ offered acts := by
  intro e he
  obtain ⟨sent, hsent⟩ := Sys.pushed_line h
  refine pushed_offered h e ?_
  rw [hsent]
  exact List.mem_append_right _ he

theorem pushed_length_le {s s' : Sys (ThreeLists E) E Time} {acts : List (Act E Time)}
    (h : runs (Sys.step S) s acts = some s') :
    s'.pushed.length ≤ s.pushed.length + (offered acts).length := by
  induction acts generalizing s with
  | nil =>
    cases h
    exact Nat.le_add_right _ _
  | cons a acts ih =>
    obtain ⟨u, hu, hrun⟩ := Option.bind_eq_some_iff.mp h
    have hle := ih hrun
    have hof : (offered (a :: acts)).length = (offered [a]).length + (offered acts).length := by
      rw [← List.singleton_append, offered_append, List.length_append]
    rcases step_pushed hu with ⟨ho, hp⟩ | ⟨e, rfl, hp⟩
    · rw [hp] at hle
      rw [hof, ho]
      simpa using hle
    · have hone : u.pushed.length ≤ s.pushed.length + 1 := by
        rw [hp]
        split_ifs <;> simp
      have ho : (offered [(.call (.acceptEvent e) : Act E Time)]).length = 1 := rfl
      omega

/-- a key whose `forkActive` is set was pressed by what left, and not released since -/
theorem down_of_forked {acts : List (Act E Time)} {s : Sys (ThreeLists E) E Time}
    (h : runs (Sys.step S) (Sys.create .nil) acts = some s) :
    ∃ sent, s.pushed = sent ++ (s.machine.tq.mid ++ s.machine.tq.inp) ∧
      ∀ k, s.machine.forkActive k ≠ noKey → isDown S.env sent k = true := by
  obtain ⟨pairs, hp, -, hd⟩ := Sys.sends_ind (S := S)
    (P := fun pairs fa => ∀ k, fa k ≠ noKey → isDown S.env (pairs.map Prod.fst) k = true)
    (fun _ hk => absurd rfl hk)
    (fun pairs fa e r fa' hpairs hs => by
      rw [List.map_append]
      exact hs.down hpairs) h
  exact ⟨pairs.map Prod.fst, by rw [hp, List.append_assoc], hd⟩

/-- The press of a forked key that fits the pushed events comes after a waiting release. -/
theorem releaseWaits_of_fits {acts : List (Act E Time)} {s : Sys (ThreeLists E) E Time}
    (h : runs (Sys.step S) (Sys.create .nil) acts = some s) {e : E}
    (hfit : FitsAfter S.env s.pushed e) (hp : S.env.pressP e)
    (hk : s.machine.keyForked (S.env.detailOf e)) : ListReleaseWaits S s.machine e := by
  obtain ⟨sent, hsent, hdown⟩ := down_of_forked h
  have hfa : s.machine.forkActive (S.env.detailOf e) ≠ noKey := by
    simp only [keyForked, Bool.and_eq_true, bne_iff_ne] at hk
    exact hk.2
  refine ⟨hp, hk, exists_release (hdown _ hfa) ?_⟩
  rw [← hsent]
  exact hfit.1 hp

theorem enter_pushed_of_all {pre post : List (Act E Time)} {e : E}
    {s u : Sys (ThreeLists E) E Time}
    (h : runs (Sys.step S) (Sys.create .nil) (pre ++ .call (.acceptEvent e) :: post) = some s)
    (hall : s.pushed = offered (pre ++ .call (.acceptEvent e) :: post))
    (hu : runs (Sys.step S) (Sys.create .nil) pre = some u) :
    (enter S u.machine (.acceptEvent e)).pushed = [e] := by
  obtain ⟨u', hu', hrun⟩ := runs_append_some.mp h
  obtain rfl := Option.some.inj (hu'.symm.trans hu)
  obtain ⟨v, hv, hrun⟩ := Option.bind_eq_some_iff.mp hrun
  obtain ⟨-, rfl⟩ := Sys.step_call hv
  have h1 := pushed_length_le hu
  have h2 := pushed_length_le hrun
  have h3 : s.pushed.length = (offered pre).length + 1 + (offered post).length := by
    rw [hall, offered_append, List.length_append]
    show _ + ((offered post).length + 1) = _
    omega
  have h4 : (Sys.create .nil : Sys (ThreeLists E) E Time).pushed.length = 0 := rfl
  have h5 : (u'.apply (enter S u'.machine (.acceptEvent e))).pushed.length =
      u'.pushed.length + (acceptEvent S u'.machine e).pushed.length := List.length_append
  show (acceptEvent S u'.machine e).pushed = [e]
  rw [acceptEvent_pushed] at h5 ⊢
  refine if_neg fun hskip => ?_
  rw [if_pos hskip, List.length_nil] at h5
  omega

/-- Over three lists every event is pushed exactly when no press finds the release waiting. -/
theorem lists_keep {acts : List (Act E Time)} {s : Sys (ThreeLists E) E Time}
    (h : runs (Sys.step S) (Sys.create .nil) acts = some s)
    (halt : Alternates S.env (offered acts))
    (hkeys : ∀ e ∈ offered acts, 1 ≤ S.env.detailOf e ∧ S.env.detailOf e ≤ S.maxKeycode - 1) :
    s.pushed = offered acts ↔ ∀ pre e post u, acts = pre ++ .call (.acceptEvent e) :: post →
      runs (Sys.step S) (Sys.create .nil) pre = some u → ¬ListReleaseWaits S u.machine e := by
  constructor
  · rintro hall pre e post u rfl hu ⟨hp, hk, -⟩
    have hpush := enter_pushed_of_all h hall hu
    have hskip : (enter S u.machine (.acceptEvent e)).pushed = [] :=
      (acceptEvent_pushed u.machine e).trans (if_pos (.inr ⟨hp, hk⟩))
    rw [hskip] at hpush
    cases hpush
  · intro hno
    induction acts using List.reverseRecOn generalizing s with
    | nil =>
      cases h
      rfl
    | append_singleton acts a ih =>
      obtain ⟨u, hu, hstep⟩ := runs_snoc_some.mp h
      have hno' : ∀ pre e post u, acts = pre ++ .call (.acceptEvent e) :: post →
          runs (Sys.step S) (Sys.create .nil) pre = some u → ¬ListReleaseWaits S u.machine e :=
        fun pre e post v heq =>
          hno pre e (post ++ [a]) v (by rw [heq, List.append_assoc, List.cons_append])
      rw [offered_append] at halt hkeys
      have halt' := (alternatesFrom_append.mp halt).1
      have hpu := ih hu halt' (fun e he => hkeys e (List.mem_append_left _ he)) hno'
      rcases step_pushed hstep with ⟨ho, hp⟩ | ⟨e, rfl, hp⟩
      · rw [hp, hpu, offered_append, ho, List.append_nil]
      · have ho : offered [(.call (.acceptEvent e) : Act E Time)] = [e] := rfl
        rw [ho] at halt hkeys
        have hfit := (alternates_snoc.mp halt).2
        have hmax := (hkeys e (by simp)).2
        rw [hp, hpu, offered_append, ho, if_neg]
        rintro (hlt | ⟨hpr, hk⟩)
        · exact absurd hlt (not_lt.mpr (le_trans hmax (Nat.sub_le _ _)))
        · exact hno acts e [] u rfl hu (releaseWaits_of_fits hu (hpu ▸ hfit) hpr hk)

/-- **No keystroke is lost where no release waits.**  On a stream whose keys alternate, every event
is pushed and stored if and only if, where it arrives, the ring has room and no release of its
forked key waits. -/
theorem keystrokes_kept {c : ℕ} (hc : 2 ≤ c) {acts : List (Act E Time)}
    {s : Sys (Triqueue E) E Time}
    (h : runs (Sys.step S) (Sys.create (Triqueue.create c)) acts = some s)
    (halt : Alternates S.env (offered acts))
    (hkeys : ∀ e ∈ offered acts, 1 ≤ S.env.detailOf e ∧ S.env.detailOf e ≤ S.maxKeycode - 1) :
    s.pushed = offered acts ∧ WithinCapacity S c acts ↔ ∀ u e, Arrives S c acts u e →
      u.machine.tq.buffer.size < c ∧ ¬ReleaseWaits S u.machine e := by
  constructor
  · rintro ⟨hall, hw⟩ u e ⟨pre, post, rfl, hu⟩
    obtain ⟨t, ht, halike⟩ := ring_run hc hw h
    obtain ⟨v, hv, huv⟩ := ring_run hc hw.left hu
    rw [halike.pushed] at hall
    have hpush := (enter_pushed huv.stands _).trans (enter_pushed_of_all ht hall hv)
    constructor
    · -- the ring is within its capacity after the call as well
      obtain ⟨u', hu', hrun⟩ := runs_append_some.mp h
      obtain rfl := Option.some.inj (hu'.symm.trans hu)
      obtain ⟨w, hstep, -⟩ := Option.bind_eq_some_iff.mp hrun
      have hwithin := hw (pre ++ [.call (.acceptEvent e)]) post w (by simp)
        (runs_snoc_some.mpr ⟨_, hu, hstep⟩)
      obtain ⟨-, rfl⟩ := Sys.step_call hstep
      have hsize := enter_size (S := S) (fun q : Triqueue E => q.buffer.contentsSize)
        Triqueue.push_size u'.machine (.acceptEvent e)
      rw [hpush, List.length_singleton] at hsize
      have hlt : u'.machine.tq.buffer.contentsSize + 1 ≤ c := by
        rw [← hsize]
        exact hwithin
      exact hlt
    · rw [releaseWaits_iff huv.stands]
      exact (lists_keep ht halt hkeys).mp hall pre e post v rfl hv
  · intro hok
    have hw := within_of_room hc fun u e harr => (hok u e harr).1
    obtain ⟨t, ht, halike⟩ := ring_run hc hw h
    refine ⟨?_, hw⟩
    rw [halike.pushed, lists_keep ht halt hkeys]
    rintro pre e post v rfl hv
    obtain ⟨u, hu, -⟩ := runs_append_some.mp h
    have huv := ring_run_alike hc hw.left hu hv
    rw [← releaseWaits_iff huv.stands]
    exact (hok u e ⟨pre, post, rfl, hu⟩).2

end

/-- key 3 is suspected while the release of the forked key 2 comes, and key 2 is pressed again -/
def pressedAgain : List (Act TestEvent Nat) :=
  during (.acceptEvent (down 2 100)) 7 ++ during (.acceptTime 300) 9 ++
    during (.acceptEvent (down 3 400)) 7 ++ during (.acceptEvent (up 2 420)) 7 ++
    during (.acceptEvent (down 2 440)) 6

def pressedOnce : List (Act TestEvent Nat) :=
  during (.acceptEvent (down 2 100)) 7 ++ during (.acceptTime 300) 9 ++
    during (.acceptEvent (down 3 400)) 7 ++ during (.acceptEvent (up 2 420)) 7

theorem keystrokes_kept_once : ∃ s,
    runs (Sys.step testSetup) (Sys.create (Triqueue.create 100)) pressedOnce = some s ∧
    s.pushed = offered pressedOnce ∧
    (s.pushed = offered pressedOnce ∧ WithinCapacity testSetup 100 pressedOnce ↔
      ∀ u e, Arrives testSetup 100 pressedOnce u e →
        u.machine.tq.buffer.size < 100 ∧ ¬ReleaseWaits testSetup u.machine e) := by
  have hs := Option.eq_some_of_isSome
    (o := runs (Sys.step testSetup) (Sys.create (Triqueue.create 100)) pressedOnce) (by decide)
  exact ⟨_, hs, by decide, keystrokes_kept (by decide) hs (by decide) (by decide)⟩

/-- The second press of key 2 is lost. -/
theorem keystroke_lost : ∃ s,
    runs (Sys.step testSetup) (Sys.create (Triqueue.create 100)) pressedAgain = some s ∧
    WithinCapacity testSetup 100 pressedAgain ∧
    Alternates testEnvironment (offered pressedAgain) ∧
    (∀ e ∈ offered pressedAgain, 1 ≤ e.key ∧ e.key ≤ testSetup.maxKeycode - 1) ∧
    (offered pressedAgain).Pairwise (fun e e' => e.time ≤ e'.time) ∧
    s.pushed = [down 2 100, down 3 400, up 2 420] ∧
    offered pressedAgain = [down 2 100, down 3 400, up 2 420, down 2 440] := by
  have hs := Option.eq_some_of_isSome
    (o := runs (Sys.step testSetup) (Sys.create (Triqueue.create 100)) pressedAgain) (by decide)
  exact ⟨_, hs, by decide, by decide, by decide, by decide, by decide, by decide⟩

end ForkNS
