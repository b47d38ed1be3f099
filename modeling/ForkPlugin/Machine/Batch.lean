import ForkPlugin.Machine.Sends

/-!
# The machine in one go

What a run comes to does not depend on where it was frozen or woken.

* `feed m es`      the machine `m` with more input, its clock cleared;
* `batchStep S T`  one iteration that is never frozen; without input it decides by the time `T`;
* `Fits`           every timer is at most the times of the later events;
* `SameEnd`        from the view of a run, with any later input that its timers fit, the
                   uninterrupted machine comes to the same end as from a fresh machine with the
                   whole input; every run keeps it (`sameEnd_run`);
* `EndsAt`         how a run is ended by an unfrozen `accept_time(T)`;
* `batch_end`      there it is at that end.
-/

namespace ForkNS

open Runs Machine StateTransition

variable {E Time : Type}

/-! ## the uninterrupted machine -/

namespace Machine

def feed [Zero Time] (m : ListMachine E Time) (es : List E) : ListMachine E Time :=
  m.framed [] es 0

variable [LinearOrder Time] [Add Time] [Zero Time] [NatCast Time] (S : Setup E Time)

def batchStep (T : Time) (m : ListMachine E Time) : Option (ListMachine E Time) :=
  match m.tq.inp with
  | e :: _ => some (m.enact S e (m.verdict S e))
  | [] => if m.state ≠ .normal ∧ m.mDecisionTime ≤ T then some (m.forkHead S) else none

variable {S}

theorem batchStep_cons {T : Time} {m : ListMachine E Time} {e : E} {rest : List E}
    (hi : m.tq.inp = e :: rest) : batchStep S T m = some (m.enact S e (m.verdict S e)) := by
  rw [batchStep, hi]

theorem batchStep_late {T : Time} {m : ListMachine E Time} (hi : m.tq.inp = [])
    (hs : m.state ≠ .normal) (hd : m.mDecisionTime ≤ T) :
    batchStep S T m = some (m.forkHead S) := by
  rw [batchStep, hi]
  exact if_pos ⟨hs, hd⟩

theorem batchStep_none {T : Time} {m : ListMachine E Time} (hi : m.tq.inp = [])
    (hs : m.state ≠ .normal → T < m.mDecisionTime) : batchStep S T m = none := by
  rw [batchStep, hi]
  refine if_neg ?_
  rintro ⟨hn, hd⟩
  exact absurd hd (not_le.mpr (hs hn))

omit [Zero Time] [NatCast Time] in
/-- an event at or after the deadline forks the suspect, in one of the two branches that do -/
theorem verdict_late {m : ListMachine E Time} {e : E} (hs : m.state ≠ .normal)
    (hd : m.mDecisionTime ≤ S.env.timeOf e) : m.verdict S e = .forkHead := by
  simp only [verdict, if_neg hs, ge_iff_le, if_pos hd]
  exact ite_self _

theorem feed_enact {m : ListMachine E Time} {e : E} {rest : List E} (hi : m.tq.inp = e :: rest)
    (T : Time) (es : List E) :
    batchStep S T (m.feed es) = some ((m.enact S e (m.verdict S e)).feed es) := by
  have hi' : (m.feed es).tq.inp = e :: (rest ++ es) := by simp [feed, framed, hi]
  rw [batchStep_cons hi', feed, feed, ← enact_framed S [] es 0 (by simp [hi])]
  rfl

/-- a fork that is due is found by the uninterrupted machine too -/
theorem feed_forkHead {m : ListMachine E Time} (hi : m.tq.inp = []) (hs : m.state ≠ .normal)
    {T : Time} {es : List E} (hT : m.mDecisionTime ≤ T)
    (hes : ∀ e ∈ es, m.mDecisionTime ≤ S.env.timeOf e) :
    batchStep S T (m.feed es) = some ((m.forkHead S).feed es) := by
  have hf : (m.forkHead S).feed es = (m.feed es).forkHead S := (forkHead_framed S [] es 0).symm
  rw [hf]
  cases es with
  | nil => exact batchStep_late (by simp [feed, framed, hi]) hs hT
  | cons e es =>
    have hi' : (m.feed (e :: es)).tq.inp = e :: es := by simp [feed, framed, hi]
    have hv : (m.feed (e :: es)).verdict S e = .forkHead :=
      verdict_late (m := m.feed (e :: es)) hs (hes e List.mem_cons_self)
    rw [batchStep_cons hi', hv]
    rfl

end Machine

/-! ## timers -/

/-- the times of the calls of `accept_time`, in order -/
def timers (acts : List (Act E Time)) : List Time :=
  acts.filterMap fun
    | .call (.acceptTime now) => some now
    | _ => none

theorem timers_append (acts acts' : List (Act E Time)) :
    timers (acts ++ acts') = timers acts ++ timers acts' := List.filterMap_append

section
variable [LinearOrder Time] [Add Time] [Zero Time] [NatCast Time] (S : Setup E Time)

/-- no confirmation, and every timer at most `T` and the times of all later events -/
structure Fits (T : Time) (acts : List (Act E Time)) : Prop where
  noForce : .call .acceptConfirmation ∉ acts
  beforeEnd : ∀ t ∈ timers acts, t ≤ T
  beforeEvents : ∀ pre e post, acts = pre ++ .call (.acceptEvent e) :: post →
    ∀ t ∈ timers pre, t ≤ S.env.timeOf e

variable {S}

omit [Add Time] [Zero Time] [NatCast Time] in
theorem Fits.left {T : Time} {acts acts' : List (Act E Time)} (h : Fits S T (acts ++ acts')) :
    Fits S T acts where
  noForce hmem := h.noForce (List.mem_append_left _ hmem)
  beforeEnd t ht := h.beforeEnd t (by rw [timers_append]; exact List.mem_append_left _ ht)
  beforeEvents pre e post heq :=
    h.beforeEvents pre e (post ++ acts') (by rw [heq, List.append_assoc, List.cons_append])

/-- the view `m` comes to the same end as a fresh machine with all input, whatever input is still
to come -/
def SameEnd (S : Setup E Time) (T : Time) (acts : List (Act E Time)) (es : List E)
    (m : ListMachine E Time) : Prop :=
  (m.mCurrentTime = 0 ∨ m.mCurrentTime ∈ timers acts) ∧
  ∀ rest, (∀ t ∈ timers acts, ∀ e ∈ rest, t ≤ S.env.timeOf e) →
    eval (batchStep S T) ((create .nil).feed (es ++ rest)) = eval (batchStep S T) (m.feed rest)

theorem SameEnd.mono {T : Time} {acts : List (Act E Time)} {es : List E} {m : ListMachine E Time}
    (h : SameEnd S T acts es m) (a : Act E Time) : SameEnd S T (acts ++ [a]) es m := by
  rw [SameEnd, timers_append]
  refine ⟨h.1.imp id (List.mem_append_left _), ?_⟩
  intro rest hrest
  exact h.2 rest fun t ht => hrest t (List.mem_append_left _ ht)

/-- Every move keeps the end. -/
theorem SameEnd.move {T : Time} {acts : List (Act E Time)} {es es' : List E}
    {m m' : ListMachine E Time} {a : Act E Time} {f : Bool} (h : SameEnd S T acts es m)
    (hfit : Fits S T (acts ++ [a])) (hf : f = true → Act.call .acceptConfirmation ∈ acts)
    (hmove : Move S a f m es' m') : SameEnd S T (acts ++ [a]) (es ++ es') m' := by
  have hmono := h.mono a
  have hleft := hfit.left
  have hfork : ∀ {c : Time}, c ∈ timers acts → m.tq.inp = [] → m.state ≠ .normal →
      m.mDecisionTime ≤ c → ∀ rest, (∀ t ∈ timers (acts ++ [a]), ∀ e ∈ rest, t ≤ S.env.timeOf e) →
      eval (batchStep S T) (m.feed rest) = eval (batchStep S T) ((m.forkHead S).feed rest) := by
    intro c hc hi hs hd rest hrest
    have hc' : c ∈ timers (acts ++ [a]) := by
      rw [timers_append]
      exact List.mem_append_left _ hc
    refine eval_step (feed_forkHead hi hs (le_trans hd (hleft.beforeEnd c hc)) ?_)
    intro e he
    exact le_trans hd (hrest c hc' e he)
  cases hmove with
  | still =>
    rw [List.append_nil]
    exact hmono
  | clock c hc =>
    rw [List.append_nil]
    refine ⟨?_, hmono.2⟩
    rcases hc with rfl | rfl
    · exact .inl rfl
    · right
      rw [timers_append]
      exact List.mem_append_right _ List.mem_cons_self
  | push e ha =>
    subst ha
    refine ⟨.inl rfl, ?_⟩
    intro rest hrest
    have hfeed : m.feed (e :: rest) = ({ m with
        mCurrentTime := 0, tq := ⟨m.tq.out, m.tq.mid, m.tq.inp ++ [e]⟩ } :
        ListMachine E Time).feed rest := by
      simp [feed, framed]
    rw [List.append_assoc, List.singleton_append, ← hfeed]
    refine h.2 (e :: rest) ?_
    intro t ht e' he'
    rcases List.mem_cons.mp he' with rfl | he'
    · exact hfit.beforeEvents acts e' [] rfl t ht
    · exact hrest t (by rw [timers_append]; exact List.mem_append_left _ ht) e' he'
  | key e more hi =>
    rw [List.append_nil]
    refine ⟨?_, ?_⟩
    · rw [enact_mCurrentTime]
      exact hmono.1
    · intro rest hrest
      rw [hmono.2 rest hrest]
      exact eval_step (feed_enact hi T rest)
  | time hi hs hc hd =>
    rw [List.append_nil]
    refine ⟨?_, ?_⟩
    · rw [forkHead_mCurrentTime]
      exact hmono.1
    · intro rest hrest
      rw [hmono.2 rest hrest]
      exact hfork (h.1.resolve_left hc) hi hs hd rest hrest
  | force hforce => exact absurd (hf hforce) hleft.noForce

/-- **A run is the uninterrupted machine, so far.** -/
theorem sameEnd_run {T : Time} {acts : List (Act E Time)} {s : Sys (ThreeLists E) E Time}
    (h : runs (Sys.step S) (Sys.create .nil) acts = some s) (hfit : Fits S T acts) :
    SameEnd S T acts s.pushed s.view :=
  (Sys.view_ind (P := fun acts es m => Fits S T acts → SameEnd S T acts es m)
    (fun _ => ⟨.inl rfl, fun _ _ => rfl⟩)
    (fun _ _ _ _ _ _ _ hf _ ih hmove hfit => (ih hfit.left).move hfit hf hmove) h).2 hfit

/-! ## the last call -/

omit [Add Time] [Zero Time] [NatCast Time] in
theorem Fits.snoc {T : Time} {acts : List (Act E Time)} {a : Act E Time} (h : Fits S T acts)
    (hforce : a ≠ .call .acceptConfirmation) (htimer : ∀ t ∈ timers [a], t ≤ T)
    (hevent : ∀ e, a ≠ .call (.acceptEvent e)) : Fits S T (acts ++ [a]) where
  noForce hmem := by
    rcases List.mem_append.mp hmem with hmem | hmem
    · exact h.noForce hmem
    · exact hforce (List.mem_singleton.mp hmem).symm
  beforeEnd t ht := by
    rw [timers_append] at ht
    exact (List.mem_append.mp ht).elim (h.beforeEnd t) (htimer t)
  beforeEvents pre e post heq := by
    rcases snoc_eq_split heq with ⟨-, he, -⟩ | ⟨post', -, hl⟩
    · exact absurd he (hevent e)
    · exact h.beforeEvents pre e post' hl

omit [Add Time] [Zero Time] [NatCast Time] in
theorem Fits.last {T : Time} {acts : List (Act E Time)} (h : Fits S T acts) (n : ℕ) :
    Fits S T (acts ++ .call (.acceptTime T) :: List.replicate n (.tick false)) := by
  induction n with
  | zero => exact h.snoc (by simp) (by simp [timers]) (by simp)
  | succ n ih =>
    rw [List.replicate_succ', ← List.cons_append, ← List.append_assoc]
    exact ih.snoc (by simp) (by simp [timers]) (by simp)

/-- from the queue `q` the run `acts`, and then `accept_time(T)`, the output not frozen, has come
to its end in `s` -/
def EndsAt {Q : Type} [TriqueueOps Q E] (S : Setup E Time) (q : Q) (acts : List (Act E Time))
    (T : Time) (s : Sys Q E Time) : Prop :=
  s.control = .idle ∧ ∃ n, runs (Sys.step S) (Sys.create q)
    (acts ++ .call (.acceptTime T) :: List.replicate n (.tick false)) = some s

/-- nothing more can be decided by the time `T` -/
def AtEnd (T : Time) (m : ListMachine E Time) : Prop :=
  m.tq.inp = [] ∧ (m.state ≠ .normal → T < m.mDecisionTime)

/-- where an unfrozen `accept_time(T)` is on its way -/
def Settling (T : Time) (m : ListMachine E Time) : Control E Time → Prop
  | .runAutomaton f | .automatonLoop f => f = false ∧ m.mCurrentTime = T
  | .flushLoop _ | .relayEvent _ _ => AtEnd T m
  | .flushEnd _ | .pushTime _ _ | .nextDecisionTime | .idle => AtEnd T m ∧ m.tq.out = []
  | .relock => False

omit [Add Time] [NatCast Time] [Zero Time] in
theorem settling_afterAutomaton {T : Time} {m : ListMachine E Time} (h : AtEnd T m)
    (ho : m.tq.out = []) (f : Bool) : Settling T m (afterAutomaton f) := by
  cases f
  · exact ⟨h, ho⟩
  · exact ⟨h, ho⟩

theorem settling_start {T : Time} {u s : Sys (ThreeLists E) E Time}
    (hcur : u.machine.mCurrentTime ≤ T) (h : u.step S (.call (.acceptTime T)) = some s) :
    Settling T s.machine s.control := by
  obtain ⟨-, rfl⟩ := Sys.step_call h
  show Settling T (acceptTime u.machine T).machine (acceptTime u.machine T).control
  rw [acceptTime, if_neg (not_lt.mpr hcur)]
  exact ⟨rfl, rfl⟩

theorem Settling.tick {T : Time} {m : ListMachine E Time} {c : Control E Time}
    {x : Effect (ThreeLists E) E Time} (hm : Sound S m)
    (hT : T = 0 → m.tq.inp = [] → m.state = .normal) (h : Settling T m c)
    (hx : Tick S m false c x) : Settling T x.machine x.control := by
  cases hx with
  | runAutomaton _ f => exact h
  | body f =>
    obtain ⟨rfl, hc⟩ := h
    rcases automatonBody_cases hm false with ⟨e, rest, hi, hb⟩ | ⟨hi, hs, -, hb⟩ | ⟨hi, hs, hb⟩
    · rw [hb]
      exact ⟨rfl, (enact_mCurrentTime S m e _).trans hc⟩
    · rw [hb]
      exact ⟨rfl, (forkHead_mCurrentTime S m).trans hc⟩
    · rw [hb]
      refine ⟨hi, ?_⟩
      intro hn
      rw [hc] at hs
      exact (hs hn).2 fun hz => hn (hT hz hi)
  | pop f e out ho => exact h
  | popNone f ho => exact ⟨h, ho⟩
  | relay _ f e => exact h
  | endTime f c now hc => exact h
  | endNone f c hc => exact settling_afterAutomaton (m := { m with mCurrentTime := c }) h.1 h.2 f
  | pushTime _ f now => exact settling_afterAutomaton h.1 h.2 f
  | nextDecisionTime => exact h
  | relock => exact absurd h id

/-- **The end of a run.**  A run that ends with an unfrozen `accept_time(T)` has relayed all its
output, and is where the uninterrupted machine ends. -/
theorem batch_end {T : Time} {acts : List (Act E Time)} {s : Sys (ThreeLists E) E Time}
    (h : EndsAt S ThreeLists.nil acts T s) (hfit : Fits S T acts) (h0 : 0 ≤ T)
    (hT : T = 0 → s.pushed = []) :
    s.machine.tq.out = [] ∧
      s.view.feed [] ∈ eval (batchStep S T) ((create .nil).feed s.pushed) := by
  obtain ⟨hidle, n, h⟩ := h
  have hsettle : ∀ n s, runs (Sys.step S) (Sys.create .nil)
      (acts ++ .call (.acceptTime T) :: List.replicate n (.tick false)) = some s →
      (T = 0 → s.pushed = []) → Settling T s.machine s.control := by
    intro n
    induction n with
    | zero =>
      intro s h hT
      obtain ⟨u, hu, hcall⟩ := runs_snoc_some.mp h
      have hcur : u.machine.mCurrentTime ≤ T := by
        rcases (sameEnd_run hu hfit).1 with hz | hmem
        · exact le_trans (le_of_eq hz) h0
        · exact hfit.beforeEnd _ hmem
      exact settling_start hcur hcall
    | succ n ih =>
      intro s h hT
      rw [List.replicate_succ', ← List.cons_append, ← List.append_assoc] at h
      obtain ⟨u, hu, hstep⟩ := runs_snoc_some.mp h
      obtain ⟨x, hx, rfl⟩ := Sys.unfrozen_cases hstep
      have hpu : T = 0 → u.pushed = [] := fun hz => (List.append_eq_nil_iff.mp (hT hz)).1
      have hsu := runs_sound hu
      refine (ih u hu hpu).tick hsu ?_ hx
      intro hz _
      -- nothing was pushed, so nothing is in line
      obtain ⟨sent, hsent⟩ := Sys.pushed_line hu
      rw [hpu hz] at hsent
      have hline := (List.append_eq_nil_iff.mp hsent.symm).2
      exact hsu.coherent.normal_iff.mpr (List.append_eq_nil_iff.mp hline).1
  have hend := hsettle n s h hT
  rw [hidle] at hend
  obtain ⟨⟨hi, hs⟩, ho⟩ := hend
  have hsame := (sameEnd_run h (hfit.last n)).2 [] (by simp)
  rw [List.append_nil] at hsame
  rw [hsame]
  refine ⟨ho, eval_halted (batchStep_none ?_ hs)⟩
  simp [feed, framed, Sys.view, hi]

end

end ForkNS
