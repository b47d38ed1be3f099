import Mathlib.Computability.StateTransition
import Mathlib.Data.List.Basic

/-!
# Runs of a deterministic labelled system

A system whose answer to a label is fixed is a function `step : σ → α → Option σ`; a label that
is not enabled answers `none`.

* `runs step s as`    the state after the labels `as`, read from left to right;
* `runs_inv`          what every step keeps holds after every run;
* `runs_ind`          the same for a property of the labels read so far and the state;
* `runs_follow`       a system that follows every step of another one follows its runs;
* `runs_added`        each item of a list that only grows was added by one step (`AddedAt`);
* `EachStep`          a condition that every step of a run meets, with the rule `runs_each`;
* `snoc_eq_split`     the ways to split a word with one more letter;
* `exists_done_within`  a run whose bound falls with every step is done within it;
* `exists_done_of_fair` the same where steps may wait, but not for ever; `not_done_of_stays` where
                      they do;
* `exists_eval`       a step function without labels comes to its end when a measure falls
                      (`StateTransition.eval` of Mathlib is the end of such a run);
* `respects_of_rel`   two step functions that keep a relation, and stop together, respect each other
                      (`StateTransition.Respects` of Mathlib);
* `eval_diverges`     a run that every step leads back into an invariant has no end.
-/

namespace Runs
open StateTransition

variable {σ α : Type*}

/-! ## one more label -/

/-- where a word with one more letter can be split before a letter -/
theorem snoc_eq_split {l pre post : List α} {a b : α} (h : l ++ [a] = pre ++ b :: post) :
    (l = pre ∧ a = b ∧ post = []) ∨ ∃ post', post = post' ++ [a] ∧ l = pre ++ b :: post' := by
  rcases List.eq_nil_or_concat post with rfl | ⟨post', c, rfl⟩
  · obtain ⟨hl, ha⟩ := List.append_inj' h rfl
    exact .inl ⟨hl, (List.cons.inj ha).1, rfl⟩
  · rw [List.concat_eq_append, ← List.cons_append, ← List.append_assoc] at h
    obtain ⟨hl, ha⟩ := List.append_inj' h rfl
    refine .inr ⟨post', ?_, hl⟩
    rw [List.concat_eq_append, (List.cons.inj ha).1]

/-! ## labelled runs -/

def runs (step : σ → α → Option σ) (s : σ) : List α → Option σ
  | [] => some s
  | a :: as => (step s a).bind fun t => runs step t as

theorem runs_cons (step : σ → α → Option σ) (s : σ) (a : α) (as : List α) :
    runs step s (a :: as) = (step s a).bind fun t => runs step t as := rfl

theorem runs_append (step : σ → α → Option σ) (s : σ) (as bs : List α) :
    runs step s (as ++ bs) = (runs step s as).bind fun t => runs step t bs := by
  induction as generalizing s with
  | nil => rfl
  | cons a as ih =>
    rw [List.cons_append, runs_cons, runs_cons]
    cases h : step s a with
    | none => rfl
    | some t => exact ih t

theorem runs_snoc (step : σ → α → Option σ) (s : σ) (as : List α) (a : α) :
    runs step s (as ++ [a]) = (runs step s as).bind fun t => step t a := by
  rw [runs_append]
  congr 1
  funext t
  rw [runs_cons]
  cases h : step t a <;> rfl

theorem runs_snoc_some {step : σ → α → Option σ} {s t : σ} {as : List α} {a : α} :
    runs step s (as ++ [a]) = some t ↔ ∃ u, runs step s as = some u ∧ step u a = some t := by
  rw [runs_snoc, Option.bind_eq_some_iff]

theorem runs_append_some {step : σ → α → Option σ} {s t : σ} {as bs : List α} :
    runs step s (as ++ bs) = some t ↔ ∃ u, runs step s as = some u ∧ runs step u bs = some t := by
  rw [runs_append, Option.bind_eq_some_iff]

/-- **Run rule.**  A property of the labels read so far and the state that holds at the start
and is kept by one more label holds after every run. -/
theorem runs_ind {step : σ → α → Option σ} {s : σ} {P : List α → σ → Prop} (h0 : P [] s)
    (hs : ∀ as u a v, P as u → step u a = some v → P (as ++ [a]) v) (as : List α) :
    ∀ t, runs step s as = some t → P as t := by
  induction as using List.reverseRecOn with
  | nil =>
    intro t h
    cases h
    exact h0
  | append_singleton as a ih =>
    intro t h
    obtain ⟨u, hu, ha⟩ := runs_snoc_some.mp h
    exact hs as u a t (ih u hu) ha

/-- **Invariant rule.** -/
theorem runs_inv {step : σ → α → Option σ} {s t : σ} {I : σ → Prop} (h0 : I s)
    (hs : ∀ u a v, I u → step u a = some v → I v) {as : List α} (h : runs step s as = some t) :
    I t :=
  runs_ind (P := fun _ u => I u) h0 (fun _ u a v => hs u a v) as t h

/-- **Simulation rule.**  A system that follows every step of another one, from related states to
related states, follows its runs. -/
theorem runs_follow {τ : Type*} {step : σ → α → Option σ} {step' : τ → α → Option τ}
    {R : σ → τ → Prop} (hs : ∀ s t a t', R s t → step' t a = some t' →
      ∃ s', step s a = some s' ∧ R s' t') {s : σ} {t t' : τ} (hR : R s t) {as : List α}
    (h : runs step' t as = some t') : ∃ s', runs step s as = some s' ∧ R s' t' :=
  runs_ind (P := fun as t' => ∃ s', runs step s as = some s' ∧ R s' t') ⟨s, rfl, hR⟩
    (fun _ u a v ⟨x, hx, hR⟩ ha => by
      obtain ⟨y, hy, hR'⟩ := hs x u a v hR ha
      exact ⟨y, runs_snoc_some.mpr ⟨x, hx, hy⟩, hR'⟩) as t' h

/-! ## lists that grow -/

/-- the step after the labels `pre` adds the item `i` to the list `f` of the state -/
def AddedAt {β : Type*} (step : σ → α → Option σ) (s : σ) (f : σ → List β) (as : List α) (i : ℕ)
    (pre : List α) : Prop :=
  ∃ a post u v, as = pre ++ a :: post ∧ runs step s pre = some u ∧ step u a = some v ∧
    (f u).length ≤ i ∧ i < (f v).length

theorem AddedAt.snoc {β : Type*} {step : σ → α → Option σ} {s : σ} {f : σ → List β} {as : List α}
    {i : ℕ} {pre : List α} (h : AddedAt step s f as i pre) (b : α) :
    AddedAt step s f (as ++ [b]) i pre := by
  obtain ⟨a, post, u, v, rfl, hrest⟩ := h
  exact ⟨a, post ++ [b], u, v, by simp, hrest⟩

/-- **Each item of a list that only grows** has what the step that added it gives to it. -/
theorem runs_added {β : Type*} {step : σ → α → Option σ} {s : σ} {f : σ → List β}
    {P : List α → β → Prop} (h0 : f s = [])
    (hs : ∀ as u a v, runs step s as = some u → step u a = some v →
      ∃ new, f v = f u ++ new ∧ ∀ x ∈ new, P as x) (as : List α) :
    ∀ t, runs step s as = some t → ∀ i x, (f t)[i]? = some x →
      ∃ pre, AddedAt step s f as i pre ∧ P pre x := by
  induction as using List.reverseRecOn with
  | nil =>
    intro t h i x hx
    cases h
    rw [h0] at hx
    cases hx
  | append_singleton as a ih =>
    intro t h i x hx
    obtain ⟨u, hu, ha⟩ := runs_snoc_some.mp h
    obtain ⟨new, hnew, hP⟩ := hs as u a t hu ha
    by_cases hi : i < (f u).length
    · rw [hnew, List.getElem?_append_left hi] at hx
      obtain ⟨pre, hpre, hx'⟩ := ih u hu i x hx
      exact ⟨pre, hpre.snoc a, hx'⟩
    · have hlt : i < (f t).length := (List.getElem?_eq_some_iff.mp hx).1
      refine ⟨as, ⟨a, [], u, t, rfl, hu, ha, not_lt.mp hi, hlt⟩, hP x ?_⟩
      rw [hnew, List.getElem?_append_right (not_lt.mp hi)] at hx
      exact List.mem_of_getElem? hx

/-! ## runs whose steps meet a condition -/

section
variable {step : σ → α → Option σ} {s : σ} {P : σ → α → Prop}

/-- every step that the labels lead to meets `P` -/
def EachStep (step : σ → α → Option σ) (s : σ) (P : σ → α → Prop) (as : List α) : Prop :=
  ∀ pre a post u, as = pre ++ a :: post → runs step s pre = some u → P u a

theorem EachStep.left {as bs : List α} (h : EachStep step s P (as ++ bs)) :
    EachStep step s P as := by
  rintro pre a post u rfl hu
  exact h pre a (post ++ bs) u (by simp) hu

theorem EachStep.last {as : List α} {a : α} (h : EachStep step s P (as ++ [a])) {u : σ}
    (hu : runs step s as = some u) : P u a := h as a [] u rfl hu

theorem EachStep.and {P' : σ → α → Prop} {as : List α} (h : EachStep step s P as)
    (h' : EachStep step s P' as) : EachStep step s (fun u a => P u a ∧ P' u a) as :=
  fun pre a post u has hu => ⟨h pre a post u has hu, h' pre a post u has hu⟩

theorem eachStep_iff {as : List α} : EachStep step s P as ↔ ∀ n < as.length,
    ∀ a ∈ as[n]?, ∀ u ∈ runs step s (as.take n), P u a := by
  constructor
  · intro h n hn a ha u hu
    refine h (as.take n) a (as.drop (n + 1)) u ?_ hu
    have hget : as[n] = a := by
      rw [List.getElem?_eq_getElem hn] at ha
      exact Option.some.inj ha
    rw [← hget, List.cons_getElem_drop_succ, List.take_append_drop]
  · rintro h pre a post u rfl hu
    refine h pre.length (by simp) a (by simp) u ?_
    rwa [List.take_left]

instance [∀ u a, Decidable (P u a)] (as : List α) : Decidable (EachStep step s P as) :=
  decidable_of_iff' _ eachStep_iff

/-- **Run rule under a condition.**  What every step that meets `P` keeps holds after every run
whose steps all meet `P`. -/
theorem runs_each {R : List α → σ → Prop} (h0 : R [] s)
    (hs : ∀ as u a v, runs step s as = some u → R as u → P u a → step u a = some v →
      R (as ++ [a]) v) {as : List α} (he : EachStep step s P as) {t : σ}
    (h : runs step s as = some t) : R as t := by
  induction as using List.reverseRecOn generalizing t with
  | nil =>
    cases h
    exact h0
  | append_singleton as a ih =>
    obtain ⟨u, hu, ha⟩ := runs_snoc_some.mp h
    exact hs as u a t hu (ih he.left hu) (he.last hu) ha

end

/-! ## runs to the end -/

variable {f : σ → Option σ}

theorem runs_range_succ {step : σ → α → Option σ} {as : ℕ → α} {s u v : σ} {n : ℕ}
    (hu : runs step s ((List.range n).map as) = some u) (hv : step u (as n) = some v) :
    runs step s ((List.range (n + 1)).map as) = some v := by
  rw [List.range_succ, List.map_append]
  exact runs_snoc_some.mpr ⟨u, hu, hv⟩

/-- **Bound rule.**  Where every step that is not done can be done, and lowers the bound `k`, the
run is done after at most `k` labels. -/
theorem exists_done_within {step : σ → α → Option σ} {I : ℕ → σ → Prop} {done : σ → Prop}
    {as : ℕ → α} (hs : ∀ i k s, I k s → done s ∨ ∃ k' s', step s (as i) = some s' ∧ k' < k ∧
      I k' s') {k : ℕ} {s : σ} (hI : I k s) :
    ∃ n ≤ k, ∃ s', runs step s ((List.range n).map as) = some s' ∧ done s' := by
  have hgo : ∀ n, (∃ m ≤ k, ∃ s', runs step s ((List.range m).map as) = some s' ∧ done s') ∨
      ∃ k' s', runs step s ((List.range n).map as) = some s' ∧ k' + n ≤ k ∧ I k' s' := by
    intro n
    induction n with
    | zero => exact .inr ⟨k, s, rfl, le_refl k, hI⟩
    | succ n ih =>
      rcases ih with hdone | ⟨k', u, hu, hk, hIu⟩
      · exact .inl hdone
      rcases hs n k' u hIu with hdone | ⟨k'', v, hv, hlt, hIv⟩
      · exact .inl ⟨n, by omega, u, hu, hdone⟩
      · exact .inr ⟨k'', v, runs_range_succ hu hv, by omega, hIv⟩
  rcases hgo (k + 1) with hdone | ⟨k', -, -, hk, -⟩
  · exact hdone
  · omega

/-- **Bound rule with W.**  Where every step that is not done lowers the bound or waits, and no
wait lasts for ever, the run is done after some labels. -/
theorem exists_done_of_fair {step : σ → α → Option σ} {I : ℕ → σ → Prop} {W : ℕ → σ → Prop}
    {D : σ → Prop} {as : ℕ → α}
    (hs : ∀ i k s, I k s → D s ∨ ∃ k' s', step s (as i) = some s' ∧ I k' s' ∧
      (k' < k ∨ W i s ∧ k' = k)) {s₀ : σ}
    (hfair : ∀ i s, runs step s₀ ((List.range i).map as) = some s → W i s →
      ∃ j ≥ i, ∀ t, runs step s₀ ((List.range j).map as) = some t → ¬W j t)
    {k : ℕ} (hI : I k s₀) : ∃ n s', runs step s₀ ((List.range n).map as) = some s' ∧ D s' := by
  have hgo : ∀ k n s, runs step s₀ ((List.range n).map as) = some s → I k s →
      ∃ n s', runs step s₀ ((List.range n).map as) = some s' ∧ D s' := by
    intro k
    induction k using Nat.strong_induction_on with
    | h k ih =>
      -- it stays at the bound `k` for `d` labels at most
      have hstay : ∀ d n s, runs step s₀ ((List.range n).map as) = some s → I k s →
          (∀ t, runs step s₀ ((List.range (n + d)).map as) = some t → ¬W (n + d) t) →
          ∃ n s', runs step s₀ ((List.range n).map as) = some s' ∧ D s' := by
        intro d
        induction d with
        | zero =>
          intro n s hrun hIs hno
          rcases hs n k s hIs with hdone | ⟨k', s', hstep, hI', hlt | ⟨hwait, -⟩⟩
          · exact ⟨n, s, hrun, hdone⟩
          · exact ih k' hlt (n + 1) s' (runs_range_succ hrun hstep) hI'
          · exact absurd hwait (hno s hrun)
        | succ d ihd =>
          intro n s hrun hIs hno
          rcases hs n k s hIs with hdone | ⟨k', s', hstep, hI', hlt | ⟨-, rfl⟩⟩
          · exact ⟨n, s, hrun, hdone⟩
          · exact ih k' hlt (n + 1) s' (runs_range_succ hrun hstep) hI'
          · refine ihd (n + 1) s' (runs_range_succ hrun hstep) hI' ?_
            rwa [Nat.add_assoc, Nat.add_comm 1 d]
      intro n s hrun hIs
      by_cases hwait : W n s
      · obtain ⟨j, hj, hno⟩ := hfair n s hrun hwait
        refine hstay (j - n) n s hrun hIs ?_
        rwa [Nat.add_sub_cancel' hj]
      · refine hstay 0 n s hrun hIs fun t ht => ?_
        rw [Nat.add_zero, hrun] at ht
        cases ht
        exact hwait
  exact hgo k 0 s₀ rfl hI

/-- a run that is not done, and that every further step leaves so, is never done -/
theorem not_done_of_stays {step : σ → α → Option σ} {J D : σ → Prop} {as : ℕ → α} {n : ℕ}
    (hs : ∀ i ≥ n, ∀ s, J s → ∃ s', step s (as i) = some s' ∧ J s')
    (hJ : ∀ s, J s → ¬D s) (hend : ∀ s i, D s → step s (as i) = none) {s₀ s : σ}
    (hrun : runs step s₀ ((List.range n).map as) = some s) (hn : J s) {m : ℕ} {t : σ}
    (ht : runs step s₀ ((List.range m).map as) = some t) : ¬D t := by
  intro hdone
  by_cases hm : m < n
  · -- the run goes on from a state that is done
    obtain ⟨d, rfl⟩ := Nat.exists_eq_add_of_lt hm
    rw [Nat.add_assoc, List.range_add, List.map_append, List.range_succ_eq_map] at hrun
    obtain ⟨u, hu, hgo⟩ := runs_append_some.mp hrun
    cases ht.symm.trans hu
    rw [List.map_cons, List.map_cons, runs_cons, hend t _ hdone] at hgo
    cases hgo
  · have hstay : ∀ d, ∃ u, runs step s₀ ((List.range (n + d)).map as) = some u ∧ J u := by
      intro d
      induction d with
      | zero => exact ⟨s, hrun, hn⟩
      | succ d ih =>
        obtain ⟨u, hu, hJu⟩ := ih
        obtain ⟨v, hv, hJv⟩ := hs (n + d) (Nat.le_add_right n d) u hJu
        exact ⟨v, runs_range_succ hu hv, hJv⟩
    obtain ⟨u, hu, hJu⟩ := hstay (m - n)
    rw [Nat.add_sub_cancel' (not_lt.mp hm), ht] at hu
    cases hu
    exact hJ t hJu hdone

/-- what is reached by one label again and again is reached by a run -/
theorem exists_runs_of_reaches {step : σ → α → Option σ} {a : α} {s t : σ}
    (h : Reaches (fun u => step u a) s t) : ∃ n, runs step s (List.replicate n a) = some t := by
  induction h with
  | refl => exact ⟨0, rfl⟩
  | tail _ hut ih =>
    obtain ⟨n, hn⟩ := ih
    refine ⟨n + 1, ?_⟩
    rw [List.replicate_succ']
    exact runs_snoc_some.mpr ⟨_, hn, hut⟩

theorem reaches_inv {I : σ → Prop} (hs : ∀ a b, I a → f a = some b → I b) {a b : σ}
    (h : Reaches f a b) (ha : I a) : I b := by
  induction h with
  | refl => exact ha
  | tail _ hbc ih => exact hs _ _ ih hbc

/-- **Termination rule.**  Where an invariant holds and every step lowers a measure, the run
has an end. -/
theorem exists_eval {ι : Type*} {r : ι → ι → Prop} (wf : WellFounded r) (μ : σ → ι)
    {I : σ → Prop} (hs : ∀ a b, I a → f a = some b → I b ∧ r (μ b) (μ a)) (a : σ) (ha : I a) :
    ∃ b, b ∈ eval f a := by
  induction hx : μ a using wf.induction generalizing a with
  | _ x ih =>
    subst hx
    cases hf : f a with
    | none => exact ⟨a, mem_eval.mpr ⟨.refl, hf⟩⟩
    | some b =>
      obtain ⟨hb, hr⟩ := hs a b ha hf
      obtain ⟨c, hc⟩ := ih (μ b) hr b hb rfl
      exact ⟨c, by rwa [reaches_eval (Relation.ReflTransGen.single hf)]⟩

theorem eval_step {a b : σ} (h : f a = some b) : eval f a = eval f b :=
  reaches_eval (Relation.ReflTransGen.single h)

theorem eval_halted {a : σ} (h : f a = none) : a ∈ eval f a :=
  mem_eval.mpr ⟨.refl, h⟩

/-! ## two systems that step alike -/

section
variable {τ : Type*} {g : τ → Option τ} {R : σ → τ → Prop}

theorem respects_of_rel (h : ∀ a b, R a b → Option.Rel R (f a) (g b)) : Respects f g R := by
  intro a b hab
  have hrel := h a b hab
  rcases hf : f a with - | x <;> rcases hg : g b with - | y
  · rfl
  · rw [hf, hg] at hrel
    cases hrel
  · rw [hf, hg] at hrel
    cases hrel
  · rw [hf, hg] at hrel
    cases hrel with
    | some hxy => exact ⟨y, hxy, .single hg⟩

theorem respects_of_rel_swap (h : ∀ a b, R a b → Option.Rel R (f a) (g b)) :
    Respects g f fun b a => R a b := by
  intro b a hab
  have hrel := h a b hab
  rcases hf : f a with - | x <;> rcases hg : g b with - | y
  · rfl
  · rw [hf, hg] at hrel
    cases hrel
  · rw [hf, hg] at hrel
    cases hrel
  · rw [hf, hg] at hrel
    cases hrel with
    | some hxy => exact ⟨x, hxy, .single hf⟩

end

/-- **Divergence rule.**  Where every step leads back into an invariant there is no end. -/
theorem eval_diverges {I : σ → Prop} (hs : ∀ a, I a → ∃ b, f a = some b ∧ I b) {a : σ} (ha : I a)
    (b : σ) : b ∉ eval f a := by
  intro hb
  obtain ⟨hab, hn⟩ := mem_eval.mp hb
  have hI : I b := reaches_inv (fun c d hc hcd => by
    obtain ⟨d', hd', hI⟩ := hs c hc
    cases hcd.symm.trans hd'
    exact hI) hab ha
  obtain ⟨c, hc, -⟩ := hs b hI
  rw [hn] at hc
  cases hc

end Runs
