import ForkPlugin.Machine.Setup
import Mathlib.Data.List.Basic

/-!
# Streams of events

* `isDown`       a key is down after a stream: its last event is a press;
* `Alternates`   the events of each key are press, release, press and so on, from a press on.
-/

namespace ForkNS

variable {E Time : Type} (env : Environment E Time)

def isDown (es : List E) (k : Keycode) : Bool :=
  es.foldl (fun d e =>
    if env.detailOf e = k then
      if env.pressP e then true else if env.releaseP e then false else d
    else d) false

/-- a press of a key that is up, or a release of a key that is down -/
def FitsAfter (past : List E) (e : E) : Prop :=
  (env.pressP e → isDown env past (env.detailOf e) = false) ∧
  (env.releaseP e → isDown env past (env.detailOf e) = true)

instance (past : List E) (e : E) : Decidable (FitsAfter env past e) :=
  inferInstanceAs (Decidable (_ ∧ _))

/-- the events `es` alternate, when they come after `past` -/
def alternatesFrom : List E → List E → Prop
  | _, [] => True
  | past, e :: es => FitsAfter env past e ∧ alternatesFrom (past ++ [e]) es

def Alternates (es : List E) : Prop := alternatesFrom env [] es

instance alternatesFrom.decidable : (past es : List E) → Decidable (alternatesFrom env past es)
  | _, [] => isTrue trivial
  | past, e :: es =>
    have := alternatesFrom.decidable (past ++ [e]) es
    inferInstanceAs (Decidable (_ ∧ _))

instance (es : List E) : Decidable (Alternates env es) :=
  inferInstanceAs (Decidable (alternatesFrom env [] es))

variable {env}

theorem alternatesFrom_append {past es es' : List E} :
    alternatesFrom env past (es ++ es') ↔
      alternatesFrom env past es ∧ alternatesFrom env (past ++ es) es' := by
  induction es generalizing past with
  | nil => simp [alternatesFrom]
  | cons e es ih =>
    rw [List.cons_append, alternatesFrom, alternatesFrom, ih, and_assoc, List.append_assoc,
      List.singleton_append]

theorem alternates_snoc {es : List E} {e : E} :
    Alternates env (es ++ [e]) ↔ Alternates env es ∧ FitsAfter env es e := by
  rw [Alternates, alternatesFrom_append, List.nil_append]
  simp [alternatesFrom, Alternates]

/-- each event fits those before it -/
theorem alternates_split {before after : List E} {e : E}
    (h : Alternates env (before ++ e :: after)) :
    Alternates env before ∧ FitsAfter env before e := by
  obtain ⟨hbefore, hfits, -⟩ := alternatesFrom_append.mp h
  exact ⟨hbefore, hfits⟩

theorem isDown_snoc (es : List E) (e : E) (k : Keycode) :
    isDown env (es ++ [e]) k =
      if env.detailOf e = k then
        if env.pressP e then true else if env.releaseP e then false else isDown env es k
      else isDown env es k := by
  rw [isDown, List.foldl_append]
  rfl

theorem isDown_press {es : List E} {e : E} (hp : env.pressP e = true) :
    isDown env (es ++ [e]) (env.detailOf e) = true := by
  rw [isDown_snoc, if_pos rfl, if_pos hp]

theorem isDown_other {es : List E} {e : E} {k : Keycode} (h : env.detailOf e ≠ k) :
    isDown env (es ++ [e]) k = isDown env es k := by
  rw [isDown_snoc, if_neg h]

/-- a key stays down until it is released -/
theorem isDown_kept {es : List E} {e : E} {k : Keycode} (hd : isDown env es k = true)
    (hr : ¬(env.releaseP e = true ∧ env.detailOf e = k)) : isDown env (es ++ [e]) k = true := by
  rw [isDown_snoc]
  split_ifs with hk _ hr'
  · rfl
  · exact absurd ⟨hr', hk⟩ hr
  · exact hd
  · exact hd

/-- a press that fits is of a key that is up -/
theorem FitsAfter.press_other {es : List E} {e : E} {k : Keycode} (h : FitsAfter env es e)
    (hd : isDown env es k = true) (hp : env.pressP e = true) : env.detailOf e ≠ k := by
  rintro rfl
  rw [h.1 hp] at hd
  cases hd

/-- a key goes up by a release only -/
theorem exists_release {es l : List E} {k : Keycode} (hd : isDown env es k = true)
    (hu : isDown env (es ++ l) k = false) :
    ∃ e ∈ l, env.releaseP e = true ∧ env.detailOf e = k := by
  induction l generalizing es with
  | nil => simp [hd] at hu
  | cons e l ih =>
    rw [← List.singleton_append, ← List.append_assoc] at hu
    by_cases hr : env.releaseP e = true ∧ env.detailOf e = k
    · exact ⟨e, List.mem_cons_self, hr⟩
    obtain ⟨x, hx, h⟩ := ih (isDown_kept hd hr) hu
    exact ⟨x, List.mem_cons_of_mem e hx, h⟩

end ForkNS
