import ForkPlugin.Queue.Refine

/-!
# A full queue

`triqueue_t` takes its buffer with `always_accept_data_when_full = false`: "Set to false, the new
data is not added".  `push_back` then leaves the array alone, but it goes on to `increment_tail`.

* `execBounded`     what is documented: the three lists, where a `push` beyond the capacity adds
                    nothing;
* `Rejects`         the ring answers what these lists answer, and stands for them all along;
* `NeverFull`       no `push` finds `c` items;
* `rejects_iff`     the one holds exactly when the other does;
* `yields_pushes`   then what is popped are the first pushed items, in order.
-/

namespace ForkNS

variable {α : Type}

/-- one operation of a queue that rejects what does not fit -/
def execBounded (c : Nat) (l : ThreeLists α) : Op α → Answer α × ThreeLists α
  | .push x => (.unit, if l.all.length < c then TriqueueOps.push l x else l)
  | op => exec l op

def Op.called (l : ThreeLists α) : Op α → Prop
  | .push _ => True
  | op => op.ok 0 l

def opsCalled (c : Nat) : ThreeLists α → List (Op α) → Prop
  | _, [] => True
  | l, op :: ops => op.called l ∧ opsCalled c (execBounded c l op).2 ops

def Op.pushed : Op α → List α
  | .push x => [x]
  | _ => []

def Op.writes : Op α → Prop
  | .writeHead _ | .writeMiddle _ | .writeThird _ => True
  | _ => False

section
variable {Q : Type} [TriqueueOps Q α]

def Op.popped (q : Q) : Op α → List α
  | .pop => (TriqueueOps.pop q).1.toList
  | _ => []

def yields (q : Q) : List (Op α) → List α
  | [] => []
  | op :: ops => op.popped q ++ yields (exec q op).2 ops

end

namespace Triqueue

/-- the ring answers what the bounded lists answer, and stands for them all along -/
def Rejects (c : Nat) : Triqueue α → ThreeLists α → List (Op α) → Prop
  | q, l, [] => Rep c q l
  | q, l, op :: ops => Rep c q l ∧ (exec q op).1 = (execBounded c l op).1 ∧
      Rejects c (exec q op).2 (execBounded c l op).2 ops

def NeverFull (c : Nat) : Triqueue α → List (Op α) → Prop
  | _, [] => True
  | q, op :: ops => (∀ x, op = .push x → q.buffer.size < c) ∧ NeverFull c (exec q op).2 ops

theorem Rejects.rep {c : Nat} {q : Triqueue α} {l : ThreeLists α} {ops : List (Op α)}
    (h : Rejects c q l ops) : Rep c q l := by
  cases ops with
  | nil => exact h
  | cons op ops => exact h.1

theorem exec_bounded {c : Nat} {q : Triqueue α} {l : ThreeLists α} (H : Rep c q l) {op : Op α}
    (hcalled : op.called l) (hroom : ∀ x, op = .push x → q.buffer.size < c) :
    op.ok c l ∧ execBounded c l op = exec l op := by
  cases op with
  | push x =>
    have hlt : l.all.length < c := by
      rw [← H.holds.size]
      exact hroom x rfl
    refine ⟨hlt, ?_⟩
    rw [execBounded, if_pos hlt]
    rfl
  | _ => exact ⟨hcalled, rfl⟩

/-- **A full queue rejects cleanly exactly when it is never asked to.**  The induction is on the
operations, from any ring that stands for its lists. -/
theorem rejects_iff {c : Nat} (ops : List (Op α)) :
    ∀ {q : Triqueue α} {l : ThreeLists α}, Rep c q l → opsCalled c l ops →
      (Rejects c q l ops ↔ NeverFull c q ops) := by
  induction ops with
  | nil =>
    intro q l H _
    exact iff_of_true H trivial
  | cons op ops ih =>
    intro q l H hcalled
    constructor
    · rintro ⟨-, -, hrest⟩
      have hroom : ∀ x, op = .push x → q.buffer.size < c := by
        rintro x rfl
        -- after the push the ring stands for lists that fit
        have hfits := hrest.rep.holds.fits
        rw [← hrest.rep.holds.size] at hfits
        have hsize : (exec q (.push x)).2.buffer.contentsSize = q.buffer.size + 1 := push_size q x
        omega
      obtain ⟨hok, heq⟩ := exec_bounded H hcalled.1 hroom
      refine ⟨hroom, (ih ?_ hcalled.2).mp hrest⟩
      exact hrest.rep
    · rintro ⟨hroom, hrest⟩
      obtain ⟨hok, heq⟩ := exec_bounded H hcalled.1 hroom
      obtain ⟨hanswer, hrep⟩ := exec_rep H op hok
      rw [← heq] at hanswer hrep
      exact ⟨H, hanswer, (ih hrep hcalled.2).mpr hrest⟩

theorem popped_all {c : Nat} {q : Triqueue α} {l : ThreeLists α} (H : Rep c q l) {op : Op α}
    (hok : op.ok c l) (hw : ¬op.writes) :
    op.popped q ++ (exec l op).2.all = l.all ++ op.pushed := by
  cases op with
  | push x => simp [exec, TriqueueOps.push, ThreeLists.all, Op.pushed, Op.popped]
  | pop =>
    have hne : l.out ≠ [] := by
      intro e
      have hc : (!l.out.isEmpty) = true := hok
      rw [e] at hc
      cases hc
    have hpop : (TriqueueOps.pop q).1 = l.out.head? := (rep_pop H hne).1
    obtain ⟨y, out, hout⟩ := List.exists_cons_of_ne_nil hne
    rw [Op.popped, hpop]
    simp [exec, TriqueueOps.pop, ThreeLists.all, Op.pushed, hout]
  | moveToFirst =>
    cases hm : l.mid <;>
      simp [exec, TriqueueOps.moveToFirst, ThreeLists.all, Op.pushed, Op.popped, hm]
  | moveToSecond =>
    cases hi : l.inp <;>
      simp [exec, TriqueueOps.moveToSecond, ThreeLists.all, Op.pushed, Op.popped, hi]
  | rewindMiddle =>
    simp [exec, TriqueueOps.rewindMiddle, ThreeLists.all, Op.pushed, Op.popped]
  | writeHead x => exact absurd trivial hw
  | writeMiddle x => exact absurd trivial hw
  | writeThird x => exact absurd trivial hw
  | _ => exact (List.append_nil _).symm

/-- **No item is yielded twice, and none that was not pushed.**  What was popped and what is left
are the pushed items, in order. -/
theorem yields_pushes {c : Nat} (ops : List (Op α)) :
    ∀ {q : Triqueue α} {l : ThreeLists α}, Rep c q l → opsCalled c l ops →
      (∀ op ∈ ops, ¬op.writes) → NeverFull c q ops →
      ∃ l' : ThreeLists α, Rep c (execAll q ops).2 l' ∧
        yields q ops ++ l'.all = l.all ++ ops.flatMap Op.pushed := by
  induction ops with
  | nil =>
    intro q l H _ _ _
    exact ⟨l, H, (List.append_nil _).symm⟩
  | cons op ops ih =>
    intro q l H hcalled hwrites hfull
    obtain ⟨hok, heq⟩ := exec_bounded H hcalled.1 hfull.1
    obtain ⟨l', hrep', hyields⟩ := ih (exec_rep H op hok).2 (heq ▸ hcalled.2)
      (fun op' h => hwrites op' (List.mem_cons_of_mem _ h)) hfull.2
    refine ⟨l', hrep', ?_⟩
    rw [yields, List.append_assoc, hyields, List.flatMap_cons, ← List.append_assoc,
      ← List.append_assoc, popped_all H hok (hwrites op List.mem_cons_self)]

end Triqueue

end ForkNS
