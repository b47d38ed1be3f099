import ForkPlugin.Queue.Triqueue
import Mathlib.Data.Nat.ModEq
import Mathlib.Tactic.Ring

/-!
# The ring buffer refines three lists

* `CircularBuffer.Holds c b xs`   the buffer `b` of capacity `c` contains `xs`, the oldest first:
                                  item `i` sits at `(i + head_) % c`;
* `Triqueue.Rep c q l`            the queue `q` stands for the three lists `l`: the buffer contains
                                  `l.all`, and the two offsets are the lengths of the parts;
* `exec_rep`                      one operation that may be called keeps `Rep`, answers what the
                                  lists answer, and uses subscripts of the array only;
* `triqueue_refines`              the same for every sequence of operations, from an empty queue.
-/

namespace ForkNS

/-! ## subscripts -/

theorem ring_inj {c h i j : Nat} (hi : i < c) (hj : j < c) (e : (i + h) % c = (j + h) % c) :
    i = j := by
  have hm : i ≡ j [MOD c] := Nat.ModEq.add_right_cancel' h e
  have hm' : i % c = j % c := hm
  rwa [Nat.mod_eq_of_lt hi, Nat.mod_eq_of_lt hj] at hm'

theorem ring_head {c h : Nat} (hh : h < c) : (0 + h) % c = h := by
  rw [Nat.zero_add, Nat.mod_eq_of_lt hh]

theorem ring_succ {c n : Nat} (hn : n < c) : (if n + 1 = c then 0 else n + 1) = (n + 1) % c := by
  by_cases h : n + 1 = c
  · rw [if_pos h, h, Nat.mod_self]
  · rw [if_neg h, Nat.mod_eq_of_lt (by omega)]

namespace CircularBuffer
variable {α : Type}

/-- the buffer contains `xs`, the oldest item first -/
structure Holds (c : Nat) (b : CircularBuffer α) (xs : List α) : Prop where
  pos : 0 < c
  arraySize : b.arraySize = c
  length : b.array.length = c
  head_lt : b.head < c
  tail_lt : b.tail < c
  size : b.contentsSize = xs.length
  fits : xs.length ≤ c
  nextTail : b.nextTail = (xs.length + b.head) % c
  cell : ∀ i, i < xs.length → b.cell ((i + b.head) % c) = xs[i]?

theorem nextTail_lt {c : Nat} {b : CircularBuffer α} {xs : List α} (H : Holds c b xs) :
    b.nextTail < c := by
  rw [H.nextTail]
  exact Nat.mod_lt _ H.pos

theorem indexToSubscript_lt {c : Nat} {b : CircularBuffer α} {xs : List α} (H : Holds c b xs)
    (n : Nat) : b.indexToSubscript n < c := by
  show (n + b.head) % b.arraySize < c
  rw [H.arraySize]
  exact Nat.mod_lt _ H.pos

theorem cell_write (b : CircularBuffer α) (i j : Nat) (x : α) (hi : i < b.array.length) :
    (b.write i x).cell j = if i = j then some x else b.cell j := by
  show ((b.array.set i (some x))[j]?).join = _
  rw [List.getElem?_set]
  by_cases h : i = j
  · subst h
    rw [if_pos rfl, if_pos rfl, if_pos hi]
    rfl
  · rw [if_neg h, if_neg h]
    rfl

theorem cell_destroy (b : CircularBuffer α) (i j : Nat) (h : i ≠ j) :
    (b.destroy i).cell j = b.cell j := by
  show ((b.array.set i none)[j]?).join = _
  rw [List.getElem?_set, if_neg h]
  rfl

theorem holds_create (c : Nat) (hc : 2 ≤ c) : Holds c (create c : CircularBuffer α) [] where
  pos := by omega
  arraySize := rfl
  length := List.length_replicate
  head_lt := by show 1 < c; omega
  tail_lt := by show 0 < c; omega
  size := rfl
  fits := Nat.zero_le _
  nextTail := by
    show (if 0 + 1 = c then 0 else 0 + 1) = (0 + 1) % c
    exact ring_succ (by omega)
  cell := fun i hi => absurd hi (Nat.not_lt_zero i)

/-- below the capacity an item is added at the end -/
theorem holds_pushBack {c : Nat} {b : CircularBuffer α} {xs : List α} (H : Holds c b xs)
    (room : xs.length < c) (accept : Bool) (x : α) :
    Holds c (b.pushBack accept x) (xs ++ [x]) := by
  have hne : ¬ b.contentsSize = b.arraySize := by rw [H.size, H.arraySize]; omega
  have hb : b.pushBack accept x = (b.write b.nextTail x).incrementTail := by
    unfold pushBack
    simp only [if_neg hne]
  have hlt := nextTail_lt H
  rw [hb]
  refine ⟨H.pos, H.arraySize, ?_, H.head_lt, hlt, ?_, ?_, ?_, ?_⟩
  · show (b.array.set _ _).length = c
    rw [List.length_set, H.length]
  · show b.contentsSize + 1 = _
    rw [H.size, List.length_append, List.length_singleton]
  · rw [List.length_append, List.length_singleton]
    omega
  · show (if b.nextTail + 1 = b.arraySize then 0 else b.nextTail + 1) = _
    rw [H.arraySize, ring_succ hlt, H.nextTail, Nat.mod_add_mod, List.length_append,
      List.length_singleton, Nat.add_right_comm]
    rfl
  · intro i hi
    rw [List.length_append, List.length_singleton] at hi
    show (b.write b.nextTail x).cell ((i + b.head) % c) = _
    rw [cell_write _ _ _ _ (by rw [H.length]; exact hlt), H.nextTail]
    by_cases h : i = xs.length
    · subst h
      rw [if_pos rfl, List.getElem?_append_right (Nat.le_refl _), Nat.sub_self]
      rfl
    · have hi' : i < xs.length := by omega
      rw [if_neg (fun e => h (ring_inj (by omega) room e.symm)), H.cell i hi',
        List.getElem?_append_left hi']

theorem incrementHead_head {c : Nat} {b : CircularBuffer α} (hsize : b.arraySize = c)
    (hlt : b.head < c) : b.incrementHead.head = (b.head + 1) % c := by
  show (if b.head + 1 = b.arraySize then 0 else b.head + 1) = _
  rw [hsize, ring_succ hlt]

/-- what was at the offset `i + 1` is then at `i` -/
theorem incrementHead_index {c : Nat} {b : CircularBuffer α} (hsize : b.arraySize = c)
    (hlt : b.head < c) (i : Nat) : (i + b.incrementHead.head) % c = (i + 1 + b.head) % c := by
  rw [incrementHead_head hsize hlt, Nat.add_mod_mod, Nat.add_right_comm, Nat.add_assoc]

/-- the oldest item is removed -/
theorem holds_incrementHead {c : Nat} {b : CircularBuffer α} {x : α} {xs : List α}
    (H : Holds c b (x :: xs)) : Holds c b.incrementHead xs := by
  have hfit := H.fits
  rw [List.length_cons] at hfit
  have hidx := incrementHead_index H.arraySize H.head_lt
  refine ⟨H.pos, H.arraySize, H.length, ?_, H.tail_lt, ?_, by omega, ?_, ?_⟩
  · rw [incrementHead_head H.arraySize H.head_lt]
    exact Nat.mod_lt _ H.pos
  · show b.contentsSize - 1 = _
    rw [H.size, List.length_cons, Nat.add_sub_cancel]
  · show b.nextTail = _
    rw [hidx, H.nextTail, List.length_cons]
  · intro i hi
    rw [hidx]
    exact H.cell (i + 1) (by rw [List.length_cons]; omega)

/-- its cell is no longer read -/
theorem holds_popFront {c : Nat} {b : CircularBuffer α} {x : α} {xs : List α}
    (H : Holds c b (x :: xs)) : Holds c b.popFront xs := by
  have H' := holds_incrementHead H
  refine ⟨H'.pos, H'.arraySize, ?_, H'.head_lt, H'.tail_lt, H'.size, H'.fits, H'.nextTail, ?_⟩
  · show (b.array.set _ _).length = c
    rw [List.length_set, H.length]
  · intro i hi
    have hfit := H.fits
    rw [List.length_cons] at hfit
    have hidx := incrementHead_index H.arraySize H.head_lt i
    have hne : b.head ≠ (i + b.incrementHead.head) % c := by
      rw [hidx]
      intro e
      have e' : (0 + b.head) % c = (i + 1 + b.head) % c := by rw [ring_head H.head_lt, ← e]
      have := ring_inj H.pos (by omega) e'
      omega
    show (b.incrementHead.destroy b.head).cell ((i + b.incrementHead.head) % c) = _
    rw [cell_destroy _ _ _ hne]
    exact H'.cell i hi

/-- a write through a reference changes the one item -/
theorem holds_write {c : Nat} {b : CircularBuffer α} {xs : List α} (H : Holds c b xs) (i : Nat)
    (hi : i < xs.length) (x : α) : Holds c (b.write ((i + b.head) % c) x) (xs.set i x) := by
  have hlt : (i + b.head) % c < b.array.length := by
    rw [H.length]
    exact Nat.mod_lt _ H.pos
  refine ⟨H.pos, H.arraySize, ?_, H.head_lt, H.tail_lt, ?_, ?_, ?_, ?_⟩
  · show (b.array.set _ _).length = c
    rw [List.length_set, H.length]
  · rw [List.length_set]
    exact H.size
  · rw [List.length_set]
    exact H.fits
  · rw [List.length_set]
    exact H.nextTail
  · intro j hj
    rw [List.length_set] at hj
    have hfit := H.fits
    show (b.write _ x).cell ((j + b.head) % c) = _
    rw [cell_write _ _ _ _ hlt, List.getElem?_set]
    by_cases h : i = j
    · subst h
      rw [if_pos rfl, if_pos rfl, if_pos hi]
    · rw [if_neg (fun e => h (ring_inj (by omega) (by omega) e)), if_neg h]
      exact H.cell j hj

theorem atUnchecked_eq {c : Nat} {b : CircularBuffer α} {xs : List α} (H : Holds c b xs) (i : Nat)
    (hi : i < xs.length) : b.atUnchecked i = xs[i]? := by
  show b.cell ((i + b.head) % b.arraySize) = _
  rw [H.arraySize]
  exact H.cell i hi

theorem front_eq {c : Nat} {b : CircularBuffer α} {xs : List α} (H : Holds c b xs)
    (hne : xs ≠ []) : b.front = xs.head? := by
  have h := H.cell 0 (List.length_pos_of_ne_nil hne)
  rw [ring_head H.head_lt] at h
  rw [List.head?_eq_getElem?]
  exact h

end CircularBuffer

/-! ## the three parts -/

namespace Triqueue
variable {α : Type}

/-- the queue `q` stands for the three lists `l` -/
structure Rep (c : Nat) (q : Triqueue α) (l : ThreeLists α) : Prop where
  holds : q.buffer.Holds c l.all
  endOutput : q.endOutput = l.out.length
  endInternal : q.endInternal = l.out.length + l.mid.length

theorem rep_create (c : Nat) (hc : 2 ≤ c) : Rep c (create c : Triqueue α) ThreeLists.nil :=
  ⟨CircularBuffer.holds_create c hc, rfl, rfl⟩

theorem all_length (l : ThreeLists α) :
    l.all.length = l.out.length + l.mid.length + l.inp.length := by
  rw [ThreeLists.all, List.length_append, List.length_append]

/-! ### writes on the lists -/

theorem set_zero (xs : List α) (x : α) : xs.set 0 x = ThreeLists.setHead xs x := by
  cases xs <;> rfl

theorem all_writeHead (l : ThreeLists α) (x : α) : (l.writeHead x).all = l.all.set 0 x := by
  obtain ⟨out, mid, inp⟩ := l
  cases out with
  | cons y out => rfl
  | nil =>
    cases mid with
    | cons y mid => rfl
    | nil => exact (set_zero inp x).symm

theorem all_writeMiddle (l : ThreeLists α) (x : α) (h : l.mid ≠ []) :
    (TriqueueOps.writeMiddle l x).all = l.all.set l.out.length x := by
  obtain ⟨out, mid, inp⟩ := l
  cases mid with
  | nil => exact absurd rfl h
  | cons y mid => simp [TriqueueOps.writeMiddle, ThreeLists.all]

theorem all_writeThird (l : ThreeLists α) (x : α) (h : l.inp ≠ []) :
    (TriqueueOps.writeThird l x).all = l.all.set (l.out.length + l.mid.length) x := by
  obtain ⟨out, mid, inp⟩ := l
  cases inp with
  | nil => exact absurd rfl h
  | cons y inp => simp [TriqueueOps.writeThird, ThreeLists.all]

theorem writeHead_lengths (l : ThreeLists α) (x : α) :
    (l.writeHead x).out.length = l.out.length ∧ (l.writeHead x).mid.length = l.mid.length := by
  obtain ⟨out, mid, inp⟩ := l
  cases out with
  | cons y out => exact ⟨rfl, rfl⟩
  | nil => cases mid <;> exact ⟨rfl, rfl⟩

/-- a `push` counts one more item, stored or not -/
theorem push_size (q : Triqueue α) (x : α) : (q.push x).buffer.size = q.buffer.size + 1 := by
  show (q.buffer.pushBack false x).contentsSize = _
  unfold CircularBuffer.pushBack
  by_cases hfull : q.buffer.contentsSize = q.buffer.arraySize
  · simp only [if_pos hfull]
    rfl
  · simp only [if_neg hfull]
    rfl

/-! ### what the queries answer -/

section
variable {c : Nat} {q : Triqueue α} {l : ThreeLists α} (H : Rep c q l)
include H

theorem empty_eq : q.empty = l.all.isEmpty := by
  show (q.buffer.contentsSize == 0) = _
  rw [H.holds.size]
  cases l.all <;> rfl

theorem middleEmpty_eq : q.middleEmpty = l.mid.isEmpty := by
  show (q.endInternal == q.endOutput) = _
  rw [H.endOutput, H.endInternal]
  cases l.mid <;> simp

theorem thirdEmpty_eq : q.thirdEmpty = l.inp.isEmpty := by
  show (q.endInternal == q.buffer.contentsSize) = _
  rw [H.endInternal, H.holds.size, all_length]
  cases l.inp <;> simp

theorem canPop_eq : q.canPop = !l.out.isEmpty := by
  show (0 != q.endOutput) = _
  rw [H.endOutput]
  cases l.out <;> rfl

theorem first_eq : q.first = l.all.head? := by
  have hE : q.buffer.empty = l.all.isEmpty := empty_eq H
  unfold first
  rw [hE]
  by_cases h : l.all = []
  · rw [h]
    rfl
  · rw [if_neg (by rwa [List.isEmpty_iff]), CircularBuffer.front_eq H.holds h]

theorem peekMiddle_eq (h : l.mid ≠ []) : q.peekMiddle = l.mid.head? := by
  have hlen := List.length_pos_of_ne_nil h
  show q.buffer.atUnchecked q.endOutput = _
  rw [H.endOutput, CircularBuffer.atUnchecked_eq H.holds _ (by rw [all_length]; omega)]
  obtain ⟨out, mid, inp⟩ := l
  cases mid with
  | nil => exact absurd rfl h
  | cons y mid => simp [ThreeLists.all]

theorem peekThird_eq (h : l.inp ≠ []) : q.peekThird = l.inp.head? := by
  have hlen := List.length_pos_of_ne_nil h
  show q.buffer.atUnchecked q.endInternal = _
  rw [H.endInternal, CircularBuffer.atUnchecked_eq H.holds _ (by rw [all_length]; omega)]
  obtain ⟨out, mid, inp⟩ := l
  cases inp with
  | nil => exact absurd rfl h
  | cons y inp => simp [ThreeLists.all]

/-- the item that a head answers starts its part -/
theorem mid_of_peek {x : α} (hm : q.middleEmpty = false) (hx : q.peekMiddle = some x) :
    ∃ mid, l.mid = x :: mid := by
  rw [middleEmpty_eq H, List.isEmpty_eq_false_iff] at hm
  rw [peekMiddle_eq H hm] at hx
  exact List.head?_eq_some_iff.mp hx

theorem inp_of_peek {x : α} (hi : q.thirdEmpty = false) (hx : q.peekThird = some x) :
    ∃ inp, l.inp = x :: inp := by
  rw [thirdEmpty_eq H, List.isEmpty_eq_false_iff] at hi
  rw [peekThird_eq H hi] at hx
  exact List.head?_eq_some_iff.mp hx

/-- the items from the index `k` on -/
theorem mem_from (k : Nat) {x : α} : (∃ i, k ≤ i ∧ i < q.buffer.size ∧
    q.buffer.atUnchecked i = some x) ↔ x ∈ l.all.drop k := by
  have hsize : q.buffer.size = l.all.length := H.holds.size
  rw [List.mem_drop_iff_getElem]
  constructor
  · rintro ⟨i, hle, hlt, hi⟩
    rw [CircularBuffer.atUnchecked_eq H.holds i (hsize ▸ hlt)] at hi
    obtain ⟨hi', rfl⟩ := List.getElem?_eq_some_iff.mp hi
    refine ⟨i - k, by omega, ?_⟩
    congr 1
    omega
  · rintro ⟨i, hi, rfl⟩
    refine ⟨k + i, by omega, by omega, ?_⟩
    rw [CircularBuffer.atUnchecked_eq H.holds _ (by omega)]
    exact List.getElem?_eq_getElem (by omega)

theorem drop_endOutput : l.all.drop q.endOutput = l.mid ++ l.inp := by
  rw [H.endOutput, ThreeLists.all, List.append_assoc, List.drop_left]

/-- the items behind the output part -/
theorem mem_waiting {x : α} : (∃ i, q.endOutput ≤ i ∧ i < q.buffer.size ∧
    q.buffer.atUnchecked i = some x) ↔ x ∈ l.mid ++ l.inp := by
  rw [mem_from H, drop_endOutput H]

/-- the items behind the head of the internal part -/
theorem mem_behind {h x : α} {t : List α} (hmid : l.mid = h :: t) :
    (∃ i, q.endOutput < i ∧ i < q.buffer.size ∧ q.buffer.atUnchecked i = some x) ↔
      x ∈ t ++ l.inp := by
  have hdrop : l.all.drop (q.endOutput + 1) = t ++ l.inp := by
    rw [← List.drop_drop, drop_endOutput H, hmid]
    rfl
  rw [← hdrop, ← mem_from H]
  rfl

/-! ### what the modifiers leave -/

theorem rep_push (room : l.all.length < c) (x : α) :
    Rep c (q.push x) (TriqueueOps.push l x) := by
  refine ⟨?_, H.endOutput, H.endInternal⟩
  have h := CircularBuffer.holds_pushBack H.holds room false x
  have e : (TriqueueOps.push l x).all = l.all ++ [x] := by
    simp [TriqueueOps.push, ThreeLists.all]
  rw [e]
  exact h

theorem rep_pop (h : l.out ≠ []) :
    q.pop.1 = l.out.head? ∧ Rep c q.pop.2 (TriqueueOps.pop l).2 := by
  obtain ⟨out, mid, inp⟩ := l
  cases out with
  | nil => exact absurd rfl h
  | cons y out =>
    have hall : (⟨y :: out, mid, inp⟩ : ThreeLists α).all = y :: (out ++ mid ++ inp) := by
      simp [ThreeLists.all]
    have hH := H.holds
    rw [hall] at hH
    have hfront : q.buffer.front = some y := CircularBuffer.front_eq hH (List.cons_ne_nil _ _)
    refine ⟨hfront, CircularBuffer.holds_incrementHead hH, ?_, ?_⟩
    · show q.endOutput - 1 = out.length
      rw [H.endOutput]
      rfl
    · have hI : q.endInternal = out.length + 1 + mid.length := H.endInternal
      show q.endInternal - 1 = out.length + mid.length
      omega

theorem rep_moveToFirst : Rep c q.moveToFirst (TriqueueOps.moveToFirst l) := by
  unfold moveToFirst
  rw [middleEmpty_eq H]
  obtain ⟨out, mid, inp⟩ := l
  cases mid with
  | nil =>
    have e : TriqueueOps.moveToFirst (⟨out, [], inp⟩ : ThreeLists α) = ⟨out, [], inp⟩ := by
      simp [TriqueueOps.moveToFirst]
    rw [e]
    exact H
  | cons y mid =>
    have hO : q.endOutput = out.length := H.endOutput
    have hI : q.endInternal = out.length + (mid.length + 1) := H.endInternal
    refine ⟨?_, ?_, ?_⟩
    · have h := H.holds
      simpa [TriqueueOps.moveToFirst, ThreeLists.all] using h
    · show q.endOutput + 1 = (out ++ [y]).length
      rw [hO, List.length_append, List.length_singleton]
    · show q.endInternal = (out ++ [y]).length + mid.length
      rw [hI, List.length_append, List.length_singleton]
      omega

theorem rep_moveToSecond : Rep c q.moveToSecond (TriqueueOps.moveToSecond l) := by
  unfold moveToSecond
  rw [thirdEmpty_eq H]
  obtain ⟨out, mid, inp⟩ := l
  cases inp with
  | nil =>
    have e : TriqueueOps.moveToSecond (⟨out, mid, []⟩ : ThreeLists α) = ⟨out, mid, []⟩ := by
      simp [TriqueueOps.moveToSecond]
    rw [e]
    exact H
  | cons y inp =>
    have hI : q.endInternal = out.length + mid.length := H.endInternal
    refine ⟨?_, H.endOutput, ?_⟩
    · have h := H.holds
      simpa [TriqueueOps.moveToSecond, ThreeLists.all] using h
    · show q.endInternal + 1 = out.length + (mid ++ [y]).length
      rw [hI, List.length_append, List.length_singleton, Nat.add_assoc]

theorem rep_rewindMiddle : Rep c q.rewindMiddle (TriqueueOps.rewindMiddle l) := by
  refine ⟨?_, H.endOutput, H.endOutput⟩
  have e : (TriqueueOps.rewindMiddle l).all = l.all := by
    simp [TriqueueOps.rewindMiddle, ThreeLists.all]
  rw [e]
  exact H.holds

theorem rep_writeHead (h : l.all ≠ []) (x : α) :
    Rep c (q.writeAt q.buffer.head x) (l.writeHead x) := by
  have hw := CircularBuffer.holds_write H.holds 0 (List.length_pos_of_ne_nil h) x
  rw [ring_head H.holds.head_lt, ← all_writeHead] at hw
  obtain ⟨h1, h2⟩ := writeHead_lengths l x
  exact ⟨hw, by rw [h1]; exact H.endOutput, by rw [h1, h2]; exact H.endInternal⟩

theorem rep_writeMiddle (h : l.mid ≠ []) (x : α) :
    Rep c (q.writeAt (q.buffer.indexToSubscript q.endOutput) x) (TriqueueOps.writeMiddle l x) := by
  have hlen := List.length_pos_of_ne_nil h
  have hw := CircularBuffer.holds_write H.holds l.out.length (by rw [all_length]; omega) x
  rw [← all_writeMiddle l x h, ← H.endOutput, ← H.holds.arraySize] at hw
  refine ⟨H.holds.arraySize ▸ hw, H.endOutput, ?_⟩
  show q.endInternal = l.out.length + (ThreeLists.setHead l.mid x).length
  rw [ThreeLists.setHead_length]
  exact H.endInternal

theorem rep_writeThird (h : l.inp ≠ []) (x : α) :
    Rep c (q.writeAt (q.buffer.indexToSubscript q.endInternal) x) (TriqueueOps.writeThird l x) := by
  have hlen := List.length_pos_of_ne_nil h
  have hw := CircularBuffer.holds_write H.holds (l.out.length + l.mid.length)
    (by rw [all_length]; omega) x
  rw [← all_writeThird l x h, ← H.endInternal, ← H.holds.arraySize] at hw
  exact ⟨H.holds.arraySize ▸ hw, H.endOutput, H.endInternal⟩

theorem subscripts_lt (op : Op α) : ∀ i ∈ q.subscripts op, i < c := by
  have hhead := H.holds.head_lt
  have hidx := CircularBuffer.indexToSubscript_lt H.holds
  have hnext := CircularBuffer.nextTail_lt H.holds
  cases op <;> simp only [subscripts]
  case push x => split <;> simp [hnext]
  case first => split <;> simp [hhead]
  all_goals simp [hhead, hidx]

/-- **One operation.**  Where it may be called, the ring buffer answers what the three lists
answer and stands for what they become. -/
theorem exec_rep (op : Op α) (hok : op.ok c l) :
    (exec q op).1 = (exec l op).1 ∧ Rep c (exec q op).2 (exec l op).2 := by
  cases op with
  | push x => exact ⟨rfl, rep_push H hok x⟩
  | pop =>
    have hne : l.out ≠ [] := by
      intro e
      have hc : (!l.out.isEmpty) = true := hok
      rw [e] at hc
      cases hc
    obtain ⟨h1, h2⟩ := rep_pop H hne
    exact ⟨congrArg Answer.item h1, h2⟩
  | moveToFirst => exact ⟨rfl, rep_moveToFirst H⟩
  | moveToSecond => exact ⟨rfl, rep_moveToSecond H⟩
  | rewindMiddle => exact ⟨rfl, rep_rewindMiddle H⟩
  | writeHead x => exact ⟨rfl, rep_writeHead H hok x⟩
  | writeMiddle x => exact ⟨rfl, rep_writeMiddle H hok x⟩
  | writeThird x => exact ⟨rfl, rep_writeThird H hok x⟩
  | empty => exact ⟨congrArg Answer.bool (empty_eq H), H⟩
  | middleEmpty => exact ⟨congrArg Answer.bool (middleEmpty_eq H), H⟩
  | thirdEmpty => exact ⟨congrArg Answer.bool (thirdEmpty_eq H), H⟩
  | canPop => exact ⟨congrArg Answer.bool (canPop_eq H), H⟩
  | first => exact ⟨congrArg Answer.item (first_eq H), H⟩
  | head => exact ⟨congrArg Answer.item (CircularBuffer.front_eq H.holds hok), H⟩
  | peekMiddle => exact ⟨congrArg Answer.item (peekMiddle_eq H hok), H⟩
  | peekThird => exact ⟨congrArg Answer.item (peekThird_eq H hok), H⟩

end

/-! ## sequences of operations -/

theorem execAll_rep {c : Nat} (ops : List (Op α)) :
    ∀ {q : Triqueue α} {l : ThreeLists α}, Rep c q l → opsOk c l ops →
      (execAll q ops).1 = (execAll l ops).1 ∧ Rep c (execAll q ops).2 (execAll l ops).2 := by
  induction ops with
  | nil => exact fun H _ => ⟨rfl, H⟩
  | cons op ops ih =>
    intro q l H hok
    obtain ⟨h1, h2⟩ := exec_rep H op hok.1
    obtain ⟨h3, h4⟩ := ih h2 hok.2
    exact ⟨congrArg₂ List.cons h1 h3, h4⟩

theorem opsOk_append {c : Nat} (ops ops' : List (Op α)) :
    ∀ {l : ThreeLists α}, opsOk c l (ops ++ ops') →
      opsOk c l ops ∧ opsOk c (execAll l ops).2 ops' := by
  induction ops with
  | nil => exact fun h => ⟨trivial, h⟩
  | cons op ops ih =>
    intro l h
    obtain ⟨h1, h2⟩ := ih h.2
    exact ⟨⟨h.1, h1⟩, h2⟩

/-- **`triqueue_t` refines three lists.**  For every capacity `c ≥ 2` and every sequence of
operations that may be called (see `Op.ok`), the ring buffer gives all the answers of the three
lists, ends in a state that stands for theirs, and every array subscript it uses on the way is
below the capacity. -/
theorem triqueue_refines (c : Nat) (hc : 2 ≤ c) (ops : List (Op α))
    (hok : opsOk c ThreeLists.nil ops) :
    (execAll (create c : Triqueue α) ops).1 = (execAll (ThreeLists.nil : ThreeLists α) ops).1 ∧
      Rep c (execAll (create c : Triqueue α) ops).2
        (execAll (ThreeLists.nil : ThreeLists α) ops).2 ∧
      ∀ pre op post, ops = pre ++ op :: post →
        ∀ i ∈ (execAll (create c : Triqueue α) pre).2.subscripts op, i < c := by
  obtain ⟨h1, h2⟩ := execAll_rep ops (rep_create c hc) hok
  refine ⟨h1, h2, ?_⟩
  intro pre op post e
  rw [e] at hok
  obtain ⟨hpre, _⟩ := opsOk_append pre (op :: post) hok
  exact subscripts_lt (execAll_rep pre (rep_create c hc) hpre).2 op

/-- capacity 2: the array is filled, read, and filled again past its end -/
theorem triqueue_refines_wrap :
    (execAll (create 2 : Triqueue Nat)
      [.push 5, .moveToSecond, .writeMiddle 6, .moveToFirst, .push 7, .pop, .push 8,
        .moveToSecond, .peekThird]).1 =
      [.unit, .unit, .unit, .unit, .unit, .item (some 6), .unit, .unit, .item (some 8)] :=
  (triqueue_refines 2 (by decide) _ (by simp [opsOk, Op.ok, exec, TriqueueOps.push,
    TriqueueOps.pop, TriqueueOps.moveToFirst, TriqueueOps.moveToSecond, TriqueueOps.writeMiddle,
    TriqueueOps.canPop, ThreeLists.all, ThreeLists.nil])).1.trans (by decide)

end Triqueue

end ForkNS
