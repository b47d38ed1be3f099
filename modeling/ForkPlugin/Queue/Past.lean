import ForkPlugin.Queue.Refine

/-!
# The ring past its capacity

A ring that is asked to hold more than its capacity counts what it does not store.  It no longer
stands for three lists, but its offsets stay in order, and every item it counts has a cell to be
read from, an old one where it was not stored.

* `CircularBuffer.Backed c b`   every item that is counted has a cell;
* `Triqueue.Counted c q`        so it is for the queue, and the two offsets are in order;
* `Triqueue.Moved`, `Sent`      one event more in the internal part, or in the output part and all
                                others to be read again.
-/

namespace ForkNS

namespace CircularBuffer
variable {α : Type}

structure Backed (c : ℕ) (b : CircularBuffer α) : Prop where
  pos : 0 < c
  arraySize : b.arraySize = c
  length : b.array.length = c
  head_lt : b.head < c
  tail_lt : b.tail < c
  nextTail : b.nextTail = (b.contentsSize + b.head) % c
  cell : ∀ i < b.contentsSize, ∃ x, b.cell ((i + b.head) % c) = some x

theorem Holds.backed {c : ℕ} {b : CircularBuffer α} {xs : List α} (H : Holds c b xs) :
    Backed c b where
  pos := H.pos
  arraySize := H.arraySize
  length := H.length
  head_lt := H.head_lt
  tail_lt := H.tail_lt
  nextTail := by rw [H.nextTail, H.size]
  cell i hi := by
    rw [H.size] at hi
    exact ⟨xs[i], by rw [H.cell i hi, List.getElem?_eq_getElem hi]⟩

section
variable {c : ℕ} {b : CircularBuffer α} (H : Backed c b)
include H

theorem Backed.nextTail_lt : b.nextTail < c := by
  rw [H.nextTail]
  exact Nat.mod_lt _ H.pos

theorem Backed.nextTail_succ :
    (if b.nextTail + 1 = b.arraySize then 0 else b.nextTail + 1)
      = (b.contentsSize + 1 + b.head) % c := by
  rw [H.arraySize, ring_succ H.nextTail_lt, H.nextTail, Nat.mod_add_mod, Nat.add_right_comm]

/-- a cell that is written is filled, and the others stay so -/
theorem Backed.write (i : ℕ) (x : α) : Backed c (b.write i x) where
  pos := H.pos
  arraySize := H.arraySize
  length := by
    show (b.array.set _ _).length = c
    rw [List.length_set, H.length]
  head_lt := H.head_lt
  tail_lt := H.tail_lt
  nextTail := H.nextTail
  cell j hj := by
    obtain ⟨y, hy⟩ := H.cell j hj
    by_cases hi : i < b.array.length
    · show ∃ z, (b.write i x).cell ((j + b.head) % c) = some z
      rw [cell_write b i _ x hi]
      split_ifs
      · exact ⟨x, rfl⟩
      · exact ⟨y, hy⟩
    · refine ⟨y, ?_⟩
      show ((b.array.set i (some x))[(j + b.head) % c]?).join = some y
      rw [List.set_eq_of_length_le (not_lt.mp hi)]
      exact hy

/-- the item is counted, and its cell is filled -/
theorem Backed.incrementTail (hcell : ∃ x, b.cell b.nextTail = some x) :
    Backed c b.incrementTail where
  pos := H.pos
  arraySize := H.arraySize
  length := H.length
  head_lt := H.head_lt
  tail_lt := H.nextTail_lt
  nextTail := H.nextTail_succ
  cell i hi := by
    rcases Nat.lt_succ_iff_lt_or_eq.mp hi with hlt | rfl
    · exact H.cell i hlt
    · rwa [H.nextTail] at hcell

/-- full or not -/
theorem Backed.pushBack (x : α) : Backed c (b.pushBack false x) := by
  simp only [CircularBuffer.pushBack, Bool.false_eq_true, if_false]
  split_ifs with hfull
  · -- the next cell is that of the oldest item
    refine H.incrementTail ?_
    have hpos := H.pos
    have hfirst := H.cell 0 (by rw [hfull, H.arraySize]; exact hpos)
    rwa [H.nextTail, hfull, H.arraySize, Nat.add_mod_left, ← Nat.zero_add b.head]
  · refine (H.write b.nextTail x).incrementTail ⟨x, ?_⟩
    show (b.write b.nextTail x).cell b.nextTail = some x
    rw [cell_write b _ _ x (by rw [H.length]; exact H.nextTail_lt), if_pos rfl]

theorem Backed.incrementHead (hpos : 0 < b.contentsSize) : Backed c b.incrementHead := by
  have hidx := incrementHead_index H.arraySize H.head_lt
  have hsize : b.incrementHead.contentsSize + 1 = b.contentsSize := Nat.sub_add_cancel hpos
  refine ⟨H.pos, H.arraySize, H.length, ?_, H.tail_lt, ?_, fun i hi => ?_⟩
  · rw [incrementHead_head H.arraySize H.head_lt]
    exact Nat.mod_lt _ H.pos
  · show b.nextTail = _
    rw [hidx, hsize, H.nextTail]
  · rw [hidx]
    exact H.cell (i + 1) (by omega)

theorem Backed.atUnchecked {i : ℕ} (hi : i < b.contentsSize) : ∃ x, b.atUnchecked i = some x := by
  show ∃ x, b.cell ((i + b.head) % b.arraySize) = some x
  rw [H.arraySize]
  exact H.cell i hi

end

end CircularBuffer

namespace Triqueue
variable {α : Type}

structure Counted (c : ℕ) (q : Triqueue α) : Prop where
  backed : q.buffer.Backed c
  output_le : q.endOutput ≤ q.endInternal
  internal_le : q.endInternal ≤ q.buffer.size

theorem counted_create {c : ℕ} (hc : 2 ≤ c) : Counted c (create c : Triqueue α) :=
  ⟨(CircularBuffer.holds_create c hc).backed, le_refl _, le_refl _⟩

/-- the oldest event of the input part is now internal -/
structure Moved (c : ℕ) (q q' : Triqueue α) : Prop where
  counted : Counted c q'
  size : q'.buffer.size = q.buffer.size
  endOutput : q'.endOutput = q.endOutput
  endInternal : q'.endInternal = q.endInternal + 1

/-- the oldest undecided event is in the output part, and all others are to be read again -/
structure Sent (c : ℕ) (q q' : Triqueue α) : Prop where
  counted : Counted c q'
  size : q'.buffer.size = q.buffer.size
  endOutput : q'.endOutput = q.endOutput + 1
  endInternal : q'.endInternal = q.endOutput + 1

variable {c : ℕ} {q q' q'' : Triqueue α}

theorem Moved.sent (h : Moved c q q') (h' : Sent c q' q'') : Sent c q q'' :=
  ⟨h'.counted, h'.size.trans h.size, by rw [h'.endOutput, h.endOutput],
    by rw [h'.endInternal, h.endOutput]⟩

section
variable (H : Counted c q)
include H

theorem Counted.writeAt (i : ℕ) (x : α) : Counted c (q.writeAt i x) :=
  ⟨H.backed.write i x, H.output_le, H.internal_le⟩

theorem Counted.push (x : α) : Counted c (q.push x) := by
  refine ⟨H.backed.pushBack x, H.output_le, ?_⟩
  rw [push_size]
  exact Nat.le_succ_of_le H.internal_le

theorem Counted.pop (hpop : q.canPop = true) : Counted c q.pop.2 := by
  have hout : q.endOutput ≠ 0 := fun h => by simp [canPop, h] at hpop
  have hoi := H.output_le
  have hin := H.internal_le
  refine ⟨H.backed.incrementHead ?_, ?_, ?_⟩
  · show 0 < q.buffer.size
    omega
  · show q.endOutput - 1 ≤ q.endInternal - 1
    omega
  · show q.endInternal - 1 ≤ q.buffer.size - 1
    omega

theorem Counted.unread (hi : q.thirdEmpty = false) : q.endInternal < q.buffer.size := by
  have hne : q.endInternal ≠ q.buffer.size := fun h => by simp [thirdEmpty, h] at hi
  exact lt_of_le_of_ne H.internal_le hne

theorem Counted.waiting (hm : q.middleEmpty = false) : q.endOutput < q.endInternal := by
  have hne : q.endOutput ≠ q.endInternal := fun h => by simp [middleEmpty, h] at hm
  exact lt_of_le_of_ne H.output_le hne

theorem Counted.peekThird (hi : q.thirdEmpty = false) : ∃ x, q.peekThird = some x :=
  H.backed.atUnchecked (H.unread hi)

theorem Counted.peekMiddle (hm : q.middleEmpty = false) : ∃ x, q.peekMiddle = some x :=
  H.backed.atUnchecked (lt_of_lt_of_le (H.waiting hm) H.internal_le)

theorem Counted.moveToSecond (hi : q.thirdEmpty = false) : Moved c q q.moveToSecond := by
  have hlt := H.unread hi
  have heq : q.moveToSecond = { q with endInternal := q.endInternal + 1 } := by
    rw [Triqueue.moveToSecond, hi]
    rfl
  rw [heq]
  exact ⟨⟨H.backed, Nat.le_succ_of_le H.output_le, hlt⟩, rfl, rfl, rfl⟩

/-- a decision -/
theorem Counted.sendMiddle (hm : q.middleEmpty = false) : Sent c q q.moveToFirst.rewindMiddle := by
  have hlt := H.waiting hm
  have heq : q.moveToFirst.rewindMiddle
      = { q with endOutput := q.endOutput + 1, endInternal := q.endOutput + 1 } := by
    rw [Triqueue.moveToFirst, hm]
    rfl
  rw [heq]
  exact ⟨⟨H.backed, le_refl _, le_trans hlt H.internal_le⟩, rfl, rfl, rfl⟩

/-- nothing is undecided: the event goes through -/
theorem Counted.sendThird (hm : q.middleEmpty = true) (hi : q.thirdEmpty = false) :
    Sent c q q.moveToSecond.moveToFirst := by
  have hlt := H.unread hi
  have hint : q.endInternal = q.endOutput := by simpa [middleEmpty] using hm
  have heq : q.moveToSecond.moveToFirst
      = { q with endOutput := q.endOutput + 1, endInternal := q.endOutput + 1 } := by
    simp [Triqueue.moveToSecond, hi, Triqueue.moveToFirst, middleEmpty, hint]
  rw [heq]
  exact ⟨⟨H.backed, le_refl _, hint ▸ hlt⟩, rfl, rfl, rfl⟩

end

end Triqueue

end ForkNS
