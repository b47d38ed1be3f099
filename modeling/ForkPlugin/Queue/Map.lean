import ForkPlugin.Queue.Triqueue

/-!
# The ring with other items

* `CircularBuffer.map`, `Triqueue.map`   every item of the array is replaced, the offsets stay;
* `TriqueueMap`       a map of queues that all operations respect;
* `Triqueue.mapped`   the map of rings is one.

Nothing is assumed of the offsets: this holds of a ring that was asked to hold too much as well.
-/

namespace ForkNS

/-- a map of queues, and of their items, that the operations respect -/
structure TriqueueMap {Q Q' α β : Type} [TriqueueOps Q α] [TriqueueOps Q' β] (g : Q → Q')
    (f : α → β) : Prop where
  middleEmpty : ∀ q, TriqueueOps.middleEmpty (g q) = TriqueueOps.middleEmpty q
  thirdEmpty : ∀ q, TriqueueOps.thirdEmpty (g q) = TriqueueOps.thirdEmpty q
  canPop : ∀ q, TriqueueOps.canPop (g q) = TriqueueOps.canPop q
  first : ∀ q, TriqueueOps.first (g q) = (TriqueueOps.first q).map f
  head : ∀ q, TriqueueOps.head (g q) = (TriqueueOps.head q).map f
  peekMiddle : ∀ q, TriqueueOps.peekMiddle (g q) = (TriqueueOps.peekMiddle q).map f
  peekThird : ∀ q, TriqueueOps.peekThird (g q) = (TriqueueOps.peekThird q).map f
  push : ∀ q x, TriqueueOps.push (g q) (f x) = g (TriqueueOps.push q x)
  pop : ∀ q, (TriqueueOps.pop (g q)).2 = g (TriqueueOps.pop q).2
  moveToFirst : ∀ q, TriqueueOps.moveToFirst (g q) = g (TriqueueOps.moveToFirst q)
  moveToSecond : ∀ q, TriqueueOps.moveToSecond (g q) = g (TriqueueOps.moveToSecond q)
  rewindMiddle : ∀ q, TriqueueOps.rewindMiddle (g q) = g (TriqueueOps.rewindMiddle q)
  writeMiddle : ∀ q x, TriqueueOps.writeMiddle (g q) (f x) = g (TriqueueOps.writeMiddle q x)
  writeThird : ∀ q x, TriqueueOps.writeThird (g q) (f x) = g (TriqueueOps.writeThird q x)

/-- the queue as it is -/
theorem TriqueueMap.id {Q α : Type} [TriqueueOps Q α] :
    TriqueueMap (id : Q → Q) (id : α → α) := by
  constructor <;> intros <;> simp

variable {α β : Type} (f : α → β)

namespace CircularBuffer

def map (b : CircularBuffer α) : CircularBuffer β where
  array := b.array.map (Option.map f)
  arraySize := b.arraySize
  head := b.head
  tail := b.tail
  contentsSize := b.contentsSize

theorem map_cell (b : CircularBuffer α) (i : Nat) : (b.map f).cell i = (b.cell i).map f := by
  simp only [cell, map, List.getElem?_map]
  cases b.array[i]? <;> rfl

theorem map_write (b : CircularBuffer α) (i : Nat) (x : α) :
    (b.map f).write i (f x) = (b.write i x).map f := by
  simp [write, map, List.map_set]

theorem map_pushBack (b : CircularBuffer α) (x : α) :
    (b.map f).pushBack false (f x) = (b.pushBack false x).map f := by
  unfold pushBack
  by_cases hfull : b.contentsSize = b.arraySize
  · have hfull' : (b.map f).contentsSize = (b.map f).arraySize := hfull
    simp only [if_pos hfull, if_pos hfull']
    rfl
  · have hfull' : ¬(b.map f).contentsSize = (b.map f).arraySize := hfull
    simp only [if_neg hfull, if_neg hfull']
    show ((b.map f).write b.nextTail (f x)).incrementTail = _
    rw [map_write]
    rfl

theorem map_incrementHead (b : CircularBuffer α) :
    (b.map f).incrementHead = b.incrementHead.map f := rfl

end CircularBuffer

namespace Triqueue
open CircularBuffer

def map (q : Triqueue α) : Triqueue β := ⟨q.buffer.map f, q.endOutput, q.endInternal⟩

theorem map_writeAt (q : Triqueue α) (i : Nat) (x : α) :
    (q.map f).writeAt i (f x) = (q.writeAt i x).map f := by
  simp only [writeAt, map, map_write]

theorem map_create (c : Nat) : (create c : Triqueue α).map f = create c := by
  simp [create, map, CircularBuffer.create, CircularBuffer.map]

theorem mapped : TriqueueMap (Triqueue.map f) f where
  middleEmpty _ := rfl
  thirdEmpty _ := rfl
  canPop _ := rfl
  first q := by
    show (if q.buffer.empty then none else (q.buffer.map f).cell q.buffer.head) = _
    rw [map_cell]
    show _ = Option.map f (if q.buffer.empty then none else q.buffer.cell q.buffer.head)
    split_ifs <;> rfl
  head q := map_cell f q.buffer q.buffer.head
  peekMiddle q := map_cell f q.buffer (q.buffer.indexToSubscript q.endOutput)
  peekThird q := map_cell f q.buffer (q.buffer.indexToSubscript q.endInternal)
  push q x := congrArg (fun b => Triqueue.mk b q.endOutput q.endInternal)
    (map_pushBack f q.buffer x)
  pop q := congrArg (fun b => Triqueue.mk b (q.endOutput - 1) (q.endInternal - 1))
    (map_incrementHead f q.buffer)
  moveToFirst q := by
    show (if q.middleEmpty then q.map f else _) = Triqueue.map f (if q.middleEmpty then q else _)
    split_ifs <;> rfl
  moveToSecond q := by
    show (if q.thirdEmpty then q.map f else _) = Triqueue.map f (if q.thirdEmpty then q else _)
    split_ifs <;> rfl
  rewindMiddle _ := rfl
  writeMiddle q x := map_writeAt f q _ x
  writeThird q x := map_writeAt f q _ x

end Triqueue

end ForkNS
