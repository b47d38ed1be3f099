import ForkPlugin.Queue.ThreeLists

/-!
# `circular_buffer` and `triqueue_t`

The queue as the code stores it: one array used as a ring, and two offsets counted from its
head.

* `CircularBuffer`    `array_`, `array_size_`, `head_`, `tail_`, `contents_size_`; a cell is `none`
                      where nothing is constructed, and so is a read outside the array;
* `Triqueue`          the buffer with the iterators `end_output` and `end_internal` (an iterator is
                      its `pos_`, an offset from the head).

`size_type` is `Nat` here: the only decrements are those of `pop`, which is called when the
output part is not empty.
-/

namespace ForkNS

structure CircularBuffer (α : Type) where
  array : List (Option α)
  arraySize : Nat
  head : Nat
  tail : Nat
  contentsSize : Nat
deriving DecidableEq, Repr

namespace CircularBuffer
variable {α : Type}

def create (capacity : Nat) : CircularBuffer α :=
  ⟨List.replicate capacity none, capacity, 1, 0, 0⟩

/-- `array_[i]` as a value -/
def cell (b : CircularBuffer α) (i : Nat) : Option α := b.array[i]?.join

/-- `array_[i] = x`, or `x` constructed there -/
def write (b : CircularBuffer α) (i : Nat) (x : α) : CircularBuffer α :=
  { b with array := b.array.set i (some x) }

def destroy (b : CircularBuffer α) (i : Nat) : CircularBuffer α :=
  { b with array := b.array.set i none }

def size (b : CircularBuffer α) : Nat := b.contentsSize
def empty (b : CircularBuffer α) : Bool := b.contentsSize == 0

def normalise (b : CircularBuffer α) (n : Nat) : Nat := n % b.arraySize
def indexToSubscript (b : CircularBuffer α) (index : Nat) : Nat := b.normalise (index + b.head)

def nextTail (b : CircularBuffer α) : Nat :=
  if b.tail + 1 = b.arraySize then 0 else b.tail + 1

def incrementTail (b : CircularBuffer α) : CircularBuffer α :=
  { b with contentsSize := b.contentsSize + 1, tail := b.nextTail }

def incrementHead (b : CircularBuffer α) : CircularBuffer α :=
  { b with
    head := if b.head + 1 = b.arraySize then 0 else b.head + 1
    contentsSize := b.contentsSize - 1 }

def front (b : CircularBuffer α) : Option α := b.cell b.head
def atUnchecked (b : CircularBuffer α) (index : Nat) : Option α :=
  b.cell (b.indexToSubscript index)

/-- `acceptWhenFull` is the template argument `always_accept_data_when_full` -/
def pushBack (acceptWhenFull : Bool) (b : CircularBuffer α) (item : α) : CircularBuffer α :=
  let next := b.nextTail
  let b' :=
    if b.contentsSize = b.arraySize then
      if acceptWhenFull then (b.write next item).incrementHead else b
    else b.write next item
  b'.incrementTail

def popFront (b : CircularBuffer α) : CircularBuffer α :=
  let destroyPos := b.head
  b.incrementHead.destroy destroyPos

end CircularBuffer

structure Triqueue (α : Type) where
  buffer : CircularBuffer α
  endOutput : Nat
  endInternal : Nat
deriving DecidableEq, Repr

namespace Triqueue
variable {α : Type}

def create (capacity : Nat) : Triqueue α := ⟨CircularBuffer.create capacity, 0, 0⟩

def empty (q : Triqueue α) : Bool := q.buffer.empty
def middleEmpty (q : Triqueue α) : Bool := q.endInternal == q.endOutput
def thirdEmpty (q : Triqueue α) : Bool := q.endInternal == q.buffer.size
def canPop (q : Triqueue α) : Bool := 0 != q.endOutput

def rewindMiddle (q : Triqueue α) : Triqueue α := { q with endInternal := q.endOutput }

def push (q : Triqueue α) (item : α) : Triqueue α :=
  { q with buffer := q.buffer.pushBack false item }

/-- the events of the ports are plain data: where `pop_front` destroys one, the cell still holds
it -/
def pop (q : Triqueue α) : Option α × Triqueue α :=
  let item := q.buffer.front
  (item, ⟨q.buffer.incrementHead, q.endOutput - 1, q.endInternal - 1⟩)

def peekThird (q : Triqueue α) : Option α := q.buffer.atUnchecked q.endInternal
def peekMiddle (q : Triqueue α) : Option α := q.buffer.atUnchecked q.endOutput
def head (q : Triqueue α) : Option α := q.buffer.front

def moveToFirst (q : Triqueue α) : Triqueue α :=
  if q.middleEmpty then q else { q with endOutput := q.endOutput + 1 }

def moveToSecond (q : Triqueue α) : Triqueue α :=
  if q.thirdEmpty then q else { q with endInternal := q.endInternal + 1 }

theorem peekMiddle_moveToSecond (q : Triqueue α) : q.moveToSecond.peekMiddle = q.peekMiddle := by
  unfold moveToSecond
  split_ifs <;> rfl

def first (q : Triqueue α) : Option α := if q.buffer.empty then none else q.buffer.front

/-- `array_[i] = x` for a reference into the buffer -/
def writeAt (q : Triqueue α) (i : Nat) (x : α) : Triqueue α :=
  { q with buffer := q.buffer.write i x }

instance : TriqueueOps (Triqueue α) α where
  empty := empty
  middleEmpty := middleEmpty
  thirdEmpty := thirdEmpty
  canPop := canPop
  first := first
  head := head
  peekMiddle := peekMiddle
  peekThird := peekThird
  push := push
  pop := pop
  moveToFirst := moveToFirst
  moveToSecond := moveToSecond
  rewindMiddle := rewindMiddle
  writeHead q := q.writeAt q.buffer.head
  writeMiddle q := q.writeAt (q.buffer.indexToSubscript q.endOutput)
  writeThird q := q.writeAt (q.buffer.indexToSubscript q.endInternal)

/-- the subscripts of `array_` that an operation uses -/
def subscripts (q : Triqueue α) : Op α → List Nat
  | .push _ => if q.buffer.contentsSize = q.buffer.arraySize then [] else [q.buffer.nextTail]
  | .pop | .head | .writeHead _ => [q.buffer.head]
  | .first => if q.buffer.empty then [] else [q.buffer.head]
  | .peekMiddle | .writeMiddle _ => [q.buffer.indexToSubscript q.endOutput]
  | .peekThird | .writeThird _ => [q.buffer.indexToSubscript q.endInternal]
  | _ => []

end Triqueue

end ForkNS
