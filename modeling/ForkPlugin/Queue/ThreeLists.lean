import Mathlib.Data.List.Basic

/-!
# The queue of the machine: its operations, and what they mean on three lists

The machine keeps all its events in one `triqueue_t`, whose contents are read as three parts,
the oldest event first:

    output | internal | input

* `TriqueueOps Q α`   the operations, for a queue type `Q` with items `α`; the machine is
                      written over this class;
* `ThreeLists α`      the meaning: three lists `out`, `mid`, `inp`;
* `Op`, `exec`, `execAll`   a sequence of operations with everything it answers;
* `Op.ok`             when an operation may be called: `push` below the capacity, `pop` when
                      `canPop`, the readers and writers when there is something to read.
-/

namespace ForkNS

/-- what `machine.h` and the tests use of a `triqueue_t` -/
class TriqueueOps (Q : Type) (α : outParam Type) where
  empty : Q → Bool
  middleEmpty : Q → Bool
  thirdEmpty : Q → Bool
  canPop : Q → Bool
  first : Q → Option α
  head : Q → Option α
  peekMiddle : Q → Option α
  peekThird : Q → Option α
  push : Q → α → Q
  pop : Q → Option α × Q
  moveToFirst : Q → Q
  moveToSecond : Q → Q
  rewindMiddle : Q → Q
  /-- a write through the reference that `head` returns -/
  writeHead : Q → α → Q
  /-- a write through the reference that `peek_middle` returns -/
  writeMiddle : Q → α → Q
  /-- a write through the reference that `peek_third` returns (its `const` is cast away) -/
  writeThird : Q → α → Q

/-! ## three lists -/

structure ThreeLists (α : Type) where
  out : List α
  mid : List α
  inp : List α
deriving DecidableEq, Repr

namespace ThreeLists
variable {α : Type}

def nil : ThreeLists α := ⟨[], [], []⟩

/-- everything in the queue, the oldest first -/
def all (l : ThreeLists α) : List α := l.out ++ l.mid ++ l.inp

/-- the first element of a list is replaced -/
def setHead : List α → α → List α
  | [], _ => []
  | _ :: xs, x => x :: xs

def writeHead (l : ThreeLists α) (x : α) : ThreeLists α :=
  match l.out, l.mid with
  | _ :: _, _ => { l with out := setHead l.out x }
  | [], _ :: _ => { l with mid := setHead l.mid x }
  | [], [] => { l with inp := setHead l.inp x }

instance : TriqueueOps (ThreeLists α) α where
  empty l := l.all.isEmpty
  middleEmpty l := l.mid.isEmpty
  thirdEmpty l := l.inp.isEmpty
  canPop l := !l.out.isEmpty
  first l := l.all.head?
  head l := l.all.head?
  peekMiddle l := l.mid.head?
  peekThird l := l.inp.head?
  push l x := { l with inp := l.inp ++ [x] }
  pop l := (l.out.head?, { l with out := l.out.tail })
  moveToFirst l := { l with out := l.out ++ l.mid.take 1, mid := l.mid.tail }
  moveToSecond l := { l with mid := l.mid ++ l.inp.take 1, inp := l.inp.tail }
  rewindMiddle l := { l with mid := [], inp := l.mid ++ l.inp }
  writeHead := writeHead
  writeMiddle l x := { l with mid := setHead l.mid x }
  writeThird l x := { l with inp := setHead l.inp x }

@[simp] theorem setHead_cons (y x : α) (xs : List α) : setHead (y :: xs) x = x :: xs := rfl

@[simp] theorem setHead_length (xs : List α) (x : α) : (setHead xs x).length = xs.length := by
  cases xs <;> rfl

end ThreeLists

/-! ## sequences of operations -/

inductive Op (α : Type) where
  | push (x : α)
  | pop
  | moveToFirst
  | moveToSecond
  | rewindMiddle
  | writeHead (x : α)
  | writeMiddle (x : α)
  | writeThird (x : α)
  | empty
  | middleEmpty
  | thirdEmpty
  | canPop
  | first
  | head
  | peekMiddle
  | peekThird
deriving DecidableEq, Repr

/-- what an operation answers -/
inductive Answer (α : Type) where
  | unit
  | bool (b : Bool)
  | item (x : Option α)
deriving DecidableEq, Repr

section
variable {Q α : Type} [TriqueueOps Q α]
open TriqueueOps

def exec (q : Q) : Op α → Answer α × Q
  | .push x => (.unit, push q x)
  | .pop => (.item (pop q).1, (pop q).2)
  | .moveToFirst => (.unit, moveToFirst q)
  | .moveToSecond => (.unit, moveToSecond q)
  | .rewindMiddle => (.unit, rewindMiddle q)
  | .writeHead x => (.unit, writeHead q x)
  | .writeMiddle x => (.unit, writeMiddle q x)
  | .writeThird x => (.unit, writeThird q x)
  | .empty => (.bool (empty q), q)
  | .middleEmpty => (.bool (middleEmpty q), q)
  | .thirdEmpty => (.bool (thirdEmpty q), q)
  | .canPop => (.bool (canPop q), q)
  | .first => (.item (first q), q)
  | .head => (.item (head q), q)
  | .peekMiddle => (.item (peekMiddle q), q)
  | .peekThird => (.item (peekThird q), q)

/-- the answers of a sequence of operations, and the queue it leaves -/
def execAll (q : Q) : List (Op α) → List (Answer α) × Q
  | [] => ([], q)
  | op :: ops =>
    let (a, q') := exec q op
    let (as, q'') := execAll q' ops
    (a :: as, q'')

end

section
variable {α : Type}

/-- when an operation may be called on a queue of capacity `c` -/
def Op.ok (c : Nat) (l : ThreeLists α) : Op α → Prop
  | .push _ => l.all.length < c
  | .pop => TriqueueOps.canPop l = true
  | .writeHead _ | .head => l.all ≠ []
  | .writeMiddle _ | .peekMiddle => l.mid ≠ []
  | .writeThird _ | .peekThird => l.inp ≠ []
  | _ => True

/-- every operation of the sequence may be called where it is called -/
def opsOk (c : Nat) : ThreeLists α → List (Op α) → Prop
  | _, [] => True
  | l, op :: ops => op.ok c l ∧ opsOk c (exec l op).2 ops

end

end ForkNS
