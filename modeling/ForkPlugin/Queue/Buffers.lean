import ForkPlugin.Queue.Refine
import ForkPlugin.Lib.Runs

/-!
# All of `circular_buffer`

Besides the operations that the queue needs, buffers are copied, assigned, swapped, cleared and
enlarged.  A cell is constructed before it is used, and destroyed once.

* `Checked`            a buffer with the number of faults against this so far;
* `clear`, `reserve`, `copy`, `ofRange` ...   the other members, with what they do to the cells;
* `Exact c b xs`       the buffer contains `xs`, and nothing else is constructed;
* `exact_pushBack`, ... `exact_ofRange`   one lemma a member: the contents, and no fault;
* `exact_copy`         but the copy constructor destroys as many cells as it copies, before
                       anything is constructed in them;
* `Heap`, `Lists`      several buffers, and what they stand for;
* `stores_step`        the buffers follow the lists, member by member;
* `buffers_refine`     so it is for every program on several buffers: they answer what the lists
                       say, and there are as many faults as items that copies of buffers copied.
-/

namespace ForkNS

open Runs

namespace CircularBuffer
variable {α : Type}

/-! ## the members -/

/-- an object is constructed in `array_[i]` -/
def live (b : CircularBuffer α) (i : Nat) : Bool := (b.cell i).isSome

/-- the faults: an object is constructed over another one, nothing is assigned to or destroyed, an
object is never destroyed -/
abbrev Checked (α : Type) := CircularBuffer α × Nat

def pushBackChecked (acceptWhenFull : Bool) (b : CircularBuffer α) (item : α) : Checked α :=
  let next := b.nextTail
  let faults :=
    if b.contentsSize = b.arraySize then
      -- assignment!
      if acceptWhenFull then if b.live next then 0 else 1 else 0
    else if b.live next then 1 else 0
  (b.pushBack acceptWhenFull item, faults)

def popFrontChecked (b : CircularBuffer α) : Checked α :=
  (b.popFront, if b.live b.head then 0 else 1)

/-- the first `n` elements are destroyed -/
def destroyElements (b : CircularBuffer α) (n : Nat) : Checked α :=
  (List.range n).foldl (fun r n =>
    let i := b.indexToSubscript n
    (r.1.destroy i, r.2 + if r.1.live i then 0 else 1)) (b, 0)

def destroyAllElements (b : CircularBuffer α) : Checked α := b.destroyElements b.contentsSize

def clear (b : CircularBuffer α) : Checked α :=
  let r := b.destroyAllElements
  ({ r.1 with head := 1, tail := 0, contentsSize := 0 }, r.2)

/-- the destructor; an object that is left in the array is a fault -/
def delete (b : CircularBuffer α) : Nat :=
  let r := b.destroyAllElements
  r.2 + r.1.array.countP Option.isSome

/-- from `begin()` to `end()` -/
def items (b : CircularBuffer α) : List α := (List.range b.contentsSize).filterMap b.atUnchecked

def pushAll (acceptWhenFull : Bool) (r : Checked α) (xs : List α) : Checked α :=
  xs.foldl (fun r x =>
    let p := r.1.pushBackChecked acceptWhenFull x
    (p.1, r.2 + p.2)) r

def clearIfAny (b : CircularBuffer α) : Checked α :=
  if b.contentsSize ≠ 0 then b.clear else (b, 0)

def assignInto (acceptWhenFull : Bool) (b : CircularBuffer α) (xs : List α) : Checked α :=
  pushAll acceptWhenFull b.clearIfAny xs

def reserve (acceptWhenFull : Bool) (b : CircularBuffer α) (newSize : Nat) : Checked α :=
  if b.arraySize < newSize then
    let tmp := (create newSize).assignInto acceptWhenFull b.items
    (tmp.1, tmp.2 + b.delete)
  else (b, 0)

/-- the body of the loop: a full array grows first -/
def pushReserving (acceptWhenFull : Bool) (b : CircularBuffer α) (x : α) : Checked α :=
  let g :=
    if b.contentsSize = b.arraySize then b.reserve acceptWhenFull (b.arraySize * 3 / 2)
    else (b, 0)
  let p := g.1.pushBackChecked acceptWhenFull x
  (p.1, g.2 + p.2)

def assignIntoReserving (acceptWhenFull : Bool) (b : CircularBuffer α) (xs : List α) :
    Checked α :=
  xs.foldl (fun r x =>
    let p := r.1.pushReserving acceptWhenFull x
    (p.1, r.2 + p.2)) b.clearIfAny

/-- the copy constructor: the other offsets, and a new array -/
def copy (acceptWhenFull : Bool) (other : CircularBuffer α) : Checked α :=
  ({ other with array := List.replicate other.arraySize none } : CircularBuffer α).assignInto
    acceptWhenFull other.items

/-- the constructor from a range, over the default capacity -/
def ofRange (acceptWhenFull : Bool) (xs : List α) : Checked α :=
  let tmp := (create 100).assignIntoReserving acceptWhenFull xs
  (tmp.1, tmp.2 + (create 1 : CircularBuffer α).delete)

/-- `operator=` -/
def assign (acceptWhenFull : Bool) (b other : CircularBuffer α) : Checked α :=
  let tmp := other.copy acceptWhenFull
  (tmp.1, tmp.2 + b.delete)

def back (b : CircularBuffer α) : Option α := b.cell b.tail

/-- `none` is `std::out_of_range` -/
def atChecked (b : CircularBuffer α) (index : Nat) : Option α :=
  if index ≥ b.contentsSize then none else b.atUnchecked index

/-! ## what is constructed -/

/-- the buffer contains `xs`, and no other cell is constructed -/
structure Exact (c : Nat) (b : CircularBuffer α) (xs : List α) : Prop extends Holds c b xs where
  two : 2 ≤ c
  dead : ∀ j, (∀ i < xs.length, j ≠ (i + b.head) % c) → b.cell j = none

section
variable {c : Nat} {b : CircularBuffer α} {xs : List α}

theorem Exact.live_item (H : Exact c b xs) {i : Nat} (hi : i < xs.length) :
    b.live ((i + b.head) % c) = true := by
  rw [live, H.cell i hi, List.getElem?_eq_getElem hi]
  rfl

/-- the next cell is free -/
theorem Exact.live_next (H : Exact c b xs) (room : xs.length < c) : b.live b.nextTail = false := by
  rw [live, H.dead]
  · rfl
  · intro i hi heq
    rw [H.nextTail] at heq
    have := ring_inj room (by omega) heq
    omega

theorem exact_create (two : 2 ≤ c) : Exact c (create c : CircularBuffer α) [] where
  toHolds := holds_create c two
  two := two
  dead j _ := by
    show ((List.replicate c (none : Option α))[j]?).join = none
    rw [List.getElem?_replicate]
    split_ifs <;> rfl

theorem exact_pushBack (H : Exact c b xs) (room : xs.length < c) (accept : Bool) (x : α) :
    Exact c (b.pushBackChecked accept x).1 (xs ++ [x]) ∧ (b.pushBackChecked accept x).2 = 0 := by
  have hne : ¬b.contentsSize = b.arraySize := by
    rw [H.size, H.arraySize]
    omega
  have hb : b.pushBack accept x = (b.write b.nextTail x).incrementTail := by
    unfold pushBack
    simp only [if_neg hne]
  have hhead : (b.pushBack accept x).head = b.head := by rw [hb]; rfl
  refine ⟨⟨holds_pushBack H.toHolds room accept x, H.two, ?_⟩, ?_⟩
  · show ∀ j, (∀ i < (xs ++ [x]).length, j ≠ (i + (b.pushBack accept x).head) % c) →
      (b.pushBack accept x).cell j = none
    rw [hhead, List.length_append, List.length_singleton, hb]
    intro j hj'
    show (b.write b.nextTail x).cell j = none
    rw [cell_write _ _ _ _ (by rw [H.length]; exact nextTail_lt H.toHolds), if_neg ?_]
    · exact H.dead j fun i hi => hj' i (by omega)
    · rw [H.nextTail]
      exact (hj' xs.length (by omega)).symm
  · simp only [pushBackChecked, if_neg hne, H.live_next room]
    rfl

theorem exact_popFront {x : α} (H : Exact c b (x :: xs)) :
    Exact c b.popFrontChecked.1 xs ∧ b.popFrontChecked.2 = 0 := by
  have hhead := H.live_item (Nat.zero_lt_succ xs.length)
  rw [ring_head H.head_lt] at hhead
  refine ⟨⟨holds_popFront H.toHolds, H.two, ?_⟩, ?_⟩
  · intro j hj
    show (b.incrementHead.destroy b.head).cell j = none
    by_cases hjh : b.head = j
    · show ((b.array.set b.head none)[j]?).join = none
      rw [hjh, List.getElem?_set_self']
      cases b.array[j]? <;> rfl
    · rw [cell_destroy _ _ _ hjh]
      refine H.dead j fun i hi => ?_
      cases i with
      | zero =>
        rw [ring_head H.head_lt]
        exact Ne.symm hjh
      | succ i =>
        have hidx : (i + b.popFrontChecked.1.head) % c = (i + 1 + b.head) % c :=
          incrementHead_index H.arraySize H.head_lt i
        rw [← hidx]
        exact hj i (by rw [List.length_cons] at hi; omega)
  · simp only [popFrontChecked, hhead]
    rfl

/-- a full buffer drops the oldest item -/
theorem exact_pushFull {y : α} {ys : List α} (H : Exact c b (y :: ys))
    (full : (y :: ys).length = c) (x : α) :
    Exact c (b.pushBackChecked true x).1 (ys ++ [x]) ∧ (b.pushBackChecked true x).2 = 0 := by
  have heq : b.contentsSize = b.arraySize := by rw [H.size, H.arraySize, full]
  have hnext : b.nextTail = b.head := by
    rw [H.nextTail, full, Nat.add_mod_left, Nat.mod_eq_of_lt H.head_lt]
  -- it is as if the oldest item had been removed before
  have hpop : b.pushBack true x = b.popFront.pushBack true x := by
    have hroom : ¬b.popFront.contentsSize = b.popFront.arraySize := by
      show ¬b.contentsSize - 1 = b.arraySize
      have := H.arraySize
      have := H.pos
      omega
    rw [pushBack, pushBack]
    simp only [if_pos heq, if_true, if_neg hroom]
    show (b.write b.nextTail x).incrementHead.incrementTail
      = (b.popFront.write b.nextTail x).incrementTail
    rw [hnext]
    have harray : (b.array.set b.head none).set b.head (some x) = b.array.set b.head (some x) :=
      List.set_set ..
    show _ = ({ b.popFront with
      array := (b.array.set b.head none).set b.head (some x) } : CircularBuffer α).incrementTail
    rw [harray]
    rfl
  have hroom : ys.length < c := by
    rw [← full]
    exact Nat.lt_succ_self _
  have hhead := H.live_item (Nat.zero_lt_succ ys.length)
  rw [ring_head H.head_lt] at hhead
  refine ⟨?_, ?_⟩
  · show Exact c (b.pushBack true x) (ys ++ [x])
    rw [hpop]
    exact (exact_pushBack (exact_popFront H).1 hroom true x).1
  · simp only [pushBackChecked, if_pos heq, if_true, hnext, hhead]

/-! ### the elements are destroyed -/

/-- the first `n` elements are destroyed, and nothing else; all of them were there, or none -/
theorem destroyElements_spec (hsize : b.arraySize = c) (hlen : b.array.length = c) {n : Nat}
    (hn : n ≤ c) {l : Bool} (hlive : ∀ i < n, b.live ((i + b.head) % c) = l) :
    (∀ i < n, (b.destroyElements n).1.cell ((i + b.head) % c) = none) ∧
    (∀ j, (∀ i < n, j ≠ (i + b.head) % c) → (b.destroyElements n).1.cell j = b.cell j) ∧
    (b.destroyElements n).2 = (if l then 0 else n) ∧
    ∃ array, (b.destroyElements n).1 = { b with array := array } ∧ array.length = c := by
  induction n with
  | zero =>
    refine ⟨fun i hi => absurd hi (Nat.not_lt_zero i), fun j _ => rfl, ?_, b.array, rfl, hlen⟩
    cases l <;> rfl
  | succ n ih =>
    obtain ⟨hdead, hkept, hfaults, array, harray, hlen'⟩ :=
      ih (by omega) fun i hi => hlive i (by omega)
    have hstep : b.destroyElements (n + 1)
        = ((b.destroyElements n).1.destroy ((n + b.head) % c), (b.destroyElements n).2 +
            if (b.destroyElements n).1.live ((n + b.head) % c) then 0 else 1) := by
      show (List.range (n + 1)).foldl _ _ = _
      rw [List.range_succ, List.foldl_append]
      show ((b.destroyElements n).1.destroy (b.indexToSubscript n), _) = _
      rw [show b.indexToSubscript n = (n + b.head) % c by rw [← hsize]; rfl]
      rfl
    have hother : ∀ i < n, (n + b.head) % c ≠ (i + b.head) % c := fun i hi heq => by
      have := ring_inj (by omega) (by omega) heq
      omega
    rw [hstep]
    refine ⟨fun i hi => ?_, fun j hj => ?_, ?_, array.set ((n + b.head) % c) none, ?_, ?_⟩
    · by_cases hin : i = n
      · subst hin
        show (((b.destroyElements i).1.array.set _ none)[(i + b.head) % c]?).join = none
        rw [List.getElem?_set_self']
        cases (b.destroyElements i).1.array[(i + b.head) % c]? <;> rfl
      · rw [cell_destroy _ _ _ (hother i (by omega))]
        exact hdead i (by omega)
    · rw [cell_destroy _ _ _ (hj n (Nat.lt_succ_self n)).symm]
      exact hkept j fun i hi => hj i (by omega)
    · have hl : (b.destroyElements n).1.live ((n + b.head) % c) = l := by
        rw [live, hkept _ hother]
        exact hlive n (Nat.lt_succ_self n)
      rw [hl, hfaults]
      cases l <;> rfl
    · rw [harray]
      rfl
    · rw [List.length_set, hlen']

theorem Exact.destroyAll (H : Exact c b xs) : (∀ j, b.destroyAllElements.1.cell j = none) ∧
    b.destroyAllElements.2 = 0 ∧
    ∃ array, b.destroyAllElements.1 = { b with array := array } ∧ array.length = c := by
  have hfits := H.fits
  obtain ⟨hdead, hkept, hfaults, hrest⟩ := destroyElements_spec H.arraySize H.length hfits
    fun i hi => H.live_item hi
  have hall : b.destroyAllElements = b.destroyElements xs.length := by
    rw [destroyAllElements, H.size]
  rw [hall]
  refine ⟨fun j => ?_, hfaults, hrest⟩
  by_cases hj : ∃ i < xs.length, j = (i + b.head) % c
  · obtain ⟨i, hi, rfl⟩ := hj
    exact hdead i hi
  · have hj' : ∀ i < xs.length, j ≠ (i + b.head) % c := fun i hi heq => hj ⟨i, hi, heq⟩
    rw [hkept j hj']
    exact H.dead j hj'

/-- the destructor leaves nothing, and meets no fault -/
theorem Exact.delete (H : Exact c b xs) : b.delete = 0 := by
  obtain ⟨hdead, hfaults, -⟩ := H.destroyAll
  unfold CircularBuffer.delete
  simp only [hfaults, Nat.zero_add]
  rw [List.countP_eq_zero]
  intro x hx
  obtain ⟨j, hj, rfl⟩ := List.mem_iff_getElem.mp hx
  have hcell := hdead j
  rw [cell, List.getElem?_eq_getElem hj] at hcell
  simpa using hcell

/-- an empty array, with the offsets of a new buffer -/
theorem exact_of_dead (two : 2 ≤ c) (hsize : b.arraySize = c) (hlen : b.array.length = c)
    (hdead : ∀ j, b.cell j = none) :
    Exact c { b with head := 1, tail := 0, contentsSize := 0 } [] where
  pos := by omega
  arraySize := hsize
  length := hlen
  head_lt := by show 1 < c; omega
  tail_lt := by show 0 < c; omega
  size := rfl
  fits := Nat.zero_le _
  nextTail := by
    show (if 0 + 1 = b.arraySize then 0 else 0 + 1) = (0 + 1) % c
    rw [hsize]
    exact ring_succ (by omega)
  cell := fun i hi => absurd hi (Nat.not_lt_zero i)
  two := two
  dead := fun j _ => hdead j

theorem exact_clear (H : Exact c b xs) : Exact c b.clear.1 [] ∧ b.clear.2 = 0 := by
  obtain ⟨hdead, hfaults, array, harray, hlen⟩ := H.destroyAll
  refine ⟨?_, hfaults⟩
  have hclear : b.clear.1
      = { b.destroyAllElements.1 with head := 1, tail := 0, contentsSize := 0 } := rfl
  rw [hclear]
  rw [harray] at hdead ⊢
  exact exact_of_dead (b := { b with array := array }) H.two H.arraySize hlen hdead

theorem exact_clearIfAny (H : Exact c b xs) :
    Exact c b.clearIfAny.1 [] ∧ b.clearIfAny.2 = 0 := by
  unfold clearIfAny
  by_cases hsize : b.contentsSize = 0
  · rw [if_neg (not_not.mpr hsize)]
    rw [H.size, List.length_eq_zero_iff] at hsize
    subst hsize
    exact ⟨H, rfl⟩
  · rw [if_pos hsize]
    exact exact_clear H

/-! ### many elements -/

theorem items_eq (H : Holds c b xs) : b.items = xs := by
  have hat : ∀ n ≤ xs.length, (List.range n).filterMap b.atUnchecked = xs.take n := by
    intro n hn
    induction n with
    | zero => rfl
    | succ n ih =>
      rw [List.range_succ, List.filterMap_append, ih (by omega), List.take_add_one]
      congr 1
      rw [List.filterMap_cons, atUnchecked_eq H n (by omega)]
      cases xs[n]? <;> rfl
  rw [items, H.size, hat _ (le_refl _), List.take_length]

theorem exact_pushAll {f : Nat} (H : Exact c b xs) (accept : Bool) (ys : List α)
    (room : xs.length + ys.length ≤ c) :
    Exact c (pushAll accept (b, f) ys).1 (xs ++ ys) ∧ (pushAll accept (b, f) ys).2 = f := by
  induction ys generalizing b xs with
  | nil =>
    rw [List.append_nil]
    exact ⟨H, rfl⟩
  | cons y ys ih =>
    rw [List.length_cons] at room
    obtain ⟨hpush, hfaults⟩ := exact_pushBack H (by omega) accept y
    have hstep : pushAll accept (b, f) (y :: ys)
        = pushAll accept ((b.pushBackChecked accept y).1, f) ys := by
      show pushAll accept
        ((b.pushBackChecked accept y).1, f + (b.pushBackChecked accept y).2) ys = _
      rw [hfaults, Nat.add_zero]
    rw [hstep, ← List.singleton_append, ← List.append_assoc]
    exact ih hpush (by rw [List.length_append, List.length_singleton]; omega)

theorem exact_assignInto (H : Exact c b xs) (accept : Bool) {ys : List α}
    (room : ys.length ≤ c) :
    Exact c (b.assignInto accept ys).1 ys ∧ (b.assignInto accept ys).2 = 0 := by
  obtain ⟨hclear, hfaults⟩ := exact_clearIfAny H
  have hstart : b.clearIfAny = (b.clearIfAny.1, 0) := Prod.ext rfl hfaults
  rw [assignInto, hstart]
  exact exact_pushAll hclear accept ys (by simpa using room)

/-- a larger array -/
theorem exact_reserve (H : Exact c b xs) (accept : Bool) (n : Nat) :
    Exact (max c n) (b.reserve accept n).1 xs ∧ (b.reserve accept n).2 = 0 := by
  unfold reserve
  rw [H.arraySize]
  by_cases hn : c < n
  · rw [if_pos hn, max_eq_right (le_of_lt hn), items_eq H.toHolds]
    have hfits := H.fits
    have htwo := H.two
    have hcreate : Exact n (create n : CircularBuffer α) [] := exact_create (by omega)
    obtain ⟨hnew, hfaults⟩ := exact_assignInto hcreate accept (show xs.length ≤ n by omega)
    refine ⟨hnew, ?_⟩
    show _ + b.delete = 0
    rw [hfaults, H.delete]
  · rw [if_neg hn, max_eq_left (not_lt.mp hn)]
    exact ⟨H, rfl⟩

/-- **The copy constructor** copies, but where there is something to copy it destroys that many
cells of its new array first. -/
theorem exact_copy (H : Exact c b xs) (accept : Bool) :
    Exact c (b.copy accept).1 xs ∧ (b.copy accept).2 = xs.length := by
  have hcell : ∀ j, ({ b with array := List.replicate b.arraySize none } :
      CircularBuffer α).cell j = none := by
    intro j
    show ((List.replicate b.arraySize (none : Option α))[j]?).join = none
    rw [List.getElem?_replicate]
    split_ifs <;> rfl
  have hlen : (List.replicate b.arraySize (none : Option α)).length = c := by
    rw [List.length_replicate, H.arraySize]
  rw [copy, assignInto, items_eq H.toHolds]
  generalize hraw : ({ b with array := List.replicate b.arraySize none } : CircularBuffer α) = raw
    at hcell ⊢
  have hsize : raw.contentsSize = xs.length := by rw [← hraw]; exact H.size
  have hfits := H.fits
  by_cases hxs : xs = []
  · subst hxs
    rw [clearIfAny, if_neg (by rw [hsize]; simp)]
    refine ⟨⟨⟨H.pos, ?_, ?_, ?_, ?_, hsize, hfits, ?_, fun i hi => absurd hi (Nat.not_lt_zero i)⟩,
      H.two, fun j _ => hcell j⟩, rfl⟩ <;> rw [← hraw]
    · exact H.arraySize
    · exact hlen
    · exact H.head_lt
    · exact H.tail_lt
    · exact H.nextTail
  · have hne : raw.contentsSize ≠ 0 := by
      rw [hsize]
      exact fun h => hxs (List.length_eq_zero_iff.mp h)
    have harraySize : raw.arraySize = c := by rw [← hraw]; exact H.arraySize
    have hlength : raw.array.length = c := by rw [← hraw]; exact hlen
    have hnone : ∀ i < xs.length, raw.live ((i + raw.head) % c) = false := fun i _ => by
      rw [live, hcell]
      rfl
    obtain ⟨hgone, hkept, hfaults, array, harray, hlen'⟩ :=
      destroyElements_spec harraySize hlength hfits hnone
    have hdead : ∀ j, (raw.destroyElements xs.length).1.cell j = none := by
      intro j
      by_cases hj : ∃ i < xs.length, j = (i + raw.head) % c
      · obtain ⟨i, hi, rfl⟩ := hj
        exact hgone i hi
      · rw [hkept j fun i hi heq => hj ⟨i, hi, heq⟩]
        exact hcell j
    rw [harray] at hdead
    have hclear : raw.clearIfAny
        = ({ raw with array := array, head := 1, tail := 0, contentsSize := 0 }, xs.length) := by
      have hall : raw.destroyAllElements = raw.destroyElements xs.length := by
        rw [destroyAllElements, hsize]
      rw [clearIfAny, if_pos hne, clear, hall]
      simp only [harray, hfaults]
      rfl
    rw [hclear]
    exact exact_pushAll (exact_of_dead (b := { raw with array := array }) H.two harraySize hlen'
      hdead) accept xs (by simpa using hfits)

theorem exact_assign {b' : CircularBuffer α} {c' : Nat} {ys : List α} (H : Exact c b xs)
    (H' : Exact c' b' ys) (accept : Bool) :
    Exact c' (b.assign accept b').1 ys ∧ (b.assign accept b').2 = ys.length := by
  obtain ⟨hcopy, hfaults⟩ := exact_copy H' accept
  refine ⟨hcopy, ?_⟩
  show (b'.copy accept).2 + b.delete = _
  rw [hfaults, H.delete, Nat.add_zero]

/-! ### a buffer that grows -/

/-- the capacity after further items, from `n` items and the capacity `c` -/
def grown (c n : Nat) : List α → Nat
  | [] => c
  | _ :: xs => grown (if n = c then c * 3 / 2 else c) (n + 1) xs

theorem exact_pushReserving (H : Exact c b xs) (accept : Bool) (x : α) :
    Exact (if xs.length = c then c * 3 / 2 else c) (b.pushReserving accept x).1 (xs ++ [x]) ∧
      (b.pushReserving accept x).2 = 0 := by
  have hfits := H.fits
  have htwo := H.two
  unfold pushReserving
  rw [H.size, H.arraySize]
  by_cases hfull : xs.length = c
  · rw [if_pos hfull, if_pos hfull]
    obtain ⟨hgrown, hfaults⟩ := exact_reserve H accept (c * 3 / 2)
    rw [max_eq_right (by omega)] at hgrown
    obtain ⟨hpush, hpushed⟩ := exact_pushBack hgrown (by omega) accept x
    exact ⟨hpush, by simp only [hfaults, hpushed]⟩
  · rw [if_neg hfull, if_neg hfull]
    obtain ⟨hpush, hpushed⟩ := exact_pushBack H (by omega) accept x
    exact ⟨hpush, by simp only [hpushed]⟩

/-- nothing is dropped, whatever the policy -/
theorem exact_assignIntoReserving (H : Exact c b xs) (accept : Bool) (ys : List α) :
    Exact (grown c 0 ys) (b.assignIntoReserving accept ys).1 ys ∧
      (b.assignIntoReserving accept ys).2 = 0 := by
  obtain ⟨hclear, hfaults⟩ := exact_clearIfAny H
  have hstart : b.clearIfAny = (b.clearIfAny.1, 0) := Prod.ext rfl hfaults
  rw [assignIntoReserving, hstart]
  have hloop : ∀ (ys xs : List α) (c : Nat) (b : CircularBuffer α), Exact c b xs →
      Exact (grown c xs.length ys) (ys.foldl (fun r x =>
        ((r.1.pushReserving accept x).1, r.2 + (r.1.pushReserving accept x).2)) (b, 0)).1
        (xs ++ ys) ∧ (ys.foldl (fun r x =>
        ((r.1.pushReserving accept x).1, r.2 + (r.1.pushReserving accept x).2)) (b, 0)).2 = 0 := by
    intro ys
    induction ys with
    | nil =>
      intro xs c b H
      rw [List.append_nil]
      exact ⟨H, rfl⟩
    | cons y ys ih =>
      intro xs c b H
      obtain ⟨hpush, hpushed⟩ := exact_pushReserving H accept y
      have hnext := ih _ _ _ hpush
      rw [List.length_append, List.length_singleton, List.append_assoc] at hnext
      rw [List.foldl_cons, hpushed]
      exact hnext
  exact hloop ys [] c _ hclear

theorem exact_ofRange (accept : Bool) (xs : List α) :
    Exact (grown 100 0 xs) (ofRange accept xs).1 xs ∧ (ofRange accept xs).2 = 0 := by
  have hnew : Exact 100 (create 100 : CircularBuffer α) [] := exact_create (by omega)
  obtain ⟨hrange, hfaults⟩ := exact_assignIntoReserving hnew accept xs
  exact ⟨hrange, by simp only [ofRange, hfaults]; rfl⟩

/-! ### what the members answer -/

theorem back_eq (H : Holds c b xs) (hne : xs ≠ []) : b.back = xs.getLast? := by
  have hpos := List.length_pos_of_ne_nil hne
  have htail : b.tail = (xs.length - 1 + b.head) % c := by
    have hnext := H.nextTail
    rw [nextTail, H.arraySize, ring_succ H.tail_lt] at hnext
    have hsum : xs.length + b.head = xs.length - 1 + b.head + 1 := by omega
    rw [hsum] at hnext
    have hm : b.tail ≡ xs.length - 1 + b.head [MOD c] := Nat.ModEq.add_right_cancel' 1 hnext
    have hm' : b.tail % c = (xs.length - 1 + b.head) % c := hm
    rwa [Nat.mod_eq_of_lt H.tail_lt] at hm'
  rw [back, htail, H.cell _ (by omega), List.getLast?_eq_getElem?]

theorem atChecked_eq (H : Holds c b xs) (n : Nat) : b.atChecked n = xs[n]? := by
  unfold atChecked
  rw [H.size]
  by_cases hn : n < xs.length
  · rw [if_neg (not_le.mpr hn), atUnchecked_eq H n hn]
  · rw [if_pos (not_lt.mp hn), List.getElem?_eq_none (not_lt.mp hn)]

/-- the public answers, and what the destructor would find -/
structure Answers (b : CircularBuffer α) (c : Nat) (xs : List α) : Prop where
  size : b.size = xs.length
  capacity : b.arraySize = c
  empty : b.empty = xs.isEmpty
  items : b.items = xs
  front : xs ≠ [] → b.front = xs.head?
  back : xs ≠ [] → b.back = xs.getLast?
  atIndex : ∀ n, b.atChecked n = xs[n]?
  delete : b.delete = 0

theorem Exact.answers (H : Exact c b xs) : Answers b c xs where
  size := H.size
  capacity := H.arraySize
  empty := by
    show (b.contentsSize == 0) = xs.isEmpty
    rw [H.size]
    cases xs <;> rfl
  items := items_eq H.toHolds
  front := front_eq H.toHolds
  back := back_eq H.toHolds
  atIndex := atChecked_eq H.toHolds
  delete := H.delete

end

end CircularBuffer

/-! ## several buffers -/

section
variable {α : Type}

/-- the public members, on the variables `i`, `j` -/
inductive BufferOp (α : Type) where
  | construct (i capacity : ℕ)
  | constructFrom (i : ℕ) (items : List α)
  | constructCopy (i j : ℕ)
  | destruct (i : ℕ)
  | assign (i j : ℕ)
  | swap (i j : ℕ)
  | pushBack (i : ℕ) (item : α)
  | popFront (i : ℕ)
  | clear (i : ℕ)
  | reserve (i newSize : ℕ)

/-- the buffers that are alive, and the faults so far -/
structure Heap (α : Type) where
  buffers : ℕ → Option (CircularBuffer α)
  faults : ℕ

namespace Heap

def init : Heap α := ⟨fun _ => none, 0⟩

def put (s : Heap α) (i : ℕ) (r : CircularBuffer.Checked α) : Heap α :=
  ⟨Function.update s.buffers i (some r.1), s.faults + r.2⟩

/-- a variable is constructed once, and used while it is alive -/
def step (accept : Bool) (s : Heap α) : BufferOp α → Option (Heap α)
  | .construct i capacity =>
    match s.buffers i with
    | none => some (s.put i (CircularBuffer.create capacity, 0))
    | some _ => none
  | .constructFrom i items =>
    match s.buffers i with
    | none => some (s.put i (CircularBuffer.ofRange accept items))
    | some _ => none
  | .constructCopy i j =>
    match s.buffers i, s.buffers j with
    | none, some other => some (s.put i (other.copy accept))
    | _, _ => none
  | .destruct i => (s.buffers i).map fun b =>
      ⟨Function.update s.buffers i none, s.faults + b.delete⟩
  | .assign i j =>
    match s.buffers i, s.buffers j with
    | some b, some other => some (s.put i (b.assign accept other))
    | _, _ => none
  | .swap i j =>
    match s.buffers i, s.buffers j with
    | some b, some other => some ((s.put i (other, 0)).put j (b, 0))
    | _, _ => none
  | .pushBack i item => (s.buffers i).map fun b => s.put i (b.pushBackChecked accept item)
  | .popFront i => (s.buffers i).map fun b => s.put i b.popFrontChecked
  | .clear i => (s.buffers i).map fun b => s.put i b.clear
  | .reserve i newSize => (s.buffers i).map fun b => s.put i (b.reserve accept newSize)

end Heap

/-- a list that is at most so long -/
structure BoundedList (α : Type) where
  capacity : ℕ
  items : List α
deriving DecidableEq, Repr

/-- what the variables stand for, and how many items were copied by copying a buffer -/
structure Lists (α : Type) where
  lists : ℕ → Option (BoundedList α)
  copied : ℕ

namespace Lists

def init : Lists α := ⟨fun _ => none, 0⟩

def put (s : Lists α) (i : ℕ) (l : BoundedList α) (copied : ℕ) : Lists α :=
  ⟨Function.update s.lists i (some l), s.copied + copied⟩

/-- a full list drops its oldest item for a new one, where that is the policy -/
def pushed (accept : Bool) (l : BoundedList α) (item : α) : Option (BoundedList α) :=
  if l.items.length < l.capacity then some { l with items := l.items ++ [item] }
  else if accept then some { l with items := l.items.tail ++ [item] }
  else none

def popped : BoundedList α → Option (BoundedList α)
  | ⟨_, []⟩ => none
  | ⟨c, _ :: items⟩ => some ⟨c, items⟩

/-- the members as they are meant; nothing is pushed to a full buffer that does not accept it, and
nothing is popped from an empty one -/
def step (accept : Bool) (s : Lists α) : BufferOp α → Option (Lists α)
  | .construct i capacity =>
    match s.lists i with
    | none => if 2 ≤ capacity then some (s.put i ⟨capacity, []⟩ 0) else none
    | some _ => none
  | .constructFrom i items =>
    match s.lists i with
    | none => some (s.put i ⟨CircularBuffer.grown 100 0 items, items⟩ 0)
    | some _ => none
  | .constructCopy i j =>
    match s.lists i, s.lists j with
    | none, some other => some (s.put i other other.items.length)
    | _, _ => none
  | .destruct i => (s.lists i).map fun _ => ⟨Function.update s.lists i none, s.copied⟩
  | .assign i j =>
    match s.lists i, s.lists j with
    | some _, some other => some (s.put i other other.items.length)
    | _, _ => none
  | .swap i j =>
    match s.lists i, s.lists j with
    | some l, some other => some ((s.put i other 0).put j l 0)
    | _, _ => none
  | .pushBack i item => (s.lists i).bind fun l => (pushed accept l item).map (s.put i · 0)
  | .popFront i => (s.lists i).bind fun l => (popped l).map (s.put i · 0)
  | .clear i => (s.lists i).map fun l => s.put i { l with items := [] } 0
  | .reserve i newSize => (s.lists i).map fun l =>
      s.put i { l with capacity := max l.capacity newSize } 0

end Lists

/-! ### every program -/

/-- every buffer contains its list, and each fault is an item that was copied -/
structure Stores (s : Heap α) (l : Lists α) : Prop where
  buffers : ∀ i, Option.Rel (fun b l => CircularBuffer.Exact l.capacity b l.items)
    (s.buffers i) (l.lists i)
  faults : s.faults = l.copied

variable {s : Heap α} {l l' : Lists α} {i : ℕ} {o : BoundedList α}

theorem stores_init : Stores (Heap.init : Heap α) Lists.init where
  buffers _ := .none
  faults := rfl

theorem Stores.none (h : Stores s l) (hi : l.lists i = none) : s.buffers i = none := by
  have hrel := h.buffers i
  rw [hi] at hrel
  generalize s.buffers i = b at hrel
  cases hrel
  rfl

theorem Stores.some (h : Stores s l) (hi : l.lists i = some o) :
    ∃ b, s.buffers i = some b ∧ CircularBuffer.Exact o.capacity b o.items := by
  have hrel := h.buffers i
  rw [hi] at hrel
  generalize s.buffers i = b at hrel
  cases hrel with
  | some hb => exact ⟨_, rfl, hb⟩

theorem rel_update {β γ : Type} {R : β → γ → Prop} {f : ℕ → β} {g : ℕ → γ} {x : β} {y : γ}
    (h : ∀ i, R (f i) (g i)) (hxy : R x y) (i j : ℕ) :
    R (Function.update f i x j) (Function.update g i y j) := by
  by_cases hj : j = i
  · subst hj
    rw [Function.update_self, Function.update_self]
    exact hxy
  · rw [Function.update_of_ne hj, Function.update_of_ne hj]
    exact h j

theorem Stores.put {r : CircularBuffer.Checked α} {n : ℕ} (h : Stores s l)
    (hr : CircularBuffer.Exact o.capacity r.1 o.items ∧ r.2 = n) (i : ℕ) :
    Stores (s.put i r) (l.put i o n) where
  buffers := rel_update h.buffers (.some hr.1) i
  faults := by
    show s.faults + r.2 = l.copied + n
    rw [h.faults, hr.2]

theorem Stores.remove (h : Stores s l) (i : ℕ) :
    Stores ⟨Function.update s.buffers i .none, s.faults⟩
      ⟨Function.update l.lists i .none, l.copied⟩ where
  buffers := rel_update h.buffers .none i
  faults := h.faults

theorem exact_pushed {c : ℕ} {b : CircularBuffer α} {xs : List α} {accept : Bool} {x : α}
    (H : CircularBuffer.Exact c b xs) (h : Lists.pushed accept ⟨c, xs⟩ x = .some o) :
    CircularBuffer.Exact o.capacity (b.pushBackChecked accept x).1 o.items ∧
      (b.pushBackChecked accept x).2 = 0 := by
  simp only [Lists.pushed] at h
  by_cases room : xs.length < c
  · rw [if_pos room] at h
    obtain rfl := Option.some.inj h
    exact CircularBuffer.exact_pushBack H room accept x
  · rw [if_neg room] at h
    cases accept with
    | false => simp at h
    | true =>
      obtain rfl := Option.some.inj h
      have hfits := H.fits
      have htwo := H.two
      cases xs with
      | nil => simp at room; omega
      | cons y ys => exact CircularBuffer.exact_pushFull H (by omega) x

/-- **One member**: its buffers follow the lists. -/
theorem stores_step (accept : Bool) (s : Heap α) (l : Lists α) (op : BufferOp α) (l' : Lists α)
    (H : Stores s l) (h : l.step accept op = .some l') :
    ∃ s', s.step accept op = .some s' ∧ Stores s' l' := by
  cases op with
  | construct i capacity =>
    simp only [Lists.step] at h
    split at h
    · rename_i hi
      obtain ⟨two, h⟩ := Option.ite_none_right_eq_some.mp h
      obtain rfl := Option.some.inj h
      exact ⟨s.put i (CircularBuffer.create capacity, 0), by simp only [Heap.step, H.none hi],
        H.put ⟨CircularBuffer.exact_create two, rfl⟩ i⟩
    · cases h
  | constructFrom i items =>
    simp only [Lists.step] at h
    split at h
    · rename_i hi
      obtain rfl := Option.some.inj h
      exact ⟨_, by simp only [Heap.step, H.none hi],
        H.put (CircularBuffer.exact_ofRange accept items) i⟩
    · cases h
  | constructCopy i j =>
    simp only [Lists.step] at h
    split at h
    · rename_i other hi hj
      obtain rfl := Option.some.inj h
      obtain ⟨b, hb, hexact⟩ := H.some hj
      exact ⟨_, by simp only [Heap.step, H.none hi, hb],
        H.put (CircularBuffer.exact_copy hexact accept) i⟩
    · cases h
  | destruct i =>
    obtain ⟨o, hi, rfl⟩ := Option.map_eq_some_iff.mp h
    obtain ⟨b, hb, hexact⟩ := H.some hi
    refine ⟨⟨Function.update s.buffers i .none, s.faults + b.delete⟩,
      by simp only [Heap.step, hb, Option.map_some], ?_⟩
    rw [hexact.delete]
    exact H.remove i
  | assign i j =>
    simp only [Lists.step] at h
    split at h
    · rename_i o other hi hj
      obtain rfl := Option.some.inj h
      obtain ⟨b, hb, hexact⟩ := H.some hi
      obtain ⟨b', hb', hexact'⟩ := H.some hj
      exact ⟨_, by simp only [Heap.step, hb, hb'],
        H.put (CircularBuffer.exact_assign hexact hexact' accept) i⟩
    · cases h
  | swap i j =>
    simp only [Lists.step] at h
    split at h
    · rename_i o other hi hj
      obtain rfl := Option.some.inj h
      obtain ⟨b, hb, hexact⟩ := H.some hi
      obtain ⟨b', hb', hexact'⟩ := H.some hj
      exact ⟨_, by simp only [Heap.step, hb, hb'],
        (H.put (r := (b', 0)) ⟨hexact', rfl⟩ i).put (r := (b, 0)) ⟨hexact, rfl⟩ j⟩
    · cases h
  | pushBack i item =>
    obtain ⟨o, hi, h⟩ := Option.bind_eq_some_iff.mp h
    obtain ⟨o', ho', rfl⟩ := Option.map_eq_some_iff.mp h
    obtain ⟨b, hb, hexact⟩ := H.some hi
    exact ⟨_, by simp only [Heap.step, hb, Option.map_some], H.put (exact_pushed hexact ho') i⟩
  | popFront i =>
    obtain ⟨⟨c, xs⟩, hi, h⟩ := Option.bind_eq_some_iff.mp h
    obtain ⟨o', ho', rfl⟩ := Option.map_eq_some_iff.mp h
    obtain ⟨b, hb, hexact⟩ := H.some hi
    cases xs with
    | nil => cases ho'
    | cons x xs =>
      obtain rfl := Option.some.inj ho'
      exact ⟨_, by simp only [Heap.step, hb, Option.map_some],
        H.put (CircularBuffer.exact_popFront hexact) i⟩
  | clear i =>
    obtain ⟨o, hi, rfl⟩ := Option.map_eq_some_iff.mp h
    obtain ⟨b, hb, hexact⟩ := H.some hi
    exact ⟨_, by simp only [Heap.step, hb, Option.map_some],
      H.put (o := { o with items := [] }) (CircularBuffer.exact_clear hexact) i⟩
  | reserve i newSize =>
    obtain ⟨o, hi, rfl⟩ := Option.map_eq_some_iff.mp h
    obtain ⟨b, hb, hexact⟩ := H.some hi
    exact ⟨_, by simp only [Heap.step, hb, Option.map_some],
      H.put (o := { o with capacity := max o.capacity newSize })
        (CircularBuffer.exact_reserve hexact accept newSize) i⟩

/-- **Every program on several buffers** reads from each what its list says; a cell is destroyed
where nothing is constructed once for each item that a copy of a buffer copies, and there is no
other fault. -/
theorem buffers_refine {accept : Bool} {ops : List (BufferOp α)}
    (h : runs (Lists.step accept) Lists.init ops = .some l) :
    ∃ s, runs (Heap.step accept) Heap.init ops = .some s ∧ s.faults = l.copied ∧
      ∀ i, Option.Rel (fun b l => CircularBuffer.Answers b l.capacity l.items)
        (s.buffers i) (l.lists i) := by
  obtain ⟨s, hs, H⟩ := runs_follow (stores_step accept) stores_init h
  refine ⟨s, hs, H.faults, fun i => ?_⟩
  have hi := H.buffers i
  generalize s.buffers i = b, l.lists i = o at hi ⊢
  cases hi with
  | some hexact => exact .some hexact.answers
  | none => exact .none

/-- a buffer that grows, is copied, and drops its oldest item -/
theorem buffers_refine_copy : ∃ s, runs (Heap.step true) (Heap.init : Heap ℕ)
    [.construct 0 2, .pushBack 0 5, .pushBack 0 6, .pushBack 0 7, .constructCopy 1 0,
      .reserve 1 3, .pushBack 1 8, .popFront 0, .swap 0 1, .destruct 1] = .some s ∧
    s.faults = 2 ∧ ∃ b, s.buffers 0 = .some b ∧ CircularBuffer.Answers b 3 [6, 7, 8] := by
  have h : runs (Lists.step true) (Lists.init : Lists ℕ)
      [.construct 0 2, .pushBack 0 5, .pushBack 0 6, .pushBack 0 7, .constructCopy 1 0,
        .reserve 1 3, .pushBack 1 8, .popFront 0, .swap 0 1, .destruct 1]
      = .some _ := rfl
  obtain ⟨s, hs, hfaults, hrel⟩ := buffers_refine h
  refine ⟨s, hs, hfaults, ?_⟩
  have h0 := hrel 0
  generalize s.buffers 0 = b at h0 ⊢
  cases h0 with
  | some hanswers => exact ⟨_, rfl, hanswers⟩

end

end ForkNS
