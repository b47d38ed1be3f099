import Mathlib.Data.List.Basic
import Mathlib.Logic.Function.Basic

/-!
# Stores that are written cell by cell

A store gives a value to every address.  A write need not replace the value of its cell: the cell
combines the value that it has with the one that is written.

* `write`, `writeAll`     one write, and writes in order;
* `writesTo`              the values that are written to an address, in order;
* `writeAll_apply`        a cell has combined these, and no others;
* `foldl_replace`         a cell that replaces its value has the last of them;
* `read_run`              a system whose operations write to the store that is read from it;
* `fill_apply`            a loop that writes one value to the cells `0`, …, `n - 1`.
-/

namespace Stores

variable {A V : Type*} [DecidableEq A]

/-! ## writes -/

section
variable (combine : A → V → V → V)

def write (f : A → V) (w : A × V) : A → V :=
  Function.update f w.1 (combine w.1 (f w.1) w.2)

def writeAll (f : A → V) (ws : List (A × V)) : A → V := ws.foldl (write combine) f

/-- the values written to `a` -/
def writesTo (a : A) (ws : List (A × V)) : List V :=
  ws.filterMap fun w => if w.1 = a then some w.2 else none

theorem mem_writesTo {a : A} {v : V} {ws : List (A × V)} : v ∈ writesTo a ws ↔ (a, v) ∈ ws := by
  rw [writesTo, List.mem_filterMap]
  constructor
  · rintro ⟨⟨b, w⟩, hw, h⟩
    by_cases hb : b = a
    · rw [if_pos hb] at h
      rw [← hb, ← Option.some.inj h]
      exact hw
    · rw [if_neg hb] at h
      cases h
  · intro h
    exact ⟨_, h, if_pos rfl⟩

theorem writesTo_cons (a : A) (w : A × V) (ws : List (A × V)) :
    writesTo a (w :: ws) = (if w.1 = a then [w.2] else []) ++ writesTo a ws := by
  rw [writesTo, List.filterMap_cons]
  split_ifs <;> rfl

theorem writeAll_cons (f : A → V) (w : A × V) (ws : List (A × V)) :
    writeAll combine f (w :: ws) = writeAll combine (write combine f w) ws := rfl

theorem writeAll_append (f : A → V) (ws ws' : List (A × V)) :
    writeAll combine f (ws ++ ws') = writeAll combine (writeAll combine f ws) ws' :=
  List.foldl_append

theorem write_self (f : A → V) (a : A) (v : V) :
    write combine f (a, v) a = combine a (f a) v := Function.update_self _ _ _

theorem write_of_ne (f : A → V) {w : A × V} {a : A} (h : w.1 ≠ a) : write combine f w a = f a :=
  Function.update_of_ne (Ne.symm h) _ _

/-- **A cell has combined what was written to it**, and nothing else. -/
theorem writeAll_apply (f : A → V) (ws : List (A × V)) (a : A) :
    writeAll combine f ws a = (writesTo a ws).foldl (combine a) (f a) := by
  induction ws generalizing f with
  | nil => rfl
  | cons w ws ih =>
    rw [writeAll_cons, ih, writesTo_cons]
    by_cases h : w.1 = a
    · obtain ⟨b, v⟩ := w
      obtain rfl : b = a := h
      rw [write_self, if_pos rfl]
      rfl
    · rw [write_of_ne combine f h, if_neg h]
      rfl

end

theorem foldl_replace (v : V) (vs : List V) : vs.foldl (fun _ new => new) v = vs.getLastD v := by
  induction vs generalizing v with
  | nil => rfl
  | cons w vs ih => rw [List.foldl_cons, ih, List.getLastD_cons]

/-! ## a system with a store -/

/-- where each operation writes to the store, a run makes these writes in order -/
theorem read_run {σ ω : Type*} {combine : A → V → V → V} {read : σ → A → V} {exec : σ → ω → σ}
    {writes : ω → List (A × V)} {I : σ → Prop} (hI : ∀ s op, I s → I (exec s op))
    (hexec : ∀ s op, I s → read (exec s op) = writeAll combine (read s) (writes op))
    {s : σ} (hs : I s) (ops : List ω) :
    read (ops.foldl exec s) = writeAll combine (read s) (ops.flatMap writes) := by
  induction ops generalizing s with
  | nil => rfl
  | cons op ops ih =>
    rw [List.foldl_cons, ih (hI s op hs), hexec s op hs, List.flatMap_cons, writeAll_append]

/-! ## loops -/

/-- the loop over `0`, …, `n - 1` -/
def fill (f : ℕ → V) (v : V) (n : ℕ) : ℕ → V :=
  (List.range n).foldl (fun f i => Function.update f i v) f

theorem fill_succ (f : ℕ → V) (v : V) (n : ℕ) :
    fill f v (n + 1) = Function.update (fill f v n) n v := by
  rw [fill, List.range_succ, List.foldl_append]
  rfl

theorem fill_apply (f : ℕ → V) (v : V) (n i : ℕ) : fill f v n i = if i < n then v else f i := by
  induction n with
  | zero => rfl
  | succ n ih =>
    rw [fill_succ]
    by_cases h : i = n
    · rw [h, Function.update_self, if_pos (Nat.lt_succ_self n)]
    · have hlt : i < n + 1 ↔ i < n := by omega
      rw [Function.update_of_ne h, ih]
      simp only [hlt]

end Stores
