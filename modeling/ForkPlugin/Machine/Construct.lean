import ForkPlugin.Lib.Stores
import ForkPlugin.Machine.Configure

/-!
# The constructor of `ForkConfiguration`

The memory has some contents already; two loops clear the tables.  Their bounds are 256, whatever
`MAX_KEYCODE` is.

* `Construction`      the fields, and the subscripts that were written;
* `construct`         the constructor;
* `clearKeys_config`  what the loops do to the tables;
* `construct_forkKeycode`, `construct_forkRepeatable`, `construct_matrices`   what the tables hold
                      after it;
* `Adds`              what a part of it writes;
* `construct_written_below`, `forkKeycode_written`   which subscripts were written in the end.

The tables are functions on all subscripts: those from `MAX_KEYCODE` on stand for memory outside.
`id` and `next` are not used without `MULTIPLE_CONFIGURATIONS`.
-/

namespace ForkNS

/-- `written`: the latest first; the two subscripts of a matrix come one after the other -/
structure Construction (Time : Type) where
  config : ForkConfiguration Time
  clearInterval : Int
  debug : Int
  written : List (ConfigTable × Nat)

/-- `256`, the bound of both loops -/
abbrev initBound : Nat := 256

namespace Construction
variable {Time : Type}

def setForkKeycode (c : Construction Time) (i : Nat) (value : Keycode) : Construction Time :=
  { c with
    config := { c.config with forkKeycode := Function.update c.config.forkKeycode i value }
    written := (.forkKeycode, i) :: c.written }

def setForkRepeatable (c : Construction Time) (i : Nat) (value : Bool) : Construction Time :=
  { c with
    config := { c.config with forkRepeatable := Function.update c.config.forkRepeatable i value }
    written := (.forkRepeatable, i) :: c.written }

/-- nothing without `VERIFICATION_MATRIX` -/
def setOverlapTolerance (c : Construction Time) (i j : Nat) (value : Time) : Construction Time :=
  match c.config.matrices with
  | none => c
  | some m =>
    { c with
      config := { c.config with
        matrices := some { m with overlapTolerance := m.overlapTolerance.set i j value } }
      written := (.overlapTolerance, j) :: (.overlapTolerance, i) :: c.written }

def setVerificationInterval (c : Construction Time) (i j : Nat) (value : Time) :
    Construction Time :=
  match c.config.matrices with
  | none => c
  | some m =>
    { c with
      config := { c.config with
        matrices := some { m with verificationInterval := m.verificationInterval.set i j value } }
      written := (.verificationInterval, j) :: (.verificationInterval, i) :: c.written }

variable [Zero Time] [NatCast Time]

/-- the default member initialisers -/
def start (previous : ForkConfiguration Time) : Construction Time where
  config := { previous with repeatMax := ((80 : Nat) : Time), considerForksForRepeat := true }
  clearInterval := 0
  debug := 1
  written := []

/-- the body of the inner loop -/
def clearPair (i : Nat) (c : Construction Time) (j : Nat) : Construction Time :=
  (c.setOverlapTolerance i j 0).setVerificationInterval i j 0

def clearPairs (i n : Nat) (c : Construction Time) : Construction Time :=
  (List.range n).foldl (clearPair i) c

/-- the body of the outer one -/
def clearKey (c : Construction Time) (i : Nat) : Construction Time :=
  ((c.clearPairs i initBound).setForkKeycode i noKey).setForkRepeatable i false

def clearKeys (n : Nat) (c : Construction Time) : Construction Time :=
  (List.range n).foldl clearKey c

end Construction

/-- `previous`: the contents of the memory -/
def construct {Time : Type} [Zero Time] [NatCast Time] (previous : ForkConfiguration Time) :
    Construction Time :=
  let c := (Construction.start previous).clearKeys initBound
  let c := c.setVerificationInterval 0 0 ((200 : Nat) : Time)
  c.setOverlapTolerance 0 0 ((100 : Nat) : Time)

variable {Time : Type}

/-! ## the matrices -/

section
variable [Zero Time]

namespace ParameterMatrix

def clearRow (matrix : ParameterMatrix Time) (i n : Nat) : ParameterMatrix Time :=
  (List.range n).foldl (fun matrix j => matrix.set i j 0) matrix

def clearRows (matrix : ParameterMatrix Time) (k n : Nat) : ParameterMatrix Time :=
  (List.range k).foldl (fun matrix i => matrix.clearRow i n) matrix

theorem clearRows_zero (matrix : ParameterMatrix Time) (n : Nat) : matrix.clearRows 0 n = matrix :=
  rfl

theorem clearRow_succ (matrix : ParameterMatrix Time) (i n : Nat) :
    matrix.clearRow i (n + 1) = (matrix.clearRow i n).set i n 0 := by
  rw [clearRow, List.range_succ, List.foldl_append]
  rfl

theorem clearRows_succ (matrix : ParameterMatrix Time) (k n : Nat) :
    matrix.clearRows (k + 1) n = (matrix.clearRows k n).clearRow k n := by
  rw [clearRows, List.range_succ, List.foldl_append]
  rfl

theorem clearRow_apply (matrix : ParameterMatrix Time) (i n a b : Nat) :
    matrix.clearRow i n a b = if a = i ∧ b < n then 0 else matrix a b := by
  induction n with
  | zero => simp [clearRow]
  | succ n ih =>
    rw [clearRow_succ, set_apply, ih]
    by_cases hnew : a = i ∧ b = n
    · rw [if_pos hnew, if_pos (by omega)]
    · have hlt : a = i ∧ b < n + 1 ↔ a = i ∧ b < n := by omega
      rw [if_neg hnew]
      simp only [hlt]

theorem clearRows_apply (matrix : ParameterMatrix Time) (k n a b : Nat) :
    matrix.clearRows k n a b = if a < k ∧ b < n then 0 else matrix a b := by
  induction k with
  | zero => simp [clearRows]
  | succ k ih =>
    rw [clearRows_succ, clearRow_apply, ih]
    by_cases hnew : a = k ∧ b < n
    · rw [if_pos hnew, if_pos (by omega)]
    · have hlt : a < k + 1 ∧ b < n ↔ a < k ∧ b < n := by omega
      rw [if_neg hnew]
      simp only [hlt]

end ParameterMatrix

end

namespace Construction
variable [Zero Time] [NatCast Time]

/-! ## the loops -/

omit [NatCast Time] in
theorem clearPairs_succ (i n : Nat) (c : Construction Time) :
    c.clearPairs i (n + 1) = clearPair i (c.clearPairs i n) n := by
  rw [clearPairs, List.range_succ, List.foldl_append]
  rfl

omit [Zero Time] [NatCast Time] in
theorem setOverlapTolerance_config (c : Construction Time) (i j : Nat) (value : Time) :
    (c.setOverlapTolerance i j value).config = { c.config with
      matrices := c.config.matrices.map fun m =>
        { m with overlapTolerance := m.overlapTolerance.set i j value } } := by
  rcases c with ⟨⟨fk, fr, - | m, rm, cf⟩, ci, d, w⟩
  · rfl
  · rfl

omit [Zero Time] [NatCast Time] in
theorem setVerificationInterval_config (c : Construction Time) (i j : Nat) (value : Time) :
    (c.setVerificationInterval i j value).config = { c.config with
      matrices := c.config.matrices.map fun m =>
        { m with verificationInterval := m.verificationInterval.set i j value } } := by
  rcases c with ⟨⟨fk, fr, - | m, rm, cf⟩, ci, d, w⟩
  · rfl
  · rfl

omit [NatCast Time] in
theorem clearPair_config (i j : Nat) (c : Construction Time) :
    (clearPair i c j).config = { c.config with
      matrices := c.config.matrices.map fun m =>
        ⟨m.overlapTolerance.set i j 0, m.verificationInterval.set i j 0⟩ } := by
  rw [clearPair, setVerificationInterval_config, setOverlapTolerance_config]
  simp only [Option.map_map, Function.comp_def]

omit [NatCast Time] in
/-- the inner loop changes the matrices alone -/
theorem clearPairs_config (i n : Nat) (c : Construction Time) :
    (c.clearPairs i n).config = { c.config with
      matrices := c.config.matrices.map fun m =>
        ⟨m.overlapTolerance.clearRow i n, m.verificationInterval.clearRow i n⟩ } := by
  induction n with
  | zero =>
    rcases c with ⟨⟨fk, fr, - | m, rm, cf⟩, ci, d, w⟩
    · rfl
    · rfl
  | succ n ih =>
    rw [clearPairs_succ, clearPair_config, ih]
    simp only [Option.map_map, Function.comp_def, ParameterMatrix.clearRow_succ]

omit [NatCast Time] in
theorem clearKeys_succ (n : Nat) (c : Construction Time) :
    c.clearKeys (n + 1) = clearKey (c.clearKeys n) n := by
  rw [clearKeys, List.range_succ, List.foldl_append, List.foldl_cons, List.foldl_nil, clearKeys]

omit [NatCast Time] in
theorem clearKeys_config (n : Nat) (c : Construction Time) :
    (c.clearKeys n).config = { c.config with
      forkKeycode := Stores.fill c.config.forkKeycode noKey n
      forkRepeatable := Stores.fill c.config.forkRepeatable false n
      matrices := c.config.matrices.map fun m =>
        ⟨m.overlapTolerance.clearRows n initBound,
          m.verificationInterval.clearRows n initBound⟩ } := by
  induction n with
  | zero =>
    rcases c with ⟨⟨fk, fr, - | m, rm, cf⟩, ci, d, w⟩
    · rfl
    · simp only [Option.map_some, ParameterMatrix.clearRows_zero]
      rfl
  | succ n ih =>
    rw [clearKeys_succ, clearKey, setForkRepeatable, setForkKeycode, clearPairs_config, ih]
    simp only [Option.map_map, Function.comp_def, Stores.fill_succ, ParameterMatrix.clearRows_succ]

/-! ## the subscripts -/

/-- every subscript written so far is below `n` -/
def WrittenBelow (n : Nat) (c : Construction Time) : Prop := ∀ x ∈ c.written, x.2 < n

/-- `c'` has written more than `c`, but only subscripts with `P` -/
def Adds (P : Nat → Prop) (c c' : Construction Time) : Prop :=
  ∃ l, c'.written = l ++ c.written ∧ ∀ x ∈ l, P x.2

section
variable {P : Nat → Prop} {i j : Nat} {c c' c'' : Construction Time}

omit [Zero Time] [NatCast Time] in
theorem Adds.refl (c : Construction Time) : Adds P c c := ⟨[], rfl, fun _ hx => nomatch hx⟩

omit [Zero Time] [NatCast Time] in
theorem Adds.trans (h : Adds P c c') (h' : Adds P c' c'') : Adds P c c'' := by
  obtain ⟨l, hl, hP⟩ := h
  obtain ⟨l', hl', hP'⟩ := h'
  refine ⟨l' ++ l, by rw [hl', hl, List.append_assoc], fun x hx => ?_⟩
  rcases List.mem_append.mp hx with hx | hx
  · exact hP' x hx
  · exact hP x hx

omit [Zero Time] [NatCast Time] in
/-- what was written is not forgotten -/
theorem Adds.subset (h : Adds P c c') : c.written ⊆ c'.written := by
  obtain ⟨l, hl, -⟩ := h
  rw [hl]
  exact List.subset_append_right l c.written

omit [Zero Time] [NatCast Time] in
theorem setForkKeycode_adds (hi : P i) (value : Keycode) : Adds P c (c.setForkKeycode i value) :=
  ⟨[(.forkKeycode, i)], rfl, List.forall_mem_singleton.mpr hi⟩

omit [Zero Time] [NatCast Time] in
theorem setForkRepeatable_adds (hi : P i) (value : Bool) :
    Adds P c (c.setForkRepeatable i value) :=
  ⟨[(.forkRepeatable, i)], rfl, List.forall_mem_singleton.mpr hi⟩

omit [Zero Time] [NatCast Time] in
theorem setOverlapTolerance_adds (hi : P i) (hj : P j) (value : Time) :
    Adds P c (c.setOverlapTolerance i j value) := by
  rcases c with ⟨⟨fk, fr, - | m, rm, cf⟩, ci, d, w⟩
  · exact .refl _
  · exact ⟨[(.overlapTolerance, j), (.overlapTolerance, i)], rfl, by simp [hi, hj]⟩

omit [Zero Time] [NatCast Time] in
theorem setVerificationInterval_adds (hi : P i) (hj : P j) (value : Time) :
    Adds P c (c.setVerificationInterval i j value) := by
  rcases c with ⟨⟨fk, fr, - | m, rm, cf⟩, ci, d, w⟩
  · exact .refl _
  · exact ⟨[(.verificationInterval, j), (.verificationInterval, i)], rfl, by simp [hi, hj]⟩

omit [NatCast Time] in
theorem clearPair_adds (hi : P i) (hj : P j) : Adds P c (clearPair i c j) :=
  (setOverlapTolerance_adds hi hj 0).trans (setVerificationInterval_adds hi hj 0)

omit [NatCast Time] in
theorem clearPairs_adds (hi : P i) {n : Nat} (hn : ∀ j < n, P j) (c : Construction Time) :
    Adds P c (c.clearPairs i n) := by
  induction n with
  | zero => exact .refl c
  | succ n ih =>
    rw [clearPairs_succ]
    refine (ih fun j hj => hn j (Nat.lt_succ_of_lt hj)).trans ?_
    exact clearPair_adds hi (hn n (Nat.lt_succ_self n))

omit [NatCast Time] in
theorem clearKey_adds (hi : P i) (hP : ∀ j < initBound, P j) : Adds P c (clearKey c i) := by
  have hpairs := clearPairs_adds hi hP c
  rw [clearKey]
  exact hpairs.trans ((setForkKeycode_adds hi _).trans (setForkRepeatable_adds hi _))

omit [NatCast Time] in
theorem clearKeys_adds (hP : ∀ j < initBound, P j) {n : Nat} (hn : ∀ i < n, P i)
    (c : Construction Time) : Adds P c (c.clearKeys n) := by
  induction n with
  | zero => exact .refl c
  | succ n ih =>
    rw [clearKeys_succ]
    refine (ih fun i hi => hn i (Nat.lt_succ_of_lt hi)).trans ?_
    exact clearKey_adds (hn n (Nat.lt_succ_self n)) hP

omit [NatCast Time] in
/-- the loop writes every subscript that it reaches -/
theorem forkKeycode_clearKeys {n : Nat} (hi : i < n) :
    (.forkKeycode, i) ∈ (c.clearKeys n).written := by
  induction n with
  | zero => exact absurd hi (Nat.not_lt_zero i)
  | succ n ih =>
    have hpairs := clearPairs_adds (P := fun _ => True) (i := n) (n := initBound) trivial
      (fun _ _ => trivial) (c.clearKeys n)
    rw [clearKeys_succ]
    refine List.mem_cons_of_mem _ ?_
    rcases Nat.lt_succ_iff_lt_or_eq.mp hi with hi | rfl
    · exact List.mem_cons_of_mem _ (hpairs.subset (ih hi))
    · exact List.mem_cons_self

end

end Construction

/-! ## the constructor -/

section
variable [Zero Time] [NatCast Time]
open Construction

theorem construct_config (previous : ForkConfiguration Time) :
    (construct previous).config =
      { forkKeycode := Stores.fill previous.forkKeycode noKey initBound
        forkRepeatable := Stores.fill previous.forkRepeatable false initBound
        matrices := previous.matrices.map fun m =>
          ⟨(m.overlapTolerance.clearRows initBound initBound).set 0 0 ((100 : Nat) : Time),
            (m.verificationInterval.clearRows initBound initBound).set 0 0 ((200 : Nat) : Time)⟩
        repeatMax := ((80 : Nat) : Time)
        considerForksForRepeat := true } := by
  rw [construct, setOverlapTolerance_config, setVerificationInterval_config, clearKeys_config]
  simp only [Option.map_map, Function.comp_def, start]

theorem construct_forkKeycode (previous : ForkConfiguration Time) (i : Nat) :
    (construct previous).config.forkKeycode i =
      if i < initBound then noKey else previous.forkKeycode i := by
  simp only [construct_config, Stores.fill_apply]

theorem construct_forkRepeatable (previous : ForkConfiguration Time) (i : Nat) :
    (construct previous).config.forkRepeatable i =
      if i < initBound then false else previous.forkRepeatable i := by
  simp only [construct_config, Stores.fill_apply]

omit [NatCast Time] in
/-- the constructor sets `matrix[0][0]` -/
theorem clearRows_set_apply (matrix : ParameterMatrix Time) (value : Time) {i j : Nat}
    (h : (i, j) ≠ (0, 0)) : (matrix.clearRows initBound initBound).set 0 0 value i j =
      if i < initBound ∧ j < initBound then 0 else matrix i j := by
  have hne : ¬(i = 0 ∧ j = 0) := fun h' => h (Prod.ext h'.1 h'.2)
  rw [ParameterMatrix.set_apply, if_neg hne, ParameterMatrix.clearRows_apply]

theorem construct_adds {P : Nat → Prop} (hP : ∀ i < initBound, P i)
    (previous : ForkConfiguration Time) :
    Adds P ((start previous).clearKeys initBound) (construct previous) := by
  have h0 : P 0 := hP 0 (by decide)
  rw [construct]
  exact (setVerificationInterval_adds h0 h0 _).trans (setOverlapTolerance_adds h0 h0 _)

/-- **The constructor writes below 256**, whatever `MAX_KEYCODE` is. -/
theorem construct_written_below (previous : ForkConfiguration Time) {n : Nat}
    (hn : initBound ≤ n) : (construct previous).WrittenBelow n := by
  have hP : ∀ i < initBound, i < n := fun i hi => Nat.lt_of_lt_of_le hi hn
  obtain ⟨l, hl, hbelow⟩ := (clearKeys_adds hP hP (start previous)).trans
    (construct_adds hP previous)
  intro x hx
  rw [hl] at hx
  exact hbelow x ((List.mem_append.mp hx).resolve_right List.not_mem_nil)

/-- and it writes all of `fork_keycode` below 256 -/
theorem forkKeycode_written (previous : ForkConfiguration Time) {i : Nat} (hi : i < initBound) :
    (.forkKeycode, i) ∈ (construct previous).written :=
  (construct_adds (P := fun _ => True) (fun _ _ => trivial) previous).subset
    (forkKeycode_clearKeys hi)

end

end ForkNS
