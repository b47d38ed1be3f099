import ForkPlugin.Machine.Batch
import ForkPlugin.Machine.TestEvents
import ForkPlugin.Runs.Halt

/-!
# Timers and frozen output only delay

Two runs with the same events, both ended by an unfrozen `accept_time(T)`, end alike:

* `timers_change_nothing`   when one of them has any further timers, each in its place in time;
* `freezing_only_delays`    when `output_frozen` is answered differently at any query.

Neither needs that keys alternate, nor that event times are in order beyond what the timers need.
-/

namespace ForkNS

open Runs Machine StateTransition

variable {E Time : Type}

/-- the calls of a run, in order -/
def calls (acts : List (Act E Time)) : List (Call E Time) :=
  acts.filterMap fun
    | .call c => some c
    | .tick _ => none

/-- the times that calls carry, in order -/
def times (env : Environment E Time) (cs : List (Call E Time)) : List Time :=
  cs.filterMap fun
    | .acceptEvent e => some (env.timeOf e)
    | .acceptTime now => some now
    | .acceptConfirmation => none

theorem calls_append (acts acts' : List (Act E Time)) :
    calls (acts ++ acts') = calls acts ++ calls acts' := List.filterMap_append

theorem times_append (env : Environment E Time) (cs cs' : List (Call E Time)) :
    times env (cs ++ cs') = times env cs ++ times env cs' := List.filterMap_append

theorem mem_calls {acts : List (Act E Time)} {c : Call E Time} :
    c ∈ calls acts ↔ .call c ∈ acts := by
  simp only [calls, List.mem_filterMap]
  constructor
  · rintro ⟨a, ha, hc⟩
    cases a with
    | call c' =>
      cases hc
      exact ha
    | tick => cases hc
  · intro h
    exact ⟨_, h, rfl⟩

theorem mem_timers {acts : List (Act E Time)} {t : Time} :
    t ∈ timers acts ↔ .call (.acceptTime t) ∈ acts := by
  simp only [timers, List.mem_filterMap]
  constructor
  · rintro ⟨a, ha, hc⟩
    split at hc
    · cases hc
      exact ha
    · cases hc
  · intro h
    exact ⟨_, h, rfl⟩

theorem mem_offered {acts : List (Act E Time)} {e : E} :
    e ∈ offered acts ↔ .call (.acceptEvent e) ∈ acts := by
  simp only [offered, List.mem_filterMap]
  constructor
  · rintro ⟨a, ha, hc⟩
    split at hc
    · cases hc
      exact ha
    · cases hc
  · intro h
    exact ⟨_, h, rfl⟩

theorem mem_times_of_timer (env : Environment E Time) {acts : List (Act E Time)} {t : Time}
    (h : t ∈ timers acts) : t ∈ times env (calls acts) :=
  List.mem_filterMap.mpr ⟨_, mem_calls.mpr (mem_timers.mp h), rfl⟩

section
variable [LinearOrder Time] {S : Setup E Time}

/-- a run of events only fits any time -/
theorem fits_of_events {T : Time} {acts : List (Act E Time)} {es : List E}
    (h : calls acts = es.map .acceptEvent) : Fits S T acts := by
  have htimers : ∀ {pre post : List (Act E Time)}, acts = pre ++ post → ∀ t, t ∉ timers pre := by
    rintro pre post rfl t ht
    have hmem : Call.acceptTime t ∈ calls (pre ++ post) :=
      mem_calls.mpr (List.mem_append_left _ (mem_timers.mp ht))
    rw [h] at hmem
    simp at hmem
  refine ⟨?_, ?_, ?_⟩
  · intro hmem
    have hmem' := mem_calls.mpr hmem
    rw [h] at hmem'
    simp at hmem'
  · intro t ht
    exact absurd ht (htimers (List.append_nil acts).symm t)
  · intro pre e post heq t ht
    exact absurd ht (htimers heq t)

/-- timers in their place in time fit -/
theorem fits_of_sorted {T : Time} {acts : List (Act E Time)}
    (hforce : .call .acceptConfirmation ∉ acts)
    (hsort : (times S.env (calls acts) ++ [T]).Pairwise (· ≤ ·)) : Fits S T acts := by
  obtain ⟨hsort, -, hT⟩ := List.pairwise_append.mp hsort
  refine ⟨hforce, ?_, ?_⟩
  · intro t ht
    exact hT t (mem_times_of_timer S.env ht) T List.mem_cons_self
  · rintro pre e post rfl t ht
    rw [calls_append, times_append] at hsort
    exact (List.pairwise_append.mp hsort).2.2 t (mem_times_of_timer S.env ht) (S.env.timeOf e)
      List.mem_cons_self

/-- an event at a positive time is later than an end at 0 -/
theorem no_events_at_zero [Zero Time] {T : Time} {acts : List (Act E Time)} {es : List E}
    (hpos : ∀ e ∈ es, 0 < S.env.timeOf e) (hoffered : offered acts = es)
    (hsort : (times S.env (calls acts) ++ [T]).Pairwise (· ≤ ·)) : T = 0 → es = [] := by
  rintro rfl
  rw [List.eq_nil_iff_forall_not_mem]
  intro e he
  have hmem : S.env.timeOf e ∈ times S.env (calls acts) :=
    List.mem_filterMap.mpr ⟨_, mem_calls.mpr (mem_offered.mp (hoffered ▸ he)), rfl⟩
  have hle := (List.pairwise_append.mp hsort).2.2 _ hmem 0 List.mem_cons_self
  exact absurd (hpos e he) (not_lt.mpr hle)

end

/-- all of the machine but its clock -/
def Machine.clockless {Q : Type} [Zero Time] (m : Machine Q Time) : Machine Q Time :=
  { m with mCurrentTime := 0 }

theorem Machine.Stands.clockless [Zero Time] {c : ℕ} {m : Machine (Triqueue E) Time}
    {l : ListMachine E Time} (h : Stands c m l) : Stands c m.clockless l.clockless := by
  cases h with
  | mk _ q hq => exact .mk l.clockless q hq

section
variable [LinearOrder Time] [Add Time] [Zero Time] [NatCast Time] {S : Setup E Time}

/-- a run on a stream that alternates can be ended -/
theorem exists_endsAt {T : Time} {acts : List (Act E Time)} {u : Sys (ThreeLists E) E Time}
    (h : runs (Sys.step S) (Sys.create .nil) acts = some u) (hidle : u.control = .idle)
    (halt : Alternates S.env u.pushed) (hfit : Fits S T acts) (h0 : 0 ≤ T) :
    ∃ s, EndsAt S ThreeLists.nil acts T s ∧ s.pushed = u.pushed := by
  have hcur : u.machine.mCurrentTime ≤ T := by
    rcases (sameEnd_run h hfit).1 with hz | hmem
    · exact le_trans (le_of_eq hz) h0
    · exact hfit.beforeEnd _ hmem
  obtain ⟨s₁, hcall, hlock, hpushed⟩ : ∃ s₁, u.step S (.call (.acceptTime T)) = some s₁ ∧
      s₁.control ≠ .relock ∧ s₁.pushed = u.pushed := by
    have henter : enter S u.machine (.acceptTime T)
        = ⟨{ u.machine with mCurrentTime := T }, .runAutomaton false, [], []⟩ := by
      rw [enter, acceptTime, if_neg (not_lt.mpr hcur)]
    refine ⟨_, by rw [Sys.step, hidle], ?_, ?_⟩
    · rw [henter]
      simp [Sys.apply]
    · rw [henter]
      exact List.append_nil _
  obtain ⟨n, s, hs, hsidle, hsp⟩ := returns_of_alternates h hcall hlock (hpushed ▸ halt)
  refine ⟨s, ⟨hsidle, n, ?_⟩, hsp.trans hpushed⟩
  exact runs_append_some.mpr ⟨u, h, Option.bind_eq_some_iff.mpr ⟨_, hcall, hs⟩⟩

/-- two runs that end at the end of the same uninterrupted machine end alike -/
theorem ends_alike {T : Time} {m : ListMachine E Time} {s s' : Sys (ThreeLists E) E Time}
    (hidle : s.control = .idle) (hidle' : s'.control = .idle)
    (h : s.machine.tq.out = [] ∧ s.view.feed [] ∈ eval (batchStep S T) m)
    (h' : s'.machine.tq.out = [] ∧ s'.view.feed [] ∈ eval (batchStep S T) m) :
    relayed s.trace = relayed s'.trace ∧ s.machine.clockless = s'.machine.clockless := by
  have heq : s.view.feed [] = s'.view.feed [] := Part.mem_unique h.2 h'.2
  have hout : ∀ {u : Sys (ThreeLists E) E Time}, u.control = .idle → u.machine.tq.out = [] →
      (u.view.feed []).tq.out = relayed u.trace := by
    intro u hu ho
    simp [feed, framed, Sys.view, hu, ho, Control.inHand]
  have hclock : ∀ {u : Sys (ThreeLists E) E Time}, u.machine.tq.out = [] →
      u.machine.clockless = { u.view.feed [] with
        tq := ⟨[], (u.view.feed []).tq.mid, (u.view.feed []).tq.inp⟩ } := by
    intro u ho
    rcases u with ⟨⟨_, _, _, _, _, _, _, _, _, _, ⟨out, mid, inp⟩, _⟩, _, _, _⟩
    cases ho
    simp [clockless, feed, framed, Sys.view]
  refine ⟨?_, ?_⟩
  · rw [← hout hidle h.1, ← hout hidle' h'.1, heq]
  · rw [hclock h.1, hclock h'.1, heq]

/-- two runs that push the same events, and that their timers fit, end alike -/
theorem ends_alike_of_fits {es : List E} {T : Time} (h0 : 0 ≤ T) (hz : T = 0 → es = [])
    (halt : Alternates S.env es) {acts acts' : List (Act E Time)}
    {u u' : Sys (ThreeLists E) E Time} (hfit : Fits S T acts) (hfit' : Fits S T acts')
    (h : runs (Sys.step S) (Sys.create .nil) acts = some u)
    (h' : runs (Sys.step S) (Sys.create .nil) acts' = some u')
    (hidle : u.control = .idle) (hidle' : u'.control = .idle)
    (hpushed : u.pushed = es) (hpushed' : u'.pushed = es) :
    ∃ s s', EndsAt S ThreeLists.nil acts T s ∧ EndsAt S ThreeLists.nil acts' T s' ∧
      relayed s.trace = relayed s'.trace ∧ s.machine.clockless = s'.machine.clockless := by
  obtain ⟨s, hs, hsp⟩ := exists_endsAt h hidle (hpushed ▸ halt) hfit h0
  obtain ⟨s', hs', hsp'⟩ := exists_endsAt h' hidle' (hpushed' ▸ halt) hfit' h0
  rw [hpushed] at hsp
  rw [hpushed'] at hsp'
  have he := batch_end hs hfit h0 (hsp ▸ hz)
  have he' := batch_end hs' hfit' h0 (hsp' ▸ hz)
  rw [hsp] at he
  rw [hsp'] at he'
  exact ⟨s, s', hs, hs', ends_alike hs.1 hs'.1 he he'⟩

/-! ## over the ring -/

/-- the last call pushes nothing, so the ring has room for it -/
theorem ring_endsAt {c : ℕ} {T : Time} {acts : List (Act E Time)} {u : Sys (Triqueue E) E Time}
    {v t : Sys (ThreeLists E) E Time} (halike : Alike c u v)
    (hu : runs (Sys.step S) (Sys.create (Triqueue.create c)) acts = some u)
    (hv : runs (Sys.step S) (Sys.create .nil) acts = some v)
    (ht : EndsAt S ThreeLists.nil acts T t) :
    ∃ s, EndsAt S (Triqueue.create c) acts T s ∧ Alike c s t := by
  obtain ⟨hidle, n, ht⟩ := ht
  obtain ⟨w, hw, hlast⟩ := runs_append_some.mp ht
  obtain rfl := Option.some.inj (hw.symm.trans hv)
  have hno : offered (.call (.acceptTime T) :: List.replicate n (.tick false) : List (Act E Time))
      = [] := by
    refine List.filterMap_eq_nil_iff.mpr ?_
    intro a ha
    rcases List.mem_cons.mp ha with rfl | ha
    · rfl
    · rw [List.eq_of_mem_replicate ha]
  have hrel := runs_alike (S := S) halike hno
  rw [hlast] at hrel
  generalize hs : runs (Sys.step S) u _ = x at hrel
  cases hrel with
  | some hst => exact ⟨_, ⟨hst.control.trans hidle, n, runs_append_some.mpr ⟨u, hu, hs⟩⟩, hst⟩

theorem ring_ends_alike_of_fits {c : ℕ} (hc : 2 ≤ c) {es : List E} {T : Time} (h0 : 0 ≤ T)
    (hz : T = 0 → es = []) (halt : Alternates S.env es) {acts acts' : List (Act E Time)}
    {u u' : Sys (Triqueue E) E Time} (hfit : Fits S T acts) (hfit' : Fits S T acts')
    (hw : WithinCapacity S c acts) (hw' : WithinCapacity S c acts')
    (h : runs (Sys.step S) (Sys.create (Triqueue.create c)) acts = some u)
    (h' : runs (Sys.step S) (Sys.create (Triqueue.create c)) acts' = some u')
    (hidle : u.control = .idle) (hidle' : u'.control = .idle)
    (hpushed : u.pushed = es) (hpushed' : u'.pushed = es) :
    ∃ s s', EndsAt S (Triqueue.create c) acts T s ∧ EndsAt S (Triqueue.create c) acts' T s' ∧
      relayed s.trace = relayed s'.trace ∧
      ∃ l : ListMachine E Time, Stands c s.machine.clockless l ∧
        Stands c s'.machine.clockless l := by
  obtain ⟨v, hv, halike⟩ := ring_run hc hw h
  obtain ⟨v', hv', halike'⟩ := ring_run hc hw' h'
  obtain ⟨t, t', ht, ht', hrelayed, hmachine⟩ := ends_alike_of_fits h0 hz halt hfit hfit' hv hv'
    (halike.control ▸ hidle) (halike'.control ▸ hidle') (halike.pushed ▸ hpushed)
    (halike'.pushed ▸ hpushed')
  obtain ⟨s, hs, hst⟩ := ring_endsAt halike h hv ht
  obtain ⟨s', hs', hst'⟩ := ring_endsAt halike' h' hv' ht'
  refine ⟨s, s', hs, hs', ?_, t.machine.clockless, hst.stands.clockless, ?_⟩
  · rw [hst.trace, hst'.trace, hrelayed]
  · rw [hmachine]
    exact hst'.stands.clockless

/-- **Freezing the output only delays.**  Two runs with the same events, frozen at any queries,
relay the same by the end, and come to the same machine but for the clock. -/
theorem freezing_only_delays {c : ℕ} (hc : 2 ≤ c) {es : List E} {T : Time} (hT : 0 < T)
    (halt : Alternates S.env es) {acts acts' : List (Act E Time)} {u u' : Sys (Triqueue E) E Time}
    (hcalls : calls acts = es.map .acceptEvent) (hcalls' : calls acts' = es.map .acceptEvent)
    (hw : WithinCapacity S c acts) (hw' : WithinCapacity S c acts')
    (h : runs (Sys.step S) (Sys.create (Triqueue.create c)) acts = some u)
    (h' : runs (Sys.step S) (Sys.create (Triqueue.create c)) acts' = some u')
    (hidle : u.control = .idle) (hidle' : u'.control = .idle)
    (hpushed : u.pushed = es) (hpushed' : u'.pushed = es) :
    ∃ s s', EndsAt S (Triqueue.create c) acts T s ∧ EndsAt S (Triqueue.create c) acts' T s' ∧
      relayed s.trace = relayed s'.trace ∧
      ∃ l : ListMachine E Time, Stands c s.machine.clockless l ∧
        Stands c s'.machine.clockless l :=
  ring_ends_alike_of_fits hc (le_of_lt hT) (fun hz => absurd hz (ne_of_gt hT)) halt
    (fits_of_events hcalls) (fits_of_events hcalls') hw hw' h h' hidle hidle' hpushed hpushed'

/-- **Timer calls never change what is typed.**  A run with events only, and one with the same
events and further timers, relay the same by the end, and come to the same machine but for the
clock. -/
theorem timers_change_nothing {c : ℕ} (hc : 2 ≤ c) {es : List E} {T : Time} (h0 : 0 ≤ T)
    (hpos : ∀ e ∈ es, 0 < S.env.timeOf e) (halt : Alternates S.env es)
    {acts acts' : List (Act E Time)} {u u' : Sys (Triqueue E) E Time}
    (hcalls : calls acts = es.map .acceptEvent)
    (hforce : .call .acceptConfirmation ∉ acts') (hoffered : offered acts' = es)
    (hsort : (times S.env (calls acts') ++ [T]).Pairwise (· ≤ ·))
    (hw : WithinCapacity S c acts) (hw' : WithinCapacity S c acts')
    (h : runs (Sys.step S) (Sys.create (Triqueue.create c)) acts = some u)
    (h' : runs (Sys.step S) (Sys.create (Triqueue.create c)) acts' = some u')
    (hidle : u.control = .idle) (hidle' : u'.control = .idle)
    (hpushed : u.pushed = es) (hpushed' : u'.pushed = es) :
    ∃ s s', EndsAt S (Triqueue.create c) acts T s ∧ EndsAt S (Triqueue.create c) acts' T s' ∧
      relayed s.trace = relayed s'.trace ∧
      ∃ l : ListMachine E Time, Stands c s.machine.clockless l ∧
        Stands c s'.machine.clockless l :=
  ring_ends_alike_of_fits hc h0 (no_events_at_zero hpos hoffered hsort) halt
    (fits_of_events hcalls) (fits_of_sorted hforce hsort) hw hw' h h' hidle hidle' hpushed hpushed'

end

/-- key 3 is held while key 20 is typed -/
def held : List TestEvent := [down 3 100, down 20 150, up 20 180, up 3 400]

def heldAtOnce : List (Act TestEvent Nat) :=
  during (.acceptEvent (down 3 100)) 7 ++ during (.acceptEvent (down 20 150)) 7 ++
    during (.acceptEvent (up 20 180)) 7 ++ during (.acceptEvent (up 3 400)) 17

/-- a timer too early for the deadline, and one that finds it passed -/
def heldWoken : List (Act TestEvent Nat) :=
  during (.acceptEvent (down 3 100)) 7 ++ during (.acceptEvent (down 20 150)) 7 ++
    during (.acceptTime 170) 6 ++ during (.acceptEvent (up 20 180)) 7 ++
    during (.acceptTime 300) 15 ++ during (.acceptEvent (up 3 400)) 8

/-- the output is frozen at every query -/
def heldFrozen : List (Act TestEvent Nat) :=
  held.flatMap fun e => .call (.acceptEvent e) :: List.replicate 5 (.tick true)

theorem freezing_only_delays_held : ∃ u u' s s',
    runs (Sys.step testSetup) (Sys.create (Triqueue.create 100)) heldAtOnce = some u ∧
    runs (Sys.step testSetup) (Sys.create (Triqueue.create 100)) heldFrozen = some u' ∧
    relayed u.trace ≠ relayed u'.trace ∧
    EndsAt testSetup (Triqueue.create 100) heldAtOnce 500 s ∧
    EndsAt testSetup (Triqueue.create 100) heldFrozen 500 s' ∧
    relayed s.trace = relayed s'.trace ∧
    ∃ l : ListMachine TestEvent Nat, Stands 100 s.machine.clockless l ∧
      Stands 100 s'.machine.clockless l := by
  have hu := Option.eq_some_of_isSome
    (o := runs (Sys.step testSetup) (Sys.create (Triqueue.create 100)) heldAtOnce) (by decide)
  have hu' := Option.eq_some_of_isSome
    (o := runs (Sys.step testSetup) (Sys.create (Triqueue.create 100)) heldFrozen) (by decide)
  obtain ⟨s, s', h⟩ := freezing_only_delays (T := 500) (show 2 ≤ 100 by decide) (by decide)
    (by decide) (show calls heldAtOnce = held.map .acceptEvent by decide) (by decide) (by decide)
    (by decide) hu hu' (by decide) (by decide) (by decide) (by decide)
  exact ⟨_, _, s, s', hu, hu', by decide, h⟩

theorem timers_change_nothing_held : ∃ u u' s s',
    runs (Sys.step testSetup) (Sys.create (Triqueue.create 100)) heldAtOnce = some u ∧
    runs (Sys.step testSetup) (Sys.create (Triqueue.create 100)) heldWoken = some u' ∧
    EndsAt testSetup (Triqueue.create 100) heldAtOnce 500 s ∧
    EndsAt testSetup (Triqueue.create 100) heldWoken 500 s' ∧
    relayed s.trace = relayed s'.trace ∧
    ∃ l : ListMachine TestEvent Nat, Stands 100 s.machine.clockless l ∧
      Stands 100 s'.machine.clockless l := by
  have hu := Option.eq_some_of_isSome
    (o := runs (Sys.step testSetup) (Sys.create (Triqueue.create 100)) heldAtOnce) (by decide)
  have hu' := Option.eq_some_of_isSome
    (o := runs (Sys.step testSetup) (Sys.create (Triqueue.create 100)) heldWoken) (by decide)
  obtain ⟨s, s', h⟩ := timers_change_nothing (T := 500) (show 2 ≤ 100 by decide) (by decide)
    (by decide) (by decide) (show calls heldAtOnce = held.map .acceptEvent by decide) (by decide)
    (by decide) (by decide) (by decide) (by decide) hu hu' (by decide) (by decide) (by decide)
    (by decide)
  exact ⟨_, _, s, s', hu, hu', h⟩

end ForkNS
