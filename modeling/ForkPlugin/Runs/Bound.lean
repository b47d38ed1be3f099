import ForkPlugin.Runs.Ends

/-!
# How long a call can take

Each decision puts the whole internal part back into the input part, so the events behind the head
are read again for every event that leaves: a call is quadratic in what the queue holds.

* `Bounded`        at most `k` steps of a call are left, on a stream that alternates;
* `call_bounded`   on such a stream a call with `N` events in the queue returns after at most
                   `N * N + 3 * N + 6` steps.
-/

namespace ForkNS

open Runs Machine

variable {E Time : Type}

section
variable [LinearOrder Time] [Add Time] [Zero Time] [NatCast Time] {S : Setup E Time}

/-- the machine over lists never meets the repeated press of the suspect -/
structure Bounded (S : Setup E Time) (c k : ℕ) (s : Sys (Triqueue E) E Time) : Prop where
  unlocked : s.control ≠ .relock
  counted : s.machine.Counted c
  left : ticksLeft s.machine s.control ≤ k
  lists : ∃ t acts, Alike c s t ∧ runs (Sys.step S) (Sys.create .nil) acts = some t ∧
    Alternates S.env t.pushed

theorem Bounded.step {c k : ℕ} {s : Sys (Triqueue E) E Time} (h : Bounded S c k s)
    (hidle : s.control ≠ .idle) (frozen : Bool) :
    ∃ k' s', s.step S (.tick frozen) = some s' ∧ k' < k ∧ Bounded S c k' s' := by
  obtain ⟨t, acts, halike, ht, halt⟩ := h.lists
  have hno : ¬RepeatsSuspect S s.machine := by
    rw [repeats_alike halike.stands]
    exact not_repeats_of_alternates ht halt
  obtain ⟨x, hx⟩ := exists_tick (S := S) (m := s.machine) hidle (fun hc => absurd hc h.unlocked)
    frozen
  have hstep : s.step S (.tick frozen) = some (s.apply x) := by
    rw [Sys.step, hx]
    rfl
  have hlt := ticksLeft_lt h.counted hx fun _ _ => hno
  refine ⟨_, _, hstep, lt_of_lt_of_le hlt h.left, tick_relock hx, Counted.keeps.tick h.counted hx,
    le_refl _, ?_⟩
  have hrel := step_alike (S := S) halike (a := .tick frozen) fun b hb => by cases hb
  rw [hstep] at hrel
  generalize ht' : t.step S (.tick frozen) = y at hrel
  cases hrel with
  | some halike' =>
    obtain ⟨x', hx', rfl⟩ := Sys.step_tick ht'
    refine ⟨_, acts ++ [.tick frozen], halike', runs_snoc_some.mpr ⟨t, ht, ht'⟩, ?_⟩
    rwa [Sys.apply, (tick_cases hx').pushed, List.append_nil]

/-- **A call takes at most quadratic time.**  On a stream that alternates, whatever `output_frozen`
answers: with `N` events in the queue a call returns after at most `N * N + 3 * N + 6` steps, if
it is not `accept_time` with an earlier time. -/
theorem call_bounded {c : ℕ} (hc : 2 ≤ c) {acts : List (Act E Time)}
    {s s₁ : Sys (Triqueue E) E Time}
    (h : runs (Sys.step S) (Sys.create (Triqueue.create c)) acts = some s) {a : Call E Time}
    (hw : WithinCapacity S c (acts ++ [.call a])) (hcall : s.step S (.call a) = some s₁)
    (hlock : ∀ now, a = .acceptTime now → s.machine.mCurrentTime ≤ now)
    (halt : Alternates S.env s₁.pushed) (frozen : ℕ → Bool) :
    ∃ n, n ≤ s₁.machine.tq.buffer.contentsSize * s₁.machine.tq.buffer.contentsSize
        + 3 * s₁.machine.tq.buffer.contentsSize + 6 ∧
      ∃ s', runs (Sys.step S) s₁ ((List.range n).map fun i => .tick (frozen i)) = some s' ∧
        s'.control = .idle := by
  have h₁ := runs_snoc_some.mpr ⟨s, h, hcall⟩
  obtain ⟨t₁, ht₁, halike⟩ := ring_run hc hw h₁
  have hctl : s₁.control = (enter S s.machine a).control :=
    congrArg Sys.control (Sys.step_call hcall).2
  have hrelock : s₁.control ≠ .relock := by
    rw [hctl, ne_eq, enter_relock]
    rintro ⟨now, ha, hlt⟩
    exact absurd (hlock now ha) (not_le.mpr hlt)
  have hcounted := Counted.run hc h₁
  have hbounded : Bounded S c _ s₁ :=
    ⟨hrelock, hcounted, ticksLeft_le hcounted s₁.control, t₁, _, halike, ht₁, halike.pushed ▸ halt⟩
  have hstep : ∀ i k u, Bounded S c k u → u.control = .idle ∨
      ∃ k' u', u.step S (.tick (frozen i)) = some u' ∧ k' < k ∧ Bounded S c k' u' := by
    intro i k u hu
    by_cases hidle : u.control = .idle
    · exact .inl hidle
    · exact .inr (hu.step hidle (frozen i))
  exact exists_done_within hstep hbounded

end

/-- key 3 is suspected and two keys are typed; the output is frozen at every second query while the
timer forks key 3 -/
theorem call_bounded_typed : ∃ s s₁,
    runs (Sys.step testSetup) (Sys.create (Triqueue.create 3))
      (during (.acceptEvent (down 3 100)) 7 ++ during (.acceptEvent (down 20 110)) 7 ++
        during (.acceptEvent (up 20 120)) 7) = some s ∧
    s.step testSetup (.call (.acceptTime 310)) = some s₁ ∧
    s₁.machine.tq.buffer.contentsSize = 3 ∧
    ∃ n, n ≤ 24 ∧ ∃ s', runs (Sys.step testSetup) s₁
        ((List.range n).map fun i => .tick (i % 2 == 1)) = some s' ∧ s'.control = .idle := by
  have hs := Option.eq_some_of_isSome (o := runs (Sys.step testSetup)
    (Sys.create (Triqueue.create 3)) (during (.acceptEvent (down 3 100)) 7 ++
      during (.acceptEvent (down 20 110)) 7 ++ during (.acceptEvent (up 20 120)) 7)) (by decide)
  have hclock : ∀ u ∈ runs (Sys.step testSetup) (Sys.create (Triqueue.create 3))
      (during (.acceptEvent (down 3 100)) 7 ++ during (.acceptEvent (down 20 110)) 7 ++
        during (.acceptEvent (up 20 120)) 7), u.machine.mCurrentTime ≤ 310 := by decide
  refine ⟨_, _, hs, rfl, by decide, ?_⟩
  exact call_bounded (a := .acceptTime 310) (show 2 ≤ 3 by decide) hs (by decide) rfl
    (fun now hnow => by cases hnow; exact hclock _ hs) (by decide) fun i => i % 2 == 1

end ForkNS
