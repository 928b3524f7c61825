import Mathlib

/-!
# Runs of a machine that waits for events

A machine that is in some state takes some of the possible events and does not wait for the
others.  Its step is a partial function, and a sequence of events is a run when the machine takes
every one of them where it stands.

Main results:

- Theorem {lit}`EventRun.run_concat_eq_some_iff`: the last event of a run.
- Theorem {lit}`EventRun.exists_step_of_run`: an event in the middle of a run.
- Theorem {lit}`EventRun.run_invariant`: what holds initially and is kept by every step holds after
  every run; the invariant may speak of the events so far.
- Theorem {lit}`EventRun.countP_le_of_rank`: a rank that some events lower bounds how many of them
  a run can have.
-/

namespace EventRun

variable {σ ε : Type} {step : σ → ε → Option σ} {init : σ}

/-- The state after some events, if the machine takes all of them. -/
def run (step : σ → ε → Option σ) (init : σ) (events : List ε) : Option σ :=
  events.foldlM step init

/-- A run of one more event is a run and then a step for the last event. -/
theorem run_concat_eq_some_iff {events : List ε} {e : ε} {s' : σ} :
    run step init (events ++ [e]) = some s' ↔
      ∃ s, run step init events = some s ∧ step s e = some s' := by
  unfold run
  rw [List.foldlM_append]
  simp only [List.foldlM_cons, List.foldlM_nil, Option.bind_eq_bind, Option.pure_def,
    Option.bind_eq_some_iff, Option.some.injEq, exists_eq_right]

theorem run_append (events more : List ε) :
    run step init (events ++ more) = (run step init events).bind fun s => run step s more :=
  List.foldlM_append

/-- An event in the middle of a run was taken where the machine then stood. -/
theorem exists_step_of_run {before after : List ε} {e : ε} {s : σ}
    (h : run step init (before ++ e :: after) = some s) :
    ∃ s₁ s₂, run step init before = some s₁ ∧ step s₁ e = some s₂ := by
  rw [run_append] at h
  rcases Option.bind_eq_some_iff.mp h with ⟨s₁, hbefore, hafter⟩
  rw [run, List.foldlM_cons] at hafter
  rcases Option.bind_eq_some_iff.mp hafter with ⟨s₂, hstep, _⟩
  exact ⟨s₁, s₂, hbefore, hstep⟩

/-- An invariant of the events so far and the state reached. -/
theorem run_invariant {I : List ε → σ → Prop} (hinit : I [] init)
    (hstep : ∀ past s e s', I past s → step s e = some s' → I (past ++ [e]) s')
    {events : List ε} {s : σ} (h : run step init events = some s) : I events s := by
  induction events using List.reverseRecOn generalizing s with
  | nil =>
      obtain rfl : init = s := Option.some.inj h
      exact hinit
  | append_singleton events e ih =>
      rcases run_concat_eq_some_iff.mp h with ⟨s₀, hrun, hlast⟩
      exact hstep events s₀ e s (ih hrun) hlast

/-- While a condition lasts that no step ends, the counted events lower a rank that no other event
raises, so there are no more of them than the rank was. -/
theorem countP_le_of_rank {J : σ → Prop} {rank : σ → Nat} {counted : ε → Bool}
    (hstep : ∀ s e s', J s → step s e = some s' →
      J s' ∧ rank s' + (if counted e then 1 else 0) ≤ rank s)
    {s s' : σ} (hs : J s) {events : List ε} (h : run step s events = some s') :
    J s' ∧ rank s' + events.countP counted ≤ rank s := by
  refine run_invariant
    (I := fun past s' => J s' ∧ rank s' + past.countP counted ≤ rank s) ⟨hs, le_rfl⟩ ?_ h
  rintro past s₁ e s₂ ⟨hJ, hle⟩ hlast
  have hnext := hstep s₁ e s₂ hJ hlast
  refine ⟨hnext.1, ?_⟩
  have hcount : (past ++ [e]).countP counted =
      past.countP counted + if counted e then 1 else 0 := by
    simp [List.countP_append, List.countP_cons]
  omega

end EventRun
