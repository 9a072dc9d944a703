import Mathlib.Data.List.Basic

/-!
# Labelled runs

A system is a step relation `step : σ → α → σ → Prop` whose label says who moved and how. `Run`
is the finite executions with the labels they took, oldest first. `Run.invariant` is the induction
every safety result is an instance of, and `Guarded` restricts a system to the steps that meet a
condition, for the results that hold of a system used within that condition only.
-/

namespace Lib

variable {σ α : Type*}

/-- `Run step s as t`: taking the labels `as` in order, `step` leads from `s` to `t`. -/
inductive Run (step : σ → α → σ → Prop) (s : σ) : List α → σ → Prop
  | refl : Run step s [] s
  | tail {as : List α} {t u : σ} {a : α} : Run step s as t → step t a u → Run step s (as ++ [a]) u

/-- `step`, at the states and labels that satisfy `ok` only. -/
def Guarded (step : σ → α → σ → Prop) (ok : σ → α → Prop) (s : σ) (a : α) (t : σ) : Prop :=
  step s a t ∧ ok s a

variable {step : σ → α → σ → Prop}

/-- What every step preserves, every run preserves. -/
theorem Run.invariant {I : σ → Prop} (hstep : ∀ s a t, I s → step s a t → I t) {s t : σ}
    {as : List α} (h : Run step s as t) (hs : I s) : I t := by
  induction h with
  | refl => exact hs
  | tail _ hst ih => exact hstep _ _ _ ih hst

/-- Where a state that is not there yet always has a step that brings it nearer, every run can go on to
get there. -/
theorem Run.reaches {I goal : σ → Prop} (μ : σ → ℕ) (hstep : ∀ s a t, I s → step s a t → I t)
    (hgo : ∀ s, I s → ¬ goal s → ∃ a t, step s a t ∧ μ t < μ s) {s : σ} (hs : I s) :
    ∃ as t, Run step s as t ∧ goal t := by
  have hfrom : ∀ n s', I s' → μ s' = n → (∃ as, Run step s as s') →
      ∃ as t, Run step s as t ∧ goal t := by
    intro n
    induction n using Nat.strongRecOn with
    | ind n ih =>
      rintro s' hs' rfl ⟨as, hrun⟩
      by_cases hgoal : goal s'
      · exact ⟨as, s', hrun, hgoal⟩
      · obtain ⟨a, t, hst, hlt⟩ := hgo s' hs' hgoal
        exact ih (μ t) hlt t (hstep _ _ _ hs' hst) rfl ⟨_, hrun.tail hst⟩
  exact hfrom (μ s) s hs rfl ⟨[], .refl⟩

/-- Where every step lowers a measure, a run has no more steps than the measure allows. -/
theorem Run.length_le {μ : σ → ℕ} (hlt : ∀ s a t, step s a t → μ t < μ s) {s t : σ} {as : List α}
    (h : Run step s as t) : as.length + μ t ≤ μ s := by
  induction h with
  | refl => simp
  | tail _ hst ih =>
    have hstep := hlt _ _ _ hst
    rw [List.length_append, List.length_singleton]
    omega

/-- A single step is a run of one label. -/
theorem Run.single {s t : σ} {a : α} (h : step s a t) : Run step s [a] t := by
  simpa using Run.refl.tail h

/-- Runs compose. -/
theorem Run.append {s t u : σ} {as bs : List α} (h₁ : Run step s as t) (h₂ : Run step t bs u) :
    Run step s (as ++ bs) u := by
  induction h₂ with
  | refl => simpa using h₁
  | tail _ hst ih => rw [← List.append_assoc]; exact ih.tail hst

/-- A run of a system is a run of every system with more steps. -/
theorem Run.mono {step' : σ → α → σ → Prop} (hsub : ∀ s a t, step s a t → step' s a t) {s t : σ}
    {as : List α} (h : Run step s as t) : Run step' s as t := by
  induction h with
  | refl => exact .refl
  | tail _ hst ih => exact ih.tail (hsub _ _ _ hst)

/-- The last step of a run. -/
theorem Run.tail_iff {s u : σ} {as : List α} {a : α} :
    Run step s (as ++ [a]) u ↔ ∃ t, Run step s as t ∧ step t a u := by
  refine ⟨?_, fun ⟨t, hrun, hst⟩ => hrun.tail hst⟩
  intro h
  generalize hbs : as ++ [a] = bs at h
  cases h with
  | refl => simp at hbs
  | tail hrun hst =>
    obtain ⟨rfl, hlast⟩ := List.append_inj' hbs rfl
    cases hlast
    exact ⟨_, hrun, hst⟩

/-- A step that is a function of the state and the label leads to one state by given labels. -/
theorem Run.unique (hfun : ∀ s a t t', step s a t → step s a t' → t = t') {s t t' : σ}
    {as : List α} (h : Run step s as t) (h' : Run step s as t') : t = t' := by
  induction h generalizing t' with
  | refl =>
    generalize hnil : ([] : List α) = bs at h'
    cases h' with
    | refl => rfl
    | tail => simp at hnil
  | tail _ hst ih =>
    obtain ⟨u, hrun, hst'⟩ := Run.tail_iff.mp h'
    obtain rfl := ih hrun
    exact hfun _ _ _ _ hst hst'

/-- One step more meets the condition everywhere if the run did and the step does. -/
theorem Run.guarded_tail (hfun : ∀ s a t t', step s a t → step s a t' → t = t')
    {ok : σ → α → Prop} {s t u : σ} {as : List α} {a : α} (h : Run step s as t) (hst : step t a u) :
    Run (Guarded step ok) s (as ++ [a]) u ↔ Run (Guarded step ok) s as t ∧ ok t a := by
  refine ⟨?_, fun ⟨hrun, hok⟩ => hrun.tail ⟨hst, hok⟩⟩
  intro hrun
  obtain ⟨t', hrun', -, hok⟩ := Run.tail_iff.mp hrun
  obtain rfl := h.unique hfun (hrun'.mono fun _ _ _ hg => hg.1)
  exact ⟨hrun', hok⟩

/-- The state a system with a computable step reaches by the given labels. -/
def exec (next : σ → α → Option σ) (s : σ) (as : List α) : Option σ := as.foldlM next s

/-- What is computed by one label more is one step further. -/
theorem exec_tail {next : σ → α → Option σ} {s t u : σ} {as : List α} {a : α}
    (h : exec next s as = some t) (h' : exec next s (as ++ [a]) = some u) : next t a = some u := by
  unfold exec at h h'
  simpa [h] using h'

/-- What is computed is a run. -/
theorem Run.of_exec {next : σ → α → Option σ} {s t : σ} {as : List α} (h : exec next s as = some t) :
    Run (fun s a t => next s a = some t) s as t := by
  induction as generalizing s with
  | nil => cases h; exact .refl
  | cons a as ih =>
    simp only [exec, List.foldlM_cons, Option.bind_eq_bind, Option.bind_eq_some_iff] at h
    obtain ⟨u, hu, hrest⟩ := h
    exact (Run.single hu).append (ih hrest)

/-- What is computed is a run, to a state of which `f` can be computed too. -/
theorem Run.of_exec_map {β : Type*} {next : σ → α → Option σ} {s : σ} {as : List α} {f : σ → β} {v : β}
    (h : (exec next s as).map f = some v) :
    ∃ t, Run (fun s a t => next s a = some t) s as t ∧ f t = v := by
  obtain ⟨t, ht, hv⟩ := Option.map_eq_some_iff.mp h
  exact ⟨t, .of_exec ht, hv⟩

/-- `next`, at the states and labels that satisfy `ok` only. -/
def guardedNext (next : σ → α → Option σ) (ok : σ → α → Prop) [∀ s a, Decidable (ok s a)] (s : σ)
    (a : α) : Option σ :=
  if ok s a then next s a else none

/-- What is computed within a condition is a step within it. -/
theorem Guarded.of_next {next : σ → α → Option σ} {ok : σ → α → Prop} [∀ s a, Decidable (ok s a)]
    {s t : σ} {a : α} (h : guardedNext next ok s a = some t) :
    Guarded (fun s a t => next s a = some t) ok s a t := by
  unfold guardedNext at h
  split at h
  · exact ⟨h, ‹_›⟩
  · cases h

/-- What is computed within a condition is a run within it. -/
theorem Run.of_exec_guarded {β : Type*} {next : σ → α → Option σ} {ok : σ → α → Prop}
    [∀ s a, Decidable (ok s a)] {s : σ} {as : List α} {f : σ → β} {v : β}
    (h : (exec (guardedNext next ok) s as).map f = some v) :
    ∃ t, Run (Guarded (fun s a t => next s a = some t) ok) s as t ∧ f t = v := by
  obtain ⟨t, hrun, hv⟩ := Run.of_exec_map h
  exact ⟨t, hrun.mono fun _ _ _ => Guarded.of_next, hv⟩

end Lib
