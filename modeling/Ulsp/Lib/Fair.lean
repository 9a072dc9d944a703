import Mathlib.Order.Nat
import Ulsp.Lib.Run

/-!
# Fair executions

A `Path` is an execution that never ends: at every time there is a step with its label, or nothing
happens. It is `Fair` to a set of labels if a step with one of them is taken at some time or other
whenever such steps can be taken from some time on. `Fair.leadsTo` is how a fair execution gets
somewhere: a state with the property `P` is followed by one with the property `Q` if the other steps
keep `P` and do not raise a measure, and the steps that the execution is fair to lower it.
-/

namespace Lib

variable {σ α : Type*} {step : σ → α → σ → Prop}

/-- An execution without an end. At a time without a label nothing happens. -/
structure Path (step : σ → α → σ → Prop) where
  state : ℕ → σ
  label : ℕ → Option α
  rests : ∀ n, label n = none → state (n + 1) = state n
  moves : ∀ n a, label n = some a → step (state n) a (state (n + 1))

namespace Path

variable {π : Path step} {p : α → Prop} {ok : σ → α → Prop} {n : ℕ}

/-- Weak fairness: steps with a label of `p` are not put off for good while they can be taken. -/
def Fair (π : Path step) (p : α → Prop) : Prop :=
  ∀ n, (∀ m, n ≤ m → ∃ a s, p a ∧ step (π.state m) a s) → ∃ m, n ≤ m ∧ ∃ a, π.label m = some a ∧ p a

/-- All the steps meet the condition `ok`. -/
def Within (π : Path step) (ok : σ → α → Prop) : Prop :=
  ∀ n a, π.label n = some a → ok (π.state n) a

/-- What has happened by a time is a run. -/
theorem run_within (h : π.Within ok) (n : ℕ) :
    ∃ as, Run (Guarded step ok) (π.state 0) as (π.state n) := by
  induction n with
  | zero => exact ⟨[], .refl⟩
  | succ n ih =>
    obtain ⟨as, hrun⟩ := ih
    cases hlabel : π.label n with
    | none => exact ⟨as, π.rests n hlabel ▸ hrun⟩
    | some a => exact ⟨as ++ [a], hrun.tail ⟨π.moves n a hlabel, h n a hlabel⟩⟩

/-- What is kept by every step, and holds at one time, holds from then on. -/
theorem stable {P : ℕ → Prop} (hrest : ∀ m, n ≤ m → π.label m = none → P m → P (m + 1))
    (hmove : ∀ m a, n ≤ m → π.label m = some a → P m → P (m + 1)) (hn : P n) {m : ℕ} (hm : n ≤ m) :
    P m := by
  induction hm with
  | refl => exact hn
  | @step m hm ih =>
    cases hlabel : π.label m with
    | none => exact hrest m hm hlabel ih
    | some a => exact hmove m a hm hlabel ih

/-- Under fairness to the labels `p`, a state with `P` is followed by one with `Q`: while there is
none, steps with such labels can be taken and lower the measure, and no step raises it. -/
theorem Fair.leadsTo (hfair : π.Fair p) {P Q : σ → Prop} (μ : σ → ℕ)
    (henabled : ∀ s, P s → ∃ a s', p a ∧ step s a s')
    (hstep : ∀ m a, π.label m = some a → P (π.state m) → Q (π.state (m + 1)) ∨
      P (π.state (m + 1)) ∧ μ (π.state (m + 1)) ≤ μ (π.state m) ∧
        (p a → μ (π.state (m + 1)) < μ (π.state m)))
    (hP : P (π.state n)) : ∃ m, n ≤ m ∧ Q (π.state m) := by
  by_contra hno
  have hno : ∀ m, n ≤ m → ¬Q (π.state m) := fun m hm hQ => hno ⟨m, hm, hQ⟩
  -- the induction is on the measure, and goes on from the step that lowers it
  suffices h : ∀ k m, n ≤ m → P (π.state m) → μ (π.state m) = k → False from h _ n le_rfl hP rfl
  intro k
  induction k using Nat.strongRecOn with
  | ind k ih =>
    intro m hm hPm hk
    have hstable : ∀ i, m ≤ i → P (π.state i) ∧ μ (π.state i) ≤ k := by
      intro i hi
      refine π.stable (P := fun i => P (π.state i) ∧ μ (π.state i) ≤ k) ?_ ?_ ⟨hPm, hk.le⟩ hi
      · intro i _ hrest h
        rwa [π.rests i hrest]
      · intro i a hmi hlabel h
        obtain ⟨hPi, hle, -⟩ := (hstep i a hlabel h.1).resolve_left (hno _ (by omega))
        exact ⟨hPi, hle.trans h.2⟩
    obtain ⟨i, hi, a, hlabel, ha⟩ := hfair m fun i hi => henabled _ (hstable i hi).1
    obtain ⟨hPi, hle⟩ := hstable i hi
    obtain ⟨hPi', -, hlt⟩ := (hstep i a hlabel hPi).resolve_left (hno _ (by omega))
    exact ih _ ((hlt ha).trans_le hle) (i + 1) (by omega) hPi' rfl

/-- A computed run that comes to rest is an execution, through the states that its beginnings lead to.
-/
theorem of_exec {next : σ → α → Option σ} {s t : σ} {as : List α} (h : exec next s as = some t) :
    ∃ π : Path fun s a t => next s a = some t,
      (∀ n, exec next s (as.take n) = some (π.state n)) ∧ ∀ n, π.label n = as[n]? := by
  induction as generalizing s with
  | nil =>
    refine ⟨⟨fun _ => s, fun _ => none, fun _ _ => rfl, nofun⟩, ?_, fun n => rfl⟩
    intro n
    rw [List.take_nil]
    rfl
  | cons a as ih =>
    simp only [exec, List.foldlM_cons, Option.bind_eq_bind, Option.bind_eq_some_iff] at h
    obtain ⟨u, hu, hrest⟩ := h
    obtain ⟨π, hstate, hlabel⟩ := ih hrest
    refine ⟨⟨fun n => n.casesOn s π.state, fun n => n.casesOn (some a) π.label, ?_, ?_⟩, ?_, ?_⟩
    · intro n hn
      cases n with
      | zero => cases hn
      | succ n => exact π.rests n hn
    · intro n b hb
      cases n with
      | zero =>
        obtain rfl := Option.some.inj hb
        exact hu.trans (hstate 0)
      | succ n => exact π.moves n b hb
    · intro n
      cases n with
      | zero => rfl
      | succ n =>
        simp only [exec, List.take_succ_cons, List.foldlM_cons, Option.bind_eq_bind, hu,
          Option.bind_some]
        exact hstate n
    · intro n
      cases n with
      | zero => rfl
      | succ n => simpa using hlabel n

/-- A run computed within a condition is an execution within it. -/
theorem of_exec_guarded {next : σ → α → Option σ} [∀ s a, Decidable (ok s a)] {s t : σ}
    {as : List α} (h : exec (guardedNext next ok) s as = some t) :
    ∃ π : Path fun s a t => next s a = some t, π.Within ok ∧
      (∀ n, exec (guardedNext next ok) s (as.take n) = some (π.state n)) ∧
        ∀ n, π.label n = as[n]? := by
  obtain ⟨π, hstate, hlabel⟩ := of_exec h
  have hmoves : ∀ n a, π.label n = some a → ok (π.state n) a ∧
      next (π.state n) a = some (π.state (n + 1)) := by
    intro n a hn
    have hmove := π.moves n a hn
    simp only [guardedNext] at hmove
    split at hmove
    · exact ⟨‹_›, hmove⟩
    · cases hmove
  exact ⟨⟨π.state, π.label, π.rests, fun n a hn => (hmoves n a hn).2⟩,
    fun n a hn => (hmoves n a hn).1, hstate, hlabel⟩

/-- An execution that comes to rest where no step of `p` can be taken is fair to them. -/
theorem fair_of_rest {t : σ} (hlast : ∀ m, n ≤ m → π.state m = t)
    (hnone : ∀ a s, p a → ¬step t a s) : π.Fair p := by
  intro k hk
  obtain ⟨a, s, ha, hst⟩ := hk (max k n) (Nat.le_max_left ..)
  rw [hlast _ (Nat.le_max_right ..)] at hst
  exact absurd hst (hnone a s ha)

end Path

end Lib
