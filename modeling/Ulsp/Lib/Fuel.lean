import Mathlib.Data.Nat.Notation

/-!
# Loops with a bound on their passes

A `while` loop with no bound of its own is a function of the number of passes it may take, `none`
meaning that they did not suffice (or that the body failed). `Returns f r` says that the loop ends
with `r`: it is the result under every large enough bound.
-/

namespace Lib

variable {α β : Type*}

/-- With enough passes the computation ends, with result `r`. -/
def Returns (f : ℕ → Option β) (r : β) : Prop := ∃ n, ∀ fuel, n ≤ fuel → f fuel = some r

/-- A computation has one result. -/
theorem Returns.unique {f : ℕ → Option β} {r r' : β} (h : Returns f r) (h' : Returns f r') :
    r = r' := by
  obtain ⟨n, hn⟩ := h
  obtain ⟨m, hm⟩ := h'
  exact Option.some.inj ((hn _ (Nat.le_max_left n m)).symm.trans (hm _ (Nat.le_max_right n m)))

/-- A loop that needs one pass more than a loop known to end. -/
theorem Returns.succ {f : ℕ → Option β} {r : β} {k : ℕ}
    (h : ∀ fuel, k ≤ fuel → f (fuel + 1) = some r) : Returns f r := by
  refine ⟨k + 1, ?_⟩
  intro fuel hle
  obtain ⟨m, rfl⟩ : ∃ m, fuel = m + 1 := ⟨fuel - 1, by omega⟩
  exact h m (by omega)

/-- A loop that ends within some passes and any number more. -/
theorem Returns.of_add {f : ℕ → Option β} {r : β} (k : ℕ) (h : ∀ m, f (m + k) = some r) :
    Returns f r := by
  refine ⟨k, ?_⟩
  intro fuel hle
  obtain ⟨m, rfl⟩ := Nat.exists_eq_add_of_le' hle
  exact h m

/-- A computation whose result is changed. -/
theorem Returns.map {f : ℕ → Option α} {a : α} (h : Returns f a) (g : α → β) :
    Returns (fun fuel => (f fuel).map g) (g a) := by
  obtain ⟨n, hn⟩ := h
  exact ⟨n, fun fuel hle => congrArg (Option.map g) (hn fuel hle)⟩

/-- Two computations one after the other. -/
theorem Returns.bind {f : ℕ → Option α} {g : ℕ → α → Option β} {a : α} {r : β} (h : Returns f a)
    (hg : Returns (fun fuel => g fuel a) r) : Returns (fun fuel => (f fuel).bind (g fuel)) r := by
  obtain ⟨n, hn⟩ := h
  obtain ⟨m, hm⟩ := hg
  refine ⟨max n m, ?_⟩
  intro fuel hle
  simp only [hn fuel (by omega), Option.bind_some]
  exact hm fuel (by omega)

/-- A loop whose body goes on with a state or ends with a result. -/
def loop {σ : Type*} (body : σ → σ ⊕ β) : ℕ → σ → Option β
  | 0, _ => none
  | fuel + 1, s =>
    match body s with
    | .inl s' => loop body fuel s'
    | .inr r => some r

/-- A loop ends, with a result that satisfies `Q`, when its body keeps `I` and lowers `m`, or ends
so. -/
theorem loop_returns {σ : Type*} {body : σ → σ ⊕ β} {I : σ → Prop} {Q : β → Prop} (m : σ → ℕ)
    (hbody : ∀ s, I s → (∃ s', body s = .inl s' ∧ I s' ∧ m s' < m s) ∨ ∃ r, body s = .inr r ∧ Q r)
    {s : σ} (hs : I s) : ∃ r, Returns (fun fuel => loop body fuel s) r ∧ Q r := by
  induction hm : m s using Nat.strongRecOn generalizing s with
  | ind k ih =>
    rcases hbody s hs with ⟨s', hgo, hs', hlt⟩ | ⟨r, hend, hr⟩
    · obtain ⟨r, ⟨n, hn⟩, hr⟩ := ih (m s') (hm ▸ hlt) hs' rfl
      refine ⟨r, .succ (k := n) ?_, hr⟩
      intro fuel hle
      simp only [loop, hgo]
      exact hn fuel hle
    · refine ⟨r, .succ (k := 0) ?_, hr⟩
      intro fuel _
      simp only [loop, hend]

/-- What a loop ends with, when its body keeps `I` or ends with a result that satisfies `Q`. -/
theorem loop_result {σ : Type*} {body : σ → σ ⊕ β} {I : σ → Prop} {Q : β → Prop}
    (hbody : ∀ s, I s → (∀ s', body s = .inl s' → I s') ∧ ∀ r, body s = .inr r → Q r) {s : σ} (hs : I s)
    {fuel : ℕ} {r : β} (h : loop body fuel s = some r) : Q r := by
  induction fuel generalizing s with
  | zero => cases h
  | succ fuel ih =>
    rw [loop] at h
    rcases hpass : body s with s' | r'
    · rw [hpass] at h
      exact ih ((hbody s hs).1 s' hpass) h
    · rw [hpass] at h
      obtain rfl := Option.some.inj h
      exact (hbody s hs).2 r' hpass

/-- A loop whose body may be undefined, and is then undefined itself (`none`); the inner `none` means
that the passes did not suffice. -/
def partialLoop {σ : Type*} (body : σ → Option (σ ⊕ β)) : ℕ → σ → Option (Option β)
  | 0, _ => some none
  | fuel + 1, s =>
    match body s with
    | none => none
    | some (.inl s') => partialLoop body fuel s'
    | some (.inr r) => some (some r)

/-- It is defined if an invariant keeps the body defined, and then it is a loop. -/
theorem partialLoop_eq {σ : Type*} {body : σ → σ ⊕ β} {body' : σ → Option (σ ⊕ β)} {I : σ → Prop}
    (hbody : ∀ s, I s → body' s = some (body s) ∧ ∀ s', body s = .inl s' → I s') {s : σ} (hs : I s)
    (fuel : ℕ) : partialLoop body' fuel s = some (loop body fuel s) := by
  induction fuel generalizing s with
  | zero => rfl
  | succ fuel ih =>
    obtain ⟨heq, hkeep⟩ := hbody s hs
    rw [partialLoop, heq, loop]
    rcases hpass : body s with s' | r
    · exact ih (hkeep s' hpass)
    · rfl

end Lib
