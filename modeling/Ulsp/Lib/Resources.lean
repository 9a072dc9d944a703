import Mathlib.Data.List.Basic

/-!
# Resources that are made and released

What a program has made and what it has released, in order. A release is undefined for what is not held,
so that nothing is released twice, and `Clean` says that all that was made has been released, each once.
-/

namespace Lib

/-- What was made and what was released. -/
structure Resources (α : Type*) where
  made : List α
  released : List α
  deriving DecidableEq, Repr

namespace Resources

variable {α : Type*} {r r' : Resources α} {a b : α}

/-- Nothing was made. -/
def empty : Resources α := ⟨[], []⟩

/-- One more is made. -/
def make (a : α) (r : Resources α) : Resources α := { r with made := r.made ++ [a] }

/-- `a` was made and not released. -/
def Held (r : Resources α) (a : α) : Prop := a ∈ r.made ∧ a ∉ r.released

instance [DecidableEq α] (r : Resources α) (a : α) : Decidable (r.Held a) :=
  inferInstanceAs (Decidable (_ ∧ _))

/-- The release of `a`, which must be held. -/
def release [DecidableEq α] (a : α) (r : Resources α) : Option (Resources α) :=
  if r.Held a then some { r with released := r.released ++ [a] } else none

/-- All that was made was released, each once. -/
def Clean (r : Resources α) : Prop := r.released.Perm r.made

/-- What is made is held. -/
theorem held_make (h : a ∉ r.released) : (r.make a).Held a := ⟨by simp [make], h⟩

/-- What is held stays held when more is made. -/
theorem Held.make (h : r.Held a) : (r.make b).Held a := ⟨List.mem_append_left _ h.1, h.2⟩

/-- What is held stays held when something else is released. -/
theorem Held.release [DecidableEq α] (h : r.Held a) (hr : r.release b = some r') (hne : b ≠ a) :
    r'.Held a := by
  obtain ⟨-, heq⟩ := Option.ite_none_right_eq_some.mp hr
  rw [← Option.some.inj heq]
  refine ⟨h.1, ?_⟩
  rw [List.mem_append, List.mem_singleton]
  exact not_or.mpr ⟨h.2, hne.symm⟩

/-- What is held can be released, and the rest stays. -/
theorem exists_release [DecidableEq α] (h : r.Held a) :
    ∃ r', r.release a = some r' ∧ ∀ b, r'.Held b ↔ r.Held b ∧ b ≠ a := by
  refine ⟨_, if_pos h, fun b => ?_⟩
  simp only [Held, List.mem_append, List.mem_singleton, not_or, and_assoc, ne_eq]

/-- What was held, and what is made. -/
theorem held_make_iff (h : a ∉ r.released) : (r.make a).Held b ↔ r.Held b ∨ b = a := by
  simp only [Held, Resources.make, List.mem_append, List.mem_singleton]
  refine ⟨fun ⟨hmade, hnot⟩ => hmade.imp_left fun hmade => ⟨hmade, hnot⟩, ?_⟩
  rintro (⟨hmade, hnot⟩ | rfl)
  · exact ⟨.inl hmade, hnot⟩
  · exact ⟨.inr rfl, h⟩

/-- Nothing is held at a clean end. -/
theorem Clean.not_held (h : r.Clean) : ¬ r.Held a := fun hheld => hheld.2 (h.mem_iff.mpr hheld.1)

end Resources

end Lib
