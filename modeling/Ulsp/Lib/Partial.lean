import Mathlib.Data.Nat.Notation

/-!
# Computations that may be undefined

A computation in `Option` is `none` where it is undefined. `Ends f ok Q` is both halves of what is
to be said of one: whatever it ends with satisfies `Q`, and under the condition `ok` it does end.
The condition is about the computation as a whole, so it is the same for all of its steps.
-/

namespace Lib

variable {α β : Type*}

/-- What `f` ends with satisfies `Q`, and if `ok` it ends. -/
structure Ends (f : Option β) (ok : Prop) (Q : β → Prop) : Prop where
  defined : ok → ∃ r, f = some r
  result : ∀ r, f = some r → Q r

variable {f : Option α} {g : α → Option β} {ok : Prop} {Q : α → Prop} {R : β → Prop}

/-- A computation that is done. -/
theorem Ends.pure {a : α} (h : Q a) : Ends (some a) ok Q :=
  ⟨fun _ => ⟨a, rfl⟩, fun _ hr => Option.some.inj hr ▸ h⟩

/-- Two computations one after the other. -/
theorem Ends.bind (hf : Ends f ok Q) (hg : ∀ a, Q a → Ends (g a) ok R) : Ends (f.bind g) ok R := by
  refine ⟨?_, ?_⟩
  · intro hok
    obtain ⟨a, ha⟩ := hf.defined hok
    rw [ha]
    exact (hg a (hf.result a ha)).defined hok
  · intro r hr
    obtain ⟨a, ha, hga⟩ := Option.bind_eq_some_iff.mp hr
    exact (hg a (hf.result a ha)).result r hga

/-- What is asked of the result may be weakened. -/
theorem Ends.imp {Q' : α → Prop} (h : Ends f ok Q) (himp : ∀ a, Q a → Q' a) : Ends f ok Q' :=
  ⟨h.defined, fun r hr => himp r (h.result r hr)⟩

end Lib
