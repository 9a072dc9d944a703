import Mathlib.Data.Nat.Basic

/-!
# Locks

A lock is free or held: acquiring it takes a free one and waits for a held one, and releasing it makes
it free. `Guards` is what a lock is for: at most one thread is inside the section that is entered by
acquiring it and left by releasing it, and the lock is held exactly while one is. A mutex is a lock, and
a semaphore of one.
-/

namespace Lib

/-- A lock: what it is when it is free and when it is held, and its operations. -/
structure Lock (L : Type*) where
  free : L
  held : L
  acquire : L → Option L
  release : L → L
  acquire_free : acquire free = some held
  acquire_held : acquire held = none
  release_held : release held = free

/-- A mutex, by whether it is locked. -/
def mutex : Lock Bool where
  free := false
  held := true
  acquire l := if l then none else some true
  release _ := false
  acquire_free := rfl
  acquire_held := rfl
  release_held := rfl

/-- A semaphore of one, by its value. -/
def semaphore : Lock ℕ where
  free := 1
  held := 0
  acquire n := if 0 < n then some (n - 1) else none
  release n := n + 1
  acquire_free := rfl
  acquire_held := rfl
  release_held := rfl

namespace Lock

variable {L ι : Type*} (K : Lock L)

/-- The lock and the threads that are inside its section. -/
inductive Guards (l : L) (inside : ι → Prop) : Prop
  | free : l = K.free → (∀ i, ¬ inside i) → Guards l inside
  | held (i : ι) : l = K.held → inside i → (∀ j, inside j → j = i) → Guards l inside

variable {K} {l l' : L} {inside inside' : ι → Prop} {i : ι}

theorem Guards.congr (h : K.Guards l inside) (hsame : ∀ j, inside' j ↔ inside j) :
    K.Guards l inside' := by
  obtain rfl : inside' = inside := funext fun j => propext (hsame j)
  exact h

/-- A thread that is inside is so alone. -/
theorem Guards.alone (h : K.Guards l inside) (hi : inside i) : l = K.held ∧ ∀ j, inside j → j = i := by
  cases h with
  | free _ hnone => exact absurd hi (hnone i)
  | held i' hl hi' hone =>
    obtain rfl := hone i hi
    exact ⟨hl, hone⟩

/-- Acquiring it lets one in. -/
theorem Guards.acquire (h : K.Guards l inside) (hl : K.acquire l = some l')
    (hsame : ∀ j, j ≠ i → (inside' j ↔ inside j)) (hi : inside' i) :
    (∀ j, ¬ inside j) ∧ K.Guards l' inside' := by
  cases h with
  | free hfree hnone =>
    rw [hfree, K.acquire_free] at hl
    refine ⟨hnone, .held i (Option.some.inj hl).symm hi fun j hj => ?_⟩
    by_contra hne
    exact hnone j ((hsame j hne).mp hj)
  | held i' hheld _ _ =>
    rw [hheld, K.acquire_held] at hl
    cases hl

/-- Releasing it leaves nobody inside. -/
theorem Guards.release (h : K.Guards l inside) (hi : inside i)
    (hsame : ∀ j, j ≠ i → (inside' j ↔ inside j)) (hi' : ¬ inside' i) :
    K.Guards (K.release l) inside' := by
  obtain ⟨rfl, hone⟩ := h.alone hi
  refine .free K.release_held fun j hj => ?_
  rcases eq_or_ne j i with rfl | hne
  · exact hi' hj
  · exact hne (hone j ((hsame j hne).mp hj))

/-- A free lock can be acquired. -/
theorem Guards.can_acquire (h : K.Guards l inside) (hnone : ∀ j, ¬ inside j) :
    K.acquire l = some K.held := by
  cases h with
  | free hfree _ => rw [hfree, K.acquire_free]
  | held i _ hi _ => exact absurd hi (hnone i)

end Lock

end Lib
