import Mathlib.Algebra.BigOperators.Group.Finset.Piecewise
import Mathlib.Data.Fintype.Card

/-!
# Counting the threads of a system

`count p w` is the number of threads whose position satisfies `p`, where `w` gives the position of
each of finitely many threads. When one thread moves the number changes by what that thread
contributes before and after (`count_update`), so a bound on it is proved by looking at one
thread's step. `tally f w` is the same for positions that contribute more than one each.
-/

namespace Lib

variable {ι α : Type*} [Fintype ι] {p : α → Bool} {w w' : ι → α}

/-- The sum of what the threads' positions contribute. -/
def tally (f : α → ℕ) (w : ι → α) : ℕ := ∑ i, f (w i)

/-- One thread moves. -/
theorem tally_update [DecidableEq ι] (f : α → ℕ) (w : ι → α) (i : ι) (x : α) :
    tally f (Function.update w i x) + f (w i) = tally f w + f x := by
  have hsplit := Finset.sum_eq_add_sum_sdiff_singleton_of_mem (Finset.mem_univ i)
    fun j => f (w j)
  have hupdate : ∀ j, f (Function.update w i x j) =
      Function.update (fun j => f (w j)) i (f x) j := fun j => by
    rcases eq_or_ne j i with rfl | hj <;> simp [*]
  simp only [tally, hupdate]
  rw [Finset.sum_update_of_mem (Finset.mem_univ i), hsplit]
  omega

/-- No thread contributes. -/
theorem tally_eq_zero {f : α → ℕ} : tally f w = 0 ↔ ∀ i, f (w i) = 0 := by
  simp [tally]

/-- The number of threads at the positions `p`. -/
def count (p : α → Bool) (w : ι → α) : ℕ := (Finset.univ.filter fun i => p (w i)).card

theorem count_eq_tally (p : α → Bool) (w : ι → α) : count p w = tally (fun x => (p x).toNat) w := by
  rw [count, Finset.card_filter, tally]
  exact Finset.sum_congr rfl fun i _ => by cases p (w i) <;> rfl

/-- One thread moves. -/
theorem count_update [DecidableEq ι] (p : α → Bool) (w : ι → α) (i : ι) (x : α) :
    count p (Function.update w i x) + (p (w i)).toNat = count p w + (p x).toNat := by
  simp only [count_eq_tally]
  exact tally_update _ w i x

/-- Moves between positions that `p` does not tell apart leave the number as it is. -/
theorem count_congr (h : ∀ i, p (w' i) = p (w i)) : count p w' = count p w := by
  simp only [count, h]

/-- No thread is at the positions `p`. -/
theorem count_eq_zero : count p w = 0 ↔ ∀ i, p (w i) = false := by
  simp [count, Finset.card_eq_zero, Finset.filter_eq_empty_iff]

/-- All threads are at the positions `p`. -/
theorem card_le_count : Fintype.card ι ≤ count p w ↔ ∀ i, p (w i) = true := by
  have hall := Finset.card_filter_eq_iff (s := Finset.univ) (p := fun i => p (w i) = true)
  simp only [Finset.mem_univ, true_imp_iff, Finset.card_univ] at hall
  rw [← hall, count]
  exact ⟨fun h => (Finset.card_filter_le _ _).antisymm h, fun h => h.ge⟩

end Lib
