import Mathlib.Order.Lattice

/-!
# Heap order on a numbered tree

The tree is given by its parent function alone: every position but `0` has a smaller parent, and
the children of `i` are the positions whose parent is `i`. `Ordered key n` says that among the
positions below `n` no key is less than its parent's. A sift passes through keyings that are
ordered except around one position: `SaveAbove` allows the edge above it to be wrong, `SaveBelow`
the edges below it. Each has a step lemma for the exchange the sift makes (`SaveAbove.swap`,
`SaveBelow.swap`), a stop lemma, and an entry from a heap whose key at one position was replaced.
-/

namespace Lib.HeapOrder

variable {κ : Type*} [LinearOrder κ]

/-- No key below `n` is less than its parent's key. -/
def Ordered (parent : ℕ → ℕ) (key : ℕ → κ) (n : ℕ) : Prop :=
  ∀ i, 0 < i → i < n → key (parent i) ≤ key i

/-- Heap order except for the edge above `i`, across which the children of `i` are still in
order with the parent of `i`. -/
structure SaveAbove (parent : ℕ → ℕ) (key : ℕ → κ) (n i : ℕ) : Prop where
  off : ∀ j, 0 < j → j < n → j ≠ i → key (parent j) ≤ key j
  across : 0 < i → ∀ j, 0 < j → j < n → parent j = i → key (parent i) ≤ key j

/-- Heap order except for the edges below `i`, across which the children of `i` are still in
order with the parent of `i`. -/
structure SaveBelow (parent : ℕ → ℕ) (key : ℕ → κ) (n i : ℕ) : Prop where
  off : ∀ j, 0 < j → j < n → parent j ≠ i → key (parent j) ≤ key j
  across : 0 < i → ∀ j, 0 < j → j < n → parent j = i → key (parent i) ≤ key j

/-- `key'` is `key` with the values at `i` and `j` exchanged. -/
structure Swapped (key key' : ℕ → κ) (i j : ℕ) : Prop where
  left : key' i = key j
  right : key' j = key i
  off : ∀ k, k ≠ i → k ≠ j → key' k = key k

variable {parent : ℕ → ℕ} {key key' : ℕ → κ} {n i : ℕ}

/-- The root holds a least key. -/
theorem Ordered.root_le (hp : ∀ i, 0 < i → parent i < i) (h : Ordered parent key n) (hi : i < n) :
    key 0 ≤ key i := by
  induction i using Nat.strongRecOn with
  | ind i ih =>
    rcases Nat.eq_zero_or_pos i with rfl | hpos
    · exact le_rfl
    · have hlt := hp i hpos
      exact (ih (parent i) hlt (by omega)).trans (h i hpos hi)

/-- Heap order is inherited by fewer positions. -/
theorem Ordered.mono {m : ℕ} (h : Ordered parent key n) (hm : m ≤ n) : Ordered parent key m :=
  fun i hpos hi => h i hpos (by omega)

/-- Heap order depends on the keys below `n` only. -/
theorem Ordered.congr (hp : ∀ i, 0 < i → parent i < i) (h : Ordered parent key n)
    (heq : ∀ i, i < n → key' i = key i) : Ordered parent key' n := by
  intro i hpos hi
  have hlt := hp i hpos
  rw [heq i hi, heq (parent i) (by omega)]
  exact h i hpos hi

/-! ## Sifting up -/

/-- Sifting up stops where the edge above is in order. -/
theorem SaveAbove.ordered (h : SaveAbove parent key n i) (hstop : 0 < i → key (parent i) ≤ key i) :
    Ordered parent key n := by
  intro j hpos hj
  rcases eq_or_ne j i with rfl | hji
  · exact hstop hpos
  · exact h.off j hpos hj hji

/-- Sifting up: exchanging a key with its greater parent moves the wrong edge to the parent. -/
theorem SaveAbove.swap (hp : ∀ i, 0 < i → parent i < i) (h : SaveAbove parent key n i)
    (hpos : 0 < i) (hi : i < n) (hlt : key i < key (parent i))
    (hs : Swapped key key' i (parent i)) : SaveAbove parent key' n (parent i) := by
  have hpi := hp i hpos
  refine ⟨?_, ?_⟩
  · intro j hj hjn hne
    have hpj := hp j hj
    rcases eq_or_ne j i with rfl | hji
    · rw [hs.right, hs.left]
      exact hlt.le
    rw [hs.off j hji hne]
    rcases eq_or_ne (parent j) i with h1 | h1
    · rw [h1, hs.left]
      exact h.across hpos j hj hjn h1
    rcases eq_or_ne (parent j) (parent i) with h2 | h2
    · rw [h2, hs.right]
      exact hlt.le.trans (h2 ▸ h.off j hj hjn hji)
    · rw [hs.off _ h1 h2]
      exact h.off j hj hjn hji
  · intro hpp j hj hjn hpj
    have hlt2 := hp (parent i) hpp
    have hup : key (parent (parent i)) ≤ key (parent i) :=
      h.off (parent i) hpp (by omega) (by omega)
    rw [hs.off (parent (parent i)) (by omega) (by omega)]
    rcases eq_or_ne j i with rfl | hji
    · rw [hs.left]; exact hup
    · have hjlt := hp j hj
      rw [hs.off j hji (by omega)]
      exact hup.trans (hpj ▸ h.off j hj hjn hji)

/-! ## Sifting down -/

/-- Sifting down stops where no child is less. -/
theorem SaveBelow.ordered (h : SaveBelow parent key n i)
    (hstop : ∀ c, 0 < c → c < n → parent c = i → key i ≤ key c) : Ordered parent key n := by
  intro j hpos hj
  rcases eq_or_ne (parent j) i with hji | hji
  · rw [hji]; exact hstop j hpos hj hji
  · exact h.off j hpos hj hji

/-- Sifting down: exchanging a key with its least child, when that is less, moves the wrong edges
below the child. -/
theorem SaveBelow.swap (hp : ∀ i, 0 < i → parent i < i) (h : SaveBelow parent key n i) {c : ℕ}
    (hc : 0 < c) (hcn : c < n) (hpc : parent c = i) (hlt : key c < key i)
    (hleast : ∀ j, 0 < j → j < n → parent j = i → key c ≤ key j)
    (hs : Swapped key key' i c) : SaveBelow parent key' n c := by
  have hic := hp c hc
  rw [hpc] at hic
  refine ⟨?_, ?_⟩
  · intro j hj hjn hne
    have hpj := hp j hj
    rcases eq_or_ne j c with rfl | hjc
    · rw [hpc, hs.left, hs.right]
      exact hlt.le
    rcases eq_or_ne j i with rfl | hji
    · rw [hs.left, hs.off (parent j) (by omega) hne]
      exact h.across hj c hc hcn hpc
    rw [hs.off j hji hjc]
    rcases eq_or_ne (parent j) i with h1 | h1
    · rw [h1, hs.left]
      exact hleast j hj hjn h1
    · rw [hs.off _ h1 hne]
      exact h.off j hj hjn h1
  · intro _ j hj hjn hpj
    have hjlt := hp j hj
    rw [hpc, hs.left, hs.off j (by omega) (by omega)]
    have := h.off j hj hjn (by omega)
    rwa [hpj] at this

/-! ## Replacing one key of a heap -/

/-- In a heap the children of a position are in order with its parent. -/
theorem Ordered.across (h : Ordered parent key n) (hi : i < n) (hpos : 0 < i) {j : ℕ} (hj : 0 < j)
    (hjn : j < n) (hpj : parent j = i) : key (parent i) ≤ key j :=
  (h i hpos hi).trans (hpj ▸ h j hj hjn)

/-- A heap whose key at `i` is replaced by one no greater than the children's. -/
theorem Ordered.saveAbove (hp : ∀ i, 0 < i → parent i < i) (h : Ordered parent key n) (hi : i < n)
    (hoff : ∀ j, j < n → j ≠ i → key' j = key j)
    (hle : ∀ j, 0 < j → j < n → parent j = i → key' i ≤ key j) : SaveAbove parent key' n i where
  off := by
    intro j hj hjn hne
    have hpj := hp j hj
    rw [hoff j hjn hne]
    rcases eq_or_ne (parent j) i with h1 | h1
    · rw [h1]; exact hle j hj hjn h1
    · rw [hoff _ (by omega) h1]; exact h j hj hjn
  across := by
    intro hpos j hj hjn hpj
    have h1 := hp i hpos
    have h2 := hp j hj
    rw [hoff (parent i) (by omega) (by omega), hoff j hjn (by omega)]
    exact h.across hi hpos hj hjn hpj

/-- A heap whose key at `i` is replaced by one no less than the parent's. -/
theorem Ordered.saveBelow (hp : ∀ i, 0 < i → parent i < i) (h : Ordered parent key n) (hi : i < n)
    (hoff : ∀ j, j < n → j ≠ i → key' j = key j) (hle : 0 < i → key (parent i) ≤ key' i) :
    SaveBelow parent key' n i where
  off := by
    intro j hj hjn hne
    have hpj := hp j hj
    rw [hoff _ (by omega) hne]
    rcases eq_or_ne j i with rfl | h1
    · exact hle hj
    · rw [hoff j hjn h1]; exact h j hj hjn
  across := by
    intro hpos j hj hjn hpj
    have h1 := hp i hpos
    have h2 := hp j hj
    rw [hoff (parent i) (by omega) (by omega), hoff j hjn (by omega)]
    exact h.across hi hpos hj hjn hpj

end Lib.HeapOrder
