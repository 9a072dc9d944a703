import Mathlib.Data.Finset.Erase
import Mathlib.Data.Finset.Insert
import Mathlib.Data.Nat.ModEq

/-!
# Ring buffers

A ring has `n` cells, the position of the next write and that of the next read. `Holds` says that it
stores what was put in and not taken out yet: the values from the `r`th on of the list `ws` of all
values put in, each in the cell its number falls on, the cells of `full`. A ring that is not full
keeps this when a value is put in, one that is not empty when a value is taken out, and that value is
the next of the list.
-/

namespace Lib

namespace Ring

variable {α : Type*} {n : ℕ} [NeZero n]

/-- The cells `cells`, to be written next at `head` and read next at `tail`, hold the values of `ws`
but for the first `r`, in the cells of `full`. -/
structure Holds (cells : Fin n → α) (head tail : Fin n) (full : Finset (Fin n)) (ws : List α)
    (r : ℕ) : Prop where
  head : head = Fin.ofNat n ws.length
  tail : tail = Fin.ofNat n r
  le_written : r ≤ ws.length
  fits : ws.length ≤ r + n
  mem_full : ∀ i, i ∈ full ↔ ∃ k, r ≤ k ∧ k < ws.length ∧ Fin.ofNat n k = i
  cell : ∀ k (hk : k < ws.length), r ≤ k → cells (Fin.ofNat n k) = ws[k]

variable {cells : Fin n → α} {head tail : Fin n} {full : Finset (Fin n)} {ws : List α} {r : ℕ}

/-- A ring that was just set up. -/
theorem holds_nil (cells : Fin n → α) : Holds cells 0 0 ∅ [] 0 :=
  ⟨rfl, rfl, le_rfl, Nat.zero_le _, by simp, nofun⟩

/-- Numbers less than `n` apart fall on different cells. -/
theorem ofNat_ne {a b : ℕ} (hab : a < b) (hb : b < a + n) : Fin.ofNat n a ≠ Fin.ofNat n b := by
  intro heq
  have hmod : a % n = b % n := congrArg Fin.val heq
  have hdvd : n ∣ b - a := (Nat.modEq_iff_dvd' hab.le).mp hmod
  have hle := Nat.le_of_dvd (by omega) hdvd
  omega

theorem ofNat_succ (k : ℕ) : Fin.ofNat n k + 1 = Fin.ofNat n (k + 1) := by
  apply Fin.ext
  show (k % n + 1 % n) % n = (k + 1) % n
  exact (Nat.add_mod k 1 n).symm

/-- The next write of a ring with room is to a free cell. -/
theorem Holds.head_free (h : Holds cells head tail full ws r) (hroom : ws.length < r + n) :
    head ∉ full := by
  intro hmem
  obtain ⟨k, hrk, hk, heq⟩ := (h.mem_full head).mp hmem
  rw [h.head] at heq
  exact ofNat_ne hk (by omega) heq

/-- The next read of a ring that is not empty is of a full cell. -/
theorem Holds.tail_full (h : Holds cells head tail full ws r) (hr : r < ws.length) : tail ∈ full :=
  (h.mem_full tail).mpr ⟨r, le_rfl, hr, h.tail.symm⟩

/-- A value is put in. -/
theorem Holds.put (h : Holds cells head tail full ws r) (hroom : ws.length < r + n) (x : α) :
    Holds (Function.update cells head x) (head + 1) tail (insert head full) (ws ++ [x]) r := by
  obtain ⟨rfl, htail, hle, hfits, hfull, hcell⟩ := h
  have hlen : (ws ++ [x]).length = ws.length + 1 := List.length_append
  refine ⟨?_, htail, by omega, by omega, ?_, ?_⟩
  · rw [ofNat_succ, hlen]
  · intro i
    rw [Finset.mem_insert, hfull, hlen]
    constructor
    · rintro (rfl | ⟨k, hrk, hk, hi⟩)
      · exact ⟨ws.length, hle, Nat.lt_succ_self _, rfl⟩
      · exact ⟨k, hrk, by omega, hi⟩
    · rintro ⟨k, hrk, hk, hi⟩
      rcases Nat.lt_succ_iff_lt_or_eq.mp hk with hlt | rfl
      · exact .inr ⟨k, hrk, hlt, hi⟩
      · exact .inl hi.symm
  · intro k hk hrk
    rw [hlen] at hk
    rcases Nat.lt_succ_iff_lt_or_eq.mp hk with hlt | rfl
    · rw [Function.update_of_ne (ofNat_ne hlt (by omega)), hcell k hlt hrk,
        List.getElem_append_left hlt]
    · rw [Function.update_self, List.getElem_concat_length rfl]

/-- The next value to be taken out. -/
theorem Holds.next (h : Holds cells head tail full ws r) (hr : r < ws.length) :
    cells tail = ws[r] :=
  h.tail ▸ h.cell r hr le_rfl

/-- A value is taken out. -/
theorem Holds.take (h : Holds cells head tail full ws r) (hr : r < ws.length) :
    Holds cells head (tail + 1) (full.erase tail) ws (r + 1) := by
  obtain ⟨hhead, rfl, hle, hfits, hfull, hcell⟩ := h
  refine ⟨hhead, ofNat_succ r, hr, by omega, ?_, fun k hk hrk => hcell k hk (by omega)⟩
  intro i
  rw [Finset.mem_erase, hfull]
  constructor
  · rintro ⟨hne, k, hrk, hk, rfl⟩
    have hkr : k ≠ r := fun heq => hne (heq ▸ rfl)
    exact ⟨k, by omega, hk, rfl⟩
  · rintro ⟨k, hrk, hk, rfl⟩
    exact ⟨(ofNat_ne (by omega) (by omega)).symm, k, by omega, hk, rfl⟩

end Ring

end Lib
