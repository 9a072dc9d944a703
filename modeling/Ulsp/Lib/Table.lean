import Mathlib.Data.Finset.Card
import Mathlib.Data.Int.Order.Basic
import Mathlib.Data.List.Count

/-!
# Tables that change while they are scanned

A table has its entries at consecutive places and is kept dense: an entry is appended after the last,
and one that is removed is replaced by the last. `Lists` says that the entries list a set, each
member once. A loop goes through the places in order; where it removes an entry it looks at the same
place again. `Scan` is what such a loop can rely on: of the keys that were there when it began, the
ones still to come are exactly those it has not visited, so at its end it has visited each of them
once.
-/

namespace Lib

/-- The places from `i` to `n`. -/
def places (i n : ℤ) : Finset ℤ := (Finset.range (n + 1 - i).toNat).image fun k : ℕ => i + k

theorem mem_places {i n j : ℤ} : j ∈ places i n ↔ i ≤ j ∧ j ≤ n := by
  simp only [places, Finset.mem_image, Finset.mem_range]
  constructor
  · rintro ⟨k, hk, rfl⟩
    omega
  · rintro ⟨hij, hjn⟩
    exact ⟨(j - i).toNat, by omega, by omega⟩

variable {κ : Type*} {key key' : ℤ → κ} {lo i n : ℤ} {k : κ}

/-- The key of an entry at the places from `i` to `n`. -/
def Among (key : ℤ → κ) (i n : ℤ) (k : κ) : Prop := ∃ j, i ≤ j ∧ j ≤ n ∧ key j = k

/-- Only the keys at the places matter. -/
theorem Among.congr (h : ∀ j, i ≤ j → j ≤ n → key' j = key j) :
    Among key' i n k ↔ Among key i n k :=
  exists_congr fun j => and_congr_right fun hi => and_congr_right fun hn => by rw [h j hi hn]

/-- The first place, or one after it. -/
theorem among_succ (hin : i ≤ n) : Among key i n k ↔ key i = k ∨ Among key (i + 1) n k := by
  constructor
  · rintro ⟨j, hij, hjn, hk⟩
    rcases eq_or_ne j i with rfl | hne
    · exact .inl hk
    · exact .inr ⟨j, by omega, hjn, hk⟩
  · rintro (hk | ⟨j, hij, hjn, hk⟩)
    · exact ⟨i, le_rfl, hin, hk⟩
    · exact ⟨j, by omega, hjn, hk⟩

/-- The last place, or one before it. -/
theorem among_last (hin : i ≤ n + 1) : Among key i (n + 1) k ↔ key (n + 1) = k ∨ Among key i n k := by
  constructor
  · rintro ⟨j, hij, hjn, hk⟩
    rcases eq_or_ne j (n + 1) with rfl | hne
    · exact .inl hk
    · exact .inr ⟨j, hij, by omega, hk⟩
  · rintro (hk | ⟨j, hij, hjn, hk⟩)
    · exact ⟨n + 1, hin, le_rfl, hk⟩
    · exact ⟨j, hij, by omega, hk⟩

/-- The places after `i` hold the keys that those from `i` on hold when the last entry is moved
to `i`. -/
theorem among_moved (hin : i ≤ n) (hi : key' i = key n) (hother : ∀ j, j ≠ i → key' j = key j) :
    Among key' i (n - 1) k ↔ Among key (i + 1) n k := by
  constructor
  · rintro ⟨j, hij, hjn, hk⟩
    rcases eq_or_ne j i with rfl | hne
    · exact ⟨n, by omega, le_rfl, hi ▸ hk⟩
    · exact ⟨j, by omega, by omega, hother j hne ▸ hk⟩
  · rintro ⟨j, hij, hjn, hk⟩
    rcases eq_or_ne j n with rfl | hne
    · exact ⟨i, le_rfl, by omega, hi.trans hk⟩
    · exact ⟨j, by omega, by omega, (hother j (by omega)).trans hk⟩

/-! ## What a table lists -/

/-- The entries at the places from `lo` to `n` list the set `s`, each member once. -/
structure Lists (key : ℤ → κ) (lo n : ℤ) (s : Finset κ) : Prop where
  dense : lo ≤ n + 1
  inj : ∀ i j, lo ≤ i → i ≤ n → lo ≤ j → j ≤ n → key i = key j → i = j
  mem : ∀ k, k ∈ s ↔ Among key lo n k

variable {s : Finset κ}

/-- Only the keys matter. -/
theorem Lists.congr (h : Lists key lo n s) (hkey : ∀ j, lo ≤ j → j ≤ n → key' j = key j) :
    Lists key' lo n s where
  dense := h.dense
  inj i j hi hin hj hjn heq :=
    h.inj i j hi hin hj hjn (by rw [← hkey i hi hin, ← hkey j hj hjn, heq])
  mem k := (h.mem k).trans (Among.congr hkey).symm

variable [DecidableEq κ]

/-- An entry is appended. -/
theorem Lists.append (h : Lists key lo n s) (hk : k ∉ s) (hnew : key' (n + 1) = k)
    (hother : ∀ j, lo ≤ j → j ≤ n → key' j = key j) : Lists key' lo (n + 1) (insert k s) := by
  have hold := h.congr hother
  have hne : ∀ j, lo ≤ j → j ≤ n → key' j ≠ key' (n + 1) := fun j hj hjn heq =>
    hk ((hold.mem k).mpr ⟨j, hj, hjn, heq.trans hnew⟩)
  have hdense := h.dense
  refine ⟨by omega, ?_, ?_⟩
  · intro i j hi hin hj hjn heq
    rcases eq_or_ne i (n + 1) with rfl | hi'
    · rcases eq_or_ne j (n + 1) with rfl | hj'
      · rfl
      · exact absurd heq.symm (hne j hj (by omega))
    · rcases eq_or_ne j (n + 1) with rfl | hj'
      · exact absurd heq (hne i hi (by omega))
      · exact hold.inj i j hi (by omega) hj (by omega) heq
  · intro k'
    rw [among_last hdense, hnew, Finset.mem_insert, hold.mem, eq_comm]

/-- An entry is removed, and the last one takes its place. -/
theorem Lists.remove (h : Lists key lo n s) (hlo : lo ≤ i) (hin : i ≤ n) (hi : key' i = key n)
    (hother : ∀ j, j ≠ i → key' j = key j) : Lists key' lo (n - 1) (s.erase (key i)) := by
  -- the place an entry had before
  have hplace : ∀ j, lo ≤ j → j ≤ n - 1 → ∃ j', lo ≤ j' ∧ j' ≤ n ∧ j' ≠ i ∧ key' j = key j' ∧
      (j = i ∧ j' = n ∨ j ≠ i ∧ j' = j) := by
    intro j hj hjn
    rcases eq_or_ne j i with rfl | hne
    · exact ⟨n, by omega, le_rfl, by omega, hi, .inl ⟨rfl, rfl⟩⟩
    · exact ⟨j, hj, by omega, hne, hother j hne, .inr ⟨hne, rfl⟩⟩
  refine ⟨by omega, ?_, ?_⟩
  · intro a b ha han hb hbn heq
    obtain ⟨a', ha', han', -, hka, hcase⟩ := hplace a ha han
    obtain ⟨b', hb', hbn', -, hkb, hcase'⟩ := hplace b hb hbn
    have := h.inj a' b' ha' han' hb' hbn' (by rw [← hka, ← hkb, heq])
    omega
  · intro k
    rw [Finset.mem_erase, h.mem]
    constructor
    · rintro ⟨hne, j, hj, hjn, rfl⟩
      have hji : j ≠ i := fun heq => hne (heq ▸ rfl)
      rcases eq_or_ne j n with rfl | hjn'
      · exact ⟨i, hlo, by omega, hi⟩
      · exact ⟨j, hj, by omega, hother j hji⟩
    · rintro ⟨j, hj, hjn, rfl⟩
      obtain ⟨j', hj', hjn', hne, hk, -⟩ := hplace j hj hjn
      rw [hk]
      exact ⟨fun heq => hne (h.inj j' i hj' hjn' hlo hin heq), j', hj', hjn', rfl⟩

/-! ## What a scan has visited -/

/-- Of the keys that were there at first, those among the places from `i` to `n` are still to be
visited, and the others have been visited once. -/
def Scan (key : ℤ → κ) (i n : ℤ) (first : Finset κ) (visited : List κ) : Prop :=
  ∀ k ∈ first, Among key i n k ∧ visited.count k = 0 ∨ ¬ Among key i n k ∧ visited.count k = 1

variable {visited : List κ} {first : Finset κ}

/-- Before the first visit all are still to come. -/
theorem scan_nil (h : ∀ k ∈ first, Among key i n k) : Scan key i n first [] := fun k hk =>
  .inl ⟨h k hk, List.count_nil⟩

/-- The places may change as long as what is still to come does not. -/
theorem Scan.congr {m i' : ℤ} (h : Scan key i n first visited)
    (hother : ∀ k ∈ first, Among key' i' m k ↔ Among key i n k) : Scan key' i' m first visited := by
  intro k hk
  rw [hother k hk]
  exact h k hk

/-- A place is visited. -/
theorem Scan.next (h : Scan key i n first visited) (hin : i ≤ n)
    (hne : ∀ j, i < j → j ≤ n → key j ≠ key i) (hkey : ∀ j, i < j → j ≤ n → key' j = key j) :
    Scan key' (i + 1) n first (visited ++ [key i]) := by
  have hold : Scan key (i + 1) n first (visited ++ [key i]) := by
    intro k hk
    rw [List.count_append, List.count_singleton]
    rcases eq_or_ne (key i) k with rfl | hki
    · have hnot : ¬ Among key (i + 1) n (key i) := fun ⟨j, hij, hjn, heq⟩ =>
        hne j (by omega) hjn heq
      rcases h (key i) hk with ⟨-, hcount⟩ | ⟨hgone, -⟩
      · exact .inr ⟨hnot, by simp [hcount]⟩
      · exact absurd ⟨i, le_rfl, hin, rfl⟩ hgone
    · have hiff : Among key (i + 1) n k ↔ Among key i n k := by
        rw [among_succ hin]
        exact ⟨.inr, fun hk => hk.resolve_left hki⟩
      simpa [hiff, hki] using h k hk
  exact hold.congr fun k _ => Among.congr fun j hij hjn => hkey j (by omega) hjn

/-- A place is visited and its entry removed. -/
theorem Scan.remove (h : Scan key i n first visited) (hin : i ≤ n)
    (hne : ∀ j, i < j → j ≤ n → key j ≠ key i) (hi : key' i = key n)
    (hother : ∀ j, j ≠ i → key' j = key j) :
    Scan key' i (n - 1) first (visited ++ [key i]) := by
  have hnext := h.next hin hne fun _ _ _ => rfl
  exact hnext.congr fun k _ => among_moved hin hi hother

/-- An entry that was not there at first is appended. -/
theorem Scan.append (h : Scan key i n first visited) (hin : i ≤ n + 1) (hk : key' (n + 1) ∉ first)
    (hother : ∀ j, i ≤ j → j ≤ n → key' j = key j) : Scan key' i (n + 1) first visited := by
  refine h.congr ?_
  intro k' hk'
  rw [among_last hin, Among.congr hother]
  exact ⟨fun hor => hor.resolve_left fun heq => hk (heq ▸ hk'), .inr⟩

/-- At the end of the scan each of the keys that were there at first has been visited once. -/
theorem Scan.done (h : Scan key i n first visited) (hin : n < i) :
    ∀ k ∈ first, visited.count k = 1 := by
  intro k hk
  rcases h k hk with ⟨⟨j, hij, hjn, -⟩, -⟩ | ⟨-, hcount⟩
  · omega
  · exact hcount

end Lib
