import Mathlib.Data.Nat.Count
import Mathlib.Data.Nat.ModEq

/-!
# Turns dealt by a search from a start that rotates

The positions are a circle of `n`, some of them live. `Search` says that `first p` is the first live
position from `p` on. The turns begin their searches at `start`, `start + 1` and so on, whatever the
searches before found, so that a live position gets the turns of all dead ones before it.
`balanced_iff` is what this means for the numbers of turns: they never differ by more than one exactly
if all positions are live, or only one is, or there are four of which every other one is live and the
turns begin at a live one.
-/

namespace Lib

/-- `first` finds the first live position, on a circle of `n`. -/
structure Search (n : ℕ) (live : ℕ → Prop) (first : ℕ → ℕ) : Prop where
  pos : 0 < n
  periodic : ∀ p, live (p + n) ↔ live p
  exists_live : ∃ p, live p
  here : ∀ p, live p → first p = p % n
  next : ∀ p, ¬ live p → first p = first (p + 1)

/-- How many of the first `k` turns the position `a` gets. -/
def turns (first : ℕ → ℕ) (start a k : ℕ) : ℕ := Nat.count (fun i => first (start + i) = a) k

/-- No two live positions get numbers of turns that differ by more than one, at any time. -/
def Balanced (n : ℕ) (live : ℕ → Prop) (first : ℕ → ℕ) (start : ℕ) : Prop :=
  ∀ a b k, a < n → b < n → live a → live b → turns first start a k ≤ turns first start b k + 1

variable {n : ℕ} {live : ℕ → Prop} {first : ℕ → ℕ} {start a b p q k : ℕ}

theorem turns_succ : turns first start a (k + 1) =
    turns first start a k + if first (start + k) = a then 1 else 0 := Nat.count_succ ..

/-! ## Positions on the circle -/

/-- Of `n` positions one after the other, one is at `a`. -/
theorem exists_mod_eq (ha : a < n) (s : ℕ) : ∃ i < n, (s + i) % n = a := by
  refine ⟨(a + (n - s % n)) % n, Nat.mod_lt _ (by omega), ?_⟩
  have hs : s % n ≤ n := (Nat.mod_lt s (by omega)).le
  rw [Nat.add_mod_mod, ← Nat.mod_add_mod, show s % n + (a + (n - s % n)) = a + n by omega,
    Nat.add_mod_right, Nat.mod_eq_of_lt ha]

/-- Two positions less than `n` apart are not the same. -/
theorem mod_ne (hpq : p < q) (hn : q < p + n) : p % n ≠ q % n := by
  intro h
  have hdvd := (Nat.modEq_iff_dvd' hpq.le).mp h
  exact absurd (Nat.le_of_dvd (by omega) hdvd) (by omega)

/-- Of `n` positions one after the other, only one is at `a`. -/
theorem count_mod_le_one (s : ℕ) : Nat.count (fun i => (s + i) % n = a) n ≤ 1 := by
  rw [Nat.count_eq_card_filter_range, Finset.card_le_one]
  intro i hi j hj
  rw [Finset.mem_filter, Finset.mem_range] at hi hj
  have heq := hi.2.trans hj.2.symm
  rcases Nat.lt_trichotomy i j with hlt | heq' | hgt
  · exact absurd heq (mod_ne (by omega) (by omega))
  · exact heq'
  · exact absurd heq.symm (mod_ne (by omega) (by omega))

/-- Of two live positions, one is not the one at `p`. -/
theorem exists_ne (ha : a < n ∧ live a) (hb' : b < n ∧ live b) (hab : a ≠ b) (p : ℕ) :
    ∃ c < n, live c ∧ p % n ≠ c := by
  by_cases hpa : p % n = a
  · exact ⟨b, hb'.1, hb'.2, hpa ▸ hab⟩
  · exact ⟨a, ha.1, ha.2, hpa⟩

namespace Search

variable (h : Search n live first)

include h

theorem live_add_mul (p m : ℕ) : live (p + n * m) ↔ live p := by
  induction m with
  | zero => rfl
  | succ m ih => rw [Nat.mul_succ, ← Nat.add_assoc, h.periodic, ih]

theorem live_mod (p : ℕ) : live (p % n) ↔ live p := by
  rw [← h.live_add_mul (p % n) (p / n), Nat.mod_add_div]

theorem live_congr (hpq : p % n = q % n) : live p ↔ live q := by
  rw [← h.live_mod p, hpq, h.live_mod]

/-- From every position on there is a live one. -/
theorem exists_live_from (p : ℕ) : ∃ d, live (p + d) := by
  obtain ⟨q, hq⟩ := h.exists_live
  have hle : p ≤ n * p := Nat.le_mul_of_pos_left p h.pos
  exact ⟨q + n * p - p, by rwa [show p + (q + n * p - p) = q + n * p by omega, h.live_add_mul]⟩

/-- What is so for the live positions, and for a position if for the next one, is so for all. -/
theorem induction {P : ℕ → Prop} (hlive : ∀ p, live p → P p)
    (hdead : ∀ p, ¬ live p → P (p + 1) → P p) (p : ℕ) : P p := by
  obtain ⟨d, hd⟩ := h.exists_live_from p
  induction d generalizing p with
  | zero => exact hlive p hd
  | succ d ih =>
    by_cases hp : live p
    · exact hlive p hp
    · exact hdead p hp (ih (p + 1) (by rwa [Nat.add_right_comm]))

/-- A position whose predecessor is live is found from itself only. -/
theorem mod_eq_of_first (hq : live q) (hp : first p = (q + 1) % n) : p % n = (q + 1) % n := by
  induction p using h.induction with
  | hlive p hlive => rw [← h.here p hlive, hp]
  | hdead p hdead ih =>
    have hmod := ih ((h.next p hdead).symm.trans hp)
    have hpq : p ≡ q [MOD n] := Nat.ModEq.add_right_cancel' 1 hmod
    exact absurd ((h.live_congr hpq).mpr hq) hdead

/-- The last one of the dead positions from `p` on. -/
theorem exists_edge (hdead : ¬ live p) : ∃ d, (∀ i ≤ d, ¬ live (p + i)) ∧ live (p + d + 1) := by
  induction p using h.induction with
  | hlive p hp => exact absurd hp hdead
  | hdead p _ ih =>
    by_cases hnext : live (p + 1)
    · exact ⟨0, fun i hi => by rwa [Nat.le_zero.mp hi], hnext⟩
    · obtain ⟨d, hall, hlive⟩ := ih hnext
      refine ⟨d + 1, ?_, by rwa [← Nat.add_assoc, Nat.add_right_comm p d 1]⟩
      intro i hi
      rcases i with _ | i
      · exact hdead
      · rw [Nat.add_comm i 1, ← Nat.add_assoc]
        exact hall i (by omega)

/-! ## Dead positions -/

/-- Two live positions and a dead one. -/
theorem three_le (ha : a < n ∧ live a) (hb : b < n ∧ live b) (hab : a ≠ b) (hp : ¬ live p) : 3 ≤ n := by
  have hpn : p % n < n := Nat.mod_lt _ h.pos
  have hpa : p % n ≠ a := fun heq => hp ((h.live_mod p).mp (heq ▸ ha.2))
  have hpb : p % n ≠ b := fun heq => hp ((h.live_mod p).mp (heq ▸ hb.2))
  omega

/-- The turns at a dead position and the live one behind it. -/
theorem turns_edge (hdead : ¬ live (start + k)) (hlive : live (start + k + 1)) (b : ℕ) :
    turns first start b (k + 2) =
      turns first start b k + if (start + k + 1) % n = b then 2 else 0 := by
  have hfirst : first (start + k) = (start + k + 1) % n :=
    (h.next _ hdead).trans (h.here _ hlive)
  rw [turns_succ, turns_succ, ← Nat.add_assoc, h.here _ hlive, hfirst]
  split <;> rfl

variable (hb : Balanced n live first start)

include hb

/-- Before the two turns of a live position with a dead one before it, it is behind all others. -/
theorem behind (hdead : ¬ live (start + k)) (hlive : live (start + k + 1)) (hbn : b < n)
    (hblive : live b) (hne : (start + k + 1) % n ≠ b) :
    turns first start b k = turns first start ((start + k + 1) % n) k + 1 := by
  have hbefore := hb b _ k hbn (Nat.mod_lt _ h.pos) hblive ((h.live_mod _).mpr hlive)
  have hafter := hb _ b (k + 2) (Nat.mod_lt _ h.pos) hbn ((h.live_mod _).mpr hlive) hblive
  rw [h.turns_edge hdead hlive, h.turns_edge hdead hlive, if_pos rfl, if_neg hne] at hafter
  omega

/-- No live position has two dead ones before it, if there is another one. -/
theorem not_two_dead (ha : a < n ∧ live a) (hb' : b < n ∧ live b) (hab : a ≠ b)
    (hdead : ¬ live (start + k)) : live (start + k + 1) := by
  by_contra hnext
  -- it would get three turns one after the other
  obtain ⟨d, hall, hlive⟩ := h.exists_edge hnext
  have hfirst : ¬ live (start + (k + d)) := by
    rcases d with _ | d
    · exact hdead
    · have hat := hall d (by omega)
      rwa [show start + k + 1 + d = start + (k + (d + 1)) by omega] at hat
  have hsecond : ¬ live (start + (k + d + 1)) := by
    have hat := hall d le_rfl
    rwa [show start + k + 1 + d = start + (k + d + 1) by omega] at hat
  have hthird : live (start + (k + d + 1) + 1) := by
    rwa [show start + (k + d + 1) + 1 = start + k + 1 + d + 1 by omega]
  obtain ⟨c, hc, hclive, hne⟩ := exists_ne ha hb' hab (start + (k + d + 1) + 1)
  have hturn : first (start + (k + d)) = (start + (k + d + 1) + 1) % n := by
    rw [h.next _ hfirst, Nat.add_assoc, h.next _ hsecond, h.here _ hthird]
  have hbehind := h.behind hb hsecond hthird hc hclive hne
  rw [turns_succ, turns_succ, hturn, if_neg hne, if_pos rfl] at hbehind
  have hle := hb c _ (k + d) hc (Nat.mod_lt _ h.pos) hclive ((h.live_mod _).mpr hthird)
  omega

/-- No two live positions are side by side, if one is dead. -/
theorem not_two_live (ha : a < n ∧ live a) (hb' : b < n ∧ live b) (hab : a ≠ b) (hp : ¬ live p)
    (hlive : live (start + k)) : ¬ live (start + k + 1) := by
  intro hnext
  -- a live position with a dead one before it
  obtain ⟨j, hdead, hedge⟩ : ∃ j, ¬ live (start + j) ∧ live (start + j + 1) := by
    have hle : start ≤ n * start := Nat.le_mul_of_pos_left start h.pos
    have hat : ¬ live (start + (p + n * start - start)) := by
      rwa [show start + (p + n * start - start) = p + n * start by omega, h.live_add_mul]
    obtain ⟨d, hall, hlive⟩ := h.exists_edge hat
    exact ⟨p + n * start - start + d, by rw [← Nat.add_assoc]; exact hall d le_rfl,
      by rwa [← Nat.add_assoc]⟩
  have hn := h.three_le ha hb' hab hp
  have hyn : (start + k + 1) % n < n := Nat.mod_lt _ h.pos
  have hylive : live ((start + k + 1) % n) := (h.live_mod _).mpr hnext
  have hne : (start + j + 1) % n ≠ (start + k + 1) % n := by
    intro heq
    have hmod : start + j ≡ start + k [MOD n] := Nat.ModEq.add_right_cancel' 1 heq
    exact hdead ((h.live_congr hmod).mpr hlive)
  -- in a whole turn of the circle it gets two turns or more, the other one
  have hcycle : (start + (j + n) + 1) % n = (start + j + 1) % n := by
    rw [show start + (j + n) + 1 = start + j + 1 + n by omega, Nat.add_mod_right]
  have hbefore := h.behind hb hdead hedge hyn hylive hne
  have hafter := h.behind hb (k := j + n) (by rwa [← Nat.add_assoc, h.periodic])
    (by rwa [show start + (j + n) + 1 = start + j + 1 + n by omega, h.periodic]) hyn hylive
    (hcycle ▸ hne)
  rw [hcycle] at hafter
  have htwo : turns first start ((start + j + 1) % n) j + 2 ≤
      turns first start ((start + j + 1) % n) (j + n) := by
    have hedge := h.turns_edge hdead hedge ((start + j + 1) % n)
    rw [if_pos rfl] at hedge
    rw [← hedge]
    exact Nat.count_monotone _ (by omega)
  have hone : turns first start ((start + k + 1) % n) (j + n) ≤
      turns first start ((start + k + 1) % n) j + 1 := by
    have hwindow : Nat.count (fun i => first (start + (j + i)) = (start + k + 1) % n) n ≤
        Nat.count (fun i => (start + j + i) % n = (start + k + 1) % n) n := by
      refine Nat.count_mono_left fun i _ hi => ?_
      rw [Nat.add_assoc]
      exact h.mod_eq_of_first hlive hi
    rw [turns, Nat.count_add, ← turns]
    exact Nat.add_le_add_left (hwindow.trans (count_mod_le_one (start + j))) _
  omega

/-- A circle with dead positions has four, every other one live, and the turns begin at a live one. -/
theorem four (ha : a < n ∧ live a) (hb' : b < n ∧ live b) (hab : a ≠ b) (hp : ¬ live p) :
    n = 4 ∧ ∀ i, live (start + i) ↔ i % 2 = 0 := by
  have hn := h.three_le ha hb' hab hp
  have hother (k : ℕ) : live (start + (k + 1)) ↔ ¬ live (start + k) :=
    ⟨fun hnext hlive => h.not_two_live hb ha hb' hab hp hlive hnext,
      h.not_two_dead hb ha hb' hab⟩
  -- the first turn goes to the position at `start`
  have hstart : live start := by
    by_contra hdead
    have hlive := (hother 0).mpr hdead
    obtain ⟨c, hc, hclive, hne⟩ := exists_ne ha hb' hab (start + 0 + 1)
    exact absurd (h.behind hb (k := 0) hdead hlive hc hclive hne) (by simp [turns])
  have heven (i : ℕ) : live (start + i) ↔ i % 2 = 0 := by
    induction i with
    | zero => simpa using hstart
    | succ i ih =>
      rw [hother, ih]
      omega
  refine ⟨?_, heven⟩
  -- a third live position would be one turn behind the second, which is one behind the first
  have hlive₁ := (heven 2).mpr rfl
  have hlive₂ := (heven 4).mpr rfl
  have hdead₁ := (hother 1).mp hlive₁
  have hdead₂ := (hother 3).mp hlive₂
  have hlive₃ := (heven 6).mpr rfl
  have h₁₂ : (start + 2) % n ≠ (start + 4) % n := mod_ne (by omega) (by omega)
  have h₂₃ : (start + 4) % n ≠ (start + 6) % n := mod_ne (by omega) (by omega)
  have h₁₃ : (start + 2) % n = (start + 6) % n := by
    by_contra h₁₃
    have hlt (i : ℕ) : (start + i) % n < n := Nat.mod_lt _ h.pos
    have hfirst := h.behind hb hdead₁ hlive₁ (hlt 6) ((h.live_mod _).mpr hlive₃) h₁₃
    have hthird := h.behind hb hdead₂ hlive₂ (hlt 6) ((h.live_mod _).mpr hlive₃) h₂₃
    have hsecond := h.behind hb hdead₁ hlive₁ (hlt 4) ((h.live_mod _).mpr hlive₂) h₁₂
    have hturns₂ := h.turns_edge hdead₁ hlive₁ ((start + 4) % n)
    have hturns₃ := h.turns_edge hdead₁ hlive₁ ((start + 6) % n)
    rw [if_neg h₁₂] at hturns₂
    rw [if_neg h₁₃] at hturns₃
    simp only [Nat.reduceAdd, Nat.add_assoc] at *
    omega
  have hdvd : n ∣ 4 := by
    have hmod := (Nat.modEq_iff_dvd' (by omega : start + 2 ≤ start + 6)).mp h₁₃
    rwa [show start + 6 - (start + 2) = 4 by omega] at hmod
  have hle := Nat.le_of_dvd (by omega) hdvd
  have hne : n ≠ 3 := fun he => by rw [he] at hdvd; exact absurd hdvd (by decide)
  omega

omit hb

/-! ## Balanced turns -/

/-- If all positions are live, the turns go round the circle. -/
theorem balanced_of_all (hall : ∀ p, live p) : Balanced n live first start := by
  -- in each turn of the circle a position gets one
  have hround (a : ℕ) (ha : a < n) (k : ℕ) :
      turns first start a (k + n) = turns first start a k + 1 := by
    rw [turns, Nat.count_add, ← turns]
    simp only [← Nat.add_assoc, h.here _ (hall _)]
    have hle := count_mod_le_one (n := n) (a := a) (start + k)
    obtain ⟨i, hi, hia⟩ := exists_mod_eq ha (start + k)
    have hne := Nat.count_ne_iff_exists (p := fun i => (start + k + i) % n = a) |>.mpr ⟨i, hi, hia⟩
    omega
  have hfirst (a : ℕ) (k : ℕ) (hk : k < n) : turns first start a k ≤ 1 := by
    have hle := count_mod_le_one (n := n) (a := a) start
    simp only [turns, h.here _ (hall _)]
    exact (Nat.count_monotone _ hk.le).trans hle
  intro a b k ha hb _ _
  induction k using Nat.strongRecOn with
  | ind k ih =>
    rcases Nat.lt_or_ge k n with hlt | hge
    · exact (hfirst a k hlt).trans (Nat.le_add_left 1 _)
    · obtain ⟨m, rfl⟩ := Nat.exists_eq_add_of_le' hge
      rw [hround a ha, hround b hb]
      exact Nat.add_le_add_right (ih m (by have := h.pos; omega)) 1

omit h in
/-- A single live position gets all the turns. -/
theorem balanced_of_one (hone : ∀ a b, a < n → b < n → live a → live b → a = b) :
    Balanced n live first start := by
  intro a b k ha hb halive hblive
  rw [hone a b ha hb halive hblive]
  exact Nat.le_succ _

/-- Two opposite live positions of four, with the first turn at one. -/
theorem balanced_of_four (hn : n = 4) (heven : ∀ i, live (start + i) ↔ i % 2 = 0) :
    Balanced n live first start := by
  subst hn
  have hturn (i : ℕ) : first (start + i) = (start + (i + i % 2)) % 4 := by
    rcases Nat.mod_two_eq_zero_or_one i with hi | hi
    · rw [h.here _ ((heven i).mpr hi), hi, Nat.add_zero]
    · rw [h.next _ (fun hlive => by have := (heven i).mp hlive; omega), Nat.add_assoc,
        h.here _ ((heven (i + 1)).mpr (by omega)), hi]
  have hcounts (k : ℕ) : turns first start (start % 4) k = (k + 3) / 4 + k / 4 ∧
      turns first start ((start + 2) % 4) k = (k + 2) / 4 + (k + 1) / 4 := by
    induction k with
    | zero => exact ⟨rfl, rfl⟩
    | succ k ih =>
      rw [turns_succ, turns_succ, ih.1, ih.2, hturn]
      constructor
      · split <;> omega
      · split <;> omega
  have hwhich (a : ℕ) (ha : a < 4) (halive : live a) : a = start % 4 ∨ a = (start + 2) % 4 := by
    have hat := (heven (a + 4 * start - start)).mp
      (by rwa [show start + (a + 4 * start - start) = a + 4 * start by omega, h.live_add_mul])
    have hparity : a % 2 = start % 2 := by omega
    have hmod : (start + 2) % 4 = if start % 4 < 2 then start % 4 + 2 else start % 4 - 2 := by
      split <;> omega
    rw [hmod]
    split <;> omega
  intro a b k ha hb halive hblive
  obtain ⟨hzero, htwo⟩ := hcounts k
  rcases hwhich a ha halive with rfl | rfl <;> rcases hwhich b hb hblive with rfl | rfl <;> omega

/-- When the numbers of turns are balanced. -/
theorem balanced_iff : Balanced n live first start ↔
    (∀ p, live p) ∨ (∀ a b, a < n → b < n → live a → live b → a = b) ∨
      n = 4 ∧ ∀ i, live (start + i) ↔ i % 2 = 0 := by
  refine ⟨?_, ?_⟩
  · intro hb
    by_contra hnot
    push Not at hnot
    obtain ⟨⟨p, hp⟩, ⟨a, b, ha, hbn, halive, hblive, hab⟩, hfour⟩ := hnot
    obtain ⟨hn, heven⟩ := h.four hb ⟨ha, halive⟩ ⟨hbn, hblive⟩ hab hp
    obtain ⟨i, hi⟩ := hfour hn
    have := heven i
    tauto
  · rintro (hall | hone | ⟨hn, heven⟩)
    · exact h.balanced_of_all hall
    · exact balanced_of_one hone
    · exact h.balanced_of_four hn heven

end Search

end Lib
