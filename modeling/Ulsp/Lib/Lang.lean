import Mathlib.Computability.Language

/-!
# Grammars of letters and lists

The pieces a regular expression on a manual page is written with: one of given letters, a word over
an alphabet, one or more of a kind of word, and a list with separators. Words that keep away from the
separator can be read back from the list by cutting it at the separators.
-/

open scoped Computability

namespace Lib

variable {α : Type*} {cs t : List α} {L M : Language α} {a : α}

/-- One of the letters `cs`. -/
def oneOf (cs : List α) : Language α := {t | ∃ c ∈ cs, t = [c]}

/-- One or more words of `L`. -/
def plus (L : Language α) : Language α := L * L∗

/-- One or more words of `L`, with the letter `a` between them. -/
def sepBy (a : α) (L : Language α) : Language α := L * (({[a]} : Language α) * L)∗

/-- A word over the letters `cs`. -/
theorem mem_oneOf_kstar : t ∈ (oneOf cs)∗ ↔ ∀ c ∈ t, c ∈ cs := by
  rw [Language.mem_kstar]
  constructor
  · rintro ⟨ws, rfl, hws⟩ c hc
    obtain ⟨w, hw, hcw⟩ := List.mem_flatten.mp hc
    obtain ⟨d, hd, rfl⟩ := hws w hw
    rwa [List.mem_singleton.mp hcw]
  · intro h
    refine ⟨t.map fun c => [c], by rw [← List.flatMap_def, List.flatMap_singleton'], ?_⟩
    intro w hw
    obtain ⟨c, hc, rfl⟩ := List.mem_map.mp hw
    exact ⟨c, h c hc, rfl⟩

/-- A nonempty word over the letters `cs`. -/
theorem mem_plus_oneOf : t ∈ plus (oneOf cs) ↔ t ≠ [] ∧ ∀ c ∈ t, c ∈ cs := by
  rw [plus, Language.mem_mul]
  constructor
  · rintro ⟨-, ⟨c, hc, rfl⟩, w, hw, rfl⟩
    exact ⟨by simp, List.forall_mem_cons.mpr ⟨hc, mem_oneOf_kstar.mp hw⟩⟩
  · rintro ⟨hne, h⟩
    obtain ⟨c, w, rfl⟩ := List.exists_cons_of_ne_nil hne
    obtain ⟨hc, hw⟩ := List.forall_mem_cons.mp h
    exact ⟨[c], ⟨c, hc, rfl⟩, w, mem_oneOf_kstar.mpr hw, rfl⟩

/-- One or more words end in one of them. -/
theorem exists_last_of_mem_plus (h : t ∈ plus L) : ∃ s, ∃ w ∈ L, s ++ w = t := by
  obtain ⟨w, hw, -, ⟨ws, rfl, hws⟩, rfl⟩ := Language.mem_mul.mp h
  rcases List.eq_nil_or_concat ws with rfl | ⟨ws, v, rfl⟩
  · exact ⟨[], w, hw, by simp⟩
  · exact ⟨w ++ ws.flatten, v, hws v (by simp), by simp⟩

/-! ## Letters that do not occur -/

/-- No word of `L` has the letter `a`. -/
def Avoids (a : α) (L : Language α) : Prop := ∀ t ∈ L, a ∉ t

theorem avoids_oneOf (h : a ∉ cs) : Avoids a (oneOf cs) := by
  rintro - ⟨c, hc, rfl⟩ hmem
  exact h (List.mem_singleton.mp hmem ▸ hc)

theorem Avoids.add (hL : Avoids a L) (hM : Avoids a M) : Avoids a (L + M) := by
  rintro t (ht | ht)
  · exact hL t ht
  · exact hM t ht

theorem Avoids.mul (hL : Avoids a L) (hM : Avoids a M) : Avoids a (L * M) := by
  intro t ht
  obtain ⟨v, hv, w, hw, rfl⟩ := Language.mem_mul.mp ht
  simp [hL v hv, hM w hw]

theorem Avoids.kstar (hL : Avoids a L) : Avoids a L∗ := by
  rintro - ⟨ws, rfl, hws⟩ hmem
  obtain ⟨w, hw, haw⟩ := List.mem_flatten.mp hmem
  exact hL w (hws w hw) haw

theorem Avoids.plus (hL : Avoids a L) : Avoids a (plus L) := hL.mul hL.kstar

/-- The letters of the pieces of a word are its letters. -/
theorem mem_of_mem_splitOn [BEq α] [LawfulBEq α] {w : List α} {c : α} (hw : w ∈ t.splitOn a)
    (hc : c ∈ w) : c ∈ t := by
  have hpieces : c ∈ (t.splitOn a).flatten := List.mem_flatten.mpr ⟨w, hw, hc⟩
  clear hw hc
  induction t with
  | nil => simp at hpieces
  | cons b t ih =>
    rw [List.splitOn_cons_eq_if_modifyHead] at hpieces
    split at hpieces
    · exact List.mem_cons_of_mem _ (ih (by simpa using hpieces))
    · obtain ⟨v, vs, hvs⟩ := List.exists_cons_of_ne_nil (List.splitOn_ne_nil a t)
      rw [hvs] at hpieces ih
      have hsome : c = b ∨ c ∈ (v :: vs).flatten := by simpa using hpieces
      rcases hsome with rfl | hmem
      · exact List.mem_cons_self
      · exact List.mem_cons_of_mem _ (ih hmem)

/-- The words of a list are its pieces between the separators. -/
theorem mem_of_mem_sepBy [BEq α] [LawfulBEq α] (hL : Avoids a L) (h : t ∈ sepBy a L) :
    ∀ w ∈ t.splitOn a, w ∈ L := by
  obtain ⟨v, hv, r, hr, rfl⟩ := Language.mem_mul.mp h
  obtain ⟨ws, rfl, hws⟩ := Language.mem_kstar.mp hr
  clear h hr
  induction ws generalizing v with
  | nil =>
    intro w hw
    rw [List.flatten_nil, List.append_nil, List.splitOn_eq_singleton (hL v hv)] at hw
    rwa [List.mem_singleton.mp hw]
  | cons w' ws ih =>
    obtain ⟨hw', htail⟩ := List.forall_mem_cons.mp hws
    obtain ⟨-, rfl, u, hu, rfl⟩ := Language.mem_mul.mp hw'
    intro w hw
    rw [List.flatten_cons, List.append_assoc, List.singleton_append,
      List.splitOn_append_cons_self_of_not_mem (hL v hv)] at hw
    rcases List.mem_cons.mp hw with rfl | hw
    · exact hv
    · exact ih u hu htail w hw

end Lib
