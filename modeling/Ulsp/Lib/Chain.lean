import Mathlib.Data.List.Nodup
import Mathlib.Data.List.Basic
import Mathlib.Logic.Function.Basic

/-!
# Linked chains

The shape of linked lists in a store, over any type of nodes. `Seg next p xs q` says that following
`next` from `p` passes through `xs` and reaches `q`; a `Chain` is a segment that ends at null, so it
has no repetition (`Seg.nodup`) and is determined by where it starts (`Seg.unique`). `Back prev q xs`
says that each node's back link names its predecessor, the first one's `q`. A doubly linked list is
both (`DChain`). The lemmas say what inserting a node at the front or behind a node, and unlinking
a node, do to the list; they ask only how the new links differ from the old ones.
-/

namespace Lib

variable {α : Type*}

/-- Following `next` from `p` passes through `xs` and reaches `q`. -/
def Seg (next : α → Option α) : Option α → List α → Option α → Prop
  | p, [], q => p = q
  | p, x :: xs, q => p = some x ∧ Seg next (next x) xs q

/-- Following `next` from `p` passes through `xs` and ends. -/
abbrev Chain (next : α → Option α) (p : Option α) (xs : List α) : Prop := Seg next p xs none

/-- The back links along `xs` name the predecessors, the first one's being `q`. -/
def Back (prev : α → Option α) : Option α → List α → Prop
  | _, [] => True
  | q, x :: xs => prev x = q ∧ Back prev (some x) xs

variable {next next' prev prev' : α → Option α} {p q : Option α} {xs ys as bs : List α} {x t c : α}

@[simp] theorem seg_nil : Seg next p [] q ↔ p = q := Iff.rfl

@[simp] theorem seg_cons : Seg next p (x :: xs) q ↔ p = some x ∧ Seg next (next x) xs q := Iff.rfl

@[simp] theorem back_nil : Back prev q [] := trivial

@[simp] theorem back_cons : Back prev q (x :: xs) ↔ prev x = q ∧ Back prev (some x) xs := Iff.rfl

/-- A segment through an append is two segments that meet. -/
theorem seg_append : Seg next p (as ++ bs) q ↔ ∃ r, Seg next p as r ∧ Seg next r bs q := by
  induction as generalizing p with
  | nil => simp
  | cons x as ih => simp [ih, and_assoc]

/-- Back links along an append. -/
theorem back_append :
    Back prev q (as ++ bs) ↔ Back prev q as ∧ Back prev (as.getLast?.or q) bs := by
  induction as generalizing q with
  | nil => simp
  | cons x as ih =>
    have hlast : (x :: as).getLast?.or q = as.getLast?.or (some x) := by
      cases as with
      | nil => rfl
      | cons y ys => simp [List.getLast?_cons]
    simp [ih, hlast, and_assoc]

/-- A segment depends on the links of its nodes only. -/
theorem Seg.congr (h : Seg next p xs q) (heq : ∀ x ∈ xs, next' x = next x) : Seg next' p xs q := by
  induction xs generalizing p with
  | nil => exact h
  | cons x xs ih =>
    refine ⟨h.1, ?_⟩
    rw [heq x List.mem_cons_self]
    exact ih h.2 fun y hy => heq y (List.mem_cons_of_mem _ hy)

/-- Back links depend on the nodes' own only. -/
theorem Back.congr (h : Back prev q xs) (heq : ∀ x ∈ xs, prev' x = prev x) : Back prev' q xs := by
  induction xs generalizing q with
  | nil => trivial
  | cons x xs ih =>
    exact ⟨(heq x List.mem_cons_self).trans h.1, ih h.2 fun y hy => heq y (List.mem_cons_of_mem _ hy)⟩

/-- A chain starts at its first node. -/
theorem Seg.head? (h : Chain next p xs) : xs.head? = p := by
  cases xs with
  | nil => exact h.symm
  | cons x xs => exact h.1.symm

/-- The last node of a chain links to nothing. -/
theorem Seg.next_last (h : Chain next p (as ++ [t])) : next t = none := by
  obtain ⟨r, -, hr⟩ := seg_append.mp h
  exact hr.2

/-- A node of a chain links to its successor. -/
theorem Seg.next_mid (h : Chain next p (as ++ t :: bs)) : next t = bs.head? := by
  obtain ⟨r, -, hr⟩ := seg_append.mp h
  exact (Seg.head? hr.2).symm

/-- Where a chain starts determines it. -/
theorem Seg.unique (hx : Chain next p xs) (hy : Chain next p ys) : xs = ys := by
  induction xs generalizing p ys with
  | nil =>
    cases ys with
    | nil => rfl
    | cons y ys => exact absurd (hx.symm.trans hy.1) (by simp)
  | cons x xs ih =>
    cases ys with
    | nil => exact absurd (hy.symm.trans hx.1) (by simp)
    | cons y ys =>
      obtain rfl : x = y := Option.some.inj (hx.1.symm.trans hy.1)
      rw [ih hx.2 hy.2]

/-- A chain passes through no node twice. -/
theorem Seg.nodup (h : Chain next p xs) : xs.Nodup := by
  induction xs generalizing p with
  | nil => exact List.nodup_nil
  | cons x xs ih =>
    refine List.nodup_cons.mpr ⟨?_, ih h.2⟩
    intro hmem
    obtain ⟨as, bs, rfl⟩ := List.append_of_mem hmem
    obtain ⟨r, -, hr⟩ := seg_append.mp h.2
    have heq := Seg.unique h.2 hr.2
    have := congrArg List.length heq
    simp at this
    omega

/-- Doubly linked: forward links through `xs` to the end, and back links to match. -/
structure DChain (next prev : α → Option α) (p : Option α) (xs : List α) : Prop where
  fwd : Chain next p xs
  bwd : Back prev none xs

theorem DChain.nil : DChain next prev none [] := ⟨rfl, trivial⟩

/-- A doubly linked list depends on the links of its nodes only. -/
theorem DChain.congr (h : DChain next prev p xs) (hn : ∀ x ∈ xs, next' x = next x)
    (hp : ∀ x ∈ xs, prev' x = prev x) : DChain next' prev' p xs :=
  ⟨h.fwd.congr hn, h.bwd.congr hp⟩

/-- A node of a doubly linked list links back to its predecessor. -/
theorem DChain.prev_mid (h : DChain next prev p (as ++ t :: bs)) : prev t = as.getLast? := by
  have hb := (back_append.mp h.bwd).2.1
  simpa using hb

/-- The first node of a doubly linked list links back to nothing. -/
theorem DChain.prev_first (h : DChain next prev p xs) (ht : xs.head? = some t) : prev t = none := by
  obtain ⟨ys, rfl⟩ := List.head?_eq_some_iff.mp ht
  exact h.bwd.1

/-- Only the first node of a doubly linked list links back to nothing. -/
theorem DChain.first_of_prev (h : DChain next prev p xs) (ht : t ∈ xs) (hprev : prev t = none) :
    xs.head? = some t := by
  obtain ⟨as, bs, rfl⟩ := List.append_of_mem ht
  obtain rfl : as = [] := List.getLast?_eq_none_iff.mp (h.prev_mid.symm.trans hprev)
  rfl

/-- The links of a doubly linked list are determined by its nodes. -/
theorem DChain.links_eq (h : DChain next prev p xs) (h' : DChain next' prev' q xs) (hx : x ∈ xs) :
    next' x = next x ∧ prev' x = prev x := by
  obtain ⟨as, bs, rfl⟩ := List.append_of_mem hx
  exact ⟨h'.fwd.next_mid.trans h.fwd.next_mid.symm, h'.prev_mid.trans h.prev_mid.symm⟩

/-- The links of neighbours in a doubly linked list mirror each other. -/
theorem DChain.mirror (h : DChain next prev p xs) (ht : t ∈ xs) (hc : c ∈ xs) :
    next t = some c ↔ prev c = some t := by
  constructor
  · intro hnext
    obtain ⟨as, bs, rfl⟩ := List.append_of_mem ht
    rw [h.fwd.next_mid] at hnext
    obtain ⟨ys, rfl⟩ := List.head?_eq_some_iff.mp hnext
    rw [List.append_cons] at h
    simpa using h.prev_mid
  · intro hprev
    obtain ⟨as, bs, rfl⟩ := List.append_of_mem hc
    rw [h.prev_mid] at hprev
    obtain ⟨ys, rfl⟩ := List.getLast?_eq_some_iff.mp hprev
    rw [List.append_assoc] at h
    exact h.fwd.next_mid

/-- Linking a new node in front. -/
theorem DChain.push (h : DChain next prev p xs) (hnt : next' t = p) (hpt : prev' t = none)
    (hn : ∀ x ∈ xs, next' x = next x) (hfirst : ∀ x, p = some x → prev' x = some t)
    (hrest : ∀ x ∈ xs, p ≠ some x → prev' x = prev x) : DChain next' prev' (some t) (t :: xs) := by
  refine ⟨⟨rfl, hnt ▸ h.fwd.congr hn⟩, hpt, ?_⟩
  cases xs with
  | nil => trivial
  | cons x xs =>
    have hnd := List.nodup_cons.mp h.fwd.nodup
    refine ⟨hfirst x h.fwd.1, h.bwd.2.congr fun y hy => hrest y (List.mem_cons_of_mem _ hy) ?_⟩
    rw [h.fwd.1]
    rintro ⟨⟩
    exact hnd.1 hy

/-- Linking a new node behind the node `c`. -/
theorem DChain.insert (h : DChain next prev p (as ++ c :: bs)) (hnc : next' c = some t)
    (hnt : next' t = next c) (hpt : prev' t = some c)
    (hn : ∀ x ∈ as ++ c :: bs, x ≠ c → next' x = next x)
    (hfirst : ∀ x, next c = some x → prev' x = some t)
    (hrest : ∀ x ∈ as ++ c :: bs, next c ≠ some x → prev' x = prev x) :
    DChain next' prev' p (as ++ c :: t :: bs) := by
  have hnd := List.nodup_append'.mp h.fwd.nodup
  have hndc := List.nodup_cons.mp hnd.2.1
  have hhead := h.fwd.next_mid
  obtain ⟨r, ha, hr, hb⟩ := seg_append.mp h.fwd
  have hbw := back_append.mp h.bwd
  have hnotHead : ∀ x, x ∈ as ∨ x = c → next c ≠ some x := by
    intro x hx he
    rw [hhead] at he
    have hmem := List.mem_of_mem_head? he
    rcases hx with hx | rfl
    · exact hnd.2.2 hx (List.mem_cons_of_mem _ hmem)
    · exact hndc.1 hmem
  constructor
  · refine seg_append.mpr ⟨r, ha.congr fun x hx => hn x (by simp [hx]) ?_, hr, hnc, ?_⟩
    · rintro rfl
      exact hnd.2.2 hx List.mem_cons_self
    · rw [hnt]
      refine hb.congr fun x hx => hn x (by simp [hx]) ?_
      rintro rfl
      exact hndc.1 hx
  · refine back_append.mpr ⟨hbw.1.congr fun x hx => hrest x (by simp [hx]) (hnotHead x (.inl hx)), ?_⟩
    refine ⟨(hrest c (by simp) (hnotHead c (.inr rfl))).trans hbw.2.1, hpt, ?_⟩
    cases bs with
    | nil => trivial
    | cons b bs =>
      refine ⟨hfirst b hhead, hbw.2.2.2.congr fun x hx => hrest x (by simp [hx]) ?_⟩
      rw [hhead]
      rintro ⟨⟩
      exact (List.nodup_cons.mp hndc.2).1 hx

/-- Unlinking the node `t`: the links of its neighbours skip it. -/
theorem DChain.remove (h : DChain next prev p (as ++ t :: bs))
    (hlast : ∀ x, as.getLast? = some x → next' x = next t)
    (hn : ∀ x ∈ as ++ bs, as.getLast? ≠ some x → next' x = next x)
    (hfirst : ∀ x, next t = some x → prev' x = prev t)
    (hrest : ∀ x ∈ as ++ bs, next t ≠ some x → prev' x = prev x) :
    DChain next' prev' (if as = [] then next t else p) (as ++ bs) := by
  have hnd := List.nodup_append'.mp h.fwd.nodup
  have hndt := List.nodup_cons.mp hnd.2.1
  have hhead := h.fwd.next_mid
  have hprev := h.prev_mid
  obtain ⟨r, ha, hr, hb⟩ := seg_append.mp h.fwd
  have hbw := back_append.mp h.bwd
  have hbs : Seg next' (next t) bs none := by
    refine hb.congr fun x hx => hn x (by simp [hx]) ?_
    intro he
    exact hnd.2.2 (List.mem_of_getLast? he) (List.mem_cons_of_mem _ hx)
  have hbsb : ∀ q, prev t = q → Back prev' q bs := by
    rintro q rfl
    cases bs with
    | nil => trivial
    | cons b bs =>
      refine ⟨hfirst b hhead, hbw.2.2.2.congr fun x hx => hrest x (by simp [hx]) ?_⟩
      rw [hhead]
      rintro ⟨⟩
      exact (List.nodup_cons.mp hndt.2).1 hx
  rcases List.eq_nil_or_concat' as with rfl | ⟨as, a, rfl⟩
  · exact ⟨hbs, by simpa using hbsb _ hprev⟩
  · have hne : as ++ [a] ≠ [] := by simp
    rw [if_neg hne]
    obtain ⟨r', ha', hr', -⟩ := seg_append.mp ha
    have hnda := (List.nodup_append'.mp hnd.1).2.2
    constructor
    · refine seg_append.mpr ⟨next t, seg_append.mpr ⟨r', ?_, hr', hlast a (by simp)⟩, hbs⟩
      refine ha'.congr fun x hx => hn x (by simp [hx]) ?_
      simp only [List.getLast?_append, List.getLast?_singleton, Option.some_or]
      rintro ⟨⟩
      exact hnda hx List.mem_cons_self
    · refine back_append.mpr ⟨hbw.1.congr fun x hx => hrest x (List.mem_append_left _ hx) ?_,
        by simpa using hbsb _ hprev⟩
      intro he
      rw [hhead] at he
      exact hnd.2.2 hx (List.mem_cons_of_mem _ (List.mem_of_mem_head? he))

end Lib
