import Ulsp.Timer.HeapOps
import Ulsp.Timer.ListOps
import Mathlib.Data.Finset.Filter
import Mathlib.Data.Finset.Insert
import Mathlib.Data.List.Sort
import Mathlib.Order.Bounds.Basic

/-!
# What a timer container is for

The purpose of the containers, without their data structures: a set of pending timers, each with its
expiry, from which the clock takes those that have expired, in order of expiry. `Pending` is that
set and `Fires` what a reading of the clock may fire from it; the order of timers with one expiry is
left open, so two firings differ in that order only (`Fires.expiries_eq`). `TimerHeap.Refines` and
`SortTimerLst.Refines` connect the two containers to it, and the theorems after them say that
`add_timer` and `tick` of each are the insertion and the firing of the specification.
-/

namespace Ulsp

open Lib

/-- The pending timers, with their expiries. -/
abbrev Pending := Finset (Ptr × ℤ)

namespace Pending

/-- The timers that have not expired at `now`. -/
def rest (p : Pending) (now : ℤ) : Pending := p.filter fun x => now < x.2

/-- `fired` is a firing of the timers of `p` that have expired at `now`: each once, and in order of
expiry. -/
structure Fires (p : Pending) (now : ℤ) (fired : List (Ptr × ℤ)) : Prop where
  nodup : fired.Nodup
  mem_iff : ∀ x, x ∈ fired ↔ x ∈ p ∧ x.2 ≤ now
  sorted : fired.Pairwise fun x y => x.2 ≤ y.2

/-- The least expiry. -/
def Earliest (p : Pending) (e : Option ℤ) : Prop :=
  match e with
  | none => p = ∅
  | some e => IsLeast {x | ∃ t, (t, x) ∈ p} e

variable {p : Pending} {now : ℤ} {f g : List (Ptr × ℤ)}

/-- Two firings are of the same timers. -/
theorem Fires.perm (hf : p.Fires now f) (hg : p.Fires now g) : f.Perm g :=
  (List.perm_ext_iff_of_nodup hf.nodup hg.nodup).mpr fun x => (hf.mem_iff x).trans (hg.mem_iff x).symm

/-- Two firings are of the same sequence of expiries. -/
theorem Fires.expiries_eq (hf : p.Fires now f) (hg : p.Fires now g) :
    f.map Prod.snd = g.map Prod.snd := by
  have hsf : (f.map Prod.snd).Pairwise (· ≤ ·) := List.pairwise_map.mpr hf.sorted
  have hsg : (g.map Prod.snd).Pairwise (· ≤ ·) := List.pairwise_map.mpr hg.sorted
  exact ((hf.perm hg).map Prod.snd).eq_of_pairwise (fun a b _ _ => le_antisymm) hsf hsg

/-- The least expiry is unique. -/
theorem Earliest.unique {d e : Option ℤ} (hd : p.Earliest d) (he : p.Earliest e) : d = e := by
  cases d with
  | none =>
    obtain rfl : p = ∅ := hd
    cases e with
    | none => rfl
    | some e => obtain ⟨t, ht⟩ := he.1; cases ht
  | some d =>
    cases e with
    | none =>
      obtain rfl : p = ∅ := he
      obtain ⟨t, ht⟩ := hd.1
      cases ht
    | some e => rw [IsLeast.unique hd he]

/-- The pending timers `ts`, by their expiry. -/
def ofList (f : Ptr → ℤ) (ts : List Ptr) : Pending := (ts.map fun t => (t, f t)).toFinset

variable {ts ts' fired : List Ptr} {f f' : Ptr → ℤ} {t : Ptr}

theorem mem_ofList {u : Ptr} {e : ℤ} : (u, e) ∈ ofList f ts ↔ u ∈ ts ∧ f u = e := by
  simp only [ofList, List.mem_toFinset, List.mem_map, Prod.mk.injEq]
  exact ⟨by rintro ⟨v, hv, rfl, rfl⟩; exact ⟨hv, rfl⟩, fun h => ⟨u, h.1, rfl, h.2⟩⟩

/-- Adding a timer to a list of timers. -/
theorem ofList_insert {e : ℤ} (hmem : ∀ u, u ∈ ts' ↔ u = t ∨ u ∈ ts) (ht : t ∉ ts) (he : f' t = e)
    (hf : ∀ u ∈ ts, f' u = f u) : ofList f' ts' = insert (t, e) (ofList f ts) := by
  ext ⟨u, d⟩
  rw [Finset.mem_insert, mem_ofList, mem_ofList, hmem]
  constructor
  · rintro ⟨rfl | hu, rfl⟩
    · exact .inl (by rw [he])
    · exact .inr ⟨hu, (hf u hu).symm⟩
  · rintro (h | ⟨hu, rfl⟩)
    · obtain ⟨rfl, rfl⟩ := Prod.mk.inj h
      exact ⟨.inl rfl, he⟩
    · exact ⟨.inr hu, hf u hu⟩

/-- The timers a tick leaves. -/
theorem ofList_rest (hmem : ∀ u, u ∈ ts ↔ u ∈ fired ∨ u ∈ ts') (hdue : ∀ u ∈ fired, f u ≤ now)
    (hlater : ∀ u ∈ ts', now < f u) (hf : ∀ u ∈ ts', f' u = f u) :
    ofList f' ts' = (ofList f ts).rest now := by
  ext ⟨u, d⟩
  rw [rest, Finset.mem_filter, mem_ofList, mem_ofList, hmem]
  constructor
  · rintro ⟨hu, rfl⟩
    exact ⟨⟨.inr hu, (hf u hu).symm⟩, hf u hu ▸ hlater u hu⟩
  · rintro ⟨⟨hu | hu, rfl⟩, hlt⟩
    · exact absurd (hdue u hu) (not_le.mpr hlt)
    · exact ⟨hu, hf u hu⟩

/-- The timers a tick fires. -/
theorem ofList_fires (hnd : fired.Nodup) (hmem : ∀ u, u ∈ ts ↔ u ∈ fired ∨ u ∈ ts')
    (hdue : ∀ u ∈ fired, f u ≤ now) (hlater : ∀ u ∈ ts', now < f u)
    (hsorted : fired.Pairwise fun t u => f t ≤ f u) :
    (ofList f ts).Fires now (fired.map fun t => (t, f t)) where
  nodup := hnd.map fun _ _ h => (Prod.mk.inj h).1
  mem_iff := by
    rintro ⟨u, d⟩
    simp only [mem_ofList, hmem, List.mem_map, Prod.mk.injEq]
    constructor
    · rintro ⟨v, hv, rfl, rfl⟩
      exact ⟨⟨.inl hv, rfl⟩, hdue v hv⟩
    · rintro ⟨⟨hu | hu, rfl⟩, hle⟩
      · exact ⟨u, hu, rfl, rfl⟩
      · exact absurd hle (not_le.mpr (hlater u hu))
  sorted := List.pairwise_map.mpr hsorted

/-- The least expiry of a list of timers one of which expires no later than any other. -/
theorem ofList_earliest (ht : t ∈ ts) (hle : ∀ u ∈ ts, f t ≤ f u) :
    (ofList f ts).Earliest (some (f t)) := by
  refine ⟨⟨t, mem_ofList.mpr ⟨ht, rfl⟩⟩, ?_⟩
  rintro e ⟨u, hmem⟩
  obtain ⟨hu, rfl⟩ := mem_ofList.mp hmem
  exact hle u hu

end Pending

open Pending

/-! ## The time heap -/

namespace TimerHeap

/-- The heap represents the pending timers. -/
def Refines (h : TimerHeap) (p : Pending) : Prop :=
  ∃ ts, h.Rep ts ∧ p = ofList (expiry h.mem) ts

/-- The expiry of the root, when there is one. -/
def earliest (h : TimerHeap) : Option ℤ := if h.size = 0 then none else h.expireAt 0

variable {h : TimerHeap} {p : Pending} {t : Ptr} {now : ℤ}

/-- `add_timer` of a new timer object inserts it. -/
theorem Refines.addTimer (hr : h.Refines p) (ht : h.mem t = none) (e now : ℤ) :
    ∃ h', (h.setExpire t e).addTimer now (some t) = some h' ∧ h'.Refines (insert (t, e) p) := by
  obtain ⟨ts, hrep, rfl⟩ := hr
  have hnot : t ∉ ts := fun hm => by
    obtain ⟨timer, htimer⟩ := hrep.alive t hm
    exact nomatch ht.symm.trans htimer
  obtain ⟨h', ts', hrun, hrep', hperm, hmem, -⟩ := addTimer_spec (h := h.setExpire t e)
    (hrep.update hnot _) hnot ⟨⟨e⟩, by simp [setExpire]⟩ now
  refine ⟨h', hrun, ts', hrep', ?_⟩
  refine (ofList_insert ?_ hnot ?_ ?_).symm
  · intro u
    rw [hperm.mem_iff, List.mem_cons]
  · simp [expiry, hmem, setExpire]
  · intro u hu
    have hne : u ≠ t := fun he => hnot (he ▸ hu)
    simp [expiry, hmem, setExpire, Function.update_of_ne hne]

/-- `tick` fires the timers that have expired. -/
theorem Refines.tick (hr : h.Refines p) (now later : ℤ) :
    ∃ h' fired, h.tick now later = some (h', fired) ∧ h'.Refines (p.rest now) ∧
      p.Fires now (fired.map fun t => (t, expiry h.mem t)) := by
  obtain ⟨ts, hrep, rfl⟩ := hr
  obtain ⟨h', fired, ts', hrun, ht⟩ := tick_spec hrep now later
  have hmem : ∀ u, u ∈ ts ↔ u ∈ fired ∨ u ∈ ts' := fun u => by
    rw [← ht.perm.mem_iff, List.mem_append]
  have hnd := List.nodup_append'.mp (ht.perm.nodup_iff.mpr hrep.nodup)
  refine ⟨h', fired, hrun, ⟨ts', ht.rep, ?_⟩, ofList_fires hnd.1 hmem ht.due ht.later ht.sorted⟩
  refine (ofList_rest hmem ht.due ht.later ?_).symm
  intro u hu
  rw [expiry, ht.mem_eq u fun hf => hnd.2.2 hf hu, expiry]

/-- The root has the least expiry. -/
theorem Refines.earliest (hr : h.Refines p) : p.Earliest h.earliest := by
  obtain ⟨ts, hrep, rfl⟩ := hr
  unfold TimerHeap.earliest
  split
  · rename_i hz
    have hnil : ts = [] := List.eq_nil_of_length_eq_zero (hrep.size.trans hz)
    subst hnil
    rfl
  · rename_i hne
    obtain ⟨t, ht, -⟩ := hrep.slot (Nat.pos_of_ne_zero hne)
    rw [hrep.expireAt (Nat.pos_of_ne_zero hne), keys_of_getElem? ht]
    exact ofList_earliest (List.mem_of_getElem? ht) fun u hu => hrep.root_le ht hu

end TimerHeap

/-! ## The sorted list -/

namespace SortTimerLst

open NodeStore

/-- The list represents the pending timers. -/
def Refines (l : SortTimerLst) (p : Pending) : Prop :=
  ∃ ts, l.Rep ts ∧ p = ofList (utilExpiry l.mem) ts

/-- The expiry of the head, when there is one. -/
def earliest (l : SortTimerLst) : Option ℤ := do
  let hd ← l.head
  let first ← l.mem hd
  return first.val.expire

/-- The construction of a timer object at address `t`. -/
def construct (t : Ptr) (e : ℤ) (l : SortTimerLst) : SortTimerLst :=
  { l with mem := Function.update l.mem t (some (UtilTimer.fresh e)) }

variable {l : SortTimerLst} {p : Pending} {t : Ptr} {now : ℤ}

/-- The other timers keep their expiry. -/
theorem utilExpiry_construct {u : Ptr} {e : ℤ} (hne : u ≠ t) :
    utilExpiry (l.construct t e).mem u = utilExpiry l.mem u := by
  simp [utilExpiry, construct, (update_of_ne hne (some (UtilTimer.fresh e))).2.2]

/-- `add_timer` of a new timer object inserts it. -/
theorem Refines.addTimer (hr : l.Refines p) (ht : l.mem t = none) (e now : ℤ) :
    ∃ l', Returns ((l.construct t e).addTimer now (some t)) l' ∧ l'.Refines (insert (t, e) p) := by
  obtain ⟨ts, hrep, rfl⟩ := hr
  have hnot := hrep.not_mem ht
  obtain ⟨l', ts', hrun, hrep', hperm, hval⟩ := addTimer_spec (l := l.construct t e) (e := e)
    (hrep.update hnot _) hnot (Function.update_self ..) now
  refine ⟨l', hrun, ts', hrep', ?_⟩
  refine (ofList_insert ?_ hnot ?_ ?_).symm
  · intro u
    rw [hperm.mem_iff, List.mem_cons]
  · rw [utilExpiry_congr hval]
    exact utilExpiry_of_some (Function.update_self ..)
  · intro u hu
    have hne : u ≠ t := fun he => hnot (he ▸ hu)
    rw [utilExpiry_congr hval, utilExpiry_construct hne]

/-- `tick` fires the timers that have expired. -/
theorem Refines.tick (hr : l.Refines p) (now later : ℤ) :
    ∃ l' fired, Returns (l.tick now later) (l', fired) ∧ l'.Refines (p.rest now) ∧
      p.Fires now (fired.map fun t => (t, utilExpiry l.mem t)) := by
  obtain ⟨ts, hrep, rfl⟩ := hr
  obtain ⟨l', fired, ts', hrun, hrep', ht⟩ := tick_spec hrep now later
  have hmem : ∀ u, u ∈ ts ↔ u ∈ fired ∨ u ∈ ts' := fun u => by rw [ht.split, List.mem_append]
  have hnd := List.nodup_append'.mp (ht.split ▸ hrep.nodup)
  have hsorted := (List.pairwise_append.mp (ht.split ▸ hrep.sorted)).1
  refine ⟨l', fired, hrun, ⟨ts', hrep', ?_⟩, ofList_fires hnd.1 hmem ht.due ht.later hsorted⟩
  refine (ofList_rest hmem ht.due ht.later ?_).symm
  intro u hu
  rw [utilExpiry, ht.val u hu, utilExpiry]

/-- The head has the least expiry. -/
theorem Refines.earliest (hr : l.Refines p) : p.Earliest l.earliest := by
  obtain ⟨ts, hrep, rfl⟩ := hr
  cases ts with
  | nil =>
    have hhead : l.head = none := hrep.linked.fwd
    simp only [SortTimerLst.earliest, hhead]
    rfl
  | cons hd rest =>
    have hhead : l.head = some hd := hrep.linked.fwd.1
    obtain ⟨v, hv⟩ := hrep.alive hd List.mem_cons_self
    obtain ⟨first, hfirst, -⟩ := exists_of_valOf hv
    have heq : l.earliest = some (utilExpiry l.mem hd) := by
      simp [SortTimerLst.earliest, hhead, hfirst, utilExpiry_of_some hfirst]
    rw [heq]
    refine ofList_earliest List.mem_cons_self ?_
    intro u hu
    rcases List.mem_cons.mp hu with rfl | hu
    · exact le_rfl
    · exact (List.pairwise_cons.mp hrep.sorted).1 u hu

end SortTimerLst

end Ulsp
