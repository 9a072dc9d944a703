import Mathlib.Algebra.BigOperators.Fin
import Mathlib.Algebra.BigOperators.Group.Finset.Piecewise
import Ulsp.Lib.Fuel
import Ulsp.Timer.Wheel

/-!
# The operations of the timer wheel

The representation invariant `Rep` of the wheel and what each operation does to it: `add_timer` puts
a timer in front of the list of its slot, `del_timer` takes it out of it, and `tick` takes out of
the next slot's list the timers whose `rotation` is used up, and counts it down for the others.
All three change one list, which is what `Linked.replace` is about. `Linked` is the part of `Rep` that
does not depend on what the timers say about their slot, and all that `tick` needs.
-/

namespace Ulsp

open Lib

namespace TimerWheel

open NodeStore

/-- The wheel keeps the live timers `ls i` in slot `i`, doubly linked, none in two slots, and counts
them. -/
structure Linked (w : TimerWheel) (ls : Fin 60 → List Ptr) : Prop where
  linked : ∀ i, DChain w.mem.nextOf w.mem.prevOf (w.slots i) (ls i)
  alive : ∀ i, ∀ t ∈ ls i, ∃ v, w.mem.valOf t = some v
  apart : ∀ i j t, t ∈ ls i → t ∈ ls j → i = j
  count : w.count = ∑ i, ((ls i).length : ℤ)

/-- The wheel keeps the timers `ls i` in slot `i`, doubly linked, each one with the index of its
slot, and counts them. -/
structure Rep (w : TimerWheel) (ls : Fin 60 → List Ptr) : Prop where
  linked : ∀ i, DChain w.mem.nextOf w.mem.prevOf (w.slots i) (ls i)
  placed : ∀ i, ∀ t ∈ ls i, ∃ v, w.mem.valOf t = some v ∧ v.slotIdx = i.val
  count : w.count = ∑ i, ((ls i).length : ℤ)

variable {w w' : TimerWheel} {ls : Fin 60 → List Ptr} {t u c : Ptr} {i j : Fin 60}
  {o : Node Ptr TwTimer}

/-- No timer is twice in a slot. -/
theorem Rep.nodup (hr : w.Rep ls) (i : Fin 60) : (ls i).Nodup := (hr.linked i).fwd.nodup

/-- A timer is in one list only. -/
theorem Rep.slot_unique (hr : w.Rep ls) (hi : t ∈ ls i) (hj : t ∈ ls j) : i = j := by
  obtain ⟨v, hv, hvi⟩ := hr.placed i t hi
  obtain ⟨v', hv', hvj⟩ := hr.placed j t hj
  obtain rfl := Option.some.inj (hv.symm.trans hv')
  exact Fin.ext (by exact_mod_cast hvi.symm.trans hvj)

/-- The invariant, without the indices in the timers. -/
theorem Rep.toLinked (hr : w.Rep ls) : w.Linked ls :=
  ⟨hr.linked, fun i t ht => (hr.placed i t ht).imp fun _ hv => hv.1,
    fun _ _ _ hi hj => hr.slot_unique hi hj, hr.count⟩

/-- A linked wheel whose timers stand in their slots represents its lists. -/
theorem Linked.toRep (hl : w.Linked ls)
    (hplaced : ∀ i, ∀ t ∈ ls i, ∃ v, w.mem.valOf t = some v ∧ v.slotIdx = i.val) : w.Rep ls :=
  ⟨hl.linked, hplaced, hl.count⟩

/-- No timer is twice in a slot. -/
theorem Linked.nodup (hl : w.Linked ls) (i : Fin 60) : (ls i).Nodup := (hl.linked i).fwd.nodup

/-- The lists of a wheel are determined by it. -/
theorem Rep.unique {ls' : Fin 60 → List Ptr} (hr : w.Rep ls) (hr' : w.Rep ls') : ls = ls' :=
  funext fun i => (hr.linked i).fwd.unique (hr'.linked i).fwd

/-- The lists do not depend on the current slot. -/
theorem Linked.setSlot (hl : w.Linked ls) (s : Fin 60) : Linked { w with curSlot := s } ls :=
  ⟨hl.linked, hl.alive, hl.apart, hl.count⟩

/-- The invariant does not depend on the current slot. -/
theorem Rep.setSlot (hr : w.Rep ls) (s : Fin 60) : Rep { w with curSlot := s } ls :=
  ⟨hr.linked, hr.placed, hr.count⟩

/-- The invariant does not depend on the alarm. -/
theorem Rep.reset (hr : w.Rep ls) : (resetTimer w).Rep ls := ⟨hr.linked, hr.placed, hr.count⟩

/-- The empty wheel. -/
theorem empty_rep (mem : NodeStore Ptr TwTimer) (a : ℕ) : (empty mem a).Rep fun _ => [] :=
  ⟨fun _ => .nil, by simp, by simp [empty]⟩

/-- The number of stored timers, when the list of one slot is replaced. -/
theorem sum_length_update (ls : Fin 60 → List Ptr) (i : Fin 60) (xs : List Ptr) :
    ∑ j, ((Function.update ls i xs j).length : ℤ) =
      ∑ j, ((ls j).length : ℤ) + xs.length - (ls i).length := by
  have hlen : ∀ j, ((Function.update ls i xs j).length : ℤ) =
      Function.update (fun j => ((ls j).length : ℤ)) i xs.length j := fun j => by
    rcases eq_or_ne j i with rfl | hj <;> simp [*]
  have hsplit := Finset.sum_eq_add_sum_sdiff_singleton_of_mem (Finset.mem_univ i)
    fun j => ((ls j).length : ℤ)
  simp only [hlen]
  rw [Finset.sum_update_of_mem (Finset.mem_univ i)]
  omega

/-- Replacing the list of one slot. -/
theorem Linked.replace (hl : w.Linked ls) (i : Fin 60) {xs : List Ptr}
    (hslots : ∀ j, j ≠ i → w'.slots j = w.slots j)
    (hn : ∀ j, j ≠ i → ∀ x ∈ ls j, w'.mem.nextOf x = w.mem.nextOf x)
    (hp : ∀ j, j ≠ i → ∀ x ∈ ls j, w'.mem.prevOf x = w.mem.prevOf x)
    (hv : ∀ j, j ≠ i → ∀ x ∈ ls j, w'.mem.valOf x = w.mem.valOf x)
    (hlinked : DChain w'.mem.nextOf w'.mem.prevOf (w'.slots i) xs)
    (halive : ∀ x ∈ xs, ∃ v, w'.mem.valOf x = some v) (hnew : ∀ x ∈ xs, ∀ j, x ∈ ls j → j = i)
    (hcount : w'.count = w.count + xs.length - (ls i).length) :
    w'.Linked (Function.update ls i xs) where
  linked j := by
    rcases eq_or_ne j i with rfl | hj
    · rwa [Function.update_self]
    · rw [Function.update_of_ne hj, hslots j hj]
      exact (hl.linked j).congr (hn j hj) (hp j hj)
  alive j x hx := by
    rcases eq_or_ne j i with rfl | hj
    · rw [Function.update_self] at hx
      exact halive x hx
    · rw [Function.update_of_ne hj] at hx
      rw [hv j hj x hx]
      exact hl.alive j x hx
  apart j k x hj hk := by
    rcases eq_or_ne j i with rfl | hji <;> rcases eq_or_ne k j with rfl | hkj
    · rfl
    · rw [Function.update_self] at hj
      rw [Function.update_of_ne hkj] at hk
      exact (hnew x hj k hk).symm
    · rfl
    · rw [Function.update_of_ne hji] at hj
      rcases eq_or_ne k i with rfl | hki
      · rw [Function.update_self] at hk
        exact hnew x hk j hj
      · rw [Function.update_of_ne hki] at hk
        exact hl.apart j k x hj hk
  count := by rw [sum_length_update, hcount, hl.count]

/-- The invariant does not depend on the objects that are not stored. -/
theorem Rep.update (hr : w.Rep ls) (ht : ∀ i, t ∉ ls i) (o : Option (Node Ptr TwTimer)) :
    Rep { w with mem := Function.update w.mem t o } ls := by
  have hne : ∀ i, ∀ u ∈ ls i, u ≠ t := fun i u hu he => ht i (he ▸ hu)
  refine ⟨fun i => (hr.linked i).congr (fun u hu => (update_of_ne (hne i u hu) o).1) fun u hu
    => (update_of_ne (hne i u hu) o).2.1, ?_, hr.count⟩
  intro i u hu
  obtain ⟨v, hv⟩ := hr.placed i u hu
  exact ⟨v, (update_of_ne (hne i u hu) o).2.2.trans hv.1, hv.2⟩

/-- A new expiry of a timer object keeps the lists, and where the timers say that they are. -/
theorem Rep.setExpire (hr : w.Rep ls) {v : TwTimer} (hv : w.mem.valOf t = some v) (e : ℤ) :
    ∃ m, w.mem.setVal t { v with expire := e } = some m ∧ Rep { w with mem := m } ls ∧
      m.nextOf = w.mem.nextOf ∧ m.prevOf = w.mem.prevOf ∧
      m.valOf = Function.update w.mem.valOf t (some { v with expire := e }) := by
  obtain ⟨m, hm, hn, hp, hval⟩ := setVal_spec hv { v with expire := e }
  refine ⟨m, hm, ⟨fun i => (hr.linked i).congr (fun u _ => by rw [hn]) (fun u _ => by rw [hp]), ?_,
    hr.count⟩, hn, hp, hval⟩
  intro i u hu
  obtain ⟨x, hx, hxi⟩ := hr.placed i u hu
  rcases eq_or_ne u t with rfl | hne
  · obtain rfl := Option.some.inj (hv.symm.trans hx)
    exact ⟨{ v with expire := e }, by rw [hval, Function.update_self], hxi⟩
  · exact ⟨x, by rw [hval, Function.update_of_ne hne, hx], hxi⟩

/-! ## `add_timer` -/

/-- Every index below 60 is a slot. -/
theorem exists_slotAt {n : ℤ} (h : 0 ≤ n ∧ n < 60) : ∃ i, slotAt n = some i := ⟨_, dif_pos h⟩

/-- The slot at the index of a slot. -/
theorem slotAt_of_lt (i : Fin 60) : slotAt i.val = some i := by
  have hi : (0 : ℤ) ≤ i.val ∧ (i.val : ℤ) < 60 := by omega
  simp [slotAt, hi]

/-- The index at which a slot is found is its own. -/
theorem slotAt_eq_some {n : ℤ} (h : slotAt n = some i) : n = i.val := by
  unfold slotAt at h
  split at h
  · rename_i hn
    obtain rfl := Option.some.inj h
    simp [hn.1]
  · cases h

/-- Linking the timer `t` in front of the list of its slot. -/
theorem Rep.link (hr : w.Rep ls) (ht : ∀ i, t ∉ ls i) {m : NodeStore Ptr TwTimer} {v : TwTimer}
    (hvt : m.valOf t = some v) (hvi : v.slotIdx = i.val)
    (hv : ∀ x, x ≠ t → m.valOf x = w.mem.valOf x)
    (hframe : ∀ j, j ≠ i → ∀ x ∈ ls j, m.nextOf x = w.mem.nextOf x ∧ m.prevOf x = w.mem.prevOf x)
    (hlinked : DChain m.nextOf m.prevOf (some t) (t :: ls i)) :
    Rep { w with slots := Function.update w.slots i (some t), mem := m, count := w.count + 1 }
      (Function.update ls i (t :: ls i)) := by
  have hne : ∀ j, ∀ x ∈ ls j, x ≠ t := fun j x hx he => ht j (he ▸ hx)
  have hplaced : ∀ j, ∀ x ∈ ls j, ∃ v, m.valOf x = some v ∧ v.slotIdx = j.val := fun j x hx =>
    (hr.placed j x hx).imp fun _ h => ⟨(hv x (hne j x hx)).trans h.1, h.2⟩
  have hhead : ∀ x ∈ t :: ls i, ∃ v, m.valOf x = some v ∧ v.slotIdx = i.val := fun x hx => by
    rcases List.mem_cons.mp hx with rfl | hx
    · exact ⟨v, hvt, hvi⟩
    · exact hplaced i x hx
  have hl : Linked
      { w with slots := Function.update w.slots i (some t), mem := m, count := w.count + 1 }
      (Function.update ls i (t :: ls i)) := by
    refine hr.toLinked.replace i (fun j hj => Function.update_of_ne hj _ _)
      (fun j hj x hx => (hframe j hj x hx).1) (fun j hj x hx => (hframe j hj x hx).2)
      (fun j _ x hx => hv x (hne j x hx)) (by simpa using hlinked)
      (fun x hx => (hhead x hx).imp fun _ h => h.1) ?_ ?_
    · intro x hx j hj
      rcases List.mem_cons.mp hx with rfl | hx
      · exact absurd hj (ht j)
      · exact hr.slot_unique hj hx
    · simp only [List.length_cons]
      omega
  refine hl.toRep ?_
  intro j x hx
  rcases eq_or_ne j i with rfl | hj
  · exact hhead x (by simpa using hx)
  · exact hplaced j x (by simpa [hj] using hx)

/-- `add_timer` of a timer object that is not stored, with any links: it becomes the head of the slot
computed for it, and is linked with the timer that was there, if there was one. -/
theorem addTimer_run (hr : w.Rep ls) (ht : ∀ i, t ∉ ls i) (ho : w.mem t = some o) {now due : ℤ}
    (hdue : addInt w.curSlot.val (ticksTo o.val.expire now) = some due)
    (hslot : slotAt (due.tmod 60) = some i) :
    ∃ m, w.addTimer now (some t) = some (resetTimer
        { w with slots := Function.update w.slots i (some t), mem := m, count := w.count + 1 }) ∧
      m.valOf = Function.update w.mem.valOf t
        (some ⟨o.val.expire, (ticksTo o.val.expire now).tdiv 60, i.val⟩) ∧
      m.nextOf t = (if ls i = [] then w.mem.nextOf t else w.slots i) ∧
      (∀ x, x ≠ t → m.nextOf x = w.mem.nextOf x) ∧
      (∀ x, w.slots i = some x → m.prevOf x = some t) ∧
      ∀ x, w.slots i ≠ some x → m.prevOf x = w.mem.prevOf x := by
  have hidx := slotAt_eq_some hslot
  obtain ⟨m₁, hm₁, hn₁, hp₁, hv₁⟩ := setVal_spec (valOf_of_some ho)
    ⟨o.val.expire, (ticksTo o.val.expire now).tdiv N, due.tmod N⟩
  have hval : m₁.valOf = Function.update w.mem.valOf t
      (some ⟨o.val.expire, (ticksTo o.val.expire now).tdiv 60, i.val⟩) := by
    rw [hv₁, ← hidx]; rfl
  have hslot' : slotAt (due.tmod N) = some i := hslot
  have hfwd := (hr.linked i).fwd
  rcases hp : w.slots i with _ | hd
  · have hnil : ls i = [] := List.head?_eq_none_iff.mp (hfwd.head?.trans hp)
    exact ⟨m₁, by simp [addTimer, ho, hdue, hm₁, hslot', hp], hval, by rw [if_pos hnil, hn₁],
      fun x _ => by rw [hn₁], by simp, fun x _ => by rw [hp₁]⟩
  · have hhd : hd ∈ ls i := List.mem_of_mem_head? (hfwd.head?.trans hp)
    have hne : hd ≠ t := fun he => ht i (he ▸ hhd)
    obtain ⟨m₂, hm₂, hn₂, hp₂, hv₂⟩ :=
      setNext_spec (m := m₁) (x := t) (by rw [hval, Function.update_self]) (some hd)
    obtain ⟨v, hv, -⟩ := hr.placed i hd hhd
    obtain ⟨m₃, hm₃, hn₃, hp₃, hv₃⟩ := setPrev_spec (m := m₂) (x := hd) (v := v)
      (by rw [hv₂, hval, Function.update_of_ne hne, hv]) (some t)
    refine ⟨m₃, by simp [addTimer, ho, hdue, hm₁, hslot', hp, hm₂, hm₃], (hv₃.trans hv₂).trans hval,
      ?_, ?_, ?_, ?_⟩
    · rw [if_neg (List.ne_nil_of_mem hhd), hn₃, hn₂, Function.update_self]
    · intro x hx
      rw [hn₃, hn₂, Function.update_of_ne hx, hn₁]
    · intro x hx
      obtain rfl : hd = x := Option.some.inj hx
      rw [hp₃, Function.update_self]
    · intro x hx
      rw [hp₃, Function.update_of_ne fun he => hx (congrArg some he.symm), hp₂, hp₁]

/-- `add_timer` of a timer object with null links puts it in front of the list of the slot computed
for it. The forward link is written where there is a list already. -/
theorem addTimer_spec (hr : w.Rep ls) (ht : ∀ i, t ∉ ls i) (ho : w.mem t = some o)
    (hprev : o.prev = none) (hnext : ls i = [] → o.next = none) {now due : ℤ}
    (hdue : addInt w.curSlot.val (ticksTo o.val.expire now) = some due)
    (hslot : slotAt (due.tmod 60) = some i) :
    ∃ w', w.addTimer now (some t) = some w' ∧ w'.Rep (Function.update ls i (t :: ls i)) ∧
      w'.curSlot = w.curSlot ∧ w'.mem.valOf = Function.update w.mem.valOf t
        (some ⟨o.val.expire, (ticksTo o.val.expire now).tdiv 60, i.val⟩) := by
  obtain ⟨m, hadd, hval, hnt, hn, hfirst, hp⟩ := addTimer_run hr ht ho hdue hslot
  have hhead : ∀ x, w.slots i = some x → x ∈ ls i := fun x hx =>
    List.mem_of_mem_head? ((hr.linked i).fwd.head?.trans hx)
  have hne : ∀ j, ∀ x ∈ ls j, x ≠ t := fun j x hx he => ht j (he ▸ hx)
  have hlinked : DChain m.nextOf m.prevOf (some t) (t :: ls i) := by
    refine (hr.linked i).push ?_ ?_ (fun x hx => hn x (hne i x hx)) hfirst fun x _ hx => hp x hx
    · rw [hnt]
      split
      · rename_i hnil
        rw [nextOf_of_some ho, hnext hnil, ← (hr.linked i).fwd.head?, hnil]
        rfl
      · rfl
    · rw [hp t fun he => ht i (hhead t he), prevOf_of_some ho, hprev]
  have hr' := hr.link ht (m := m) (by rw [hval, Function.update_self]) rfl
    (fun x hx => by rw [hval, Function.update_of_ne hx])
    (fun j hj x hx => ⟨hn x (hne j x hx), hp x fun he => hj (hr.slot_unique hx (hhead x he))⟩) hlinked
  exact ⟨_, hadd, hr'.reset, rfl, hval⟩

/-- What `add_timer` computed when it did not fail. -/
theorem of_addTimer {now : ℤ} (h : w.addTimer now (some t) = some w') :
    ∃ o due i, w.mem t = some o ∧ addInt w.curSlot.val (ticksTo o.val.expire now) = some due ∧
      slotAt (due.tmod 60) = some i := by
  simp only [addTimer, Option.bind_eq_bind, Option.bind_some, Option.bind_eq_some_iff] at h
  obtain ⟨o, ho, due, hdue, m, -, i, hi, -⟩ := h
  exact ⟨o, due, i, ho, hdue, hi⟩

/-! ## `del_timer` -/

/-- What is behind a stored timer in its list is another timer. -/
theorem Linked.next_spec (hl : w.Linked ls) {as bs : List Ptr} (hls : ls i = as ++ t :: bs) {x : Ptr}
    (hx : w.mem.nextOf t = some x) : x ≠ t ∧ ∃ v, w.mem.valOf x = some v := by
  have hchain := hls ▸ hl.linked i
  have hmem : x ∈ bs := List.mem_of_mem_head? (hchain.fwd.next_mid.symm.trans hx)
  refine ⟨?_, hl.alive i x (by simp [hls, hmem])⟩
  rintro rfl
  exact (List.nodup_cons.mp (List.nodup_append'.mp hchain.fwd.nodup).2.1).1 hmem

/-- Taking the timer `t` out of the list of its slot: its neighbours' links skip it. -/
theorem Linked.unlink (hr : w.Linked ls) {as bs : List Ptr} (hls : ls i = as ++ t :: bs)
    (hslots : ∀ j, j ≠ i → w'.slots j = w.slots j)
    (hslot : w'.slots i = if as = [] then w.mem.nextOf t else w.slots i)
    (hlast : ∀ x, as.getLast? = some x → w'.mem.nextOf x = w.mem.nextOf t)
    (hn : ∀ x, x ≠ t → as.getLast? ≠ some x → w'.mem.nextOf x = w.mem.nextOf x)
    (hfirst : ∀ x, w.mem.nextOf t = some x → w'.mem.prevOf x = w.mem.prevOf t)
    (hp : ∀ x, x ≠ t → w.mem.nextOf t ≠ some x → w'.mem.prevOf x = w.mem.prevOf x)
    (hv : ∀ x, x ≠ t → w'.mem.valOf x = w.mem.valOf x) (hcount : w'.count = w.count - 1) :
    w'.Linked (Function.update ls i (as ++ bs)) := by
  have hchain := hls ▸ hr.linked i
  have hnd := List.nodup_append'.mp hchain.fwd.nodup
  have hne : ∀ x ∈ as ++ bs, x ≠ t := by
    rintro x hx rfl
    rcases List.mem_append.mp hx with hx | hx
    · exact hnd.2.2 hx List.mem_cons_self
    · exact (List.nodup_cons.mp hnd.2.1).1 hx
  have hmem : ∀ x ∈ as ++ bs, x ∈ ls i := by
    intro x hx
    rw [hls]
    rcases List.mem_append.mp hx with hx | hx <;> simp [hx]
  have hti : t ∈ ls i := by simp [hls]
  have hother : ∀ j, j ≠ i → ∀ x ∈ ls j, x ≠ t ∧ x ∉ ls i := fun j hj x hx =>
    ⟨fun he => hj (hr.apart j i t (he ▸ hx) hti), fun hi => hj (hr.apart j i x hx hi)⟩
  refine hr.replace i hslots ?_ ?_ (fun j hj x hx => hv x (hother j hj x hx).1) ?_ ?_ ?_ ?_
  · intro j hj x hx
    refine hn x (hother j hj x hx).1 fun he => (hother j hj x hx).2 (hmem x ?_)
    exact List.mem_append_left _ (List.mem_of_getLast? he)
  · intro j hj x hx
    refine hp x (hother j hj x hx).1 fun he => (hother j hj x hx).2 (hmem x ?_)
    exact List.mem_append_right _ (List.mem_of_mem_head? (hchain.fwd.next_mid ▸ he))
  · rw [hslot]
    exact hchain.remove hlast (fun x hx => hn x (hne x hx)) hfirst fun x hx => hp x (hne x hx)
  · intro x hx
    rw [hv x (hne x hx)]
    exact hr.alive i x (hmem x hx)
  · intro x hx j hj
    exact hr.apart j i x hj (hmem x hx)
  · rw [hcount, hls]
    simp only [List.length_append, List.length_cons]
    omega

/-- Where the timers say that they are does not change with the lists. -/
theorem Linked.placed (hl : w'.Linked (Function.update ls i bs)) (hr : w.Rep ls)
    (hmem : ∀ x ∈ bs, x ∈ ls i) (hv : ∀ j, ∀ x ∈ Function.update ls i bs j, ∀ v,
      w.mem.valOf x = some v → ∃ v', w'.mem.valOf x = some v' ∧ v'.slotIdx = v.slotIdx) :
    w'.Rep (Function.update ls i bs) := by
  refine hl.toRep ?_
  intro j x hx
  have hj : x ∈ ls j := by
    rcases eq_or_ne j i with rfl | hj
    · exact hmem x (by simpa using hx)
    · simpa [hj] using hx
  obtain ⟨v, hxv, hvi⟩ := hr.placed j x hj
  obtain ⟨v', hxv', hvi'⟩ := hv j x hx v hxv
  exact ⟨v', hxv', hvi'.trans hvi⟩

/-- The search of `del_timer` finds a timer on the list. -/
theorem seek_spec {as bs : List Ptr} {p : Option Ptr} (h : Chain w.mem.nextOf p (as ++ t :: bs))
    (halive : ∀ x ∈ as, ∃ v, w.mem.valOf x = some v) :
    Returns (fun fuel => w.seek t fuel p) (some t) := by
  induction as generalizing p with
  | nil => exact .succ (k := 0) fun fuel _ => by simp [seek, h.1]
  | cons x as ih =>
    obtain ⟨rfl, hrest⟩ := h
    obtain ⟨v, hv⟩ := halive x List.mem_cons_self
    obtain ⟨n, hn, -⟩ := exists_of_valOf hv
    obtain ⟨k, hk⟩ := ih hrest fun y hy => halive y (List.mem_cons_of_mem _ hy)
    refine .succ (k := k) ?_
    intro fuel hle
    rcases eq_or_ne x t with rfl | hne
    · simp [seek]
    · have hnext := nextOf_of_some hn
      simp [seek, hne, hn, ← hnext, hk fuel hle]

/-- What the search of `del_timer` finds is on the list. -/
theorem mem_of_seek {xs : List Ptr} {p q : Option Ptr} {fuel : ℕ} (h : Chain w.mem.nextOf p xs)
    (hseek : w.seek t fuel p = some q) : t ∈ xs := by
  induction fuel generalizing p xs with
  | zero => cases hseek
  | succ fuel ih =>
    cases xs with
    | nil =>
      obtain rfl : p = none := h
      simp [seek] at hseek
    | cons x xs =>
      obtain ⟨rfl, hrest⟩ := h
      rcases eq_or_ne x t with rfl | hne
      · exact List.mem_cons_self
      · rcases hx : w.mem x with _ | n
        · simp [seek, hne, hx] at hseek
        · have hnext := nextOf_of_some hx
          refine List.mem_cons_of_mem _ (ih hrest ?_)
          simpa [seek, hne, hx, ← hnext] using hseek

/-- `del_timer` of a stored timer takes it out of its list, and leaves the links of the timer itself as
they are. -/
theorem delTimer_spec (hr : w.Rep ls) (ht : t ∈ ls i) :
    ∃ w', Returns (w.delTimer (some t)) w' ∧ w'.Rep (Function.update ls i ((ls i).erase t)) ∧
      w'.curSlot = w.curSlot ∧ w'.mem.valOf = w.mem.valOf ∧ w'.mem.nextOf t = w.mem.nextOf t ∧
      w'.mem.prevOf t = w.mem.prevOf t := by
  obtain ⟨v, hv, hvi⟩ := hr.placed i t ht
  obtain ⟨node, hnode, hval⟩ := exists_of_valOf hv
  obtain ⟨as, bs, hls⟩ := List.append_of_mem ht
  have hchain := hls ▸ hr.linked i
  have hnd := List.nodup_append'.mp hchain.fwd.nodup
  have hnot : t ∉ as := fun h => hnd.2.2 h List.mem_cons_self
  have herase : (ls i).erase t = as ++ bs := by
    rw [hls, List.erase_append_right _ hnot, List.erase_cons_head]
  have hidx : slotAt node.val.slotIdx = some i := by rw [hval, hvi]; exact slotAt_of_lt i
  have hn := nextOf_of_some hnode
  have hp := prevOf_of_some hnode
  have hlast : node.prev = as.getLast? := hp.symm.trans hchain.prev_mid
  have hnext : ∀ x, node.next = some x → x ≠ t ∧ ∃ v, w.mem.valOf x = some v := fun x hx =>
    hr.toLinked.next_spec hls (hn.trans hx)
  have hself : node.next ≠ some t := fun he => (hnext t he).1 rfl
  have halive := hr.toLinked.alive i
  have hmem : ∀ x ∈ (ls i).erase t, x ∈ ls i := fun x hx => List.mem_of_mem_erase hx
  obtain ⟨k, hk⟩ := seek_spec hchain.fwd fun x hx => halive x (by simp [hls, hx])
  rw [herase] at hmem ⊢
  rcases List.eq_nil_or_concat' as with rfl | ⟨as, a, rfl⟩
  · have hnone : node.prev = none := hlast
    obtain ⟨m, hm, hn₁, hp₁, hp₂, hv₁⟩ :=
      trySetPrev_spec (fun x hx => (hnext x hx).2) node.prev
    let w₁ := { w with
      slots := Function.update w.slots i node.next, mem := m, count := w.count - 1 }
    have hl₁ : w₁.Linked (Function.update ls i ([] ++ bs)) := by
      refine hr.toLinked.unlink hls (fun j hj => Function.update_of_ne hj _ _) ?_ (by simp)
        (fun x _ _ => by rw [hn₁]) ?_ ?_ (fun x _ => by rw [hv₁]) rfl
      · rw [if_pos rfl, hn]
        exact Function.update_self ..
      · intro x hx
        rw [hp]
        exact hp₁ x (hn ▸ hx)
      · intro x _ hx
        exact hp₂ x (hn ▸ hx)
    have hr₁ := hl₁.placed hr hmem fun _ x _ v hxv => ⟨v, (congrFun hv₁ x).trans hxv, rfl⟩
    refine ⟨resetTimer w₁, ⟨k, ?_⟩, hr₁.reset, rfl, hv₁, congrFun hn₁ t, hp₂ t hself⟩
    intro fuel hf
    simp [delTimer, hnode, hidx, hk fuel hf, hnone, hnone ▸ hm, w₁]
  · have hsome : node.prev = some a := by simp [hlast]
    obtain ⟨v, hav⟩ := halive a (by simp [hls])
    obtain ⟨m, hm, hn₁, hp₁, hv₁⟩ := setNext_spec hav node.next
    obtain ⟨m', hm', hn₂, hp₂, hp₃, hv₂⟩ := trySetPrev_spec (m := m)
      (fun x hx => by rw [hv₁]; exact (hnext x hx).2) node.prev
    have hval : m'.valOf = w.mem.valOf := hv₂.trans hv₁
    let w₁ := { w with mem := m', count := w.count - 1 }
    have hl₁ : w₁.Linked (Function.update ls i (as ++ [a] ++ bs)) := by
      refine hr.toLinked.unlink hls (fun j _ => rfl) (by simp [w₁]) ?_ ?_ ?_ ?_
        (fun x _ => by rw [hval]) rfl
      · intro x hx
        obtain rfl : a = x := by simpa using hx
        rw [hn₂, hn₁, Function.update_self, hn]
      · intro x _ hx
        rw [hn₂, hn₁, Function.update_of_ne]
        rintro rfl
        simp at hx
      · intro x hx
        rw [hp]
        exact hp₂ x (hn ▸ hx)
      · intro x _ hx
        rw [hp₃ x (hn ▸ hx), hp₁]
    have hr₁ := hl₁.placed hr hmem fun _ x _ v hxv => ⟨v, (congrFun hval x).trans hxv, rfl⟩
    have hat : t ≠ a := fun he => hnot (by simp [he])
    refine ⟨resetTimer w₁, ⟨k, ?_⟩, hr₁.reset, rfl, hval, ?_, ?_⟩
    · intro fuel hf
      simp [delTimer, hnode, hidx, hk fuel hf, hsome, hm, hsome ▸ hm', w₁]
    · show m'.nextOf t = _
      rw [hn₂, hn₁, Function.update_of_ne hat]
    · show m'.prevOf t = _
      rw [hp₃ t hself, hp₁]

/-- `del_timer` returns for stored timers only. -/
theorem mem_of_delTimer (hr : w.Rep ls) {fuel : ℕ} (h : w.delTimer (some t) fuel = some w') :
    ∃ i, t ∈ ls i := by
  simp only [delTimer, Option.bind_eq_bind, Option.bind_eq_some_iff] at h
  obtain ⟨o, -, i, -, cur, hseek, -⟩ := h
  exact ⟨i, mem_of_seek (hr.linked i).fwd hseek⟩

/-! ## `tick` -/

/-- The `rotation` of a timer. -/
def rotationOf (mem : NodeStore Ptr TwTimer) (t : Ptr) : ℤ :=
  ((mem.valOf t).map TwTimer.rotation).getD 0

/-- The rotation of an allocated timer. -/
theorem rotationOf_of_some {mem : NodeStore Ptr TwTimer} {v : TwTimer} (h : mem.valOf t = some v) :
    rotationOf mem t = v.rotation := by
  simp [rotationOf, h]

/-- Firing a timer of the current slot takes it out of its list. -/
theorem dropFired_spec (hr : w.Linked ls) {as bs : List Ptr} (hls : ls w.curSlot = as ++ c :: bs) :
    ∃ w', w.dropFired c (w.mem.nextOf c) = some w' ∧
      w'.Linked (Function.update ls w.curSlot (as ++ bs)) ∧ w'.curSlot = w.curSlot ∧
      w'.mem c = none ∧ ∀ x, x ≠ c → w'.mem.valOf x = w.mem.valOf x := by
  have hchain := hls ▸ hr.linked w.curSlot
  have hnd := List.nodup_append'.mp hchain.fwd.nodup
  have hlast := hchain.prev_mid
  obtain ⟨v, hv⟩ := hr.alive w.curSlot c (by simp [hls])
  obtain ⟨tmp, htmp, -⟩ := exists_of_valOf hv
  have hp := prevOf_of_some htmp
  have hnext : ∀ x, w.mem.nextOf c = some x → x ≠ c ∧ ∃ v, w.mem.valOf x = some v := fun _ hx =>
    hr.next_spec hls hx
  obtain ⟨m, hm, hn₁, hp₁, hp₂, hv₁⟩ :=
    trySetPrev_spec (fun x hx => (hnext x hx).2) (w.mem.prevOf c)
  rcases List.eq_nil_or_concat' as with rfl | ⟨as, a, rfl⟩
  · -- the first of the list
    have hslot : w.slots w.curSlot = some c := hchain.fwd.1
    have hnone : w.mem.prevOf c = none := hlast
    let w₁ := { w with
      slots := Function.update w.slots w.curSlot (w.mem.nextOf c)
      mem := Function.update m c none
      count := w.count - 1 }
    refine ⟨w₁, by simp [dropFired, hslot, hnone ▸ hm, w₁], ?_, rfl, Function.update_self ..,
      fun x hx => (update_of_ne hx none).2.2.trans (by rw [hv₁])⟩
    refine hr.unlink hls (fun j hj => Function.update_of_ne hj _ _) ?_ (by simp)
      (fun x hx _ => (update_of_ne hx none).1.trans (by rw [hn₁])) ?_
      (fun x hx hxn => (update_of_ne hx none).2.1.trans (hp₂ x hxn))
      (fun x hx => (update_of_ne hx none).2.2.trans (by rw [hv₁])) rfl
    · rw [if_pos rfl]
      exact Function.update_self ..
    · intro x hx
      exact (update_of_ne (hnext x hx).1 none).2.1.trans (hp₁ x hx)
  · have hsome : w.mem.prevOf c = some a := by simpa using hlast
    have hac : a ≠ c := by
      rintro rfl
      exact hnd.2.2 (by simp) List.mem_cons_self
    have hslot : w.slots w.curSlot ≠ some c := fun he => by
      have hfirst := hchain.fwd.head?.trans he
      rw [List.head?_append_of_ne_nil _ (by simp)] at hfirst
      exact hnd.2.2 (List.mem_of_mem_head? hfirst) List.mem_cons_self
    obtain ⟨v, hav⟩ := hr.alive w.curSlot a (by simp [hls])
    obtain ⟨m', hm', hn₂, hp₃, hv₂⟩ :=
      setNext_spec (m := m) (by rw [hv₁]; exact hav) (w.mem.nextOf c)
    have hval : m'.valOf = w.mem.valOf := hv₂.trans hv₁
    let w₁ := { w with mem := Function.update m' c none, count := w.count - 1 }
    refine ⟨w₁, by simp [dropFired, hslot, htmp, ← hp, hsome ▸ hm, hsome, hm', w₁], ?_, rfl,
      Function.update_self .., fun x hx => (update_of_ne hx none).2.2.trans (by rw [hval])⟩
    refine hr.unlink hls (fun j _ => rfl) (by simp [w₁]) ?_
      (fun x hx hxl => (update_of_ne hx none).1.trans ?_) ?_
      (fun x hx hxn => (update_of_ne hx none).2.1.trans (by rw [hp₃, hp₂ x hxn]))
      (fun x hx => (update_of_ne hx none).2.2.trans (by rw [hval])) rfl
    · intro x hx
      obtain rfl : a = x := by simpa using hx
      exact (update_of_ne hac none).1.trans (by rw [hn₂, Function.update_self])
    · rw [hn₂, Function.update_of_ne, hn₁]
      rintro rfl
      simp at hxl
    · intro x hx
      exact (update_of_ne (hnext x hx).1 none).2.1.trans (by rw [hp₃, hp₁ x hx])

/-- The timers of a list that a tick of their slot fires. -/
def dueOf (mem : NodeStore Ptr TwTimer) (ts : List Ptr) : List Ptr :=
  ts.filter fun t => rotationOf mem t ≤ 0

/-- The timers of a list that a tick of their slot counts down. -/
def keptOf (mem : NodeStore Ptr TwTimer) (ts : List Ptr) : List Ptr :=
  ts.filter fun t => 0 < rotationOf mem t

/-- What the loop of `tick` does to the objects, when it walks the timers `ts`. -/
structure Walked (mem : NodeStore Ptr TwTimer) (ts : List Ptr) (mem' : NodeStore Ptr TwTimer) :
    Prop where
  val_kept : ∀ t ∈ keptOf mem ts, ∀ v, mem.valOf t = some v →
    mem'.valOf t = some { v with rotation := v.rotation - 1 }
  val_other : ∀ t, t ∉ ts → mem'.valOf t = mem.valOf t
  deleted : ∀ t ∈ dueOf mem ts, mem'.valOf t = none

/-- Whether the first timer of a list is due. -/
theorem dueOf_cons {mem : NodeStore Ptr TwTimer} {ts : List Ptr} :
    dueOf mem (t :: ts) = if rotationOf mem t ≤ 0 then t :: dueOf mem ts else dueOf mem ts := by
  simp [dueOf, List.filter_cons]

/-- Whether the first timer of a list is kept. -/
theorem keptOf_cons {mem : NodeStore Ptr TwTimer} {ts : List Ptr} :
    keptOf mem (t :: ts) = if 0 < rotationOf mem t then t :: keptOf mem ts else keptOf mem ts := by
  simp [keptOf, List.filter_cons]

/-- Which timers are due depends on their own values only. -/
theorem due_kept_congr {mem mem' : NodeStore Ptr TwTimer} {ts : List Ptr}
    (h : ∀ t ∈ ts, mem'.valOf t = mem.valOf t) :
    dueOf mem' ts = dueOf mem ts ∧ keptOf mem' ts = keptOf mem ts := by
  have hrot : ∀ t ∈ ts, rotationOf mem' t = rotationOf mem t := fun t ht => by
    rw [rotationOf, h t ht, rotationOf]
  exact ⟨List.filter_congr fun t ht => by rw [hrot t ht],
    List.filter_congr fun t ht => by rw [hrot t ht]⟩

/-- Counting down a timer leaves the lists as they are. -/
theorem countDown_spec (hr : w.Linked ls) {v : TwTimer} (hv : w.mem.valOf c = some v) :
    ∃ m, w.mem.setVal c { v with rotation := v.rotation - 1 } = some m ∧
      Linked { w with mem := m } ls ∧ m.valOf c = some { v with rotation := v.rotation - 1 } ∧
      ∀ x, x ≠ c → m.valOf x = w.mem.valOf x := by
  obtain ⟨m, hm, hn, hp, hval⟩ := setVal_spec hv { v with rotation := v.rotation - 1 }
  have hself : m.valOf c = some { v with rotation := v.rotation - 1 } := by
    rw [hval, Function.update_self]
  have hother : ∀ x, x ≠ c → m.valOf x = w.mem.valOf x := fun x hx => by
    rw [hval, Function.update_of_ne hx]
  refine ⟨m, hm, ⟨?_, ?_, hr.apart, hr.count⟩, hself, hother⟩
  · intro i
    exact (hr.linked i).congr (fun x _ => by rw [hn]) (fun x _ => by rw [hp])
  · intro i x hx
    rcases eq_or_ne x c with rfl | hxc
    · exact ⟨_, hself⟩
    · exact (hr.alive i x hx).imp fun _ hvx => (hother x hxc).trans hvx

/-- The loop counts down the first timer and walks the others. -/
theorem Walked.counted {mem m mem' : NodeStore Ptr TwTimer} {ts : List Ptr} {v : TwTimer}
    (hc : c ∉ ts) (hv : mem.valOf c = some v) (hpos : 0 < v.rotation)
    (hself : m.valOf c = some { v with rotation := v.rotation - 1 })
    (hother : ∀ x, x ≠ c → m.valOf x = mem.valOf x) (h : Walked m ts mem') :
    dueOf mem (c :: ts) = dueOf m ts ∧ keptOf mem (c :: ts) = c :: keptOf m ts ∧
      Walked mem (c :: ts) mem' := by
  have hne : ∀ x ∈ ts, x ≠ c := fun x hx he => hc (he ▸ hx)
  have hrot := rotationOf_of_some hv
  obtain ⟨hdue, hkept⟩ := due_kept_congr fun x hx => hother x (hne x hx)
  have hdue' : dueOf mem (c :: ts) = dueOf m ts := by rw [dueOf_cons, if_neg (by omega), hdue]
  have hkept' : keptOf mem (c :: ts) = c :: keptOf m ts := by
    rw [keptOf_cons, if_pos (by omega), hkept]
  refine ⟨hdue', hkept', ?_, ?_, hdue' ▸ h.deleted⟩
  · intro t ht v' hv'
    rw [hkept'] at ht
    rcases List.mem_cons.mp ht with rfl | ht
    · obtain rfl := Option.some.inj (hv.symm.trans hv')
      exact (h.val_other t hc).trans hself
    · have hts : t ∈ ts := (List.mem_filter.mp ht).1
      exact h.val_kept t ht v' ((hother t (hne t hts)).trans hv')
  · intro t ht
    exact (h.val_other t (List.not_mem_of_not_mem_cons ht)).trans
      (hother t (List.ne_of_not_mem_cons ht))

/-- The loop fires the first timer and walks the others. -/
theorem Walked.fired {mem m mem' : NodeStore Ptr TwTimer} {ts : List Ptr} {v : TwTimer}
    (hc : c ∉ ts) (hv : mem.valOf c = some v) (hused : v.rotation ≤ 0) (hdead : m c = none)
    (hother : ∀ x, x ≠ c → m.valOf x = mem.valOf x) (h : Walked m ts mem') :
    dueOf mem (c :: ts) = c :: dueOf m ts ∧ keptOf mem (c :: ts) = keptOf m ts ∧
      Walked mem (c :: ts) mem' := by
  have hne : ∀ x ∈ ts, x ≠ c := fun x hx he => hc (he ▸ hx)
  have hrot := rotationOf_of_some hv
  obtain ⟨hdue, hkept⟩ := due_kept_congr fun x hx => hother x (hne x hx)
  have hdue' : dueOf mem (c :: ts) = c :: dueOf m ts := by
    rw [dueOf_cons, if_pos (by omega), hdue]
  have hkept' : keptOf mem (c :: ts) = keptOf m ts := by rw [keptOf_cons, if_neg (by omega), hkept]
  refine ⟨hdue', hkept', ?_, ?_, ?_⟩
  · intro t ht v' hv'
    rw [hkept'] at ht
    have hts : t ∈ ts := (List.mem_filter.mp ht).1
    exact h.val_kept t ht v' ((hother t (hne t hts)).trans hv')
  · intro t ht
    exact (h.val_other t (List.not_mem_of_not_mem_cons ht)).trans
      (hother t (List.ne_of_not_mem_cons ht))
  · intro t ht
    rw [hdue'] at ht
    rcases List.mem_cons.mp ht with rfl | ht
    · rw [h.val_other t hc, valOf, hdead]
      rfl
    · exact h.deleted t ht

/-- The loop of `tick` fires the timers whose rotations are used up and counts down the others. -/
theorem tickLoop_spec (pre ts : List Ptr) (hr : w.Linked ls) (hls : ls w.curSlot = pre ++ ts) :
    ∃ w', (∀ fuel, ts.length < fuel → tickLoop fuel ts.head? w = some (w', dueOf w.mem ts)) ∧
      w'.Linked (Function.update ls w.curSlot (pre ++ keptOf w.mem ts)) ∧
      w'.curSlot = w.curSlot ∧ Walked w.mem ts w'.mem := by
  induction ts generalizing w ls pre with
  | nil =>
    refine ⟨w, ?_, ?_, rfl, by simp [keptOf], fun _ _ => rfl, by simp [dueOf]⟩
    · intro fuel hf
      obtain ⟨n, rfl⟩ : ∃ n, fuel = n + 1 := ⟨fuel - 1, by omega⟩
      rfl
    · show w.Linked (Function.update ls w.curSlot (pre ++ []))
      rwa [← hls, Function.update_eq_self]
  | cons c ts ih =>
    have hnd := hls ▸ hr.nodup w.curSlot
    have hc : c ∉ ts := (List.nodup_cons.mp (List.nodup_append'.mp hnd).2.1).1
    have hhead := (hls ▸ hr.linked w.curSlot).fwd.next_mid
    obtain ⟨v, hv⟩ := hr.alive w.curSlot c (by simp [hls])
    obtain ⟨node, hnode, rfl⟩ := exists_of_valOf hv
    have hn := (nextOf_of_some hnode).symm.trans hhead
    rcases lt_or_ge 0 node.val.rotation with hpos | hused
    · -- one round more to go
      obtain ⟨m, hm, hr₁, hself, hother⟩ := countDown_spec hr hv
      obtain ⟨w', hrun, hr', hslot, hw⟩ := ih (pre ++ [c]) hr₁ (by simp [hls])
      obtain ⟨hdue, hkept, hwalked⟩ := hw.counted hc hv hpos hself hother
      refine ⟨w', ?_, ?_, hslot, hwalked⟩
      · intro fuel hf
        obtain ⟨n, rfl⟩ : ∃ n, fuel = n + 1 := ⟨fuel - 1, by simp at hf; omega⟩
        have hstep := hrun n (by simp at hf; omega)
        rw [hdue, ← hstep]
        simp [tickLoop, hnode, hpos, hm, hn]
      · rw [hkept]
        simpa using hr'
    · -- its time has come
      obtain ⟨w₁, hdrop, hr₁, hslot₁, hdead, hother⟩ := dropFired_spec hr hls
      obtain ⟨w', hrun, hr', hslot, hw⟩ := ih pre hr₁ (by rw [hslot₁, Function.update_self])
      obtain ⟨hdue, hkept, hwalked⟩ := hw.fired hc hv hused hdead hother
      refine ⟨w', ?_, ?_, hslot.trans hslot₁, hwalked⟩
      · intro fuel hf
        obtain ⟨n, rfl⟩ : ∃ n, fuel = n + 1 := ⟨fuel - 1, by simp at hf; omega⟩
        have hstep := hrun n (by simp at hf; omega)
        rw [hdue]
        rw [(nextOf_of_some hnode).trans hn] at hdrop
        simp [tickLoop, hnode, hused.not_gt, hn, hdrop, hstep]
      · rw [hkept]
        simpa [hslot₁] using hr'

/-- `tick` moves on to the next slot, fires the timers there whose rotations are used up, in the
order of the list, and counts down the others. -/
theorem Linked.tick_spec (hl : w.Linked ls) :
    ∃ w', Returns w.tick (w', dueOf w.mem (ls (w.curSlot + 1))) ∧
      w'.Linked (Function.update ls (w.curSlot + 1) (keptOf w.mem (ls (w.curSlot + 1)))) ∧
      w'.curSlot = w.curSlot + 1 ∧ Walked w.mem (ls (w.curSlot + 1)) w'.mem := by
  obtain ⟨w', hrun, hl', hslot, hw⟩ :=
    tickLoop_spec [] (ls (w.curSlot + 1)) (hl.setSlot (w.curSlot + 1)) rfl
  have hhead := (hl.linked (w.curSlot + 1)).fwd.head?
  refine ⟨resetTimer w', ⟨(ls (w.curSlot + 1)).length + 1, ?_⟩, ⟨hl'.linked, hl'.alive, hl'.apart,
    hl'.count⟩, hslot, hw⟩
  intro fuel hf
  have hstep := hrun fuel hf
  rw [hhead] at hstep
  simp [tick, hstep]

/-- `tick`, with what the timers say about their slot. -/
theorem tick_spec (hr : w.Rep ls) :
    ∃ w', Returns w.tick (w', dueOf w.mem (ls (w.curSlot + 1))) ∧
      w'.Rep (Function.update ls (w.curSlot + 1) (keptOf w.mem (ls (w.curSlot + 1)))) ∧
      w'.curSlot = w.curSlot + 1 ∧ Walked w.mem (ls (w.curSlot + 1)) w'.mem := by
  obtain ⟨w', hret, hl', hslot, hw⟩ := hr.toLinked.tick_spec
  refine ⟨w', hret, hl'.placed hr (fun x hx => (List.mem_filter.mp hx).1) ?_, hslot, hw⟩
  intro j x hx v hv
  rcases eq_or_ne j (w.curSlot + 1) with rfl | hj
  · rw [Function.update_self] at hx
    exact ⟨_, hw.val_kept x hx v hv, rfl⟩
  · rw [Function.update_of_ne hj] at hx
    exact ⟨v, (hw.val_other x fun hm => hj (hr.slot_unique hx hm)).trans hv, rfl⟩

end TimerWheel

end Ulsp
