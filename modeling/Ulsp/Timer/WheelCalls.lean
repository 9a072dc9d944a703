import Ulsp.Timer.WheelOps

/-!
# Single calls of the timer wheel

What a call of `tick`, `adjust_timer` or `del_timer` does to a wheel in any state. `tick` needs only that
the lists are linked (`tick_transforms`). `adjust_timer` adds the timer with the links that the removal
left in it, and `add_timer` writes at most one of them: the timer has to be the first of its list, so that
its back link is null, and where the slot it goes to is empty it has to be the last one, too
(`adjust_moves_iff`). The search of `del_timer` compares with the timer before it tests for the end, so
that it follows the null link behind a list that the timer is not on (`unknown_not_rejected`).
-/

namespace Ulsp

open Lib

namespace TimerWheel

open NodeStore

variable {w w' : TimerWheel} {ls : Fin 60 → List Ptr} {t : Ptr} {i j : Fin 60}
  {o : Node Ptr TwTimer}

/-! ## `tick` -/

/-- On every wheel whose slots are linked lists, `tick` moves on to the next slot and runs the callbacks
of exactly the timers there whose `rotation` is not positive, each once and in the order of the list. The
others remain, in their order and linked, with their `rotation` lowered by one; the other slots and their
timers are as they were, and `count` drops by the number of timers fired. -/
theorem tick_transforms (hl : w.Linked ls) : ∃ w',
    Returns w.tick (w', (ls (w.curSlot + 1)).filter fun t => rotationOf w.mem t ≤ 0) ∧
    ((ls (w.curSlot + 1)).filter fun t => rotationOf w.mem t ≤ 0).Nodup ∧
    w'.curSlot = w.curSlot + 1 ∧
    w'.Linked (Function.update ls (w.curSlot + 1)
      ((ls (w.curSlot + 1)).filter fun t => 0 < rotationOf w.mem t)) ∧
    (∀ t ∈ ls (w.curSlot + 1), ∀ v, w.mem.valOf t = some v → 0 < v.rotation →
      w'.mem.valOf t = some { v with rotation := v.rotation - 1 }) ∧
    (∀ i, i ≠ w.curSlot + 1 → w'.slots i = w.slots i ∧ ∀ t ∈ ls i, w'.mem t = w.mem t) ∧
    w'.count = w.count - ((ls (w.curSlot + 1)).filter fun t => rotationOf w.mem t ≤ 0).length := by
  obtain ⟨w', hret, hl', hcur, hw⟩ := hl.tick_spec
  refine ⟨w', hret, (hl.nodup _).filter _, hcur, hl', ?_, ?_, ?_⟩
  · intro t ht v hv hpos
    exact hw.val_kept t (List.mem_filter.mpr ⟨ht, by simpa [rotationOf_of_some hv] using hpos⟩) v hv
  · intro i hi
    have hchain := hl'.linked i
    rw [Function.update_of_ne hi] at hchain
    refine ⟨hchain.fwd.head?.symm.trans (hl.linked i).fwd.head?, ?_⟩
    intro t ht
    obtain ⟨hn, hp⟩ := (hl.linked i).links_eq hchain ht
    exact eq_of_reads hn hp (hw.val_other t fun hm => hi (hl.apart i _ t ht hm))
  · have hcount := hl'.count
    rw [sum_length_update, ← hl.count] at hcount
    have hsplit := (ls (w.curSlot + 1)).length_eq_length_filter_add fun t => rotationOf w.mem t ≤ 0
    have hkept : ((ls (w.curSlot + 1)).filter fun t => !decide (rotationOf w.mem t ≤ 0)) =
        keptOf w.mem (ls (w.curSlot + 1)) := List.filter_congr
          fun t _ => by simp only [← decide_not, not_le]
    rw [hkept] at hsplit
    omega

/-- A wheel with the timers `ts` in slot `1`, and the wheel before the first slot. -/
theorem linked_one (mem : NodeStore Ptr TwTimer) (p : Option Ptr) (ts : List Ptr)
    (hchain : DChain mem.nextOf mem.prevOf p ts) (halive : ∀ t ∈ ts, ∃ v, mem.valOf t = some v) :
    Linked ⟨Function.update (fun _ => none) 1 p, 0, ts.length, mem, 0⟩
      (Function.update (fun _ => []) 1 ts) := by
  refine (empty_rep mem 0).toLinked.replace 1 (fun j hj => by simp [empty, hj])
    (by simp) (by simp) (by simp) (by simpa using hchain) halive (by simp) (by simp [empty])

/-- The first and the second of three timers fire, and the third has one more round to go. -/
theorem tick_transforms_three : ∃ (w w' : TimerWheel) (ls : Fin 60 → List Ptr), ls 1 = [1, 2, 3] ∧
    w.Linked ls ∧ Returns w.tick (w', [1, 2]) ∧ w'.count = 1 := by
  let mem : NodeStore Ptr TwTimer := fun p =>
    if p = 1 then some ⟨⟨5, 0, 1⟩, none, some 2⟩
    else if p = 2 then some ⟨⟨5, 0, 1⟩, some 1, some 3⟩
    else if p = 3 then some ⟨⟨70, 1, 1⟩, some 2, none⟩ else none
  have hl := linked_one mem (some 1) [1, 2, 3]
    ⟨⟨rfl, rfl, rfl, rfl⟩, rfl, rfl, rfl, trivial⟩ (by simp [mem, valOf])
  obtain ⟨w', hret, -, -, -, -, -, hcount⟩ := tick_transforms hl
  exact ⟨_, w', _, rfl, hl, hret, hcount⟩

/-- A timer that is added with an expiry 119 seconds in the past, in the last slot, goes to the first slot
with `rotation` -1, and the next tick fires it. -/
theorem tick_fires_overdue : ∃ (w₀ w w' : TimerWheel) (ls : Fin 60 → List Ptr),
    w₀.Linked (fun _ => []) ∧ w₀.addTimer 119 (some 7) = some w ∧ w.Linked ls ∧
    rotationOf w.mem 7 = -1 ∧ Returns w.tick (w', [7]) ∧
    ¬∃ w'', Returns w.tick (w'', (ls (w.curSlot + 1)).filter fun t => rotationOf w.mem t = 0) := by
  let mem : NodeStore Ptr TwTimer := Function.update (fun _ => none) 7 (some (TwTimer.fresh 0))
  let w₀ : TimerWheel := { empty mem 0 with curSlot := 59 }
  have hr₀ : w₀.Rep fun _ => [] := (empty_rep mem 0).setSlot 59
  have hdue : addInt w₀.curSlot.val (ticksTo (TwTimer.fresh 0).val.expire 119) = some (-60) := rfl
  have hobj : w₀.mem 7 = some (TwTimer.fresh 0) := by simp [w₀, mem, empty]
  obtain ⟨w, hadd, hr, hcur, hval⟩ :=
    addTimer_spec (i := 0) hr₀ (by simp) hobj rfl (fun _ => rfl) hdue rfl
  have hrot : rotationOf w.mem 7 = -1 := by
    rw [rotationOf, hval, Function.update_self]
    rfl
  have hslot : w.curSlot + 1 = 0 := by
    rw [hcur]
    rfl
  obtain ⟨w', hret, -⟩ := tick_transforms hr.toLinked
  have hfired : ([7] : List Ptr).filter (fun t => rotationOf w.mem t ≤ 0) = [7] := by simp [hrot]
  have hzero : ([7] : List Ptr).filter (fun t => rotationOf w.mem t = 0) = [] := by simp [hrot]
  simp only [hslot, Function.update_self, hfired] at hret
  refine ⟨w₀, w, w', _, hr₀.toLinked, hadd, hr.toLinked, hrot, hret, ?_⟩
  rintro ⟨w'', hret'⟩
  simp only [hslot, Function.update_self, hzero] at hret'
  cases congrArg Prod.snd (hret.unique hret')

/-! ## `adjust_timer` -/

/-- The slot that `add_timer` computes for a timer. -/
def slotFor (w : TimerWheel) (expire now : ℤ) : Option (Fin 60) := do
  let due ← addInt w.curSlot.val (ticksTo expire now)
  slotAt (due.tmod N)

/-- The lists without the timer `t` of slot `i`. -/
def without (ls : Fin 60 → List Ptr) (i : Fin 60) (t : Ptr) : Fin 60 → List Ptr :=
  Function.update ls i ((ls i).erase t)

/-- The lists with the timer `t` moved from slot `i` to the head of slot `j`. -/
def moved (ls : Fin 60 → List Ptr) (i j : Fin 60) (t : Ptr) : Fin 60 → List Ptr :=
  Function.update (without ls i t) j (t :: without ls i t j)

theorem Rep.not_mem_without (hr : w.Rep ls) (ht : t ∈ ls i) (j : Fin 60) : t ∉ without ls i t j := by
  rw [without]
  rcases eq_or_ne j i with rfl | hj
  · rw [Function.update_self]
    exact (hr.nodup j).not_mem_erase
  · rw [Function.update_of_ne hj]
    exact fun hm => hj (hr.slot_unique hm ht)

/-- `setExpire` of a stored timer and the removal in `adjust_timer`: the timer has its new expiry, and
keeps its links. -/
theorem Rep.setExpire_delTimer (hr : w.Rep ls) (ht : t ∈ ls i) (expire : ℤ) :
    ∃ w₁ w₂, w.setExpire t expire = some w₁ ∧ Returns (w₁.delTimer (some t)) w₂ ∧
      w₂.Rep (without ls i t) ∧ w₂.curSlot = w.curSlot ∧ w₂.mem.nextOf t = w.mem.nextOf t ∧
      w₂.mem.prevOf t = w.mem.prevOf t ∧ (∃ o, w₂.mem t = some o ∧ o.val.expire = expire) ∧
      ∀ u, u ≠ t → w₂.mem.valOf u = w.mem.valOf u := by
  obtain ⟨v, hv, -⟩ := hr.placed i t ht
  obtain ⟨o, ho, rfl⟩ := exists_of_valOf hv
  obtain ⟨m, hm, hr₁, hn, hp, hval⟩ := hr.setExpire hv expire
  obtain ⟨w₂, hret, hr₂, hcur, hval₂, hn₂, hp₂⟩ := delTimer_spec hr₁ ht
  have htv : w₂.mem.valOf t = some { o.val with expire := expire } := by
    rw [hval₂, hval, Function.update_self]
  obtain ⟨o₂, ho₂, heq⟩ := exists_of_valOf htv
  refine ⟨_, w₂, by simp [TimerWheel.setExpire, ho, hm], hret, hr₂, hcur, by rw [hn₂, hn],
    by rw [hp₂, hp], ⟨o₂, ho₂, by rw [heq]⟩, ?_⟩
  intro u hu
  rw [hval₂, hval, Function.update_of_ne hu]

/-- `adjust_timer` is `add_timer` after the removal. -/
theorem adjustTimer_iff {w₁ w₂ : TimerWheel} {now : ℤ} (hret : Returns (w₁.delTimer (some t)) w₂) :
    Returns (w₁.adjustTimer now (some t)) w' ↔ w₂.addTimer now (some t) = some w' := by
  refine ⟨fun ⟨n, hn⟩ => ?_, ?_⟩
  · obtain ⟨m, hm⟩ := hret
    have hrun := hn (max n m) (le_max_left _ _)
    simpa [adjustTimer, hm _ (le_max_right n m)] using hrun
  · intro hadd
    obtain ⟨m, hm⟩ := hret
    exact ⟨m, fun fuel hf => by simp [adjustTimer, hm fuel hf, hadd]⟩

/-- Moving a timer does not change their number. -/
theorem sum_length_moved (ht : t ∈ ls i) (j : Fin 60) :
    ∑ k, ((moved ls i j t k).length : ℤ) = ∑ k, ((ls k).length : ℤ) := by
  have hlen := List.length_erase_of_mem ht
  have hpos := List.length_pos_of_mem ht
  rw [moved, sum_length_update, List.length_cons, without, sum_length_update]
  omega

/-- `adjust_timer` of a stored timer with a new expiry leaves a wheel in which that timer is at the head of
the slot, and has the `rotation`, that `add_timer` computes, and all the others are where they were, if and
only if there is such a slot, the timer was the first of its list, and it was alone there or the slot that
it goes to has another timer. -/
theorem adjust_moves_iff (hr : w.Rep ls) (ht : t ∈ ls i) (expire now : ℤ) :
    (∃ w₁ w' j, w.setExpire t expire = some w₁ ∧ Returns (w₁.adjustTimer now (some t)) w' ∧
      w.slotFor expire now = some j ∧ w'.Rep (moved ls i j t) ∧
      w'.mem.valOf t = some ⟨expire, (ticksTo expire now).tdiv 60, j.val⟩ ∧
      (∀ u, u ≠ t → w'.mem.valOf u = w.mem.valOf u) ∧ w'.count = w.count) ↔
    ∃ j, w.slotFor expire now = some j ∧ (ls i).head? = some t ∧
      (ls i = [t] ∨ without ls i t j ≠ []) := by
  obtain ⟨w₁, w₂, hset, hdel, hr₂, hcur, hnext, hprev, ⟨o, ho, rfl⟩, hvals⟩ :=
    hr.setExpire_delTimer ht expire
  have hout := hr.not_mem_without ht
  constructor
  · rintro ⟨w₁', w', j, hset', hret, hslot, hr', -⟩
    obtain rfl := Option.some.inj (hset.symm.trans hset')
    obtain ⟨due, hdue, hj⟩ := Option.bind_eq_some_iff.mp hslot
    obtain ⟨m, hadd, -, hnt, -, -, hp⟩ := addTimer_run hr₂ hout ho (hcur ▸ hdue) hj
    obtain rfl := Option.some.inj (hadd.symm.trans ((adjustTimer_iff hdel).mp hret))
    have hchain : DChain m.nextOf m.prevOf (some t) (t :: without ls i t j) := by
      simpa [moved, resetTimer] using hr'.linked j
    have hnot : w₂.slots j ≠ some t := fun he =>
      hout j (List.mem_of_mem_head? ((hr₂.linked j).fwd.head?.trans he))
    -- the back link of `t` is the one it had in its old list
    have hfirst : (ls i).head? = some t :=
      (hr.linked i).first_of_prev ht (by rw [← hprev, ← hp t hnot]; exact hchain.bwd.1)
    refine ⟨j, hslot, hfirst, ?_⟩
    rcases eq_or_ne (without ls i t j) [] with hnil | hne
    · -- and so is its forward link, when there is no other timer in the slot
      obtain ⟨bs, hls⟩ := List.head?_eq_some_iff.mp hfirst
      have hlast : w.mem.nextOf t = none := by
        rw [if_pos hnil] at hnt
        rw [← hnext, ← hnt]
        simpa [hnil] using hchain.fwd.2
      have hbs := (show Chain w.mem.nextOf (w.slots i) ([] ++ t :: bs) from
        hls ▸ (hr.linked i).fwd).next_mid
      rw [hlast] at hbs
      exact .inl (by rw [hls, List.head?_eq_none_iff.mp hbs.symm])
    · exact .inr hne
  · rintro ⟨j, hslot, hfirst, hlone⟩
    obtain ⟨due, hdue, hj⟩ := Option.bind_eq_some_iff.mp hslot
    have hback : o.prev = none := by
      rw [← prevOf_of_some ho, hprev]
      exact (hr.linked i).prev_first hfirst
    have hforth : without ls i t j = [] → o.next = none := fun hnil => by
      have hls := hlone.resolve_right (absurd hnil)
      rw [← nextOf_of_some ho, hnext]
      exact (show Chain w.mem.nextOf (w.slots i) ([] ++ [t]) from hls ▸ (hr.linked i).fwd).next_last
    obtain ⟨w', hadd, hr', -, hval⟩ := addTimer_spec hr₂ hout ho hback hforth (hcur ▸ hdue) hj
    refine ⟨w₁, w', j, hset, (adjustTimer_iff hdel).mpr hadd, hslot, hr', ?_, ?_, ?_⟩
    · rw [hval, Function.update_self]
    · intro u hu
      rw [hval, Function.update_of_ne hu, hvals u hu]
    · rw [hr'.count, hr.count]
      exact sum_length_moved ht j

/-- Two timers in slot `1`, where they expire after a second. -/
def twoTimers : NodeStore Ptr TwTimer := fun p =>
  if p = 1 then some ⟨⟨1, 0, 1⟩, none, some 2⟩ else if p = 2 then some
    ⟨⟨1, 0, 1⟩, some 1, none⟩ else none

theorem twoTimers_rep : Rep ⟨Function.update (fun _ => none) 1 (some 1), 0, 2, twoTimers, 0⟩
    (Function.update (fun _ => []) 1 [1, 2]) := by
  have hl := linked_one twoTimers (some 1) [1, 2]
    ⟨⟨rfl, rfl, rfl⟩, rfl, rfl, trivial⟩ (by simp [twoTimers, valOf])
  refine hl.toRep ?_
  intro i t ht
  rcases eq_or_ne i 1 with rfl | hi
  · rw [Function.update_self] at ht
    simp only [List.mem_cons, List.not_mem_nil, or_false] at ht
    rcases ht with rfl | rfl <;> exact ⟨_, rfl, rfl⟩
  · simp [hi] at ht

/-- The first of two timers, with the same expiry as before. -/
theorem adjust_moves_iff_two : ∃ (w w₁ w' : TimerWheel) (ls : Fin 60 → List Ptr) (j : Fin 60),
    w.Rep ls ∧ ls 1 = [1, 2] ∧ w.setExpire 1 1 = some w₁ ∧ Returns (w₁.adjustTimer 0 (some 1)) w' ∧
    w'.Rep (moved ls 1 j 1) ∧ w'.count = 2 := by
  have hcond : without (Function.update (fun _ => []) 1 [1, 2]) 1 1 1 ≠ [] := by simp [without]
  obtain ⟨w₁, w', j, hset, hret, -, hr', -, -, hcount⟩ :=
    (adjust_moves_iff (t := 1) (i := 1) twoTimers_rep (by simp) 1 0).mpr
      ⟨1, by decide, rfl, .inr hcond⟩
  exact ⟨_, w₁, w', _, j, twoTimers_rep, rfl, hset, hret, hr', hcount⟩

/-- The second of two timers keeps its back link to the first one, and no lists represent the wheel. -/
theorem adjust_leaves_stale_link : ∃ (w w₁ w' : TimerWheel) (ls : Fin 60 → List Ptr),
    w.Rep ls ∧ ls 1 = [1, 2] ∧ w.setExpire 2 5 = some w₁ ∧ Returns (w₁.adjustTimer 0 (some 2)) w' ∧
    w'.mem.prevOf 2 = some 1 ∧ ∀ ls', ¬w'.Rep ls' := by
  have hr := twoTimers_rep
  have ht : 2 ∈ Function.update (fun _ : Fin 60 => ([] : List Ptr)) 1 [1, 2] 1 := by simp
  obtain ⟨w₁, w₂, hset, hdel, hr₂, hcur, -, hprev, ⟨o, ho, hexp⟩, -⟩ := hr.setExpire_delTimer ht 5
  have hdue : addInt w₂.curSlot.val (ticksTo o.val.expire 0) = some 5 := by
    rw [hcur, hexp]
    decide
  obtain ⟨m, hadd, -, -, -, -, hp⟩ := addTimer_run (i := 5) hr₂ (hr.not_mem_without ht) ho hdue rfl
  have hnil : w₂.slots 5 = none := (hr₂.linked 5).fwd.head?.symm.trans (by simp [without])
  have hback : m.prevOf 2 = some 1 := by rw [hp 2 (by simp [hnil]), hprev]; rfl
  refine ⟨_, w₁, _, _, hr, rfl, hset, (adjustTimer_iff hdel).mpr hadd, hback, ?_⟩
  intro ls' hr'
  have hhead : (ls' 5).head? = some 2 := (hr'.linked 5).fwd.head?
  cases hback.symm.trans ((hr'.linked 5).prev_first hhead)

/-! ## `del_timer` -/

/-- The search of `del_timer` for a timer that is not on the list arrives at the null link behind it. -/
theorem seek_off {p : Option Ptr} {ts : List Ptr} (hchain : Chain w.mem.nextOf p ts)
    (halive : ∀ x ∈ ts, ∃ v, w.mem.valOf x = some v) (ht : t ∉ ts) (fuel : ℕ) :
    w.seek t (fuel + ts.length) p = w.seek t fuel none := by
  induction ts generalizing p with
  | nil =>
    obtain rfl : p = none := hchain
    rfl
  | cons x ts ih =>
    obtain ⟨rfl, hrest⟩ := hchain
    obtain ⟨v, hv⟩ := halive x List.mem_cons_self
    obtain ⟨node, hnode, -⟩ := exists_of_valOf hv
    have hne : x ≠ t := fun he => ht (he ▸ List.mem_cons_self)
    have hstep := ih hrest (fun y hy => halive y (List.mem_cons_of_mem _ hy))
      (List.not_mem_of_not_mem_cons ht)
    rw [nextOf_of_some hnode] at hstep
    simpa [seek, hne, hnode, ← Nat.add_assoc] using hstep

/-- Whatever the lists of a wheel, `del_timer` of a timer object that is not on the list of its `slot_idx`
never returns: it fails with every bound on its passes, its search having followed the list of that slot,
if there is one, to the null link at its end, which it then follows. -/
theorem unknown_not_rejected (hl : w.Linked ls) (ho : w.mem t = some o)
    (hnot : ∀ i, slotAt o.val.slotIdx = some i → t ∉ ls i) :
    (¬∃ w', Returns (w.delTimer (some t)) w') ∧ (∀ fuel, w.delTimer (some t) fuel = none) ∧
      ∀ i, slotAt o.val.slotIdx = some i → ∀ fuel,
        w.seek t (fuel + (ls i).length) (w.slots i) = w.seek t fuel none := by
  have hnone : ∀ fuel, w.delTimer (some t) fuel = none := fun fuel => by
    by_contra hsome
    obtain ⟨w', hw'⟩ := Option.ne_none_iff_exists'.mp hsome
    simp only [delTimer, Option.bind_eq_bind, Option.bind_eq_some_iff] at hw'
    obtain ⟨o', ho', i, hi, cur, hseek, -⟩ := hw'
    obtain rfl := Option.some.inj (ho.symm.trans ho')
    exact hnot i hi (mem_of_seek (hl.linked i).fwd hseek)
  refine ⟨?_, hnone, ?_⟩
  · rintro ⟨w', n, hn⟩
    cases (hnone n).symm.trans (hn n le_rfl)
  · intro i hi fuel
    exact seek_off (hl.linked i).fwd (hl.alive i) (hnot i hi) fuel

/-- A timer object that says that it is in slot `1`, where two others are. -/
theorem unknown_not_rejected_two : ∃ (w : TimerWheel) (ls : Fin 60 → List Ptr), w.Linked ls ∧
    ls 1 = [1, 2] ∧ w.mem 3 = some ⟨⟨1, 0, 1⟩, none, none⟩ ∧
    (¬∃ w', Returns (w.delTimer (some 3)) w') ∧ w.seek 3 2 (w.slots 1) = none := by
  have hnot : ∀ i, 3 ∉ Function.update (fun _ : Fin 60 => ([] : List Ptr)) 1 [1, 2] i := by
    intro i
    rcases eq_or_ne i 1 with rfl | hi
    · simp
    · simp [hi]
  have hl := (twoTimers_rep.update hnot (some ⟨⟨1, 0, 1⟩, none, none⟩)).toLinked
  obtain ⟨hnone, -, hseek⟩ := unknown_not_rejected hl (Function.update_self ..) fun i _ => hnot i
  exact ⟨_, _, hl, rfl, rfl, hnone, hseek 1 rfl 0⟩

/-- `del_timer` of the second of two timers, twice: the second call follows the null link. -/
theorem deleted_twice : ∃ (w w' : TimerWheel) (ls ls' : Fin 60 → List Ptr), w.Rep ls ∧ ls 1 = [1, 2] ∧
    Returns (w.delTimer (some 2)) w' ∧ w'.Rep ls' ∧ ¬∃ w'', Returns (w'.delTimer (some 2)) w'' := by
  have hr := twoTimers_rep
  have ht : 2 ∈ Function.update (fun _ : Fin 60 => ([] : List Ptr)) 1 [1, 2] 1 := by simp
  obtain ⟨w', hret, hr', -⟩ := delTimer_spec hr ht
  refine ⟨_, w', _, _, hr, rfl, hret, hr', ?_⟩
  rintro ⟨w'', n, hn⟩
  obtain ⟨i, hi⟩ := mem_of_delTimer hr' (hn n le_rfl)
  exact hr.not_mem_without ht i hi

end TimerWheel

end Ulsp
