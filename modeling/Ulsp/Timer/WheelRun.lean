import Mathlib.Algebra.Order.BigOperators.Group.Finset
import Ulsp.Lib.Run
import Ulsp.Timer.WheelOps

/-!
# When a timer of the wheel fires

The clients of a wheel construct timer objects, set their expiry, add and delete them, and the clock
ticks. A stored timer fires in the tick that its slot's distance from the current slot and its
`rotation` give (`dueIn`); every tick brings that one nearer and nothing else changes it. This is
the tick it was added for, except where the timeout is a positive multiple of `N`: there
`add_timer` computes a rotation for the round that the timer's own slot ends, too, and the timer
fires one round late.
-/

namespace Ulsp

open Lib

/-- What happens to a wheel. The timers that a `tick` fires are part of the event. -/
inductive WheelOp where
  | new (t : Ptr) (expire : ℤ)
  | setExpire (t : Ptr) (expire : ℤ)
  | add (t : Ptr) (now : ℤ)
  | del (t : Ptr)
  | tick (fired : List Ptr)

/-- The timer that an operation constructs, adds or deletes. -/
def WheelOp.timer : WheelOp → Option Ptr
  | new t _ => some t
  | setExpire _ _ => none
  | add t _ => some t
  | del t => some t
  | tick _ => none

/-- The ticks among the events, with the timers each one fired. -/
def WheelOp.ticks (ops : List WheelOp) : List (List Ptr) :=
  ops.filterMap fun op => match op with
    | tick fired => some fired
    | _ => none

@[simp] theorem WheelOp.ticks_append (as bs : List WheelOp) :
    ticks (as ++ bs) = ticks as ++ ticks bs := List.filterMap_append

@[simp] theorem WheelOp.ticks_tick (fired : List Ptr) : ticks [.tick fired] = [fired] := rfl

theorem WheelOp.ticks_other {op : WheelOp} (h : ∀ f, op ≠ .tick f) : ticks [op] = [] := by
  cases op with
  | tick fired => exact absurd rfl (h fired)
  | _ => rfl

namespace TimerWheel

open NodeStore

/-- The wheel keeps the timer `t`. -/
def Stored (w : TimerWheel) (t : Ptr) : Prop :=
  ∃ i ts, Chain w.mem.nextOf (w.slots i) ts ∧ t ∈ ts

/-- The steps of a wheel. The constructor's address is not that of a stored timer, and a client
adds no stored timer. -/
inductive Step (w : TimerWheel) : WheelOp → TimerWheel → Prop
  | new (t : Ptr) (e : ℤ) : ¬w.Stored t →
    Step w (.new t e) { w with mem := Function.update w.mem t (some (TwTimer.fresh e)) }
  | setExpire (t : Ptr) (e : ℤ) (m : NodeStore Ptr TwTimer) (v : TwTimer) : w.mem.valOf t = some v →
    w.mem.setVal t { v with expire := e } = some m → Step w (.setExpire t e) { w with mem := m }
  | add (t : Ptr) (now : ℤ) (w' : TimerWheel) : ¬w.Stored t → w.addTimer now (some t) = some w' →
    Step w (.add t now) w'
  | del (t : Ptr) (w' : TimerWheel) : Returns (w.delTimer (some t)) w' → Step w (.del t) w'
  | tick (w' : TimerWheel) (fired : List Ptr) : Returns w.tick (w', fired) → Step w (.tick fired) w'

/-- Only timers with null links are added, as every newly constructed one. -/
def NullLinks (w : TimerWheel) : WheelOp → Prop
  | .add t _ => w.mem.nextOf t = none ∧ w.mem.prevOf t = none
  | _ => True

/-- The steps that add timers with null links only. -/
abbrev CleanStep : TimerWheel → WheelOp → TimerWheel → Prop := Guarded Step NullLinks

variable {w w' : TimerWheel} {ls : Fin 60 → List Ptr} {t : Ptr} {i cur : Fin 60} {op : WheelOp}
  {ops : List WheelOp} {d n : ℕ} {r : ℤ}

theorem Rep.stored_iff (hr : w.Rep ls) : w.Stored t ↔ ∃ i, t ∈ ls i := by
  constructor
  · rintro ⟨i, ts, hchain, ht⟩
    exact ⟨i, hchain.unique (hr.linked i).fwd ▸ ht⟩
  · rintro ⟨i, ht⟩
    exact ⟨i, ls i, (hr.linked i).fwd, ht⟩

theorem Rep.not_stored (hr : w.Rep ls) (ht : ∀ i, t ∉ ls i) : ¬w.Stored t := by
  rw [hr.stored_iff]
  rintro ⟨i, hi⟩
  exact ht i hi

/-- An operation other than a tick keeps the invariant and leaves alone the timers it is not
about. -/
theorem Rep.other_step (hr : w.Rep ls) (hstep : CleanStep w op w') (hop : ∀ f, op ≠ .tick f) :
    ∃ ls', w'.Rep ls' ∧ w'.curSlot = w.curSlot ∧ ∀ u, op.timer ≠ some u →
      (∀ i, u ∈ ls' i ↔ u ∈ ls i) ∧ rotationOf w'.mem u = rotationOf w.mem u := by
  obtain ⟨hstep, hclean⟩ := hstep
  cases hstep with
  | new t e ht =>
    have hnot : ∀ i, t ∉ ls i := fun i hi => ht (hr.stored_iff.mpr ⟨i, hi⟩)
    refine ⟨ls, hr.update hnot _, rfl, fun u hu => ⟨fun _ => Iff.rfl, ?_⟩⟩
    have hne : u ≠ t := fun he => hu (by rw [he]; rfl)
    rw [rotationOf, (update_of_ne hne _).2.2, rotationOf]
  | setExpire t e m v hv hm =>
    obtain ⟨m', hm', hr', -, -, hval⟩ := hr.setExpire hv e
    obtain rfl := Option.some.inj (hm.symm.trans hm')
    refine ⟨ls, hr', rfl, fun u _ => ⟨fun _ => Iff.rfl, ?_⟩⟩
    rcases eq_or_ne u t with rfl | hne
    · rw [rotationOf_of_some hv, rotationOf, hval, Function.update_self]
      rfl
    · rw [rotationOf, hval, Function.update_of_ne hne, rotationOf]
  | add t now w' ht hadd =>
    have hnot : ∀ i, t ∉ ls i := fun i hi => ht (hr.stored_iff.mpr ⟨i, hi⟩)
    obtain ⟨o, due, i, ho, hdue, hslot⟩ := of_addTimer hadd
    have hnext : o.next = none := (nextOf_of_some ho).symm.trans hclean.1
    have hprev : o.prev = none := (prevOf_of_some ho).symm.trans hclean.2
    obtain ⟨w'', hrun, hr', hcur, hval⟩ := addTimer_spec hr hnot ho hprev (fun _ => hnext) hdue hslot
    obtain rfl := Option.some.inj (hadd.symm.trans hrun)
    refine ⟨_, hr', hcur, fun u hu => ⟨?_, ?_⟩⟩
    · intro j
      have hne : u ≠ t := fun he => hu (by rw [he]; rfl)
      rcases eq_or_ne j i with rfl | hj <;> simp [*]
    · have hne : u ≠ t := fun he => hu (by rw [he]; rfl)
      rw [rotationOf, hval, Function.update_of_ne hne, rotationOf]
  | del t w' hdel =>
    have hdel' := hdel
    obtain ⟨k, hk⟩ := hdel'
    obtain ⟨i, ht⟩ := mem_of_delTimer hr (hk k le_rfl)
    obtain ⟨w'', hrun, hr', hcur, hval, -⟩ := delTimer_spec hr ht
    obtain rfl := hdel.unique hrun
    refine ⟨_, hr', hcur, fun u hu => ⟨?_, by rw [rotationOf, hval, rotationOf]⟩⟩
    intro j
    have hne : u ≠ t := fun he => hu (by rw [he]; rfl)
    rcases eq_or_ne j i with rfl | hj
    · rw [Function.update_self, List.mem_erase_of_ne hne]
    · rw [Function.update_of_ne hj]
  | tick w' fired _ => exact absurd rfl (hop fired)

/-! ## The tick a timer is due in -/

/-- The ticks until a timer in slot `i` fires, with the wheel in slot `cur` and `r` its
`rotation`. -/
def dueIn (cur i : Fin 60) (r : ℤ) : ℕ := (59 - cur.val + i.val) % 60 + 1 + 60 * r.toNat

/-- A timer in another slot than the next is one tick nearer after it. -/
theorem dueIn_other (h : i ≠ cur + 1) (r : ℤ) : dueIn cur i r = dueIn (cur + 1) i r + 1 := by
  have hdist : (59 - cur.val + i.val) % 60 = (59 - (cur + 1).val + i.val) % 60 + 1 := by
    rw [Fin.ne_iff_vne] at h
    simp only [Fin.add_def] at *
    omega
  rw [dueIn, dueIn, hdist]
  omega

/-- A timer in the next slot with rounds to go is one tick nearer after it. -/
theorem dueIn_pass (cur : Fin 60) (h : 0 < r) :
    dueIn cur (cur + 1) r = dueIn (cur + 1) (cur + 1) (r - 1) + 1 := by
  have hround : (59 - (cur + 1).val + (cur + 1).val) % 60 = 59 := by omega
  have hhere : (59 - cur.val + (cur + 1).val) % 60 = 0 := by
    simp only [Fin.add_def]
    omega
  rw [dueIn, dueIn, hround, hhere]
  omega

/-- A timer in the next slot with no rounds to go is due in its tick. -/
theorem dueIn_due (h : r ≤ 0) : dueIn cur (cur + 1) r = 1 := by
  have hhere : (59 - cur.val + (cur + 1).val) % 60 = 0 := by
    simp only [Fin.add_def]
    omega
  rw [dueIn, hhere, Int.toNat_of_nonpos h]

/-- The timer `t` is to fire in the `d`-th tick from now; at `0` it is not stored. -/
def Awaits (w : TimerWheel) (t : Ptr) : ℕ → Prop
  | 0 => ∃ ls, w.Rep ls ∧ ∀ i, t ∉ ls i
  | d + 1 => ∃ ls i, w.Rep ls ∧ t ∈ ls i ∧ dueIn w.curSlot i (rotationOf w.mem t) = d + 1

theorem Rep.awaits (hr : w.Rep ls) (ht : t ∈ ls i)
    (hd : dueIn w.curSlot i (rotationOf w.mem t) = d) : w.Awaits t d := by
  cases d with
  | zero => exact absurd hd (Nat.succ_ne_zero _ ∘ (Nat.add_right_comm _ _ _).symm.trans)
  | succ d => exact ⟨ls, i, hr, ht, hd⟩

/-- A tick fires the timers due in it, once, and brings the others one nearer. -/
theorem Awaits.tick (h : w.Awaits t d) : ∃ w' fired, Returns w.tick (w', fired) ∧
    fired.count t = (if d = 1 then 1 else 0) ∧ w'.Awaits t (d - 1) := by
  cases d with
  | zero =>
    obtain ⟨ls, hr, ht⟩ := h
    obtain ⟨w', hrun, hr', -, -⟩ := tick_spec hr
    refine ⟨w', _, hrun, List.count_eq_zero.mpr fun hm => ht _ (List.mem_filter.mp hm).1, _, hr',
      ?_⟩
    intro i
    rcases eq_or_ne i (w.curSlot + 1) with rfl | hi
    · rw [Function.update_self]
      exact fun hm => ht _ (List.mem_filter.mp hm).1
    · rw [Function.update_of_ne hi]
      exact ht i
  | succ d =>
    obtain ⟨ls, i, hr, ht, hd⟩ := h
    obtain ⟨w', hrun, hr', hcur, hw⟩ := tick_spec hr
    refine ⟨w', _, hrun, ?_⟩
    rcases eq_or_ne i (w.curSlot + 1) with rfl | hi
    · obtain ⟨v, hv, -⟩ := hr.placed _ t ht
      have hrot := rotationOf_of_some hv
      rcases lt_or_ge 0 (rotationOf w.mem t) with hpos | hneg
      · -- counted down
        have hkept : t ∈ keptOf w.mem (ls (w.curSlot + 1)) := List.mem_filter.mpr ⟨ht, by simpa⟩
        have hdue : t ∉ dueOf w.mem (ls (w.curSlot + 1)) := fun hm => by
          have := of_decide_eq_true (List.mem_filter.mp hm).2
          omega
        have hrot' : rotationOf w'.mem t = rotationOf w.mem t - 1 := by
          rw [rotationOf_of_some (hw.val_kept t hkept v hv), hrot]
        have hd' := dueIn_pass w.curSlot hpos
        have hmore : 0 < dueIn (w.curSlot + 1) (w.curSlot + 1) (rotationOf w.mem t - 1) := by
          rw [dueIn]; omega
        refine ⟨?_, hr'.awaits (i := w.curSlot + 1) (by simpa using hkept) ?_⟩
        · rw [List.count_eq_zero.mpr hdue, if_neg (by omega)]
        · rw [hcur, hrot']
          omega
      · -- fired
        have hdue : t ∈ dueOf w.mem (ls (w.curSlot + 1)) := List.mem_filter.mpr ⟨ht, by simpa⟩
        obtain rfl : d = 0 := by rw [dueIn_due hneg] at hd; omega
        refine ⟨List.count_eq_one_of_mem ((hr.nodup _).filter _) hdue, _, hr', ?_⟩
        intro j hj
        rcases eq_or_ne j (w.curSlot + 1) with rfl | hne
        · rw [Function.update_self] at hj
          have := of_decide_eq_true (List.mem_filter.mp hj).2
          omega
        · rw [Function.update_of_ne hne] at hj
          exact hne (hr.slot_unique hj ht)
    · -- not in this slot
      have hnot : t ∉ ls (w.curSlot + 1) := fun hm => hi (hr.slot_unique ht hm)
      have hrot' : rotationOf w'.mem t = rotationOf w.mem t := by
        rw [rotationOf, hw.val_other t hnot, rotationOf]
      have hd' := dueIn_other hi (rotationOf w.mem t)
      have hmore : 0 < dueIn (w.curSlot + 1) i (rotationOf w.mem t) := by rw [dueIn]; omega
      refine ⟨?_, hr'.awaits (i := i) (by rwa [Function.update_of_ne hi]) ?_⟩
      · rw [if_neg (by omega)]
        exact List.count_eq_zero.mpr fun hm => hnot (List.mem_filter.mp hm).1
      · rw [hcur, hrot']
        omega

/-- Only a tick, and what is about the timer itself, changes when it fires. -/
theorem Awaits.other_step (h : w.Awaits t d) (hstep : CleanStep w op w') (hop : ∀ f, op ≠ .tick f)
    (ht : op.timer ≠ some t) : w'.Awaits t d := by
  cases d with
  | zero =>
    obtain ⟨ls, hr, hnot⟩ := h
    obtain ⟨ls', hr', -, hsame⟩ := hr.other_step hstep hop
    exact ⟨ls', hr', fun i hi => hnot i (((hsame t ht).1 i).mp hi)⟩
  | succ d =>
    obtain ⟨ls, i, hr, hti, hd⟩ := h
    obtain ⟨ls', hr', hcur, hsame⟩ := hr.other_step hstep hop
    refine hr'.awaits (((hsame t ht).1 i).mpr hti) ?_
    rw [hcur, (hsame t ht).2, hd]

/-- Over a run without operations on the timer itself, it is fired in the tick it awaits and in no
other. -/
theorem Awaits.run (h : w.Awaits t d) (hrun : Run CleanStep w ops w')
    (ht : ∀ op ∈ ops, op.timer ≠ some t) : w'.Awaits t (d - (WheelOp.ticks ops).length) ∧
    ∀ k fired, (WheelOp.ticks ops)[k]? = some fired →
      fired.count t = if k + 1 = d then 1 else 0 := by
  induction hrun with
  | refl => exact ⟨h, by simp [WheelOp.ticks]⟩
  | @tail ops w₁ w₂ op hrun hstep ih =>
    obtain ⟨hawait, hcount⟩ := ih fun op' hop' => ht op' (List.mem_append_left _ hop')
    have htop := ht op (by simp)
    have hother : (∀ f, op ≠ .tick f) →
        w₂.Awaits t (d - (WheelOp.ticks (ops ++ [op])).length) ∧
        ∀ k fired, (WheelOp.ticks (ops ++ [op]))[k]? = some fired →
          fired.count t = if k + 1 = d then 1 else 0 := fun hop => by
      rw [WheelOp.ticks_append, WheelOp.ticks_other hop, List.append_nil]
      exact ⟨hawait.other_step hstep hop htop, hcount⟩
    cases op with
    | tick fired =>
      obtain ⟨w', fired', hret, hfired, hawait'⟩ := hawait.tick
      cases hstep.1 with
      | tick _ _ hret' =>
        obtain ⟨rfl, rfl⟩ := Prod.mk.inj (hret.unique hret')
        refine ⟨?_, ?_⟩
        · simpa [Nat.sub_sub] using hawait'
        · intro k f hk
          rw [WheelOp.ticks_append, WheelOp.ticks_tick] at hk
          rcases lt_or_ge k (WheelOp.ticks ops).length with hlt | hge
          · rw [List.getElem?_append_left hlt] at hk
            exact hcount k f hk
          · rw [List.getElem?_append_right hge] at hk
            obtain ⟨hz, rfl⟩ : k - (WheelOp.ticks ops).length = 0 ∧ fired' = f := by
              rcases hs : k - (WheelOp.ticks ops).length with _ | j
              · rw [hs] at hk; exact ⟨rfl, Option.some.inj hk⟩
              · rw [hs] at hk; cases hk
            rw [hfired]
            congr 1
            exact propext ⟨fun _ => by omega, fun _ => by omega⟩
    | _ => exact hother (by simp)

/-- The timer `t` is fired in the `d`-th tick from now and in no other, whatever happens to other
timers meanwhile, and the clock can always tick. -/
def OnTime (w : TimerWheel) (t : Ptr) (d : ℕ) : Prop :=
  ∀ ops w', Run CleanStep w ops w' → (∀ op ∈ ops, op.timer ≠ some t) →
    (∃ w'' fired, Returns w'.tick (w'', fired)) ∧
    ∀ k fired, (WheelOp.ticks ops)[k]? = some fired →
      fired.count t = if k + 1 = d then 1 else 0

/-- The clock can tick any number of times. -/
theorem Awaits.exists_ticks (h : w.Awaits t d) (n : ℕ) : ∃ ops w', Run CleanStep w ops w' ∧
    (∀ op ∈ ops, op.timer ≠ some t) ∧ (WheelOp.ticks ops).length = n := by
  induction n with
  | zero => exact ⟨[], w, .refl, by simp, rfl⟩
  | succ n ih =>
    obtain ⟨ops, w', hrun, hops, hlen⟩ := ih
    obtain ⟨w'', fired, hret, -⟩ := (h.run hrun hops).1.tick
    refine ⟨ops ++ [.tick fired], w'', hrun.tail ⟨.tick w'' fired hret, ?_⟩, ?_, by simp [hlen]⟩
    · trivial
    intro op hop
    rcases List.mem_append.mp hop with hop | hop
    · exact hops op hop
    · obtain rfl := List.mem_singleton.mp hop
      simp [WheelOp.timer]

/-- A timer is fired on time exactly when that is the tick it awaits. -/
theorem Awaits.onTime_iff (h : w.Awaits t d) (hd : 0 < d) :
    w.OnTime t n ↔ n = d := by
  constructor
  · intro hon
    obtain ⟨ops, w', hrun, hops, hlen⟩ := h.exists_ticks d
    have hk : d - 1 < (WheelOp.ticks ops).length := by omega
    have hget := List.getElem?_eq_getElem hk
    have hcount := (h.run hrun hops).2 _ _ hget
    rw [(hon ops w' hrun hops).2 _ _ hget, if_pos (by omega : d - 1 + 1 = d)] at hcount
    split at hcount <;> omega
  · rintro rfl ops w' hrun hops
    have hawait := h.run hrun hops
    obtain ⟨w'', fired, hret, -⟩ := hawait.1.tick
    exact ⟨⟨w'', fired, hret⟩, hawait.2⟩

/-! ## The tick a timer is added for -/

/-- The ticks to a timeout of `τ` seconds: what converts to `int`, and one for none. -/
theorem ticksTo_add (now : ℤ) (τ : ℕ) :
    ticksTo (now + τ) now = if toInt32 τ = 0 then 1 else toInt32 τ := by
  simp [ticksTo, SI]

/-- A timer added with a positive number of ticks is due in that many, and in a round more if they
are whole rounds. -/
theorem dueIn_added {T due : ℤ} (hT : 0 < T) (hdue : due = cur.val + T)
    (hi : due.tmod 60 = i.val) :
    (dueIn cur i (T.tdiv 60) : ℤ) = T + if T % 60 = 0 then 60 else 0 := by
  rw [hdue, Int.tmod_eq_emod_of_nonneg (by omega)] at hi
  rw [Int.tdiv_eq_ediv_of_nonneg hT.le, dueIn]
  have hcur := cur.isLt
  split <;> omega

/-- A timer added with a negative number of ticks fires in the first round. -/
theorem dueIn_added_neg (cur i : Fin 60) {T : ℤ} (hT : T < 0) : dueIn cur i (T.tdiv 60) ≤ 60 := by
  have hnonpos : T.tdiv 60 ≤ 0 := by
    have := Int.tdiv_nonneg (a := -T) (b := 60) (by omega) (by omega)
    rw [Int.neg_tdiv] at this
    omega
  rw [dueIn, Int.toNat_of_nonpos hnonpos]
  omega

/-- After `add_timer` the timer awaits the tick that its slot and rotation give. -/
theorem Rep.awaits_added (hr : w.Rep ls) (ht : ∀ i, t ∉ ls i) {o : Node Ptr TwTimer} (now : ℤ)
    {due : ℤ} (ho : w.mem t = some o) (hprev : o.prev = none) (hnext : o.next = none)
    (hdue : addInt w.curSlot.val (ticksTo o.val.expire now) = some due)
    (hslot : slotAt (due.tmod 60) = some i) : ∃ w', w.addTimer now (some t) = some w' ∧
      w'.Awaits t (dueIn w.curSlot i ((ticksTo o.val.expire now).tdiv 60)) := by
  obtain ⟨w', hrun, hr', hcur, hval⟩ := addTimer_spec hr ht ho hprev (fun _ => hnext) hdue hslot
  refine ⟨w', hrun, hr'.awaits (i := i) (by simp) ?_⟩
  rw [hcur, rotationOf, hval, Function.update_self]
  rfl

/-- Every state of a run from the empty wheel satisfies the invariant. -/
theorem rep_of_run {mem : NodeStore Ptr TwTimer} {a : ℕ} (h : Run CleanStep (empty mem a) ops w) :
    ∃ ls, w.Rep ls := by
  refine h.invariant (I := fun w => ∃ ls, w.Rep ls) ?_ ⟨_, empty_rep mem a⟩
  intro w op w' hr hstep
  obtain ⟨ls, hr⟩ := hr
  have hother : (∀ f, op ≠ .tick f) → ∃ ls, w'.Rep ls := fun hop =>
    (hr.other_step hstep hop).imp fun _ h => h.1
  cases op with
  | tick fired =>
    obtain ⟨w'', hret, hr', -⟩ := tick_spec hr
    cases hstep.1 with
    | tick _ _ hret' =>
      obtain ⟨rfl, -⟩ := Prod.mk.inj (hret.unique hret')
      exact ⟨_, hr'⟩
  | _ => exact hother (by simp)

/-- `count` is the number of timers stored. -/
theorem Linked.count_eq (hl : w.Linked ls) :
    w.count = (Finset.univ.biUnion fun i => (ls i).toFinset).card := by
  rw [Finset.card_biUnion, hl.count, Nat.cast_sum]
  · exact Finset.sum_congr rfl fun i _ => by rw [List.toFinset_card_of_nodup (hl.nodup i)]
  · intro i _ j _ hne
    refine Finset.disjoint_left.mpr fun t hi hj => hne ?_
    exact hl.apart i j t (List.mem_toFinset.mp hi) (List.mem_toFinset.mp hj)

/-- In every state of a run `count` is the number of the timers stored. -/
theorem count_of_run {mem : NodeStore Ptr TwTimer} {a : ℕ} (h : Run CleanStep (empty mem a) ops w) :
    ∃ live : Finset Ptr, (∀ t, t ∈ live ↔ w.Stored t) ∧ w.count = live.card := by
  obtain ⟨ls, hr⟩ := rep_of_run h
  refine ⟨_, fun t => ?_, hr.toLinked.count_eq⟩
  simp [hr.stored_iff]

/-- The tick a timer is due in is the one it is added for, if that does not overflow `int` and is no
multiple of the number of slots. -/
theorem dueIn_eq_iff {τ : ℕ} {T due : ℤ} (hT : T = if toInt32 τ = 0 then 1 else toInt32 τ)
    (hdue : addInt cur.val T = some due) (hi : due.tmod 60 = i.val) :
    max τ 1 = dueIn cur i (T.tdiv 60) ↔ cur.val + max τ 1 < 2 ^ 31 ∧ max τ 1 % 60 ≠ 0 := by
  obtain ⟨hsum, hlt⟩ := addInt_eq_some hdue
  obtain ⟨hge, hle, k, hk⟩ := toInt32_cases τ
  rcases lt_trichotomy T 0 with hneg | rfl | hpos
  · -- a timeout from `2 ^ 31` on, due in the first round
    have hfirst := dueIn_added_neg cur i hneg
    rw [if_neg (by split at hT <;> omega)] at hT
    constructor <;> omega
  · split at hT <;> omega
  · have hd := dueIn_added hpos hsum hi
    rcases lt_or_ge τ (2 ^ 31) with hsmall | hbig
    · rw [toInt32_of_range (by omega) (by omega)] at hT
      have hT' : T = max τ 1 := by split at hT <;> omega
      split at hd
      · constructor <;> omega
      · constructor <;> omega
    · -- the conversion made the timeout smaller
      have hT' : T + 2 ^ 32 ≤ τ ∨ T = 1 := by split at hT <;> omega
      split at hd <;> constructor <;> omega

end TimerWheel

open TimerWheel NodeStore

/-- In every reachable state of a wheel to which timers are added with null links, a timer added
with a timeout of `τ` seconds fires in exactly the `max τ 1`-th tick after it, in every
continuation, if and only if that number plus the current slot fits an `int` and it is no multiple
of the wheel's 60 slots. -/
theorem wheel_on_time_iff {mem : NodeStore Ptr TwTimer} {a : ℕ} {ops : List WheelOp}
    {w : TimerWheel} (hrun : Run CleanStep (TimerWheel.empty mem a) ops w) {t : Ptr}
    {o : Node Ptr TwTimer} {now : ℤ} {τ : ℕ} (ho : w.mem t = some o) (ht : ¬w.Stored t)
    (hprev : o.prev = none) (hnext : o.next = none) (hτ : o.val.expire = now + τ) :
    (∃ w', w.addTimer now (some t) = some w' ∧ w'.OnTime t (max τ 1)) ↔
      w.curSlot.val + max τ 1 < 2 ^ 31 ∧ max τ 1 % 60 ≠ 0 := by
  obtain ⟨ls, hr⟩ := rep_of_run hrun
  have hnot : ∀ i, t ∉ ls i := fun i hi => ht (hr.stored_iff.mpr ⟨i, hi⟩)
  have hticks : ticksTo o.val.expire now = if toInt32 τ = 0 then 1 else toInt32 τ := by
    rw [hτ, ticksTo_add]
  constructor
  · rintro ⟨w', hadd, hon⟩
    obtain ⟨o', due, i, ho', hdue, hslot⟩ := of_addTimer hadd
    obtain rfl := Option.some.inj (ho.symm.trans ho')
    obtain ⟨w'', hadd', hawait⟩ := hr.awaits_added hnot now ho hprev hnext hdue hslot
    obtain rfl := Option.some.inj (hadd.symm.trans hadd')
    have heq := (hawait.onTime_iff (by rw [dueIn]; omega)).mp hon
    exact (dueIn_eq_iff hticks hdue (slotAt_eq_some hslot)).mp heq
  · intro hcond
    have hT : ticksTo o.val.expire now = max τ 1 := by
      rw [hticks, toInt32_of_range (by omega) (by omega)]
      split <;> omega
    have hdue := addInt_of_range (a := w.curSlot.val) (b := (max τ 1 : ℕ)) (by omega) (by omega)
    have hidx : 0 ≤ ((w.curSlot.val : ℤ) + max τ 1).tmod 60 ∧
        ((w.curSlot.val : ℤ) + max τ 1).tmod 60 < 60 := by
      rw [Int.tmod_eq_emod_of_nonneg (by omega)]
      omega
    rw [← hT] at hdue hidx
    obtain ⟨i, hslot⟩ := exists_slotAt hidx
    obtain ⟨w', hadd, hawait⟩ := hr.awaits_added hnot now ho hprev hnext hdue hslot
    refine ⟨w', hadd, (hawait.onTime_iff (by rw [dueIn]; omega)).mpr ?_⟩
    exact (dueIn_eq_iff hticks hdue (slotAt_eq_some hslot)).mpr hcond

/-- A timer added to the empty wheel with a timeout of 30 seconds fires in the 30th tick. -/
theorem wheel_on_time_thirty : ∃ w w', Run CleanStep (TimerWheel.empty (fun _ => none) 0)
    [.new 1 30] w ∧ w.addTimer 0 (some 1) = some w' ∧ w'.OnTime 1 (max 30 1) := by
  have hempty := empty_rep (fun _ => none) 0
  have hfree := hempty.not_stored (t := 1) (by simp)
  have hrun : Run CleanStep (TimerWheel.empty (fun _ => none) 0) [.new 1 30] _ :=
    .single ⟨.new 1 30 hfree, trivial⟩
  have hfree' := (hempty.update (t := 1) (by simp) (some (TwTimer.fresh 30))).not_stored (t := 1)
    (by simp)
  obtain ⟨w', hadd, hon⟩ := (wheel_on_time_iff hrun (Function.update_self ..) hfree' rfl rfl
    (show (30 : ℤ) = 0 + (30 : ℕ) from rfl)).mpr ⟨by decide, by decide⟩
  exact ⟨_, w', hrun, hadd, hon⟩

/-- A timer added to the empty wheel with a timeout of 60 seconds does not fire in the 60th
tick. -/
theorem wheel_late_sixty : ∃ w w', Run CleanStep (TimerWheel.empty (fun _ => none) 0)
    [.new 1 60] w ∧ w.addTimer 0 (some 1) = some w' ∧ ¬w'.OnTime 1 (max 60 1) := by
  have hempty := empty_rep (fun _ => none) 0
  have hfree := hempty.not_stored (t := 1) (by simp)
  have hrun : Run CleanStep (TimerWheel.empty (fun _ => none) 0) [.new 1 60] _ :=
    .single ⟨.new 1 60 hfree, trivial⟩
  obtain ⟨w', hadd, hawait⟩ := (hempty.update (by simp) (some (TwTimer.fresh 60))).awaits_added
    (t := 1) (i := 0) (by simp) 0 (Function.update_self ..) rfl rfl rfl rfl
  exact ⟨_, w', hrun, hadd, fun hon => absurd ((hawait.onTime_iff (by decide)).mp hon) (by decide)⟩

end Ulsp
