import Mathlib.Algebra.Order.BigOperators.Group.Finset
import Ulsp.Timer.WheelRun

/-!
# The invariant of the timer wheel

`WellFormed` is the representation of a wheel that stores the timers `live`: each of them is in the
list of its own slot, once, the links of the lists mirror each other, no rotation is negative, and
`count` is their number. Every operation keeps it, except an `add_timer` whose timeout, as an `int`,
is so far in the past that the current slot plus the ticks is negative: a timeout of `2 ^ 31` seconds
or more is converted to such an `int`.
-/

namespace Ulsp

open Lib

/-- The timers stored after an operation. -/
def WheelOp.live (live : Finset Ptr) : WheelOp → Finset Ptr
  | new _ _ => live
  | setExpire _ _ => live
  | add t _ => insert t live
  | del t => live.erase t
  | tick fired => live \ fired.toFinset

/-- The timers added and neither deleted nor fired since. -/
def WheelOp.stored (ops : List WheelOp) : Finset Ptr := ops.foldl WheelOp.live ∅

/-- Whether an operation is one of the wheel's own. -/
def WheelOp.operates : WheelOp → Bool
  | add _ _ => true
  | del _ => true
  | tick _ => true
  | _ => false

namespace TimerWheel

open NodeStore

/-- The wheel keeps the timers `live`, in the lists `ls`. -/
structure WellFormed (w : TimerWheel) (live : Finset Ptr) (ls : Fin 60 → List Ptr) : Prop where
  reachable : ∀ i, Chain w.mem.nextOf (w.slots i) (ls i)
  once : ∀ i, (ls i).Nodup
  stored : ∀ t, t ∈ live ↔ ∃ i, t ∈ ls i
  placed : ∀ i, ∀ t ∈ ls i, ∃ v, w.mem.valOf t = some v ∧ v.slotIdx = i.val ∧ 0 ≤ v.rotation
  mirror : ∀ i, ∀ a ∈ ls i, ∀ b ∈ ls i, w.mem.nextOf a = some b ↔ w.mem.prevOf b = some a
  first : ∀ i t, (ls i).head? = some t → w.mem.prevOf t = none
  last : ∀ i t, (ls i).getLast? = some t → w.mem.nextOf t = none
  count : w.count = ∑ i, ((ls i).length : ℤ)

/-- The slot that `add_timer` computes for a timer is not before the first. -/
def Ahead (w : TimerWheel) : WheelOp → Prop
  | .add t now => ∀ v, w.mem.valOf t = some v → 0 ≤ w.curSlot.val + ticksTo v.expire now
  | _ => True

variable {w w' : TimerWheel} {ls : Fin 60 → List Ptr} {live : Finset Ptr} {op : WheelOp}
  {ops : List WheelOp} {t : Ptr}

/-- What is carried from one operation to the next. -/
structure Keeps (w : TimerWheel) (live : Finset Ptr) (ls : Fin 60 → List Ptr) : Prop where
  rep : w.Rep ls
  stored : ∀ t, t ∈ live ↔ ∃ i, t ∈ ls i
  rotation : ∀ i, ∀ t ∈ ls i, 0 ≤ rotationOf w.mem t

theorem Keeps.wellFormed (h : w.Keeps live ls) : w.WellFormed live ls where
  reachable i := (h.rep.linked i).fwd
  once := h.rep.nodup
  stored := h.stored
  placed i t ht := by
    obtain ⟨v, hv, hi⟩ := h.rep.placed i t ht
    exact ⟨v, hv, hi, rotationOf_of_some hv ▸ h.rotation i t ht⟩
  mirror i a ha b hb := (h.rep.linked i).mirror ha hb
  first i t ht := (h.rep.linked i).prev_first ht
  last i t ht := by
    obtain ⟨as, has⟩ := List.getLast?_eq_some_iff.mp ht
    exact (has ▸ (h.rep.linked i).fwd).next_last
  count := h.rep.count

/-- The timers that are not live are in no list. -/
theorem Keeps.not_mem (h : w.Keeps live ls) (ht : ¬w.Stored t) (i : Fin 60) : t ∉ ls i :=
  fun hi => ht (h.rep.stored_iff.mpr ⟨i, hi⟩)

/-- A timer object that is made anew. -/
theorem Keeps.new (h : w.Keeps live ls) (ht : ¬w.Stored t) (o : Option (Node Ptr TwTimer)) :
    Keeps { w with mem := Function.update w.mem t o } live ls := by
  refine ⟨h.rep.update (h.not_mem ht) o, h.stored, ?_⟩
  intro i u hu
  have hne : u ≠ t := fun he => h.not_mem ht i (he ▸ hu)
  have hrot := h.rotation i u hu
  rwa [rotationOf, ← (update_of_ne hne o).2.2] at hrot

/-- A new expiry of a timer object. -/
theorem Keeps.setExpire (h : w.Keeps live ls) {v : TwTimer} {m : NodeStore Ptr TwTimer} {e : ℤ}
    (hv : w.mem.valOf t = some v) (hm : w.mem.setVal t { v with expire := e } = some m) :
    Keeps { w with mem := m } live ls := by
  obtain ⟨m', hm', hr, -, -, hval⟩ := h.rep.setExpire hv e
  obtain rfl := Option.some.inj (hm.symm.trans hm')
  refine ⟨hr, h.stored, ?_⟩
  intro i u hu
  have hrot := h.rotation i u hu
  rcases eq_or_ne u t with rfl | hne
  · rw [rotationOf_of_some hv] at hrot
    rwa [rotationOf, hval, Function.update_self]
  · rwa [rotationOf, hval, Function.update_of_ne hne]

/-- The rotation computed for a timer whose slot is not before the first. -/
theorem rotation_nonneg {cur : Fin 60} {ticks : ℤ} (h : 0 ≤ cur.val + ticks) :
    0 ≤ ticks.tdiv 60 := by
  rcases lt_or_ge ticks 0 with hneg | hpos
  · have hsmall : (-ticks).tdiv 60 = 0 := Int.tdiv_eq_zero_of_lt (by omega) (by omega)
    rw [Int.neg_tdiv] at hsmall
    omega
  · exact Int.tdiv_nonneg hpos (by omega)

/-- `add_timer`. -/
theorem Keeps.add (h : w.Keeps live ls) {now : ℤ} (ht : ¬w.Stored t)
    (hclean : w.NullLinks (.add t now)) (hahead : w.Ahead (.add t now))
    (hadd : w.addTimer now (some t) = some w') : ∃ ls', w'.Keeps (insert t live) ls' := by
  have hnot := h.not_mem ht
  obtain ⟨o, due, i, ho, hdue, hslot⟩ := of_addTimer hadd
  have hnext : o.next = none := (nextOf_of_some ho).symm.trans hclean.1
  have hprev : o.prev = none := (prevOf_of_some ho).symm.trans hclean.2
  obtain ⟨w'', hrun, hr', -, hval⟩ := addTimer_spec h.rep hnot ho hprev (fun _ => hnext) hdue hslot
  obtain rfl := Option.some.inj (hadd.symm.trans hrun)
  refine ⟨_, hr', ?_, ?_⟩
  · intro u
    rw [Finset.mem_insert, h.stored]
    constructor
    · rintro (rfl | ⟨j, hj⟩)
      · exact ⟨i, by simp⟩
      · refine ⟨j, ?_⟩
        rcases eq_or_ne j i with rfl | hne <;> simp [*]
    · rintro ⟨j, hj⟩
      rcases eq_or_ne j i with rfl | hne
      · rw [Function.update_self] at hj
        exact (List.mem_cons.mp hj).imp_right fun hj => ⟨j, hj⟩
      · rw [Function.update_of_ne hne] at hj
        exact .inr ⟨j, hj⟩
  · intro j u hu
    rcases eq_or_ne u t with rfl | hne
    · rw [rotationOf, hval, Function.update_self]
      exact rotation_nonneg (hahead o.val (valOf_of_some ho))
    · rw [rotationOf, hval, Function.update_of_ne hne]
      rcases eq_or_ne j i with rfl | hj
      · rw [Function.update_self] at hu
        exact h.rotation j u ((List.mem_cons.mp hu).resolve_left hne)
      · rw [Function.update_of_ne hj] at hu
        exact h.rotation j u hu

/-- `del_timer`. -/
theorem Keeps.del (h : w.Keeps live ls) (hdel : Returns (w.delTimer (some t)) w') :
    ∃ ls', w'.Keeps (live.erase t) ls' := by
  obtain ⟨k, hk⟩ := id hdel
  obtain ⟨i, ht⟩ := mem_of_delTimer h.rep (hk k le_rfl)
  obtain ⟨w'', hrun, hr', -, hval, -⟩ := delTimer_spec h.rep ht
  obtain rfl := hdel.unique hrun
  have hmem : ∀ j u, u ∈ Function.update ls i ((ls i).erase t) j ↔ u ∈ ls j ∧ u ≠ t := by
    intro j u
    rcases eq_or_ne j i with rfl | hj
    · rw [Function.update_self, (h.rep.nodup j).mem_erase_iff, and_comm]
    · rw [Function.update_of_ne hj]
      refine ⟨fun hu => ⟨hu, ?_⟩, And.left⟩
      rintro rfl
      exact hj (h.rep.slot_unique hu ht)
  refine ⟨_, hr', ?_, ?_⟩
  · intro u
    simp only [Finset.mem_erase, h.stored, hmem]
    exact ⟨fun ⟨hne, j, hj⟩ => ⟨j, hj, hne⟩, fun ⟨j, hj, hne⟩ => ⟨hne, j, hj⟩⟩
  · intro j u hu
    rw [rotationOf, hval]
    exact h.rotation j u ((hmem j u).mp hu).1

/-- `tick`. -/
theorem Keeps.tick (h : w.Keeps live ls) {fired : List Ptr} (htick : Returns w.tick (w', fired)) :
    ∃ ls', w'.Keeps (live \ fired.toFinset) ls' := by
  obtain ⟨w'', hret, hr', -, hw⟩ := tick_spec h.rep
  obtain ⟨rfl, rfl⟩ := Prod.mk.inj (htick.unique hret)
  have hkept : ∀ u ∈ ls (w.curSlot + 1), u ∈ keptOf w.mem (ls (w.curSlot + 1)) ↔
      u ∉ dueOf w.mem (ls (w.curSlot + 1)) := by
    intro u hu
    simp [keptOf, dueOf, hu]
  refine ⟨_, hr', ?_, ?_⟩
  · intro u
    rw [Finset.mem_sdiff, List.mem_toFinset, h.stored]
    constructor
    · rintro ⟨⟨j, hj⟩, hdue⟩
      refine ⟨j, ?_⟩
      rcases eq_or_ne j (w.curSlot + 1) with rfl | hne
      · rw [Function.update_self]
        exact (hkept u hj).mpr hdue
      · rwa [Function.update_of_ne hne]
    · rintro ⟨j, hj⟩
      rcases eq_or_ne j (w.curSlot + 1) with rfl | hne
      · rw [Function.update_self] at hj
        have hu := (List.mem_filter.mp hj).1
        exact ⟨⟨_, hu⟩, (hkept u hu).mp hj⟩
      · rw [Function.update_of_ne hne] at hj
        exact ⟨⟨j, hj⟩, fun hdue => hne (h.rep.slot_unique hj (List.mem_filter.mp hdue).1)⟩
  · intro j u hu
    rcases eq_or_ne j (w.curSlot + 1) with rfl | hne
    · rw [Function.update_self] at hu
      obtain ⟨hmem, hpos⟩ := List.mem_filter.mp hu
      obtain ⟨v, hv, -⟩ := h.rep.placed _ u hmem
      have hpos' : 0 < rotationOf w.mem u := of_decide_eq_true hpos
      rw [rotationOf_of_some hv] at hpos'
      rw [rotationOf_of_some (hw.val_kept u hu v hv)]
      show 0 ≤ v.rotation - 1
      omega
    · rw [Function.update_of_ne hne] at hu
      have hnot : u ∉ ls (w.curSlot + 1) := fun hm => hne (h.rep.slot_unique hu hm)
      rw [rotationOf, hw.val_other u hnot]
      exact h.rotation j u hu

/-- A step keeps the invariant. -/
theorem Keeps.step (h : w.Keeps live ls) (hstep : Guarded CleanStep Ahead w op w') :
    ∃ ls', w'.Keeps (op.live live) ls' := by
  obtain ⟨⟨hstep, hclean⟩, hahead⟩ := hstep
  cases hstep with
  | new t e ht => exact ⟨ls, h.new ht _⟩
  | setExpire t e m v hv hm => exact ⟨ls, h.setExpire hv hm⟩
  | add t now _ ht hadd => exact h.add ht hclean hahead hadd
  | del t _ hdel => exact h.del hdel
  | tick _ fired htick => exact h.tick htick

/-! ## The alarm -/

/-- The search of `del_timer` ends at the timer. -/
theorem seek_eq_some {fuel : ℕ} {p q : Option Ptr} (h : w.seek t fuel p = some q) : q = some t := by
  induction fuel generalizing p with
  | zero => cases h
  | succ fuel ih =>
    rw [seek] at h
    split at h
    · cases h
      assumption
    · simp only [Option.bind_eq_bind, Option.bind_eq_some_iff] at h
      obtain ⟨c, -, node, -, h⟩ := h
      exact ih h

/-- `add_timer` ends with `resetTimer`, of a wheel that counts one timer more. -/
theorem reset_of_addTimer {now : ℤ} (hadd : w.addTimer now (some t) = some w') :
    ∃ w₀ : TimerWheel, w' = w₀.resetTimer ∧ w₀.count = w.count + 1 := by
  simp only [addTimer, Option.bind_eq_bind, Option.bind_some, Option.bind_eq_some_iff] at hadd
  obtain ⟨o, -, due, -, m, -, i, -, hadd⟩ := hadd
  split at hadd
  · cases hadd
    exact ⟨_, rfl, rfl⟩
  · simp only [Option.bind_eq_some_iff] at hadd
    obtain ⟨m₁, -, m₂, -, hadd⟩ := hadd
    cases hadd
    exact ⟨_, rfl, rfl⟩

/-- `del_timer` ends with `resetTimer`, of a wheel that counts one timer less. -/
theorem reset_of_delTimer {fuel : ℕ} (hdel : w.delTimer (some t) fuel = some w') :
    ∃ w₀ : TimerWheel, w' = w₀.resetTimer ∧ w₀.count = w.count - 1 := by
  simp only [delTimer, Option.bind_eq_bind, Option.bind_eq_some_iff] at hdel
  obtain ⟨o, -, i, -, cur, hseek, hdel⟩ := hdel
  obtain rfl := seek_eq_some hseek
  simp only [Option.bind_eq_some_iff] at hdel
  obtain ⟨node, -, hdel⟩ := hdel
  split at hdel
  · simp only [Option.bind_eq_some_iff] at hdel
    obtain ⟨w₁, hw₁, m, -, hdel⟩ := hdel
    obtain ⟨m', -, rfl⟩ := Option.map_eq_some_iff.mp hw₁
    cases hdel
    exact ⟨_, rfl, rfl⟩
  · simp only [Option.bind_eq_some_iff] at hdel
    obtain ⟨w₁, hw₁, m, -, hdel⟩ := hdel
    cases hw₁
    cases hdel
    exact ⟨_, rfl, rfl⟩

/-- A timer that is fired is no longer counted. -/
theorem count_of_dropFired {c : Ptr} {p : Option Ptr} (hdrop : w.dropFired c p = some w') :
    w'.count = w.count - 1 := by
  unfold dropFired at hdrop
  split at hdrop <;> simp only [Option.bind_eq_bind, Option.bind_eq_some_iff] at hdrop
  · obtain ⟨m, -, heq⟩ := hdrop
    cases heq
    rfl
  · obtain ⟨tmp, -, m, -, q, -, m', -, heq⟩ := hdrop
    cases heq
    rfl

/-- The loop of `tick` uncounts the timers it fires. -/
theorem count_of_tickLoop {fuel : ℕ} {p : Option Ptr} {fired : List Ptr}
    (hloop : tickLoop fuel p w = some (w', fired)) : w'.count = w.count - fired.length := by
  induction fuel generalizing p w fired with
  | zero => cases hloop
  | succ fuel ih =>
    cases p with
    | none =>
      cases hloop
      simp
    | some c =>
      simp only [tickLoop, Option.bind_eq_bind, Option.bind_eq_some_iff] at hloop
      obtain ⟨node, -, hloop⟩ := hloop
      split at hloop
      · simp only [Option.bind_eq_some_iff] at hloop
        obtain ⟨m, -, hloop⟩ := hloop
        have hcount := ih hloop
        exact hcount
      · simp only [Option.bind_eq_some_iff] at hloop
        obtain ⟨w₁, hdrop, ⟨w₂, fired'⟩, hrest, heq⟩ := hloop
        cases heq
        rw [ih hrest, count_of_dropFired hdrop, List.length_cons]
        push_cast
        omega

/-- `tick` ends with `resetTimer`, of a wheel that does not count the timers it fired. -/
theorem reset_of_tick {fuel : ℕ} {fired : List Ptr} (htick : w.tick fuel = some (w', fired)) :
    ∃ w₀ : TimerWheel, w' = w₀.resetTimer ∧ w₀.count = w.count - fired.length := by
  simp only [tick, Option.bind_eq_bind, Option.bind_eq_some_iff] at htick
  obtain ⟨⟨w₁, fired'⟩, hloop, heq⟩ := htick
  cases heq
  have hcount := count_of_tickLoop hloop
  exact ⟨w₁, rfl, hcount⟩

/-- The wheel's own operations end with `resetTimer`. -/
theorem alarm_of_operates (hstep : Step w op w') (hop : op.operates = true) :
    ∃ w₀ : TimerWheel, w' = w₀.resetTimer := by
  cases hstep with
  | new => cases hop
  | setExpire => cases hop
  | add t now _ ht hadd =>
    obtain ⟨w₀, h, -⟩ := reset_of_addTimer hadd
    exact ⟨w₀, h⟩
  | del t _ hdel =>
    obtain ⟨k, hk⟩ := hdel
    obtain ⟨w₀, h, -⟩ := reset_of_delTimer (hk k le_rfl)
    exact ⟨w₀, h⟩
  | tick _ fired htick =>
    obtain ⟨k, hk⟩ := htick
    obtain ⟨w₀, h, -⟩ := reset_of_tick (hk k le_rfl)
    exact ⟨w₀, h⟩

/-- A wheel whose last operation set the alarm keeps one pending if and only if it stores a
timer. -/
theorem Keeps.alarm_iff (h : w.Keeps live ls) (halarm : w.alarm = if w.count = 0 then 0 else SI) :
    w.alarm ≠ 0 ↔ live.Nonempty := by
  have hcount : w.count = 0 ↔ live = ∅ := by
    rw [h.rep.count, Finset.sum_eq_zero_iff_of_nonneg fun i _ => by omega,
      Finset.eq_empty_iff_forall_notMem]
    constructor
    · intro hzero t ht
      obtain ⟨i, hi⟩ := (h.stored t).mp ht
      have hlen : ls i = [] := by simpa using hzero i (Finset.mem_univ i)
      rw [hlen] at hi
      cases hi
    · intro hnone i _
      have hnil : ls i = [] := List.eq_nil_iff_forall_not_mem.mpr fun t ht =>
        hnone t ((h.stored t).mpr ⟨i, ht⟩)
      simp [hnil]
  rw [halarm, Finset.nonempty_iff_ne_empty, ne_eq, ne_eq, not_iff_not, ← hcount]
  split
  · exact iff_of_true rfl ‹_›
  · exact iff_of_false (by simp [SI]) ‹_›

/-! ## Runs -/

/-- What a run keeps. -/
theorem keeps_of_run {mem : NodeStore Ptr TwTimer} {a : ℕ}
    (h : Run (Guarded CleanStep Ahead) (empty mem a) ops w) :
    (∃ ls, w.Keeps (WheelOp.stored ops) ls) ∧
      ((∃ op ∈ ops, op.operates = true) → w.alarm = if w.count = 0 then 0 else SI) := by
  induction h with
  | refl => exact ⟨⟨fun _ => [], empty_rep mem a, by simp [WheelOp.stored], by simp⟩, by simp⟩
  | @tail ops w₁ w₂ op _ hstep ih =>
    obtain ⟨⟨ls, hk⟩, halarm⟩ := ih
    refine ⟨?_, ?_⟩
    · rw [WheelOp.stored, List.foldl_append]
      exact hk.step hstep
    · intro hops
      cases hop : op.operates with
      | true =>
        obtain ⟨w₀, rfl⟩ := alarm_of_operates hstep.1.1 hop
        rfl
      | false =>
        have hold : ∃ op ∈ ops, op.operates = true := by
          obtain ⟨op', hmem, hop'⟩ := hops
          rcases List.mem_append.mp hmem with hmem | hmem
          · exact ⟨op', hmem, hop'⟩
          · rw [List.mem_singleton.mp hmem, hop] at hop'
            cases hop'
        have hsame : w₂.alarm = w₁.alarm ∧ w₂.count = w₁.count := by
          cases hstep.1.1 with
          | new => exact ⟨rfl, rfl⟩
          | setExpire => exact ⟨rfl, rfl⟩
          | _ => cases hop
        rw [hsame.1, hsame.2]
        exact halarm hold

/-- A timer that is not among those added and neither deleted nor fired is in no slot. -/
theorem not_stored_of_run {mem : NodeStore Ptr TwTimer} {a : ℕ}
    (h : Run (Guarded CleanStep Ahead) (empty mem a) ops w) (ht : t ∉ WheelOp.stored ops) :
    ¬w.Stored t := by
  obtain ⟨⟨ls, hk⟩, -⟩ := keeps_of_run h
  rwa [hk.rep.stored_iff, ← hk.stored]

end TimerWheel

open TimerWheel

/-- In every run from the empty wheel in which the slot computed for each timer added is not before
the first, the wheel is well-formed for the timers added and neither deleted nor fired, and once it
has been used it keeps a pending alarm if and only if it stores one. -/
theorem wheel_run_invariant {mem : NodeStore Ptr TwTimer} {a : ℕ} {ops : List WheelOp}
    {w : TimerWheel} (h : Run (Guarded CleanStep Ahead) (TimerWheel.empty mem a) ops w) :
    (∃ ls, w.WellFormed (WheelOp.stored ops) ls) ∧
      ((∃ op ∈ ops, op.operates = true) → (w.alarm ≠ 0 ↔ (WheelOp.stored ops).Nonempty)) := by
  obtain ⟨⟨ls, hk⟩, halarm⟩ := keeps_of_run h
  exact ⟨⟨ls, hk.wellFormed⟩, fun hops => hk.alarm_iff (halarm hops)⟩

/-- Three timers are added, one of them is given another expiry, a tick fires another, and the third
is deleted. -/
def wheelOps : List WheelOp :=
  [.new 1 30, .add 1 0, .new 2 1, .add 2 0, .new 3 90, .add 3 0, .setExpire 3 95, .tick [2], .del 1]

/-- The invariant after these operations. -/
theorem wheel_run_invariant_three : ∃ w, Run (Guarded CleanStep Ahead)
    (TimerWheel.empty (fun _ => none) 0) wheelOps w ∧ (∃ ls, w.WellFormed {3} ls) ∧ w.alarm ≠ 0 := by
  have hrun₁ : Run (Guarded CleanStep Ahead) (TimerWheel.empty (fun _ => none) 0) [.new 1 30] _ :=
    .single ⟨⟨.new 1 30 (not_stored_of_run .refl (by decide)), trivial⟩, trivial⟩
  have hrun₂ := hrun₁.tail ⟨⟨.add 1 0 _ (not_stored_of_run hrun₁ (by decide)) rfl, rfl, rfl⟩,
    fun _ hv => by cases hv; decide⟩
  have hrun₃ := hrun₂.tail ⟨⟨.new 2 1 (not_stored_of_run hrun₂ (by decide)), trivial⟩, trivial⟩
  have hrun₄ := hrun₃.tail ⟨⟨.add 2 0 _ (not_stored_of_run hrun₃ (by decide)) rfl, rfl, rfl⟩,
    fun _ hv => by cases hv; decide⟩
  have hrun₅ := hrun₄.tail ⟨⟨.new 3 90 (not_stored_of_run hrun₄ (by decide)), trivial⟩, trivial⟩
  have hrun₆ := hrun₅.tail ⟨⟨.add 3 0 _ (not_stored_of_run hrun₅ (by decide)) rfl, rfl, rfl⟩,
    fun _ hv => by cases hv; decide⟩
  have hrun₇ := hrun₆.tail ⟨⟨.setExpire 3 95 _ ⟨90, 1, 30⟩ rfl rfl, trivial⟩, trivial⟩
  have hrun₈ := hrun₇.tail ⟨⟨.tick _ [2] (.of_add 2 fun _ => rfl), trivial⟩, trivial⟩
  have hrun₉ := hrun₈.tail ⟨⟨.del 1 _ (.of_add 2 fun _ => rfl), trivial⟩, trivial⟩
  obtain ⟨hwell, halarm⟩ := wheel_run_invariant hrun₉
  exact ⟨_, hrun₉, hwell, (halarm ⟨.del 1, by simp, rfl⟩).mpr ⟨3, by decide⟩⟩

/-- A timer that expires `2 ^ 32 - 60` seconds later is stored with a rotation of -1. -/
theorem wheel_rotation_negative : ∃ w, Run CleanStep (TimerWheel.empty (fun _ => none) 0)
    [.new 1 (2 ^ 32 - 60), .add 1 0] w ∧ w.Stored 1 ∧ rotationOf w.mem 1 = -1 := by
  have hempty := empty_rep (fun _ => none) 0
  have hfree := hempty.not_stored (t := 1) (by simp)
  have hnew : Run CleanStep (TimerWheel.empty (fun _ => none) 0) [.new 1 (2 ^ 32 - 60)] _ :=
    .single ⟨.new 1 _ hfree, trivial⟩
  have hr := hempty.update (t := 1) (by simp) (some (TwTimer.fresh (2 ^ 32 - 60)))
  have hfree' := hr.not_stored (t := 1) (by simp)
  have hdue : addInt 0 (ticksTo (2 ^ 32 - 60) 0) = some (-60) := rfl
  obtain ⟨w, hadd, hr', -, hval⟩ :=
    addTimer_spec (i := 0) hr (by simp) (Function.update_self ..) rfl (fun _ => rfl) hdue rfl
  refine ⟨w, hnew.tail ⟨.add 1 0 w hfree' hadd, rfl, rfl⟩, hr'.stored_iff.mpr ⟨0, by simp⟩, ?_⟩
  rw [TimerWheel.rotationOf, hval, Function.update_self]
  rfl

end Ulsp
