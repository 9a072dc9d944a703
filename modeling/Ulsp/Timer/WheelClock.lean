import Mathlib.Algebra.Order.Field.Basic
import Mathlib.Data.Real.Basic
import Mathlib.Tactic.Linarith
import Ulsp.Timer.WheelInvariant

/-!
# The clock of the timer wheel

The wheel counts ticks, and the clock that makes them is the one alarm of the process: `alarm(SI)`
sets its deadline `SI` seconds from now in place of the one it had, and `alarm(0)` clears it. Here the
operations of a wheel happen at real times, of which any ordered field will do, and a tick at the
deadline. Every operation ends in `resetTimer`, which starts the `SI` seconds anew and does not ask how
many of them had passed: so an operation postpones the next tick unless the alarm was set at that
very time (`wheel_clock_iff`). The other two containers set the alarm from the earliest expiry, to
the same deadline whenever they do.
-/

namespace Ulsp

open Lib

/-- By how many timers an operation changes what the wheel stores. -/
def WheelOp.change : WheelOp → ℤ
  | new _ _ => 0
  | setExpire _ _ => 0
  | add _ _ => 1
  | del _ => -1
  | tick fired => -fired.length

/-- A wheel in real time: the time of what happened last, the deadline of the pending alarm, and the
number of timers added and neither deleted nor fired. -/
structure TimedWheel (R : Type*) where
  wheel : TimerWheel
  time : R
  deadline : Option R
  stored : ℤ

/-- What happens to a wheel: a client's operation at a time, `adjust_timer` at a time and a reading of
the clock, or a tick. -/
inductive TimedOp (R : Type*) where
  | call (op : WheelOp) (s : R)
  | adjust (t : Ptr) (now : ℤ) (s : R)
  | tick (fired : List Ptr)

namespace TimedOp

variable {R : Type*}

/-- The time at which an operation other than a tick calls `resetTimer`. -/
def resetAt : TimedOp R → Option R
  | call op s => if op.operates then some s else none
  | adjust _ _ s => some s
  | tick _ => none

/-- The number of ticks. -/
def ticks (ops : List (TimedOp R)) : ℕ := ops.countP fun op => match op with
  | tick _ => true
  | _ => false

theorem ticks_tick (ops : List (TimedOp R)) (fired : List Ptr) :
    ticks (ops ++ [.tick fired]) = ticks ops + 1 := by simp [ticks]

theorem ticks_other (ops : List (TimedOp R)) {op : TimedOp R} (h : ∀ fired, op ≠ .tick fired) :
    ticks (ops ++ [op]) = ticks ops := by
  cases op with
  | tick fired => exact absurd rfl (h fired)
  | _ => simp [ticks]

end TimedOp

namespace TimedWheel

section
variable {R : Type*}

/-- The constructor's wheel, at time `s` with no alarm pending. -/
def init (mem : NodeStore Ptr TwTimer) (s : R) : TimedWheel R := ⟨TimerWheel.empty mem 0, s, none, 0⟩

/-- What a run keeps: the wheel counts the stored timers, and while there is one a tick is pending. -/
structure Ok (x : TimedWheel R) : Prop where
  count : x.wheel.count = x.stored
  pending : x.stored ≠ 0 → ∃ D, x.deadline = some D

theorem init_ok (mem : NodeStore Ptr TwTimer) (s : R) : (init mem s).Ok := ⟨rfl, fun h => absurd rfl h⟩

/-- The time at which a step calls `resetTimer`. -/
def resetTime (x : TimedWheel R) : TimedOp R → Option R
  | .tick _ => x.deadline
  | op => op.resetAt

theorem resetTime_of_ne_tick {x : TimedWheel R} {op : TimedOp R} (hop : ∀ fired, op ≠ .tick fired) :
    x.resetTime op = op.resetAt := by
  cases op with
  | tick fired => exact absurd rfl (hop fired)
  | _ => rfl

variable [Field R]

/-- The deadline after `alarm(seconds)` at time `s`. -/
def alarm (seconds : ℕ) (s : R) : Option R := if seconds = 0 then none else some (s + seconds)

/-- The deadline that `resetTimer` leaves. -/
theorem alarm_of_reset {w w₀ : TimerWheel} (h : w = w₀.resetTimer) (s : R) :
    alarm w.alarm s = if w.count = 0 then none else some (s + TimerWheel.SI) := by
  subst h
  show alarm (if w₀.count = 0 then 0 else TimerWheel.SI) s = if w₀.count = 0 then none else _
  split
  · rfl
  · rfl

end

variable {R : Type*} [Field R] [LinearOrder R]

/-- An operation can happen at time `s`: not before what happened already, nor after the next tick. -/
def Now (x : TimedWheel R) (s : R) : Prop := x.time ≤ s ∧ ∀ D, x.deadline = some D → s ≤ D

/-- The steps of a wheel in real time. -/
inductive Step (x : TimedWheel R) : TimedOp R → TimedWheel R → Prop
  | call (op : WheelOp) (s : R) (w : TimerWheel) : (∀ fired, op ≠ .tick fired) → x.Now s →
    x.wheel.Step op w → Step x (.call op s)
      ⟨w, s, if op.operates then alarm w.alarm s else x.deadline, x.stored + op.change⟩
  | adjust (t : Ptr) (now : ℤ) (s : R) (w : TimerWheel) : x.Now s →
    Returns (x.wheel.adjustTimer now (some t)) w →
    Step x (.adjust t now s) ⟨w, s, alarm w.alarm s, x.stored⟩
  | tick (D : R) (w : TimerWheel) (fired : List Ptr) : x.deadline = some D →
    Returns x.wheel.tick (w, fired) →
    Step x (.tick fired) ⟨w, D, alarm w.alarm D, x.stored - fired.length⟩

/-- The wheel stores a timer, and an operation on it comes `SI` seconds before the pending deadline
at least, that is, at the time at which that was set. -/
def Prompt (x : TimedWheel R) (op : TimedOp R) : Prop :=
  x.stored ≠ 0 ∧ ∀ s D, op.resetAt = some s → x.deadline = some D → s + TimerWheel.SI ≤ D

variable {x x' : TimedWheel R} {op : TimedOp R} {ops : List (TimedOp R)} {s D : R}

/-! ## What a step does -/

/-- A client's operation changes the count as it changes what is stored. -/
theorem count_of_step {w w' : TimerWheel} {o : WheelOp} (h : w.Step o w') :
    w'.count = w.count + o.change := by
  cases h with
  | new t e _ => simp [WheelOp.change]
  | setExpire t e m v _ _ => simp [WheelOp.change]
  | add t now _ _ hadd =>
    obtain ⟨w₀, rfl, hcount⟩ := TimerWheel.reset_of_addTimer hadd
    exact hcount
  | del t _ hdel =>
    obtain ⟨k, hk⟩ := hdel
    obtain ⟨w₀, rfl, hcount⟩ := TimerWheel.reset_of_delTimer (hk k le_rfl)
    exact hcount
  | tick _ fired htick =>
    obtain ⟨k, hk⟩ := htick
    obtain ⟨w₀, rfl, hcount⟩ := TimerWheel.reset_of_tick (hk k le_rfl)
    exact hcount

/-- `adjust_timer` ends with `resetTimer`, and changes no count. -/
theorem reset_of_adjustTimer {w w' : TimerWheel} {t : Ptr} {now : ℤ} {fuel : ℕ}
    (h : w.adjustTimer now (some t) fuel = some w') :
    ∃ w₀ : TimerWheel, w' = w₀.resetTimer ∧ w₀.count = w.count := by
  obtain ⟨w₁, hdel, hadd⟩ := Option.bind_eq_some_iff.mp h
  obtain ⟨w₂, rfl, hcount₂⟩ := TimerWheel.reset_of_delTimer hdel
  obtain ⟨w₀, rfl, hcount⟩ := TimerWheel.reset_of_addTimer hadd
  have hreset : w₂.resetTimer.count = w₂.count := rfl
  exact ⟨w₀, rfl, by omega⟩

/-- The count changes as what is stored. -/
theorem Step.count_eq (h : Step x op x') :
    x'.wheel.count - x.wheel.count = x'.stored - x.stored := by
  cases h with
  | call o s w hop _ hstep =>
    have hcount := count_of_step hstep
    simp only
    omega
  | adjust t now s w _ hret =>
    obtain ⟨k, hk⟩ := hret
    obtain ⟨w₀, rfl, hcount⟩ := reset_of_adjustTimer (hk k le_rfl)
    show w₀.count - _ = x.stored - x.stored
    omega
  | tick D w fired hD hret =>
    obtain ⟨k, hk⟩ := hret
    obtain ⟨w₀, rfl, hcount⟩ := TimerWheel.reset_of_tick (hk k le_rfl)
    show w₀.count - _ = x.stored - fired.length - x.stored
    omega

/-- A step that calls `resetTimer` at time `s` leaves the deadline `SI` seconds later if the wheel
counts a timer, and none if not; another step leaves the deadline it finds. -/
theorem Step.deadline_eq (h : Step x op x') : x'.deadline = match x.resetTime op with
    | none => x.deadline
    | some s => if x'.wheel.count = 0 then none else some (s + TimerWheel.SI) := by
  cases h with
  | call o s w hop _ hstep =>
    cases hoper : o.operates with
    | true =>
      obtain ⟨w₀, hw₀⟩ := TimerWheel.alarm_of_operates hstep hoper
      simpa [resetTime, TimedOp.resetAt, hoper] using alarm_of_reset hw₀ s
    | false => simp [resetTime, TimedOp.resetAt, hoper]
  | adjust t now s w _ hret =>
    obtain ⟨k, hk⟩ := hret
    obtain ⟨w₀, hw₀, -⟩ := reset_of_adjustTimer (hk k le_rfl)
    exact alarm_of_reset hw₀ s
  | tick D w fired hD hret =>
    obtain ⟨k, hk⟩ := hret
    obtain ⟨w₀, hw₀, -⟩ := TimerWheel.reset_of_tick (hk k le_rfl)
    simpa [resetTime, hD] using alarm_of_reset hw₀ D

/-- A step that does not call `resetTimer` stores and takes no timer. -/
theorem Step.stored_eq (h : Step x op x') (hnone : x.resetTime op = none) :
    x'.stored = x.stored := by
  cases h with
  | call o s w hop _ hstep =>
    cases o with
    | new _ _ => exact add_zero _
    | setExpire _ _ => exact add_zero _
    | _ => cases hnone
  | adjust => cases hnone
  | tick D w fired hD hret => exact nomatch hD.symm.trans hnone

/-! ## Runs -/

/-- Every step keeps the count and the pending tick. -/
theorem Ok.step (hx : x.Ok) (h : Step x op x') : x'.Ok := by
  have hcount : x'.wheel.count = x'.stored := by
    have hx := hx.count
    have hstep := h.count_eq
    omega
  refine ⟨hcount, ?_⟩
  intro hne
  have hD := h.deadline_eq
  cases hreset : x.resetTime op with
  | none =>
    rw [hreset] at hD
    rw [hD]
    exact hx.pending (h.stored_eq hreset ▸ hne)
  | some s =>
    simp only [hreset, hcount, hne, if_false] at hD
    exact ⟨_, hD⟩

/-- Every state of a run counts its timers, and has a tick pending while there is one. -/
theorem ok_of_run {mem : NodeStore Ptr TwTimer} {s₀ : R} (h : Run Step (init mem s₀) ops x) : x.Ok :=
  h.invariant (fun _ _ _ hx hstep => hx.step hstep) (init_ok mem s₀)

/-- The deadline after an operation that leaves a timer stored. -/
theorem Ok.deadline_of_resetAt (hx : x.Ok) (h : Step x op x') (hs : op.resetAt = some s)
    (hne : x'.stored ≠ 0) : x'.deadline = some (s + TimerWheel.SI) := by
  have hop : ∀ fired, op ≠ .tick fired := by
    rintro fired rfl
    cases hs
  have hD := h.deadline_eq
  simpa only [resetTime_of_ne_tick hop, hs, (hx.step h).count, hne, if_false] using hD

/-- A prompt operation does not postpone the tick. -/
theorem Step.deadline_le (h : Step x op x') (hp : Prompt x op) (hop : ∀ fired, op ≠ .tick fired)
    {D' : R} (hD : x.deadline = some D) (hD' : x'.deadline = some D') : D' ≤ D := by
  have hdeadline := h.deadline_eq
  rw [resetTime_of_ne_tick hop] at hdeadline
  cases hs : op.resetAt with
  | none =>
    simp only [hs, hD, hD', Option.some.injEq] at hdeadline
    exact hdeadline.le
  | some s =>
    simp only [hs, hD'] at hdeadline
    split at hdeadline
    · cases hdeadline
    · obtain rfl := Option.some.inj hdeadline
      exact hp.2 s D hs hD

variable [IsStrictOrderedRing R]

/-- The pending deadline after a run of prompt steps: `k` ticks after the alarm was set at time `s₀`,
it is no later than `k + 1` times `SI` seconds after `s₀`. -/
theorem deadline_le_of_run {s₀ : R} (hx : x.Ok)
    (hD : ∀ D, x.deadline = some D → D ≤ s₀ + TimerWheel.SI)
    (h : Run (Guarded Step Prompt) x ops x') : x'.Ok ∧ ∀ D, x'.deadline = some D →
      D ≤ s₀ + (TimedOp.ticks ops + 1 : ℕ) * TimerWheel.SI := by
  induction h with
  | refl => exact ⟨hx, by simpa [TimedOp.ticks] using hD⟩
  | @tail ops y z op hrun hstep ih =>
    obtain ⟨hy, hle⟩ := ih
    obtain ⟨hstep, hprompt⟩ := hstep
    refine ⟨hy.step hstep, ?_⟩
    intro D' hD'
    obtain ⟨D, hDy⟩ := hy.pending hprompt.1
    have hbound := hle D hDy
    rcases Classical.em (∃ fired, op = .tick fired) with ⟨fired, rfl⟩ | hop
    · -- the alarm is set again at the deadline
      have hreset : y.resetTime (.tick fired) = some D := hDy
      have hdeadline := hstep.deadline_eq
      simp only [hreset, hD'] at hdeadline
      split at hdeadline
      · cases hdeadline
      · obtain rfl := Option.some.inj hdeadline
        rw [TimedOp.ticks_tick]
        push_cast at hbound ⊢
        linarith
    · have hop : ∀ fired, op ≠ .tick fired := fun fired he => hop ⟨fired, he⟩
      rw [TimedOp.ticks_other ops hop]
      exact (hstep.deadline_le hprompt hop hDy hD').trans hbound

end TimedWheel

open TimedWheel

/-- In every run of a wheel in real time from the empty one, an operation at time `s` that leaves a timer
stored leaves a tick pending, and postpones no tick that was pending at `D` exactly if that is `SI`
seconds after `s` at least. After every timer that is added, the first one too, at time `s`, and
every run whose operations find a timer stored and are prompt, the tick after `k` others comes no later
than `k + 1` times `SI` seconds after `s`. -/
theorem wheel_clock_iff {R : Type*} [Field R] [LinearOrder R] [IsStrictOrderedRing R]
    {mem : NodeStore Ptr TwTimer} {s₀ : R} {ops : List (TimedOp R)} {x : TimedWheel R}
    (h : Run TimedWheel.Step (TimedWheel.init mem s₀) ops x) :
    (∀ op x' s D, x.Step op x' → op.resetAt = some s → x.deadline = some D → x'.stored ≠ 0 →
      ∃ D', x'.deadline = some D' ∧ (D' ≤ D ↔ s + TimerWheel.SI ≤ D)) ∧
    ∀ t now s x₁ ops' x₂ fired x₃, x.Step (.call (.add t now) s) x₁ →
      Run (Guarded TimedWheel.Step Prompt) x₁ ops' x₂ → x₂.Step (.tick fired) x₃ →
      x₃.time ≤ s + (TimedOp.ticks ops' + 1 : ℕ) * TimerWheel.SI := by
  have hx := ok_of_run h
  constructor
  · intro op x' s D hstep hs hD hne
    exact ⟨_, hx.deadline_of_resetAt hstep hs hne, Iff.rfl⟩
  · intro t now s x₁ ops' x₂ fired x₃ hadd hrun htick
    have hD₁ : ∀ D, x₁.deadline = some D → D ≤ s + TimerWheel.SI := by
      intro D hD
      have hdeadline := hadd.deadline_eq
      simp only [hD, resetTime, TimedOp.resetAt, WheelOp.operates, if_true] at hdeadline
      split at hdeadline
      · cases hdeadline
      · exact (Option.some.inj hdeadline).le
    obtain ⟨-, hle⟩ := deadline_le_of_run (hx.step hadd) hD₁ hrun
    cases htick with
    | tick D w fired hD htick => exact hle D hD

/-- A new timer with a timeout of 30 seconds can be constructed and added to a wheel in slot `0`. -/
theorem exists_added {x : TimedWheel ℝ} {ls : Fin 60 → List Ptr} {t : Ptr} {s : ℝ}
    (hr : x.wheel.Rep ls) (hcur : x.wheel.curSlot = 0) (ht : ∀ i, t ∉ ls i) (hs : x.Now s) :
    ∃ x₁ x₂, x.Step (.call (.new t 30) s) x₁ ∧ x₁.Step (.call (.add t 0) s) x₂ ∧
      x₁.deadline = x.deadline ∧ x₁.stored = x.stored ∧ x₂.stored = x.stored + 1 ∧ x₂.time = s ∧
      x₂.wheel.Rep (Function.update ls 30 (t :: ls 30)) ∧ x₂.wheel.curSlot = 0 := by
  obtain ⟨w₁, hnew, hr₁, hobj, hcur₁⟩ : ∃ w₁, x.wheel.Step (.new t 30) w₁ ∧ w₁.Rep ls ∧
      w₁.mem t = some (TwTimer.fresh 30) ∧ w₁.curSlot = 0 :=
    ⟨_, .new t 30 (hr.not_stored ht), hr.update ht _, Function.update_self .., hcur⟩
  have hdue : addInt w₁.curSlot.val (TimerWheel.ticksTo 30 0) = some 30 := by
    have hticks : addInt 0 (TimerWheel.ticksTo 30 0) = some 30 := rfl
    rw [hcur₁]
    exact hticks
  have hslot : TimerWheel.slotAt (Int.tmod 30 60) = some 30 := rfl
  obtain ⟨w, hadd, hr', hcur', -⟩ := TimerWheel.addTimer_spec hr₁ ht hobj rfl (fun _ => rfl) hdue hslot
  refine ⟨⟨w₁, s, x.deadline, x.stored⟩, ⟨w, s, alarm w.alarm s, x.stored + 1⟩, ?_, ?_, rfl, rfl, rfl,
    rfl, hr', hcur'.trans hcur₁⟩
  · have hstep := TimedWheel.Step.call (x := x) (.new t 30) s w₁ (by simp) hs hnew
    simpa [WheelOp.operates, WheelOp.change] using hstep
  · exact .call (.add t 0) s w (by simp) ⟨le_rfl, hs.2⟩ (.add t 0 w (hr₁.not_stored ht) hadd)

/-- Two timers can be added to the empty wheel, the first at time `0` and the second at a time `s`
before the tick that is pending then. -/
theorem exists_two_added {s : ℝ} (h₀ : 0 ≤ s) (h₁ : s ≤ 1) : ∃ ops x x',
    Run TimedWheel.Step (TimedWheel.init (fun _ => none) (0 : ℝ)) ops x ∧
      x.Step (.call (.add 2 0) s) x' ∧ x.deadline = some 1 ∧ x'.stored = 2 := by
  have hempty := TimerWheel.empty_rep (fun _ => none) 0
  have hnow : (TimedWheel.init (fun _ => none) (0 : ℝ)).Now 0 := ⟨le_rfl, by simp [TimedWheel.init]⟩
  obtain ⟨x₁, x₂, hnew, hadd, -, -, hstored, htime, hr, hcur⟩ :=
    exists_added (t := 1) hempty rfl (by simp) hnow
  have hrun : Run TimedWheel.Step _ _ x₂ := (Run.single hnew).tail hadd
  have hD : x₂.deadline = some 1 := by
    have hone := (ok_of_run (.single hnew)).deadline_of_resetAt hadd (s := 0) rfl
      (by simp [hstored, TimedWheel.init])
    simpa [TimerWheel.SI] using hone
  have ht₂ : ∀ i, 2 ∉ Function.update (fun _ : Fin 60 => ([] : List Ptr)) 30 [1] i := by
    intro i
    rcases eq_or_ne i 30 with rfl | hi <;> simp [*]
  obtain ⟨x₃, x₄, hnew₂, hadd₂, hD₃, -, hstored₂, -⟩ := exists_added (s := s) hr hcur ht₂
    ⟨htime ▸ h₀, by rintro D hD'; rw [hD] at hD'; cases hD'; exact h₁⟩
  refine ⟨_, x₃, x₄, hrun.tail hnew₂, hadd₂, hD₃.trans hD, ?_⟩
  rw [hstored₂, hstored]
  rfl

/-- Two timers added at one time: the second does not postpone the tick. -/
theorem wheel_clock_two : ∃ ops x x', Run TimedWheel.Step
    (TimedWheel.init (fun _ => none) (0 : ℝ)) ops x ∧
    x.Step (.call (.add 2 0) 0) x' ∧ x.deadline = some 1 ∧ ∃ D', x'.deadline = some D' ∧ D' ≤ 1 := by
  obtain ⟨ops, x, x', hrun, hstep, hD, hstored⟩ := exists_two_added (s := 0) le_rfl zero_le_one
  obtain ⟨D', hD', hiff⟩ := (wheel_clock_iff hrun).1 _ x' 0 1 hstep rfl hD (by simp [hstored])
  exact ⟨ops, x, x', hrun, hstep, hD, D', hD', hiff.mpr (by simp [TimerWheel.SI])⟩

/-- A timer that is added half a second before the tick at time `1` postpones it to `3 / 2`. -/
theorem tick_postponed : ∃ ops x x', Run TimedWheel.Step
    (TimedWheel.init (fun _ => none) (0 : ℝ)) ops x ∧
    x.Step (.call (.add 2 0) (1 / 2)) x' ∧ x.deadline = some 1 ∧ x'.stored = 2 ∧
      x'.deadline = some (3 / 2) := by
  obtain ⟨ops, x, x', hrun, hstep, hD, hstored⟩ := exists_two_added (s := 1 / 2) (by norm_num)
    (by norm_num)
  have hlate := (ok_of_run hrun).deadline_of_resetAt hstep (s := 1 / 2) rfl (by simp [hstored])
  refine ⟨ops, x, x', hrun, hstep, hD, hstored, ?_⟩
  rw [hlate]
  norm_num [TimerWheel.SI]

end Ulsp
