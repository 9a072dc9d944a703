import Mathlib.Data.Finset.Card
import Ulsp.Timer.HeapRun

/-!
# The integers of the time heap

The heap's `size`, `capacity` and positions are `int`s in the code and natural numbers in the model.
Only an addition to a full array changes the capacity, and doubles it (`exec_capacity`), so in a run
with at most 2^30 timers at once every one of them, and every `i * 2 + 1`, is in the range of `int`
(`ints_of_run`).
-/

namespace Ulsp

open Lib

namespace TimerHeap

variable {h h' : TimerHeap} {i : ℕ}

/-- A heap that comes out of it has the capacity `c`. -/
def Leaves (c : ℕ) (x : Option TimerHeap) : Prop := ∀ h', x = some h' → h'.capacity = c

/-- A heap leaves its own capacity. -/
theorem Leaves.pure (h : TimerHeap) : Leaves h.capacity (some h) := by
  rintro _ ⟨⟩
  rfl

/-- What follows a step that is made decides. -/
theorem Leaves.bind {α : Type} {c : ℕ} {x : Option α} {f : α → Option TimerHeap}
    (hf : ∀ a, x = some a → Leaves c (f a)) : Leaves c (x >>= f) := by
  cases x with
  | none => exact fun _ hnone => by cases hnone
  | some a => exact hf a rfl

/-- A store in the array does not change the capacity. -/
theorem leaves_setSlot {o : Option Ptr} : Leaves h.capacity (h.setSlot i o) := by
  unfold setSlot
  split
  · exact .pure _
  · exact fun _ hnone => by cases hnone

/-- An exchange of two entries does not change the capacity. -/
theorem leaves_swapSlots {j : ℕ} : Leaves h.capacity (h.swapSlots i j) :=
  .bind fun _ _ => .bind fun _ _ => .pure _

/-- `percolate_up` does not change the capacity: by induction on the exchanges. -/
theorem leaves_percolateUp {fuel : ℕ} : Leaves h.capacity (percolateUp fuel i h) := by
  induction fuel generalizing h i with
  | zero => exact fun _ hnone => by cases hnone
  | succ fuel ih =>
    unfold percolateUp
    split
    · refine .bind fun _ _ => .bind fun _ _ => ?_
      split
      · exact .bind fun h₁ hswap => leaves_swapSlots h₁ hswap ▸ ih
      · exact .pure h
    · exact .pure h

/-- `percolate_down` does not change the capacity. -/
theorem leaves_percolateDown {fuel : ℕ} : Leaves h.capacity (percolateDown fuel i h) := by
  induction fuel generalizing h i with
  | zero => exact fun _ hnone => by cases hnone
  | succ fuel ih =>
    unfold percolateDown
    split
    · refine .bind fun _ _ => .bind fun _ _ => .bind fun _ _ => ?_
      split
      · exact .bind fun h₁ hswap => leaves_swapSlots h₁ hswap ▸ ih
      · exact .pure h
    · exact .pure h

/-- `reset_timer` does not change the capacity. -/
theorem leaves_resetTimer {now : ℤ} : Leaves h.capacity (h.resetTimer now) := by
  unfold resetTimer
  split
  · exact .pure _
  · exact .bind fun _ _ => .pure _

/-- The last timer moves to the place of another without a change of the capacity. -/
theorem leaves_moveLast : Leaves h.capacity (h.moveLast i) :=
  .bind fun _ _ => .bind fun h₁ hset => leaves_setSlot h₁ hset ▸ leaves_setSlot

/-- The removal of a timer does not change the capacity. -/
theorem leaves_removeAt {t : Ptr} : Leaves h.capacity (h.removeAt i t) := by
  refine .bind fun h₁ hmove => ?_
  rw [← leaves_moveLast h₁ hmove]
  refine .bind fun o _ => ?_
  cases o with
  | none => exact .pure h₁
  | some u =>
    refine .bind fun _ _ => .bind fun _ _ => ?_
    split
    · exact leaves_percolateUp
    · exact leaves_percolateDown

/-- A timer moves up or down without a change of the capacity. -/
theorem leaves_adjustAt : Leaves h.capacity (h.adjustAt i) := by
  refine .bind fun _ _ => .bind fun _ _ => ?_
  split
  · exact leaves_percolateUp
  · refine .bind fun _ _ => ?_
    split
    · refine .bind fun _ _ => .bind fun _ _ => ?_
      split
      · exact leaves_percolateDown
      · exact .pure h
    · exact .pure h

/-- `add_timer` doubles the capacity of a full array. -/
theorem leaves_addTimer {now : ℤ} {timer : Option Ptr} :
    Leaves (if h.size = h.capacity then h.capacity * 2 else h.capacity) (h.addTimer now timer) := by
  have hgrow : (if h.blockAlarm.size = h.blockAlarm.capacity then h.blockAlarm.resize
      else h.blockAlarm).capacity = if h.size = h.capacity then h.capacity * 2 else h.capacity :=
    apply_ite capacity ..
  unfold addTimer
  simp only
  rw [← hgrow]
  cases timer with
  | none => exact .pure _
  | some t =>
    refine .bind fun h₁ hset => ?_
    rw [← leaves_setSlot h₁ hset]
    refine .bind fun h₂ hup => ?_
    have hcap := leaves_percolateUp h₂ hup
    rw [← show h₂.capacity = h₁.capacity from hcap]
    exact .bind fun h₃ hreset => leaves_resetTimer h₃ hreset ▸ .pure _

/-- `adjust_timer` does not change the capacity. -/
theorem leaves_adjustTimer {now : ℤ} {timer : Option Ptr} :
    Leaves h.capacity (h.adjustTimer now timer) := by
  cases timer with
  | none => exact .pure h
  | some t =>
    simp only [adjustTimer]
    split
    · exact .pure h
    · exact .bind fun h₁ hadj => leaves_adjustAt h₁ hadj ▸ leaves_resetTimer

/-- `del_timer` does not change the capacity. -/
theorem leaves_delTimer {now : ℤ} {timer : Option Ptr} :
    Leaves h.capacity (h.delTimer now timer) := by
  cases timer with
  | none => exact .pure h
  | some t =>
    simp only [delTimer]
    split
    · exact .pure h
    · split
      · exact .pure h.blockAlarm
      · refine .bind fun h₁ hrem => ?_
        have hcap := leaves_removeAt h₁ hrem
        rw [← show h₁.capacity = h.capacity from hcap]
        exact .bind fun h₂ hreset => leaves_resetTimer h₂ hreset ▸ .bind fun _ _ => .pure _

/-- The loop of `tick` does not change the capacity: by induction on the timers that fire. -/
theorem tickLoop_capacity {now : ℤ} {fuel : ℕ} {fired : List Ptr}
    (hrun : tickLoop now fuel h = some (h', fired)) : h'.capacity = h.capacity := by
  induction fuel generalizing h h' fired with
  | zero => cases hrun
  | succ fuel ih =>
    simp only [tickLoop] at hrun
    split at hrun
    · cases hrun
      rfl
    · simp only [Option.bind_eq_bind, Option.bind_eq_some_iff] at hrun
      obtain ⟨cur, -, timer, -, hrun⟩ := hrun
      split at hrun
      · split at hrun
        · cases hrun
          rfl
        · simp only [Option.bind_eq_some_iff] at hrun
          obtain ⟨h₁, hmove, h₂, hdown, ⟨h₃, fired'⟩, hloop, hret⟩ := hrun
          cases hret
          have hcap := leaves_moveLast h₁ hmove
          exact (ih hloop).trans ((leaves_percolateDown h₂ hdown).trans hcap)
      · cases hrun
        rfl

/-- `tick` does not change the capacity. -/
theorem tick_capacity {now later : ℤ} {fired : List Ptr}
    (hrun : h.tick now later = some (h', fired)) : h'.capacity = h.capacity := by
  unfold tick at hrun
  split at hrun
  · cases hrun
    rfl
  · simp only [Option.bind_eq_bind, Option.bind_eq_some_iff] at hrun
    obtain ⟨⟨h₁, fired₁⟩, hloop, h₂, hreset, hret⟩ := hrun
    cases hret
    exact (leaves_resetTimer _ hreset).trans (tickLoop_capacity hloop)

end TimerHeap

open TimerHeap

/-- An operation leaves the capacity, or doubles it if the array is full. -/
theorem HeapOp.exec_capacity {h h' : TimerHeap} {op : HeapOp} {fired : List Ptr}
    (hrun : op.exec h = some (h', fired)) :
    h'.capacity = h.capacity ∨ h.size = h.capacity ∧ h'.capacity = h.capacity * 2 := by
  cases op with
  | add t e now =>
    obtain ⟨h₁, hadd, hret⟩ := Option.map_eq_some_iff.mp hrun
    cases hret
    have hcap := leaves_addTimer h' hadd
    split at hcap
    case isTrue hfull => exact .inr ⟨hfull, hcap⟩
    case isFalse => exact .inl hcap
  | reschedule t e now =>
    obtain ⟨h₁, hadj, hret⟩ := Option.map_eq_some_iff.mp hrun
    cases hret
    have hcap := leaves_adjustTimer h' hadj
    exact .inl hcap
  | del t now =>
    obtain ⟨h₁, hdel, hret⟩ := Option.map_eq_some_iff.mp hrun
    cases hret
    exact .inl (leaves_delTimer h' hdel)
  | tick now later => exact .inl (tick_capacity hrun)

/-- At most one timer more is stored. -/
theorem HeapOp.card_live_le {live : Finset Ptr} {fired : List Ptr} (op : HeapOp) :
    (op.live live fired).card ≤ live.card + 1 := by
  cases op with
  | add t e now => exact Finset.card_insert_le t live
  | reschedule t e now => exact Nat.le_succ _
  | del t now => exact (Finset.card_erase_le).trans (Nat.le_succ _)
  | tick now later => exact (Finset.card_le_card Finset.sdiff_subset).trans (Nat.le_succ _)

/-- `size` is the number of timers stored. -/
theorem HeapSys.Ok.size_eq {s : HeapSys} (hs : s.Ok) : s.heap.size = s.live.card := by
  obtain ⟨ts, hr, hlive⟩ := hs
  rw [← hlive, List.toFinset_card_of_nodup hr.nodup, hr.size]

/-- In a run with at most 2^30 timers at once the heap's integers are in the range of `int`. -/
theorem HeapSys.ints_of_run {mem : Store HpTimer} {a : ℕ} {b : Bool} {ops : List HeapOp} {s : HeapSys}
    (h : Run (Guarded HeapStep fun s _ => s.live.card < 2 ^ 30) (init mem a b) ops s) :
    s.heap.capacity < 2 ^ 31 ∧ s.heap.size ≤ 2 ^ 30 ∧ ∀ i < s.heap.size, i * 2 + 1 < 2 ^ 31 := by
  have hinv : s.Ok ∧ s.live.card ≤ 2 ^ 30 ∧ ∃ k ≤ 28, s.heap.capacity = 5 * 2 ^ k := by
    refine h.invariant
      (I := fun s => s.Ok ∧ s.live.card ≤ 2 ^ 30 ∧ ∃ k ≤ 28, s.heap.capacity = 5 * 2 ^ k) ?_
      ⟨ok_of_run .refl, Nat.zero_le _, 0, Nat.zero_le _, rfl⟩
    rintro s op t ⟨hok, -, k, hk, hcap⟩ ⟨hstep, hroom⟩
    obtain ⟨hop, fired, hexec, hlive⟩ := hstep
    obtain ⟨h', fired', hexec', hok'⟩ := HeapOp.exec_ok hok op hop
    obtain ⟨rfl, rfl⟩ := Prod.mk.inj (Option.some.inj (hexec.symm.trans hexec'))
    rw [← hlive] at hok'
    refine ⟨hok', ?_, ?_⟩
    · rw [hlive]
      exact (op.card_live_le).trans hroom
    · rcases op.exec_capacity hexec with hsame | ⟨hfull, hdouble⟩
      · exact ⟨k, hk, hsame.trans hcap⟩
      · -- the full array has fewer than 2^30 entries
        have hlt : 5 * 2 ^ k < 2 ^ 30 := by rw [← hcap, ← hfull, hok.size_eq]; exact hroom
        have hk' : k ≤ 27 := by
          by_contra hgt
          have hpow : 2 ^ 28 ≤ 2 ^ k := Nat.pow_le_pow_right (by decide) (by omega)
          omega
        exact ⟨k + 1, by omega, by rw [hdouble, hcap, Nat.pow_succ, Nat.mul_assoc]⟩
  obtain ⟨hok, hcard, k, hk, hcap⟩ := hinv
  have hpow : 2 ^ k ≤ 2 ^ 28 := Nat.pow_le_pow_right (by decide) hk
  have hsize := hok.size_eq
  exact ⟨by omega, by omega, fun i hi => by omega⟩

end Ulsp
