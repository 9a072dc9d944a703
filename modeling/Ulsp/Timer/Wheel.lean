import Ulsp.Base
import Ulsp.Lib.NodeStore

/-!
# The timer wheel (`lib/wheel_timer.hh`)

`timer_wheel` keeps its `tw_timer` objects in `N` doubly linked lists, one for each slot. A timer
goes to the front of the list of the slot it will be due in and records how often that slot is to be
passed before (`rotation`); every `tick` advances to the next slot and walks its list. An operation
fails (`none`) where the code would follow a null or freed pointer, index outside the array or
overflow an `int`; but `count` is an integer here, the number of timers stored (`count_of_run`), which
overflows in the code with 2^31 of them. The loops that walk a list take the passes they may make.
-/

namespace Ulsp

open Lib

/-- `tw_timer`, as far as the wheel reads it and without its links. -/
structure TwTimer where
  expire : ℤ
  rotation : ℤ
  slotIdx : ℤ
  deriving DecidableEq, Repr

/-- A timer object as its constructor makes it. -/
def TwTimer.fresh (expire : ℤ) : Node Ptr TwTimer := ⟨⟨expire, 0, 0⟩, none, none⟩

/-- `timer_wheel`, with the timer objects and the seconds of the pending alarm. `curSlot` is a
remainder by `N` at all times. -/
structure TimerWheel where
  slots : Fin 60 → Option Ptr
  curSlot : Fin 60
  count : ℤ
  mem : NodeStore Ptr TwTimer
  alarm : ℕ

namespace TimerWheel

/-- The number of slots. -/
def N : ℕ := 60

/-- The seconds between two ticks. -/
def SI : ℕ := 1

/-- The constructor: an empty wheel. -/
def empty (mem : NodeStore Ptr TwTimer) (alarm : ℕ) : TimerWheel :=
  ⟨fun _ => none, ⟨0, by decide⟩, 0, mem, alarm⟩

/-- An index into `slots`, when it is one. -/
def slotAt (i : ℤ) : Option (Fin 60) :=
  if h : 0 ≤ i ∧ i < 60 then some ⟨i.toNat, by omega⟩ else none

/-- `resetTimer`. -/
def resetTimer (w : TimerWheel) : TimerWheel :=
  { w with alarm := if w.count = 0 then 0 else SI }

/-- The ticks to the expiry of a timer added at clock `now`, as `add_timer` computes them. -/
def ticksTo (expire now : ℤ) : ℤ :=
  let timeout := toInt32 (expire - now)
  let ticks := timeout.tdiv SI
  if ticks = 0 then 1 else ticks

/-- `add_timer`, at clock `now`. The timer is read before it is tested, so a timer of another class
is a null pointer followed. Its links are written only where the slot has a list already. -/
def addTimer (now : ℤ) (timer : Option Ptr) (w : TimerWheel) : Option TimerWheel := do
  let t ← timer
  let obj ← w.mem t
  let ticks := ticksTo obj.val.expire now
  let rotation := ticks.tdiv N
  let due ← addInt w.curSlot.val ticks
  let slotIdx := due.tmod N
  let mem ← w.mem.setVal t { obj.val with rotation, slotIdx }
  let i ← slotAt slotIdx
  let mem ← match w.slots i with
    | none => some mem
    | some hd => do
      let mem ← mem.setNext t (some hd)
      mem.setPrev hd (some t)
  return resetTimer
    { w with slots := Function.update w.slots i (some t), mem := mem, count := w.count + 1 }

/-- The search `while (cur != timer) cur = cur->next`. -/
def seek (t : Ptr) (w : TimerWheel) : ℕ → Option Ptr → Option (Option Ptr)
  | 0, _ => none
  | fuel + 1, cur =>
    if cur = some t then some cur
    else do
      let c ← cur
      let node ← w.mem c
      seek t w fuel node.next

/-- `del_timer`. A null timer is rejected; the object itself is not deleted. -/
def delTimer (timer : Option Ptr) (w : TimerWheel) (fuel : ℕ) : Option TimerWheel :=
  match timer with
  | none => some w
  | some t => do
    let obj ← w.mem t
    let i ← slotAt obj.val.slotIdx
    let cur ← w.seek t fuel (w.slots i)
    match cur with
    | none => return w
    | some c =>
      let node ← w.mem c
      let w ← match node.prev with
        | some p => (w.mem.setNext p node.next).map fun mem => { w with mem := mem }
        | none => some { w with slots := Function.update w.slots i node.next }
      let mem ← w.mem.trySetPrev node.next node.prev
      return resetTimer { w with mem := mem, count := w.count - 1 }

/-- `setExpire(e)` on the timer `t`, which does not touch the container. -/
def setExpire (t : Ptr) (e : ℤ) (w : TimerWheel) : Option TimerWheel := do
  let obj ← w.mem t
  let mem ← w.mem.setVal t { obj.val with expire := e }
  return { w with mem := mem }

/-- `adjust_timer`. -/
def adjustTimer (now : ℤ) (timer : Option Ptr) (w : TimerWheel) (fuel : ℕ) :
    Option TimerWheel := do
  let w ← w.delTimer timer fuel
  w.addTimer now timer

/-- The statements of `tick` that unlink and delete the timer `c`, after its `cb_func`. -/
def dropFired (c : Ptr) (next : Option Ptr) (w : TimerWheel) : Option TimerWheel :=
  if w.slots w.curSlot = some c then do
    let mem ← w.mem.trySetPrev next none
    return { w with
      slots := Function.update w.slots w.curSlot next
      mem := Function.update mem c none
      count := w.count - 1 }
  else do
    let tmp ← w.mem c
    let mem ← w.mem.trySetPrev next tmp.prev
    -- `assert(tmp->prev)`
    let p ← tmp.prev
    let mem ← mem.setNext p next
    return { w with mem := Function.update mem c none, count := w.count - 1 }

/-- The loop of `tick` over the list of the current slot, from `cur` on, with the timers whose
`cb_func` it ran, in order. A callback does not touch the wheel. -/
def tickLoop : ℕ → Option Ptr → TimerWheel → Option (TimerWheel × List Ptr)
  | 0, _, _ => none
  | _ + 1, none, w => some (w, [])
  | fuel + 1, some c, w => do
    let node ← w.mem c
    if 0 < node.val.rotation then
      let mem ← w.mem.setVal c { node.val with rotation := node.val.rotation - 1 }
      tickLoop fuel node.next { w with mem := mem }
    else
      let w ← w.dropFired c node.next
      let (w, fired) ← tickLoop fuel node.next w
      return (w, c :: fired)

/-- `tick`. -/
def tick (w : TimerWheel) (fuel : ℕ) : Option (TimerWheel × List Ptr) := do
  let w := { w with curSlot := w.curSlot + 1 }
  let (w, fired) ← tickLoop fuel (w.slots w.curSlot) w
  return (resetTimer w, fired)

end TimerWheel

end Ulsp
