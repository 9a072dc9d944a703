import Ulsp.Base
import Ulsp.Lib.NodeStore

/-!
# The sorted timer list (`lib/lst_timer.hh`)

`sort_timer_lst` keeps its `util_timer` objects in a doubly linked list in ascending order of
`expire`, with pointers to both ends. An operation takes the result of its `dynamic_cast`, and fails
(`none`) where the code would follow a null or freed pointer. The loops that walk the list have no
bound of their own, so each operation that has one takes the passes it may make. `add_timer` and
`adjust_timer` share their names with the overload that inserts behind a node, here `addTimerAt`.
-/

namespace Ulsp

open Lib

/-- `util_timer`, as far as the list reads it and without its links. -/
structure UtilTimer where
  expire : ℤ
  deriving DecidableEq, Repr

/-- A timer object as its constructor makes it. -/
def UtilTimer.fresh (expire : ℤ) : Node Ptr UtilTimer := ⟨⟨expire⟩, none, none⟩

/-- `sort_timer_lst`, with the timer objects and the seconds of the pending alarm. -/
structure SortTimerLst where
  head : Option Ptr
  tail : Option Ptr
  mem : NodeStore Ptr UtilTimer
  alarm : ℕ

namespace SortTimerLst

/-- The constructor: an empty list. -/
def empty (mem : NodeStore Ptr UtilTimer) (alarm : ℕ) : SortTimerLst := ⟨none, none, mem, alarm⟩

/-- `resetTimer`, at clock `now`. -/
def resetTimer (now : ℤ) (l : SortTimerLst) : Option SortTimerLst :=
  match l.head with
  | none => some { l with alarm := 0 }
  | some hd => do
    let first ← l.mem hd
    let tics := toInt32 (first.val.expire - now)
    return { l with alarm := toUInt32 (if tics = 0 then 1 else tics) }

/-- The search `while (cur->next && cur->next->expire < expire) cur = cur->next`. -/
def seek (expire : ℤ) (l : SortTimerLst) : ℕ → Ptr → Option Ptr
  | 0, _ => none
  | fuel + 1, cur => do
    let timer ← l.mem cur
    match timer.next with
    | none => some cur
    | some n =>
      let following ← l.mem n
      if following.val.expire < expire then seek expire l fuel n else some cur

/-- The statements of `add_timer(timer, lst_head)` that link the timer `t` behind `cur`. -/
def linkBehind (t cur : Ptr) (l : SortTimerLst) : Option SortTimerLst := do
  let node ← l.mem cur
  match node.next with
  | some n =>
    let mem ← l.mem.setNext t (some n)
    let mem ← mem.setPrev n (some t)
    let mem ← mem.setPrev t (some cur)
    let mem ← mem.setNext cur (some t)
    return { l with mem := mem }
  | none =>
    let mem ← l.mem.setPrev t (some cur)
    let mem ← mem.setNext t none
    let mem ← mem.setNext cur (some t)
    return { l with mem := mem, tail := some t }

/-- `add_timer(timer, lst_head)`: insert behind the last node, from `lstHead` on, whose successor
does not expire before the timer. -/
def addTimerAt (t lstHead : Ptr) (l : SortTimerLst) (fuel : ℕ) : Option SortTimerLst := do
  let timer ← l.mem t
  let cur ← l.seek timer.val.expire fuel lstHead
  l.linkBehind t cur

/-- `add_timer`. The timer is read before it is tested, so a timer of another class is a null
pointer followed. The alarm is set again only when the list has a new head. -/
def addTimer (now : ℤ) (timer : Option Ptr) (l : SortTimerLst) (fuel : ℕ) :
    Option SortTimerLst := do
  let t ← timer
  let obj ← l.mem t
  match l.head with
  | none => resetTimer now { l with head := some t, tail := some t }
  | some hd =>
    let first ← l.mem hd
    if obj.val.expire ≤ first.val.expire then
      let mem ← l.mem.setNext t (some hd)
      let mem ← mem.setPrev hd (some t)
      resetTimer now { l with head := some t, mem := mem }
    else l.addTimerAt t hd fuel

/-- `del_timer`. The object itself is not deleted. -/
def delTimer (now : ℤ) (timer : Option Ptr) (l : SortTimerLst) : Option SortTimerLst :=
  match timer with
  | none => some l
  | some t => do
    let mem ← if l.head = some t then some l.mem else do
      let node ← l.mem t
      let p ← node.prev
      l.mem.setNext p node.next
    let mem ← if l.tail = some t then some mem else do
      let node ← mem t
      let n ← node.next
      mem.setPrev n node.prev
    if l.head = some t then do
      let node ← mem t
      let tail := if node.next = none then none else l.tail
      resetTimer now { l with head := node.next, tail := tail, mem := mem }
    else some { l with mem := mem }

/-- `setExpire(e)` on the timer `t`, which does not touch the container. -/
def setExpire (t : Ptr) (e : ℤ) (l : SortTimerLst) : Option SortTimerLst :=
  (l.mem.setVal t ⟨e⟩).map fun mem => { l with mem := mem }

/-- `adjust_timer`, with the readings of the clock that `del_timer` and `add_timer` make. The list is
taken to be in order still when the timer is in order with one of its neighbours, the one behind it
being read only when it is not in order with the one before. -/
def adjustTimer (deleted added : ℤ) (timer : Option Ptr) (l : SortTimerLst) (fuel : ℕ) :
    Option SortTimerLst :=
  match timer with
  | none => some l
  | some t => do
    let node ← l.mem t
    let afterPrev ← match node.prev with
      | none => some true
      | some p => (l.mem p).map fun before => decide (before.val.expire ≤ node.val.expire)
    let beforeNext ← match afterPrev, node.next with
      | true, _ | false, none => some true
      | false, some n => (l.mem n).map fun behind => decide (node.val.expire ≤ behind.val.expire)
    if afterPrev || beforeNext then some l
    else do
      let l ← l.delTimer deleted timer
      l.addTimer added timer fuel

/-- The loop of `tick`, with the timers whose `cb_func` it ran, in order. A callback does not
touch the list. -/
def tickLoop (now : ℤ) : ℕ → SortTimerLst → Option (SortTimerLst × List Ptr)
  | 0, _ => none
  | fuel + 1, l =>
    match l.head with
    | none => some (l, [])
    | some hd => do
      let first ← l.mem hd
      if first.val.expire ≤ now then
        -- `cb_func()`, then the head moves on and the old one is deleted
        let l := { l with head := first.next, mem := Function.update l.mem hd none }
        let (l, fired) ← tickLoop now fuel l
        return (l, hd :: fired)
      else some (l, [])

/-- `tick`, with `now` its reading of the clock and `later` the one `resetTimer` makes. -/
def tick (now later : ℤ) (l : SortTimerLst) (fuel : ℕ) : Option (SortTimerLst × List Ptr) := do
  let (l, fired) ← tickLoop now fuel l
  let mem ← match l.head with
    | none => some l.mem
    | some hd => l.mem.setPrev hd none
  let l ← resetTimer later { l with mem := mem }
  return (l, fired)

end SortTimerLst

end Ulsp
