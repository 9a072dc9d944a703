import Ulsp.Base

/-!
# The time heap (`lib/heap_timer.hh`)

`timer_heap` keeps `hp_timer` pointers in an array that doubles when it is full. Position `0` is
the root, its only proper child is position `1`, and every other position `i` has the children
`2 * i` and `2 * i + 1`; so `i / 2` is the parent of every position but `0`, and `2 * i` is not a
proper child at `i = 0`, where it is the position itself.

Every operation is a function from heap to heap in `Option`, `none` being an access outside the
array or through a null or freed pointer. The argument of an operation is the result of its
`dynamic_cast<hp_timer<T> *>`, so `none` is a timer of another class. Each reading of `time(NULL)`
is a parameter. `size`, `capacity` and positions are natural numbers, where the code has `int`: with
more than 2^30 timers at once `i * 2`, and then `capacity * 2`, overflow there, and with no more than
that nothing does (`HeapSys.ints_of_run`). Prints to `stdout` and `cerr` are left out.
-/

namespace Ulsp

/-- `hp_timer`, as far as the heap reads it. -/
structure HpTimer where
  expire : ℤ
  deriving DecidableEq, Repr

/-- `timer_heap`, with the timer objects, the seconds of the pending alarm (`0` when there is none)
and whether `SIGALRM` is blocked. -/
structure TimerHeap where
  slots : List (Option Ptr)
  capacity : ℕ
  size : ℕ
  mem : Store HpTimer
  alarm : ℕ
  alrmBlocked : Bool

namespace TimerHeap

/-- The constructor: an array of five null pointers. -/
def empty (mem : Store HpTimer) (alarm : ℕ) (alrmBlocked : Bool) : TimerHeap where
  slots := List.replicate 5 none
  capacity := 5
  size := 0
  mem := mem
  alarm := alarm
  alrmBlocked := alrmBlocked

/-- `block_alarm`. -/
def blockAlarm (h : TimerHeap) : TimerHeap := { h with alrmBlocked := true }

/-- `unblock_alarm`. -/
def unblockAlarm (h : TimerHeap) : TimerHeap := { h with alrmBlocked := false }

/-- `setExpire(e)` on the timer `t`, which does not touch the container. -/
def setExpire (t : Ptr) (e : ℤ) (h : TimerHeap) : TimerHeap :=
  { h with mem := Function.update h.mem t (some ⟨e⟩) }

/-- The read `slots[i]->expire`. -/
def expireAt (h : TimerHeap) (i : ℕ) : Option ℤ := do
  let t ← h.slots[i]?.join
  let timer ← h.mem t
  return timer.expire

/-- The write `slots[i] = t`. -/
def setSlot (h : TimerHeap) (i : ℕ) (t : Option Ptr) : Option TimerHeap :=
  if i < h.slots.length then some { h with slots := h.slots.set i t } else none

/-- `std::swap(slots[i], slots[j])`. -/
def swapSlots (h : TimerHeap) (i j : ℕ) : Option TimerHeap := do
  let a ← h.slots[i]?
  let b ← h.slots[j]?
  return { h with slots := (h.slots.set i b).set j a }

/-- The step `if (child + 1 < size && slots[child + 1]->expire < slots[child]->expire) ++child`. -/
def lesserChild (h : TimerHeap) (child : ℕ) : Option ℕ :=
  if child + 1 < h.size then do
    let right ← h.expireAt (child + 1)
    let left ← h.expireAt child
    return if right < left then child + 1 else child
  else some child

/-- `percolate_down(i)`, for at most `fuel` passes of its loop. -/
def percolateDown : ℕ → ℕ → TimerHeap → Option TimerHeap
  | 0, _, _ => none
  | fuel + 1, i, h =>
    if i * 2 < h.size then do
      let child ← h.lesserChild (i * 2)
      let below ← h.expireAt child
      let here ← h.expireAt i
      if below < here then
        let h ← h.swapSlots i child
        percolateDown fuel child h
      else some h
    else some h

/-- `percolate_up(i)`, for at most `fuel` passes of its loop. -/
def percolateUp : ℕ → ℕ → TimerHeap → Option TimerHeap
  | 0, _, _ => none
  | fuel + 1, i, h =>
    if 0 < i then do
      let here ← h.expireAt i
      let above ← h.expireAt (i / 2)
      if here < above then
        let h ← h.swapSlots i (i / 2)
        percolateUp fuel (i / 2) h
      else some h
    else some h

/-- `resize`: an array of twice the capacity, with the stored pointers copied and the rest null. -/
def resize (h : TimerHeap) : TimerHeap :=
  { h with
    capacity := h.capacity * 2
    slots := h.slots.take h.size ++ List.replicate (h.capacity * 2 - h.size) none }

/-- `getIdx`: the first position below `size` that holds `t`, or `size`. -/
def getIdx (h : TimerHeap) (t : Ptr) : ℕ :=
  (h.slots.take h.size).findIdx (· == some t)

/-- `resetTimer`, at clock `now`. A root that expires this very second is given one second, since
`alarm(0)` would cancel the alarm. -/
def resetTimer (now : ℤ) (h : TimerHeap) : Option TimerHeap :=
  if h.size = 0 then some { h with alarm := 0 }
  else do
    let expire ← h.expireAt 0
    let tics := toInt32 (expire - now)
    return { h with alarm := toUInt32 (if tics = 0 then 1 else tics) }

/-- `add_timer`. A timer of another class is reported after the mask and the array have changed. -/
def addTimer (now : ℤ) (timer : Option Ptr) (h : TimerHeap) : Option TimerHeap :=
  let h := h.blockAlarm
  let h := if h.size = h.capacity then h.resize else h
  match timer with
  | none => some h
  | some t => do
    let h ← h.setSlot h.size (some t)
    let h := { h with size := h.size + 1 }
    let h ← percolateUp h.size (h.size - 1) h
    let h ← h.resetTimer now
    return h.unblockAlarm

/-- The part of `adjust_timer` that restores the order around position `idx`. -/
def adjustAt (idx : ℕ) (h : TimerHeap) : Option TimerHeap := do
  let here ← h.expireAt idx
  let above ← h.expireAt (idx / 2)
  if here < above then percolateUp (idx + 1) idx h
  else
    let child ← h.lesserChild (idx * 2)
    if child < h.size then
      let here ← h.expireAt idx
      let below ← h.expireAt child
      if below < here then percolateDown (h.size + 1) idx h else some h
    else some h

/-- `adjust_timer`. -/
def adjustTimer (now : ℤ) (timer : Option Ptr) (h : TimerHeap) : Option TimerHeap :=
  match timer with
  | none => some h
  | some t =>
    let idx := h.getIdx t
    if idx = h.size then some h
    else do
      let h ← h.adjustAt idx
      h.resetTimer now

/-- The statements `slots[idx] = slots[--size]; slots[size] = nullptr;`. -/
def moveLast (idx : ℕ) (h : TimerHeap) : Option TimerHeap := do
  let h := { h with size := h.size - 1 }
  let last ← h.slots[h.size]?
  let h ← h.setSlot idx last
  h.setSlot h.size none

/-- The removal in `del_timer`: the last pointer takes position `idx`, and the order is restored
around `idx` unless `idx` was the last position. -/
def removeAt (idx : ℕ) (t : Ptr) (h : TimerHeap) : Option TimerHeap := do
  let h ← h.moveLast idx
  match ← h.slots[idx]? with
  | none => some h
  | some _ =>
    let here ← h.expireAt idx
    let timer ← h.mem t
    if here < timer.expire then percolateUp (idx + 1) idx h
    else percolateDown (h.size + 1) idx h

/-- `del_timer`. A timer that is not stored is reported with `SIGALRM` still blocked. The last line
prints `timer->expire`, a read of the timer after `SIGALRM` is unblocked. -/
def delTimer (now : ℤ) (timer : Option Ptr) (h : TimerHeap) : Option TimerHeap :=
  match timer with
  | none => some h
  | some t =>
    if h.size = 0 then some h
    else
      let h := h.blockAlarm
      let idx := h.getIdx t
      if idx = h.size then some h
      else do
        let h ← h.removeAt idx t
        let h ← h.resetTimer now
        let _ ← h.mem t
        return h.unblockAlarm

/-- The loop of `tick`, for at most `fuel` passes, with the timers whose `cb_func` it ran, in
order. A callback does not touch the heap. -/
def tickLoop (now : ℤ) : ℕ → TimerHeap → Option (TimerHeap × List Ptr)
  | 0, _ => none
  | fuel + 1, h =>
    if h.size = 0 then some (h, [])
    else do
      let cur ← h.slots[0]?.join
      let timer ← h.mem cur
      if timer.expire ≤ now then
        -- `cb_func()`, then `delete cur`
        let h := { h with mem := Function.update h.mem cur none }
        if h.size = 1 then some ({ h with size := 0 }, [cur])
        else
          let h ← h.moveLast 0
          let h ← percolateDown (h.size + 1) 0 h
          let (h, fired) ← tickLoop now fuel h
          return (h, cur :: fired)
      else some (h, [])

/-- `tick`, with `now` its reading of the clock and `later` the one `resetTimer` makes. The second
component is the timers whose `cb_func` it ran, in order. -/
def tick (now later : ℤ) (h : TimerHeap) : Option (TimerHeap × List Ptr) :=
  if h.size = 0 then some (h, [])
  else do
    let (h, fired) ← tickLoop now (h.size + 1) h
    let h ← h.resetTimer later
    return (h, fired)

end TimerHeap

end Ulsp
