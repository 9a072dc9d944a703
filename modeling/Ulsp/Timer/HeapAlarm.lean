import Ulsp.Lib.Interrupt
import Ulsp.Timer.Heap
import Mathlib.Data.Finset.Basic
import Mathlib.Data.Finset.SDiff

/-!
# The time heap under `SIGALRM` (`lib/heap_timer.hh`, `net/test_hp_timer.cc`)

The handler of `test_hp_timer.cc` runs `tick` to completion between any two steps of an operation at
which `SIGALRM` is not blocked. So the operations are written here as programs over the heap whose
every access to the heap is an action of its own: the reads of `size` and of a slot, the reads through
a timer pointer, the writes of `std::swap`. What lies between `block_alarm` and `unblock_alarm` is one
action, as no tick comes between: all of `add_timer`, most of `del_timer`, nothing of `adjust_timer`.

`HeapLog` is the heap with what a run has done to the timers. A timer is live from `add_timer` until it
is fired or deleted; what `cb_func` does does not touch the heap, and the caller frees a deleted timer
after `del_timer`.
-/

namespace Ulsp

open Lib

/-- The heap, the timers added and neither fired nor deleted, and those added, fired and deleted so
far. -/
structure HeapLog where
  heap : TimerHeap
  live : Finset Ptr
  added : List Ptr
  fired : List Ptr
  deleted : List Ptr

/-- Where an operation stands when `SIGALRM` may be delivered: before `block_alarm` in `add_timer`; at
the cast, the test of `size`, `block_alarm` and the last line of `del_timer`; in `adjust_timer` before
its `resetTimer`; and in that at the test of `size`, the read of `slots[0]`, the read of the expiry of
the timer there, and the call of `alarm`. -/
inductive HeapPoint where
  | addCall
  | delCast (t : Ptr)
  | delSize
  | delCall
  | delLog (t : Ptr)
  | adjust
  | resetSize
  | resetRoot
  | resetExpire (t : Ptr)
  | resetAlarm
  deriving DecidableEq, Repr

/-- The heads that the code of the operations jumps to: the operations with the timer they are called
with, the loops with their indices, `adjust_timer` when it has an index, and `resetTimer`. -/
inductive HeapPc where
  | idle
  | add (t : Ptr)
  | del (t : Ptr)
  | adjust (t : Ptr)
  | getIdx (t : Ptr) (idx : ℕ)
  | adjustAt (idx : ℕ)
  | percolateUp (i : ℕ)
  | percolateDown (i : ℕ)
  | resetTimer
  deriving DecidableEq, Repr

/-- A program over the heap; its input is the clock. -/
abbrev HeapProg := Prog ℤ HeapLog HeapPoint

namespace HeapProg

/-- The read of `size`. -/
def size (p : HeapPoint) : HeapProg ℕ := .read p fun s => some s.heap.size

/-- The read of `slots[i]`. -/
def slot (p : HeapPoint) (i : ℕ) : HeapProg (Option Ptr) := .read p fun s => s.heap.slots[i]?

/-- The read of `t->expire`. -/
def expire (p : HeapPoint) (t : Option Ptr) : HeapProg ℤ :=
  .read p fun s => do
    let timer ← s.heap.mem (← t)
    return timer.expire

/-- The read of `slots[i]->expire` in `adjust_timer`. -/
def expireAt (i : ℕ) : HeapProg ℤ := do
  let t ← slot .adjust i
  expire .adjust t

/-- The write of `slots[i]`. -/
def setSlot (i : ℕ) (t : Option Ptr) : HeapProg Unit :=
  .write .adjust fun _ s => (s.heap.setSlot i t).map fun heap => { s with heap }

/-- `std::swap(slots[i], slots[j])`. -/
def swapSlots (i j : ℕ) : HeapProg Unit := do
  let a ← slot .adjust i
  let b ← slot .adjust j
  setSlot i b
  setSlot j a

/-- `if (child + 1 < size && slots[child + 1]->expire < slots[child]->expire) ++child`. -/
def lesserChild (child : ℕ) : HeapProg ℕ := do
  let n ← size .adjust
  if child + 1 < n then do
    let right ← expireAt (child + 1)
    let left ← expireAt child
    return if right < left then child + 1 else child
  else return child

end HeapProg

/-- The section of `del_timer` between `block_alarm` and `unblock_alarm`, and whether the timer was
found: one that is not is reported with `SIGALRM` still blocked. -/
def TimerHeap.delBlocked (now : ℤ) (t : Ptr) (h : TimerHeap) : Option (Bool × TimerHeap) :=
  let h := h.blockAlarm
  let idx := h.getIdx t
  if idx = h.size then some (false, h)
  else do
    let h ← h.removeAt idx t
    let h ← h.resetTimer now
    return (true, h.unblockAlarm)

/-- The test of `percolate_up`'s loop. -/
def HeapPc.upTo (i : ℕ) : HeapPc := if 0 < i then .percolateUp i else .resetTimer

open HeapProg in
/-- The code of the operations from each head to the next. -/
def HeapPc.code : HeapPc → HeapProg HeapPc
  | .idle => return .idle
  | .add t => do
    .write .addCall fun now s => (s.heap.addTimer now (some t)).map fun heap =>
      { s with heap, live := insert t s.live, added := s.added ++ [t] }
    return .idle
  | .del t => do
    let _ ← expire (.delCast t) (some t)
    let n ← size .delSize
    if n = 0 then return .idle
    else do
      let found ← .step .delCall fun now s => (s.heap.delBlocked now t).map fun (found, heap) =>
        (found, if found then
          { s with heap, live := s.live.erase t, deleted := s.deleted ++ [t] }
        else { s with heap })
      if found then do
        let _ ← expire (.delLog t) (some t)
        return .idle
      else return .idle
  | .adjust t => do
    -- the cast
    let _ ← expire .adjust (some t)
    return .getIdx t 0
  | .getIdx t idx => do
    let n ← size .adjust
    if idx < n then do
      let u ← slot .adjust idx
      return if u ≠ some t then .getIdx t (idx + 1) else .adjustAt idx
    else return .adjustAt idx
  | .adjustAt idx => do
    let n ← size .adjust
    if idx = n then return .idle
    else do
      let here ← expireAt idx
      let above ← expireAt (idx / 2)
      if here < above then return .upTo idx
      else do
        let child ← lesserChild (idx * 2)
        let n ← size .adjust
        if child < n then do
          let here ← expireAt idx
          let below ← expireAt child
          return if below < here then .percolateDown idx else .resetTimer
        else return .resetTimer
  | .percolateUp i => do
    let here ← expireAt i
    let above ← expireAt (i / 2)
    if here < above then do
      swapSlots i (i / 2)
      return .upTo (i / 2)
    else return .resetTimer
  | .percolateDown i => do
    let n ← size .adjust
    if i * 2 < n then do
      let child ← lesserChild (i * 2)
      let below ← expireAt child
      let here ← expireAt i
      if below < here then do
        swapSlots i child
        return .percolateDown child
      else return .resetTimer
    else return .resetTimer
  | .resetTimer => do
    let n ← size .resetSize
    if n = 0 then do
      .write .resetAlarm fun _ s => some { s with heap := { s.heap with alarm := 0 } }
      return .idle
    else do
      let t ← slot .resetRoot 0
      -- a null pointer has no expiry to read, whatever timer the point then names
      let e ← expire (.resetExpire (t.getD 0)) t
      .write .resetAlarm fun now s =>
        let tics := toInt32 (e - now)
        some { s with heap := { s.heap with alarm := toUInt32 (if tics = 0 then 1 else tics) } }
      return .idle

/-- The operation under way, and the heap. -/
structure AlarmSys where
  prog : HeapProg HeapPc
  log : HeapLog

/-- What happens: a call, with the expiry of the new timer or the one set before `adjust_timer`; a step
of the operation under way, at the clock `now`; or `SIGALRM`, with the readings of the clock in
`tick`. -/
inductive AlarmEvent where
  | add (t : Ptr) (expire : ℤ)
  | adjust (t : Ptr) (expire : ℤ)
  | del (t : Ptr)
  | go (now : ℤ)
  | alarm (now later : ℤ)

/-- The handler: `tick` fires timers and frees them. -/
def HeapLog.tick (clock : ℤ × ℤ) (s : HeapLog) : Option HeapLog :=
  (s.heap.tick clock.1 clock.2).map fun (heap, fired) =>
    { s with heap, live := s.live \ fired.toFinset, fired := s.fired ++ fired }

/-- What is next. A call is made when no operation is under way, of a live timer, or for `add_timer` a
new one. `none` is a step that is not possible, or that follows a null or freed pointer. -/
def AlarmSys.next (s : AlarmSys) : AlarmEvent → Option AlarmSys
  | .add t e =>
    if s.prog.isRet ∧ t ∉ s.log.live then
      some ⟨HeapPc.code (.add t), { s.log with heap := s.log.heap.setExpire t e }⟩
    else none
  | .adjust t e =>
    if s.prog.isRet ∧ t ∈ s.log.live then
      some ⟨HeapPc.code (.adjust t), { s.log with heap := s.log.heap.setExpire t e }⟩
    else none
  | .del t =>
    if s.prog.isRet ∧ t ∈ s.log.live then some ⟨HeapPc.code (.del t), s.log⟩ else none
  | .go now =>
    match s.prog with
    | .ret _ => none
    | .act _ f next => (f now s.log).map fun (b, log) => ⟨(next b).enter HeapPc.code, log⟩
  | .alarm now later =>
    if s.log.heap.alrmBlocked then none
    else (s.log.tick (now, later)).map fun log => { s with log }

/-- A step of a run. -/
def AlarmSys.Step (s : AlarmSys) (e : AlarmEvent) (s' : AlarmSys) : Prop := s.next e = some s'

/-- No operation under way, and the constructor's heap. -/
def AlarmSys.init (mem : Store HpTimer) (alarm : ℕ) (alrmBlocked : Bool) : AlarmSys :=
  ⟨.ret .idle, ⟨TimerHeap.empty mem alarm alrmBlocked, ∅, [], [], []⟩⟩

/-- What a tick at the clock `now` may find at each point: at the cast of `del_timer`, and when
`resetTimer` reads the expiry of the root, that timer has not expired; when `resetTimer` is about to
read the root, some stored timer has not; in the rest of `adjust_timer`, the root has not. -/
def HeapPoint.Harmless (now : ℤ) (h : TimerHeap) : HeapPoint → Prop
  | .delCast t => ∀ timer, h.mem t = some timer → now < timer.expire
  | .adjust => h.size = 0 ∨ ∀ e, h.expireAt 0 = some e → now < e
  | .resetRoot => ∃ i < h.size, ∀ e, h.expireAt i = some e → now < e
  | .resetExpire t => ∀ timer, h.mem t = some timer → now < timer.expire
  | _ => True

instance (now : ℤ) (h : TimerHeap) (p : HeapPoint) : Decidable (p.Harmless now h) :=
  match p with
  | .addCall | .delSize | .delCall | .delLog _ | .resetSize | .resetAlarm => .isTrue trivial
  | .delCast t | .resetExpire t =>
    inferInstanceAs (Decidable (∀ timer ∈ h.mem t, now < timer.expire))
  | .adjust => inferInstanceAs (Decidable (h.size = 0 ∨ ∀ e ∈ h.expireAt 0, now < e))
  | .resetRoot => inferInstanceAs (Decidable (∃ i < h.size, ∀ e ∈ h.expireAt i, now < e))

/-- A tick that is delivered during an operation is harmless at its point. -/
def Calm (s : AlarmSys) : AlarmEvent → Prop
  | .alarm now _ =>
    match s.prog with
    | .ret _ => True
    | .act p _ _ => p.Harmless now s.log.heap
  | _ => True

instance (s : AlarmSys) (e : AlarmEvent) : Decidable (Calm s e) := by
  unfold Calm
  split
  · split <;> infer_instance
  · infer_instance

end Ulsp
