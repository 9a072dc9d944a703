import Mathlib.Data.Set.Image
import Mathlib.Order.Bounds.Basic
import Ulsp.Timer.HeapRun
import Ulsp.Timer.ListCalls

/-!
# When the alarm is set again

`resetTimer` of the heap and of the list gives `alarm` the seconds from the clock to the earliest
expiry, as an `int` first, and one second in place of none. `Timely` is what a container needs of
them: at least one second, and no more than there are to the earliest expiry. A clock that has passed
that expiry makes the difference negative, and `alarm` takes an `unsigned int`: `timely_iff` says that
this is where the alarm comes too late, but for the two remainders that come out as one second.
`alarms_timely_iff` says it of every `resetTimer` in every run of either container.
-/

namespace Ulsp

open Lib Lib.NodeStore

/-- The seconds that `resetTimer` passes to `alarm` at clock `now`, for the earliest expiry `e`. -/
def delayTo (e now : ℤ) : ℕ :=
  let tics := toInt32 (e - now)
  toUInt32 (if tics = 0 then 1 else tics)

/-- The alarm that `resetTimer` sets at clock `now`, for the earliest expiry if there is one. -/
def alarmFor (now : ℤ) : Option ℤ → ℕ
  | none => 0
  | some e => delayTo e now

/-- An alarm that is set at clock `now` is set, and comes by the expiry `e`, or after a second. -/
def Timely (e now : ℤ) (alarm : ℕ) : Prop := 1 ≤ alarm ∧ (alarm : ℤ) ≤ max 1 (e - now)

/-- The clock `now` has not passed the expiry `e`, or by a multiple of `2 ^ 32` seconds or one second
less than that. -/
def NotPast (e now : ℤ) : Prop := now ≤ e ∨ (e - now) % 2 ^ 32 = 0 ∨ (e - now) % 2 ^ 32 = 1

/-- The delay is the difference modulo `2 ^ 32`, or one second if that is none. -/
theorem delayTo_eq (e now : ℤ) :
    (delayTo e now : ℤ) = if (e - now) % 2 ^ 32 = 0 then 1 else (e - now) % 2 ^ 32 := by
  obtain ⟨hge, hlt, k, hk⟩ := toInt32_cases (e - now)
  simp only [delayTo, toUInt32]
  generalize toInt32 (e - now) = tics at *
  split <;> split <;> omega

/-- The alarm is in time exactly when the clock has not passed the expiry. -/
theorem timely_iff (e now : ℤ) : Timely e now (delayTo e now) ↔ NotPast e now := by
  have hd := delayTo_eq e now
  unfold Timely NotPast
  split at hd <;> omega

/-! ## The heap -/

/-- The reading of the clock that `resetTimer` makes. -/
def HeapOp.clock : HeapOp → ℤ
  | .add _ _ now => now
  | .reschedule _ _ now => now
  | .del _ now => now
  | .tick _ later => later

namespace TimerHeap

variable {h h' : TimerHeap} {ts : List Ptr} {t : Ptr} {now later : ℤ} {fired : List Ptr}

/-- `resetTimer` sets the alarm for the root. -/
theorem alarm_of_resetTimer (hreset : h.resetTimer now = some h') :
    h'.alarm = alarmFor now h'.earliest := by
  unfold resetTimer at hreset
  split at hreset
  · rename_i hz
    obtain rfl := Option.some.inj hreset
    simp [earliest, hz, alarmFor]
  · rename_i hne
    cases hroot : h.expireAt 0 with
    | none => simp [hroot] at hreset
    | some e =>
      simp only [hroot, Option.bind_eq_bind, Option.bind_some] at hreset
      obtain rfl := Option.some.inj hreset
      have hroot' : expireAt { h with alarm := delayTo e now } 0 = some e := hroot
      show delayTo e now = alarmFor now (earliest { h with alarm := delayTo e now })
      simp only [earliest, hne, if_false, hroot', alarmFor]

theorem alarm_of_addTimer (hadd : h.addTimer now (some t) = some h') :
    h'.alarm = alarmFor now h'.earliest := by
  simp only [addTimer, Option.bind_eq_bind, Option.bind_eq_some_iff] at hadd
  obtain ⟨h₁, -, h₂, -, h₃, hreset, hunblock⟩ := hadd
  obtain rfl := Option.some.inj hunblock
  -- the mask is neither the alarm nor the root
  show h₃.alarm = alarmFor now h₃.earliest
  exact alarm_of_resetTimer hreset

theorem alarm_of_adjustTimer (hs : h.Stores ts) (ht : t ∈ ts)
    (hadj : h.adjustTimer now (some t) = some h') : h'.alarm = alarmFor now h'.earliest := by
  have hfound : h.getIdx t ≠ h.size := (getIdx_of_mem hs ht).1.ne
  simp only [adjustTimer, hfound, if_false, Option.bind_eq_bind, Option.bind_eq_some_iff] at hadj
  obtain ⟨h₁, -, hreset⟩ := hadj
  exact alarm_of_resetTimer hreset

theorem alarm_of_delTimer (hs : h.Stores ts) (ht : t ∈ ts)
    (hdel : h.delTimer now (some t) = some h') : h'.alarm = alarmFor now h'.earliest := by
  have hfound := (getIdx_of_mem hs ht).1
  have hfound' : h.blockAlarm.getIdx t ≠ h.blockAlarm.size := hfound.ne
  have hne : h.size ≠ 0 := by omega
  simp only [delTimer, hne, hfound', if_false, Option.bind_eq_bind, Option.bind_eq_some_iff] at hdel
  obtain ⟨h₁, -, h₂, hreset, timer, -, hunblock⟩ := hdel
  obtain rfl := Option.some.inj hunblock
  show h₂.alarm = alarmFor now h₂.earliest
  exact alarm_of_resetTimer hreset

/-- `tick` sets the alarm, unless it finds the heap empty. -/
theorem alarm_of_tick (htick : h.tick now later = some (h', fired)) (hne : h'.size ≠ 0) :
    h'.alarm = alarmFor later h'.earliest := by
  unfold tick at htick
  split at htick
  · rename_i hz
    obtain ⟨rfl, -⟩ := Prod.mk.inj (Option.some.inj htick)
    exact absurd hz hne
  · simp only [Option.bind_eq_bind, Option.bind_eq_some_iff] at htick
    obtain ⟨r, -, h₂, hreset, heq⟩ := htick
    obtain ⟨rfl, -⟩ := Prod.mk.inj (Option.some.inj heq)
    exact alarm_of_resetTimer hreset

/-- The root of a heap that stores a timer has the earliest expiry. -/
theorem Rep.earliest_eq (hr : h.Rep ts) {e : ℤ} (he : IsLeast (expiry h.mem '' {t | t ∈ ts}) e) :
    h.size ≠ 0 ∧ h.earliest = some e := by
  obtain ⟨u, hu, -⟩ := he.1
  have hpos : 0 < h.size := hr.size ▸ List.length_pos_of_mem hu
  obtain ⟨cur, h0, -⟩ := hr.slot hpos
  have hleast : IsLeast (expiry h.mem '' {t | t ∈ ts}) (expiry h.mem cur) := by
    refine ⟨⟨cur, List.mem_of_getElem? h0, rfl⟩, ?_⟩
    rintro _ ⟨w, hw, rfl⟩
    exact hr.root_le h0 hw
  refine ⟨hpos.ne', ?_⟩
  rw [he.unique hleast, TimerHeap.earliest, if_neg hpos.ne', hr.expireAt hpos, keys_of_getElem? h0]

end TimerHeap

/-- Every operation that leaves timers in the heap sets the alarm for the root. -/
theorem HeapStep.alarm_eq {s s' : HeapSys} {op : HeapOp} (hs : s.Ok) (hstep : HeapStep s op s')
    (hne : s'.heap.size ≠ 0) : s'.heap.alarm = alarmFor op.clock s'.heap.earliest := by
  obtain ⟨ts, hr, hlive⟩ := hs
  obtain ⟨hop, fired, hexec, -⟩ := hstep
  cases op with
  | add t e now =>
    obtain ⟨h', hadd, heq⟩ := Option.map_eq_some_iff.mp hexec
    obtain ⟨rfl, -⟩ := Prod.mk.inj heq
    exact TimerHeap.alarm_of_addTimer hadd
  | reschedule t e now =>
    obtain ⟨h', hadj, heq⟩ := Option.map_eq_some_iff.mp hexec
    obtain ⟨rfl, -⟩ := Prod.mk.inj heq
    exact TimerHeap.alarm_of_adjustTimer (hr.toHolds.setExpire t e).toStores
      (List.mem_toFinset.mp (hlive ▸ hop)) hadj
  | del t now =>
    obtain ⟨h', hdel, heq⟩ := Option.map_eq_some_iff.mp hexec
    obtain ⟨rfl, -⟩ := Prod.mk.inj heq
    exact TimerHeap.alarm_of_delTimer hr.toStores (List.mem_toFinset.mp (hlive ▸ hop)) hdel
  | tick now later => exact TimerHeap.alarm_of_tick hexec hne

/-- The alarm of a heap after every operation of every run. -/
theorem heap_alarm_eq {mem : Store HpTimer} {a : ℕ} {b : Bool} {ops : List HeapOp} {s s' : HeapSys}
    {op : HeapOp} (hrun : Run HeapStep (HeapSys.init mem a b) ops s) (hstep : HeapStep s op s')
    {e : ℤ} (he : IsLeast (expiry s'.heap.mem '' s'.live) e) :
    s'.heap.alarm = delayTo e op.clock := by
  obtain ⟨ts, hr, hlive⟩ := HeapSys.ok_of_run (hrun.tail hstep)
  have hset : (s'.live : Set Ptr) = {t | t ∈ ts} := by
    ext u
    simp [← hlive]
  rw [hset] at he
  obtain ⟨hne, hroot⟩ := hr.earliest_eq he
  rw [hstep.alarm_eq (HeapSys.ok_of_run hrun) hne, hroot]
  rfl

/-! ## The list -/

/-- The reading of the clock with which a call sets the alarm, if it calls `resetTimer`: `add_timer`
does for a new head, `del_timer` for the head, `tick` always; `adjust_timer` of a timer that stays in
order does not. -/
def LstCall.resetAt (s : LstSys) : LstCall → Option ℤ
  | .op (.add _ e now) =>
    match s.lst.head with
    | none => some now
    | some hd => if e ≤ utilExpiry s.lst.mem hd then some now else none
  | .op (.del t now) => if s.lst.head = some t then some now else none
  | .op (.free _) => none
  | .op (.tick _ later) => some later
  | .reschedule _ _ _ _ => none

namespace SortTimerLst

variable {l l' : SortTimerLst} {ts : List Ptr} {t : Ptr} {now later e : ℤ} {fired : List Ptr}
  {fuel : ℕ}

/-- `resetTimer` sets the alarm for the head. -/
theorem alarm_of_resetTimer (hreset : l.resetTimer now = some l') :
    l'.alarm = alarmFor now l'.earliest := by
  obtain ⟨head, tail, mem, alarm⟩ := l
  cases head with
  | none =>
    obtain rfl := Option.some.inj hreset
    rfl
  | some hd =>
    cases hfirst : mem hd with
    | none => simp [resetTimer, hfirst] at hreset
    | some first =>
      simp only [resetTimer, hfirst, Option.bind_eq_bind, Option.bind_some] at hreset
      obtain rfl := Option.some.inj hreset
      simp [earliest, hfirst, alarmFor, delayTo]

/-- `add_timer` sets the alarm for a new head only. -/
theorem alarm_of_addTimer {o : Node Ptr UtilTimer} (ho : l.mem t = some o)
    (hadd : l.addTimer now (some t) fuel = some l') :
    l'.alarm = if ∀ hd, l.head = some hd → o.val.expire ≤ utilExpiry l.mem hd
      then alarmFor now l'.earliest else l.alarm := by
  cases hhead : l.head with
  | none =>
    simp only [addTimer, ho, hhead, Option.bind_eq_bind, Option.bind_some] at hadd
    rw [if_pos (by simp)]
    exact alarm_of_resetTimer hadd
  | some hd =>
    simp only [addTimer, ho, hhead, Option.bind_eq_bind, Option.bind_some,
      Option.bind_eq_some_iff] at hadd
    obtain ⟨first, hfirst, hadd⟩ := hadd
    have hfe := utilExpiry_of_some hfirst
    split at hadd
    · rename_i hle
      rw [if_pos (by rintro _ ⟨⟩; rwa [hfe])]
      simp only [Option.bind_eq_some_iff] at hadd
      obtain ⟨m, -, m', -, hreset⟩ := hadd
      exact alarm_of_resetTimer hreset
    · rename_i hgt
      rw [if_neg fun h => hgt (hfe ▸ h hd rfl)]
      simp only [addTimerAt, linkBehind, Option.bind_eq_bind, Option.bind_eq_some_iff] at hadd
      obtain ⟨-, -, cur, -, node, -, hlink⟩ := hadd
      split at hlink <;> simp only [Option.bind_eq_some_iff] at hlink
      · obtain ⟨m₁, -, m₂, -, m₃, -, m₄, -, heq⟩ := hlink
        obtain rfl := Option.some.inj heq
        rfl
      · obtain ⟨m₁, -, m₂, -, m₃, -, heq⟩ := hlink
        obtain rfl := Option.some.inj heq
        rfl

/-- `del_timer` sets the alarm if the timer is the head. -/
theorem alarm_of_delTimer (hdel : l.delTimer now (some t) = some l') :
    l'.alarm = if l.head = some t then alarmFor now l'.earliest else l.alarm := by
  rcases Decidable.em (l.head = some t) with hhead | hhead <;>
    rcases Decidable.em (l.tail = some t) with htail | htail <;>
    simp only [delTimer, hhead, htail, if_true, if_false, Option.bind_eq_bind, Option.bind_some,
      Option.bind_eq_some_iff] at hdel ⊢
  · obtain ⟨node, -, hreset⟩ := hdel
    exact alarm_of_resetTimer hreset
  · obtain ⟨node, -, n, -, m, -, node', -, hreset⟩ := hdel
    exact alarm_of_resetTimer hreset
  · obtain ⟨node, -, p, -, m, -, heq⟩ := hdel
    obtain rfl := Option.some.inj heq
    rfl
  · obtain ⟨node, -, p, -, m, -, node', -, n, -, m', -, heq⟩ := hdel
    obtain rfl := Option.some.inj heq
    rfl

theorem alarm_of_tick (htick : l.tick now later fuel = some (l', fired)) :
    l'.alarm = alarmFor later l'.earliest := by
  simp only [tick, Option.bind_eq_bind, Option.bind_eq_some_iff] at htick
  obtain ⟨⟨⟨head, tail, mem, alarm⟩, fired'⟩, -, htick⟩ := htick
  cases head with
  | none =>
    simp only [Option.bind_some, Option.bind_eq_some_iff] at htick
    obtain ⟨l₁, hreset, heq⟩ := htick
    obtain ⟨rfl, -⟩ := Prod.mk.inj (Option.some.inj heq)
    exact alarm_of_resetTimer hreset
  | some hd =>
    simp only [Option.bind_eq_some_iff] at htick
    obtain ⟨m, -, l₁, hreset, heq⟩ := htick
    obtain ⟨rfl, -⟩ := Prod.mk.inj (Option.some.inj heq)
    exact alarm_of_resetTimer hreset

/-- The head of the links has the earliest expiry. -/
theorem Linked.earliest_eq (hl : l.Linked ts)
    (he : IsLeast (utilExpiry l.mem '' {t | t ∈ ts}) e) : l.earliest = some e := by
  obtain ⟨u, hu, -⟩ := he.1
  cases ts with
  | nil => cases hu
  | cons hd rest =>
    have hhead : l.head = some hd := hl.linked.fwd.1
    obtain ⟨v, hv⟩ := hl.alive hd List.mem_cons_self
    obtain ⟨first, hfirst, -⟩ := exists_of_valOf (m := l.mem) hv
    have hleast : IsLeast (utilExpiry l.mem '' {t | t ∈ hd :: rest}) (utilExpiry l.mem hd) := by
      refine ⟨⟨hd, List.mem_cons_self, rfl⟩, ?_⟩
      rintro _ ⟨w, hw, rfl⟩
      rcases List.mem_cons.mp hw with rfl | hw
      · exact le_rfl
      · exact (List.pairwise_cons.mp hl.sorted).1 w hw
    rw [he.unique hleast]
    simp [SortTimerLst.earliest, hhead, hfirst, utilExpiry_of_some hfirst]

end SortTimerLst

/-- `add_timer` of a timer object as constructed sets the alarm as `resetAt` says. -/
theorem SortTimerLst.Linked.alarm_of_add {s : LstSys} {ts : List Ptr} {t : Ptr} {e now : ℤ}
    {l : SortTimerLst} (hl : s.lst.Linked ts) (hfree : s.lst.mem t = none)
    (hadd : Returns ((s.lst.construct t e).addTimer now (some t)) l) :
    l.alarm = match (LstCall.op (.add t e now)).resetAt s with
      | none => s.lst.alarm
      | some now => alarmFor now l.earliest := by
  obtain ⟨k, hk⟩ := hadd
  have halarm := alarm_of_addTimer (Function.update_self ..) (hk k le_rfl)
  have hhead' : (s.lst.construct t e).head = s.lst.head := rfl
  have halarm' : (s.lst.construct t e).alarm = s.lst.alarm := rfl
  rw [hhead', halarm'] at halarm
  cases hhead : s.lst.head with
  | none =>
    rw [hhead, if_pos (by simp)] at halarm
    simpa only [LstCall.resetAt, hhead] using halarm
  | some hd =>
    have hmem : hd ∈ ts := List.mem_of_mem_head? (hl.linked.fwd.head?.trans hhead)
    have hexpiry : utilExpiry (s.lst.construct t e).mem hd = utilExpiry s.lst.mem hd :=
      utilExpiry_construct fun he => hl.not_mem hfree (he ▸ hmem)
    have hiff : (∀ hd', some hd = some hd' →
        e ≤ utilExpiry (s.lst.construct t e).mem hd') ↔ e ≤ utilExpiry s.lst.mem hd := by
      rw [← hexpiry]
      exact ⟨fun h => h hd rfl, by rintro h _ ⟨⟩; exact h⟩
    simp only [hhead, UtilTimer.fresh, hiff] at halarm
    simp only [LstCall.resetAt, hhead]
    rw [halarm]
    split <;> rfl

/-- A call in order sets the alarm for the head where it calls `resetTimer`, and leaves it where it
does not. -/
theorem LstCallStep.alarm_eq {s s' : LstSys} {c : LstCall} (hs : s.Linked)
    (hstep : Guarded LstCallStep InOrder s c s') :
    s'.lst.alarm = match c.resetAt s with
      | none => s.lst.alarm
      | some now => alarmFor now s'.lst.earliest := by
  obtain ⟨ts, hl, hlive⟩ := hs
  obtain ⟨hstep, hin⟩ := hstep
  cases hstep with
  | op hop =>
    cases hop with
    | add t e now l hfree hadd => exact hl.alarm_of_add hfree hadd
    | del t now l hmem hdel =>
      show l.alarm = _
      rw [SortTimerLst.alarm_of_delTimer hdel]
      simp only [LstCall.resetAt]
      split <;> rfl
    | free t hmem => rfl
    | tick now later l fired htick =>
      obtain ⟨k, hk⟩ := htick
      exact SortTimerLst.alarm_of_tick (hk k le_rfl)
  | reschedule t e deleted added l l' hmem hset hadj =>
    have ht : t ∈ ts := List.mem_toFinset.mp (hlive ▸ hmem)
    obtain rfl := SortTimerLst.adjustTimer_inOrder (hl.setExpire ht hset hin.1 hin.2) ht hadj
    obtain ⟨m, -, rfl⟩ := Option.map_eq_some_iff.mp hset
    rfl

/-- The alarm of a list after every call of every run in order that calls `resetTimer`. -/
theorem lst_alarm_eq {mem : NodeStore Ptr UtilTimer} {a : ℕ} {cs : List LstCall} {s s' : LstSys}
    {c : LstCall} (hrun : Run (Guarded LstCallStep InOrder) (LstSys.init mem a) cs s)
    (hstep : Guarded LstCallStep InOrder s c s') {now e : ℤ} (hreset : c.resetAt s = some now)
    (he : IsLeast (utilExpiry s'.lst.mem '' s'.live) e) : s'.lst.alarm = delayTo e now := by
  obtain ⟨ts, hl, hlive⟩ := LstSys.linked_of_run (hrun.tail hstep)
  have hset : (s'.live : Set Ptr) = {t | t ∈ ts} := by
    ext u
    simp [← hlive]
  rw [hset] at he
  rw [LstCallStep.alarm_eq (LstSys.linked_of_run hrun) hstep, hreset, hl.earliest_eq he]
  rfl

/-! ## Both containers -/

/-- In every run of the heap, and in every run of the list whose calls are in order, the alarm that
`resetTimer` sets for a container with timers is in time exactly when its reading of the clock has
not passed the earliest expiry. -/
theorem alarms_timely_iff (heapMem : Store HpTimer) (lstMem : NodeStore Ptr UtilTimer) (a : ℕ)
    (b : Bool) :
    (∀ ops s op s' e, Run HeapStep (HeapSys.init heapMem a b) ops s → HeapStep s op s' →
      IsLeast (expiry s'.heap.mem '' s'.live) e →
      (Timely e op.clock s'.heap.alarm ↔ NotPast e op.clock)) ∧
    ∀ cs s c s' now e, Run (Guarded LstCallStep InOrder) (LstSys.init lstMem a) cs s →
      Guarded LstCallStep InOrder s c s' → c.resetAt s = some now →
      IsLeast (utilExpiry s'.lst.mem '' s'.live) e →
      (Timely e now s'.lst.alarm ↔ NotPast e now) := by
  constructor
  · intro ops s op s' e hrun hstep he
    rw [heap_alarm_eq hrun hstep he]
    exact timely_iff e op.clock
  · intro cs s c s' now e hrun hstep hreset he
    rw [lst_alarm_eq hrun hstep hreset he]
    exact timely_iff e now

/-- The least value of some timers. -/
theorem isLeast_image {f : Ptr → ℤ} {live : Finset Ptr} {t : Ptr} (ht : t ∈ live)
    (hle : ∀ u ∈ live, f t ≤ f u) : IsLeast (f '' live) (f t) :=
  ⟨Set.mem_image_of_mem f ht, Set.forall_mem_image.mpr hle⟩

/-- Three timers are added to a heap. -/
def threeAdded : List HeapOp := [.add 7 30 10, .add 8 20 10, .add 9 40 10]

/-- The alarm of a heap from which the first of three timers is deleted, and of a list in which a tick
fires the first of three. -/
theorem alarms_timely_three :
    (∃ s s', Run HeapStep (HeapSys.init (fun _ => none) 0 false) threeAdded s ∧
      HeapStep s (.del 8 12) s' ∧ Timely 30 12 s'.heap.alarm) ∧
    ∃ s s', Run (Guarded LstCallStep InOrder) (LstSys.init (fun _ => none) 0)
        [.op (.add 7 30 10), .op (.add 8 20 10), .op (.add 9 40 10)] s ∧
      LstCallStep s (.op (.tick 20 21)) s' ∧ Timely 30 21 s'.lst.alarm := by
  constructor
  · have hends : (exec (guardedNext HeapSys.next fun s op => op.Admissible s.live)
        (HeapSys.init (fun _ => none) 0 false) (threeAdded ++ [.del 8 12])).map
          (fun s => (s.live, expiry s.heap.mem 7, expiry s.heap.mem 9)) = some ({7, 9}, 30, 40) := by
      decide
    obtain ⟨s', hrun', hs⟩ := Run.of_exec_guarded hends
    simp only [Prod.mk.injEq] at hs
    obtain ⟨hlive, hseven, hnine⟩ := hs
    obtain ⟨s, hrun, hstep⟩ := Run.tail_iff.mp (hrun'.mono fun _ _ _ h => HeapStep.of_next h.2 h.1)
    have hleast : IsLeast (expiry s'.heap.mem '' s'.live) (expiry s'.heap.mem 7) := by
      refine isLeast_image (by rw [hlive]; decide) ?_
      rw [hlive]
      simp [hseven, hnine]
    rw [hseven] at hleast
    exact ⟨s, s', hrun, hstep, ((alarms_timely_iff _ (fun _ => none) 0 false).1 _ s _ s' 30 hrun hstep
      hleast).mpr (.inl (by decide))⟩
  · have hrun₁ : Run (Guarded LstCallStep InOrder) (LstSys.init (fun _ => none) 0)
        [.op (.add 7 30 10)] ⟨_, {7}⟩ :=
      .single ⟨.op (.add 7 30 10 _ rfl (.of_add 0 fun _ => rfl)), trivial⟩
    have hrun₂ := hrun₁.tail ⟨.op (.add 8 20 10 _ rfl (.of_add 0 fun _ => rfl)), trivial⟩
    have hrun₃ := hrun₂.tail ⟨.op (.add 9 40 10 _ rfl (.of_add 2 fun _ => rfl)), trivial⟩
    have hrun₄ := hrun₃.tail ⟨.op (.tick 20 21 _ [8] (.of_add 2 fun _ => rfl)), trivial⟩
    obtain ⟨s, hrun, hstep⟩ := Run.tail_iff.mp hrun₄
    exact ⟨s, _, hrun, hstep.1,
      ((alarms_timely_iff (fun _ => none) _ 0 false).2 _ s _ _ 21 30 hrun hstep
      rfl (isLeast_image (t := 7) (by decide) (by decide))).mpr (.inl (by decide))⟩

/-- A timer that is added three seconds past its expiry gets an alarm in `2 ^ 32 - 3` seconds, from the
heap and from the list. -/
theorem alarms_past_expiry :
    (∃ s', HeapStep (HeapSys.init (fun _ => none) 0 false) (.add 7 5 8) s' ∧ s'.live = {7} ∧
      expiry s'.heap.mem 7 = 5 ∧ s'.heap.alarm = 2 ^ 32 - 3 ∧ ¬Timely 5 8 s'.heap.alarm) ∧
    ∃ s', LstCallStep (LstSys.init (fun _ => none) 0) (.op (.add 7 5 8)) s' ∧ s'.live = {7} ∧
      utilExpiry s'.lst.mem 7 = 5 ∧ s'.lst.alarm = 2 ^ 32 - 3 ∧ ¬Timely 5 8 s'.lst.alarm := by
  have hlate : ¬Timely 5 8 (2 ^ 32 - 3) := fun h => absurd h.2 (by decide)
  constructor
  · have hstep : HeapStep (HeapSys.init (fun _ => none) 0 false) (.add 7 5 8) ⟨_, {7}⟩ :=
      ⟨Finset.notMem_empty 7, [], rfl, rfl⟩
    exact ⟨_, hstep, rfl, rfl, rfl, hlate⟩
  · have hstep : LstCallStep (LstSys.init (fun _ => none) 0) (.op (.add 7 5 8)) ⟨_, {7}⟩ :=
      .op (.add 7 5 8 _ rfl ⟨0, fun _ _ => rfl⟩)
    exact ⟨_, hstep, rfl, rfl, rfl, hlate⟩

end Ulsp
