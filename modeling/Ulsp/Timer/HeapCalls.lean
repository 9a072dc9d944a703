import Ulsp.Timer.HeapOps

/-!
# Single calls of the time heap

What a call of `add_timer`, `adjust_timer` or `del_timer` does to the signal mask of a heap in any state,
its timers being in whatever order and even stored twice (`Holds`). Every call returns, and one that
reports an error leaves the timers and the alarm alone. `add_timer` and `del_timer` block `SIGALRM` before
they look at the timer, though, and their error paths return without unblocking it, so that no `tick` is
delivered any more (`mask_usable_iff`).
-/

namespace Ulsp

/-- A call on the heap, with the result of the `dynamic_cast` of its argument. -/
inductive HeapCall where
  | add (timer : Option Ptr)
  | adjust (timer : Option Ptr)
  | del (timer : Option Ptr)

namespace TimerHeap

/-- The call on the heap, at clock `now`. -/
def exec (now : ℤ) (h : TimerHeap) : HeapCall → Option TimerHeap
  | .add timer => h.addTimer now timer
  | .adjust timer => h.adjustTimer now timer
  | .del timer => h.delTimer now timer

/-- The call prints that the timer is not an `hp_timer` or not found. -/
def Reports (h : TimerHeap) : HeapCall → Prop
  | .add timer => timer = none
  | .adjust timer => ∃ t, timer = some t ∧ h.getIdx t = h.size
  | .del timer => ∃ t, timer = some t ∧ h.size ≠ 0 ∧ h.getIdx t = h.size

variable {h : TimerHeap} {ts : List Ptr} {t : Ptr}

/-- `add_timer` of a timer of another class leaves `SIGALRM` blocked. -/
theorem addTimer_none (hh : h.Holds ts) (now : ℤ) : ∃ h', h.addTimer now none = some h' ∧
    h'.Holds ts ∧ h'.alarm = h.alarm ∧ h'.alrmBlocked = true := by
  obtain ⟨h₀, hif, hh₀, -, -, -, halarm, hb⟩ := hh.grow
  exact ⟨h₀, congrArg some hif, hh₀, halarm, hb⟩

/-- `adjust_timer` of a timer that is not stored does nothing. -/
theorem adjustTimer_not_mem (hh : h.Holds ts) (ht : t ∉ ts) (now : ℤ) :
    h.adjustTimer now (some t) = some h := by
  simp [adjustTimer, (getIdx_eq_size_iff hh.toStores).mpr ht]

/-- `del_timer` of a timer that is not stored blocks `SIGALRM`, unless the heap is empty. -/
theorem delTimer_not_mem (hh : h.Holds ts) (ht : t ∉ ts) (hne : h.size ≠ 0) (now : ℤ) :
    h.delTimer now (some t) = some h.blockAlarm := by
  have hb : h.blockAlarm.Holds ts := hh.setAlarm h.alarm true
  simp [delTimer, hne, (getIdx_eq_size_iff hb.toStores).mpr ht]

/-- Every call of `add_timer`, `adjust_timer` or `del_timer` on every heap returns with `SIGALRM` unblocked
if it was, and with the timers, their order and the alarm as they were if it reports an error, if and only
if the signal was blocked already, or the call neither adds a timer of another class nor deletes one that
a heap with timers does not store. -/
theorem mask_usable_iff (hh : h.Holds ts) (call : HeapCall)
    (hlive : ∀ t, call = .add (some t) → ∃ timer, h.mem t = some timer) (now : ℤ) :
    (∃ h', h.exec now call = some h' ∧ (h.alrmBlocked = false → h'.alrmBlocked = false) ∧
      (h.Reports call → h'.slots.take h'.size = h.slots.take h.size ∧ h'.alarm = h.alarm)) ↔
    h.alrmBlocked = true ∨
      call ≠ .add none ∧ ∀ t, call = .del (some t) → h.size = 0 ∨ t ∈ ts := by
  rcases call with (_ | t) | (_ | t) | (_ | t)
  · obtain ⟨h₀, hrun, hh₀, halarm, hb⟩ := addTimer_none hh now
    constructor
    · rintro ⟨h', hrun', hmask, -⟩
      obtain rfl := Option.some.inj (hrun.symm.trans hrun')
      refine .inl (Bool.eq_true_of_not_eq_false ?_)
      intro hunblocked
      cases hb.symm.trans (hmask hunblocked)
    · rintro (hblocked | ⟨hne, -⟩)
      · refine ⟨h₀, hrun, ?_, fun _ => ⟨hh₀.stored.trans hh.stored.symm, halarm⟩⟩
        intro hunblocked
        cases hblocked.symm.trans hunblocked
      · exact absurd rfl hne
  · obtain ⟨h', ts', hrun, -, -, -, hb, -⟩ := hh.addTimer (hlive t rfl) now
    exact iff_of_true ⟨h', hrun, fun _ => hb, nofun⟩ (.inr ⟨nofun, nofun⟩)
  · exact iff_of_true ⟨h, rfl, id, fun _ => ⟨rfl, rfl⟩⟩ (.inr ⟨nofun, nofun⟩)
  · refine iff_of_true ?_ (.inr ⟨nofun, nofun⟩)
    by_cases ht : t ∈ ts
    · obtain ⟨h', ts', hrun, -, -, -, hb, -⟩ := hh.adjustTimer ht (fun _ => 0) now
      refine ⟨h', hrun, hb.trans, ?_⟩
      rintro ⟨u, ⟨⟩, hu⟩
      exact absurd ht ((getIdx_eq_size_iff hh.toStores).mp hu)
    · exact ⟨h, adjustTimer_not_mem hh ht now, id, fun _ => ⟨rfl, rfl⟩⟩
  · exact iff_of_true ⟨h, rfl, id, fun _ => ⟨rfl, rfl⟩⟩ (.inr ⟨nofun, nofun⟩)
  · by_cases ht : t ∈ ts
    · obtain ⟨h', ts', hrun, -, -, -, hb, -⟩ := hh.delTimer ht now
      refine iff_of_true ⟨h', hrun, fun _ => hb, ?_⟩ (.inr ⟨nofun, ?_⟩)
      · rintro ⟨u, ⟨⟩, -, hu⟩
        exact absurd ht ((getIdx_eq_size_iff hh.toStores).mp hu)
      · intro u hu
        cases hu
        exact .inr ht
    rcases eq_or_ne h.size 0 with hz | hne
    · have hrun : h.delTimer now (some t) = some h := by simp [delTimer, hz]
      exact iff_of_true ⟨h, hrun, id, fun _ => ⟨rfl, rfl⟩⟩ (.inr ⟨nofun, fun _ _ => .inl hz⟩)
    have hrun := delTimer_not_mem hh ht hne now
    constructor
    · rintro ⟨h', hrun', hmask, -⟩
      obtain rfl := Option.some.inj (hrun.symm.trans hrun')
      refine .inl (Bool.eq_true_of_not_eq_false ?_)
      intro hunblocked
      cases hmask hunblocked
    · rintro (hblocked | ⟨-, hstored⟩)
      · refine ⟨_, hrun, ?_, fun _ => ⟨rfl, rfl⟩⟩
        intro hunblocked
        cases hblocked.symm.trans hunblocked
      · exact ((hstored t rfl).elim hne ht).elim

/-- `del_timer` of the only timer. -/
theorem mask_usable_iff_one : ∃ h h' : TimerHeap, h.alrmBlocked = false ∧
    h.exec 0 (.del (some 7)) = some h' ∧ h'.alrmBlocked = false := by
  let h : TimerHeap := ⟨[some 7], 1, 1, fun _ => some ⟨30⟩, 30, false⟩
  have hh : h.Holds [7] := ⟨⟨rfl, by decide, rfl, rfl⟩, fun _ _ => ⟨⟨30⟩, rfl⟩⟩
  obtain ⟨h', hrun, hmask, -⟩ := (mask_usable_iff hh (.del (some 7)) nofun 0).mpr
    (.inr ⟨nofun, fun t ht => by cases ht; exact .inr List.mem_cons_self⟩)
  exact ⟨h, h', rfl, hrun, hmask rfl⟩

/-- `del_timer` of another timer on a heap with one: `SIGALRM` was not blocked, and is when it returns. -/
theorem error_leaves_blocked : ∃ h h' : TimerHeap, h.Holds [7] ∧ h.alrmBlocked = false ∧
    h.exec 0 (.del (some 8)) = some h' ∧ h'.alrmBlocked = true := by
  let h : TimerHeap := ⟨[some 7], 1, 1, fun _ => some ⟨30⟩, 30, false⟩
  have hh : h.Holds [7] := ⟨⟨rfl, by decide, rfl, rfl⟩, fun _ _ => ⟨⟨30⟩, rfl⟩⟩
  have hrun : h.delTimer 0 (some 8) = some h.blockAlarm :=
    delTimer_not_mem hh (by simp) (by decide) 0
  exact ⟨h, h.blockAlarm, hh, rfl, hrun, rfl⟩

end TimerHeap

end Ulsp
