import Mathlib.Data.Finset.Basic
import Mathlib.Data.Finset.SDiff
import Ulsp.Lib.Run
import Ulsp.Timer.Pending

/-!
# Runs of the sorted timer list

A run starts from the empty list and adds newly constructed timers, deletes stored ones and ticks;
an object that `del_timer` took out may be freed by its owner. `WellFormed` is the representation of
the timers added and neither deleted nor fired. Every operation keeps it, but for two that leave `tail`
behind: `del_timer` of the last timer when it is not the first as well, and a `tick` that empties the
list.
-/

namespace Ulsp

open Lib

/-- What happens to a list, with the readings of the clock. -/
inductive LstOp where
  | add (t : Ptr) (expire now : ℤ)
  | del (t : Ptr) (now : ℤ)
  | free (t : Ptr)
  | tick (now later : ℤ)

/-- A list, and the timers that were added and neither deleted nor fired since. -/
structure LstSys where
  lst : SortTimerLst
  live : Finset Ptr

/-- What a caller guarantees: a timer is constructed at an address that is free, only stored timers
are deleted, and none of them is freed. -/
def LstOp.Admissible (s : LstSys) : LstOp → Prop
  | .add t _ _ => s.lst.mem t = none
  | .del t _ => t ∈ s.live
  | .free t => t ∉ s.live
  | .tick _ _ => True

/-- The steps of a list. -/
inductive LstStep (s : LstSys) : LstOp → LstSys → Prop
  | add (t : Ptr) (e now : ℤ) (l : SortTimerLst) : s.lst.mem t = none →
    Returns ((s.lst.construct t e).addTimer now (some t)) l →
    LstStep s (.add t e now) ⟨l, insert t s.live⟩
  | del (t : Ptr) (now : ℤ) (l : SortTimerLst) : t ∈ s.live → s.lst.delTimer now (some t) = some l →
    LstStep s (.del t now) ⟨l, s.live.erase t⟩
  | free (t : Ptr) : t ∉ s.live →
    LstStep s (.free t) ⟨{ s.lst with mem := Function.update s.lst.mem t none }, s.live⟩
  | tick (now later : ℤ) (l : SortTimerLst) (fired : List Ptr) :
    Returns (s.lst.tick now later) (l, fired) →
    LstStep s (.tick now later) ⟨l, s.live \ fired.toFinset⟩

/-- The list keeps the timers `ts`: from `head` on, in order of expiry, each one's back link naming
the one before it, and `tail` the last. -/
structure SortTimerLst.WellFormed (l : SortTimerLst) (ts : List Ptr) : Prop where
  reachable : Chain l.mem.nextOf l.head ts
  alive : ∀ t ∈ ts, l.mem t ≠ none
  sorted : ts.Pairwise fun t u => utilExpiry l.mem t ≤ utilExpiry l.mem u
  prev : ∀ as t bs, ts = as ++ t :: bs → l.mem.prevOf t = as.getLast?
  tail : l.tail = ts.getLast?

/-- The operation leaves `tail` right: a timer that is deleted is not the last, or it is the first,
and a tick does not fire the last. -/
def KeepsTail (s : LstSys) : LstOp → Prop
  | .del t _ => s.lst.tail = some t → s.lst.head = some t
  | .tick now _ => ∀ t, s.lst.tail = some t → now < utilExpiry s.lst.mem t
  | _ => True

namespace LstSys

/-- The invariant of runs. -/
def Ok (s : LstSys) : Prop :=
  ∃ ts, s.lst.Rep ts ∧ s.lst.tail = ts.getLast? ∧ ts.toFinset = s.live

/-- The constructor's list, with any objects in memory and alarm. -/
def init (mem : NodeStore Ptr UtilTimer) (a : ℕ) : LstSys := ⟨SortTimerLst.empty mem a, ∅⟩

variable {s s' : LstSys} {op : LstOp}

/-- An admissible operation completes: it follows no null or freed pointer. -/
theorem Ok.exists_step (hs : s.Ok) (hop : op.Admissible s) : ∃ s', LstStep s op s' := by
  obtain ⟨ts, hr, htail, hlive⟩ := hs
  cases op with
  | add t e now =>
    have ht : t ∉ ts := hr.not_mem hop
    obtain ⟨l', ts', hrun, -⟩ := SortTimerLst.addTimer_spec (l := s.lst.construct t e) (e := e)
      (hr.update ht _) ht (Function.update_self ..) now
    exact ⟨_, .add t e now l' hop hrun⟩
  | del t now =>
    have ht : t ∈ ts := List.mem_toFinset.mp (hlive ▸ hop)
    rcases Decidable.em (s.lst.tail = some t → s.lst.head = some t) with hkeep | hkeep
    · obtain ⟨l', hrun, -⟩ := SortTimerLst.delTimer_spec hr ht hkeep now
      exact ⟨_, .del t now l' hop hrun⟩
    · obtain ⟨hlast, hhd⟩ := Decidable.not_imp_iff_and_not.mp hkeep
      obtain ⟨l', hrun, -⟩ := SortTimerLst.delTimer_last hr ht hlast hhd now
      exact ⟨_, .del t now l' hop hrun⟩
  | free t => exact ⟨_, .free t hop⟩
  | tick now later =>
    obtain ⟨l', fired, ts', hrun, -⟩ := SortTimerLst.tick_spec hr now later
    exact ⟨_, .tick now later l' fired hrun⟩

/-- The operations that leave `tail` right keep the invariant. -/
theorem Ok.step (hs : s.Ok) (hstep : Guarded LstStep KeepsTail s op s') : s'.Ok := by
  obtain ⟨ts, hr, htail, hlive⟩ := hs
  obtain ⟨hstep, hkeep⟩ := hstep
  cases hstep with
  | add t e now l hfree hadd =>
    have ht := hr.not_mem hfree
    obtain ⟨l', ts', hrun, hr', hperm, -⟩ :=
      SortTimerLst.addTimer_spec (l := s.lst.construct t e) (e := e)
        (hr.update ht _) ht (Function.update_self ..) now
    obtain rfl := hadd.unique hrun
    have hne : ts' ≠ [] := fun hnil => by
      rw [hnil] at hperm
      exact absurd hperm.length_eq (by simp)
    refine ⟨ts', hr', hr'.tail hne, ?_⟩
    rw [List.toFinset_eq_of_perm _ _ hperm, List.toFinset_cons, hlive]
  | del t now l hmem hdel =>
    have ht : t ∈ ts := List.mem_toFinset.mp (hlive ▸ hmem)
    obtain ⟨l', hrun, hr', htail', -⟩ := SortTimerLst.delTimer_spec hr ht hkeep now
    obtain rfl := Option.some.inj (hdel.symm.trans hrun)
    refine ⟨_, hr', htail', ?_⟩
    rw [← hlive]
    ext u
    simp [hr.nodup.mem_erase_iff]
  | free t hmem =>
    have ht : t ∉ ts := fun hm => hmem (hlive ▸ List.mem_toFinset.mpr hm)
    exact ⟨ts, hr.update ht none, htail, hlive⟩
  | tick now later l fired htick =>
    obtain ⟨l', fired', ts', hrun, hr', hticked⟩ := SortTimerLst.tick_spec hr now later
    obtain ⟨rfl, rfl⟩ := Prod.mk.inj (htick.unique hrun)
    refine ⟨ts', hr', ?_, ?_⟩
    · cases ts' with
      | cons u us => exact hr'.tail (List.cons_ne_nil u us)
      | nil =>
        -- all timers are fired, so there are none
        have hall : ∀ u ∈ ts, u ∈ fired := fun u hu => by simpa [hticked.split] using hu
        rw [hticked.tail, htail]
        refine List.getLast?_eq_none_iff.mpr (List.eq_nil_iff_forall_not_mem.mpr fun u hu => ?_)
        have hlast := List.getLast?_eq_some_getLast (List.ne_nil_of_mem hu)
        have hlate := hkeep _ (htail.trans hlast)
        have hdue := hticked.due _ (hall _ (List.getLast_mem (List.ne_nil_of_mem hu)))
        omega
    · rw [toFinset_rest (.of_eq hticked.split.symm) hr.nodup, hlive]

theorem Ok.wellFormed (hs : s.Ok) : ∃ ts, s.lst.WellFormed ts ∧ ∀ t, t ∈ ts ↔ t ∈ s.live := by
  obtain ⟨ts, hr, htail, hlive⟩ := hs
  refine ⟨ts, ⟨hr.linked.fwd, ?_, hr.sorted, ?_, htail⟩, fun t => by rw
    [← hlive, List.mem_toFinset]⟩
  · intro t ht hnone
    obtain ⟨v, hv⟩ := hr.alive t ht
    simp [NodeStore.valOf, hnone] at hv
  · intro as t bs hts
    exact (hts ▸ hr.linked).prev_mid

end LstSys

open LstSys

/-- In every run from the empty list whose operations leave `tail` right, the list is well-formed for
exactly the timers added and neither deleted nor fired, and every operation a caller may make next
completes. -/
theorem lst_run_invariant {mem : NodeStore Ptr UtilTimer} {a : ℕ} {ops : List LstOp} {s : LstSys}
    (h : Run (Guarded LstStep KeepsTail) (LstSys.init mem a) ops s) :
    (∃ ts, s.lst.WellFormed ts ∧ ∀ t, t ∈ ts ↔ t ∈ s.live) ∧
      ∀ op : LstOp, op.Admissible s → ∃ s', LstStep s op s' := by
  have hs : s.Ok := by
    refine h.invariant (fun _ _ _ hs hstep => Ok.step hs hstep) ?_
    exact ⟨[], SortTimerLst.empty_rep mem a, rfl, rfl⟩
  exact ⟨hs.wellFormed, fun op hop => hs.exists_step hop⟩

/-- Three timers are added, the one in the middle is deleted and its object freed, a tick fires the
first, and a timer is added at the freed address. -/
def lstOps : List LstOp :=
  [.add 3 30 0, .add 2 20 0, .add 1 10 0, .del 2 0, .free 2, .tick 12 12, .add 2 25 13]

/-- The invariant after these operations. -/
theorem lst_run_invariant_three : ∃ s, Run (Guarded LstStep KeepsTail)
    (LstSys.init (fun _ => none) 0) lstOps s ∧ s.live = {2, 3} ∧
      ∃ ts, s.lst.WellFormed ts ∧ ∀ t, t ∈ ts ↔ t ∈ s.live := by
  have hrun₁ : Run (Guarded LstStep KeepsTail) (LstSys.init (fun _ => none) 0) [.add 3 30 0] _ :=
    .single ⟨.add 3 30 0 _ rfl (.of_add 0 fun _ => rfl), trivial⟩
  have hrun₂ := hrun₁.tail ⟨.add 2 20 0 _ rfl (.of_add 0 fun _ => rfl), trivial⟩
  have hrun₃ := hrun₂.tail ⟨.add 1 10 0 _ rfl (.of_add 0 fun _ => rfl), trivial⟩
  have hrun₄ := hrun₃.tail ⟨.del 2 0 _ (by decide) rfl, fun h => by cases h⟩
  have hrun₅ := hrun₄.tail ⟨.free 2 (by decide), trivial⟩
  have hrun₆ := hrun₅.tail ⟨.tick 12 12 _ [1] (.of_add 2 fun _ => rfl), fun _ h => by cases h; decide⟩
  have hrun₇ := hrun₆.tail ⟨.add 2 25 13 _ rfl (.of_add 0 fun _ => rfl), trivial⟩
  exact ⟨_, hrun₇, by decide, (lst_run_invariant hrun₇).1⟩

/-- When the last of three timers was deleted, `tail` names no stored timer, and deleting the one
before it follows a null pointer. -/
theorem lst_tail_stale : ∃ s, Run LstStep (LstSys.init (fun _ => none) 0)
    [.add 3 30 0, .add 2 20 0, .add 1 10 0, .del 3 0] s ∧ s.live = {1, 2} ∧
      s.lst.tail = some 3 ∧ s.lst.delTimer 0 (some 2) = none := by
  have hrun : Run LstStep (LstSys.init (fun _ => none) 0)
      ([] ++ [.add 3 30 0] ++ [.add 2 20 0] ++ [.add 1 10 0] ++ [.del 3 0]) _ :=
    (((Run.refl.tail (.add 3 30 0 _ rfl ⟨0, fun _ _ => rfl⟩)).tail
      (.add 2 20 0 _ rfl ⟨0, fun _ _ => rfl⟩)).tail (.add 1 10 0 _ rfl ⟨0, fun _ _ => rfl⟩)).tail
      (.del 3 0 _ (by decide) rfl)
  exact ⟨_, hrun, by decide, rfl, rfl⟩

end Ulsp
