import Ulsp.Lib.Run
import Ulsp.Timer.Pending

/-!
# The heap and the sorted list are interchangeable

One run drives a `timer_heap` and a `sort_timer_lst` side by side: every `add_timer` gets a new
timer object, at the same address in the memory of both, and every `tick` reads the same clock in
both. Between the operations both refine one set of pending timers (`TimerPair.Ok`), so at every
tick they fire the same timers at the same expiries, and afterwards they store the same timers.
-/

namespace Ulsp

open Lib Pending

/-- The two containers. -/
structure TimerPair where
  heap : TimerHeap
  lst : SortTimerLst

/-- The operations. -/
inductive TimerOp where
  | add (t : Ptr) (expire : ℤ)
  | tick (now : ℤ)

/-- No timer object of either container is at `t`. -/
def TimerPair.Fresh (s : TimerPair) (t : Ptr) : Prop := s.heap.mem t = none ∧ s.lst.mem t = none

/-- An operation on both containers. Each reads the clock for its own alarm. -/
inductive PairStep (s : TimerPair) : TimerOp → TimerPair → Prop
  | add (t : Ptr) (e now now' : ℤ) (h : TimerHeap) (l : SortTimerLst) : s.Fresh t →
    (s.heap.setExpire t e).addTimer now (some t) = some h →
    Returns ((s.lst.construct t e).addTimer now' (some t)) l → PairStep s (.add t e) ⟨h, l⟩
  | tick (now later later' : ℤ) (h : TimerHeap) (l : SortTimerLst) (fired fired' : List Ptr) :
    s.heap.tick now later = some (h, fired) → Returns (s.lst.tick now later') (l, fired') →
    PairStep s (.tick now) ⟨h, l⟩

namespace TimerPair

/-- The invariant of runs: both containers represent the same pending timers. -/
def Ok (s : TimerPair) : Prop := ∃ p, s.heap.Refines p ∧ s.lst.Refines p

/-- The constructors' containers, with any objects in memory, alarms and signal mask. -/
def init (mem : Store HpTimer) (mem' : NodeStore Ptr UtilTimer) (a a' : ℕ) (b : Bool) : TimerPair :=
  ⟨TimerHeap.empty mem a b, SortTimerLst.empty mem' a'⟩

variable {s s' : TimerPair}

theorem init_ok (mem : Store HpTimer) (mem' : NodeStore Ptr UtilTimer) (a a' : ℕ) (b : Bool) :
    (init mem mem' a a' b).Ok :=
  ⟨∅, ⟨[], TimerHeap.empty_rep mem a b, rfl⟩, ⟨[], SortTimerLst.empty_rep mem' a', rfl⟩⟩

/-- A new timer can be added to both containers. -/
theorem Ok.exists_add (hs : s.Ok) {t : Ptr} (ht : s.Fresh t) (e : ℤ) :
    ∃ s', PairStep s (.add t e) s' := by
  obtain ⟨p, hheap, hlst⟩ := hs
  obtain ⟨h, hrun, -⟩ := hheap.addTimer ht.1 e 0
  obtain ⟨l, hrun', -⟩ := hlst.addTimer ht.2 e 0
  exact ⟨⟨h, l⟩, .add t e 0 0 h l ht hrun hrun'⟩

/-- Every operation keeps the invariant. -/
theorem Ok.step (hs : s.Ok) {op : TimerOp} (hstep : PairStep s op s') : s'.Ok := by
  obtain ⟨p, hheap, hlst⟩ := hs
  cases hstep with
  | add t e now now' _ _ ht hh hl =>
    obtain ⟨h, hrun, hr⟩ := hheap.addTimer ht.1 e now
    obtain ⟨l, hrun', hr'⟩ := hlst.addTimer ht.2 e now'
    obtain rfl := Option.some.inj (hh.symm.trans hrun)
    obtain rfl := hl.unique hrun'
    exact ⟨_, hr, hr'⟩
  | tick now later later' _ _ _ _ hh hl =>
    obtain ⟨h, fired, hrun, hr, -⟩ := hheap.tick now later
    obtain ⟨l, fired', hrun', hr', -⟩ := hlst.tick now later'
    obtain ⟨rfl, rfl⟩ := Prod.mk.inj (Option.some.inj (hh.symm.trans hrun))
    obtain ⟨rfl, rfl⟩ := Prod.mk.inj (hl.unique hrun')
    exact ⟨_, hr, hr'⟩

/-- Every state of a run satisfies the invariant. -/
theorem ok_of_run {mem : Store HpTimer} {mem' : NodeStore Ptr UtilTimer} {a a' : ℕ} {b : Bool}
    {ops : List TimerOp} (h : Run PairStep (init mem mem' a a' b) ops s) : s.Ok :=
  h.invariant (fun _ _ _ hs hstep => hs.step hstep) (init_ok mem mem' a a' b)

/-- Both containers store the same timers, each once and with the same expiry, and have the same
earliest expiry. -/
structure Agree (s : TimerPair) : Prop where
  stored : ∃ ts us : List Ptr, s.heap.slots.take s.heap.size = ts.map some ∧
    Chain s.lst.mem.nextOf s.lst.head us ∧ ts.Nodup ∧ ts.Perm us ∧
    ∀ t ∈ ts, expiry s.heap.mem t = utilExpiry s.lst.mem t
  earliest : s.heap.earliest = s.lst.earliest

/-- Containers that represent the same pending timers agree. -/
theorem Ok.agree (hs : s.Ok) : s.Agree := by
  obtain ⟨p, hheap, hlst⟩ := hs
  have hearliest := hheap.earliest.unique hlst.earliest
  obtain ⟨ts, hrep, rfl⟩ := hheap
  obtain ⟨us, hrep', heq⟩ := hlst
  have hmem : ∀ t d, (t ∈ ts ∧ expiry s.heap.mem t = d) ↔ t ∈ us ∧ utilExpiry s.lst.mem t = d :=
    fun t d => by rw [← mem_ofList, heq, mem_ofList]
  have hexp : ∀ t ∈ ts, expiry s.heap.mem t = utilExpiry s.lst.mem t := fun t ht =>
    ((hmem t _).mp ⟨ht, rfl⟩).2.symm
  have hperm : ts.Perm us := (List.perm_ext_iff_of_nodup hrep.nodup hrep'.nodup).mpr fun t =>
    ⟨fun ht => ((hmem t _).mp ⟨ht, rfl⟩).1, fun ht => ((hmem t _).mpr ⟨ht, rfl⟩).1⟩
  exact ⟨⟨ts, us, hrep.stored, hrep'.linked.fwd, hrep.nodup, hperm, hexp⟩, hearliest⟩

end TimerPair

open TimerPair

/-- In every run on empty containers the two agree after every operation, a new timer can always be
added to both, and at every tick both fire the same timers, in sequences with the same expiries,
whatever the clock reads. -/
theorem containers_interchangeable {mem : Store HpTimer} {mem' : NodeStore Ptr UtilTimer} {a a' : ℕ}
    {b : Bool} {ops : List TimerOp} {s : TimerPair} (h : Run PairStep (init mem mem' a a' b) ops s) :
    s.Agree ∧ (∀ t e, s.Fresh t → ∃ s', PairStep s (.add t e) s' ∧ s'.Agree) ∧
    ∀ now later later', ∃ h' l' fired fired', s.heap.tick now later = some (h', fired) ∧
      Returns (s.lst.tick now later') (l', fired') ∧ fired.Nodup ∧ fired.Perm fired' ∧
      fired.map (expiry s.heap.mem) = fired'.map (utilExpiry s.lst.mem) ∧ Agree ⟨h', l'⟩ := by
  have hs := ok_of_run h
  refine ⟨hs.agree, ?_, ?_⟩
  · intro t e ht
    obtain ⟨s', hstep⟩ := hs.exists_add ht e
    exact ⟨s', hstep, (hs.step hstep).agree⟩
  · intro now later later'
    have hok := hs
    obtain ⟨p, hheap, hlst⟩ := hs
    obtain ⟨h', fired, hrun, -, hf⟩ := hheap.tick now later
    obtain ⟨l', fired', hrun', -, hf'⟩ := hlst.tick now later'
    have hexp : fired.map (expiry s.heap.mem) = fired'.map (utilExpiry s.lst.mem) := by
      simpa [Function.comp_def] using hf.expiries_eq hf'
    have hperm : fired.Perm fired' := by
      simpa [Function.comp_def] using (hf.perm hf').map Prod.fst
    exact ⟨h', l', fired, fired', hrun, hrun', hf.nodup.of_map _, hperm, hexp,
      (hok.step (.tick now later later' h' l' fired fired' hrun hrun')).agree⟩

/-- Three timers are added, a tick comes, and one more timer is added. -/
def pairOps : List TimerOp := [.add 1 5, .add 2 9, .add 3 7, .tick 7, .add 4 9]

/-- After these operations the containers agree, and at clock 9 both fire the two timers left. -/
theorem containers_interchangeable_four : ∃ s,
    Run PairStep (init (fun _ => none) (fun _ => none) 0 0 false) pairOps s ∧ s.Agree ∧
    ∃ h' l' fired fired', s.heap.tick 9 9 = some (h', fired) ∧
      Returns (s.lst.tick 9 9) (l', fired') ∧ fired.Perm fired' ∧ fired.length = 2 := by
  have hrun₁ : Run PairStep (init (fun _ => none) (fun _ => none) 0 0 false) [.add 1 5] _ :=
    .single (.add 1 5 0 0 _ _ ⟨rfl, rfl⟩ rfl (.of_add 0 fun _ => rfl))
  have hrun₂ := hrun₁.tail (.add 2 9 0 0 _ _ ⟨rfl, rfl⟩ rfl (.of_add 1 fun _ => rfl))
  have hrun₃ := hrun₂.tail (.add 3 7 0 0 _ _ ⟨rfl, rfl⟩ rfl (.of_add 1 fun _ => rfl))
  have hrun₄ := hrun₃.tail (.tick 7 7 7 _ _ [1, 3] [1, 3] rfl (.of_add 3 fun _ => rfl))
  have hrun₅ := hrun₄.tail (.add 4 9 0 0 _ _ ⟨rfl, rfl⟩ rfl (.of_add 1 fun _ => rfl))
  obtain ⟨hagree, -, htick⟩ := containers_interchangeable hrun₅
  obtain ⟨h', l', fired, fired', hheap, hlst, -, hperm, -⟩ := htick 9 9 9
  refine ⟨_, hrun₅, hagree, h', l', fired, fired', hheap, hlst, hperm, ?_⟩
  exact congrArg (fun r => r.2.length) (Option.some.inj (hheap.symm.trans rfl))

end Ulsp
