import Ulsp.Timer.HeapOps
import Ulsp.Lib.Run
import Mathlib.Data.Finset.Basic

/-!
# Runs of the time heap

A run starts from the constructor's heap and applies operations in any order: `add_timer` of a timer
that is not stored, with any expiry; `setExpire` of a stored timer followed by `adjust_timer`;
`del_timer` of a stored timer; `tick` at any reading of the clock. `HeapSys.live` is the specification's
view of such a run, the timers that were added and neither deleted nor fired since.
`heap_run_invariant` is the representation invariant after every operation of every run, with the
fact that the next operation always completes.
-/

namespace Ulsp

open Lib

/-- One operation on the heap, with the readings of the clock it makes. -/
inductive HeapOp where
  | add (t : Ptr) (expire now : ℤ)
  | reschedule (t : Ptr) (expire now : ℤ)
  | del (t : Ptr) (now : ℤ)
  | tick (now later : ℤ)

/-- What a caller guarantees of an operation, of the timers that are stored. -/
def HeapOp.Admissible (live : Finset Ptr) : HeapOp → Prop
  | .add t _ _ => t ∉ live
  | .reschedule t _ _ => t ∈ live
  | .del t _ => t ∈ live
  | .tick _ _ => True

/-- The operation on the heap, with the timers whose callback ran. `add` is of a timer object
with the given expiry. -/
def HeapOp.exec (h : TimerHeap) : HeapOp → Option (TimerHeap × List Ptr)
  | .add t e now => ((h.setExpire t e).addTimer now (some t)).map (·, [])
  | .reschedule t e now => ((h.setExpire t e).adjustTimer now (some t)).map (·, [])
  | .del t now => (h.delTimer now (some t)).map (·, [])
  | .tick now later => h.tick now later

/-- The timers stored after an operation that fired `fired`. -/
def HeapOp.live (live : Finset Ptr) (fired : List Ptr) : HeapOp → Finset Ptr
  | .add t _ _ => insert t live
  | .reschedule _ _ _ => live
  | .del t _ => live.erase t
  | .tick _ _ => live \ fired.toFinset

/-- A heap, and the timers a run has added and neither deleted nor fired. -/
structure HeapSys where
  heap : TimerHeap
  live : Finset Ptr

/-- A step of a run. -/
def HeapStep (s : HeapSys) (op : HeapOp) (s' : HeapSys) : Prop :=
  op.Admissible s.live ∧ ∃ fired, op.exec s.heap = some (s'.heap, fired) ∧
    s'.live = op.live s.live fired

/-- What an operation makes of a heap and its timers. -/
def HeapSys.next (s : HeapSys) (op : HeapOp) : Option HeapSys :=
  (op.exec s.heap).map fun r => ⟨r.1, op.live s.live r.2⟩

instance (live : Finset Ptr) (op : HeapOp) : Decidable (op.Admissible live) :=
  match op with
  | .add t _ _ => inferInstanceAs (Decidable (t ∉ live))
  | .reschedule t _ _ | .del t _ => inferInstanceAs (Decidable (t ∈ live))
  | .tick _ _ => inferInstanceAs (Decidable True)

/-- What is computed is a step. -/
theorem HeapStep.of_next {s s' : HeapSys} {op : HeapOp} (hop : op.Admissible s.live)
    (h : s.next op = some s') : HeapStep s op s' := by
  obtain ⟨⟨heap, fired⟩, hexec, rfl⟩ := Option.map_eq_some_iff.mp h
  exact ⟨hop, fired, hexec, rfl⟩

/-- The invariant of runs: the array represents exactly the live timers. -/
def HeapSys.Ok (s : HeapSys) : Prop :=
  ∃ ts, s.heap.Rep ts ∧ ts.toFinset = s.live

/-- An admissible operation completes and keeps the invariant. -/
theorem HeapOp.exec_ok {s : HeapSys} (hs : s.Ok) (op : HeapOp) (hop : op.Admissible s.live) :
    ∃ h' fired, op.exec s.heap = some (h', fired) ∧ HeapSys.Ok ⟨h', op.live s.live fired⟩ := by
  obtain ⟨ts, hr, hlive⟩ := hs
  cases op with
  | add t e now =>
    have ht : t ∉ ts := fun hm => hop (hlive ▸ List.mem_toFinset.mpr hm)
    have halive : ∃ timer, (s.heap.setExpire t e).mem t = some timer :=
      ⟨⟨e⟩, by simp [TimerHeap.setExpire]⟩
    obtain ⟨h', ts', hrun, hr', hperm, -⟩ :=
      TimerHeap.addTimer_spec (h := s.heap.setExpire t e) (hr.update ht _) ht halive now
    refine ⟨h', [], by simp [exec, hrun], ts', hr', ?_⟩
    rw [List.toFinset_eq_of_perm _ _ hperm, List.toFinset_cons, hlive]
    rfl
  | reschedule t e now =>
    have ht : t ∈ ts := List.mem_toFinset.mp (hlive ▸ hop)
    obtain ⟨h', ts', hrun, hr', hperm, -⟩ := TimerHeap.adjustTimer_spec hr ht e now
    exact ⟨h', [], by simp [exec, hrun], ts', hr',
      (List.toFinset_eq_of_perm _ _ hperm).trans hlive⟩
  | del t now =>
    have ht : t ∈ ts := List.mem_toFinset.mp (hlive ▸ hop)
    obtain ⟨h', ts', hrun, hr', hperm, -⟩ := TimerHeap.delTimer_spec hr ht now
    have hnot : t ∉ ts' := (List.nodup_cons.mp (hperm.nodup_iff.mpr hr.nodup)).1
    refine ⟨h', [], by simp [exec, hrun], ts', hr', ?_⟩
    have heq := List.toFinset_eq_of_perm _ _ hperm
    rw [List.toFinset_cons, hlive] at heq
    simp [HeapOp.live, ← heq, hnot]
  | tick now later =>
    obtain ⟨h', fired, ts', hrun, ht⟩ := TimerHeap.tick_spec hr now later
    refine ⟨h', fired, hrun, ts', ht.rep, ?_⟩
    rw [toFinset_rest ht.perm hr.nodup, hlive]
    rfl

/-- The constructor's heap, with any objects in memory, alarm and signal mask. -/
def HeapSys.init (mem : Store HpTimer) (alarm : ℕ) (alrmBlocked : Bool) : HeapSys :=
  ⟨TimerHeap.empty mem alarm alrmBlocked, ∅⟩

/-- Every state of a run satisfies the invariant. -/
theorem HeapSys.ok_of_run {mem : Store HpTimer} {a : ℕ} {b : Bool} {ops : List HeapOp}
    {s : HeapSys} (h : Run HeapStep (init mem a b) ops s) : s.Ok := by
  refine h.invariant ?_ ⟨[], TimerHeap.empty_rep mem a b, rfl⟩
  intro s op t hs hstep
  obtain ⟨hop, fired, hexec, hlive⟩ := hstep
  obtain ⟨h', fired', hexec', hok⟩ := HeapOp.exec_ok hs _ hop
  obtain ⟨rfl, rfl⟩ := Prod.mk.inj (Option.some.inj (hexec.symm.trans hexec'))
  rwa [← hlive] at hok

/-- After every operation of every run the heap is within its capacity, its first `size` entries are
exactly the timers added and neither deleted nor fired, each once, no timer expires before the
one at half its position, and every operation a caller may make next completes. -/
theorem heap_run_invariant {mem : Store HpTimer} {a : ℕ} {b : Bool} {ops : List HeapOp}
    {s : HeapSys} (h : Run HeapStep (HeapSys.init mem a b) ops s) :
    s.heap.size ≤ s.heap.capacity ∧
    (∃ ts : List Ptr, s.heap.slots.take s.heap.size = ts.map some ∧ ts.length = s.heap.size ∧
      ts.Nodup ∧ ∀ t, t ∈ ts ↔ t ∈ s.live) ∧
    (∀ i, 0 < i → i < s.heap.size → ∃ above here, s.heap.expireAt (i / 2) = some above ∧
      s.heap.expireAt i = some here ∧ above ≤ here) ∧
    ∀ op : HeapOp, op.Admissible s.live → ∃ s', HeapStep s op s' := by
  obtain ⟨ts, hr, hlive⟩ := HeapSys.ok_of_run h
  refine ⟨hr.size_le, ⟨ts, hr.stored, hr.size, hr.nodup, ?_⟩, ?_, ?_⟩
  · intro t
    rw [← hlive, List.mem_toFinset]
  · intro i hpos hi
    have hp := heapParent_lt i hpos
    exact ⟨_, _, hr.expireAt (i := heapParent i) (by omega), hr.expireAt hi, hr.ordered i hpos hi⟩
  · intro op hop
    obtain ⟨h', fired, hexec, -⟩ := HeapOp.exec_ok ⟨ts, hr, hlive⟩ op hop
    exact ⟨⟨h', op.live s.live fired⟩, hop, fired, hexec, rfl⟩

/-- Four timers are added, one of them is rescheduled and fired by a tick, and one is deleted. -/
def heapOps : List HeapOp :=
  [.add 7 30 10, .add 8 20 10, .add 9 40 10, .add 6 50 10, .reschedule 9 11 10, .tick 12 12, .del 8 13]

/-- The invariant after these operations. -/
theorem heap_run_invariant_four : ∃ s, Run HeapStep (HeapSys.init (fun _ => none) 0 false) heapOps s ∧
    s.live = {6, 7} ∧ s.heap.size ≤ s.heap.capacity ∧
    ∃ above here, s.heap.expireAt 0 = some above ∧ s.heap.expireAt 1 = some here ∧ above ≤ here := by
  have hends : (exec (guardedNext HeapSys.next fun s op => op.Admissible s.live)
      (HeapSys.init (fun _ => none) 0 false) heapOps).map (fun s => (s.live, s.heap.size)) =
      some ({6, 7}, 2) := by decide
  obtain ⟨s, hrun', hs⟩ := Run.of_exec_guarded hends
  obtain ⟨hlive, hsize⟩ := Prod.mk.inj hs
  have hrun := hrun'.mono fun _ _ _ h => HeapStep.of_next h.2 h.1
  obtain ⟨hle, -, hordered, -⟩ := heap_run_invariant hrun
  exact ⟨s, hrun, hlive, hle, hordered 1 (by decide) (by omega)⟩

end Ulsp
