import Ulsp.Lib.Fuel
import Ulsp.Thpool.JobQueue

/-!
# The end of a job queue (`jobqueue_clear`, `thpool/thpool.c`)

`jobqueue_clear` frees the job at `head` and then reads from it where the next one is. The section that
`lock` protects, with the jobs in an explicit heap: `free` makes a job unreadable, and a pass that
reads one is undefined. So the function has a meaning for the empty queue only (`clears_iff`).
-/

namespace Ulsp

open Lib

namespace JobQueue

/-- `free` of a job. -/
def free (job : Ptr) (q : JobQueue) : Option JobQueue := (q.mem job).map fun _ => q.setNode job none

/-- The link of a job, which is to be read. -/
def readNext (job : Ptr) (q : JobQueue) : Option (Option Ptr) := (q.mem job).map Job.next

/-- A queue of which some jobs have been freed. -/
structure Cleared where
  queue : JobQueue
  freed : List Ptr

/-- A pass of the loop of `jobqueue_clear`, or what follows the loop. -/
def clearPass (c : Cleared) : Option (Cleared ⊕ Cleared) :=
  match c.queue.head with
  | none => some (.inr { c with queue := { c.queue with head := none, tail := none } })
  | some job => do
    let q ← c.queue.free job
    -- `jobqueue->head` is the job that was freed
    let head ← q.head
    let next ← q.readNext head
    return .inl ⟨{ q with head := next, len := q.len - 1 }, c.freed ++ [job]⟩

/-- `jobqueue_clear`, for at most `fuel` passes of its loop. -/
def clear (q : JobQueue) (fuel : ℕ) : Option (Option Cleared) := partialLoop clearPass fuel ⟨q, []⟩

/-- `jobqueue_clear` ends, without a read of a freed job, has freed each of the jobs `ps` once and no
others, and leaves the queue empty. -/
def Clears (q : JobQueue) (ps : List Ptr) : Prop :=
  ∃ c, Returns q.clear (some c) ∧ c.freed.Perm ps ∧
    c.queue.head = none ∧ c.queue.tail = none ∧ c.queue.len = 0

variable {q q' : JobQueue} {ps : List Ptr} {job : Ptr}

/-- A job that was freed cannot be read. -/
theorem readNext_free (h : q.free job = some q') : q'.readNext job = none := by
  obtain ⟨_, -, rfl⟩ := Option.map_eq_some_iff.mp h
  simp [readNext, setNode]

/-- A job that is freed stays at `head`. -/
theorem head_free (h : q.free job = some q') : q'.head = q.head := by
  obtain ⟨_, -, rfl⟩ := Option.map_eq_some_iff.mp h
  rfl

/-- A pass with a job at `head` reads the job that it has freed. -/
theorem clearPass_eq_none {c : Cleared} (h : c.queue.head = some job) : clearPass c = none := by
  rw [clearPass, h]
  rcases hfree : c.queue.free job with _ | q
  · simp [hfree]
  · have hhead := (head_free hfree).trans h
    simp [hfree, hhead, readNext_free hfree]

/-- A queue with a job is not cleared. -/
theorem not_clears (h : q.head = some job) : ¬ q.Clears ps := by
  rintro ⟨c, ⟨n, hret⟩, -⟩
  have hundef : q.clear (n + 1) = none := by
    rw [clear, partialLoop, clearPass_eq_none (c := ⟨q, []⟩) h]
  rw [hret (n + 1) (Nat.le_succ n)] at hundef
  cases hundef

/-- A queue without a job is. -/
theorem clears_nil (h : q.head = none) (hlen : q.len = 0) : q.Clears [] := by
  refine ⟨⟨{ q with head := none, tail := none }, []⟩, .succ (k := 0) ?_, .refl _, rfl, rfl, hlen⟩
  intro fuel _
  simp only [clear, partialLoop, clearPass, h]

/-- `jobqueue_clear` of a queue of any length, linked from `head` and counted by `len`, clears it
without a read of a freed job exactly if the queue is empty. -/
theorem clears_iff (hlinked : Chain q.nextOf q.head ps) (hlen : q.len.toNat = ps.length)
    (halive : ∀ p ∈ ps, ∃ node, q.mem p = some node) : q.Clears ps ↔ ps = [] := by
  refine ⟨?_, ?_⟩
  · intro h
    cases ps with
    | nil => rfl
    | cons p ps => exact absurd h (not_clears hlinked.1)
  · rintro rfl
    exact clears_nil hlinked (UInt32.toNat_inj.mp hlen)

/-- A queue of one job. -/
def oneJob : JobQueue := ⟨some 0, some 0, 1, fun p => if p = 0 then some ⟨0, none⟩ else none⟩

theorem clears_oneJob : oneJob.Clears [0] ↔ [0] = [] :=
  clears_iff ⟨rfl, rfl⟩ rfl (by simp [oneJob])

/-- The loop reads the job that it has freed. -/
theorem freed_job_read : oneJob.Rep [0] ∧ ¬ oneJob.Clears [0] :=
  ⟨⟨⟨rfl, rfl⟩, rfl, rfl, by simp [oneJob]⟩, not_clears rfl⟩

end JobQueue

end Ulsp
