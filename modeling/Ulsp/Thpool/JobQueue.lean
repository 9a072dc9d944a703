import Mathlib.Data.List.Basic
import Ulsp.Base
import Ulsp.Lib.Chain

/-!
# The job queue of the thread pool (`thpool/thpool.c`)

`jobqueue_t` is a singly linked list of `job_t` nodes with pointers to both ends and a length, and
`jobqueue_push` and `jobqueue_pop` here are the sections of these functions that `lock` protects. A
job stands for the `fun` and `arg` of the `thpool_add_job` call that made it, named by the number of
that call. `len` is an `unsigned int`: it counts the jobs modulo 2³², and with 2³² jobs in the queue it
is 0.
-/

namespace Ulsp

open Lib

/-- `job_t`. -/
structure Job where
  call : ℕ
  next : Option Ptr
  deriving DecidableEq, Repr

/-- `jobqueue_t` without its lock, with the job objects. -/
structure JobQueue where
  head : Option Ptr
  tail : Option Ptr
  len : UInt32
  mem : Store Job

namespace JobQueue

/-- `jobqueue_init`. -/
def init (mem : Store Job) : JobQueue := ⟨none, none, 0, mem⟩

/-- Allocate the node at `p`, or free it. -/
def setNode (p : Ptr) (o : Option Job) (q : JobQueue) : JobQueue :=
  { q with mem := Function.update q.mem p o }

/-- The write `p->next = next`. -/
def setNext (p : Ptr) (next : Option Ptr) (q : JobQueue) : Option JobQueue :=
  (q.mem p).map fun job => q.setNode p (some { job with next })

/-- `jobqueue_push`. -/
def push (job : Ptr) (q : JobQueue) : Option JobQueue := do
  let q ← match q.tail with
    | some t => q.setNext t (some job)
    | none => some { q with head := some job }
  return { q with tail := some job, len := q.len + 1 }

/-- `jobqueue_pop`. -/
def pop (q : JobQueue) : Option (Option Ptr × JobQueue) :=
  if q.len = 0 then some (none, q)
  else do
    let job ← q.head
    let node ← q.mem job
    return (some job, { q with
      head := node.next
      tail := if node.next = none then none else q.tail
      len := q.len - 1 })

/-- The link of a node. -/
def nextOf (q : JobQueue) (p : Ptr) : Option Ptr := (q.mem p).bind Job.next

/-- The call that made the job at a node. -/
def callAt (q : JobQueue) (p : Ptr) : Option ℕ := (q.mem p).map Job.call

/-- The queue holds the jobs `ps`: they are linked from `head`, the last one is at `tail`, and `len`
counts them as far as it can. -/
structure Rep (q : JobQueue) (ps : List Ptr) : Prop where
  linked : Chain q.nextOf q.head ps
  tail : q.tail = ps.getLast?
  len : q.len = UInt32.ofNat ps.length
  alive : ∀ p ∈ ps, ∃ job, q.mem p = some job

variable {q q' : JobQueue} {ps : List Ptr} {p x : Ptr} {job : Job}

theorem callAt_of_some (h : q.mem p = some job) : q.callAt p = some job.call := by simp [callAt, h]

theorem callAt_setNode (p : Ptr) (o : Option Job) (q : JobQueue) (x : Ptr) :
    (q.setNode p o).callAt x = if x = p then o.map Job.call else q.callAt x := by
  rcases eq_or_ne x p with rfl | hx <;> simp [callAt, setNode, *]

theorem nextOf_setNode (p : Ptr) (o : Option Job) (q : JobQueue) (x : Ptr) :
    (q.setNode p o).nextOf x = if x = p then o.bind Job.next else q.nextOf x := by
  rcases eq_or_ne x p with rfl | hx <;> simp [nextOf, setNode, *]

theorem init_rep (mem : Store Job) : (init mem).Rep [] := ⟨rfl, rfl, rfl, by simp⟩

/-- The invariant does not depend on the nodes that are not in the queue. -/
theorem Rep.setNode (hr : q.Rep ps) (hp : p ∉ ps) (o : Option Job) : (q.setNode p o).Rep ps := by
  have hne : ∀ x ∈ ps, x ≠ p := fun x hx he => hp (he ▸ hx)
  refine ⟨hr.linked.congr ?_, hr.tail, hr.len, ?_⟩
  · intro x hx
    rw [nextOf_setNode, if_neg (hne x hx)]
  · intro x hx
    simpa [JobQueue.setNode, Function.update_of_ne (hne x hx)] using hr.alive x hx

/-- `len` is the number of the jobs if they are fewer than 2³². -/
theorem Rep.toNat_len (hr : q.Rep ps) (hlt : ps.length < 2 ^ 32) : q.len.toNat = ps.length := by
  rw [hr.len, UInt32.toNat_ofNat']
  exact Nat.mod_eq_of_lt hlt

/-- A queue whose `len` is not 0 has jobs. -/
theorem Rep.ne_nil (hr : q.Rep ps) (hlen : q.len ≠ 0) : ps ≠ [] := by
  rintro rfl
  exact hlen hr.len

/-- `head` and `tail` are null exactly when the queue is empty. -/
theorem Rep.null_iff (hr : q.Rep ps) : (q.head = none ↔ ps = []) ∧ (q.tail = none ↔ ps = []) :=
  ⟨hr.linked.head? ▸ List.head?_eq_none_iff, hr.tail ▸ List.getLast?_eq_none_iff⟩

/-- `jobqueue_push` of a new job puts it at the end, and changes no other node but the link of the
former last one. -/
theorem push_spec (hr : q.Rep ps) (hp : p ∉ ps) (hjob : q.mem p = some job)
    (hnext : job.next = none) : ∃ q', q.push p = some q' ∧ q'.Rep (ps ++ [p]) ∧
      q'.callAt = q.callAt ∧ ∀ x, x ∉ ps → q'.mem x = q.mem x := by
  have hlen : q.len + 1 = UInt32.ofNat (ps ++ [p]).length := by
    rw [hr.len, List.length_append]
    exact (UInt32.ofNat_add _ 1).symm
  rcases List.eq_nil_or_concat' ps with rfl | ⟨ps, t, rfl⟩
  · have htail : q.tail = none := hr.tail
    refine ⟨{ q with head := some p, tail := some p, len := q.len + 1 }, by simp [push, htail],
      ⟨⟨rfl, ?_⟩, rfl, hlen, by simpa using ⟨job, hjob⟩⟩, rfl, fun _ _ => rfl⟩
    show q.nextOf p = none
    simp [nextOf, hjob, hnext]
  · have htail : q.tail = some t := by simp [hr.tail]
    obtain ⟨last, hlast⟩ := hr.alive t (by simp)
    have hpt : p ≠ t := by rintro rfl; simp at hp
    let q₁ := q.setNode t (some { last with next := some p })
    refine ⟨{ q₁ with tail := some p, len := q.len + 1 }, by simp [push, htail, setNext, hlast, q₁]; rfl,
      ⟨?_, by simp, hlen, ?_⟩, ?_,
      fun x hx => Function.update_of_ne (by rintro rfl; simp at hx) _ _⟩
    · obtain ⟨r, hseg, hr', -⟩ := seg_append.mp hr.linked
      have hnd := hr.linked.nodup
      have hnext₁ : ∀ x, q₁.nextOf x = if x = t then some p else q.nextOf x :=
        nextOf_setNode t _ q
      refine seg_append.mpr ⟨some p, seg_append.mpr ⟨r, hseg.congr ?_, hr', ?_⟩, rfl, ?_⟩
      · intro x hx
        refine (hnext₁ x).trans (if_neg ?_)
        rintro rfl
        exact (List.nodup_append'.mp hnd).2.2 hx (by simp)
      · exact (hnext₁ t).trans (if_pos rfl)
      · exact (hnext₁ p).trans ((if_neg hpt).trans (by simp [nextOf, hjob, hnext]))
    · intro x hx
      rcases eq_or_ne x t with rfl | hxt
      · exact ⟨_, Function.update_self ..⟩
      · show ∃ job, Function.update q.mem t _ x = some job
        rw [Function.update_of_ne hxt]
        rcases List.mem_append.mp hx with hx | hx
        · exact hr.alive x hx
        · exact ⟨job, List.mem_singleton.mp hx ▸ hjob⟩
    · funext x
      refine (callAt_setNode t _ q x).trans ?_
      split
      · rename_i hx
        simp [hx, callAt, hlast]
      · rfl

/-- `jobqueue_pop` that returns null found `len` at 0, and changes nothing. -/
theorem pop_none (h : q.pop = some (none, q')) : q' = q ∧ q.len = 0 := by
  unfold pop at h
  split at h
  · cases h; exact ⟨rfl, ‹_›⟩
  · simp only [Option.bind_eq_bind, Option.bind_eq_some_iff] at h
    obtain ⟨p, -, node, -, h⟩ := h
    cases h

/-- What `jobqueue_pop` returns is a job, and it is counted. -/
theorem pop_some (h : q.pop = some (some p, q')) :
    q.len ≠ 0 ∧ q'.len.toNat + 1 = q.len.toNat ∧ ∃ call, q.callAt p = some call := by
  unfold pop at h
  split at h
  · cases h
  · simp only [Option.bind_eq_bind, Option.bind_eq_some_iff] at h
    obtain ⟨p, -, node, hnode, h⟩ := h
    cases h
    have hpos : q.len.toNat ≠ 0 := by rwa [← UInt32.toNat_zero, ne_eq, UInt32.toNat_inj]
    have hle : 1 ≤ q.len := UInt32.le_iff_toNat_le.mpr (Nat.one_le_iff_ne_zero.mpr hpos)
    refine ⟨‹_›, ?_, _, callAt_of_some hnode⟩
    rw [UInt32.toNat_sub_of_le _ _ hle]
    exact Nat.sub_add_cancel (Nat.one_le_iff_ne_zero.mpr hpos)

/-- `jobqueue_push` leaves a job at `head`. -/
theorem push_head (hr : q.Rep ps) (h : q.push p = some q') : q'.head ≠ none := by
  unfold push at h
  split at h
  · rename_i t htail
    simp only [setNext, Option.bind_eq_bind, Option.bind_eq_some_iff, Option.map_eq_some_iff] at h
    obtain ⟨q₁, ⟨node, -, rfl⟩, h⟩ := h
    cases h
    obtain ⟨hhead, htail'⟩ := hr.null_iff
    exact fun hnone => Option.some_ne_none t (htail.symm.trans (htail'.mpr (hhead.mp hnone)))
  · cases h
    exact Option.some_ne_none _

/-- `jobqueue_push` counts the job, if `len` does not wrap. -/
theorem push_len (h : q.push p = some q') : q'.len.toNat ≤ q.len.toNat + 1 := by
  have hlen : q'.len = q.len + 1 := by
    unfold push at h
    split at h
    · simp only [setNext, Option.bind_eq_bind, Option.bind_eq_some_iff, Option.map_eq_some_iff] at h
      obtain ⟨q₁, ⟨node, -, rfl⟩, h⟩ := h
      cases h
      rfl
    · cases h
      rfl
  rw [hlen, UInt32.toNat_add]
  exact Nat.mod_le _ _

/-- `jobqueue_pop` of a queue whose `len` is 0 returns null. -/
theorem pop_zero (hlen : q.len = 0) : q.pop = some (none, q) := if_pos hlen

/-- `jobqueue_pop` takes the first job off the queue and changes no node. -/
theorem pop_cons (hr : q.Rep (p :: ps)) (hlen : q.len ≠ 0) :
    ∃ q', q.pop = some (some p, q') ∧ q'.Rep ps ∧ q'.mem = q.mem := by
  obtain ⟨hhead, hrest⟩ := hr.linked
  obtain ⟨node, hnode⟩ := hr.alive p List.mem_cons_self
  have hnext : node.next = ps.head? := by
    rw [hrest.head?]
    simp [nextOf, hnode]
  refine ⟨⟨node.next, if node.next = none then none else q.tail, q.len - 1, q.mem⟩,
    by simp [pop, hlen, hhead, hnode], ⟨?_, ?_, ?_, ?_⟩, rfl⟩
  · rw [hnext, hrest.head?]
    exact hrest
  · rw [hnext, hr.tail]
    cases ps with
    | nil => rfl
    | cons x ps => simp [List.getLast?_cons]
  · simp [hr.len]
  · exact fun x hx => hr.alive x (List.mem_cons_of_mem _ hx)

end JobQueue

end Ulsp
