import Mathlib.Data.List.Nodup
import Ulsp.Thpool.JobQueue

/-!
# The life of a job

What the threads of the pool do with jobs, apart from how they synchronise: a job is allocated by
one thread, pushed, popped by some thread, which calls its function, and freed. `Ledger` is that
protocol over any type of threads, each at a `Stage` of it, in every interleaving. Its invariant
says who holds each node (`Ok.owned`, `Ok.apart`) and that a job's function is called by the thread
that popped it and by no other.
-/

namespace Ulsp

open Lib

namespace Thpool

/-- What has happened to the jobs, each named by the number of its `thpool_add_job` call: the number
of calls, the jobs pushed and popped, and those whose function was called and has finished, each in
order. -/
structure Log where
  calls : ℕ
  pushed : List ℕ
  popped : List ℕ
  called : List ℕ
  finished : List ℕ

/-- What a thread has to do with a job: nothing, or it has allocated the node, popped it, is in the
job's function, or has run it. -/
inductive Stage where
  | outside
  | made (job : Ptr)
  | popped (job : Ptr)
  | calling (job : Ptr) (call : ℕ)
  | ran (job : Ptr)
  deriving DecidableEq, Repr

/-- The node a thread holds. -/
def Stage.node : Stage → Option Ptr
  | outside => none
  | made p => some p
  | popped p => some p
  | calling p _ => some p
  | ran p => some p

/-- One thread's steps in the life of a job; `quiet` is every step that has nothing to do with it. -/
inductive JobStep : Stage → JobQueue → Log → Stage → JobQueue → Log → Prop
  | quiet (st : Stage) (q : JobQueue) (log : Log) : JobStep st q log st q log
  | malloc (p : Ptr) (q : JobQueue) (log : Log) : q.mem p = none →
    JobStep .outside q log (.made p) (q.setNode p (some ⟨log.calls, none⟩))
      { log with calls := log.calls + 1 }
  | push (p : Ptr) (call : ℕ) (q q' : JobQueue) (log : Log) : q.callAt p = some call →
    q.push p = some q' →
    JobStep (.made p) q log .outside q' { log with pushed := log.pushed ++ [call] }
  | pop (p : Ptr) (call : ℕ) (q q' : JobQueue) (log : Log) : q.pop = some (some p, q') →
    q.callAt p = some call →
    JobStep .outside q log (.popped p) q' { log with popped := log.popped ++ [call] }
  | call (p : Ptr) (call : ℕ) (q : JobQueue) (log : Log) : q.callAt p = some call →
    JobStep (.popped p) q log (.calling p call) q { log with called := log.called ++ [call] }
  | finish (p : Ptr) (call : ℕ) (q : JobQueue) (log : Log) :
    JobStep (.calling p call) q log (.ran p) q { log with finished := log.finished ++ [call] }
  | free (p : Ptr) (q : JobQueue) (log : Log) :
    JobStep (.ran p) q log .outside (q.setNode p none) log

/-- The threads, the queue and the log. -/
structure Ledger (T : Type) where
  stage : T → Stage
  queue : JobQueue
  log : Log

namespace Ledger

variable {T : Type}

/-- A step of the thread `t`. -/
inductive Step [DecidableEq T] (l : Ledger T) (t : T) : Ledger T → Prop
  | move (st : Stage) (q : JobQueue) (log : Log) : JobStep (l.stage t) l.queue l.log st q log →
    Step l t ⟨Function.update l.stage t st, q, log⟩

/-- The invariant: the queue holds the nodes `ps`, of the jobs pushed and not popped; every other
node belongs to one thread; and a job is called once and finished by the time its thread is done
with it. -/
structure Ok (l : Ledger T) (ps : List Ptr) : Prop where
  rep : l.queue.Rep ps
  split : ∃ cs, ps.map l.queue.callAt = cs.map some ∧ l.log.pushed = l.log.popped ++ cs
  owned : ∀ t p, (l.stage t).node = some p → p ∉ ps ∧ ∃ j, l.queue.callAt p = some j
  made : ∀ t p, l.stage t = .made p → l.queue.nextOf p = none
  apart : ∀ t u p, (l.stage t).node = some p → (l.stage u).node = some p → t = u
  inj : ∀ p p' j, l.queue.callAt p = some j → l.queue.callAt p' = some j → p = p'
  lt : ∀ p j, l.queue.callAt p = some j → j < l.log.calls
  called_nodup : l.log.called.Nodup
  called_lt : ∀ j ∈ l.log.called, j < l.log.calls
  called_stage : ∀ p j, l.queue.callAt p = some j → j ∈ l.log.called →
    ∃ t, l.stage t = .calling p j ∨ l.stage t = .ran p
  calling : ∀ t p j, l.stage t = .calling p j → l.queue.callAt p = some j
  done : ∀ j ∈ l.log.popped, j ∈ l.log.finished ∨ ∃ t p, (l.stage t = .popped p ∨
    l.stage t = .calling p j) ∧ l.queue.callAt p = some j

variable {l l' : Ledger T} {ps : List Ptr} {t : T} {p : Ptr} {j : ℕ}

/-- Before any job. -/
theorem init_ok : Ok (T := T) ⟨fun _ => .outside, JobQueue.init fun _ => none, ⟨0, [], [], [], []⟩⟩ []
    where
  rep := JobQueue.init_rep _
  split := ⟨[], rfl, rfl⟩
  owned := by simp [Stage.node]
  made := by simp
  apart := by simp [Stage.node]
  inj := by simp [JobQueue.callAt, JobQueue.init]
  lt := by simp [JobQueue.callAt, JobQueue.init]
  called_nodup := .nil
  called_lt := by simp
  called_stage := by simp
  calling := by simp
  done := by simp

/-- An address that holds no node is neither in the queue nor a thread's. -/
theorem Ok.not_held (h : l.Ok ps) (hp : l.queue.mem p = none) :
    p ∉ ps ∧ ∀ t, (l.stage t).node ≠ some p := by
  have hcall : l.queue.callAt p = none := by simp [JobQueue.callAt, hp]
  refine ⟨?_, ?_⟩
  · intro hm
    obtain ⟨job, hjob⟩ := h.rep.alive p hm
    cases hp.symm.trans hjob
  · intro t ht
    obtain ⟨-, j, hj⟩ := h.owned t p ht
    cases hcall.symm.trans hj

/-- A thread with a new job can push it. -/
theorem Ok.can_push (h : l.Ok ps) (ht : l.stage t = .made p) :
    ∃ j q', l.queue.callAt p = some j ∧ l.queue.push p = some q' := by
  obtain ⟨hps, j, hj⟩ := h.owned t p (by rw [ht]; rfl)
  obtain ⟨job, hjob, -⟩ : ∃ job, l.queue.mem p = some job ∧ job.call = j := by
    simpa [JobQueue.callAt] using hj
  have hnext : job.next = none := by simpa [JobQueue.nextOf, hjob] using h.made t p ht
  obtain ⟨q', hpush, -⟩ := JobQueue.push_spec h.rep hps hjob hnext
  exact ⟨j, q', hj, hpush⟩

/-- A thread can pop. -/
theorem Ok.can_pop (h : l.Ok ps) : ∃ job q', l.queue.pop = some (job, q') := by
  by_cases hlen : l.queue.len = 0
  · exact ⟨none, l.queue, JobQueue.pop_zero hlen⟩
  · obtain ⟨p, ps, rfl⟩ := List.exists_cons_of_ne_nil (h.rep.ne_nil hlen)
    obtain ⟨q', hpop, -⟩ := JobQueue.pop_cons h.rep hlen
    exact ⟨some p, q', hpop⟩

variable [DecidableEq T]

/-- Allocating a job. -/
theorem Ok.malloc (h : l.Ok ps) (ht : l.stage t = .outside) (hp : l.queue.mem p = none) :
    Ok ⟨Function.update l.stage t (.made p), l.queue.setNode p (some ⟨l.log.calls, none⟩),
      { l.log with calls := l.log.calls + 1 }⟩ ps := by
  obtain ⟨hps, hheld⟩ := h.not_held hp
  obtain ⟨rep, ⟨cs, hcs, hlog⟩, owned, made, apart, inj, lt, called_nodup, called_lt, called_stage,
    calling, done⟩ := h
  have hsame : ∀ x ∈ ps, (l.queue.setNode p (some ⟨l.log.calls, none⟩)).callAt x =
      l.queue.callAt x := fun x hx => by
    rw [JobQueue.callAt_setNode, if_neg]
    rintro rfl
    exact hps hx
  refine ⟨rep.setNode hps _, ⟨cs, (List.map_congr_left hsame).trans hcs, hlog⟩, ?_, ?_, ?_, ?_,
    ?_, called_nodup, fun j hj => Nat.lt_succ_of_lt (called_lt j hj), ?_, ?_, ?_⟩
  all_goals
    simp only [JobQueue.callAt_setNode, JobQueue.nextOf_setNode, Function.update_apply]
    grind [Stage.node]

/-- Pushing a job. -/
theorem Ok.push (h : l.Ok ps) (ht : l.stage t = .made p) {q' : JobQueue}
    (hj : l.queue.callAt p = some j) (hpush : l.queue.push p = some q') :
    Ok ⟨Function.update l.stage t .outside, q', { l.log with pushed := l.log.pushed ++ [j] }⟩
      (ps ++ [p]) := by
  have hps := (h.owned t p (by rw [ht]; rfl)).1
  obtain ⟨job, hjob, -⟩ : ∃ job, l.queue.mem p = some job ∧ job.call = j := by
    simpa [JobQueue.callAt] using hj
  have hnext : job.next = none := by simpa [JobQueue.nextOf, hjob] using h.made t p ht
  obtain ⟨q'', hpush', hrep, hcall, hmem⟩ := JobQueue.push_spec h.rep hps hjob hnext
  obtain rfl := Option.some.inj (hpush.symm.trans hpush')
  obtain ⟨rep, ⟨cs, hcs, hlog⟩, owned, made, apart, inj, lt, called_nodup, called_lt, called_stage,
    calling, done⟩ := h
  have hnextOf : ∀ x, x ∉ ps → q'.nextOf x = l.queue.nextOf x := fun x hx => by
    rw [JobQueue.nextOf, hmem x hx, JobQueue.nextOf]
  refine ⟨hrep, ⟨cs ++ [j], by simp [hcall, hcs, hj], by simp [hlog]⟩, ?_, ?_, ?_, ?_, ?_,
    called_nodup, called_lt, ?_, ?_, ?_⟩
  all_goals
    simp only [hcall, Function.update_apply]
    grind [Stage.node]

/-- Popping a job. -/
theorem Ok.pop (h : l.Ok ps) (ht : l.stage t = .outside) {q' : JobQueue}
    (hj : l.queue.callAt p = some j) (hpop : l.queue.pop = some (some p, q')) :
    ∃ ps', Ok ⟨Function.update l.stage t (.popped p), q',
      { l.log with popped := l.log.popped ++ [j] }⟩ ps' := by
  have hlen := (JobQueue.pop_some hpop).1
  cases ps with
  | nil => exact absurd rfl (h.rep.ne_nil hlen)
  | cons x ps =>
    obtain ⟨q'', hpop', hrep, hmem⟩ := JobQueue.pop_cons h.rep hlen
    obtain ⟨hx, rfl⟩ := Prod.mk.inj (Option.some.inj (hpop.symm.trans hpop'))
    obtain rfl := Option.some.inj hx
    have hcall : q'.callAt = l.queue.callAt := funext fun x => by
      rw [JobQueue.callAt, hmem, JobQueue.callAt]
    have hnextOf : q'.nextOf = l.queue.nextOf := funext fun x => by
      rw [JobQueue.nextOf, hmem, JobQueue.nextOf]
    have hnd := List.nodup_cons.mp h.rep.linked.nodup
    obtain ⟨rep, ⟨cs, hcs, hlog⟩, owned, made, apart, inj, lt, called_nodup, called_lt, called_stage,
      calling, done⟩ := h
    obtain ⟨c, cs, rfl⟩ : ∃ c cs', cs = c :: cs' := by
      cases cs with
      | nil => cases hcs
      | cons c cs => exact ⟨c, cs, rfl⟩
    simp only [List.map_cons, List.cons.injEq, hj, Option.some.injEq] at hcs
    obtain ⟨rfl, hcs⟩ := hcs
    refine ⟨ps, hrep, ⟨cs, by rw [hcall, hcs], by simp [hlog]⟩, ?_, ?_, ?_, ?_, ?_,
      called_nodup, called_lt, ?_, ?_, ?_⟩
    all_goals
      simp only [hcall, hnextOf, Function.update_apply]
      grind [Stage.node]

/-- Calling a job's function. -/
theorem Ok.call (h : l.Ok ps) (ht : l.stage t = .popped p) (hj : l.queue.callAt p = some j) :
    Ok ⟨Function.update l.stage t (.calling p j), l.queue,
      { l.log with called := l.log.called ++ [j] }⟩ ps := by
  obtain ⟨rep, split, owned, made, apart, inj, lt, called_nodup, called_lt, called_stage,
    calling, done⟩ := h
  have hlt := lt p j hj
  have hnew : j ∉ l.log.called := fun hm => by grind [Stage.node]
  refine ⟨rep, split, ?_, ?_, ?_, inj, lt, ?_, ?_, ?_, ?_, ?_⟩
  all_goals
    simp only [Function.update_apply]
    grind [Stage.node]

/-- The end of a job's function. -/
theorem Ok.finish (h : l.Ok ps) (ht : l.stage t = .calling p j) :
    Ok ⟨Function.update l.stage t (.ran p), l.queue,
      { l.log with finished := l.log.finished ++ [j] }⟩ ps := by
  obtain ⟨rep, split, owned, made, apart, inj, lt, called_nodup, called_lt, called_stage,
    calling, done⟩ := h
  refine ⟨rep, split, ?_, ?_, ?_, inj, lt, called_nodup, called_lt, ?_, ?_, ?_⟩
  all_goals
    simp only [Function.update_apply]
    grind [Stage.node]

/-- Freeing a job. -/
theorem Ok.free (h : l.Ok ps) (ht : l.stage t = .ran p) :
    Ok ⟨Function.update l.stage t .outside, l.queue.setNode p none, l.log⟩ ps := by
  have hps := (h.owned t p (by rw [ht]; rfl)).1
  obtain ⟨rep, ⟨cs, hcs, hlog⟩, owned, made, apart, inj, lt, called_nodup, called_lt, called_stage,
    calling, done⟩ := h
  have hsame : ∀ x ∈ ps, (l.queue.setNode p none).callAt x = l.queue.callAt x := fun x hx => by
    rw [JobQueue.callAt_setNode, if_neg]
    rintro rfl
    exact hps hx
  refine ⟨rep.setNode hps _, ⟨cs, (List.map_congr_left hsame).trans hcs, hlog⟩, ?_, ?_, ?_, ?_,
    ?_, called_nodup, called_lt, ?_, ?_, ?_⟩
  all_goals
    simp only [JobQueue.callAt_setNode, JobQueue.nextOf_setNode, Function.update_apply]
    grind [Stage.node]

/-- Every step keeps the invariant. -/
theorem Ok.step (h : l.Ok ps) (hstep : l.Step t l') : ∃ ps', l'.Ok ps' := by
  obtain ⟨st, q, log, hjob⟩ := hstep
  generalize hst : l.stage t = st₀ at hjob
  cases hjob with
  | quiet =>
    rw [← hst, Function.update_eq_self]
    exact ⟨ps, h⟩
  | malloc p _ _ hp => exact ⟨ps, h.malloc hst hp⟩
  | push p j _ _ _ hj hpush => exact ⟨_, h.push hst hj hpush⟩
  | pop p j _ _ _ hpop hj => exact h.pop hst hj hpop
  | call p j _ _ hj => exact ⟨ps, h.call hst hj⟩
  | finish p j => exact ⟨ps, h.finish hst⟩
  | free p => exact ⟨ps, h.free hst⟩

end Ledger

end Thpool

end Ulsp
