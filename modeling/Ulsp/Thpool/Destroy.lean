import Ulsp.Lib.Tally
import Ulsp.Thpool.Pause

/-!
# The end of the pool (`thpool_init` and `thpool_destroy`)

The main thread makes the pool, lets the clients use it, and destroys it while the workers go on:
`Program` is the pool with the next step of that thread. `thpool_init` returns when all workers have
raised `thread_alive`, and `thpool_destroy` frees the pool when it reads `thread_alive` as 0, without
`count_locker`. A worker that lowered it has still to unlock `count_locker`, and does so in a freed
pool if it has not by then (`unlock_after_free`). If no worker stands there when the main thread reads
0 (`ReadsLast`), all have exited, and none touches the pool again.
-/

namespace Ulsp

open Lib

namespace Thpool

/-- The next step of the main thread: the loop of `thpool_init`, the call of `thpool_destroy`, its
loop, and what it destroys and frees. -/
inductive MainPc where
  | initWait
  | ready
  | aliveTest
  | post
  | clearJobs
  | destroyLock
  | freeJobs
  | freeThreads
  | destroyCountLocker
  | destroyAllIdle
  | destroyHasJob
  | freePool
  | returned
  deriving DecidableEq, Repr

/-- Whether `thpool_destroy` has destroyed a mutex of the pool, and freed it maybe. -/
def MainPc.destroyed : MainPc → Bool
  | freeJobs => true
  | freeThreads => true
  | destroyCountLocker => true
  | destroyAllIdle => true
  | destroyHasJob => true
  | freePool => true
  | returned => true
  | _ => false

/-- Whether `thpool_destroy` has read `thread_alive` as 0. -/
def MainPc.leftLoop : MainPc → Bool
  | clearJobs => true
  | destroyLock => true
  | pc => pc.destroyed

/-- Whether a worker's next step reads, writes, locks, unlocks or waits for something of the pool. A
job that was popped is not of the pool. -/
def WorkerPc.touches : WorkerPc → Bool
  | callFun _ => false
  | inFun _ _ => false
  | freeJob _ => false
  | exited => false
  | _ => true

/-- Whether a worker is between `++thread_alive` and `--thread_alive`. -/
def WorkerPc.alive : WorkerPc → Bool
  | lock .alive => false
  | body .alive => false
  | unlock .exit _ => false
  | exited => false
  | _ => true

/-- Whether a worker has raised `thread_alive`. -/
def WorkerPc.started : WorkerPc → Bool
  | lock .alive => false
  | body .alive => false
  | _ => true

/-- Whether a worker has lowered `thread_alive` and has still to unlock `count_locker`. -/
def WorkerPc.unlocksExit : WorkerPc → Bool
  | unlock .exit _ => true
  | _ => false

/-- The pool and the main thread. -/
structure Program (n : ℕ) (C : Type) where
  pool : State n C
  main : MainPc

/-- Who moves: a thread of the pool, or the main thread; `jobqueue_clear` reads the links of jobs it
has freed, so it may leave any queue with null ends. -/
inductive ProgramLabel (n : ℕ) (C : Type) where
  | pool (l : Label n C)
  | main
  | clear (jobs : JobQueue)

variable {n : ℕ} {C : Type}

/-- The program when the main thread has created the workers. -/
def Program.init : Program n C := ⟨Thpool.init, .initWait⟩

/-- The step of the main thread. -/
def mainDo (sh : Shared n C) : MainPc → Option (MainPc × Shared n C)
  | .initWait => some (if sh.threadAlive < n then .initWait else .ready, sh)
  | .ready => some (.aliveTest, { sh with running := false })
  | .aliveTest => some (if sh.threadAlive ≠ 0 then .post else .clearJobs, sh)
  | .post => some (.aliveTest, { sh with hasJob := semPost sh.hasJob })
  | .clearJobs => none
  | .destroyLock => some (.freeJobs, sh)
  | .freeJobs => some (.freeThreads, sh)
  | .freeThreads => some (.destroyCountLocker, sh)
  | .destroyCountLocker => some (.destroyAllIdle, sh)
  | .destroyAllIdle => some (.destroyHasJob, sh)
  | .destroyHasJob => some (.freePool, sh)
  | .freePool => some (.returned, sh)
  | .returned => none

/-- Whether a thread of the pool may take a step: the clients have the pool from the return of
`thpool_init` on, and what a step does that touches a destroyed pool is undefined. -/
def Program.allows (s : Program n C) : Label n C → Bool
  | .worker i _ => !s.main.destroyed || !(s.pool.worker i).touches
  | .client _ _ => s.main != .initWait && !s.main.destroyed
  | _ => true

/-- The steps of the program. -/
def Program.next [DecidableEq C] [Fintype C] (s : Program n C) :
    ProgramLabel n C → Option (Program n C)
  | .pool l => if s.allows l then (Thpool.next s.pool l).map fun pool => { s with pool } else none
  | .main => (mainDo s.pool.sh s.main).map fun (main, sh) => ⟨{ s.pool with sh }, main⟩
  | .clear jobs =>
    if s.main = .clearJobs ∧ s.pool.sh.owner .lock = none ∧ jobs.head = none ∧ jobs.tail = none then
      some ⟨{ s.pool with sh := { s.pool.sh with queue := jobs } }, .destroyLock⟩
    else none

/-- The step relation of the program. -/
def Program.Step [DecidableEq C] [Fintype C] (s : Program n C) (l : ProgramLabel n C)
    (t : Program n C) : Prop :=
  s.next l = some t

/-- The main thread reads `thread_alive` as 0 only when no worker has still to unlock `count_locker`
after it lowered it. -/
def ReadsLast (s : Program n C) : ProgramLabel n C → Prop
  | .main => s.main = .aliveTest → s.pool.sh.threadAlive = 0 →
    ∀ i, (s.pool.worker i).unlocksExit = false
  | _ => True

/-- A worker that has started and is not alive has only to unlock, or has exited. -/
theorem WorkerPc.exited_of {pc : WorkerPc} (hstarted : pc.started = true) (halive : pc.alive = false)
    (hunlock : pc.unlocksExit = false) : pc = .exited := by
  cases pc with
  | lock sec => cases sec <;> simp_all [started, alive]
  | body sec => cases sec <;> simp_all [started, alive]
  | unlock sec job => cases sec <;> simp_all [unlocksExit, alive]
  | exited => rfl
  | _ => simp [alive] at halive

/-- `thread_alive` changes with the worker, which stays started. -/
theorem threadDo_alive {t : Thread n C} {sh sh' : Shared n C} {pc pc' : WorkerPc} {signal : Bool}
    (h : threadDo t sh pc = some (pc', sh', signal)) :
    sh'.threadAlive + pc.alive.toNat = sh.threadAlive + pc'.alive.toNat ∧
    (pc.started = true → pc'.started = true) := by
  cases threadDo_cases h with
  | lock sec => cases sec <;> exact ⟨rfl, id⟩
  | alive | exit => exact ⟨by simp [WorkerPc.alive], fun _ => rfl⟩
  | unlock sec job => cases sec <;> cases job <;> exact ⟨rfl, id⟩
  | loopTest | runTest => cases sh.running <;> exact ⟨rfl, id⟩
  | _ => exact ⟨rfl, id⟩

/-- A client's step leaves `thread_alive`. -/
theorem clientDo_alive {t : Thread n C} {sh sh' : Shared n C} {pc pc' : ClientPc} {move : Move}
    (h : clientDo t sh pc move = some (pc', sh')) : sh'.threadAlive = sh.threadAlive := by
  cases clientDo_cases h <;> rfl

section Runs

variable {s s' : Program n C} {l : ProgramLabel n C}

/-- The invariant: `thread_alive` counts the workers that are alive, `thpool_init` has returned only
when all have started, and `thpool_destroy` has left its loop only when all have exited. -/
structure Program.Ordered (s : Program n C) : Prop where
  alive : s.pool.sh.threadAlive = count WorkerPc.alive s.pool.worker
  started : s.main ≠ .initWait → ∀ i, (s.pool.worker i).started = true
  exited : s.main.leftLoop = true → ∀ i, s.pool.worker i = .exited

theorem init_ordered : (Program.init : Program n C).Ordered where
  alive := by
    have hnone : count WorkerPc.alive (Program.init : Program n C).pool.worker = 0 :=
      count_eq_zero.mpr fun i => rfl
    rw [hnone]
    rfl
  started := fun h => absurd rfl h
  exited := nofun

theorem MainPc.leftLoop_of_destroyed {pc : MainPc} (h : pc.destroyed = true) :
    pc.leftLoop = true := by
  cases pc <;> first | rfl | cases h

/-- The main thread's step keeps the invariant, if it reads `thread_alive` as 0 only when no worker
has still to unlock. -/
theorem ordered_main {main : MainPc} {sh : Shared n C} (hs : s.Ordered)
    (h : mainDo s.pool.sh s.main = some (main, sh)) (hlast : ReadsLast s .main) :
    Program.Ordered ⟨{ s.pool with sh }, main⟩ := by
  unfold mainDo at h
  split at h
  · rename_i hmain
    cases h
    refine ⟨hs.alive, ?_, ?_⟩
    · -- the loop of `thpool_init` ends when `n` workers are alive, that is, all of them
      intro hready i
      have hn : ¬ s.pool.sh.threadAlive < n := fun hlt => hready (if_pos hlt)
      have hall : Fintype.card (Fin n) ≤ count WorkerPc.alive s.pool.worker := by
        have := hs.alive
        rw [Fintype.card_fin]
        omega
      have halive := card_le_count.mp hall i
      cases hpc : s.pool.worker i with
      | lock sec => cases sec <;> simp_all [WorkerPc.alive, WorkerPc.started]
      | body sec => cases sec <;> simp_all [WorkerPc.alive, WorkerPc.started]
      | _ => rfl
    · split <;> nofun
  · rename_i hmain
    cases h
    exact ⟨hs.alive, fun _ => hs.started (by simp [hmain]), nofun⟩
  · rename_i hmain
    cases h
    have hstarted := hs.started (by simp [hmain])
    refine ⟨hs.alive, fun _ => hstarted, ?_⟩
    intro hleft i
    -- the loop of `thpool_destroy` ends when no worker is alive
    have hzero : s.pool.sh.threadAlive = 0 := by
      by_contra hne
      rw [if_pos hne] at hleft
      cases hleft
    have hcount : count WorkerPc.alive s.pool.worker = 0 := by
      have := hs.alive.symm.trans hzero
      exact_mod_cast this
    exact WorkerPc.exited_of (hstarted i) (count_eq_zero.mp hcount i) (hlast hmain hzero i)
  · rename_i hmain
    cases h
    exact ⟨hs.alive, fun _ => hs.started (by simp [hmain]), nofun⟩
  · cases h
  all_goals
    rename_i hmain
    cases h
  all_goals exact ⟨hs.alive, fun _ => hs.started (by simp [hmain]),
    fun _ => hs.exited (by simp [hmain, MainPc.leftLoop, MainPc.destroyed])⟩

variable [DecidableEq C] [Fintype C]

/-- A step of the pool keeps the invariant: workers that have exited stay so. -/
theorem ordered_pool {l : Label n C} {pool : State n C} (hs : s.Ordered)
    (h : Thpool.Step s.pool l pool) : Program.Ordered { s with pool } := by
  cases l with
  | worker i woken =>
    obtain ⟨-, pc, sh, signal, client, hdo, -, rfl⟩ := step_worker h
    obtain ⟨halive, hstarted⟩ := threadDo_alive hdo
    have hcount := count_update WorkerPc.alive s.pool.worker i pc
    refine ⟨?_, ?_, ?_⟩
    · have := hs.alive
      show sh.threadAlive = count WorkerPc.alive (Function.update s.pool.worker i pc)
      omega
    · intro hmain k
      show (Function.update s.pool.worker i pc k).started = true
      rcases eq_or_ne k i with rfl | hk
      · rw [Function.update_self]
        exact hstarted (hs.started hmain k)
      · rw [Function.update_of_ne hk]
        exact hs.started hmain k
    · intro hleft k
      rw [hs.exited hleft i] at hdo
      cases hdo
  | deliver i =>
    obtain ⟨-, -, rfl⟩ := step_deliver h
    exact ⟨hs.alive, hs.started, hs.exited⟩
  | leave i b =>
    obtain ⟨-, -, pc, hpc, rfl⟩ := step_leave h
    have hsame : pc.alive = (s.pool.worker i).alive ∧ pc.started = (s.pool.worker i).started := by
      rcases hpc with rfl | ⟨hsem, rfl⟩
      · exact ⟨rfl, rfl⟩
      · rw [hsem]
        exact ⟨rfl, rfl⟩
    have hcount := count_update WorkerPc.alive s.pool.worker i pc
    rw [hsame.1] at hcount
    refine ⟨?_, ?_, ?_⟩
    · have := hs.alive
      show s.pool.sh.threadAlive = count WorkerPc.alive (Function.update s.pool.worker i pc)
      omega
    · intro hmain k
      show (Function.update s.pool.worker i pc k).started = true
      rcases eq_or_ne k i with rfl | hk
      · rw [Function.update_self, hsame.2]
        exact hs.started hmain k
      · rw [Function.update_of_ne hk]
        exact hs.started hmain k
    · intro hleft k
      show Function.update s.pool.worker i pc k = .exited
      have hexited := hs.exited hleft
      rcases hpc with rfl | ⟨hsem, -⟩
      · rw [Function.update_eq_self]
        exact hexited k
      · cases hsem.symm.trans (hexited i)
  | client c move =>
    obtain ⟨pc, sh, pending, rfl, hcase⟩ := step_client h
    have hsame : sh.threadAlive = s.pool.sh.threadAlive := by
      rcases hcase with ⟨hdo, -⟩ | ⟨k, -, -, rfl⟩
      · exact clientDo_alive hdo
      · rfl
    exact ⟨hsame.trans hs.alive, hs.started, hs.exited⟩

/-- Every step that meets the condition keeps the invariant. -/
theorem ordered_step (hs : s.Ordered) (h : Guarded Program.Step ReadsLast s l s') : s'.Ordered := by
  obtain ⟨hstep, hlast⟩ := h
  cases l with
  | pool l =>
    simp only [Program.Step, Program.next] at hstep
    split at hstep
    · obtain ⟨pool, hpool, rfl⟩ := Option.map_eq_some_iff.mp hstep
      exact ordered_pool hs hpool
    · cases hstep
  | main =>
    obtain ⟨⟨main, sh⟩, hmain, rfl⟩ := Option.map_eq_some_iff.mp hstep
    exact ordered_main hs hmain hlast
  | clear jobs =>
    simp only [Program.Step, Program.next] at hstep
    split at hstep
    · rename_i hcond
      cases hstep
      exact ⟨hs.alive, fun _ => hs.started (by simp [hcond.1]),
        fun _ => hs.exited (by simp [hcond.1, MainPc.leftLoop])⟩
    · cases hstep

/-- In every run in which the main thread reads `thread_alive` as 0 only when no worker has still to
unlock `count_locker` after lowering it, no worker touches the pool once `thpool_destroy` has
destroyed a mutex of it or freed it. -/
theorem destroy_untouched {ls : List (ProgramLabel n C)}
    (h : Run (Guarded Program.Step ReadsLast) Program.init ls s) (hmain : s.main.destroyed = true)
    (i : Fin n) : (s.pool.worker i).touches = false := by
  have hs : s.Ordered := h.invariant (fun _ _ _ hs hstep => ordered_step hs hstep) init_ordered
  rw [hs.exited (MainPc.leftLoop_of_destroyed hmain) i]
  rfl

end Runs

instance (s : Program n C) (l : ProgramLabel n C) : Decidable (ReadsLast s l) := by
  cases l <;> unfold ReadsLast <;> infer_instance

/-- One worker starts, and the main thread calls `thpool_destroy` and posts; the worker is woken, posts
too, leaves its loop and lowers `thread_alive`. -/
def oneWorkerLeaves : List (ProgramLabel 1 Empty) :=
  List.replicate 4 (.pool (.worker sole none)) ++ List.replicate 4 .main ++
    List.replicate 6 (.pool (.worker sole none))

/-- The main thread reads `thread_alive` and destroys and frees the pool. -/
def mainDestroys : List (ProgramLabel 1 Empty) :=
  .main :: .clear (JobQueue.init fun _ => none) :: List.replicate 7 .main

/-- The worker has exited before the main thread reads `thread_alive` as 0. -/
theorem destroy_untouched_one : ∃ s,
    Run (Guarded (Program.Step (n := 1) (C := Empty)) ReadsLast) Program.init
      (oneWorkerLeaves ++ [.pool (.worker 0 none)] ++ mainDestroys) s ∧
    s.main = .returned ∧ ∀ i, (s.pool.worker i).touches = false := by
  obtain ⟨s, hrun, hread⟩ : ∃ s,
      Run (Guarded (Program.Step (n := 1) (C := Empty)) ReadsLast) Program.init
        (oneWorkerLeaves ++ [.pool (.worker 0 none)] ++ mainDestroys) s ∧
      s.main = .returned := Run.of_exec_guarded rfl
  exact ⟨s, hrun, hread, destroy_untouched hrun (by rw [hread]; rfl)⟩

/-- The main thread reads `thread_alive` as 0 while the worker has still to unlock `count_locker`, which
it does when the pool has been freed. -/
theorem unlock_after_free : ∃ s, Run (Program.Step (n := 1) (C := Empty)) Program.init
    (oneWorkerLeaves ++ mainDestroys) s ∧ s.main = .returned ∧
    s.pool.worker 0 = .unlock .exit none ∧ (s.pool.worker 0).touches = true := by
  obtain ⟨s, hrun, hread⟩ : ∃ s, Run (Program.Step (n := 1) (C := Empty)) Program.init
      (oneWorkerLeaves ++ mainDestroys) s ∧
      (s.main, s.pool.worker 0) = (.returned, .unlock .exit none) := Run.of_exec_map rfl
  obtain ⟨hmain, hworker⟩ := Prod.mk.inj hread
  exact ⟨s, hrun, hmain, hworker, by rw [hworker]; rfl⟩

end Thpool

end Ulsp
