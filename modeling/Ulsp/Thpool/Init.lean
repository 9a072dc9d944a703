import Mathlib.Logic.Function.Basic
import Ulsp.Lib.Resources

/-!
# The start of a thread pool that fails (`thpool_init`, `thpool/thpool.c`)

`thpool_init` with the objects that it makes, the entries of `threads` that it has assigned and the
workers that it has created, for any set of calls that fail; the labels of its `goto`s are functions
that call the next one. `none` is a null pointer that is dereferenced, an entry of `threads` that is
read out of range or unassigned, or an object that is released without being held. The wait for the
workers, at the end of a call that succeeds, is left out.

The semaphore is never destroyed, so that `fails_cleanly_iff`: a call that fails has released all that
it made, and left no worker, exactly if one of the four initialisations up to that of the semaphore
fails. After those a failure of `pthread_create` leaves the workers created before, that of the memory
for a worker is not noticed, and that of the job queue is answered by a read of `threads[nb_threads]`.
-/

namespace Ulsp

open Lib

namespace ThpoolInit

/-- What `thpool_init` allocates and initialises. -/
inductive Obj where
  | thpool
  | countLocker
  | allIdle
  | hasJob
  | threads
  | thread (i : ℕ)
  | jobs
  | lock
  deriving DecidableEq, Repr

/-- The calls that may fail: those that make an object, and `pthread_create`. -/
inductive Call where
  | make (o : Obj)
  | create (i : ℕ)
  deriving DecidableEq, Repr

/-- The objects, the entries of `threads`, and the workers created. -/
structure State where
  res : Resources Obj
  threads : ℕ → Option Obj
  workers : List ℕ

/-- What `thpool_init` returns. -/
inductive Outcome where
  | pool (s : State)
  | null (s : State)

/-- Before the first call. -/
def State.empty : State := ⟨.empty, fun _ => none, []⟩

/-- An object is made. -/
def State.make (o : Obj) (s : State) : State := { s with res := s.res.make o }

/-- `free`, `pthread_mutex_destroy` or `pthread_cond_destroy`. -/
def State.release (o : Obj) (s : State) : Option State :=
  (s.res.release o).map fun res => { s with res }

/-! ## The labels -/

/-- `fail_alloc_thpool`. -/
def failAllocThpool (s : State) : Option Outcome := some (.null s)

/-- `fail_init_locker`. -/
def failInitLocker (s : State) : Option Outcome := (s.release .thpool).bind failAllocThpool

/-- `fail_init_cond`. -/
def failInitCond (s : State) : Option Outcome := (s.release .countLocker).bind failInitLocker

/-- `fail_init_sem`. -/
def failInitSem (s : State) : Option Outcome := (s.release .allIdle).bind failInitCond

/-- `free` of `threads`, which does nothing if it is null. -/
def State.freeThreads (s : State) : Option State :=
  if s.res.Held .threads then s.release .threads else some s

/-- `fail_alloc_threads`. -/
def failAllocThreads (s : State) : Option Outcome := s.freeThreads.bind failInitSem

/-- The entry `threads[i]` of `n`. -/
def State.readThread (n i : ℕ) (s : State) : Option Obj := if i < n then s.threads i else none

/-- `thread_destroy(thpool->threads[i])`. -/
def State.threadDestroy (n i : ℕ) (s : State) : Option State :=
  (s.readThread n i).bind fun thread => s.release thread

/-- The loop of `fail_init_thread`, which goes down from `i`. -/
def destroyThreads (n : ℕ) : ℕ → State → Option State
  | 0, s => s.threadDestroy n 0
  | i + 1, s => (s.threadDestroy n (i + 1)).bind (destroyThreads n i)

/-- `fail_init_thread`. -/
def failInitThread (n i : ℕ) (s : State) : Option Outcome :=
  (destroyThreads n i s).bind failAllocThreads

/-! ## The function -/

/-- `malloc` of a worker, for the entry `threads[i]`. -/
def State.assign (i : ℕ) (s : State) : State :=
  { s.make (.thread i) with threads := Function.update s.threads i (some (.thread i)) }

/-- `thread_init`, and whether it fails. -/
def threadInit (fails : Call → Bool) (i : ℕ) (s : State) : Option (State × Bool) :=
  -- the result of `malloc` is not checked
  if fails (.make (.thread i)) then none
  else
    let s := s.assign i
    if fails (.create i) then some (s, true)
    else some ({ s with workers := s.workers ++ [i] }, false)

/-- The loop that makes the workers, for those from `i` on; and the one at which it fails. -/
def initThreads (fails : Call → Bool) : ℕ → ℕ → State → Option (State × Option ℕ)
  | 0, _, s => some (s, none)
  | k + 1, i, s =>
    match threadInit fails i s with
    | none => none
    | some (s, true) => some (s, some i)
    | some (s, false) => initThreads fails k (i + 1) s

/-- `jobqueue_init`, and whether it fails. -/
def jobqueueInit (fails : Call → Bool) (s : State) : State × Bool :=
  if fails (.make .jobs) then (s, true)
  else
    let s := s.make .jobs
    if fails (.make .lock) then (s, true) else (s.make .lock, false)

/-- `thpool_init` after the loop that makes the workers. -/
def afterThreads (fails : Call → Bool) (n : ℕ) : State × Option ℕ → Option Outcome
  | (s, some i) => failInitThread n i s
  | (s, none) =>
    let r := jobqueueInit fails s
    if r.2 then failInitThread n n r.1 else some (.pool r.1)

/-- `thpool_init` from that loop on. -/
def startThreads (fails : Call → Bool) (n : ℕ) (s : State) : Option Outcome :=
  (initThreads fails n 0 s).bind (afterThreads fails n)

/-- `thpool_init`. -/
def thpoolInit (fails : Call → Bool) (n : ℕ) : Option Outcome :=
  let s := State.empty
  if fails (.make .thpool) then failAllocThpool s
  else
    let s := s.make .thpool
    if fails (.make .countLocker) then failInitLocker s
    else
      let s := s.make .countLocker
      if fails (.make .allIdle) then failInitCond s
      else
        let s := s.make .allIdle
        if fails (.make .hasJob) then failInitSem s
        else
          let s := s.make .hasJob
          if fails (.make .threads) then failAllocThreads s
          else startThreads fails n (s.make .threads)

/-- `thpool_init` returns a null pointer, has released all that it made, each once, and left no worker
but those that have returned from `thread_do`. -/
def FailsCleanly (fails : Call → Bool) (returned : ℕ → Bool) (n : ℕ) : Prop :=
  ∃ s, thpoolInit fails n = some (.null s) ∧ s.res.Clean ∧ ∀ i ∈ s.workers, returned i = true

variable {fails : Call → Bool} {n i k w : ℕ} {s t : State} {o : Obj} {out : Outcome}

/-! ## The semaphore -/

/-- The semaphore is held, and no entry of `threads` points to it. -/
structure State.Leaks (s : State) : Prop where
  held : s.res.Held .hasJob
  threads : ∀ i o, s.threads i = some o → o ≠ .hasJob

/-- A failure of `thpool_init` leaves the semaphore. -/
def Outcome.Leaks : Outcome → Prop
  | .pool _ => True
  | .null s => s.res.Held .hasJob

/-- A release that succeeds changes the resources only. -/
theorem release_eq_some (h : s.release o = some t) :
    ∃ res, s.res.release o = some res ∧ t = { s with res } := by
  obtain ⟨res, hres, rfl⟩ := Option.map_eq_some_iff.mp h
  exact ⟨res, hres, rfl⟩

/-- Making an object keeps the semaphore held. -/
theorem State.Leaks.make (h : s.Leaks) (o : Obj) : (s.make o).Leaks := ⟨h.held.make, h.threads⟩

/-- Releasing anything but the semaphore keeps it held. -/
theorem State.Leaks.release (h : s.Leaks) (hr : s.release o = some t) (hne : o ≠ .hasJob) :
    t.Leaks := by
  obtain ⟨res, hres, rfl⟩ := release_eq_some hr
  exact ⟨h.held.release hres hne, h.threads⟩

/-- A label that releases something else and goes on to the next. -/
theorem State.Leaks.label {next : State → Option Outcome} (h : s.Leaks)
    (hout : (s.release o).bind next = some out) (hne : o ≠ .hasJob)
    (hnext : ∀ t : State, t.Leaks → next t = some out → out.Leaks) : out.Leaks := by
  obtain ⟨t, ht, hout⟩ := Option.bind_eq_some_iff.mp hout
  exact hnext t (h.release ht hne) hout

/-- The clean-up behind a failed lock does not release the semaphore. -/
theorem State.Leaks.failInitLocker (h : s.Leaks) (hout : failInitLocker s = some out) : out.Leaks := by
  refine h.label hout nofun fun t ht hnull => ?_
  cases hnull
  exact ht.held

/-- Nor does that behind a failed condition variable. -/
theorem State.Leaks.failInitCond (h : s.Leaks) (hout : failInitCond s = some out) : out.Leaks :=
  h.label hout nofun fun _ ht => ht.failInitLocker

/-- Nor does that behind a failed semaphore. -/
theorem State.Leaks.failInitSem (h : s.Leaks) (hout : failInitSem s = some out) : out.Leaks :=
  h.label hout nofun fun _ ht => ht.failInitCond

/-- Nor does that behind a failed allocation of the array of threads. -/
theorem State.Leaks.failAllocThreads (h : s.Leaks) (hout : failAllocThreads s = some out) :
    out.Leaks := by
  obtain ⟨t, ht, hout⟩ := Option.bind_eq_some_iff.mp hout
  refine State.Leaks.failInitSem ?_ hout
  unfold State.freeThreads at ht
  split at ht
  · exact h.release ht nofun
  · cases ht
    exact h

/-- Destroying one thread keeps the semaphore held. -/
theorem State.Leaks.threadDestroy (h : s.Leaks) (ht : s.threadDestroy n i = some t) : t.Leaks := by
  obtain ⟨thread, hread, ht⟩ := Option.bind_eq_some_iff.mp ht
  obtain ⟨-, hentry⟩ := Option.ite_none_right_eq_some.mp hread
  exact h.release ht (h.threads i thread hentry)

/-- Destroying several threads keeps the semaphore held. -/
theorem State.Leaks.destroyThreads (h : s.Leaks) (ht : destroyThreads n i s = some t) : t.Leaks := by
  induction i generalizing s with
  | zero => exact h.threadDestroy ht
  | succ i ih =>
    obtain ⟨u, hu, ht⟩ := Option.bind_eq_some_iff.mp ht
    exact ih (h.threadDestroy hu) ht

/-- The clean-up behind a failed thread does not release the semaphore. -/
theorem State.Leaks.failInitThread (h : s.Leaks) (hout : failInitThread n i s = some out) :
    out.Leaks := by
  obtain ⟨t, ht, hout⟩ := Option.bind_eq_some_iff.mp hout
  exact (h.destroyThreads ht).failAllocThreads hout

/-- Setting up one thread keeps the semaphore held. -/
theorem State.Leaks.threadInit {failed : Bool} (h : s.Leaks)
    (ht : threadInit fails i s = some (t, failed)) : t.Leaks := by
  have hentry : ∀ j o, Function.update s.threads i (some (.thread i)) j = some o → o ≠ .hasJob := by
    intro j o hj
    rcases eq_or_ne j i with rfl | hne
    · rw [Function.update_self] at hj
      cases hj
      exact nofun
    · rw [Function.update_of_ne hne] at hj
      exact h.threads j o hj
  obtain ⟨-, ht⟩ := Option.ite_none_left_eq_some.mp ht
  by_cases hcreate : fails (.create i) = true
  · rw [if_pos hcreate] at ht
    cases ht
    exact ⟨h.held.make, hentry⟩
  · rw [if_neg hcreate] at ht
    cases ht
    exact ⟨h.held.make, hentry⟩

/-- Setting up the threads keeps the semaphore held, whether or not one of them fails. -/
theorem State.Leaks.initThreads {failed : Option ℕ} (h : s.Leaks)
    (ht : initThreads fails k i s = some (t, failed)) : t.Leaks := by
  induction k generalizing i s with
  | zero =>
    cases ht
    exact h
  | succ k ih =>
    unfold ThpoolInit.initThreads at ht
    split at ht
    · cases ht
    · rename_i hfail
      cases ht
      exact h.threadInit hfail
    · rename_i hstep
      exact ih (h.threadInit hstep) ht

/-- Setting up the queue keeps the semaphore held. -/
theorem State.Leaks.jobqueueInit (h : s.Leaks) (fails : Call → Bool) :
    (jobqueueInit fails s).1.Leaks := by
  unfold ThpoolInit.jobqueueInit
  split
  · exact h
  · simp only
    split
    · exact h.make _
    · exact (h.make _).make _

/-- Where the workers are made, every failure leaves the semaphore. -/
theorem State.Leaks.startThreads (h : s.Leaks) (hout : startThreads fails n s = some out) :
    out.Leaks := by
  obtain ⟨⟨t, failed⟩, ht, hout⟩ := Option.bind_eq_some_iff.mp hout
  cases failed with
  | some i => exact (h.initThreads ht).failInitThread hout
  | none =>
    have hqueue := (h.initThreads ht).jobqueueInit fails
    change (if _ then _ else _) = some out at hout
    split at hout
    · exact hqueue.failInitThread hout
    · cases hout
      trivial

/-! ## The points of failure -/

/-- The objects that `thpool_init` makes before `threads`. -/
def synced : State := (((State.empty.make .thpool).make .countLocker).make .allIdle).make .hasJob

/-- Behind `sem_init` the semaphore is held, and there is no thread yet. -/
theorem leaks_synced : synced.Leaks := ⟨Resources.held_make List.not_mem_nil, nofun⟩

/-- Up to the semaphore every failure is clean. -/
theorem fails_cleanly_early (returned : ℕ → Bool) (h : fails (.make .thpool) = true ∨
    fails (.make .countLocker) = true ∨ fails (.make .allIdle) = true ∨ fails (.make .hasJob) = true) :
    FailsCleanly fails returned n := by
  unfold FailsCleanly thpoolInit
  by_cases hpool : fails (.make .thpool) = true
  · rw [if_pos hpool]
    exact ⟨_, rfl, .refl _, nofun⟩
  by_cases hlocker : fails (.make .countLocker) = true
  · rw [if_neg hpool, if_pos hlocker]
    exact ⟨_, rfl, .refl _, nofun⟩
  by_cases hidle : fails (.make .allIdle) = true
  · rw [if_neg hpool, if_neg hlocker, if_pos hidle]
    exact ⟨_, rfl, .swap _ _ _, nofun⟩
  · have hsem : fails (.make .hasJob) = true := by simpa [hpool, hlocker, hidle] using h
    rw [if_neg hpool, if_neg hlocker, if_neg hidle, if_pos hsem]
    exact ⟨_, rfl, List.reverse_perm [Obj.thpool, .countLocker, .allIdle], nofun⟩

/-- After the semaphore no failure is. -/
theorem not_fails_cleanly (returned : ℕ → Bool) (hpool : ¬ fails (.make .thpool) = true)
    (hlocker : ¬ fails (.make .countLocker) = true) (hidle : ¬ fails (.make .allIdle) = true)
    (hsem : ¬ fails (.make .hasJob) = true) : ¬ FailsCleanly fails returned n := by
  rintro ⟨s, hout, hclean, -⟩
  have hlater : thpoolInit fails n = if fails (.make .threads) then failAllocThreads synced
      else startThreads fails n (synced.make .threads) := by
    rw [thpoolInit, if_neg hpool, if_neg hlocker, if_neg hidle, if_neg hsem]
    rfl
  rw [hlater] at hout
  have hleaks : (Outcome.null s).Leaks := by
    split at hout
    · exact leaks_synced.failAllocThreads hout
    · exact (leaks_synced.make _).startThreads hout
  exact hclean.not_held hleaks

/-- For every number of threads and any set of calls that fail: `thpool_init` fails cleanly exactly if
the memory for the pool, the mutex, the condition variable or the semaphore is among them. -/
theorem fails_cleanly_iff (fails : Call → Bool) (returned : ℕ → Bool) (n : ℕ) :
    FailsCleanly fails returned n ↔ fails (.make .thpool) = true ∨
      fails (.make .countLocker) = true ∨ fails (.make .allIdle) = true ∨
        fails (.make .hasJob) = true := by
  refine ⟨fun h => ?_, fails_cleanly_early returned⟩
  by_contra hnone
  simp only [not_or] at hnone
  exact not_fails_cleanly returned hnone.1 hnone.2.1 hnone.2.2.1 hnone.2.2.2 h

/-- The second `pthread_create` fails, and the worker of the first is left. -/
theorem create_not_clean : ¬ FailsCleanly (fun c => c = .create 1) (fun _ => false) 2 :=
  not_fails_cleanly _ (by decide) (by decide) (by decide) (by decide)

/-! ## What the later failures leave -/

/-- What is made before the first worker. -/
def shared : List Obj := [.thpool, .countLocker, .allIdle, .hasJob, .threads]

/-- The pool when `k` entries of `threads` are assigned and `w` workers are created. -/
structure State.Started (k w : ℕ) (s : State) : Prop where
  released : s.res.released = []
  held : ∀ o, s.res.Held o ↔
    o ∈ shared ∨ ∃ i < k, o = .thread i
  threads : ∀ i < k, s.threads i = some (.thread i)
  workers : s.workers = List.range w

/-- A worker's memory. -/
theorem State.Started.assign (h : s.Started k w) : (s.assign k).Started (k + 1) w := by
  refine ⟨h.released, ?_, ?_, h.workers⟩
  · intro o
    have hmade : (s.res.make (.thread k)).Held o ↔ s.res.Held o ∨ o = .thread k :=
      Resources.held_make_iff (by simp [h.released])
    refine hmade.trans ?_
    rw [h.held, or_assoc]
    refine or_congr_right ⟨?_, ?_⟩
    · rintro (⟨i, hi, rfl⟩ | rfl)
      · exact ⟨i, Nat.lt_succ_of_lt hi, rfl⟩
      · exact ⟨k, Nat.lt_succ_self k, rfl⟩
    · rintro ⟨i, hi, rfl⟩
      rcases Nat.lt_succ_iff_lt_or_eq.mp hi with hlt | rfl
      · exact .inl ⟨i, hlt, rfl⟩
      · exact .inr rfl
  · intro i hi
    rcases Nat.lt_succ_iff_lt_or_eq.mp hi with hlt | rfl
    · exact (Function.update_of_ne (Nat.ne_of_lt hlt) ..).trans (h.threads i hlt)
    · exact Function.update_self ..

/-- `thread_init` that succeeds. -/
theorem State.Started.threadInit (h : s.Started k k) (hmalloc : fails (.make (.thread k)) = false)
    (hcreate : fails (.create k) = false) :
    ∃ t, threadInit fails k s = some (t, false) ∧ t.Started (k + 1) (k + 1) := by
  have hmade := h.assign
  refine ⟨{ s.assign k with workers := s.workers ++ [k] }, ?_, hmade.released, hmade.held,
    hmade.threads, ?_⟩
  · unfold ThpoolInit.threadInit
    rw [hmalloc, hcreate]
    rfl
  · rw [h.workers, List.range_succ]

/-- The loop up to the worker `k`. -/
theorem State.Started.initThreads (h : s.Started i i)
    (hok : ∀ j < i + k, fails (.make (.thread j)) = false ∧ fails (.create j) = false) (m : ℕ) :
    ∃ t, t.Started (i + k) (i + k) ∧
      initThreads fails (k + m) i s = ThpoolInit.initThreads fails m (i + k) t := by
  induction k generalizing i s with
  | zero => exact ⟨s, h, by rw [Nat.zero_add]; rfl⟩
  | succ k ih =>
    obtain ⟨hmalloc, hcreate⟩ := hok i (by omega)
    obtain ⟨u, hu, hstarted⟩ := h.threadInit hmalloc hcreate
    rw [Nat.add_right_comm k 1 m, ThpoolInit.initThreads, hu, ← Nat.add_assoc, Nat.add_right_comm i k 1]
    exact ih hstarted fun j hj => hok j (by omega)

/-- A release of what is held. -/
theorem exists_release (h : s.res.Held o) : ∃ t, s.release o = some t ∧ t.threads = s.threads ∧
    t.workers = s.workers ∧ ∀ o', t.res.Held o' ↔ s.res.Held o' ∧ o' ≠ o := by
  obtain ⟨res, hres, hheld⟩ := Resources.exists_release h
  exact ⟨{ s with res }, by rw [State.release, hres]; rfl, rfl, rfl, hheld⟩

/-- `thread_destroy` of an entry that is assigned. -/
theorem exists_threadDestroy (hi : i < n) (hthread : s.threads i = some o) (hheld : s.res.Held o) :
    ∃ t, s.threadDestroy n i = some t ∧ t.threads = s.threads ∧ t.workers = s.workers ∧
      ∀ o', t.res.Held o' ↔ s.res.Held o' ∧ o' ≠ o := by
  rw [State.threadDestroy, State.readThread, if_pos hi, hthread]
  exact exists_release hheld

/-- The workers' memory is released, down from the entry `i`. -/
theorem exists_destroyThreads (hi : i < n) (hthreads : ∀ j ≤ i, s.threads j = some (.thread j))
    (hheld : ∀ j ≤ i, s.res.Held (.thread j)) : ∃ t, destroyThreads n i s = some t ∧
      t.workers = s.workers ∧ ∀ o, t.res.Held o ↔ s.res.Held o ∧ ∀ j ≤ i, o ≠ .thread j := by
  induction i generalizing s with
  | zero =>
    obtain ⟨t, ht, -, hworkers, hres⟩ := exists_threadDestroy hi (hthreads 0 (Nat.le_refl 0))
      (hheld 0 (Nat.le_refl 0))
    refine ⟨t, ht, hworkers, fun o => (hres o).trans (and_congr_right fun _ => ?_)⟩
    exact ⟨fun h j hj => by rwa [Nat.le_zero.mp hj], fun h => h 0 (Nat.le_refl 0)⟩
  | succ i ih =>
    obtain ⟨u, hu, hsame, hworkers, hres⟩ := exists_threadDestroy hi (hthreads (i + 1) (Nat.le_refl _))
      (hheld (i + 1) (Nat.le_refl _))
    have hthreads' : ∀ j ≤ i, u.threads j = some (.thread j) := fun j hj => by
      rw [hsame]
      exact hthreads j (by omega)
    have hheld' : ∀ j ≤ i, u.res.Held (.thread j) := fun j hj => by
      refine (hres _).mpr ⟨hheld j (by omega), fun h => ?_⟩
      cases h
      omega
    obtain ⟨t, ht, hworkers', hres'⟩ := ih (by omega) hthreads' hheld'
    refine ⟨t, ?_, hworkers'.trans hworkers, fun o => ?_⟩
    · rw [destroyThreads, hu]
      exact ht
    · rw [hres', hres, and_assoc]
      refine and_congr_right fun _ => ⟨?_, ?_⟩
      · rintro ⟨hlast, hrest⟩ j hj
        rcases Nat.le_succ_iff.mp hj with hle | rfl
        · exact hrest j hle
        · exact hlast
      · intro h
        exact ⟨h (i + 1) (Nat.le_refl _), fun j hj => h j (by omega)⟩

/-- `fail_alloc_threads` and the labels after it. -/
theorem exists_failAllocThreads (hthreads : s.res.Held .threads) (hidle : s.res.Held .allIdle)
    (hlocker : s.res.Held .countLocker) (hpool : s.res.Held .thpool) :
    ∃ t, failAllocThreads s = some (.null t) ∧ t.workers = s.workers ∧
      ∀ o, t.res.Held o ↔ s.res.Held o ∧ o ∉ [Obj.threads, .allIdle, .countLocker, .thpool] := by
  obtain ⟨t₁, ht₁, -, hw₁, hres₁⟩ := exists_release hthreads
  obtain ⟨t₂, ht₂, -, hw₂, hres₂⟩ := exists_release (s := t₁) ((hres₁ _).mpr ⟨hidle, nofun⟩)
  obtain ⟨t₃, ht₃, -, hw₃, hres₃⟩ := exists_release (s := t₂) (o := .countLocker)
    ((hres₂ _).mpr ⟨(hres₁ _).mpr ⟨hlocker, nofun⟩, nofun⟩)
  obtain ⟨t₄, ht₄, -, hw₄, hres₄⟩ := exists_release (s := t₃) (o := .thpool)
    ((hres₃ _).mpr ⟨(hres₂ _).mpr ⟨(hres₁ _).mpr ⟨hpool, nofun⟩, nofun⟩, nofun⟩)
  refine ⟨t₄, ?_, by rw [hw₄, hw₃, hw₂, hw₁], fun o => ?_⟩
  · rw [failAllocThreads, State.freeThreads, if_pos hthreads, ht₁, Option.bind_some, failInitSem, ht₂,
      Option.bind_some, failInitCond, ht₃, Option.bind_some, failInitLocker, ht₄]
    rfl
  · simp only [hres₄, hres₃, hres₂, hres₁, List.mem_cons, List.not_mem_nil, or_false, not_or, and_assoc,
      ne_eq]

/-- The loop of `fail_init_thread` from `nb_threads` reads past the last entry. -/
theorem failInitThread_self : failInitThread n n s = none := by
  have hread : s.threadDestroy n n = none := by
    rw [State.threadDestroy, State.readThread, if_neg (Nat.lt_irrefl n), Option.bind_none]
  rw [failInitThread]
  cases n with
  | zero => rw [destroyThreads, hread, Option.bind_none]
  | succ n => rw [destroyThreads, hread, Option.bind_none, Option.bind_none]

section

variable (hshared : ∀ o ∈ shared, fails (.make o) = false)
include hshared

/-- `thpool_init` up to the worker `k`. -/
theorem thpoolInit_started (m : ℕ)
    (hok : ∀ i < k, fails (.make (.thread i)) = false ∧ fails (.create i) = false) :
    ∃ s, s.Started k k ∧ thpoolInit fails (k + m) =
      (initThreads fails m k s).bind (afterThreads fails (k + m)) := by
  have hstart : (synced.make .threads).Started 0 0 := by
    refine ⟨rfl, fun o => ?_, nofun, rfl⟩
    simp [Resources.Held, synced, State.make, Resources.make, State.empty, Resources.empty, shared]
  have hpool : fails (.make .thpool) = false := hshared _ (by decide)
  have hlocker : fails (.make .countLocker) = false := hshared _ (by decide)
  have hidle : fails (.make .allIdle) = false := hshared _ (by decide)
  have hsem : fails (.make .hasJob) = false := hshared _ (by decide)
  have hthreads : fails (.make .threads) = false := hshared _ (by decide)
  obtain ⟨s, hs, hinit⟩ := hstart.initThreads (k := k) (by simpa using hok) m
  rw [Nat.zero_add] at hs hinit
  refine ⟨s, hs, ?_⟩
  rw [← hinit, thpoolInit, hpool, hlocker, hidle, hsem, hthreads]
  rfl

/-- When `pthread_create` fails for the worker `k`, the `k` workers before it are left, and of all that
was made the semaphore is. -/
theorem create_fails (hk : k < n)
    (hok : ∀ i < k, fails (.make (.thread i)) = false ∧ fails (.create i) = false)
    (hmalloc : fails (.make (.thread k)) = false) (hcreate : fails (.create k) = true) :
    ∃ s, thpoolInit fails n = some (.null s) ∧ s.workers = List.range k ∧
      ∀ o, s.res.Held o ↔ o = .hasJob := by
  obtain ⟨m, rfl⟩ : ∃ m, n = k + (m + 1) := ⟨n - k - 1, by omega⟩
  obtain ⟨s, hs, heq⟩ := thpoolInit_started hshared (m + 1) hok
  have hassign := hs.assign
  have hinit : initThreads fails (m + 1) k s = some (s.assign k, some k) := by
    rw [initThreads, threadInit, hmalloc, hcreate]
    rfl
  have hthread : ∀ j ≤ k, (s.assign k).res.Held (.thread j) := fun j hj =>
    (hassign.held _).mpr (.inr ⟨j, Nat.lt_succ_of_le hj, rfl⟩)
  obtain ⟨t, ht, htworkers, htheld⟩ := exists_destroyThreads hk
    (fun j hj => hassign.threads j (Nat.lt_succ_of_le hj)) hthread
  have hshared' : ∀ o ∈ shared, t.res.Held o := fun o ho => by
    refine (htheld o).mpr ⟨(hassign.held o).mpr (.inl ho), ?_⟩
    rintro j - rfl
    simp [shared] at ho
  obtain ⟨u, hu, huworkers, huheld⟩ := exists_failAllocThreads (hshared' _ (by decide))
    (hshared' _ (by decide)) (hshared' _ (by decide)) (hshared' _ (by decide))
  refine ⟨u, ?_, ?_, fun o => ?_⟩
  · rw [heq, hinit, Option.bind_some, afterThreads, failInitThread, ht]
    exact hu
  · rw [huworkers, htworkers, hassign.workers]
  · rw [huheld, htheld, hassign.held]
    refine ⟨?_, ?_⟩
    · rintro ⟨⟨hmem | ⟨i, hi, rfl⟩, hnot⟩, hrest⟩
      · simp only [shared, List.mem_cons, List.not_mem_nil, or_false, not_or] at hmem hrest
        rcases hmem with h | h | h | h | h
        · exact absurd h hrest.2.2.2
        · exact absurd h hrest.2.2.1
        · exact absurd h hrest.2.1
        · exact h
        · exact absurd h hrest.1
      · exact absurd rfl (hnot i (Nat.le_of_lt_succ hi))
    · rintro rfl
      exact ⟨⟨.inl (by decide), nofun⟩, by decide⟩

/-- When the memory for the worker `k` cannot be allocated, a null pointer is dereferenced. -/
theorem malloc_fails (hk : k < n)
    (hok : ∀ i < k, fails (.make (.thread i)) = false ∧ fails (.create i) = false)
    (hmalloc : fails (.make (.thread k)) = true) : thpoolInit fails n = none := by
  obtain ⟨m, rfl⟩ : ∃ m, n = k + (m + 1) := ⟨n - k - 1, by omega⟩
  obtain ⟨s, -, heq⟩ := thpoolInit_started hshared (m + 1) hok
  rw [heq, initThreads, threadInit, hmalloc]
  rfl

/-- When the job queue cannot be made, `threads` is read past its last entry. -/
theorem jobqueue_fails
    (hok : ∀ i < n, fails (.make (.thread i)) = false ∧ fails (.create i) = false)
    (hqueue : fails (.make .jobs) = true ∨ fails (.make .lock) = true) : thpoolInit fails n = none := by
  obtain ⟨s, -, heq⟩ := thpoolInit_started hshared 0 hok
  have hfail : (jobqueueInit fails s).2 = true := by
    unfold jobqueueInit
    split
    · rfl
    · rename_i hjobs
      simp [hqueue.resolve_left hjobs]
  rw [Nat.add_zero] at heq
  rw [heq, initThreads, Option.bind_some, afterThreads, hfail, if_pos rfl, failInitThread_self]

end

end ThpoolInit

end Ulsp
