import Mathlib.Data.Fintype.Basic
import Ulsp.Thpool.Ledger

/-!
# The thread pool (`thpool/thpool.c`)

The pool as a system of threads: `n` workers in `thread_do` and the clients `C`, which call
`thpool_add_job`, `thpool_wait`, `thpool_pause` and `thpool_resume` in any order. A thread's program
counter says which atomic step it takes next: taking a mutex, the statements a mutex protects,
releasing it, a semaphore operation, and the unlocked accesses (`running`, `jobs->len`). The signal
of `thpool_pause` is pending at a worker until it is delivered; then the worker is in
`thread_pause`, which it leaves when `stop` is clear, and a `sem_wait` that was interrupted may have
returned without a token. `running` is read wherever the code reads it, and set for as long as
`thpool_destroy` is not called. A `sem_post` fails when the value of the semaphore is
`SEM_VALUE_MAX`, which the code does not notice. `thread_alive` and `thread_working` are at most the
number of workers, which is an `int` too.

A client may call the pool before all workers have started, although `thpool_init` does not return
before; every run of the code is a run here.
-/

namespace Ulsp

namespace Thpool

/-- The mutexes: `jobs->lock` and `count_locker`. -/
inductive Mutex where
  | lock
  | countLocker
  deriving DecidableEq, Repr

/-- The critical sections of `thread_do`: `++thread_alive`, `++thread_working`, `jobqueue_pop`,
`--thread_working` and `--thread_alive`. -/
inductive Section where
  | alive
  | working
  | pop
  | idle
  | exit
  deriving DecidableEq, Repr

/-- The mutex of a section. -/
def Section.mutex : Section → Mutex
  | pop => .lock
  | _ => .countLocker

/-- The next step of a worker in `thread_do`. -/
inductive WorkerPc where
  | lock (sec : Section)
  | body (sec : Section)
  | unlock (sec : Section) (job : Option Ptr)
  | loopTest
  | semWait
  | runTest
  | callFun (job : Ptr)
  | inFun (job : Ptr) (call : ℕ)
  | freeJob (job : Ptr)
  | repost
  | exited
  deriving DecidableEq, Repr

/-- Where a worker goes on after a section; `job` is the result of `jobqueue_pop`. -/
def Section.after : Section → Option Ptr → WorkerPc
  | alive, _ => .loopTest
  | working, _ => .lock .pop
  | pop, some job => .callFun job
  | pop, none => .lock .idle
  | idle, _ => .loopTest
  | exit, _ => .exited

/-- The next step of a client. A call of `thpool_wait` carries the jobs whose `thpool_add_job` had
returned before it. -/
inductive ClientPc where
  | out
  | addLock (job : Ptr)
  | addBody (job : Ptr)
  | addUnlock (call : ℕ)
  | addPost (call : ℕ)
  | waitLock (before : List ℕ)
  | waitLen (before : List ℕ)
  | waitWorking (before : List ℕ)
  | waitBlock (before : List ℕ)
  | asleep (before : List ℕ)
  | waitUnlock (before : List ℕ)
  | pausing (i : ℕ)
  deriving DecidableEq, Repr

/-- The worker of a pool that has one. -/
def sole : Fin 1 := Fin.last 0

/-- `SEM_VALUE_MAX`. -/
def semValueMax : ℕ := 2 ^ 31 - 1

/-- The value of a semaphore after `sem_post`, which fails at the greatest one. -/
def semPost (value : ℕ) : ℕ := if value < semValueMax then value + 1 else value

/-- A thread of the program. -/
abbrev Thread (n : ℕ) (C : Type) := Fin n ⊕ C

/-- `struct ThreadPool` with the flag `stop`, the owners of the mutexes, the log, and the jobs whose
`thpool_add_job` has returned. -/
structure Shared (n : ℕ) (C : Type) where
  queue : JobQueue
  threadAlive : ℤ
  threadWorking : ℤ
  running : Bool
  hasJob : ℕ
  stop : Bool
  owner : Mutex → Option (Thread n C)
  log : Log
  added : List ℕ

/-- The pool, with the signals pending at its workers and the workers in `thread_pause`. -/
structure State (n : ℕ) (C : Type) where
  worker : Fin n → WorkerPc
  client : C → ClientPc
  pending : Fin n → Bool
  paused : Fin n → Bool
  sh : Shared n C

variable {n : ℕ} {C : Type}

/-- The pool as `thpool_init` makes it, with no client in a call. -/
def init : State n C where
  worker _ := .lock .alive
  client _ := .out
  pending _ := false
  paused _ := false
  sh := ⟨JobQueue.init fun _ => none, 0, 0, true, 0, false, fun _ => none, ⟨0, [], [], [], []⟩, []⟩

namespace Shared

/-- `pthread_mutex_lock`, which returns when the mutex is free. -/
def acquire (m : Mutex) (t : Thread n C) (sh : Shared n C) : Option (Shared n C) :=
  if sh.owner m = none then some { sh with owner := Function.update sh.owner m (some t) } else none

/-- `pthread_mutex_unlock`. -/
def release (m : Mutex) (sh : Shared n C) : Shared n C :=
  { sh with owner := Function.update sh.owner m none }

end Shared

/-- The step of a worker: where it is next, the pool after it, and whether it signals `all_idle`. -/
def threadDo (t : Thread n C) (sh : Shared n C) : WorkerPc → Option (WorkerPc × Shared n C × Bool)
  | .lock sec => (sh.acquire sec.mutex t).map fun sh => (.body sec, sh, false)
  | .body .alive => some (.unlock .alive none, { sh with threadAlive := sh.threadAlive + 1 }, false)
  | .body .working =>
    some (.unlock .working none, { sh with threadWorking := sh.threadWorking + 1 }, false)
  | .body .pop => do
    let (job, queue) ← sh.queue.pop
    let log := { sh.log with popped := sh.log.popped ++ (job.bind sh.queue.callAt).toList }
    return (.unlock .pop job, { sh with queue, log }, false)
  | .body .idle =>
    some (.unlock .idle none, { sh with threadWorking := sh.threadWorking - 1 },
      sh.threadWorking - 1 = 0)
  | .body .exit => some (.unlock .exit none, { sh with threadAlive := sh.threadAlive - 1 }, false)
  | .unlock sec job => some (sec.after job, sh.release sec.mutex, false)
  | .loopTest => some (if sh.running then .semWait else .lock .exit, sh, false)
  | .semWait =>
    if sh.hasJob = 0 then none else some (.runTest, { sh with hasJob := sh.hasJob - 1 }, false)
  | .runTest => some (if sh.running then .lock .working else .repost, sh, false)
  | .callFun job => do
    let call ← sh.queue.callAt job
    let log := { sh.log with called := sh.log.called ++ [call] }
    return (.inFun job call, { sh with log }, false)
  | .inFun job call =>
    let log := { sh.log with finished := sh.log.finished ++ [call] }
    some (.freeJob job, { sh with log }, false)
  | .freeJob job => do
    let _ ← sh.queue.mem job
    return (.lock .idle, { sh with queue := sh.queue.setNode job none }, false)
  | .repost => some (.loopTest, { sh with hasJob := semPost sh.hasJob }, false)
  | .exited => none

/-- What a client does: begin a call (`thpool_add_job` with the address `malloc` gives its job),
go on with the one it is in, or wake up in `pthread_cond_wait` without a signal. -/
inductive Move where
  | add (job : Ptr)
  | wait
  | pause
  | resume
  | go
  | wake
  deriving DecidableEq, Repr

/-- The step of a client: where it is next, and the pool after it. -/
def clientDo (t : Thread n C) (sh : Shared n C) : ClientPc → Move → Option (ClientPc × Shared n C)
  | .out, .add job =>
    if (sh.queue.mem job).isSome then none
    else
      let queue := sh.queue.setNode job (some ⟨sh.log.calls, none⟩)
      let log := { sh.log with calls := sh.log.calls + 1 }
      some (.addLock job, { sh with queue, log })
  | .addLock job, .go => (sh.acquire .lock t).map fun sh => (.addBody job, sh)
  | .addBody job, .go => do
    let call ← sh.queue.callAt job
    let queue ← sh.queue.push job
    let log := { sh.log with pushed := sh.log.pushed ++ [call] }
    return (.addUnlock call, { sh with queue, log })
  | .addUnlock call, .go => some (.addPost call, sh.release .lock)
  | .addPost call, .go =>
    some (.out, { sh with hasJob := semPost sh.hasJob, added := sh.added ++ [call] })
  | .out, .wait => some (.waitLock sh.added, sh)
  | .waitLock before, .go => (sh.acquire .countLocker t).map fun sh => (.waitLen before, sh)
  | .waitLen before, .go =>
    some (if sh.queue.len = 0 then .waitWorking before else .waitBlock before, sh)
  | .waitWorking before, .go =>
    some (if sh.threadWorking = 0 then .waitUnlock before else .waitBlock before, sh)
  | .waitBlock before, .go => some (.asleep before, sh.release .countLocker)
  | .asleep before, .wake => some (.waitLock before, sh)
  | .waitUnlock _, .go => some (.out, sh.release .countLocker)
  | .out, .pause => some (.pausing 0, { sh with stop := true })
  | .out, .resume => some (.out, { sh with stop := false })
  | _, _ => none

/-- Whether a client is blocked in `pthread_cond_wait`. -/
def ClientPc.isAsleep : ClientPc → Bool
  | asleep _ => true
  | _ => false

/-- `pthread_cond_signal(&all_idle)`, when the step signals: it wakes one client that is blocked on
the condition, here `woken`, if there is one. -/
def notify [DecidableEq C] [Fintype C] (signal : Bool) (woken : Option C) (client : C → ClientPc) :
    Option (C → ClientPc) :=
  match signal, woken with
  | false, none => some client
  | false, some _ => none
  | true, none => if ∀ c, (client c).isAsleep = false then some client else none
  | true, some c =>
    match client c with
    | .asleep before => some (Function.update client c (.waitLock before))
    | _ => none

/-- Who moves: a worker (with the client its signal wakes), the kernel that delivers the signal to a
worker, a worker that leaves `thread_pause` (back in `sem_wait` or out of it), or a client. -/
inductive Label (n : ℕ) (C : Type) where
  | worker (i : Fin n) (woken : Option C)
  | deliver (i : Fin n)
  | leave (i : Fin n) (interrupted : Bool)
  | client (c : C) (move : Move)

/-- The step of `thpool_pause` that sends the signal to one worker, or returns. -/
def killNext [DecidableEq C] (s : State n C) (c : C) (i : ℕ) : State n C :=
  if h : i < n then
    { s with
      client := Function.update s.client c (.pausing (i + 1))
      pending := Function.update s.pending ⟨i, h⟩ true }
  else { s with client := Function.update s.client c .out }

/-- The steps of the pool. -/
def next [DecidableEq C] [Fintype C] (s : State n C) : Label n C → Option (State n C)
  | .worker i woken =>
    if s.paused i then none
    else do
      let (pc, sh, signal) ← threadDo (.inl i) s.sh (s.worker i)
      let client ← notify signal woken s.client
      return { s with worker := Function.update s.worker i pc, client, sh }
  | .deliver i =>
    if s.pending i && !s.paused i then
      some { s with
        pending := Function.update s.pending i false
        paused := Function.update s.paused i true }
    else none
  | .leave i interrupted =>
    if s.paused i && !s.sh.stop then
      let s := { s with paused := Function.update s.paused i false }
      if interrupted then
        if s.worker i = .semWait then
          some { s with worker := Function.update s.worker i .runTest }
        else none
      else some s
    else none
  | .client c move =>
    match s.client c, move with
    | .pausing i, .go => some (killNext s c i)
    | pc, move => do
      let (pc, sh) ← clientDo (.inr c) s.sh pc move
      return { s with client := Function.update s.client c pc, sh }

/-- The step relation of the pool. -/
def Step [DecidableEq C] [Fintype C] (s : State n C) (l : Label n C) (t : State n C) : Prop :=
  next s l = some t

/-! ## What a thread does -/

/-- The steps of a worker, as `threadDo` makes them. -/
inductive WorkerStep (t : Thread n C) (sh : Shared n C) :
    WorkerPc → WorkerPc → Shared n C → Bool → Prop
  | lock (sec : Section) : sh.owner sec.mutex = none → WorkerStep t sh (.lock sec) (.body sec)
    { sh with owner := Function.update sh.owner sec.mutex (some t) } false
  | alive : WorkerStep t sh (.body .alive) (.unlock .alive none)
    { sh with threadAlive := sh.threadAlive + 1 } false
  | working : WorkerStep t sh (.body .working) (.unlock .working none)
    { sh with threadWorking := sh.threadWorking + 1 } false
  | pop (job : Option Ptr) (q : JobQueue) : sh.queue.pop = some (job, q) →
    WorkerStep t sh (.body .pop) (.unlock .pop job)
      { sh with
        queue := q
        log := { sh.log with popped := sh.log.popped ++ (job.bind sh.queue.callAt).toList } } false
  | idle : WorkerStep t sh (.body .idle) (.unlock .idle none)
    { sh with threadWorking := sh.threadWorking - 1 } (sh.threadWorking - 1 = 0)
  | exit : WorkerStep t sh (.body .exit) (.unlock .exit none)
    { sh with threadAlive := sh.threadAlive - 1 } false
  | unlock (sec : Section) (job : Option Ptr) :
    WorkerStep t sh (.unlock sec job) (sec.after job) (sh.release sec.mutex) false
  | loopTest : WorkerStep t sh .loopTest (if sh.running then .semWait else .lock .exit) sh false
  | semWait : sh.hasJob ≠ 0 →
    WorkerStep t sh .semWait .runTest { sh with hasJob := sh.hasJob - 1 } false
  | runTest : WorkerStep t sh .runTest (if sh.running then .lock .working else .repost) sh false
  | callFun (job : Ptr) (call : ℕ) : sh.queue.callAt job = some call →
    WorkerStep t sh (.callFun job) (.inFun job call)
      { sh with log := { sh.log with called := sh.log.called ++ [call] } } false
  | inFun (job : Ptr) (call : ℕ) : WorkerStep t sh (.inFun job call) (.freeJob job)
    { sh with log := { sh.log with finished := sh.log.finished ++ [call] } } false
  | freeJob (job : Ptr) : WorkerStep t sh (.freeJob job) (.lock .idle)
    { sh with queue := sh.queue.setNode job none } false
  | repost : WorkerStep t sh .repost .loopTest { sh with hasJob := semPost sh.hasJob } false

/-- The steps of a client, as `clientDo` makes them. -/
inductive ClientStep (t : Thread n C) (sh : Shared n C) :
    ClientPc → ClientPc → Shared n C → Prop
  | malloc (job : Ptr) : sh.queue.mem job = none → ClientStep t sh .out (.addLock job)
    { sh with
      queue := sh.queue.setNode job (some ⟨sh.log.calls, none⟩)
      log := { sh.log with calls := sh.log.calls + 1 } }
  | addLock (job : Ptr) : sh.owner .lock = none → ClientStep t sh (.addLock job) (.addBody job)
    { sh with owner := Function.update sh.owner .lock (some t) }
  | push (job : Ptr) (call : ℕ) (q : JobQueue) : sh.queue.callAt job = some call →
    sh.queue.push job = some q → ClientStep t sh (.addBody job) (.addUnlock call)
      { sh with queue := q, log := { sh.log with pushed := sh.log.pushed ++ [call] } }
  | addUnlock (call : ℕ) :
    ClientStep t sh (.addUnlock call) (.addPost call) (sh.release .lock)
  | addPost (call : ℕ) : ClientStep t sh (.addPost call) .out
    { sh with hasJob := semPost sh.hasJob, added := sh.added ++ [call] }
  | wait : ClientStep t sh .out (.waitLock sh.added) sh
  | waitLock (before : List ℕ) : sh.owner .countLocker = none →
    ClientStep t sh (.waitLock before) (.waitLen before)
      { sh with owner := Function.update sh.owner .countLocker (some t) }
  | waitLen (before : List ℕ) : ClientStep t sh (.waitLen before)
    (if sh.queue.len = 0 then .waitWorking before else .waitBlock before) sh
  | waitWorking (before : List ℕ) : ClientStep t sh (.waitWorking before)
    (if sh.threadWorking = 0 then .waitUnlock before else .waitBlock before) sh
  | waitBlock (before : List ℕ) :
    ClientStep t sh (.waitBlock before) (.asleep before) (sh.release .countLocker)
  | wake (before : List ℕ) : ClientStep t sh (.asleep before) (.waitLock before) sh
  | waitUnlock (before : List ℕ) :
    ClientStep t sh (.waitUnlock before) .out (sh.release .countLocker)
  | pause : ClientStep t sh .out (.pausing 0) { sh with stop := true }
  | resume : ClientStep t sh .out .out { sh with stop := false }

section Threads

variable {t : Thread n C} {sh sh' : Shared n C}

/-- What `pthread_mutex_lock` does when it returns. -/
theorem Shared.acquire_eq_some {m : Mutex} (h : sh.acquire m t = some sh') :
    sh.owner m = none ∧ sh' = { sh with owner := Function.update sh.owner m (some t) } := by
  unfold Shared.acquire at h
  split at h
  · cases h; exact ⟨‹_›, rfl⟩
  · cases h

/-- A worker's step is one of those. -/
theorem threadDo_cases {pc pc' : WorkerPc} {signal : Bool}
    (h : threadDo t sh pc = some (pc', sh', signal)) : WorkerStep t sh pc pc' sh' signal := by
  cases pc with
  | lock sec =>
    simp only [threadDo, Option.map_eq_some_iff] at h
    obtain ⟨sh₁, hacq, h⟩ := h
    cases h
    obtain ⟨hfree, rfl⟩ := Shared.acquire_eq_some hacq
    exact .lock sec hfree
  | body sec =>
    cases sec with
    | pop =>
      simp only [threadDo, Option.bind_eq_bind, Option.bind_eq_some_iff] at h
      obtain ⟨⟨job, q⟩, hpop, h⟩ := h
      cases h
      exact .pop job q hpop
    | alive => cases h; exact .alive
    | working => cases h; exact .working
    | idle => cases h; exact .idle
    | exit => cases h; exact .exit
  | unlock sec job => cases h; exact .unlock sec job
  | loopTest => cases h; exact .loopTest
  | semWait =>
    simp only [threadDo] at h
    split at h
    · cases h
    · cases h; exact .semWait ‹_›
  | runTest => cases h; exact .runTest
  | callFun job =>
    simp only [threadDo, Option.bind_eq_bind, Option.bind_eq_some_iff] at h
    obtain ⟨call, hcall, h⟩ := h
    cases h
    exact .callFun job call hcall
  | inFun job call => cases h; exact .inFun job call
  | freeJob job =>
    simp only [threadDo, Option.bind_eq_bind, Option.bind_eq_some_iff] at h
    obtain ⟨node, -, h⟩ := h
    cases h
    exact .freeJob job
  | repost => cases h; exact .repost
  | exited => cases h

/-- A client's step is one of those. -/
theorem clientDo_cases {move : Move} {pc pc' : ClientPc}
    (h : clientDo t sh pc move = some (pc', sh')) : ClientStep t sh pc pc' sh' := by
  unfold clientDo at h
  split at h
  · split at h
    · cases h
    · cases h
      exact .malloc _ (Option.not_isSome_iff_eq_none.mp ‹_›)
  · simp only [Option.map_eq_some_iff] at h
    obtain ⟨sh₁, hacq, h⟩ := h
    cases h
    obtain ⟨hfree, rfl⟩ := Shared.acquire_eq_some hacq
    exact .addLock _ hfree
  · simp only [Option.bind_eq_bind, Option.bind_eq_some_iff] at h
    obtain ⟨call, hcall, q, hpush, h⟩ := h
    cases h
    exact .push _ call q hcall hpush
  · cases h; exact .addUnlock _
  · cases h; exact .addPost _
  · cases h; exact .wait
  · simp only [Option.map_eq_some_iff] at h
    obtain ⟨sh₁, hacq, h⟩ := h
    cases h
    obtain ⟨hfree, rfl⟩ := Shared.acquire_eq_some hacq
    exact .waitLock _ hfree
  · cases h; exact .waitLen _
  · cases h; exact .waitWorking _
  · cases h; exact .waitBlock _
  · cases h; exact .wake _
  · cases h; exact .waitUnlock _
  · cases h; exact .pause
  · cases h; exact .resume
  · cases h

end Threads

/-! ## What the steps do -/

section Steps

variable [DecidableEq C] [Fintype C] {s s' : State n C} {i : Fin n} {c : C}

/-- A signal wakes clients that are asleep. -/
theorem notify_cases {signal : Bool} {woken : Option C} {client client' : C → ClientPc}
    (h : notify signal woken client = some client') (c : C) :
    client' c = client c ∨
      ∃ before, client c = .asleep before ∧ client' c = .waitLock before := by
  unfold notify at h
  split at h
  · cases h; exact .inl rfl
  · cases h
  · split at h
    · cases h; exact .inl rfl
    · cases h
  · rename_i d
    split at h
    · rename_i before hd
      cases h
      rcases eq_or_ne c d with rfl | hne
      · exact .inr ⟨before, hd, Function.update_self ..⟩
      · exact .inl (Function.update_of_ne hne _ _)
    · cases h

/-- A signal keeps what a client that is asleep and one that has woken have alike. -/
theorem notify_congr {A : Sort*} {g : ClientPc → A} (hwake : ∀ b, g (.waitLock b) = g (.asleep b))
    {signal : Bool} {woken : Option C} {client client' : C → ClientPc}
    (h : notify signal woken client = some client') (c : C) : g (client' c) = g (client c) := by
  rcases notify_cases h c with heq | ⟨before, hasleep, hwoken⟩
  · rw [heq]
  · rw [hasleep, hwoken, hwake]

/-- A worker takes its own step, and may wake a client. -/
theorem step_worker {woken : Option C} (h : Step s (.worker i woken) s') : s.paused i = false ∧
    ∃ pc sh signal client, threadDo (.inl i) s.sh (s.worker i) = some (pc, sh, signal) ∧
      notify signal woken s.client = some client ∧
      s' = { s with worker := Function.update s.worker i pc, client, sh } := by
  simp only [Step, next] at h
  split at h
  · cases h
  · simp only [Option.bind_eq_bind, Option.bind_eq_some_iff] at h
    obtain ⟨⟨pc, sh, signal⟩, hdo, client, hnotify, h⟩ := h
    cases h
    exact ⟨by simpa using ‹¬s.paused i = true›, pc, sh, signal, client, hdo, hnotify, rfl⟩

/-- The signal is delivered to a worker. -/
theorem step_deliver (h : Step s (.deliver i) s') : s.pending i = true ∧ s.paused i = false ∧
    s' = { s with
      pending := Function.update s.pending i false
      paused := Function.update s.paused i true } := by
  simp only [Step, next] at h
  split at h
  · cases h
    simp_all
  · cases h

/-- A worker leaves `thread_pause`, and may be out of `sem_wait`. -/
theorem step_leave {b : Bool} (h : Step s (.leave i b) s') : s.paused i = true ∧ s.sh.stop = false ∧
    ∃ pc, (pc = s.worker i ∨ s.worker i = .semWait ∧ pc = .runTest) ∧
      s' = { s with
        worker := Function.update s.worker i pc
        paused := Function.update s.paused i false } := by
  simp only [Step, next] at h
  split at h
  · rename_i hcond
    have hcond' : s.paused i = true ∧ s.sh.stop = false := by simpa using hcond
    refine ⟨hcond'.1, hcond'.2, ?_⟩
    split at h
    · split at h
      · cases h
        exact ⟨.runTest, .inr ⟨‹_›, rfl⟩, rfl⟩
      · cases h
    · cases h
      exact ⟨s.worker i, .inl rfl, by rw [Function.update_eq_self]⟩
  · cases h

/-- A client takes its own step, or sends a signal. -/
theorem step_client {move : Move} (h : Step s (.client c move) s') :
    ∃ pc sh pending, s' = { s with client := Function.update s.client c pc, sh, pending } ∧
      (clientDo (.inr c) s.sh (s.client c) move = some (pc, sh) ∧ pending = s.pending ∨
        ∃ k, s.client c = .pausing k ∧ (pc = .pausing (k + 1) ∨ pc = .out) ∧ sh = s.sh) := by
  simp only [Step, next] at h
  split at h
  · rename_i k hk
    cases h
    unfold killNext
    split
    · exact ⟨_, _, _, rfl, .inr ⟨k, hk, .inl rfl, rfl⟩⟩
    · exact ⟨_, _, _, rfl, .inr ⟨k, hk, .inr rfl, rfl⟩⟩
  · simp only [Option.bind_eq_bind, Option.bind_eq_some_iff] at h
    obtain ⟨⟨pc, sh⟩, hdo, h⟩ := h
    cases h
    exact ⟨pc, sh, s.pending, rfl, .inl ⟨hdo, rfl⟩⟩

/-- A worker that is not paused takes a step that signals nobody. -/
theorem step_of_threadDo {pc : WorkerPc} {sh : Shared n C} (hp : s.paused i = false)
    (h : threadDo (.inl i) s.sh (s.worker i) = some (pc, sh, false)) :
    Step s (.worker i none) { s with worker := Function.update s.worker i pc, sh } := by
  simp [Step, next, hp, h, notify]

/-- A client that is not in `thpool_pause` takes a step. -/
theorem step_of_clientDo {move : Move} {pc : ClientPc} {sh : Shared n C}
    (hne : ∀ k, s.client c ≠ .pausing k)
    (h : clientDo (.inr c) s.sh (s.client c) move = some (pc, sh)) :
    Step s (.client c move) { s with client := Function.update s.client c pc, sh } := by
  simp only [Step, next]
  split
  · rename_i k hk
    exact absurd hk (hne k)
  · simp [h]

/-- What `f` and `g` tell of where the threads are. -/
def State.view {A : Type} (f : WorkerPc → A) (g : ClientPc → A) (s : State n C) : Thread n C → A :=
  Sum.elim (fun i => f (s.worker i)) fun c => g (s.client c)

/-- A step seen through `f` and `g`, which do not tell an interrupted `sem_wait` from one that
returned, a woken client from one that is blocked, and a client in `thpool_pause` from one that is
in no call: nothing, or one thread's own step. -/
theorem step_view {A : Type} {f : WorkerPc → A} {g : ClientPc → A} (hsem : f .runTest = f .semWait)
    (hwake : ∀ b, g (.waitLock b) = g (.asleep b)) (hpause : ∀ k, g (.pausing k) = g .out)
    {l : Label n C} (h : Step s l s') : s'.sh = s.sh ∧ s'.view f g = s.view f g ∨
    (∃ i pc signal, threadDo (.inl i) s.sh (s.worker i) = some (pc, s'.sh, signal) ∧
      s'.view f g = Function.update (s.view f g) (.inl i) (f pc)) ∨
    ∃ c move pc, clientDo (.inr c) s.sh (s.client c) move = some (pc, s'.sh) ∧
      s'.view f g = Function.update (s.view f g) (.inr c) (g pc) := by
  have hworker : ∀ i pc, Sum.elim (fun k => f (Function.update s.worker i pc k))
      (fun c => g (s.client c)) = Function.update (s.view f g) (.inl i) (f pc) := fun i pc => by
    funext t
    rcases t with k | d
    · rcases eq_or_ne k i with rfl | hk <;> simp [State.view, *]
    · simp [State.view]
  have hclient : ∀ c pc, Sum.elim (fun k => f (s.worker k))
      (fun d => g (Function.update s.client c pc d)) =
      Function.update (s.view f g) (.inr c) (g pc) := fun c pc => by
    funext t
    rcases t with k | d
    · simp [State.view]
    · rcases eq_or_ne d c with rfl | hd <;> simp [State.view, *]
  cases l with
  | worker i woken =>
    obtain ⟨-, pc, sh, signal, client, hdo, hnotify, rfl⟩ := step_worker h
    have hsame : ∀ c, g (client c) = g (s.client c) := notify_congr hwake hnotify
    refine .inr (.inl ⟨i, pc, signal, hdo, ?_⟩)
    rw [← hworker, State.view]
    simp only [hsame]
  | deliver i =>
    obtain ⟨-, -, rfl⟩ := step_deliver h
    exact .inl ⟨rfl, rfl⟩
  | leave i b =>
    obtain ⟨-, -, pc, hpc, rfl⟩ := step_leave h
    have hsame : f pc = s.view f g (.inl i) := by
      rcases hpc with rfl | ⟨hsem', rfl⟩
      · rfl
      · rw [hsem, ← hsem']
        rfl
    refine .inl ⟨rfl, ?_⟩
    rw [← Function.update_eq_self (.inl i) (s.view f g), ← hsame, ← hworker]
    rfl
  | client c move =>
    obtain ⟨pc, sh, pending, rfl, hcase⟩ := step_client h
    rcases hcase with ⟨hdo, -⟩ | ⟨k, hk, hpc, rfl⟩
    · exact .inr (.inr ⟨c, move, pc, hdo, hclient c pc⟩)
    · have hsame : g pc = s.view f g (.inr c) := by
        rcases hpc with rfl | rfl <;> simp [State.view, hk, hpause]
      refine .inl ⟨rfl, ?_⟩
      rw [← Function.update_eq_self (.inr c) (s.view f g), ← hsame, ← hclient]
      rfl

end Steps

end Thpool

end Ulsp
