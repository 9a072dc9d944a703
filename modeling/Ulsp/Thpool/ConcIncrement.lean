import Mathlib.Data.Fintype.Sum
import Ulsp.Lib.Lock
import Ulsp.Thpool.Wait

/-!
# Increments by the jobs of a pool (`thpool/conc_increment.c`)

`main` adds `num_jobs` jobs to a pool, each a call of `increment`, waits for them with `thpool_wait`
and prints `sum`. The system is the pool of `Ulsp.Thpool.Pool` with `main` as its one client, and with
the steps of `increment`, which has a mutex of its own, in the place of a job's function. Its runs are
runs of the pool, so what holds of every run of that holds here. Every job that `thpool_wait` has
waited for has added 1 by the time it returns (`printed`). `num_jobs` is an `int`, so `len` of the
queue can count its jobs, and `sum` does not overflow.
-/

namespace Ulsp

open Lib

namespace ConcIncrement

open Thpool (WorkerPc ClientPc Move Log Stage Ledger)

/-- Where a worker is in `increment`: at the lock, before `sum` is loaded, before it is stored, at the
unlock, or behind it. -/
inductive IncPc where
  | lock
  | load
  | store (loc : ℤ)
  | unlock
  | returned
  deriving DecidableEq, Repr

/-- Where `main` is: at the test of its loop, in `thpool_add_job`, in `thpool_wait`, at the `printf`, or
behind it. -/
inductive MainPc where
  | loop (n : ℕ)
  | adding (n : ℕ)
  | waiting
  | print
  | printed (v : ℤ)
  deriving DecidableEq, Repr

/-- The pool, its workers in `increment`, the mutex, `sum`, and `main`. -/
structure State (k : ℕ) where
  pool : Thpool.State k Unit
  inc : Fin k → IncPc
  mtx : Bool
  sum : ℤ
  main : MainPc

/-- A step of the pool, of a worker in `increment`, or the `printf`. -/
inductive Label (k : ℕ) where
  | pool (l : Thpool.Label k Unit)
  | inc (i : Fin k)
  | print

variable {k : ℕ}

/-- Behind `thpool_init`. -/
def init : State k := ⟨Thpool.init, fun _ => .lock, mutex.free, 0, .loop 0⟩

/-- A step of `increment`. -/
def increment (mtx : Bool) (sum : ℤ) : IncPc → Option (IncPc × Bool × ℤ)
  | .lock => (mutex.acquire mtx).map fun mtx => (.load, mtx, sum)
  | .load => some (.store sum, mtx, sum)
  | .store loc => (addInt loc 1).map fun sum => (.unlock, mtx, sum)
  | .unlock => some (.returned, mutex.release mtx, sum)
  | .returned => none

/-- What `main` does in the pool, and where it is then; `out` tells whether the call has returned. -/
def mainNext (numJobs : ℤ) (out : Bool) : MainPc → Move → Option MainPc
  | .loop n, .add _ => if n < numJobs then some (.adding n) else none
  | .loop n, .wait => if n < numJobs then none else some .waiting
  | .adding n, .go => some (if out then .loop (n + 1) else .adding n)
  | .waiting, .go | .waiting, .wake => some (if out then .print else .waiting)
  | _, _ => none

/-- The worker is in the function of a job. -/
def inJob : WorkerPc → Bool
  | .inFun _ _ => true
  | _ => false

/-- The steps. A worker leaves the function of its job when `increment` has returned. -/
def next (numJobs : ℤ) (s : State k) : Label k → Option (State k)
  | .pool (.worker i woken) => do
    let pool ← Thpool.next s.pool (.worker i woken)
    if inJob (s.pool.worker i) then
      if s.inc i = .returned then some { s with pool, inc := Function.update s.inc i .lock } else none
    else some { s with pool }
  | .pool (.client c move) => do
    let pool ← Thpool.next s.pool (.client c move)
    let main ← mainNext numJobs (pool.client c = .out) s.main move
    return { s with pool, main }
  | .pool l => do
    let pool ← Thpool.next s.pool l
    return { s with pool }
  | .inc i =>
    if inJob (s.pool.worker i) && !s.pool.paused i then do
      let (pc, mtx, sum) ← increment s.mtx s.sum (s.inc i)
      return { s with inc := Function.update s.inc i pc, mtx, sum }
    else none
  | .print =>
    match s.main with
    | .print => some { s with main := .printed s.sum }
    | _ => none

/-- The step relation. -/
def Step (numJobs : ℤ) (s : State k) (l : Label k) (t : State k) : Prop := next numJobs s l = some t

/-! ## The jobs of a pool, counted -/

/-- The thread has popped a job that has not finished. -/
def holds : Stage → Bool
  | .popped _ | .calling _ _ => true
  | _ => false

/-- A step of a worker at the queue keeps the jobs popped, finished and held in balance. -/
theorem holds_jobStep {st st' : Stage} {q q' : JobQueue} {log log' : Log}
    (h : Thpool.JobStep st q log st' q' log') :
    log'.popped.length + log.finished.length + (holds st).toNat =
      log.popped.length + log'.finished.length + (holds st').toNat := by
  cases h with
  | pop | finish =>
    simp only [List.length_append, List.length_singleton, holds, Bool.toNat_true, Bool.toNat_false]
    omega
  | _ => rfl

/-- A job that is popped is with a thread until it has finished. -/
def Settled {T : Type} [Fintype T] (l : Ledger T) : Prop :=
  l.log.popped.length = l.log.finished.length + count holds l.stage

/-- A step of the ledger keeps it settled. -/
theorem settled_step {T : Type} [Fintype T] [DecidableEq T] {l l' : Ledger T} {t : T} (h : Settled l)
    (hstep : l.Step t l') : Settled l' := by
  obtain ⟨st, q, log, hjob⟩ := hstep
  have hcount := count_update holds l.stage t st
  have hjobs := holds_jobStep hjob
  simp only [Settled] at h ⊢
  omega

variable {s s' : State k} {p p' : Thpool.State k Unit} {l : Label k} {numJobs : ℤ} {i : Fin k}

/-- The ledger is settled in every state of the pool that a run reaches. -/
theorem settled_of_run {ls : List (Thpool.Label k Unit)} (h : Run Thpool.Step Thpool.init ls p) :
    Settled p.ledger := by
  refine h.invariant (I := fun p => Settled p.ledger) ?_ ?_
  · intro p l p' hp hstep
    rcases Thpool.ledger_step hstep with heq | ⟨t, ht⟩
    · rwa [heq]
    · exact settled_step hp ht
  · have hnone : count holds (Thpool.init : Thpool.State k Unit).ledger.stage = 0 := by
      refine count_eq_zero.mpr fun t => ?_
      cases t <;> rfl
    rw [Settled, hnone]
    rfl

/-- The pool can be in this state. -/
def Reached (p : Thpool.State k Unit) : Prop := ∃ ls, Run Thpool.Step Thpool.init ls p

/-- Jobs are finished after they are popped, and popped after they are pushed. -/
theorem Reached.finished_le (h : Reached p) :
    p.sh.log.finished.length ≤ p.sh.log.popped.length ∧
      p.sh.log.popped.length ≤ p.sh.log.pushed.length := by
  obtain ⟨ls, hrun⟩ := h
  have hsettled : p.sh.log.popped.length = p.sh.log.finished.length + count holds p.ledger.stage :=
    settled_of_run hrun
  exact ⟨by omega, (Thpool.popped_first hrun).length_le⟩

/-- When all jobs popped have finished, no worker is in one. -/
theorem Reached.not_inJob (h : Reached p)
    (hall : p.sh.log.popped.length ≤ p.sh.log.finished.length) (i : Fin k) :
    inJob (p.worker i) = false := by
  obtain ⟨ls, hrun⟩ := h
  have hsettled : p.sh.log.popped.length = p.sh.log.finished.length + count holds p.ledger.stage :=
    settled_of_run hrun
  have hzero : holds (p.worker i).stage = false :=
    count_eq_zero.mp (Nat.eq_zero_of_le_zero (by omega) : count holds p.ledger.stage = 0) (.inl i)
  cases hpc : p.worker i with
  | inFun job call =>
    rw [hpc] at hzero
    cases hzero
  | _ => rfl

/-- When `len` is 0, and can count the jobs pushed, all jobs are popped. -/
theorem Reached.popped (h : Reached p) (hlt : p.sh.log.pushed.length < 2 ^ 32)
    (hlen : p.sh.queue.len = 0) : p.sh.log.pushed.length ≤ p.sh.log.popped.length := by
  obtain ⟨ls, hrun⟩ := h
  obtain ⟨ps, hok⟩ := Thpool.ledger_ok hrun
  have hlength : p.sh.log.pushed.length = p.sh.log.popped.length + ps.length := hok.length
  have hcounted : p.sh.queue.len.toNat = ps.length := hok.rep.toNat_len (by omega)
  rw [hlen, UInt32.toNat_zero] at hcounted
  omega

/-- When no worker is at work all jobs popped have finished. -/
theorem Reached.finished (h : Reached p) (hworking : p.sh.threadWorking = 0) :
    p.sh.log.popped.length ≤ p.sh.log.finished.length := by
  obtain ⟨ls, hrun⟩ := h
  have hcounted := Thpool.working_of_run hrun
  have hidle : count WorkerPc.atWork p.worker = 0 := by omega
  have hnone : count holds p.ledger.stage = 0 := by
    refine count_eq_zero.mpr fun t => ?_
    rcases t with i | c
    · have hat := count_eq_zero.mp hidle i
      have hstage : (p.ledger.stage (.inl i)) = (p.worker i).stage := rfl
      rw [hstage]
      cases hst : (p.worker i).stage with
      | popped job =>
        rw [Thpool.atWork_of_stage (p := job) (j := 0) (.inl hst)] at hat
        cases hat
      | calling job call =>
        rw [Thpool.atWork_of_stage (p := job) (j := call) (.inr hst)] at hat
        cases hat
      | _ => rfl
    · have hstage : (p.ledger.stage (.inr c)) = (p.client c).stage := rfl
      rw [hstage]
      cases p.client c <;> rfl
  have hsettled : p.sh.log.popped.length = p.sh.log.finished.length + count holds p.ledger.stage :=
    settled_of_run hrun
  omega

/-! ## The run of `main` -/

/-- The calls that `main` has made when it is in one of `thpool_add_job`, and the step of that. -/
def Adding (pushed n : ℕ) : ClientPc → Prop
  | .addLock _ | .addBody _ => pushed = n
  | .addUnlock _ | .addPost _ => pushed = n + 1
  | _ => False

/-- What `thpool_wait` has established when `total` jobs are pushed. -/
def Waiting (log : Log) (total : ℕ) : ClientPc → Prop
  | .waitLock _ | .waitLen _ | .waitBlock _ | .asleep _ => True
  | .waitWorking _ => total ≤ log.popped.length
  | .waitUnlock _ => total ≤ log.popped.length ∧ total ≤ log.finished.length
  | _ => False

/-- How far `main` is. -/
def Phase (total : ℕ) (log : Log) (client : ClientPc) : MainPc → Prop
  | .loop n => client = .out ∧ log.pushed.length = n ∧ n ≤ total
  | .adding n => Adding log.pushed.length n client ∧ n < total
  | .waiting => Waiting log total client ∧ log.pushed.length = total
  | .print | .printed _ => total ≤ log.finished.length ∧ log.pushed.length = total

/-- `main` pushes no more than `total` jobs. -/
theorem Phase.pushed_le {total : ℕ} {log : Log} {client : ClientPc} {main : MainPc}
    (h : Phase total log client main) : log.pushed.length ≤ total := by
  cases main with
  | loop n => exact h.2.1.trans_le h.2.2
  | adding n =>
    obtain ⟨hadding, hlt⟩ := h
    cases client with
    | addLock | addBody =>
      have hpushed : log.pushed.length = n := hadding
      omega
    | addUnlock | addPost =>
      have hpushed : log.pushed.length = n + 1 := hadding
      omega
    | _ => exact hadding.elim
  | _ => exact h.2.le

/-- The log after a step of a worker. -/
structure LogStep (log log' : Log) : Prop where
  pushed : log'.pushed = log.pushed
  popped : log.popped.length ≤ log'.popped.length
  finished : log.finished.length ≤ log'.finished.length

/-- What the client waits for stays so while the log grows. -/
theorem Waiting.mono {log log' : Log} {total : ℕ} {client : ClientPc} (h : Waiting log total client)
    (hlog : LogStep log log') : Waiting log' total client := by
  have hpopped := hlog.popped
  have hfinished := hlog.finished
  cases client with
  | waitWorking b => exact Nat.le_trans h hpopped
  | waitUnlock b => exact ⟨Nat.le_trans h.1 hpopped, Nat.le_trans h.2 hfinished⟩
  | _ => exact h

/-- The phase of the main thread stays while the log grows. -/
theorem Phase.mono {log log' : Log} {total : ℕ} {client : ClientPc} {main : MainPc}
    (h : Phase total log client main) (hlog : LogStep log log') : Phase total log' client main := by
  have hpushed := hlog.pushed
  have hfinished := hlog.finished
  cases main with
  | loop n => simpa only [Phase, hpushed] using h
  | adding n => simpa only [Phase, hpushed] using h
  | waiting => exact ⟨h.1.mono hlog, hpushed ▸ h.2⟩
  | print => exact ⟨Nat.le_trans h.1 hfinished, hpushed ▸ h.2⟩
  | printed v => exact ⟨Nat.le_trans h.1 hfinished, hpushed ▸ h.2⟩

/-- A signal of a worker leaves `main` where it is in its run. -/
theorem Phase.notify {log : Log} {total : ℕ} {main : MainPc} {signal : Bool} {woken : Option Unit}
    {client client' : Unit → ClientPc} (h : Phase total log (client ()) main)
    (hnotify : Thpool.notify signal woken client = some client') :
    Phase total log (client' ()) main := by
  have hsame : Phase total log (client' ()) main = Phase total log (client ()) main :=
    Thpool.notify_congr (g := fun pc => Phase total log pc main)
      (fun b => by cases main <;> simp [Phase, Adding, Waiting]) hnotify ()
  rwa [hsame]

/-- A step of a worker logs the end of a job exactly when it leaves the function. -/
theorem threadDo_log {n : ℕ} {t : Thpool.Thread n Unit} {sh sh' : Thpool.Shared n Unit}
    {pc pc' : WorkerPc} {signal : Bool} (h : Thpool.threadDo t sh pc = some (pc', sh', signal)) :
    LogStep sh.log sh'.log ∧
      sh'.log.finished.length = sh.log.finished.length + (inJob pc).toNat := by
  cases Thpool.threadDo_cases h with
  | pop job q hpop => exact ⟨⟨rfl, by simp, Nat.le_refl _⟩, rfl⟩
  | inFun job call => exact ⟨⟨rfl, Nat.le_refl _, by simp⟩, by simp [inJob]⟩
  | _ => exact ⟨⟨rfl, Nat.le_refl _, Nat.le_refl _⟩, rfl⟩

/-- A step of `main` in `thpool_add_job`. -/
theorem adding_step {t : Thpool.Thread k Unit} {sh sh' : Thpool.Shared k Unit} {pc pc' : ClientPc}
    {n : ℕ} (h : Adding sh.log.pushed.length n pc) (hstep : Thpool.ClientStep t sh pc pc' sh') :
    (pc' = .out ∧ sh'.log.pushed.length = n + 1 ∨ pc' ≠ .out ∧ Adding sh'.log.pushed.length n pc') ∧
      sh'.log.finished = sh.log.finished := by
  cases hstep with
  | addLock job hfree => exact ⟨.inr ⟨nofun, h⟩, rfl⟩
  | push job call q hcall hpush =>
    refine ⟨.inr ⟨nofun, ?_⟩, rfl⟩
    have hbefore : sh.log.pushed.length = n := h
    simp only [Adding, List.length_append, List.length_singleton, hbefore]
  | addUnlock call => exact ⟨.inr ⟨nofun, h⟩, rfl⟩
  | addPost call => exact ⟨.inl ⟨rfl, h⟩, rfl⟩
  | _ => exact absurd h id

/-- A step of `main` in `thpool_wait`: an empty queue shows that all jobs are popped, and then no worker
at work that all have finished. -/
theorem waiting_step {t : Thpool.Thread k Unit} {sh sh' : Thpool.Shared k Unit} {pc pc' : ClientPc}
    {total : ℕ} (h : Waiting sh.log total pc) (hpushed : sh.log.pushed.length = total)
    (hlen : sh.queue.len = 0 → sh.log.pushed.length ≤ sh.log.popped.length)
    (hworking : sh.threadWorking = 0 → sh.log.popped.length ≤ sh.log.finished.length)
    (hstep : Thpool.ClientStep t sh pc pc' sh') :
    (pc' = .out ∧ total ≤ sh.log.finished.length ∨ pc' ≠ .out ∧ Waiting sh.log total pc') ∧
      sh'.log = sh.log := by
  cases hstep with
  | waitLock before hfree => exact ⟨.inr ⟨nofun, trivial⟩, rfl⟩
  | waitLen before =>
    by_cases hzero : sh.queue.len = 0
    · rw [if_pos hzero]
      have hpopped := hlen hzero
      exact ⟨.inr ⟨nofun, hpushed ▸ hpopped⟩, rfl⟩
    · rw [if_neg hzero]
      exact ⟨.inr ⟨nofun, trivial⟩, rfl⟩
  | waitWorking before =>
    by_cases hzero : sh.threadWorking = 0
    · rw [if_pos hzero]
      have hpopped : total ≤ sh.log.popped.length := h
      exact ⟨.inr ⟨nofun, hpopped, Nat.le_trans hpopped (hworking hzero)⟩, rfl⟩
    · rw [if_neg hzero]
      exact ⟨.inr ⟨nofun, trivial⟩, rfl⟩
  | waitBlock before => exact ⟨.inr ⟨nofun, trivial⟩, rfl⟩
  | wake before => exact ⟨.inr ⟨nofun, trivial⟩, rfl⟩
  | waitUnlock before => exact ⟨.inl ⟨rfl, h.2⟩, rfl⟩
  | _ => exact absurd h id

/-- A step of `main` in the pool. -/
theorem phase_step {t : Thpool.Thread k Unit} {sh sh' : Thpool.Shared k Unit} {pc pc' : ClientPc}
    {move : Move} {main main' : MainPc} (h : Phase numJobs.toNat sh.log pc main)
    (hlen : sh.queue.len = 0 → sh.log.pushed.length ≤ sh.log.popped.length)
    (hworking : sh.threadWorking = 0 → sh.log.popped.length ≤ sh.log.finished.length)
    (hdo : Thpool.clientDo t sh pc move = some (pc', sh'))
    (hmain : mainNext numJobs (pc' = .out) main move = some main') :
    Phase numJobs.toNat sh'.log pc' main' ∧ sh'.log.finished = sh.log.finished := by
  have hstep := Thpool.clientDo_cases hdo
  cases main with
  | loop n =>
    obtain ⟨rfl, hpushed, hle⟩ := h
    cases move with
    | add job =>
      obtain ⟨hlt, heq⟩ := Option.ite_none_right_eq_some.mp hmain
      cases heq
      obtain ⟨-, heq⟩ := Option.ite_none_left_eq_some.mp hdo
      cases heq
      exact ⟨⟨hpushed, by omega⟩, rfl⟩
    | wait =>
      obtain ⟨hge, heq⟩ := Option.ite_none_left_eq_some.mp hmain
      cases heq
      cases hdo
      exact ⟨⟨trivial, by omega⟩, rfl⟩
    | _ => cases hmain
  | adding n =>
    obtain ⟨hadding, hlt⟩ := h
    cases move with
    | go =>
      cases hmain
      obtain ⟨⟨rfl, hpushed⟩ | ⟨hin, hadding'⟩, hfin⟩ := adding_step hadding hstep
      · exact ⟨⟨rfl, hpushed, hlt⟩, hfin⟩
      · simp only [hin, decide_false, Bool.false_eq_true, if_false]
        exact ⟨⟨hadding', hlt⟩, hfin⟩
    | _ => cases hmain
  | waiting =>
    obtain ⟨hwaiting, hpushed⟩ := h
    have hmain' : main' = if pc' = .out then .print else .waiting := by
      cases move with
      | go | wake =>
        cases hmain
        simp only [decide_eq_true_eq]
      | _ => cases hmain
    obtain ⟨⟨rfl, hfin⟩ | ⟨hin, hwaiting'⟩, hlog⟩ := waiting_step hwaiting hpushed hlen hworking hstep
    · rw [hmain', if_pos rfl, hlog]
      exact ⟨⟨hfin, hpushed⟩, rfl⟩
    · rw [hmain', if_neg hin, hlog]
      exact ⟨⟨hwaiting', hpushed⟩, rfl⟩
  | print => cases hmain
  | printed v => cases hmain

/-! ## The sum -/

/-- The worker holds the mutex. -/
def IncPc.Inside : IncPc → Prop
  | .load | .store _ | .unlock => True
  | _ => False

/-- The worker has stored and its job has not finished. -/
def IncPc.stored : IncPc → Bool
  | .unlock | .returned => true
  | _ => false

/-- The workers in `increment`, when `finished` jobs have finished: only a worker in a job's function is
anywhere but at its start, the mutex guards the section, and `sum` counts the jobs that have stored. -/
structure Incs (inc : Fin k → IncPc) (mtx : Bool) (sum : ℤ) (finished : ℕ) (worker : Fin k → WorkerPc) :
    Prop where
  outside : ∀ i, inJob (worker i) = false → inc i = .lock
  guards : mutex.Guards mtx fun i => (inc i).Inside
  loaded : ∀ i loc, inc i = .store loc → loc = sum
  sum : sum = finished + count IncPc.stored inc

section Incs

variable {inc : Fin k → IncPc} {mtx mtx' : Bool} {sum sum' : ℤ} {finished : ℕ} {pc pc' : IncPc}
  {worker worker' : Fin k → WorkerPc}

/-- A worker that is in no job's function takes a step. -/
theorem Incs.other (h : Incs inc mtx sum finished worker) (hi : inJob (worker i) = false)
    (hsame : ∀ j, j ≠ i → worker' j = worker j) : Incs inc mtx sum finished worker' := by
  refine ⟨fun j hj => ?_, h.guards, h.loaded, h.sum⟩
  rcases eq_or_ne j i with rfl | hne
  · exact h.outside j hi
  · exact h.outside j (by rwa [← hsame j hne])

/-- `increment` has returned, and the job has finished. -/
theorem Incs.finish (h : Incs inc mtx sum finished worker) (hret : inc i = .returned)
    (hsame : ∀ j, j ≠ i → worker' j = worker j) :
    Incs (Function.update inc i .lock) mtx sum (finished + 1) worker' := by
  have hcount := count_update IncPc.stored inc i .lock
  rw [hret] at hcount
  refine ⟨fun j hj => ?_, h.guards.congr fun j => ?_, fun j loc hj => ?_, ?_⟩
  · rcases eq_or_ne j i with rfl | hne
    · exact Function.update_self ..
    · exact (Function.update_of_ne hne ..).trans (h.outside j (by rwa [← hsame j hne]))
  · rcases eq_or_ne j i with rfl | hne
    · rw [Function.update_self, hret]
      exact .rfl
    · rw [Function.update_of_ne hne]
  · rcases eq_or_ne j i with rfl | hne
    · rw [Function.update_self] at hj
      cases hj
    · rw [Function.update_of_ne hne] at hj
      exact h.loaded j loc hj
  · have hsum := h.sum
    simp only [IncPc.stored, Bool.toNat_true, Bool.toNat_false] at hcount
    omega

/-- A step of `increment` that leaves `sum` as it is. -/
theorem Incs.move (h : Incs inc mtx sum finished worker) (hin : inJob (worker i) = true)
    (hguards : mutex.Guards mtx' fun j => (Function.update inc i pc' j).Inside)
    (hloaded : ∀ loc, pc' = .store loc → loc = sum) (hstored : pc'.stored = (inc i).stored) :
    Incs (Function.update inc i pc') mtx' sum finished worker := by
  refine ⟨fun j hj => ?_, hguards, fun j loc hj => ?_, ?_⟩
  · have hne : j ≠ i := by
      rintro rfl
      rw [hin] at hj
      cases hj
    exact (Function.update_of_ne hne ..).trans (h.outside j hj)
  · rcases eq_or_ne j i with rfl | hne
    · rw [Function.update_self] at hj
      exact hloaded loc hj
    · rw [Function.update_of_ne hne] at hj
      exact h.loaded j loc hj
  · have hcount := count_update IncPc.stored inc i pc'
    have hsum := h.sum
    rw [hstored] at hcount
    omega

/-- A worker in a job takes a step of `increment`. -/
theorem incs_step (h : Incs inc mtx sum finished worker) (hin : inJob (worker i) = true)
    (hpc : inc i = pc) (hstep : increment mtx sum pc = some (pc', mtx', sum')) :
    Incs (Function.update inc i pc') mtx' sum' finished worker := by
  have hother : ∀ pc' j, j ≠ i → ((Function.update inc i pc' j).Inside ↔ (inc j).Inside) :=
    fun pc' j hne => by rw [Function.update_of_ne hne]
  have hself : ∀ pc', (Function.update inc i pc' i).Inside ↔ pc'.Inside :=
    fun pc' => by rw [Function.update_self]
  have hstay : ∀ pc', (pc'.Inside ↔ pc.Inside) →
      mutex.Guards mtx fun j => (Function.update inc i pc' j).Inside := by
    intro pc' hsame
    refine h.guards.congr fun j => ?_
    rcases eq_or_ne j i with rfl | hne
    · rw [hself, hpc, hsame]
    · exact hother pc' j hne
  cases pc with
  | lock =>
    obtain ⟨m, hm, heq⟩ := Option.map_eq_some_iff.mp hstep
    cases heq
    have hguards := (h.guards.acquire (i := i) hm (hother .load) ((hself .load).mpr trivial)).2
    exact h.move hin hguards nofun (by rw [hpc]; rfl)
  | load =>
    cases hstep
    refine h.move hin (hstay _ .rfl) ?_ (by rw [hpc]; rfl)
    rintro _ ⟨⟩
    rfl
  | store loc =>
    obtain ⟨v, hadd, heq⟩ := Option.map_eq_some_iff.mp hstep
    cases heq
    obtain ⟨rfl, -⟩ := addInt_eq_some hadd
    have hloc : loc = sum := h.loaded i loc hpc
    have hcount := count_update IncPc.stored inc i .unlock
    rw [hpc] at hcount
    simp only [IncPc.stored, Bool.toNat_true, Bool.toNat_false] at hcount
    have hsum := h.sum
    refine ⟨fun j hj => ?_, hstay _ .rfl, fun j loc' hj => ?_, by omega⟩
    · have hne : j ≠ i := by
        rintro rfl
        rw [hin] at hj
        cases hj
      exact (Function.update_of_ne hne ..).trans (h.outside j hj)
    · -- nobody else has loaded, for the mutex is with this worker
      have hinside : (inc i).Inside := by
        rw [hpc]
        trivial
      have hne : j ≠ i := by
        rintro rfl
        rw [Function.update_self] at hj
        cases hj
      rw [Function.update_of_ne hne] at hj
      exact absurd ((h.guards.alone hinside).2 j (by rw [hj]; trivial)) hne
  | unlock =>
    cases hstep
    have hinside : (inc i).Inside := by
      rw [hpc]
      trivial
    have hguards := h.guards.release (i := i) hinside (hother .returned) (fun hin => (hself _).mp hin)
    exact h.move hin hguards nofun (by rw [hpc]; rfl)
  | returned => cases hstep

end Incs

/-- The invariant: the pool's own, how far `main` is, and that `sum` counts the jobs that have stored.
-/
structure Ok (numJobs : ℤ) (s : State k) : Prop where
  reached : Reached s.pool
  phase : Phase numJobs.toNat s.pool.sh.log (s.pool.client ()) s.main
  incs : Incs s.inc s.mtx s.sum s.pool.sh.log.finished.length s.pool.worker
  printed : ∀ v, s.main = .printed v → v = numJobs.toNat

/-- When `main` prints, all jobs have stored and finished. -/
theorem Ok.sum_eq (h : Ok numJobs s) (hmain : s.main = .print) : s.sum = numJobs.toNat := by
  obtain ⟨hfin, hpushed⟩ : numJobs.toNat ≤ s.pool.sh.log.finished.length ∧
      s.pool.sh.log.pushed.length = numJobs.toNat := by
    have hphase := h.phase
    rwa [hmain] at hphase
  obtain ⟨hle, hle'⟩ := h.reached.finished_le
  have hnone : count IncPc.stored s.inc = 0 := count_eq_zero.mpr fun i => by
    rw [h.incs.outside i (h.reached.not_inJob (by omega) i)]
    rfl
  have hsum := h.incs.sum
  omega

/-- A state after a reached one is reached. -/
theorem Reached.step {l : Thpool.Label k Unit} (h : Reached p) (hstep : Thpool.Step p l p') :
    Reached p' := by
  obtain ⟨ls, hrun⟩ := h
  exact ⟨_, hrun.tail hstep⟩

/-- A step of a worker in the pool. -/
theorem ok_worker {woken : Option Unit} (h : Ok numJobs s)
    (hnext : next numJobs s (.pool (.worker i woken)) = some s') : Ok numJobs s' := by
  obtain ⟨pool, hpool, hrest⟩ := Option.bind_eq_some_iff.mp hnext
  obtain ⟨-, pc, sh, signal, client, hdo, hnotify, rfl⟩ := Thpool.step_worker hpool
  obtain ⟨hlog, hfin⟩ := threadDo_log hdo
  have hphase := (h.phase.notify hnotify).mono hlog
  have hother : ∀ j, j ≠ i → Function.update s.pool.worker i pc j = s.pool.worker j :=
    fun j hne => Function.update_of_ne hne ..
  by_cases hin : inJob (s.pool.worker i) = true
  · -- the job's function is left, so that `increment` has returned
    rw [if_pos hin] at hrest
    obtain ⟨hret, heq⟩ := Option.ite_none_right_eq_some.mp hrest
    cases heq
    rw [hin] at hfin
    refine ⟨h.reached.step hpool, hphase, ?_, h.printed⟩
    rw [hfin]
    exact h.incs.finish hret hother
  · rw [if_neg hin] at hrest
    cases hrest
    have hfalse : inJob (s.pool.worker i) = false := Bool.eq_false_iff.mpr hin
    rw [hfalse] at hfin
    refine ⟨h.reached.step hpool, hphase, ?_, h.printed⟩
    rw [hfin]
    exact h.incs.other hfalse hother

/-- `main` pauses nobody. -/
theorem Phase.not_pausing {total m : ℕ} {log : Log} {main main' : MainPc} {move : Move} {out : Bool}
    (h : Phase total log (.pausing m) main) (hmain : mainNext numJobs out main move = some main') :
    False := by
  cases main with
  | loop n => cases h.1
  | adding n => exact h.1
  | waiting => exact h.1
  | print => cases hmain
  | printed v => cases hmain

/-- A step of the pool is not the `printf`. -/
theorem mainNext_ne_printed {main : MainPc} {move : Move} {out : Bool} {v : ℤ} :
    mainNext numJobs out main move ≠ some (.printed v) := by
  intro h
  unfold mainNext at h
  split at h
  · split at h <;> cases h
  · split at h <;> cases h
  · cases out <;> cases h
  · cases out <;> cases h
  · cases out <;> cases h
  · cases h

/-- A step of `main` in the pool. -/
theorem ok_client {c : Unit} {move : Move} (hint : numJobs < 2 ^ 31) (h : Ok numJobs s)
    (hnext : next numJobs s (.pool (.client c move)) = some s') : Ok numJobs s' := by
  obtain ⟨pool, hpool, hrest⟩ := Option.bind_eq_some_iff.mp hnext
  obtain ⟨main, hmain, heq⟩ := Option.bind_eq_some_iff.mp hrest
  cases heq
  obtain ⟨pc, sh, pending, rfl, ⟨hdo, -⟩ | ⟨m, hpausing, -⟩⟩ := Thpool.step_client hpool
  · have hclient : Function.update s.pool.client c pc () = pc := Function.update_self ..
    simp only [Function.update_self] at hmain
    have hpushed := h.phase.pushed_le
    have hpopped := h.reached.popped (by omega)
    obtain ⟨hphase, hfin⟩ := phase_step h.phase hpopped h.reached.finished hdo hmain
    refine ⟨h.reached.step hpool, ?_, ?_, fun v hv => ?_⟩
    · simp only [hclient]
      exact hphase
    · simp only [hfin]
      exact h.incs
    · cases hv
      exact absurd hmain mainNext_ne_printed
  · have hphase := h.phase
    rw [show s.pool.client () = .pausing m from hpausing] at hphase
    exact (hphase.not_pausing hmain).elim

/-- Every step keeps the invariant. -/
theorem ok_step (hint : numJobs < 2 ^ 31) (h : Ok numJobs s)
    (hstep : Step numJobs s l s') : Ok numJobs s' := by
  cases l with
  | pool l =>
    cases l with
    | worker i woken => exact ok_worker h hstep
    | client c move => exact ok_client hint h hstep
    | deliver i =>
      obtain ⟨pool, hpool, heq⟩ := Option.bind_eq_some_iff.mp hstep
      cases heq
      obtain ⟨-, -, rfl⟩ := Thpool.step_deliver hpool
      exact ⟨h.reached.step hpool, h.phase, h.incs, h.printed⟩
    | leave i b =>
      obtain ⟨pool, hpool, heq⟩ := Option.bind_eq_some_iff.mp hstep
      cases heq
      obtain ⟨-, -, pc, hpc, rfl⟩ := Thpool.step_leave hpool
      refine ⟨h.reached.step hpool, h.phase, ?_, h.printed⟩
      rcases hpc with rfl | ⟨hsem, rfl⟩
      · simp only [Function.update_eq_self]
        exact h.incs
      · exact h.incs.other (by rw [hsem]; rfl) fun j hne => Function.update_of_ne hne ..
  | inc i =>
    obtain ⟨hin, hrest⟩ := Option.ite_none_right_eq_some.mp hstep
    obtain ⟨⟨pc, mtx, sum⟩, hinc, heq⟩ := Option.bind_eq_some_iff.mp hrest
    cases heq
    have hjob : inJob (s.pool.worker i) = true := (Bool.and_eq_true_iff.mp hin).1
    exact ⟨h.reached, h.phase, incs_step h.incs hjob rfl hinc, h.printed⟩
  | print =>
    cases hmain : s.main with
    | print =>
      simp only [Step, next, hmain] at hstep
      cases hstep
      have hphase := h.phase
      rw [hmain] at hphase
      refine ⟨h.reached, hphase, h.incs, ?_⟩
      rintro v ⟨⟩
      exact h.sum_eq hmain
    | _ => simp [Step, next, hmain] at hstep

/-- The invariant holds before the first step. -/
theorem ok_init (numJobs : ℤ) : Ok numJobs (init : State k) where
  reached := ⟨[], .refl⟩
  phase := ⟨rfl, rfl, Nat.zero_le _⟩
  incs := by
    have hnone : count IncPc.stored (fun _ : Fin k => IncPc.lock) = 0 := count_eq_zero.mpr fun _ => rfl
    exact ⟨fun _ _ => rfl, .free rfl fun _ => id, nofun, by simp [init, hnone, Thpool.init]⟩
  printed := nofun

/-- What `main` prints is the number of the jobs, whatever the number of workers and the order of the
steps. -/
theorem printed {ls : List (Label k)} {v : ℤ} (hint : numJobs < 2 ^ 31)
    (h : Run (Step numJobs) init ls s) (hmain : s.main = .printed v) : v = numJobs.toNat :=
  (h.invariant (fun _ _ _ hs hstep => ok_step hint hs hstep) (ok_init numJobs)).printed v hmain

/-- A run with one worker and one job: `main` adds it, the worker runs it, and `main` waits. -/
def oneJob : List (Label 1) :=
  [.pool (.client () (.add 1))] ++ List.replicate 4 (.pool (.client () .go)) ++
    List.replicate 13 (.pool (.worker Thpool.sole none)) ++ List.replicate 4 (.inc Thpool.sole) ++
    List.replicate 5 (.pool (.worker Thpool.sole none)) ++ [.pool (.client () .wait)] ++
    List.replicate 4 (.pool (.client () .go)) ++ [.print]

/-- It prints 1. -/
theorem printed_oneJob : ∃ (s : State 1) (v : ℤ), Run (Step 1) init oneJob s ∧ s.main = .printed v ∧
    v = 1 := by
  have hprints : (exec (next 1) (init : State 1) oneJob).map State.main = some (.printed 1) := by
    decide
  obtain ⟨s, hrun, hmain⟩ := Run.of_exec_map hprints
  exact ⟨s, 1, hrun, hmain, printed (by decide) hrun hmain⟩

end ConcIncrement

end Ulsp
