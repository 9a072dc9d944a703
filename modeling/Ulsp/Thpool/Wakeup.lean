import Ulsp.Thpool.Pause
import Ulsp.Thpool.Wait

/-!
# Who wakes the callers of `thpool_wait`

`pthread_cond_signal` wakes one caller, and a caller is blocked only while the queue is not empty or
`thread_working` is not 0: `count_locker` keeps a worker from lowering `thread_working` between a
caller's test and its `pthread_cond_wait`. So a caller is forgotten only by a worker that lowers
`thread_working` to 0 on an empty queue with more than one caller asleep, as in `wait_forgotten`;
without such a step (`SignalsAll`), none is.
-/

namespace Ulsp

open Lib

namespace Thpool

/-- Whether a client has found the pool busy and blocks, or is blocked, in `pthread_cond_wait`. -/
def ClientPc.blocks : ClientPc → Bool
  | waitBlock _ => true
  | asleep _ => true
  | _ => false

/-- Jobs are queued, or workers are at work. -/
def Shared.Busy {n : ℕ} {C : Type} (sh : Shared n C) : Prop :=
  sh.queue.head ≠ none ∨ sh.threadWorking ≠ 0

/-- A thread that holds a mutex owns it. -/
theorem LockStep.held {T : Type} [DecidableEq T] {t : T} {holds : T → Option Mutex}
    {h : Option Mutex} {o o' : Mutex → Option T} (hstep : LockStep t (holds t) o h o')
    (hheld : ∀ m u, holds u = some m → o m = some u) :
    ∀ m u, Function.update holds t h u = some m → o' m = some u := by
  intro m u hu
  generalize hst : holds t = h₀ at hstep
  cases hstep with
  | keep =>
    rw [← hst, Function.update_eq_self] at hu
    exact hheld m u hu
  | acquire m' _ hfree =>
    rcases eq_or_ne u t with rfl | hut
    · rw [Function.update_self] at hu
      cases hu
      exact Function.update_self ..
    · rw [Function.update_of_ne hut] at hu
      have hold := hheld m u hu
      have hm : m ≠ m' := by
        rintro rfl
        cases hold.symm.trans hfree
      rwa [Function.update_of_ne hm]
  | release m' _ =>
    rcases eq_or_ne u t with rfl | hut
    · rw [Function.update_self] at hu
      cases hu
    · rw [Function.update_of_ne hut] at hu
      have hold := hheld m u hu
      have hm : m ≠ m' := by
        rintro rfl
        exact hut (Option.some.inj (hold.symm.trans (hheld m t hst)))
      rwa [Function.update_of_ne hm]

variable {n : ℕ} {C : Type} {t : Thread n C} {sh sh' : Shared n C} {move : Move}

/-- A worker's step and what keeps the pool busy: a worker that pops is at work itself, and one that
lowers `thread_working` to 0 signals. -/
theorem threadDo_busy {pc pc' : WorkerPc} {signal : Bool}
    (h : threadDo t sh pc = some (pc', sh', signal)) : pc'.atWork = true ∨
    sh'.queue.head = sh.queue.head ∧ sh'.threadWorking = sh.threadWorking ∨
    pc = .body .idle ∧ sh'.queue.head = sh.queue.head ∧
      sh'.threadWorking = sh.threadWorking - 1 ∧ (sh'.threadWorking = 0 → signal = true) := by
  cases threadDo_cases h with
  | pop | working | callFun | inFun | freeJob => exact .inl rfl
  | idle => exact .inr (.inr ⟨rfl, rfl, rfl, fun h => decide_eq_true h⟩)
  | _ => exact .inr (.inl ⟨rfl, rfl⟩)

/-- A client's step leaves a busy pool busy, and a client blocks only when it is: a queue whose `len` is
not 0 has a job at `head`. -/
theorem clientDo_busy {pc pc' : ClientPc} {ps : List Ptr}
    (h : clientDo t sh pc move = some (pc', sh')) (hrep : sh.queue.Rep ps)
    (hpc : pc.blocks = true → sh.Busy) :
    (sh.Busy → sh'.Busy) ∧ (pc'.blocks = true → sh'.Busy) := by
  cases clientDo_cases h with
  | push job call q hcall hpush =>
    exact ⟨fun _ => .inl (JobQueue.push_head hrep hpush), nofun⟩
  | waitLen before =>
    refine ⟨id, ?_⟩
    intro hblocks
    split at hblocks
    · cases hblocks
    · rename_i hlen
      exact .inl fun hnone => hrep.ne_nil hlen (hrep.null_iff.1.mp hnone)
  | waitWorking before =>
    refine ⟨id, ?_⟩
    intro hblocks
    split at hblocks
    · cases hblocks
    · exact .inr ‹_›
  | waitBlock before => exact ⟨id, fun _ => hpc rfl⟩
  | _ => exact ⟨id, nofun⟩

section Runs

variable {s s' : State n C} {l : Label n C} {c : C}

/-- A thread in a section of a mutex owns it. -/
def State.Held (s : State n C) : Prop := ∀ m t, s.holds t = some m → s.sh.owner m = some t

/-- A client that blocks in `pthread_cond_wait` does so in a busy pool. -/
def State.Awaited (s : State n C) : Prop := ∀ c, (s.client c).blocks = true → s.sh.Busy

/-- A worker lowers `thread_working` to 0 on an empty queue only when at most one caller of
`thpool_wait` is asleep. -/
def SignalsAll (s : State n C) : Label n C → Prop
  | .worker i _ => s.worker i = .body .idle → s.sh.threadWorking = 1 → s.sh.queue.head = none →
    ∀ c d, (s.client c).isAsleep = true → (s.client d).isAsleep = true → c = d
  | _ => True

/-- The client is asleep in `thpool_wait` with nobody to wake it: the queue is empty,
`thread_working` is 0, every worker is blocked in `sem_wait` or has exited, and every client is in no
call or asleep too, so that none is adding a job and none has a signal to consume. -/
structure State.Forgotten (s : State n C) (c : C) : Prop where
  empty : s.sh.queue.head = none
  idle : s.sh.threadWorking = 0
  workers : ∀ i, s.worker i = .semWait ∧ s.sh.hasJob = 0 ∨ s.worker i = .exited
  clients : ∀ d, s.client d = .out ∨ (s.client d).isAsleep = true
  asleep : (s.client c).isAsleep = true

/-- Two threads are not in sections of the same mutex. -/
theorem State.Held.exclusive (hs : s.Held) {m : Mutex} {t u : Thread n C}
    (ht : s.holds t = some m) (hu : s.holds u = some m) : t = u :=
  Option.some.inj ((hs m t ht).symm.trans (hs m u hu))

/-- A worker in the section of `--thread_working` and a client about to block are not in
`count_locker` together, so a client that blocks then is asleep. -/
theorem State.Held.asleep_of_idle (hs : s.Held) {i : Fin n} (hi : s.worker i = .body .idle)
    (hc : (s.client c).blocks = true) : (s.client c).isAsleep = true := by
  cases hpc : s.client c with
  | waitBlock before =>
    have hworker : s.holds (.inl i) = some .countLocker := by
      show (s.worker i).holds = some .countLocker
      rw [hi]
      rfl
    have hclient : s.holds (.inr c) = some .countLocker := by
      show (s.client c).holds = some .countLocker
      rw [hpc]
      rfl
    cases hs.exclusive hworker hclient
  | asleep before => rfl
  | _ => rw [hpc] at hc; cases hc

variable [DecidableEq C] [Fintype C]

/-- Every step leaves the mutexes owned by the threads in their sections. -/
theorem held_step (hs : s.Held) (h : Step s l s') : s'.Held := by
  rcases step_view (f := WorkerPc.holds) (g := ClientPc.holds) rfl (fun _ => rfl) (fun _ => rfl)
    h with ⟨hsh, hview⟩ | ⟨i, pc, signal, hdo, hview⟩ | ⟨c, move, pc, hdo, hview⟩
  · rw [State.Held, State.holds, hview, hsh]
    exact hs
  · rw [State.Held, State.holds, hview]
    exact LockStep.held (t := .inl i) (threadDo_lock hdo) hs
  · rw [State.Held, State.holds, hview]
    exact LockStep.held (t := .inr c) (clientDo_lock hdo) hs

/-- A signal that at most one sleeping client waits for leaves none asleep. -/
theorem notify_all {woken : Option C} {client client' : C → ClientPc}
    (h : notify true woken client = some client')
    (hone : ∀ c d, (client c).isAsleep = true → (client d).isAsleep = true → c = d) (c : C) :
    (client' c).isAsleep = false := by
  cases woken with
  | none =>
    simp only [notify] at h
    split at h
    · cases h
      exact ‹∀ c, (client c).isAsleep = false› c
    · cases h
  | some d =>
    simp only [notify] at h
    split at h
    · rename_i before hd
      cases h
      rcases eq_or_ne c d with rfl | hcd
      · rw [Function.update_self]
        rfl
      · rw [Function.update_of_ne hcd]
        exact Bool.eq_false_iff.mpr fun hc => hcd (hone c d hc (by rw [hd]; rfl))
    · cases h

/-- A worker's step, which signals all sleeping clients when it leaves the pool idle, leaves the
clients that still block in a busy pool. -/
theorem awaited_worker {i : Fin n} {woken : Option C}
    (hworking' : s'.sh.threadWorking = count WorkerPc.atWork s'.worker) (hheld : s.Held)
    (hs : s.Awaited) (h : Guarded Step SignalsAll s (.worker i woken) s') : s'.Awaited := by
  obtain ⟨-, pc, sh, signal, client, hdo, hnotify, rfl⟩ := step_worker h.1
  intro c hc
  -- a woken client does not block, so this one did before
  have hsame : client c = s.client c := by
    rcases notify_cases hnotify c with hsame | ⟨before, -, hwoken⟩
    · exact hsame
    · rw [show (client c).blocks = false by rw [hwoken]; rfl] at hc
      cases hc
  have hbefore : (s.client c).blocks = true := hsame ▸ hc
  rcases threadDo_busy hdo with hat | ⟨hhead, hworking⟩ | ⟨hpc, hhead, hworking, hsignal⟩
  · refine .inr ?_
    intro hzero
    have hcount : count WorkerPc.atWork (Function.update s.worker i pc) = 0 := by
      have hcast := hworking'.symm.trans hzero
      exact_mod_cast hcast
    have hnone := count_eq_zero.mp hcount i
    rw [Function.update_self, hat] at hnone
    cases hnone
  · rcases hs c hbefore with hbusy | hbusy
    · exact .inl (hhead ▸ hbusy)
    · exact .inr (hworking ▸ hbusy)
  · by_contra hidle
    obtain ⟨hempty, hzero⟩ : sh.queue.head = none ∧ sh.threadWorking = 0 := by
      simpa [Shared.Busy, not_or] using hidle
    rw [hsignal hzero] at hnotify
    have hone := h.2 hpc (by omega) (hhead.symm.trans hempty)
    have hasleep : (client c).isAsleep = true := by
      rw [hsame]
      exact hheld.asleep_of_idle hpc hbefore
    exact Bool.noConfusion (hasleep.symm.trans (notify_all hnotify hone c))

/-- Steps that signal all sleeping clients when they leave the pool idle keep the invariant. -/
theorem awaited_step {ps : List Ptr} (hok : s.ledger.Ok ps)
    (hworking : s.sh.threadWorking = count WorkerPc.atWork s.worker) (hheld : s.Held) (hs : s.Awaited)
    (h : Guarded Step SignalsAll s l s') : s'.Awaited := by
  cases l with
  | worker i woken => exact awaited_worker (working_step hworking h.1) hheld hs h
  | deliver i =>
    obtain ⟨-, -, rfl⟩ := step_deliver h.1
    exact hs
  | leave i b =>
    obtain ⟨-, -, pc, -, rfl⟩ := step_leave h.1
    exact hs
  | client c move =>
    obtain ⟨pc, sh, pending, rfl, ⟨hdo, -⟩ | ⟨k, -, hpc, rfl⟩⟩ := step_client h.1
    · obtain ⟨hstays, hblocks⟩ := clientDo_busy hdo hok.rep (hs c)
      intro d hd
      rcases eq_or_ne d c with rfl | hdc
      · exact hblocks (by simpa using hd)
      · exact hstays (hs d (by simpa [Function.update_of_ne hdc] using hd))
    · intro d hd
      rcases eq_or_ne d c with rfl | hdc
      · rcases hpc with rfl | rfl <;> simp [ClientPc.blocks] at hd
      · exact hs d (by simpa [Function.update_of_ne hdc] using hd)

/-- In every run whose signals leave no caller asleep over an idle pool, callers of `thpool_wait`
block in a busy pool. -/
theorem awaited_of_run {ls : List (Label n C)} (h : Run (Guarded Step SignalsAll) init ls s) :
    s.Awaited := by
  have hrun : (∃ ps, s.ledger.Ok ps) ∧ s.sh.threadWorking = count WorkerPc.atWork s.worker ∧ s.Held ∧
      s.Awaited := by
    refine h.invariant (I := fun s : State n C => (∃ ps, s.ledger.Ok ps) ∧
      s.sh.threadWorking = count WorkerPc.atWork s.worker ∧ s.Held ∧ s.Awaited) ?_
      ⟨ledger_ok .refl, working_of_run .refl, ?_, nofun⟩
    · rintro s l s' ⟨⟨ps, hok⟩, hworking, hheld, hs⟩ hstep
      exact ⟨ledger_ok_run ⟨ps, hok⟩ (.single hstep.1), working_step hworking hstep.1,
        held_step hheld hstep.1, awaited_step hok hworking hheld hs hstep⟩
    · intro m t ht
      rcases t with i | c <;> cases ht
  exact hrun.2.2.2

/-- In every run in which a worker lowers `thread_working` to 0 on an empty queue only when at most
one caller of `thpool_wait` is asleep, a caller is asleep only while jobs are queued or workers at
work, and none is forgotten. -/
theorem wait_not_forgotten {ls : List (Label n C)} (h : Run (Guarded Step SignalsAll) init ls s)
    (c : C) : ((s.client c).isAsleep = true → s.sh.queue.head ≠ none ∨ s.sh.threadWorking ≠ 0) ∧
      ¬ s.Forgotten c := by
  have hasleep : (s.client c).isAsleep = true → s.sh.Busy := fun hc => by
    refine awaited_of_run h c ?_
    cases hpc : s.client c <;> simp_all [ClientPc.isAsleep, ClientPc.blocks]
  refine ⟨hasleep, ?_⟩
  intro hf
  rcases hasleep hf.asleep with hhead | hworking
  · exact hhead hf.empty
  · exact hworking hf.idle

end Runs

instance [DecidableEq C] [Fintype C] (s : State n C) (l : Label n C) :
    Decidable (SignalsAll s l) :=
  match l with
  | .worker i _ => inferInstanceAs (Decidable (s.worker i = .body .idle → s.sh.threadWorking = 1 →
    s.sh.queue.head = none → ∀ c d, (s.client c).isAsleep = true →
      (s.client d).isAsleep = true → c = d))
  | .deliver _ | .leave _ _ | .client _ _ => inferInstanceAs (Decidable True)

/-- A client that adds a job, and the steps of the worker up to the call of its function. -/
def jobTaken {C : Type} (c : C) : List (Label 1 C) :=
  [.client c (.add 1), .client c .go, .client c .go, .client c .go, .client c .go] ++
    List.replicate 13 (.worker sole none)

/-- A client that calls `thpool_wait` while a job is running, up to `pthread_cond_wait`. -/
def waitAsleep {C : Type} (c : C) : List (Label 1 C) :=
  .client c .wait :: List.replicate 4 (.client c .go)

/-- A caller of `thpool_wait` asleep while the worker runs a job. -/
theorem wait_not_forgotten_one : ∃ s, Run (Guarded (Step (n := 1) (C := Unit)) SignalsAll) init
    (jobTaken () ++ waitAsleep ()) s ∧ (s.client ()).isAsleep = true ∧
    (s.sh.queue.head ≠ none ∨ s.sh.threadWorking ≠ 0) ∧ ¬ s.Forgotten () := by
  obtain ⟨s, hrun, hread⟩ : ∃ s, Run (Guarded (Step (n := 1) (C := Unit)) SignalsAll) init
      (jobTaken () ++ waitAsleep ()) s ∧ (s.client ()).isAsleep = true := Run.of_exec_guarded rfl
  obtain ⟨hbusy, hnot⟩ := wait_not_forgotten hrun ()
  exact ⟨s, hrun, hread, hbusy hread, hnot⟩

/-- Two callers of `thpool_wait` asleep while the worker runs a job; the worker finishes it, signals
one of them, and waits for the next job; the caller it woke returns. -/
def twoWaiters : List (Label 1 Bool) :=
  jobTaken false ++ waitAsleep false ++ waitAsleep true ++
    List.replicate 3 (.worker sole none) ++
    [.worker sole (some false), .worker sole none, .worker sole none] ++
    List.replicate 4 (.client false .go)

/-- The other caller is forgotten. -/
theorem wait_forgotten : ∃ s, Run (Step (n := 1) (C := Bool)) init twoWaiters s ∧
    s.Forgotten true := by
  obtain ⟨s, hrun, hread⟩ : ∃ s, Run (Step (n := 1) (C := Bool)) init twoWaiters s ∧
      (s.sh.queue.head, s.sh.threadWorking, s.worker 0, s.sh.hasJob, s.client false,
        s.client true) = (none, 0, .semWait, 0, .out, .asleep [0]) := Run.of_exec_map rfl
  simp only [Prod.mk.injEq] at hread
  obtain ⟨hhead, hworking, hworker, hjob, hout, hasleep⟩ := hread
  refine ⟨s, hrun, hhead, hworking, ?_, ?_, ?_⟩
  · intro i
    obtain rfl := Subsingleton.elim i 0
    exact .inl ⟨hworker, hjob⟩
  · intro c
    cases c with
    | false => exact .inl hout
    | true => exact .inr (by rw [hasleep]; rfl)
  · rw [hasleep]
    rfl

end Thpool

end Ulsp
