import Ulsp.Thpool.Fifo

/-!
# A pause and the locks of the pool

`thread_pause` may interrupt a worker anywhere, and a worker that spins there inside a critical
section keeps its mutex until `thpool_resume`: `pause_deadlock` is a run that ends in a pool without
any further step, its controller waiting for `jobs->lock` to add a job. When every signal reaches its
worker outside the critical sections (`SafeSignal`), no paused worker owns a mutex, and a
`thpool_add_job` can complete without a `thpool_resume`.
-/

namespace Ulsp

open Lib

namespace Thpool

/-- The mutex that a worker's next step is under. -/
def WorkerPc.holds : WorkerPc → Option Mutex
  | body sec => some sec.mutex
  | unlock sec _ => some sec.mutex
  | _ => none

/-- The mutex that a client's next step is under. -/
def ClientPc.holds : ClientPc → Option Mutex
  | addBody _ => some .lock
  | addUnlock _ => some .lock
  | waitLen _ => some .countLocker
  | waitWorking _ => some .countLocker
  | waitBlock _ => some .countLocker
  | waitUnlock _ => some .countLocker
  | _ => none

/-- Whether a client is in `thpool_add_job`. -/
def ClientPc.adding : ClientPc → Bool
  | addLock _ => true
  | addBody _ => true
  | addUnlock _ => true
  | addPost _ => true
  | _ => false

/-- What a step of the thread `t` does to the mutexes: nothing, or it takes one or releases the one
it holds. -/
inductive LockStep {T : Type} (t : T) : Option Mutex → (Mutex → Option T) → Option Mutex →
    (Mutex → Option T) → Prop
  | keep (h : Option Mutex) (o : Mutex → Option T) : LockStep t h o h o
  | acquire (m : Mutex) (o : Mutex → Option T) : o m = none →
    LockStep t none o (some m) (Function.update o m (some t))
  | release (m : Mutex) (o : Mutex → Option T) :
    LockStep t (some m) o none (Function.update o m none)

/-- The owner of a mutex is in a section of it. -/
theorem LockStep.owned {T : Type} [DecidableEq T] {t : T} {holds : T → Option Mutex}
    {h : Option Mutex} {o o' : Mutex → Option T} (hstep : LockStep t (holds t) o h o')
    (howned : ∀ m u, o m = some u → holds u = some m) :
    ∀ m u, o' m = some u → Function.update holds t h u = some m := by
  intro m u hu
  generalize hst : holds t = h₀ at hstep
  cases hstep with
  | keep =>
    rw [← hst, Function.update_eq_self]
    exact howned m u hu
  | acquire m' _ hfree =>
    rcases eq_or_ne m m' with rfl | hm
    · rw [Function.update_self] at hu
      cases hu
      exact Function.update_self ..
    · rw [Function.update_of_ne hm] at hu
      have hold := howned m u hu
      have hut : u ≠ t := by
        rintro rfl
        cases hst.symm.trans hold
      rwa [Function.update_of_ne hut]
  | release m' _ =>
    rcases eq_or_ne m m' with rfl | hm
    · rw [Function.update_self] at hu
      cases hu
    · rw [Function.update_of_ne hm] at hu
      have hold := howned m u hu
      have hut : u ≠ t := by
        rintro rfl
        exact hm (Option.some.inj (hold.symm.trans hst))
      rwa [Function.update_of_ne hut]

variable {n : ℕ} {C : Type} {t : Thread n C} {sh sh' : Shared n C} {move : Move}

theorem Section.after_holds (sec : Section) (job : Option Ptr) : (sec.after job).holds = none := by
  cases sec <;> cases job <;> rfl

/-- A worker's step is one on the mutexes. -/
theorem threadDo_lock {pc pc' : WorkerPc} {signal : Bool}
    (h : threadDo t sh pc = some (pc', sh', signal)) :
    LockStep t pc.holds sh.owner pc'.holds sh'.owner := by
  cases threadDo_cases h with
  | lock sec hfree => exact .acquire _ _ hfree
  | unlock sec job =>
    rw [Section.after_holds]
    exact .release _ _
  | loopTest | runTest => cases sh.running <;> exact .keep _ _
  | _ => exact .keep _ _

/-- A client's step is one on the mutexes. -/
theorem clientDo_lock {pc pc' : ClientPc} (h : clientDo t sh pc move = some (pc', sh')) :
    LockStep t pc.holds sh.owner pc'.holds sh'.owner := by
  cases clientDo_cases h with
  | addLock job hfree => exact .acquire _ _ hfree
  | waitLock before hfree => exact .acquire _ _ hfree
  | addUnlock call => exact .release _ _
  | waitBlock before => exact .release _ _
  | waitUnlock before => exact .release _ _
  | waitLen before | waitWorking before => split <;> exact .keep _ _
  | _ => exact .keep _ _

section Runs

variable {s s' : State n C} {l : Label n C} {i : Fin n} {c : C}

/-- The mutex that each thread's next step is under. -/
def State.holds (s : State n C) : Thread n C → Option Mutex := s.view WorkerPc.holds ClientPc.holds

/-- The owner of a mutex is in a section of it. -/
def State.Owned (s : State n C) : Prop := ∀ m t, s.sh.owner m = some t → s.holds t = some m

/-- No paused worker is in a critical section. -/
def State.Clear (s : State n C) : Prop := ∀ i, s.paused i = true → (s.worker i).holds = none

/-- Signals reach their workers outside the critical sections of `thread_do`. -/
def SafeSignal (s : State n C) : Label n C → Prop
  | .deliver i => (s.worker i).holds = none
  | _ => True

/-- The steps other than `thpool_resume`, with safe signals. -/
def Calm (s : State n C) (l : Label n C) : Prop := SafeSignal s l ∧ ∀ d, l ≠ .client d .resume

theorem calm_worker (s : State n C) (i : Fin n) (woken : Option C) : Calm s (.worker i woken) :=
  ⟨trivial, nofun⟩

theorem calm_go (s : State n C) (c : C) : Calm s (.client c .go) := ⟨trivial, nofun⟩

/-- The invariant of a pool whose signals are safe. -/
structure State.Sound (s : State n C) : Prop where
  ledger : ∃ ps, s.ledger.Ok ps
  owned : s.Owned
  clear : s.Clear

/-- A paused worker owns no mutex. -/
theorem State.Sound.paused_owns_none (hs : s.Sound) (hi : s.paused i = true) (m : Mutex) :
    s.sh.owner m ≠ some (.inl i) := fun ho => by
  have hholds : (s.worker i).holds = some m := hs.owned m _ ho
  rw [hs.clear i hi] at hholds
  cases hholds

variable [DecidableEq C] [Fintype C]

/-- Every step leaves the mutexes with threads in their sections. -/
theorem owned_step (hs : s.Owned) (h : Step s l s') : s'.Owned := by
  rcases step_view (f := WorkerPc.holds) (g := ClientPc.holds) rfl (fun _ => rfl) (fun _ => rfl)
    h with ⟨hsh, hview⟩ | ⟨i, pc, signal, hdo, hview⟩ | ⟨c, move, pc, hdo, hview⟩
  · rw [State.Owned, State.holds, hview, hsh]
    exact hs
  · rw [State.Owned, State.holds, hview]
    exact LockStep.owned (t := .inl i) (threadDo_lock hdo) hs
  · rw [State.Owned, State.holds, hview]
    exact LockStep.owned (t := .inr c) (clientDo_lock hdo) hs

/-- A paused worker stays where it is, so a safe signal finds and leaves it outside the sections. -/
theorem clear_step (hs : s.Clear) (h : Guarded Step SafeSignal s l s') : s'.Clear := by
  obtain ⟨hstep, hsafe⟩ := h
  cases l with
  | worker i woken =>
    obtain ⟨hnot, pc, sh, signal, client, -, -, rfl⟩ := step_worker hstep
    intro k hk
    have hki : k ≠ i := by
      rintro rfl
      exact Bool.noConfusion (hnot.symm.trans hk)
    show (Function.update s.worker i pc k).holds = none
    rw [Function.update_of_ne hki]
    exact hs k hk
  | deliver i =>
    obtain ⟨-, -, rfl⟩ := step_deliver hstep
    intro k hk
    rcases eq_or_ne k i with rfl | hki
    · exact hsafe
    · exact hs k (by simpa [Function.update_of_ne hki] using hk)
  | leave i b =>
    obtain ⟨-, -, pc, -, rfl⟩ := step_leave hstep
    intro k hk
    have hki : k ≠ i := by
      rintro rfl
      simp at hk
    show (Function.update s.worker i pc k).holds = none
    rw [Function.update_of_ne hki]
    exact hs k (by simpa [Function.update_of_ne hki] using hk)
  | client c move =>
    obtain ⟨pc, sh, pending, rfl, -⟩ := step_client hstep
    exact hs

/-- Safe steps keep the invariant. -/
theorem sound_step (hs : s.Sound) (h : Guarded Step SafeSignal s l s') : s'.Sound :=
  ⟨ledger_ok_run hs.ledger (.single h.1), owned_step hs.owned h.1, clear_step hs.clear h⟩

/-- Safe runs keep the invariant. -/
theorem sound_run {ls : List (Label n C)} (hs : s.Sound)
    (h : Run (Guarded Step SafeSignal) s ls s') : s'.Sound :=
  h.invariant (fun _ _ _ hs hstep => sound_step hs hstep) hs

/-- The invariant holds of the pool that `thpool_init` makes. -/
theorem init_sound : (init : State n C).Sound where
  ledger := ledger_ok .refl
  owned := nofun
  clear := nofun

/-! ## `thpool_add_job` while the pool is paused -/

/-- Without `thpool_resume`, the client can return from its call. -/
def State.CanReturn (s : State n C) (c : C) : Prop :=
  ∃ ls s', Run (Guarded Step Calm) s ls s' ∧ s'.client c = .out

theorem State.CanReturn.of_run {ls : List (Label n C)} (h : Run (Guarded Step Calm) s ls s')
    (hs : s'.CanReturn c) : s.CanReturn c := by
  obtain ⟨ls', t, hrun, hout⟩ := hs
  exact ⟨ls ++ ls', t, h.append hrun, hout⟩

/-- Calm runs keep the invariant. -/
theorem calm_run {ls : List (Label n C)} (hs : s.Sound) (h : Run (Guarded Step Calm) s ls s') :
    s'.Sound :=
  sound_run hs (h.mono fun _ _ _ hstep => ⟨hstep.1, hstep.2.1⟩)

/-- A client's step, when what it does is known. -/
theorem exists_go {pc pc' : ClientPc} {sh : Shared n C} (hc : s.client c = pc)
    (hne : ∀ k, pc ≠ .pausing k) (h : clientDo (.inr c) s.sh pc .go = some (pc', sh)) :
    ∃ s', Run (Guarded Step Calm) s [.client c .go] s' ∧
      s'.client = Function.update s.client c pc' ∧ s'.sh = sh := by
  subst hc
  exact ⟨_, .single ⟨step_of_clientDo hne h, calm_go s c⟩, rfl, rfl⟩

/-- A worker's step that signals nobody, when what it does is known. -/
theorem exists_worker {pc pc' : WorkerPc} {sh : Shared n C} (hi : s.worker i = pc)
    (hp : s.paused i = false) (h : threadDo (.inl i) s.sh pc = some (pc', sh, false)) :
    ∃ s', Run (Guarded Step Calm) s [.worker i none] s' ∧ s'.worker i = pc' ∧
      s'.paused = s.paused ∧ s'.client = s.client ∧ s'.sh = sh := by
  subst hi
  exact ⟨_, .single ⟨step_of_threadDo hp h, calm_worker s i none⟩, by simp, rfl, rfl, rfl⟩

/-- A worker that has only the unlock of `jobqueue_pop` before it takes it. -/
theorem unlock_pop {job : Option Ptr} (hi : s.worker i = .unlock .pop job)
    (hp : s.paused i = false) : ∃ ls s', Run (Guarded Step Calm) s ls s' ∧
      s'.sh.owner .lock = none ∧ s'.client = s.client := by
  obtain ⟨s', hrun, -, -, hclient, hsh⟩ := exists_worker hi hp rfl
  exact ⟨_, s', hrun, by rw [hsh]; simp [Shared.release, Section.mutex], hclient⟩

/-- A worker that owns `jobs->lock` and is not paused can release it. -/
theorem worker_releases (hs : s.Sound) (hp : s.paused i = false)
    (hholds : (s.worker i).holds = some .lock) : ∃ ls s', Run (Guarded Step Calm) s ls s' ∧
      s'.sh.owner .lock = none ∧ s'.client = s.client := by
  cases hi : s.worker i with
  | body sec =>
    rw [hi] at hholds
    cases sec with
    | pop =>
      obtain ⟨ps, hok⟩ := hs.ledger
      obtain ⟨job, q, hpop⟩ := hok.can_pop
      have hpop' : s.sh.queue.pop = some (job, q) := hpop
      have hdo : ∃ sh, threadDo (.inl i) s.sh (.body .pop) = some (.unlock .pop job, sh, false) := by
        simp only [threadDo, hpop', Option.bind_eq_bind, Option.bind_some]
        exact ⟨_, rfl⟩
      obtain ⟨sh, hdo⟩ := hdo
      obtain ⟨s₁, hrun, hi₁, hp₁, hclient₁, -⟩ := exists_worker hi hp hdo
      obtain ⟨ls, s₂, hrun₂, hfree, hclient₂⟩ := unlock_pop hi₁ (by rw [hp₁, hp])
      exact ⟨_, s₂, hrun.append hrun₂, hfree, hclient₂.trans hclient₁⟩
    | _ => cases hholds
  | unlock sec job =>
    rw [hi] at hholds
    cases sec with
    | pop => exact unlock_pop hi hp
    | _ => cases hholds
  | _ => rw [hi] at hholds; cases hholds

/-- A client that has only to post can return. -/
theorem post_returns {call : ℕ} (hc : s.client c = .addPost call) : s.CanReturn c := by
  obtain ⟨s₁, hrun, hclient, -⟩ := exists_go hc nofun rfl
  exact ⟨_, s₁, hrun, by rw [hclient]; exact Function.update_self ..⟩

/-- A client in the unlock of `jobqueue_push` releases `jobs->lock`, and has only to post. -/
theorem unlock_push {call : ℕ} (hc : s.client c = .addUnlock call) :
    ∃ ls s', Run (Guarded Step Calm) s ls s' ∧ s'.sh.owner .lock = none ∧
      s'.client = Function.update s.client c (.addPost call) := by
  obtain ⟨s₁, hrun, hclient, hsh⟩ := exists_go hc nofun rfl
  exact ⟨_, s₁, hrun, by rw [hsh]; simp [Shared.release], hclient⟩

/-- A client that owns `jobs->lock` can push its job. -/
theorem body_push {job : Ptr} (hs : s.Sound) (hc : s.client c = .addBody job) :
    ∃ call ls s', Run (Guarded Step Calm) s ls s' ∧
      s'.client = Function.update s.client c (.addUnlock call) := by
  obtain ⟨ps, hok⟩ := hs.ledger
  have hstage : s.ledger.stage (.inr c) = .made job := by
    show (s.client c).stage = .made job
    rw [hc]
    rfl
  obtain ⟨call, q, hcall, hpush⟩ := hok.can_push hstage
  have hcall' : s.sh.queue.callAt job = some call := hcall
  have hpush' : s.sh.queue.push job = some q := hpush
  have hdo : ∃ sh, clientDo (.inr c) s.sh (.addBody job) .go = some (.addUnlock call, sh) := by
    simp only [clientDo, hcall', hpush', Option.bind_eq_bind, Option.bind_some]
    exact ⟨_, rfl⟩
  obtain ⟨sh, hdo⟩ := hdo
  obtain ⟨s₁, hrun, hclient, -⟩ := exists_go hc (fun _ h => by cases h) hdo
  exact ⟨call, _, s₁, hrun, hclient⟩

/-- A client that owns `jobs->lock` can release it. -/
theorem client_releases (hs : s.Sound) (hholds : (s.client c).holds = some .lock) :
    ∃ ls s' pc, Run (Guarded Step Calm) s ls s' ∧ s'.sh.owner .lock = none ∧
      s'.client = Function.update s.client c pc := by
  cases hc : s.client c with
  | addBody job =>
    obtain ⟨call, ls₁, s₁, hrun₁, hclient₁⟩ := body_push hs hc
    have hc₁ : s₁.client c = .addUnlock call := by rw [hclient₁, Function.update_self]
    obtain ⟨ls₂, s₂, hrun₂, hfree, hclient₂⟩ := unlock_push hc₁
    exact ⟨_, s₂, .addPost call, hrun₁.append hrun₂, hfree, by
      rw [hclient₂, hclient₁, Function.update_idem]⟩
  | addUnlock call =>
    obtain ⟨ls₁, s₁, hrun₁, hfree, hclient₁⟩ := unlock_push hc
    exact ⟨ls₁, s₁, _, hrun₁, hfree, hclient₁⟩
  | _ => rw [hc] at hholds; cases hholds

/-- Whoever owns `jobs->lock` can release it, while a client outside of it waits. -/
theorem lock_released (hs : s.Sound) (hc : (s.client c).holds = none) :
    ∃ ls s', Run (Guarded Step Calm) s ls s' ∧ s'.sh.owner .lock = none ∧
      s'.client c = s.client c := by
  rcases ho : s.sh.owner .lock with _ | i | d
  · exact ⟨[], s, .refl, ho, rfl⟩
  · have hp : s.paused i = false :=
      Bool.eq_false_iff.mpr fun hi => hs.paused_owns_none hi .lock ho
    obtain ⟨ls, s', hrun, hfree, hclient⟩ := worker_releases hs hp (hs.owned _ _ ho)
    exact ⟨ls, s', hrun, hfree, congrFun hclient c⟩
  · have hholds : (s.client d).holds = some .lock := hs.owned _ _ ho
    obtain ⟨ls, s', pc, hrun, hfree, hclient⟩ := client_releases hs hholds
    have hcd : c ≠ d := by
      rintro rfl
      cases hc.symm.trans hholds
    exact ⟨ls, s', hrun, hfree, by rw [hclient, Function.update_of_ne hcd]⟩

/-- A client that has released `jobs->lock` can return. -/
theorem unlock_returns {call : ℕ} (hc : s.client c = .addUnlock call) : s.CanReturn c := by
  obtain ⟨ls, s₁, hrun, -, hclient⟩ := unlock_push hc
  exact .of_run hrun (post_returns (by rw [hclient, Function.update_self]))

/-- A client that owns `jobs->lock` can return. -/
theorem body_returns {job : Ptr} (hs : s.Sound) (hc : s.client c = .addBody job) :
    s.CanReturn c := by
  obtain ⟨call, ls, s₁, hrun, hclient⟩ := body_push hs hc
  exact .of_run hrun (unlock_returns (by rw [hclient, Function.update_self]))

/-- A client that waits for `jobs->lock` can return. -/
theorem lock_returns {job : Ptr} (hs : s.Sound) (hc : s.client c = .addLock job) :
    s.CanReturn c := by
  obtain ⟨ls, s₁, hrun, hfree, hc₁⟩ := lock_released hs (by rw [hc]; rfl)
  obtain ⟨s₂, hrun₂, hclient, -⟩ := exists_go (hc₁.trans hc) nofun
    (show clientDo (.inr c) s₁.sh (.addLock job) .go = some (.addBody job, _) by
      simp only [clientDo, Shared.acquire, hfree, if_pos]
      rfl)
  have hc₂ : s₂.client c = .addBody job := by rw [hclient, Function.update_self]
  exact .of_run (hrun.append hrun₂) (body_returns (calm_run hs (hrun.append hrun₂)) hc₂)

/-- A client that is in `thpool_add_job` can return. -/
theorem adding_returns (hs : s.Sound) (hc : (s.client c).adding = true) : s.CanReturn c := by
  cases hpc : s.client c with
  | addLock job => exact lock_returns hs hpc
  | addBody job => exact body_returns hs hpc
  | addUnlock call => exact unlock_returns hpc
  | addPost call => exact post_returns hpc
  | _ => rw [hpc] at hc; cases hc

/-- In every run whose signals reach their workers outside the critical sections of `thread_do`, no
paused worker owns `jobs->lock` or `count_locker`, a client that is in no call can call
`thpool_add_job`, and a client in `thpool_add_job` can return without a `thpool_resume`. -/
theorem pause_leaves_locks {ls : List (Label n C)} (h : Run (Guarded Step SafeSignal) init ls s) :
    (∀ i m, s.paused i = true → s.sh.owner m ≠ some (.inl i)) ∧
    (∀ c p, s.client c = .out → s.sh.queue.mem p = none →
      ∃ s', Step s (.client c (.add p)) s' ∧ s'.CanReturn c) ∧
    ∀ c, (s.client c).adding = true → s.CanReturn c := by
  have hs := sound_run init_sound h
  refine ⟨fun i m hi => hs.paused_owns_none hi m, ?_, fun c => adding_returns hs⟩
  intro c p hc hp
  obtain ⟨pc, sh, hdo, hpc⟩ : ∃ pc sh, clientDo (.inr c) s.sh (s.client c) (.add p) =
      some (pc, sh) ∧ pc.adding = true := by
    rw [hc]
    exact ⟨.addLock p, _, if_neg (by simp [hp]), rfl⟩
  have hstep := step_of_clientDo (fun k => by rw [hc]; nofun) hdo
  exact ⟨_, hstep, adding_returns (sound_step hs ⟨hstep, trivial⟩) (by simpa using hpc)⟩

end Runs

instance {n : ℕ} {C : Type} (s : State n C) (l : Label n C) : Decidable (SafeSignal s l) := by
  cases l <;> unfold SafeSignal <;> infer_instance

/-- A worker that is paused in the function of a job, and the client that has paused it and then calls
`thpool_add_job`. -/
def pausedInFun : List (Label 1 Unit) :=
  [.client () (.add 1), .client () .go, .client () .go, .client () .go, .client () .go] ++
    List.replicate 13 (.worker sole none) ++
    [.client () .pause, .client () .go, .client () .go, .deliver sole, .client () (.add 2)]

theorem pause_leaves_locks_inFun : ∃ s, Run (Guarded (Step (n := 1) (C := Unit)) SafeSignal) init
    pausedInFun s ∧ s.paused 0 = true ∧ s.worker 0 = .inFun 1 0 ∧ s.client () = .addLock 2 ∧
    s.sh.owner .lock ≠ some (.inl 0) ∧ s.CanReturn () := by
  obtain ⟨s, hrun, hread⟩ : ∃ s, Run (Guarded (Step (n := 1) (C := Unit)) SafeSignal) init
      pausedInFun s ∧ (s.paused 0, s.worker 0, s.client ()) = (true, .inFun 1 0, .addLock 2) :=
    Run.of_exec_guarded rfl
  simp only [Prod.mk.injEq] at hread
  obtain ⟨hpaused, hworker, hclient⟩ := hread
  obtain ⟨hlocks, -, hreturns⟩ := pause_leaves_locks hrun
  exact ⟨s, hrun, hpaused, hworker, hclient, hlocks 0 .lock hpaused, hreturns () (by rw [hclient]; rfl)⟩

/-- A job for the worker, its steps up to the body of `jobqueue_pop`, a `thpool_pause` whose signal
reaches it there, and a `thpool_add_job`. -/
def pausedInPop : List (Label 1 Unit) :=
  [.client () (.add 1), .client () .go, .client () .go, .client () .go, .client () .go] ++
    List.replicate 10 (.worker sole none) ++
    [.client () .pause, .client () .go, .client () .go, .deliver sole, .client () (.add 2)]

/-- A state whose only worker is paused and in `jobqueue_pop`, and whose only client waits for the
lock of the queue, has no step. -/
theorem stuck_of_paused {s : State 1 Unit} {p : Ptr} (hpaused : s.paused 0 = true)
    (hstop : s.sh.stop = true) (howner : s.sh.owner .lock = some (.inl 0))
    (hclient : s.client () = .addLock p) (l : Label 1 Unit) (s' : State 1 Unit) : ¬ Step s l s' := by
  intro h
  cases l with
  | worker i woken =>
    obtain rfl := Subsingleton.elim i 0
    obtain ⟨hnot, -⟩ := step_worker h
    exact Bool.noConfusion (hnot.symm.trans hpaused)
  | deliver i =>
    obtain rfl := Subsingleton.elim i 0
    obtain ⟨-, hnot, -⟩ := step_deliver h
    exact Bool.noConfusion (hnot.symm.trans hpaused)
  | leave i b =>
    obtain ⟨-, hnot, -⟩ := step_leave h
    exact Bool.noConfusion (hnot.symm.trans hstop)
  | client c move =>
    obtain ⟨pc, sh, pending, -, ⟨hdo, -⟩ | ⟨k, hk, -⟩⟩ := step_client h
    · rw [hclient] at hdo
      cases move with
      | go => simp [clientDo, Shared.acquire, howner] at hdo
      | _ => cases hdo
    · cases hclient.symm.trans hk

/-- The paused worker owns `jobs->lock`, the client that would resume it waits for the lock, and no
thread can move. -/
theorem pause_deadlock : ∃ s, Run (Step (n := 1) (C := Unit)) init pausedInPop s ∧
    s.paused 0 = true ∧ s.sh.owner .lock = some (.inl 0) ∧ s.sh.stop = true ∧
    s.client () = .addLock 2 ∧ ∀ l s', ¬ Step s l s' := by
  obtain ⟨s, hrun, hread⟩ : ∃ s, Run (Step (n := 1) (C := Unit)) init pausedInPop s ∧
      (s.paused 0, s.sh.owner .lock, s.sh.stop, s.client ()) =
        (true, some (.inl 0), true, .addLock 2) := Run.of_exec_map rfl
  simp only [Prod.mk.injEq] at hread
  obtain ⟨hpaused, howner, hstop, hclient⟩ := hread
  exact ⟨s, hrun, hpaused, howner, hstop, hclient,
    stuck_of_paused hpaused hstop howner hclient⟩

end Thpool

end Ulsp
