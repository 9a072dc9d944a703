import Ulsp.Lib.Run
import Ulsp.Thpool.Pool

/-!
# The pool runs jobs first in, first out and once

Every step of the pool is a step of the ledger of its jobs or leaves it alone (`ledger_step`), so
what holds of every ledger holds of the pool, whatever the interleaving of its threads. That `len` is
the number of the jobs it is as long as no job is pushed on a queue of 2³² - 1 (`LenCounts`). Nothing
in the code keeps it from happening: a pool whose worker has not come to run can be filled with any
number of jobs (`exists_filled`).
-/

namespace Ulsp

open Lib

namespace Thpool

/-- What a worker has to do with a job. -/
def WorkerPc.stage : WorkerPc → Stage
  | unlock .pop (some job) => .popped job
  | callFun job => .popped job
  | inFun job call => .calling job call
  | freeJob job => .ran job
  | _ => .outside

/-- What a client has to do with a job. -/
def ClientPc.stage : ClientPc → Stage
  | addLock job => .made job
  | addBody job => .made job
  | _ => .outside

variable {n : ℕ} {C : Type}

/-- The ledger of the pool's jobs. -/
def State.ledger (s : State n C) : Ledger (Thread n C) :=
  ⟨s.view WorkerPc.stage ClientPc.stage, s.sh.queue, s.sh.log⟩

theorem Section.after_stage (sec : Section) (job : Option Ptr) :
    (sec.after job).stage = (WorkerPc.unlock sec job).stage := by
  cases sec <;> cases job <;> rfl

/-- A worker's step is one in the life of a job. -/
theorem threadDo_job {t : Thread n C} {sh sh' : Shared n C} {pc pc' : WorkerPc} {signal : Bool}
    (h : threadDo t sh pc = some (pc', sh', signal)) :
    JobStep pc.stage sh.queue sh.log pc'.stage sh'.queue sh'.log := by
  cases threadDo_cases h with
  | pop job q hpop =>
    cases job with
    | none =>
      obtain ⟨rfl, -⟩ := JobQueue.pop_none hpop
      simp only [Option.bind_none, Option.toList_none, List.append_nil]
      exact .quiet _ _ _
    | some p =>
      obtain ⟨-, -, call, hcall⟩ := JobQueue.pop_some hpop
      simp only [Option.bind_some, hcall, Option.toList_some]
      exact .pop p call _ _ _ hpop hcall
  | unlock sec job =>
    rw [Section.after_stage]
    exact .quiet _ _ _
  | loopTest | runTest => cases sh.running <;> exact .quiet _ _ _
  | callFun job call hcall => exact .call job call _ _ hcall
  | inFun job call => exact .finish _ _ _ _
  | freeJob job => exact .free _ _ _
  | _ => exact .quiet _ _ _

/-- A client's step is one in the life of a job. -/
theorem clientDo_job {t : Thread n C} {sh sh' : Shared n C} {pc pc' : ClientPc} {move : Move}
    (h : clientDo t sh pc move = some (pc', sh')) :
    JobStep pc.stage sh.queue sh.log pc'.stage sh'.queue sh'.log := by
  cases clientDo_cases h with
  | malloc job hfree => exact .malloc _ _ _ hfree
  | push job call q hcall hpush => exact .push _ _ _ _ _ hcall hpush
  | waitLen before | waitWorking before => split <;> exact .quiet _ _ _
  | _ => exact .quiet _ _ _

section Runs

variable [DecidableEq C] [Fintype C] {s s' : State n C} {l : Label n C}

/-- Every step of the pool is a step of its ledger, or leaves it alone. -/
theorem ledger_step (h : Step s l s') : s'.ledger = s.ledger ∨ ∃ t, s.ledger.Step t s'.ledger := by
  rcases step_view (f := WorkerPc.stage) (g := ClientPc.stage) rfl (fun _ => rfl) (fun _ => rfl) h
    with ⟨hsh, hview⟩ | ⟨i, pc, signal, hdo, hview⟩ | ⟨c, move, pc, hdo, hview⟩
  · exact .inl (by rw [State.ledger, hsh, hview, State.ledger])
  · rw [State.ledger, hview]
    exact .inr ⟨.inl i, .move _ _ _ (threadDo_job hdo)⟩
  · rw [State.ledger, hview]
    exact .inr ⟨.inr c, .move _ _ _ (clientDo_job hdo)⟩

/-- Runs keep the invariant of the ledger. -/
theorem ledger_ok_run {ls : List (Label n C)} (hs : ∃ ps, s.ledger.Ok ps) (h : Run Step s ls s') :
    ∃ ps, s'.ledger.Ok ps := by
  refine h.invariant (I := fun s => ∃ ps, s.ledger.Ok ps) ?_ hs
  intro s l s' hs hstep
  obtain ⟨ps, hps⟩ := hs
  rcases ledger_step hstep with heq | ⟨t, ht⟩
  · exact ⟨ps, heq ▸ hps⟩
  · exact hps.step ht

/-- The ledger of every reachable state satisfies its invariant. -/
theorem ledger_ok {ls : List (Label n C)} (h : Run Step init ls s) : ∃ ps, s.ledger.Ok ps := by
  refine ledger_ok_run ⟨[], ?_⟩ h
  have hinit : (init : State n C).ledger =
      ⟨fun _ => .outside, JobQueue.init fun _ => none, ⟨0, [], [], [], []⟩⟩ := by
    simp only [State.ledger, Ledger.mk.injEq]
    refine ⟨funext ?_, rfl, rfl⟩
    intro t
    cases t <;> rfl
  rw [hinit]
  exact Ledger.init_ok

/-- In every interleaving the jobs popped are a prefix of those pushed. -/
theorem popped_first {ls : List (Label n C)} (h : Run Step init ls s) :
    s.sh.log.popped <+: s.sh.log.pushed := by
  obtain ⟨ps, hok⟩ := ledger_ok h
  obtain ⟨cs, -, hsplit⟩ := hok.split
  exact ⟨cs, hsplit.symm⟩

/-! ## What `len` can count -/

/-- Whether a client is about to push its job. -/
def ClientPc.pushes : ClientPc → Bool
  | addBody _ => true
  | _ => false

/-- The step is no `jobqueue_push` that takes `len` past its greatest value. -/
def LenCounts (s : State n C) : Label n C → Prop
  | .client c _ => (s.client c).pushes = true → s.sh.queue.len.toNat + 1 < 2 ^ 32
  | _ => True

omit [DecidableEq C] [Fintype C] in
instance (s : State n C) (l : Label n C) : Decidable (LenCounts s l) :=
  match l with
  | .client c _ =>
    inferInstanceAs (Decidable ((s.client c).pushes = true → s.sh.queue.len.toNat + 1 < 2 ^ 32))
  | .worker _ _ | .deliver _ | .leave _ _ => inferInstanceAs (Decidable True)

/-- The number of the jobs in the queue. -/
theorem Ledger.Ok.length {T : Type} {l : Ledger T} {ps : List Ptr} (h : l.Ok ps) :
    l.log.pushed.length = l.log.popped.length + ps.length := by
  obtain ⟨cs, hcs, hsplit⟩ := h.split
  have hlength : ps.length = cs.length := by simpa using congrArg List.length hcs
  rw [hsplit, List.length_append, hlength]

omit [DecidableEq C] [Fintype C] in
/-- A worker pushes nothing. -/
theorem threadDo_pushed {t : Thread n C} {sh sh' : Shared n C} {pc pc' : WorkerPc} {signal : Bool}
    (h : threadDo t sh pc = some (pc', sh', signal)) :
    sh'.log.pushed = sh.log.pushed ∧ sh.log.popped.length ≤ sh'.log.popped.length := by
  cases threadDo_cases h with
  | pop job q hpop => exact ⟨rfl, by simp⟩
  | _ => exact ⟨rfl, Nat.le_refl _⟩

omit [DecidableEq C] [Fintype C] in
/-- A client that pushes nothing leaves the log of what was pushed and popped alone. -/
theorem clientDo_pushed {t : Thread n C} {sh sh' : Shared n C} {pc pc' : ClientPc} {move : Move}
    (h : clientDo t sh pc move = some (pc', sh')) : sh'.log.popped = sh.log.popped ∧
    (sh'.log.pushed = sh.log.pushed ∨
      pc.pushes = true ∧ sh'.log.pushed.length = sh.log.pushed.length + 1) := by
  cases clientDo_cases h with
  | push job call q hcall hpush => exact ⟨rfl, .inr ⟨rfl, by simp⟩⟩
  | _ => exact ⟨rfl, .inl rfl⟩

/-- A step that `len` can count leaves fewer than 2³² jobs in the queue. -/
theorem lenCounts_step {ps : List Ptr} (hok : s.ledger.Ok ps) (hlt : ps.length < 2 ^ 32)
    (h : Guarded Step LenCounts s l s') : ∃ ps', s'.ledger.Ok ps' ∧ ps'.length < 2 ^ 32 := by
  obtain ⟨hstep, hcounts⟩ := h
  obtain ⟨ps', hok'⟩ : ∃ ps', s'.ledger.Ok ps' := by
    rcases ledger_step hstep with heq | ⟨t, ht⟩
    · exact ⟨ps, heq ▸ hok⟩
    · exact hok.step ht
  refine ⟨ps', hok', ?_⟩
  have hlength : s.sh.log.pushed.length = s.sh.log.popped.length + ps.length := hok.length
  have hlength' : s'.sh.log.pushed.length = s'.sh.log.popped.length + ps'.length := hok'.length
  cases l with
  | worker i woken =>
    obtain ⟨-, pc, sh, signal, client, hdo, -, rfl⟩ := step_worker hstep
    obtain ⟨hpushed, hpopped⟩ := threadDo_pushed hdo
    simp only [hpushed] at hlength'
    omega
  | deliver i =>
    obtain ⟨-, -, rfl⟩ := step_deliver hstep
    simp only at hlength'
    omega
  | leave i b =>
    obtain ⟨-, -, pc, -, rfl⟩ := step_leave hstep
    simp only at hlength'
    omega
  | client c move =>
    obtain ⟨pc, sh, pending, rfl, ⟨hdo, -⟩ | ⟨k, -, -, rfl⟩⟩ := step_client hstep
    · obtain ⟨hpopped, hpushed | ⟨hpushes, hpushed⟩⟩ := clientDo_pushed hdo
      · simp only [hpopped, hpushed] at hlength'
        omega
      · have hlen : s.sh.queue.len.toNat = ps.length := hok.rep.toNat_len hlt
        have hroom := hcounts hpushes
        simp only [hpopped, hpushed] at hlength'
        omega
    · simp only at hlength'
      omega

/-- In a run whose steps `len` can count, it does. -/
theorem lenCounts_ok {ls : List (Label n C)} (h : Run (Guarded Step LenCounts) init ls s) :
    ∃ ps, s.ledger.Ok ps ∧ ps.length < 2 ^ 32 := by
  have hinit : ∃ ps, (init : State n C).ledger.Ok ps ∧ ps.length < 2 ^ 32 := by
    obtain ⟨ps, hok⟩ := ledger_ok (Run.refl : Run Step (init : State n C) [] init)
    have hlength : 0 = 0 + ps.length := hok.length
    exact ⟨ps, hok, by omega⟩
  refine h.invariant (I := fun s => ∃ ps, s.ledger.Ok ps ∧ ps.length < 2 ^ 32) ?_ hinit
  rintro s l s' ⟨ps, hok, hlt⟩ hstep
  exact lenCounts_step hok hlt hstep

end Runs

/-! ## A full queue -/

/-- One worker, which is blocked in `sem_wait` and has not been scheduled since, while its client has
added `k` jobs. -/
structure Filled (k : ℕ) (s : State 1 Unit) : Prop where
  worker : s.worker sole = .semWait
  client : s.client () = .out
  free : ∀ m, s.sh.owner m = none
  working : s.sh.threadWorking = 0
  unused : ∀ p, k < p → s.sh.queue.mem p = none
  pushed : s.sh.log.pushed.length = k
  popped : s.sh.log.popped = []
  added : s.sh.added = s.sh.log.pushed
  hasJob : s.sh.hasJob = min k semValueMax

/-- The steps of the worker up to its first `sem_wait`. -/
theorem filled_zero : ∃ s, Run (Step (n := 1) (C := Unit)) init
    (List.replicate 4 (.worker sole none)) s ∧ Filled 0 s := by
  refine ⟨_, Run.of_exec rfl, rfl, rfl, ?_, rfl, fun _ _ => rfl, rfl, rfl, rfl, rfl⟩
  intro m
  cases m <;> rfl

/-- `jobqueue_push` allocates nothing. -/
theorem push_unused {q q' : JobQueue} {job p : Ptr} (h : q.push job = some q') (hp : q.mem p = none) :
    q'.mem p = none := by
  unfold JobQueue.push at h
  split at h
  · rename_i t _
    simp only [JobQueue.setNext, Option.bind_eq_bind, Option.bind_eq_some_iff,
      Option.map_eq_some_iff] at h
    obtain ⟨q₁, ⟨node, hnode, rfl⟩, h⟩ := h
    cases h
    have hne : p ≠ t := by
      rintro rfl
      cases hp.symm.trans hnode
    exact (Function.update_of_ne hne _ _).trans hp
  · cases h
    exact hp

/-- The pool with its only client at `pc`. -/
def State.withClient (s : State n Unit) (pc : ClientPc) (sh : Shared n Unit) : State n Unit :=
  { s with client := fun _ => pc, sh }

theorem State.withClient_self {s : State n Unit} {pc : ClientPc} (h : s.client () = pc) :
    s.withClient pc s.sh = s := by
  subst h
  rfl

/-- The only client takes a step. -/
theorem step_withClient {s : State n Unit} {sh sh' : Shared n Unit} {pc pc' : ClientPc} {move : Move}
    (hne : ∀ k, pc ≠ .pausing k) (h : clientDo (.inr ()) sh pc move = some (pc', sh')) :
    Step (s.withClient pc sh) (.client () move) (s.withClient pc' sh') := by
  have hstep := step_of_clientDo (s := s.withClient pc sh) (c := ()) hne h
  have hupdate : Function.update (fun _ : Unit => pc) () pc' = fun _ => pc' :=
    funext fun _ => Function.update_self ..
  rw [State.withClient] at hstep
  simp only [hupdate] at hstep
  exact hstep

/-- The client adds one job more. -/
theorem filled_succ {s : State 1 Unit} {k : ℕ} (hok : ∃ ps, s.ledger.Ok ps) (h : Filled k s) :
    ∃ ls s', Run (Step (n := 1) (C := Unit)) s ls s' ∧ Filled (k + 1) s' := by
  let q₁ := s.sh.queue.setNode (k + 1) (some ⟨s.sh.log.calls, none⟩)
  let sh₁ := { s.sh with queue := q₁, log := { s.sh.log with calls := s.sh.log.calls + 1 } }
  let sh₂ := { sh₁ with owner := Function.update s.sh.owner .lock (some (.inr ())) }
  have hadd : Step s (.client () (.add (k + 1))) (s.withClient (.addLock (k + 1)) sh₁) := by
    rw [← s.withClient_self h.client]
    refine step_withClient nofun ?_
    exact if_neg (by simp [h.unused (k + 1) (Nat.lt_succ_self k)])
  have hlock : Step (s.withClient (.addLock (k + 1)) sh₁) (.client () .go)
      (s.withClient (.addBody (k + 1)) sh₂) := by
    refine step_withClient nofun ?_
    have hacq : sh₁.acquire .lock (.inr ()) = some sh₂ := if_pos (h.free .lock)
    rw [clientDo, hacq]
    rfl
  have hrun₂ := (Run.single hadd).tail hlock
  obtain ⟨ps, hok₂⟩ := ledger_ok_run hok hrun₂
  obtain ⟨call, q₃, hcall, hpush⟩ := hok₂.can_push (t := .inr ()) (p := k + 1) rfl
  let sh₃ := { sh₂ with queue := q₃, log := { sh₂.log with pushed := sh₂.log.pushed ++ [call] } }
  have hpushes : Step (s.withClient (.addBody (k + 1)) sh₂) (.client () .go)
      (s.withClient (.addUnlock call) sh₃) := by
    refine step_withClient nofun ?_
    simp only [clientDo, Option.bind_eq_bind]
    rw [show sh₂.queue.callAt (k + 1) = some call from hcall,
      show sh₂.queue.push (k + 1) = some q₃ from hpush]
    rfl
  let sh₄ := sh₃.release .lock
  have hunlock : Step (s.withClient (.addUnlock call) sh₃) (.client () .go)
      (s.withClient (.addPost call) sh₄) := step_withClient nofun rfl
  let sh₅ := { sh₄ with hasJob := semPost sh₄.hasJob, added := sh₄.added ++ [call] }
  have hpost : Step (s.withClient (.addPost call) sh₄) (.client () .go) (s.withClient .out sh₅) :=
    step_withClient nofun rfl
  refine ⟨_, _, ((hrun₂.tail hpushes).tail hunlock).tail hpost, h.worker, rfl, ?_, h.working, ?_, ?_,
    h.popped, ?_, ?_⟩
  · intro m
    cases m <;> simp [State.withClient, sh₅, sh₄, sh₃, sh₂, sh₁, Shared.release, h.free]
  · intro p hp
    refine push_unused hpush ?_
    have hne : p ≠ k + 1 := by omega
    exact (Function.update_of_ne hne _ _).trans (h.unused p (by omega))
  · show (s.sh.log.pushed ++ [call]).length = k + 1
    rw [List.length_append, h.pushed, List.length_singleton]
  · show s.sh.added ++ [call] = s.sh.log.pushed ++ [call]
    rw [h.added]
  · show semPost s.sh.hasJob = _
    rw [h.hasJob, semPost]
    split <;> omega

/-- The pool can be filled with any number of jobs. -/
theorem exists_filled (k : ℕ) : ∃ ls s, Run (Step (n := 1) (C := Unit)) init ls s ∧ Filled k s := by
  induction k with
  | zero =>
    obtain ⟨s, hrun, hs⟩ := filled_zero
    exact ⟨_, s, hrun, hs⟩
  | succ k ih =>
    obtain ⟨ls, s, hrun, hs⟩ := ih
    obtain ⟨ls', s', hrun', hs'⟩ := filled_succ (ledger_ok hrun) hs
    exact ⟨_, s', hrun.append hrun', hs'⟩

/-- What `len` is then. -/
theorem Filled.len {s : State 1 Unit} {k : ℕ} {ls : List (Label 1 Unit)} (h : Filled k s)
    (hrun : Run Step init ls s) : ∃ ps, s.ledger.Ok ps ∧ ps.length = k ∧
      s.sh.queue.len = UInt32.ofNat k := by
  obtain ⟨ps, hok⟩ := ledger_ok hrun
  have hlength : s.sh.log.pushed.length = s.sh.log.popped.length + ps.length := hok.length
  rw [h.pushed, h.popped, List.length_nil, Nat.zero_add] at hlength
  exact ⟨ps, hok, hlength.symm, hlength ▸ hok.rep.len⟩

/-! ## First in, first out -/

/-- In every run in which no `jobqueue_push` takes `len` past its greatest value the jobs popped are a
prefix of those pushed, no job's function is called twice, and the queue is well formed: `len` counts
the jobs linked from `head`, the last one is at `tail`, and both are null exactly when `len` is 0. -/
theorem jobs_fifo_once [DecidableEq C] [Fintype C] {s : State n C} {ls : List (Label n C)}
    (h : Run (Guarded Step LenCounts) init ls s) :
    s.sh.log.popped <+: s.sh.log.pushed ∧ s.sh.log.called.Nodup ∧
    (∃ ps, Chain s.sh.queue.nextOf s.sh.queue.head ps ∧ s.sh.queue.tail = ps.getLast? ∧
      s.sh.queue.len.toNat = ps.length) ∧
    (s.sh.queue.head = none ↔ s.sh.queue.len = 0) ∧
    (s.sh.queue.tail = none ↔ s.sh.queue.len = 0) := by
  obtain ⟨ps, hok, hlt⟩ := lenCounts_ok h
  have hlen : s.sh.queue.len.toNat = ps.length := hok.rep.toNat_len hlt
  have hzero : ps = [] ↔ s.sh.queue.len = 0 := by
    rw [← UInt32.toNat_inj, hlen]
    exact List.length_eq_zero_iff.symm
  obtain ⟨hhead, htail⟩ := hok.rep.null_iff
  exact ⟨popped_first (h.mono fun _ _ _ hstep => hstep.1), hok.called_nodup,
    ⟨ps, hok.rep.linked, hok.rep.tail, hlen⟩, hhead.trans hzero, htail.trans hzero⟩

/-- A client that adds a job, and the worker that runs it. -/
def addAndRun : List (Label 1 Unit) :=
  [.client () (.add 1), .client () .go, .client () .go, .client () .go, .client () .go,
    .client () (.add 2), .client () .go, .client () .go, .client () .go, .client () .go] ++
    List.replicate 16 (.worker sole none)

/-- Of two jobs the first has been popped and run. -/
theorem jobs_fifo_once_two : ∃ s, Run (Guarded (Step (n := 1) (C := Unit)) LenCounts) init addAndRun s ∧
    s.sh.log.pushed = [0, 1] ∧ s.sh.log.popped = [0] ∧ s.sh.log.called = [0] ∧
    s.sh.log.popped <+: s.sh.log.pushed ∧ s.sh.log.called.Nodup ∧ s.sh.queue.len = 1 := by
  obtain ⟨s, hrun, hread⟩ : ∃ s, Run (Guarded (Step (n := 1) (C := Unit)) LenCounts) init addAndRun s ∧
      (s.sh.log.pushed, s.sh.log.popped, s.sh.log.called, s.sh.queue.len) = ([0, 1], [0], [0], 1) :=
    Run.of_exec_guarded (by decide)
  simp only [Prod.mk.injEq] at hread
  obtain ⟨hpushed, hpopped, hcalled, hlen⟩ := hread
  obtain ⟨hfirst, hnodup, -⟩ := jobs_fifo_once hrun
  exact ⟨s, hrun, hpushed, hpopped, hcalled, hfirst, hnodup, hlen⟩

/-- With 2³² jobs in the queue `len` is 0. -/
theorem len_wraps : ∃ ls s, Run (Step (n := 1) (C := Unit)) init ls s ∧
    s.sh.log.pushed.length = 2 ^ 32 ∧ s.sh.log.popped = [] ∧
    ¬ ((∃ ps, Chain s.sh.queue.nextOf s.sh.queue.head ps ∧ s.sh.queue.len.toNat = ps.length) ∧
      (s.sh.queue.head = none ↔ s.sh.queue.len = 0)) := by
  obtain ⟨ls, s, hrun, hs⟩ := exists_filled (2 ^ 32)
  obtain ⟨ps, hok, hps, hlen⟩ := hs.len hrun
  refine ⟨ls, s, hrun, hs.pushed, hs.popped, ?_⟩
  rintro ⟨-, hnull⟩
  have hzero : s.sh.queue.len = 0 := hlen.trans (by decide)
  have hnil := (hok.rep.null_iff.1).mp (hnull.mpr hzero)
  rw [hnil] at hps
  cases hps

end Thpool

end Ulsp
