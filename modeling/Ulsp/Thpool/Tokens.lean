import Ulsp.Lib.Tally
import Ulsp.Thpool.Fifo

/-!
# No job is stranded

`jobqueue_push` and `sem_post` are separate steps, a `sem_wait` may return without a token, and a
worker may find the queue empty, so the semaphore and the length of the queue drift apart. They do so
in one direction only: with the workers that will still pop and the clients that will still post,
there are never fewer tokens than jobs. A `sem_post` at `SEM_VALUE_MAX` breaks this: it fails, and
`thpool_add_job` does not look at its result (`job_without_token`).
-/

namespace Ulsp

open Lib

namespace Thpool

/-- Whether a worker has left `sem_wait` and not yet taken from the queue. -/
def WorkerPc.leftSem : WorkerPc → Bool
  | runTest => true
  | lock .working => true
  | body .working => true
  | unlock .working _ => true
  | lock .pop => true
  | body .pop => true
  | _ => false

/-- Whether a client has pushed its job and not yet posted. -/
def ClientPc.posting : ClientPc → Bool
  | addUnlock _ => true
  | addPost _ => true
  | _ => false

/-- Whether a client is about to post. -/
def ClientPc.posts : ClientPc → Bool
  | addPost _ => true
  | _ => false

variable {n : ℕ} {C : Type}

/-- The step is no `sem_post` of a client at the greatest value of the semaphore. -/
def PostCounts (s : State n C) : Label n C → Prop
  | .client c _ => (s.client c).posts = true → s.sh.hasJob < semValueMax
  | _ => True

instance (s : State n C) (l : Label n C) : Decidable (PostCounts s l) :=
  match l with
  | .client c _ => inferInstanceAs (Decidable ((s.client c).posts = true → s.sh.hasJob < semValueMax))
  | .worker _ _ | .deliver _ | .leave _ _ => inferInstanceAs (Decidable True)

theorem le_semPost {value : ℕ} : value ≤ semPost value := by
  unfold semPost
  split <;> omega

/-- A worker that stops counting has posted, or popped a job, or found none. -/
theorem threadDo_tokens {t : Thread n C} {sh sh' : Shared n C} {pc pc' : WorkerPc} {signal : Bool}
    (h : threadDo t sh pc = some (pc', sh', signal)) (hrun : sh.running = true) :
    sh'.running = true ∧ (sh'.queue.len = 0 ∨
      sh'.queue.len.toNat + (sh.hasJob + pc.leftSem.toNat) ≤
        sh.queue.len.toNat + (sh'.hasJob + pc'.leftSem.toNat)) := by
  cases threadDo_cases h with
  | lock sec =>
    refine ⟨hrun, .inr ?_⟩
    cases sec <;> exact le_rfl
  | pop job q hpop =>
    cases job with
    | none =>
      obtain ⟨rfl, hlen⟩ := JobQueue.pop_none hpop
      exact ⟨hrun, .inl hlen⟩
    | some p =>
      have hlen := (JobQueue.pop_some hpop).2.1
      refine ⟨hrun, .inr ?_⟩
      simp only [WorkerPc.leftSem, Bool.toNat_true, Bool.toNat_false]
      omega
  | unlock sec job =>
    refine ⟨hrun, .inr ?_⟩
    cases sec <;> cases job <;> exact le_rfl
  | loopTest | runTest => exact ⟨hrun, .inr (by simp [hrun, WorkerPc.leftSem])⟩
  | semWait hpos =>
    refine ⟨hrun, .inr ?_⟩
    simp only [WorkerPc.leftSem, Bool.toNat_true, Bool.toNat_false]
    omega
  | repost =>
    have hle : sh.hasJob ≤ semPost sh.hasJob := le_semPost
    refine ⟨hrun, .inr ?_⟩
    simp only [WorkerPc.leftSem, Bool.toNat_false]
    omega
  | _ => exact ⟨hrun, .inr le_rfl⟩

/-- A client posts what it has pushed, unless the semaphore has its greatest value. -/
theorem clientDo_tokens {t : Thread n C} {sh sh' : Shared n C} {pc pc' : ClientPc} {move : Move}
    (h : clientDo t sh pc move = some (pc', sh')) (hpost : pc.posts = true → sh.hasJob < semValueMax) :
    sh'.running = sh.running ∧ sh'.queue.len.toNat + (sh.hasJob + pc.posting.toNat) ≤
      sh.queue.len.toNat + (sh'.hasJob + pc'.posting.toNat) := by
  cases clientDo_cases h with
  | push job call q hcall hpush =>
    have hlen := JobQueue.push_len hpush
    refine ⟨rfl, ?_⟩
    simp only [ClientPc.posting, Bool.toNat_true, Bool.toNat_false]
    omega
  | addPost call =>
    refine ⟨rfl, ?_⟩
    simp only [ClientPc.posting, Bool.toNat_true, Bool.toNat_false, semPost, if_pos (hpost rfl)]
    omega
  | waitLen before | waitWorking before => split <;> exact ⟨rfl, le_rfl⟩
  | _ => exact ⟨rfl, le_rfl⟩

section Runs

variable [DecidableEq C] [Fintype C] {s s' : State n C} {l : Label n C}

/-- The tokens of a state: those in the semaphore, those of the workers that have left `sem_wait`,
and those that clients are about to post. -/
def State.tokens (s : State n C) : ℕ :=
  s.sh.hasJob + count WorkerPc.leftSem s.worker + count ClientPc.posting s.client

/-- The invariant: the pool is running and has a token for every job in the queue. -/
def State.Covered (s : State n C) : Prop := s.sh.running = true ∧ s.sh.queue.len.toNat ≤ s.tokens

/-- Every step that posts what it should keeps the invariant. -/
theorem covered_step (hs : s.Covered) (hstep : Guarded Step PostCounts s l s') : s'.Covered := by
  obtain ⟨hrun, hlen⟩ := hs
  obtain ⟨h, hpost⟩ := hstep
  unfold State.tokens at hlen
  cases l with
  | worker i woken =>
    obtain ⟨-, pc, sh, signal, client, hdo, hnotify, rfl⟩ := step_worker h
    obtain ⟨hrun', hcase⟩ := threadDo_tokens hdo hrun
    have hworker := count_update WorkerPc.leftSem s.worker i pc
    have hclient : count ClientPc.posting client = count ClientPc.posting s.client :=
      count_congr (notify_congr (fun _ => rfl) hnotify)
    refine ⟨hrun', ?_⟩
    simp only [State.tokens, hclient]
    rcases hcase with hzero | hle
    · simp [hzero]
    · omega
  | deliver i =>
    obtain ⟨-, -, rfl⟩ := step_deliver h
    exact ⟨hrun, hlen⟩
  | leave i b =>
    obtain ⟨-, -, pc, hpc, rfl⟩ := step_leave h
    have hworker := count_update WorkerPc.leftSem s.worker i pc
    have hle : (s.worker i).leftSem.toNat ≤ pc.leftSem.toNat := by
      rcases hpc with rfl | ⟨hsem, rfl⟩
      · exact le_rfl
      · rw [hsem]
        exact Nat.zero_le _
    refine ⟨hrun, ?_⟩
    simp only [State.tokens]
    omega
  | client c move =>
    obtain ⟨pc, sh, pending, rfl, hcase⟩ := step_client h
    have hclient := count_update ClientPc.posting s.client c pc
    rcases hcase with ⟨hdo, -⟩ | ⟨k, hk, hpc, rfl⟩
    · obtain ⟨hrun', hle⟩ := clientDo_tokens hdo hpost
      refine ⟨hrun'.trans hrun, ?_⟩
      simp only [State.tokens]
      omega
    · have hsame : pc.posting = (s.client c).posting := by
        rcases hpc with rfl | rfl <;> rw [hk] <;> rfl
      rw [hsame] at hclient
      refine ⟨hrun, ?_⟩
      simp only [State.tokens]
      omega

/-- In every state of a run in which no `jobqueue_push` takes `len` past its greatest value and no
client posts at that of the semaphore, the semaphore, the workers that have left `sem_wait` and not
taken from the queue, and the clients between `jobqueue_push` and `sem_post` cover the queue. So when
all workers are blocked in `sem_wait`, the semaphore is 0 and no client is in `thpool_add_job`, the
queue is empty. -/
theorem no_job_stranded {ls : List (Label n C)}
    (h : Run (Guarded Step fun s l => LenCounts s l ∧ PostCounts s l) init ls s) :
    s.sh.queue.len.toNat ≤
      s.sh.hasJob + count WorkerPc.leftSem s.worker + count ClientPc.posting s.client ∧
    ((∀ i, s.worker i = .semWait) → s.sh.hasJob = 0 → (∀ c, (s.client c).posting = false) →
      s.sh.queue.len = 0 ∧ s.sh.queue.head = none) := by
  have hinit : (init : State n C).Covered := ⟨rfl, Nat.zero_le _⟩
  have hpost : Run (Guarded Step PostCounts) init ls s :=
    h.mono fun _ _ _ hstep => ⟨hstep.1, hstep.2.2⟩
  have hcov := (hpost.invariant (fun _ _ _ hs hstep => covered_step hs hstep) hinit).2
  refine ⟨hcov, ?_⟩
  intro hsem htok hposting
  have hworker : count WorkerPc.leftSem s.worker = 0 :=
    count_eq_zero.mpr fun i => by rw [hsem i]; rfl
  have hclient : count ClientPc.posting s.client = 0 := count_eq_zero.mpr hposting
  unfold State.tokens at hcov
  have hzero : s.sh.queue.len.toNat = 0 := by omega
  obtain ⟨ps, hok, hlt⟩ := lenCounts_ok (h.mono fun _ _ _ hstep => ⟨hstep.1, hstep.2.1⟩)
  have hps : ps = [] := List.eq_nil_of_length_eq_zero ((hok.rep.toNat_len hlt).symm.trans hzero)
  exact ⟨UInt32.toNat_inj.mp hzero, hok.rep.null_iff.1.mpr hps⟩

end Runs

/-- Of two jobs that are added one is taken by the worker, which has left `sem_wait`: the other one is
covered by the client that has not posted it yet. -/
theorem no_job_stranded_two : ∃ s, Run (Guarded (Step (n := 1) (C := Unit)) fun s l =>
      LenCounts s l ∧ PostCounts s l) init
      ([.client () (.add 1), .client () .go, .client () .go, .client () .go, .client () .go] ++
        List.replicate 6 (.worker sole none) ++
          [.client () (.add 2), .client () .go, .client () .go]) s ∧
    s.sh.queue.len = 2 ∧ s.sh.hasJob = 0 ∧ s.sh.queue.len.toNat ≤
      s.sh.hasJob + count WorkerPc.leftSem s.worker + count ClientPc.posting s.client := by
  obtain ⟨s, hrun, hread⟩ : ∃ s, Run (Guarded (Step (n := 1) (C := Unit)) fun s l =>
      LenCounts s l ∧ PostCounts s l) init
      ([.client () (.add 1), .client () .go, .client () .go, .client () .go, .client () .go] ++
        List.replicate 6 (.worker sole none) ++
          [.client () (.add 2), .client () .go, .client () .go]) s ∧
      (s.sh.queue.len, s.sh.hasJob) = (2, 0) := Run.of_exec_guarded (by decide)
  obtain ⟨hlen, hjob⟩ := Prod.mk.inj hread
  exact ⟨s, hrun, hlen, hjob, (no_job_stranded hrun).1⟩

/-- When 2³¹ jobs are added before the worker is scheduled, the last `sem_post` fails, and there are
fewer tokens than jobs. -/
theorem job_without_token : ∃ ls s, Run (Step (n := 1) (C := Unit)) init ls s ∧
    s.sh.queue.len.toNat = 2 ^ 31 ∧ ¬ s.sh.queue.len.toNat ≤
      s.sh.hasJob + count WorkerPc.leftSem s.worker + count ClientPc.posting s.client := by
  obtain ⟨ls, s, hrun, hs⟩ := exists_filled (2 ^ 31)
  obtain ⟨ps, -, -, hlen⟩ := hs.len hrun
  have hlen' : s.sh.queue.len.toNat = 2 ^ 31 := by
    rw [hlen]
    decide
  have hworker : count WorkerPc.leftSem s.worker = 0 := count_eq_zero.mpr fun i => by
    obtain rfl := Subsingleton.elim i sole
    rw [hs.worker]
    rfl
  have hclient : count ClientPc.posting s.client = 0 := count_eq_zero.mpr fun c => by
    rw [show s.client c = .out from hs.client]
    rfl
  refine ⟨ls, s, hrun, hlen', ?_⟩
  rw [hlen', hs.hasJob, hworker, hclient]
  decide

end Thpool

end Ulsp
