import Ulsp.Lib.Tally
import Ulsp.Thpool.Fifo

/-!
# What `thpool_wait` promises

`thpool_wait` reads the length of the queue without its lock and `thread_working` after it. A worker
raises `thread_working` before it pops and lowers it when its job has finished, so `thread_working`
counts the workers in between (`working_of_run`), and jobs that were popped when the queue was seen
empty have finished when `thread_working` is then seen 0. `ClientPc.Promise` says what a call has
established at each of its steps. That the queue is empty is seen by its `len`, which is 0 with 2³²
jobs in the queue too (`wait_overflows`).
-/

namespace Ulsp

open Lib

namespace Thpool

/-- Whether a worker is between `++thread_working` and `--thread_working`. -/
def WorkerPc.atWork : WorkerPc → Bool
  | unlock .working _ => true
  | lock .pop => true
  | body .pop => true
  | unlock .pop _ => true
  | callFun _ => true
  | inFun _ _ => true
  | freeJob _ => true
  | lock .idle => true
  | body .idle => true
  | _ => false

/-- The jobs a call of `thpool_wait` has to wait for. -/
def ClientPc.before : ClientPc → Option (List ℕ)
  | waitLock b => some b
  | waitLen b => some b
  | waitWorking b => some b
  | waitBlock b => some b
  | asleep b => some b
  | waitUnlock b => some b
  | _ => none

/-- What a client has established at each step of a call. -/
def ClientPc.Promise (log : Log) : ClientPc → Prop
  | addUnlock call => call ∈ log.pushed
  | addPost call => call ∈ log.pushed
  | waitLock b => b ⊆ log.pushed
  | waitLen b => b ⊆ log.pushed
  | waitWorking b => b ⊆ log.pushed ∧ b ⊆ log.popped
  | waitBlock b => b ⊆ log.pushed
  | asleep b => b ⊆ log.pushed
  | waitUnlock b => b ⊆ log.popped ∧ b ⊆ log.finished
  | _ => True

variable {n : ℕ} {C : Type} {t : Thread n C} {sh sh' : Shared n C} {move : Move}

/-- `thread_working` changes with the worker. -/
theorem threadDo_working {pc pc' : WorkerPc} {signal : Bool}
    (h : threadDo t sh pc = some (pc', sh', signal)) : sh'.added = sh.added ∧
    sh'.threadWorking + pc.atWork.toNat = sh.threadWorking + pc'.atWork.toNat := by
  cases threadDo_cases h with
  | lock sec => cases sec <;> exact ⟨rfl, rfl⟩
  | working | idle => exact ⟨rfl, by simp [WorkerPc.atWork]⟩
  | unlock sec job => cases sec <;> cases job <;> exact ⟨rfl, rfl⟩
  | loopTest | runTest => cases sh.running <;> exact ⟨rfl, rfl⟩
  | _ => exact ⟨rfl, rfl⟩

/-- The lists of the log only grow. -/
structure Log.Grows (log log' : Log) : Prop where
  pushed : log.pushed ⊆ log'.pushed
  popped : log.popped ⊆ log'.popped
  finished : log.finished ⊆ log'.finished

theorem JobStep.grows {st st' : Stage} {q q' : JobQueue} {log log' : Log}
    (h : JobStep st q log st' q' log') : log.Grows log' := by
  cases h with
  | push => exact ⟨List.subset_append_left _ _, .refl _, .refl _⟩
  | pop => exact ⟨.refl _, List.subset_append_left _ _, .refl _⟩
  | finish => exact ⟨.refl _, .refl _, List.subset_append_left _ _⟩
  | _ => exact ⟨.refl _, .refl _, .refl _⟩

theorem Ledger.Step.grows {T : Type} [DecidableEq T] {l l' : Ledger T} {t : T}
    (h : l.Step t l') : l.log.Grows l'.log := by
  obtain ⟨st, q, log, hjob⟩ := h
  exact hjob.grows

/-- What is established stays so. -/
theorem ClientPc.Promise.mono {log log' : Log} {pc : ClientPc} (h : pc.Promise log)
    (hlog : log.Grows log') : pc.Promise log' := by
  cases pc with
  | addUnlock call => exact hlog.pushed h
  | addPost call => exact hlog.pushed h
  | waitLock b => exact List.Subset.trans h hlog.pushed
  | waitLen b => exact List.Subset.trans h hlog.pushed
  | waitWorking b => exact ⟨List.Subset.trans h.1 hlog.pushed, List.Subset.trans h.2 hlog.popped⟩
  | waitBlock b => exact List.Subset.trans h hlog.pushed
  | asleep b => exact List.Subset.trans h hlog.pushed
  | waitUnlock b => exact ⟨List.Subset.trans h.1 hlog.popped, List.Subset.trans h.2 hlog.finished⟩
  | _ => trivial

/-- A client's step establishes what the next one relies on: an empty queue shows that the jobs were
popped, and `thread_working` at 0 that those popped have finished. -/
theorem clientDo_promise {pc pc' : ClientPc} (h : clientDo t sh pc move = some (pc', sh'))
    (hpc : pc.Promise sh.log) (hadded : sh.added ⊆ sh.log.pushed)
    (hlen : sh.queue.len = 0 → sh.log.pushed ⊆ sh.log.popped)
    (hworking : sh.threadWorking = 0 → sh.log.popped ⊆ sh.log.finished) :
    pc'.Promise sh'.log ∧ sh'.added ⊆ sh'.log.pushed ∧
      ∀ b, pc.before = some b → pc' = .out ∧ pc = .waitUnlock b ∨ pc'.before = some b := by
  cases clientDo_cases h with
  | push job call q =>
    exact ⟨by simp [ClientPc.Promise], List.Subset.trans hadded (List.subset_append_left _ _), nofun⟩
  | addUnlock call => exact ⟨hpc, hadded, nofun⟩
  | addPost call =>
    exact ⟨trivial, List.append_subset.mpr ⟨hadded, by simpa [ClientPc.Promise] using hpc⟩, nofun⟩
  | wait => exact ⟨hadded, hadded, nofun⟩
  | waitLock before => exact ⟨hpc, hadded, fun b hb => .inr hb⟩
  | waitLen before =>
    split
    · exact ⟨⟨hpc, List.Subset.trans hpc (hlen ‹_›)⟩, hadded, fun b hb => .inr hb⟩
    · exact ⟨hpc, hadded, fun b hb => .inr hb⟩
  | waitWorking before =>
    split
    · exact ⟨⟨hpc.2, List.Subset.trans hpc.2 (hworking ‹_›)⟩, hadded, fun b hb => .inr hb⟩
    · exact ⟨hpc.1, hadded, fun b hb => .inr hb⟩
  | waitBlock before | wake before => exact ⟨hpc, hadded, fun b hb => .inr hb⟩
  | waitUnlock before =>
    refine ⟨trivial, hadded, fun b hb => .inl ⟨rfl, ?_⟩⟩
    simpa [ClientPc.before] using hb
  | _ => exact ⟨trivial, hadded, nofun⟩

/-- A client leaves `thread_working` alone. -/
theorem clientDo_working {pc pc' : ClientPc} (h : clientDo t sh pc move = some (pc', sh')) :
    sh'.threadWorking = sh.threadWorking := by
  cases clientDo_cases h <;> rfl

section Runs

variable {s s' : State n C} {l : Label n C} {c : C}

/-- The invariant: what is known of the jobs, of which `len` counts those in the queue, that
`thread_working` counts the workers at work, and what every client has established. -/
structure State.Counted (s : State n C) : Prop where
  ledger : ∃ ps, s.ledger.Ok ps ∧ ps.length < 2 ^ 32
  working : s.sh.threadWorking = count WorkerPc.atWork s.worker
  added : s.sh.added ⊆ s.sh.log.pushed
  promise : ∀ c, (s.client c).Promise s.sh.log

/-- A worker that has popped a job and not finished it is at work. -/
theorem atWork_of_stage {pc : WorkerPc} {p : Ptr} {j : ℕ}
    (h : pc.stage = .popped p ∨ pc.stage = .calling p j) : pc.atWork = true := by
  cases pc with
  | unlock sec job => cases sec <;> cases job <;> simp_all [WorkerPc.stage, WorkerPc.atWork]
  | callFun job => rfl
  | inFun job call => rfl
  | _ => simp [WorkerPc.stage] at h

/-- With the queue empty, all jobs have been popped. -/
theorem State.Counted.popped (hs : s.Counted) (hlen : s.sh.queue.len = 0) :
    s.sh.log.pushed ⊆ s.sh.log.popped := by
  obtain ⟨ps, hok, hlt⟩ := hs.ledger
  obtain ⟨cs, hcs, hsplit⟩ := hok.split
  have hzero : ps.length = 0 := (hok.rep.toNat_len hlt).symm.trans (UInt32.toNat_inj.mpr hlen)
  have hps : ps = [] := List.eq_nil_of_length_eq_zero hzero
  have hnil : cs = [] := by simpa [hps] using hcs
  have heq : s.sh.log.pushed = s.sh.log.popped := by simpa [hnil, State.ledger] using hsplit
  rw [heq]
  exact List.Subset.refl _

/-- With no worker at work, all jobs popped have finished. -/
theorem State.Counted.finished (hs : s.Counted) (hworking : s.sh.threadWorking = 0) :
    s.sh.log.popped ⊆ s.sh.log.finished := by
  intro j hj
  obtain ⟨ps, hok, -⟩ := hs.ledger
  have hcount : count WorkerPc.atWork s.worker = 0 := by
    have := hs.working
    omega
  rcases hok.done j hj with hfin | ⟨t, p, hstage, -⟩
  · exact hfin
  · rcases t with i | c
    · have hat : (s.worker i).atWork = true := atWork_of_stage hstage
      rw [count_eq_zero.mp hcount i] at hat
      cases hat
    · have hclient : (s.client c).stage = .popped p ∨ (s.client c).stage = .calling p j := hstage
      cases hc : s.client c <;> simp [hc, ClientPc.stage] at hclient

variable [DecidableEq C] [Fintype C]

/-- A step keeps `thread_working` the number of the workers at work. -/
theorem working_step (hs : s.sh.threadWorking = count WorkerPc.atWork s.worker) (h : Step s l s') :
    s'.sh.threadWorking = count WorkerPc.atWork s'.worker := by
  cases l with
  | worker i woken =>
    obtain ⟨-, pc, sh, signal, client, hdo, -, rfl⟩ := step_worker h
    have hmove := (threadDo_working hdo).2
    have hcount := count_update WorkerPc.atWork s.worker i pc
    show sh.threadWorking = count WorkerPc.atWork (Function.update s.worker i pc)
    omega
  | deliver i =>
    obtain ⟨-, -, rfl⟩ := step_deliver h
    exact hs
  | leave i b =>
    obtain ⟨-, -, pc, hpc, rfl⟩ := step_leave h
    have hcount := count_update WorkerPc.atWork s.worker i pc
    have hsame : pc.atWork = (s.worker i).atWork := by
      rcases hpc with rfl | ⟨hsem, rfl⟩
      · rfl
      · rw [hsem]
        rfl
    rw [hsame] at hcount
    show s.sh.threadWorking = count WorkerPc.atWork (Function.update s.worker i pc)
    omega
  | client c move =>
    obtain ⟨pc, sh, pending, rfl, ⟨hdo, -⟩ | ⟨k, -, -, rfl⟩⟩ := step_client h
    · exact (clientDo_working hdo).trans hs
    · exact hs

/-- In every reachable state `thread_working` is the number of the workers at work. -/
theorem working_of_run {ls : List (Label n C)} (h : Run Step init ls s) :
    s.sh.threadWorking = count WorkerPc.atWork s.worker := by
  refine h.invariant (I := fun s : State n C => s.sh.threadWorking = count WorkerPc.atWork s.worker)
    (fun s l s' hs hstep => working_step hs hstep) ?_
  have hnone : count WorkerPc.atWork (init : State n C).worker = 0 :=
    count_eq_zero.mpr fun i => rfl
  rw [hnone]
  rfl

/-- A step keeps the invariant, and a client that is in `thpool_wait` goes on waiting for the same
jobs, or returns. -/
theorem counted_step (hs : s.Counted) (hstep : Guarded Step LenCounts s l s') : s'.Counted ∧
    ∀ c b, (s.client c).before = some b →
      s'.client c = .out ∧ s.client c = .waitUnlock b ∨ (s'.client c).before = some b := by
  have h := hstep.1
  have hledger : ∃ ps, s'.ledger.Ok ps ∧ ps.length < 2 ^ 32 := by
    obtain ⟨ps, hok, hlt⟩ := hs.ledger
    exact lenCounts_step hok hlt hstep
  have hworking := working_step hs.working h
  cases l with
  | worker i woken =>
    obtain ⟨-, pc, sh, signal, client, hdo, hnotify, rfl⟩ := step_worker h
    have hadded := (threadDo_working hdo).1
    have hgrows := (threadDo_job hdo).grows
    refine ⟨⟨hledger, hworking, ?_, ?_⟩, fun c b hb => .inr ?_⟩
    · exact hadded ▸ List.Subset.trans hs.added hgrows.pushed
    · intro c
      have hsame := notify_congr (g := (·.Promise sh.log)) (fun _ => rfl) hnotify c
      exact hsame.mpr ((hs.promise c).mono hgrows)
    · exact (notify_congr (fun _ => rfl) hnotify c).trans hb
  | deliver i =>
    obtain ⟨-, -, rfl⟩ := step_deliver h
    exact ⟨⟨hledger, hworking, hs.added, hs.promise⟩, fun c b hb => .inr hb⟩
  | leave i b =>
    obtain ⟨-, -, pc, -, rfl⟩ := step_leave h
    exact ⟨⟨hledger, hworking, hs.added, hs.promise⟩, fun c b hb => .inr hb⟩
  | client c move =>
    obtain ⟨pc, sh, pending, rfl, hcase⟩ := step_client h
    rcases hcase with ⟨hdo, -⟩ | ⟨k, hk, hpc, rfl⟩
    · obtain ⟨hprom, hadded, hbefore⟩ :=
        clientDo_promise hdo (hs.promise c) hs.added hs.popped hs.finished
      have hgrows := (clientDo_job hdo).grows
      refine ⟨⟨hledger, hworking, hadded, ?_⟩, ?_⟩
      · intro d
        rcases eq_or_ne d c with rfl | hd
        · simpa using hprom
        · simpa [Function.update_of_ne hd] using (hs.promise d).mono hgrows
      · intro d b hb
        rcases eq_or_ne d c with rfl | hd
        · simpa using hbefore b hb
        · exact .inr (by simpa [Function.update_of_ne hd] using hb)
    · refine ⟨⟨hledger, hworking, hs.added, ?_⟩, ?_⟩
      · intro d
        rcases eq_or_ne d c with rfl | hd
        · rcases hpc with rfl | rfl <;> simp [ClientPc.Promise]
        · simpa [Function.update_of_ne hd] using hs.promise d
      · intro d b hb
        rcases eq_or_ne d c with rfl | hd
        · rw [hk] at hb
          cases hb
        · exact .inr (by simpa [Function.update_of_ne hd] using hb)

/-- Every state of a run that `len` can count satisfies the invariant. -/
theorem counted_of_run {ls : List (Label n C)} (h : Run (Guarded Step LenCounts) init ls s) :
    s.Counted := by
  refine h.invariant (I := State.Counted) (fun s l s' hs hstep => (counted_step hs hstep).1) ?_
  exact ⟨lenCounts_ok .refl, working_of_run .refl, List.Subset.refl _, fun c => trivial⟩

/-- Over any steps during which a client does not return, it waits for the same jobs. -/
theorem before_of_run {ls : List (Label n C)} {b : List ℕ} (hs : s.Counted)
    (hb : (s.client c).before = some b)
    (h : Run (Guarded Step fun s l => s.client c ≠ .out ∧ LenCounts s l) s ls s')
    (hin : s'.client c ≠ .out) : s'.Counted ∧ (s'.client c).before = some b := by
  have hrun : s'.Counted ∧ (s'.client c = .out ∨ (s'.client c).before = some b) := by
    refine h.invariant
      (I := fun s => s.Counted ∧ (s.client c = .out ∨ (s.client c).before = some b)) ?_ ⟨hs,
      .inr hb⟩
    intro s l s' hs hstep
    obtain ⟨hcounted, hwait⟩ := counted_step hs.1 ⟨hstep.1, hstep.2.2⟩
    refine ⟨hcounted, ?_⟩
    rcases hwait c b (hs.2.resolve_left hstep.2.1) with ⟨hout, -⟩ | hbefore
    · exact .inl hout
    · exact .inr hbefore
  exact ⟨hrun.1, hrun.2.resolve_left hin⟩

/-- Let `thpool_wait` be called in a reachable state, and let it return after any steps of all
threads, none of them a `jobqueue_push` that takes `len` past its greatest value. Then every job whose
`thpool_add_job` had returned before the call has been popped, and its function has finished. -/
theorem wait_returns {ls ls' : List (Label n C)} {s₁ s₂ s₃ s₄ : State n C} {l : Label n C}
    (h₁ : Run (Guarded Step LenCounts) init ls s₁) (hout : s₁.client c = .out)
    (hcall : Step s₁ (.client c .wait) s₂)
    (hin : Run (Guarded Step fun s l => s.client c ≠ .out ∧ LenCounts s l) s₂ ls' s₃)
    (h₃ : s₃.client c ≠ .out) (hret : Guarded Step LenCounts s₃ l s₄) (h₄ : s₄.client c = .out) :
    ∀ j ∈ s₁.sh.added, j ∈ s₄.sh.log.popped ∧ j ∈ s₄.sh.log.finished := by
  have hcounts : LenCounts s₁ (.client c .wait) := by
    intro hpushes
    rw [hout] at hpushes
    cases hpushes
  have hs₂ := (counted_step (counted_of_run h₁) ⟨hcall, hcounts⟩).1
  have hbefore₂ : (s₂.client c).before = some s₁.sh.added := by
    obtain ⟨pc, sh, pending, rfl, hcase⟩ := step_client hcall
    rcases hcase with ⟨hdo, -⟩ | ⟨k, hk, -⟩
    · rw [hout] at hdo
      cases hdo
      simp [ClientPc.before]
    · cases hout.symm.trans hk
  obtain ⟨hs₃, hbefore₃⟩ := before_of_run hs₂ hbefore₂ hin h₃
  rcases (counted_step hs₃ hret).2 c _ hbefore₃ with ⟨-, hunlock⟩ | hbefore₄
  · have hprom := hs₃.promise c
    rw [hunlock] at hprom
    have hgrows : s₃.sh.log.Grows s₄.sh.log := by
      rcases ledger_step hret.1 with heq | ⟨t, ht⟩
      · have hlog : s₄.sh.log = s₃.sh.log := congrArg Ledger.log heq
        rw [hlog]
        exact ⟨.refl _, .refl _, .refl _⟩
      · exact ht.grows
    exact fun j hj => ⟨hgrows.popped (hprom.1 hj), hgrows.finished (hprom.2 hj)⟩
  · rw [h₄] at hbefore₄
    cases hbefore₄

end Runs

/-- A client that adds a job and, when the worker has run it, waits: the first `k` steps of its
`thpool_wait`. -/
def oneJobThenWait (k : ℕ) : List (Label 1 Unit) :=
  [.client () (.add 1), .client () .go, .client () .go, .client () .go, .client () .go] ++
    List.replicate 19 (.worker sole none) ++
    (Label.client () .wait :: List.replicate 4 (.client () .go)).take k

/-- That call returns, with the job popped and finished. -/
theorem wait_returns_one : ∃ s : State 1 Unit,
    exec (guardedNext next LenCounts) init (oneJobThenWait 5) = some s ∧
    s.client () = .out ∧ 0 ∈ s.sh.log.popped ∧ 0 ∈ s.sh.log.finished := by
  have hstate : ∀ k, (exec (guardedNext next LenCounts) (init : State 1 Unit)
        (oneJobThenWait k)).isSome = true →
      ∃ s, exec (guardedNext next LenCounts) init (oneJobThenWait k) = some s :=
    fun k => Option.isSome_iff_exists.mp
  have hclient : ∀ {k} {s : State 1 Unit} (pc : ClientPc),
      exec (guardedNext next LenCounts) init (oneJobThenWait k) = some s →
      (exec (guardedNext next LenCounts) init (oneJobThenWait k)).map (fun s => s.client ()) = some pc →
      s.client () = pc := fun pc h h' => by simpa [h] using h'
  obtain ⟨s₁, e₁⟩ := hstate 0 rfl
  obtain ⟨s₂, e₂⟩ := hstate 1 rfl
  obtain ⟨t₁, f₁⟩ := hstate 2 rfl
  obtain ⟨t₂, f₂⟩ := hstate 3 rfl
  obtain ⟨s₃, e₃⟩ := hstate 4 rfl
  obtain ⟨s₄, e₄⟩ := hstate 5 rfl
  have hadded : s₁.sh.added = [0] := by
    have : (exec (guardedNext next LenCounts) (init : State 1 Unit) (oneJobThenWait 0)).map
      (fun s => s.sh.added) = some [0] := rfl
    simpa [e₁] using this
  have hrun₁ : ∃ t, Run (Guarded Step LenCounts) init (oneJobThenWait 0) t ∧ t = s₁ :=
    Run.of_exec_guarded (f := id) (by rw [e₁]; rfl)
  obtain ⟨_, hrun₁, rfl⟩ := hrun₁
  have hstep : ∀ {s t : State 1 Unit} {l : Label 1 Unit}, guardedNext next LenCounts s l = some t →
      s.client () ≠ .out → Guarded Step (fun s l => s.client () ≠ .out ∧ LenCounts s l) s l t :=
    fun h hne => ⟨(Guarded.of_next h).1, hne, (Guarded.of_next h).2⟩
  have hin : Run (Guarded Step fun s l => s.client () ≠ .out ∧ LenCounts s l) s₂
      ([] ++ [.client () .go] ++ [.client () .go] ++ [.client () .go]) s₃ := by
    refine ((Run.refl.tail (hstep (exec_tail e₂ f₁) ?_)).tail (hstep (exec_tail f₁ f₂) ?_)).tail
      (hstep (exec_tail f₂ e₃) ?_)
    · simp [hclient (.waitLock [0]) e₂ rfl]
    · simp [hclient (.waitLen [0]) f₁ rfl]
    · simp [hclient (.waitWorking [0]) f₂ rfl]
  have hlast : s₃.client () ≠ .out := by simp [hclient (.waitUnlock [0]) e₃ rfl]
  have hout := hclient .out e₄ rfl
  exact ⟨s₄, e₄, hout, wait_returns hrun₁ (hclient .out e₁ rfl) (Guarded.of_next (exec_tail e₁ e₂)).1
    hin hlast (Guarded.of_next (exec_tail e₃ e₄)) hout 0 (by simp [hadded])⟩

/-- With 2³² jobs in the queue, of which none has been popped, `thpool_wait` returns. -/
theorem wait_overflows : ∃ ls s₁ s₂ s₃ s₄, Run (Step (n := 1) (C := Unit)) init ls s₁ ∧
    s₁.client () = .out ∧ Step s₁ (.client () .wait) s₂ ∧
    Run (Guarded Step fun s _ => s.client () ≠ .out) s₂
      [.client () .go, .client () .go, .client () .go] s₃ ∧
    s₃.client () ≠ .out ∧ Step s₃ (.client () .go) s₄ ∧ s₄.client () = .out ∧
    s₁.sh.added.length = 2 ^ 32 ∧ s₄.sh.log.popped = [] := by
  obtain ⟨ls, s, hrun, hs⟩ := exists_filled (2 ^ 32)
  obtain ⟨-, -, -, hlen⟩ := hs.len hrun
  have hzero : s.sh.queue.len = 0 := hlen.trans (by decide)
  let held : Shared 1 Unit :=
    { s.sh with owner := Function.update s.sh.owner .countLocker (some (.inr ())) }
  have hcall : Step s (.client () .wait) (s.withClient (.waitLock s.sh.added) s.sh) := by
    have hstep : Step (s.withClient .out s.sh) (.client () .wait)
        (s.withClient (.waitLock s.sh.added) s.sh) := step_withClient (fun _ h => by cases h) rfl
    rwa [s.withClient_self hs.client] at hstep
  have hlock : Step (s.withClient (.waitLock s.sh.added) s.sh) (.client () .go)
      (s.withClient (.waitLen s.sh.added) held) := by
    refine step_withClient (fun _ h => by cases h) ?_
    have hacq : s.sh.acquire .countLocker (.inr ()) = some held := if_pos (hs.free .countLocker)
    rw [clientDo, hacq]
    rfl
  have hlen₀ : Step (s.withClient (.waitLen s.sh.added) held) (.client () .go)
      (s.withClient (.waitWorking s.sh.added) held) := by
    refine step_withClient (fun _ h => by cases h) ?_
    rw [clientDo, if_pos hzero]
  have hworking : Step (s.withClient (.waitWorking s.sh.added) held) (.client () .go)
      (s.withClient (.waitUnlock s.sh.added) held) := by
    refine step_withClient (fun _ h => by cases h) ?_
    rw [clientDo, if_pos hs.working]
  have hret : Step (s.withClient (.waitUnlock s.sh.added) held) (.client () .go)
      (s.withClient .out (held.release .countLocker)) := step_withClient (fun _ h => by cases h) rfl
  refine ⟨ls, s, _, _, _, hrun, hs.client, hcall,
    ((Run.single ⟨hlock, (fun h => by cases h)⟩).tail ⟨hlen₀, (fun h => by cases h)⟩).tail
      ⟨hworking, (fun h => by cases h)⟩, (fun h => by cases h), hret, rfl, ?_, hs.popped⟩
  rw [hs.added, hs.pushed]

end Thpool

end Ulsp
