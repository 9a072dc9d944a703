import Ulsp.Lib.Run

/-!
# A thread that is cancelled in a condition wait (`threads/thread_cleanup.c`)

The thread allocates a block, takes the mutex and pushes `cleanupHandler`, which frees the block and
releases the mutex, and then waits until `glob` is set. `main` either cancels it or sets `glob` and
signals. A cancellation takes effect at a `printf` or in `pthread_cond_wait`, and there only after the
mutex is taken again; a `printf` of the handler is such a point too when the handler is run by
`pthread_cleanup_pop`, which has taken it off by then. A wait may end without a signal.

However the two go on, `main` joins the thread, and the mutex is free and the block freed once by then,
unless the cancellation came before the handler was pushed (`joined_clean`).
-/

namespace Ulsp

open Lib

namespace ThreadCleanup

/-- Who holds the mutex. -/
inductive Owner where
  | thread
  | main
  deriving DecidableEq, Repr

/-- Where `cleanupHandler` is: at its first `printf`, at `free`, at its second `printf`, or at the
unlock. -/
inductive Handler where
  | printFree
  | free
  | printUnlock
  | unlock
  deriving DecidableEq, Repr

/-- Where the thread is: at `malloc`, at the `printf` behind it, at the lock, at the test of `glob`,
at `pthread_cond_wait`, asleep in it, woken and at the mutex again (cancelled or not), at the `printf`
behind the loop, in the handler (for a cancellation or not), or at its end, returned or cancelled. -/
inductive ThreadPc where
  | malloc
  | printAlloc
  | lock
  | test
  | wait
  | asleep
  | relock (canceled : Bool)
  | printDone
  | handler (h : Handler) (canceled : Bool)
  | ended (canceled : Bool)
  deriving DecidableEq, Repr

/-- Where `main` is: at `pthread_create`, at the `printf` of either branch, at `pthread_cancel`, at
the lock, at `glob = 1`, at the unlock, at the signal, in `pthread_join`, or behind it with what it
returned. -/
inductive MainPc where
  | create
  | printCancel
  | cancel
  | printSignal
  | lock
  | set
  | unlock
  | signal
  | join
  | joined (canceled : Bool)
  deriving DecidableEq, Repr

/-- The mutex, `glob`, whether a cancellation is pending and whether the handler was pushed, the
number of blocks allocated and of those freed, the thread and `main`. -/
structure State where
  owner : Option Owner
  glob : Bool
  pending : Bool
  pushed : Bool
  mallocs : ℕ
  frees : ℕ
  thread : Option ThreadPc
  main : MainPc
  deriving DecidableEq, Repr

/-- Before the thread is created. -/
def init : State := ⟨none, false, false, false, 0, 0, none, .create⟩

/-- A step of `main` or of the thread, a cancellation that takes effect, or a wait that ends by
itself. -/
inductive Label where
  | main
  | thread
  | cancel
  | wake
  deriving DecidableEq, Repr

/-- A step of `main`, which cancels the thread or else signals it. -/
def mainNext (cancels : Bool) (s : State) : Option State :=
  match s.main with
  | .create =>
    some { s with thread := some .malloc, main := if cancels then .printCancel else .printSignal }
  | .printCancel => some { s with main := .cancel }
  | .cancel => some { s with pending := true, main := .join }
  | .printSignal => some { s with main := .lock }
  | .lock => if s.owner = none then some { s with owner := some .main, main := .set } else none
  | .set => some { s with glob := true, main := .unlock }
  | .unlock => some { s with owner := none, main := .signal }
  | .signal =>
    some { s with
      thread := if s.thread = some .asleep then some (.relock false) else s.thread
      main := .join }
  | .join =>
    match s.thread with
    | some (.ended canceled) => some { s with main := .joined canceled }
    | _ => none
  | .joined _ => none

/-- A step of the thread. -/
def threadNext (s : State) : Option State :=
  match s.thread with
  | some .malloc => some { s with mallocs := s.mallocs + 1, thread := some .printAlloc }
  | some .printAlloc => some { s with thread := some .lock }
  | some .lock =>
    if s.owner = none then some { s with owner := some .thread, pushed := true, thread := some .test }
    else none
  | some .test => some { s with thread := some (if s.glob then .printDone else .wait) }
  | some .wait => some { s with owner := none, thread := some .asleep }
  | some (.relock canceled) =>
    if s.owner = none then
      some { s with
        owner := some .thread
        thread := some (if canceled then .handler .printFree true else .test) }
    else none
  | some .printDone => some { s with thread := some (.handler .printFree false) }
  | some (.handler .printFree canceled) => some { s with thread := some (.handler .free canceled) }
  | some (.handler .free canceled) =>
    some { s with frees := s.frees + 1, thread := some (.handler .printUnlock canceled) }
  | some (.handler .printUnlock canceled) => some { s with thread := some (.handler .unlock canceled) }
  | some (.handler .unlock canceled) => some { s with owner := none, thread := some (.ended canceled) }
  | _ => none

/-- A cancellation takes effect. Within the handler it does so only when the handler is run by
`pthread_cleanup_pop`. -/
def cancelNext (s : State) : Option State :=
  if s.pending then
    match s.thread with
    | some .printAlloc => some { s with thread := some (.ended true) }
    | some .wait | some .printDone => some { s with thread := some (.handler .printFree true) }
    | some .asleep => some { s with thread := some (.relock true) }
    | some (.handler .printFree false) | some (.handler .printUnlock false) =>
      some { s with thread := some (.ended true) }
    | _ => none
  else none

/-- The steps. -/
def next (cancels : Bool) (s : State) : Label → Option State
  | .main => mainNext cancels s
  | .thread => threadNext s
  | .cancel => cancelNext s
  | .wake => if s.thread = some .asleep then some { s with thread := some (.relock false) } else none

/-- The step relation. -/
def Step (cancels : Bool) (s : State) (l : Label) (t : State) : Prop := next cancels s l = some t

/-! ## The invariant -/

/-- The thread holds the mutex. -/
def ThreadPc.inside : ThreadPc → Bool
  | .test | .wait | .printDone | .handler _ _ => true
  | _ => false

/-- `main` holds the mutex. -/
def MainPc.inside : MainPc → Bool
  | .set | .unlock => true
  | _ => false

/-- `main` has set `glob`. -/
def MainPc.hasSet : MainPc → Bool
  | .unlock | .signal | .join | .joined _ => true
  | _ => false

/-- `main` has cancelled the thread. -/
def MainPc.hasCanceled : MainPc → Bool
  | .join | .joined _ => true
  | _ => false

/-- The branch that `main` is in. -/
def MainPc.Ok (cancels : Bool) : MainPc → Prop
  | .printCancel | .cancel => cancels = true
  | .printSignal | .lock | .set | .unlock | .signal => cancels = false
  | _ => True

/-- What a handler has freed. -/
def Handler.frees : Handler → ℕ
  | .printFree | .free => 0
  | .printUnlock | .unlock => 1

/-- The block, the handler, and what is known of `glob` where the thread is. It falls asleep only before
`glob` is set, and is not asleep any more when `main` has signalled. -/
def ThreadPc.Ok (cancels : Bool) (s : State) : ThreadPc → Prop
  | .malloc => s.mallocs = 0 ∧ s.pushed = false ∧ s.frees = 0
  | .printAlloc | .lock => s.mallocs = 1 ∧ s.pushed = false ∧ s.frees = 0
  | .test => s.mallocs = 1 ∧ s.pushed = true ∧ s.frees = 0
  | .wait => s.mallocs = 1 ∧ s.pushed = true ∧ s.frees = 0 ∧ s.glob = false
  | .asleep => s.mallocs = 1 ∧ s.pushed = true ∧ s.frees = 0 ∧
    (s.glob = true → s.main = .unlock ∨ s.main = .signal)
  | .relock canceled => s.mallocs = 1 ∧ s.pushed = true ∧ s.frees = 0 ∧ (canceled = true → cancels = true)
  | .printDone => s.mallocs = 1 ∧ s.pushed = true ∧ s.frees = 0 ∧ cancels = false
  | .handler h canceled => s.mallocs = 1 ∧ s.pushed = true ∧ s.frees = h.frees ∧ canceled = cancels
  | .ended canceled => s.mallocs = 1 ∧ s.frees = s.pushed.toNat ∧ canceled = cancels ∧
    (s.pushed = false → cancels = true)

/-- The invariant. -/
structure Ok (cancels : Bool) (s : State) : Prop where
  thread_owns : s.owner = some .thread ↔ ∃ pc ∈ s.thread, pc.inside = true
  main_owns : s.owner = some .main ↔ s.main.inside = true
  glob : s.glob = (!cancels && s.main.hasSet)
  pending : s.pending = (cancels && s.main.hasCanceled)
  branch : s.main.Ok cancels
  created : s.thread = none ↔ s.main = .create
  fresh : s.thread = none → s.mallocs = 0 ∧ s.pushed = false ∧ s.frees = 0
  thread : ∀ pc ∈ s.thread, pc.Ok cancels s
  joined : ∀ c, s.main = .joined c → s.thread = some (.ended c)

variable {cancels : Bool} {s s' : State} {l : Label} {pc pc' : ThreadPc}

/-- A step of the thread, which leaves what `main` has of the mutex as it is. -/
theorem Ok.thread_move (h : Ok cancels s) (hpc : s.thread = some pc) (hended : ∀ c, pc ≠ .ended c)
    {owner : Option Owner} {pushed : Bool} {mallocs frees : ℕ}
    (hthread : owner = some .thread ↔ pc'.inside = true)
    (hmain : owner = some .main ↔ s.owner = some .main)
    (hok : pc'.Ok cancels { s with owner, pushed, mallocs, frees, thread := some pc' }) :
    Ok cancels { s with owner, pushed, mallocs, frees, thread := some pc' } where
  thread_owns := by simpa using hthread
  main_owns := hmain.trans h.main_owns
  glob := h.glob
  pending := h.pending
  branch := h.branch
  created := by simpa [hpc] using h.created
  fresh := nofun
  thread := by rintro _ ⟨⟩; exact hok
  joined c hc := absurd (by simpa [hpc] using h.joined c hc) (hended c)

/-- A step of `main` behind `pthread_create` that leaves the thread as it is. -/
theorem Ok.main_move (h : Ok cancels s) (hcreate : s.main ≠ .create) {owner : Option Owner}
    {glob pending : Bool} {m : MainPc} (hm : m ≠ .create) (hbranch : m.Ok cancels)
    (hthread : owner = some .thread ↔ s.owner = some .thread)
    (hmain : owner = some .main ↔ m.inside = true) (hglob : glob = (!cancels && m.hasSet))
    (hpending : pending = (cancels && m.hasCanceled))
    (hok : ∀ pc, s.thread = some pc → pc.Ok cancels s →
      pc.Ok cancels { s with owner, glob, pending, main := m })
    (hjoined : ∀ c, m = .joined c → s.thread = some (.ended c)) :
    Ok cancels { s with owner, glob, pending, main := m } where
  thread_owns := hthread.trans h.thread_owns
  main_owns := hmain
  glob := hglob
  pending := hpending
  branch := hbranch
  created := by simpa [hm, hcreate] using h.created
  fresh := h.fresh
  thread pc hpc := hok pc hpc (h.thread pc hpc)
  joined := hjoined

/-- What is known where the thread is depends on `main` and `glob` only where it waits. -/
theorem ThreadPc.Ok.of_eq {t : State} (hmallocs : t.mallocs = s.mallocs) (hpushed : t.pushed = s.pushed)
    (hfrees : t.frees = s.frees) (hglob : t.glob = s.glob)
    (hmain : t.glob = true → s.main = .unlock ∨ s.main = .signal → t.main = .unlock ∨ t.main = .signal)
    (h : pc.Ok cancels s) : pc.Ok cancels t := by
  cases pc <;> simp only [ThreadPc.Ok, hmallocs, hpushed, hfrees, hglob] at h hmain ⊢ <;> grind

/-- A step of `main` keeps the invariant. -/
theorem ok_main (h : Ok cancels s) (hst : mainNext cancels s = some s') : Ok cancels s' := by
  have howns := h.main_owns
  have hglob := h.glob
  have hpending := h.pending
  have hbranch := h.branch
  cases hm : s.main with
  | create =>
    simp only [mainNext, hm, Option.some.injEq] at hst
    subst hst
    have hthread := h.created.mpr hm
    have hnone := h.thread_owns
    obtain ⟨hmallocs, hpushed, hfrees⟩ := h.fresh hthread
    simp only [hm, MainPc.inside, MainPc.hasSet, MainPc.hasCanceled] at howns hglob hpending
    simp only [hthread] at hnone
    refine ⟨by simpa [ThreadPc.inside] using hnone, ?_, ?_, ?_, ?_, ?_, nofun, ?_, ?_⟩
    · cases cancels <;> simpa [MainPc.inside] using howns
    · cases cancels <;> simpa [MainPc.hasSet] using hglob
    · cases cancels <;> simpa [MainPc.hasCanceled] using hpending
    · cases cancels <;> rfl
    · cases cancels <;> simp
    · rintro _ ⟨⟩; exact ⟨hmallocs, hpushed, hfrees⟩
    · cases cancels <;> nofun
  | printCancel =>
    simp only [mainNext, hm, Option.some.injEq] at hst
    subst hst
    simp only [hm, MainPc.inside, MainPc.hasSet, MainPc.hasCanceled, MainPc.Ok]
      at howns hglob hpending hbranch
    exact h.main_move (by simp [hm]) nofun hbranch .rfl (by simpa [MainPc.inside] using howns)
      (by simpa [MainPc.hasSet] using hglob) (by simpa [MainPc.hasCanceled] using hpending)
      (fun pc _ => ThreadPc.Ok.of_eq rfl rfl rfl rfl (by simp [hm])) nofun
  | cancel =>
    simp only [mainNext, hm, Option.some.injEq] at hst
    subst hst
    simp only [hm, MainPc.inside, MainPc.hasSet, MainPc.hasCanceled, MainPc.Ok]
      at howns hglob hpending hbranch
    subst hbranch
    exact h.main_move (by simp [hm]) nofun trivial .rfl (by simpa [MainPc.inside] using howns)
      (by simpa [MainPc.hasSet] using hglob) (by simp [MainPc.hasCanceled])
      (fun pc _ => ThreadPc.Ok.of_eq rfl rfl rfl rfl (by simp [hm])) nofun
  | printSignal =>
    simp only [mainNext, hm, Option.some.injEq] at hst
    subst hst
    simp only [hm, MainPc.inside, MainPc.hasSet, MainPc.hasCanceled, MainPc.Ok]
      at howns hglob hpending hbranch
    exact h.main_move (by simp [hm]) nofun hbranch .rfl (by simpa [MainPc.inside] using howns)
      (by simpa [MainPc.hasSet] using hglob) (by simpa [MainPc.hasCanceled] using hpending)
      (fun pc _ => ThreadPc.Ok.of_eq rfl rfl rfl rfl (by simp [hm])) nofun
  | lock =>
    simp only [mainNext, hm] at hst
    split at hst
    case isFalse => cases hst
    case isTrue hfree =>
      simp only [Option.some.injEq] at hst
      subst hst
      simp only [hm, MainPc.hasSet, MainPc.hasCanceled, MainPc.Ok] at hglob hpending hbranch
      exact h.main_move (by simp [hm]) nofun hbranch (by simp [hfree]) (by simp [MainPc.inside])
        (by simpa [MainPc.hasSet] using hglob) (by simpa [MainPc.hasCanceled] using hpending)
        (fun pc _ => ThreadPc.Ok.of_eq rfl rfl rfl rfl (by simp [hm])) nofun
  | set =>
    simp only [mainNext, hm, Option.some.injEq] at hst
    subst hst
    simp only [hm, MainPc.inside, MainPc.hasCanceled, MainPc.Ok] at howns hpending hbranch
    refine h.main_move (by simp [hm]) nofun hbranch .rfl (by simpa [MainPc.inside] using howns)
      (by simp [MainPc.hasSet, hbranch]) (by simpa [MainPc.hasCanceled] using hpending) ?_ nofun
    -- `main` has the mutex, so that the thread is not between the test and the wait
    intro pc hpc hok
    have hout : pc.inside = false := by
      have hthread := h.thread_owns
      rw [howns.mpr trivial] at hthread
      simpa [hpc] using hthread
    cases pc <;> simp_all [ThreadPc.Ok, ThreadPc.inside]
  | unlock =>
    simp only [mainNext, hm, Option.some.injEq] at hst
    subst hst
    simp only [hm, MainPc.inside, MainPc.hasSet, MainPc.hasCanceled, MainPc.Ok]
      at howns hglob hpending hbranch
    exact h.main_move (by simp [hm]) nofun hbranch (by simp [howns.mpr trivial])
      (by simp [MainPc.inside]) (by simpa [MainPc.hasSet] using hglob)
      (by simpa [MainPc.hasCanceled] using hpending)
      (fun pc _ => ThreadPc.Ok.of_eq rfl rfl rfl rfl (by simp [hm])) nofun
  | signal =>
    simp only [mainNext, hm, Option.some.injEq] at hst
    subst hst
    simp only [hm, MainPc.inside, MainPc.hasSet, MainPc.hasCanceled, MainPc.Ok]
      at howns hglob hpending hbranch
    have hmove {t : State} (ht : Ok cancels t) (hmain : t.main = s.main) (howner : t.owner = s.owner)
        (hglob' : t.glob = s.glob) (hpending' : t.pending = s.pending) (hne : t.thread ≠ some .asleep) :
        Ok cancels { t with main := .join } := by
      refine ht.main_move (by simp [hmain, hm]) nofun trivial .rfl
        (by simpa [MainPc.inside, howner] using howns) (by simpa [MainPc.hasSet, hglob'] using hglob)
        (by simpa [MainPc.hasCanceled, hpending', hbranch] using hpending) ?_ nofun
      intro pc hpc hok
      cases pc <;> simp_all [ThreadPc.Ok]
    split
    case isTrue hasleep =>
      obtain ⟨hmallocs, hpushed, hfrees, -⟩ := h.thread _ hasleep
      have howns := h.thread_owns
      simp only [hasleep, Option.mem_def, Option.some.injEq, exists_eq_left'] at howns
      have hwoken : Ok cancels { s with thread := some (.relock false) } :=
        h.thread_move hasleep nofun howns .rfl ⟨hmallocs, hpushed, hfrees, nofun⟩
      exact hmove hwoken rfl rfl rfl rfl nofun
    case isFalse hne => exact hmove h rfl rfl rfl rfl hne
  | join =>
    simp only [mainNext, hm] at hst
    split at hst
    case h_2 => cases hst
    case h_1 c hend =>
      simp only [Option.some.injEq] at hst
      subst hst
      simp only [hm, MainPc.inside, MainPc.hasSet, MainPc.hasCanceled] at howns hglob hpending
      refine h.main_move (by simp [hm]) nofun trivial .rfl (by simpa [MainPc.inside] using howns)
        (by simpa [MainPc.hasSet] using hglob) (by simpa [MainPc.hasCanceled] using hpending)
        (fun pc _ => ThreadPc.Ok.of_eq rfl rfl rfl rfl (by simp [hm])) ?_
      rintro _ ⟨⟩
      exact hend
  | joined c => simp [mainNext, hm] at hst

/-- A step of the thread keeps the invariant. -/
theorem ok_thread (h : Ok cancels s) (hst : threadNext s = some s') : Ok cancels s' := by
  cases hpc : s.thread with
  | none => simp [threadNext, hpc] at hst
  | some pc =>
    have hok := h.thread pc hpc
    have howns := h.thread_owns
    simp only [hpc, Option.mem_def, Option.some.injEq, exists_eq_left'] at howns
    cases pc with
    | malloc =>
      simp only [threadNext, hpc, Option.some.injEq] at hst
      subst hst
      exact h.thread_move hpc nofun howns .rfl ⟨by simp [hok.1], hok.2.1, hok.2.2⟩
    | printAlloc =>
      simp only [threadNext, hpc, Option.some.injEq] at hst
      subst hst
      exact h.thread_move hpc nofun howns .rfl hok
    | lock =>
      simp only [threadNext, hpc] at hst
      split at hst
      case isFalse => cases hst
      case isTrue hfree =>
        simp only [Option.some.injEq] at hst
        subst hst
        exact h.thread_move hpc nofun (by simp [ThreadPc.inside]) (by simp [hfree]) ⟨hok.1, rfl, hok.2.2⟩
    | test =>
      simp only [threadNext, hpc, Option.some.injEq] at hst
      subst hst
      have hglob := h.glob
      split
      case isTrue hg =>
        rw [hg] at hglob
        exact h.thread_move hpc nofun howns .rfl ⟨hok.1, hok.2.1, hok.2.2, by grind⟩
      case isFalse hg =>
        exact h.thread_move hpc nofun howns .rfl ⟨hok.1, hok.2.1, hok.2.2, by simpa using hg⟩
    | wait =>
      simp only [threadNext, hpc, Option.some.injEq] at hst
      subst hst
      exact h.thread_move hpc nofun (by simp [ThreadPc.inside]) (by simp [howns.mpr rfl])
        ⟨hok.1, hok.2.1, hok.2.2.1, by simp [hok.2.2.2]⟩
    | asleep => simp [threadNext, hpc] at hst
    | relock c =>
      simp only [threadNext, hpc] at hst
      split at hst
      case isFalse => cases hst
      case isTrue hfree =>
        simp only [Option.some.injEq] at hst
        subst hst
        cases c with
        | false =>
          exact h.thread_move hpc nofun (by simp [ThreadPc.inside]) (by simp [hfree])
            ⟨hok.1, hok.2.1, hok.2.2.1⟩
        | true =>
          exact h.thread_move hpc nofun (by simp [ThreadPc.inside]) (by simp [hfree])
            ⟨hok.1, hok.2.1, hok.2.2.1, by simp [hok.2.2.2 rfl]⟩
    | printDone =>
      simp only [threadNext, hpc, Option.some.injEq] at hst
      subst hst
      exact h.thread_move hpc nofun howns .rfl ⟨hok.1, hok.2.1, hok.2.2.1, hok.2.2.2.symm⟩
    | handler hd c =>
      obtain ⟨hmallocs, hpushed, hfrees, hc⟩ := hok
      cases hd with
      | printFree =>
        simp only [threadNext, hpc, Option.some.injEq] at hst
        subst hst
        exact h.thread_move hpc nofun howns .rfl ⟨hmallocs, hpushed, hfrees, hc⟩
      | free =>
        simp only [threadNext, hpc, Option.some.injEq] at hst
        subst hst
        exact h.thread_move hpc nofun howns .rfl ⟨hmallocs, hpushed, by simp [hfrees, Handler.frees], hc⟩
      | printUnlock =>
        simp only [threadNext, hpc, Option.some.injEq] at hst
        subst hst
        exact h.thread_move hpc nofun howns .rfl ⟨hmallocs, hpushed, hfrees, hc⟩
      | unlock =>
        simp only [threadNext, hpc, Option.some.injEq] at hst
        subst hst
        exact h.thread_move hpc nofun (by simp [ThreadPc.inside]) (by simp [howns.mpr rfl])
          ⟨hmallocs, by simpa [hpushed, Handler.frees] using hfrees, hc, by simp [hpushed]⟩
    | ended c => simp [threadNext, hpc] at hst

/-- A cancellation keeps the invariant. -/
theorem ok_cancel (h : Ok cancels s) (hst : cancelNext s = some s') : Ok cancels s' := by
  simp only [cancelNext] at hst
  split at hst
  case isFalse => cases hst
  case isTrue hp =>
    have hcancels : cancels = true := by
      have hpending := h.pending
      rw [hp] at hpending
      grind
    subst hcancels
    cases hpc : s.thread with
    | none => simp [hpc] at hst
    | some pc =>
      have hok := h.thread pc hpc
      have howns := h.thread_owns
      simp only [hpc, Option.mem_def, Option.some.injEq, exists_eq_left'] at howns hst
      split at hst
      case h_1 heq =>
        cases heq; cases hst
        exact h.thread_move hpc nofun howns .rfl ⟨hok.1, by simp [hok.2.1, hok.2.2], rfl, fun _ => rfl⟩
      case h_2 heq =>
        cases heq; cases hst
        exact h.thread_move hpc nofun howns .rfl ⟨hok.1, hok.2.1, hok.2.2.1, rfl⟩
      case h_3 heq => cases heq; exact absurd hok.2.2.2 nofun
      case h_4 heq =>
        cases heq; cases hst
        exact h.thread_move hpc nofun howns .rfl ⟨hok.1, hok.2.1, hok.2.2.1, fun _ => rfl⟩
      case h_5 heq => cases heq; exact absurd hok.2.2.2 nofun
      case h_6 heq => cases heq; exact absurd hok.2.2.2 nofun
      case h_7 => cases hst

/-- Every step keeps the invariant. -/
theorem ok_step (h : Ok cancels s) (hst : Step cancels s l s') : Ok cancels s' := by
  cases l with
  | main => exact ok_main h hst
  | thread => exact ok_thread h hst
  | cancel => exact ok_cancel h hst
  | wake =>
    simp only [Step, next] at hst
    split at hst
    case isFalse => cases hst
    case isTrue hasleep =>
      simp only [Option.some.injEq] at hst
      subst hst
      obtain ⟨hmallocs, hpushed, hfrees, -⟩ := h.thread _ hasleep
      have howns := h.thread_owns
      simp only [hasleep, Option.mem_def, Option.some.injEq, exists_eq_left'] at howns
      exact h.thread_move hasleep nofun howns .rfl ⟨hmallocs, hpushed, hfrees, nofun⟩

/-- The invariant holds at first. -/
theorem ok_init : Ok cancels init := by
  constructor <;> simp [init, MainPc.inside, MainPc.hasSet, MainPc.hasCanceled, MainPc.Ok]

/-- Every state of a run satisfies the invariant. -/
theorem ok_of_run {ls : List Label} (hrun : Run (Step cancels) init ls s) : Ok cancels s :=
  hrun.invariant (I := Ok cancels) (fun _ _ _ => ok_step) ok_init

/-! ## Going on to the end -/

/-- How far `main` is from having joined the thread. -/
def MainPc.left : MainPc → ℕ
  | .create => 9
  | .printCancel | .printSignal => 8
  | .cancel | .lock => 7
  | .set => 6
  | .unlock => 5
  | .signal => 4
  | .join => 3
  | .joined _ => 0

/-- How far the thread is from its end, when nothing wakes it but a cancellation. -/
def ThreadPc.left : ThreadPc → ℕ
  | .malloc => 20
  | .printAlloc => 19
  | .lock => 18
  | .relock false => 17
  | .test => 16
  | .wait => 15
  | .asleep => 14
  | .relock true => 13
  | .printDone => 12
  | .handler .printFree _ => 11
  | .handler .free _ => 10
  | .handler .printUnlock _ => 9
  | .handler .unlock _ => 8
  | .ended _ => 0

/-- How far both are from the end: what the thread gains by a step of `main` is less than a step of
`main` counts. -/
def left (s : State) : ℕ := 32 * s.main.left + (s.thread.map ThreadPc.left).getD 0

/-- A thread that is not asleep and finds the mutex free where it takes it goes on. -/
theorem thread_goes (hpc : s.thread = some pc) (hended : ∀ c, pc ≠ .ended c) (hasleep : pc ≠ .asleep)
    (hlock : pc.inside = false → s.owner = none) : ∃ t, threadNext s = some t ∧ left t < left s := by
  cases pc with
  | asleep => exact absurd rfl hasleep
  | ended c => exact absurd rfl (hended c)
  | lock => simp [threadNext, hpc, hlock rfl, left, ThreadPc.left]
  | relock c => cases c <;> simp [threadNext, hpc, hlock rfl, left, ThreadPc.left]
  | test => cases hg : s.glob <;> simp [threadNext, hpc, hg, left, ThreadPc.left]
  | handler h c => cases h <;> simp [threadNext, hpc, left, ThreadPc.left]
  | _ => simp [threadNext, hpc, left, ThreadPc.left]

/-- `main` goes on when it finds the mutex free at its lock and the thread at its end at
`pthread_join`. -/
theorem main_goes (h : Ok cancels s) (hlock : s.main = .lock → s.owner = none)
    (hjoin : s.main = .join → ∃ c, s.thread = some (.ended c)) (hjoined : ∀ c, s.main ≠ .joined c) :
    ∃ t, mainNext cancels s = some t ∧ left t < left s := by
  cases hm : s.main with
  | create =>
    have hthread := h.created.mpr hm
    cases cancels <;> simp [mainNext, hm, hthread, left, MainPc.left, ThreadPc.left]
  | lock => simp [mainNext, hm, hlock hm, left, MainPc.left]
  | join =>
    obtain ⟨c, hc⟩ := hjoin hm
    simp [mainNext, hm, hc, left, MainPc.left]
  | joined c => exact absurd hm (hjoined c)
  | signal =>
    refine ⟨_, by simp only [mainNext, hm]; rfl, ?_⟩
    simp only [left, hm, MainPc.left]
    split
    case isTrue hasleep => simp [hasleep, ThreadPc.left]
    case isFalse => omega
  | _ => simp [mainNext, hm, left, MainPc.left]

/-- Until `main` has joined the thread, somebody goes on. -/
theorem goes (h : Ok cancels s) (hjoined : ¬ ∃ c, s.main = .joined c) :
    ∃ l t, Step cancels s l t ∧ left t < left s := by
  have hout : ∀ pc, s.thread = some pc → s.main.inside = false → pc.inside = false → s.owner = none := by
    intro pc hpc hmain hpcout
    have hthread := h.thread_owns
    have hmain' := h.main_owns
    simp only [hpc, hmain, hpcout, Option.mem_def, Option.some.injEq, exists_eq_left',
      Bool.false_eq_true, iff_false] at hthread hmain'
    cases howner : s.owner with
    | none => rfl
    | some o => cases o <;> simp [howner] at hthread hmain'
  by_cases hmain : (s.main = .lock → s.owner = none) ∧ (s.main = .join → ∃ c, s.thread = some (.ended c))
  · obtain ⟨t, ht, hlt⟩ := main_goes h hmain.1 hmain.2 (by simpa using hjoined)
    exact ⟨.main, t, ht, hlt⟩
  -- `main` is at the lock, which the thread has, or at `pthread_join`
  have hlocks : s.main = .lock ∨ s.main = .join := by
    by_contra hnot
    exact hmain ⟨fun hm => absurd (.inl hm) hnot, fun hm => absurd (.inr hm) hnot⟩
  have hmainout : s.main.inside = false := by rcases hlocks with hm | hm <;> rw [hm] <;> rfl
  cases hpc : s.thread with
  | none => rcases hlocks with hm | hm <;> simp [h.created.mp hpc] at hm
  | some pc =>
    have hended : ∀ c, pc ≠ .ended c := by
      rintro c rfl
      exact hmain ⟨fun _ => hout _ hpc hmainout rfl, fun _ => ⟨c, hpc⟩⟩
    by_cases hasleep : pc = .asleep
    · subst hasleep
      have hjoin : s.main = .join :=
        hlocks.resolve_left fun hm => hmain ⟨fun _ => hout _ hpc hmainout rfl, by simp [hm]⟩
      have hglob : s.glob = false := by
        by_contra hg
        simpa [hjoin] using (h.thread _ hpc).2.2.2 (by simpa using hg)
      have hcancels : cancels = true := by simpa [hglob, hjoin, MainPc.hasSet] using h.glob
      have hpending : s.pending = true := by rw [h.pending, hcancels, hjoin]; rfl
      exact ⟨.cancel, { s with thread := some (.relock true) },
        by simp [Step, next, cancelNext, hpending, hpc], by simp [left, hpc, ThreadPc.left]⟩
    · obtain ⟨t, ht, hlt⟩ := thread_goes hpc hended hasleep (hout pc hpc hmainout)
      exact ⟨.thread, t, ht, hlt⟩

/-- The handler always finds the mutex held by its thread; when `main` has joined the thread, the
thread has ended as `main` wanted, the mutex is free, and the block is freed, once, unless it was
cancelled before the handler was pushed; and `main` can always get there. -/
theorem joined_clean {ls : List Label} (hrun : Run (Step cancels) init ls s) :
    (∀ h c, s.thread = some (.handler h c) → s.owner = some .thread) ∧
    (∀ c, s.main = .joined c → c = cancels ∧ s.owner = none ∧ s.mallocs = 1 ∧
      s.frees = s.pushed.toNat ∧ (s.pushed = false → cancels = true)) ∧
    ∃ ls' t c, Run (Step cancels) s ls' t ∧ t.main = .joined c := by
  have hok := ok_of_run hrun
  refine ⟨?_, ?_, ?_⟩
  · intro h c hpc
    exact hok.thread_owns.mpr ⟨_, hpc, rfl⟩
  · intro c hm
    have hended := hok.joined c hm
    obtain ⟨hmallocs, hfrees, hc, hpushed⟩ := hok.thread _ hended
    have hthread := hok.thread_owns
    have hmain := hok.main_owns
    simp only [hended, hm, Option.mem_def, Option.some.injEq, exists_eq_left', ThreadPc.inside,
      MainPc.inside, Bool.false_eq_true, iff_false] at hthread hmain
    refine ⟨hc, ?_, hmallocs, hfrees, hpushed⟩
    cases howner : s.owner with
    | none => rfl
    | some o => cases o <;> simp [howner] at hthread hmain
  · obtain ⟨ls', t, hrun', c, hc⟩ := Run.reaches (I := Ok cancels) left (fun _ _ _ => ok_step)
      (fun _ => goes) hok
    exact ⟨ls', t, c, hrun', hc⟩

/-- The thread is cancelled while it waits, and frees the block. -/
theorem joined_clean_canceled :
    ∃ s, Run (Step true) init [.main, .thread, .thread, .thread, .thread, .thread, .main, .main, .cancel,
        .thread, .thread, .thread, .thread, .thread, .main] s ∧
      s.main = .joined true ∧ s.owner = none ∧ s.frees = 1 := by
  obtain ⟨s, hrun, hs⟩ : ∃ s, Run (Step true) init [.main, .thread, .thread, .thread, .thread, .thread,
      .main, .main, .cancel, .thread, .thread, .thread, .thread, .thread, .main] s ∧
      (s.main, s.pushed) = (.joined true, true) := Run.of_exec_map rfl
  have hm : s.main = .joined true := congrArg Prod.fst hs
  have hpushed : s.pushed = true := congrArg Prod.snd hs
  obtain ⟨-, howner, -, hfrees, -⟩ := (joined_clean hrun).2.1 true hm
  exact ⟨s, hrun, hm, howner, by rw [hfrees, hpushed]; rfl⟩

end ThreadCleanup

end Ulsp
