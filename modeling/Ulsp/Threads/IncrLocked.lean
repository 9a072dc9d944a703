import Mathlib.Algebra.BigOperators.Fin
import Ulsp.Base
import Ulsp.Lib.ForkJoin
import Ulsp.Lib.Lock

/-!
# Increments under a lock (`threads/thread_incr_mutex.c`, `ipc/thread_incr_psem.c`)

The program of `threads/thread_incr.c` with the increment between the acquisition of a lock and its
release: a mutex in the one source, a semaphore of one in the other, which also counts its loop upwards.
The thread is one definition for any lock and loop. No increment is lost (`total`): what is printed is
the number of all increments, and the threads do not keep each other from the end.
-/

namespace Ulsp

open Lib

namespace LockedIncr

/-- The loop of a thread: the first value of its counter, the value the body is entered with, and the
one for the next round, with the rounds that are left. -/
structure Loop where
  first : ℕ
  enter : ℕ → Option ℕ
  again : ℕ → ℕ
  left : ℕ → ℕ
  left_exit : ∀ c, enter c = none → left c = 0
  left_enter : ∀ c c', enter c = some c' → left (again c') + 1 = left c

/-- Where a thread is: at the test of its loop, at the acquisition of the lock, before `loc = glob`,
before `++loc`, before `glob = loc`, at the release, or behind its `return`. -/
inductive Pc where
  | test (c : ℕ)
  | acquire (c : ℕ)
  | load (c : ℕ)
  | add (c : ℕ) (loc : ℤ)
  | store (c : ℕ) (loc : ℤ)
  | release (c : ℕ)
  | returned
  deriving DecidableEq, Repr

/-- `glob`, and the lock. -/
structure Shared (L : Type) where
  glob : ℤ
  lock : L

/-- A step of a thread. -/
def step {L : Type} (K : Lock L) (loop : Loop) (sh : Shared L) : Pc → Option (Shared L × Pc)
  | .test c =>
    match loop.enter c with
    | none => some (sh, .returned)
    | some c => some (sh, .acquire c)
  | .acquire c => (K.acquire sh.lock).map fun lock => ({ sh with lock }, .load c)
  | .load c => some (sh, .add c sh.glob)
  | .add c loc => (addInt loc 1).map fun loc => (sh, .store c loc)
  | .store c loc => some ({ sh with glob := loc }, .release c)
  | .release c => some ({ sh with lock := K.release sh.lock }, .test (loop.again c))
  | .returned => none

/-- A thread. -/
def thread {L : Type} (K : Lock L) (loop : Loop) : ThreadProg (Shared L) Pc where
  start := .test loop.first
  step := step K loop
  returned pc := pc = .returned
  step_returned _ lo h := by
    obtain rfl := of_decide_eq_true h
    rfl

/-! ## No increment is lost -/

/-- The increments that a thread has still to make. -/
def left (loop : Loop) : Option Pc → ℕ
  | none => loop.left loop.first
  | some (.test c) => loop.left c
  | some (.acquire c) | some (.load c) | some (.add c _) | some (.store c _) => loop.left (loop.again c) + 1
  | some (.release c) => loop.left (loop.again c)
  | some .returned => 0

/-- The thread is between the acquisition and the release. -/
def Pc.Inside : Pc → Prop
  | .load _ | .add _ _ | .store _ _ | .release _ => True
  | _ => False

/-- What a thread has loaded. -/
def Pc.Ok (glob : ℤ) : Pc → Prop
  | .add _ loc => loc = glob
  | .store _ loc => loc = glob + 1
  | _ => True

/-- The thread `i` is inside. -/
def Inside {k : ℕ} (th : Fin k → Option Pc) (i : Fin k) : Prop := ∃ pc ∈ th i, pc.Inside

/-- `glob` is the number of the increments made, the lock guards the section between its acquisition and
its release, and the thread inside has loaded what `glob` is. -/
structure Counted {L : Type} {k : ℕ} (K : Lock L) (loop : Loop) (sh : Shared L) (th : Fin k → Option Pc) :
    Prop where
  nonneg : 0 ≤ sh.glob
  total : sh.glob + (∑ i, left loop (th i) : ℕ) = (k * loop.left loop.first : ℕ)
  guards : K.Guards sh.lock (Inside th)
  thread : ∀ i, ∀ pc ∈ th i, pc.Ok sh.glob

variable {L : Type} {k : ℕ} {K : Lock L} {loop : Loop} {sh sh' : Shared L} {th : Fin k → Option Pc}
  {i j : Fin k} {pc pc' : Pc}

/-- A thread is inside after a step if its new position is. -/
theorem inside_update : Inside (Function.update th i (some pc)) i ↔ pc.Inside := by
  simp [Inside]

/-- A step of one thread does not move another in or out. -/
theorem inside_update_of_ne (hne : j ≠ i) :
    Inside (Function.update th i (some pc)) j ↔ Inside th j := by
  simp [Inside, hne]

/-- A step of one thread changes the increments left in all by its own. -/
theorem sum_update (loop : Loop) (th : Fin k → Option Pc) (i : Fin k) (pc : Pc) :
    ∑ j, left loop (Function.update th i (some pc) j) + left loop (th i) =
      ∑ j, left loop (th j) + left loop (some pc) := by
  have hsame : ∀ j ∈ Finset.univ.erase i,
      left loop (Function.update th i (some pc) j) = left loop (th j) := fun j hj => by
    rw [Function.update_of_ne (Finset.ne_of_mem_erase hj)]
  rw [← Finset.sum_erase_add _ _ (Finset.mem_univ i), ← Finset.sum_erase_add _ _ (Finset.mem_univ i),
    Finset.sum_congr rfl hsame, Function.update_self]
  omega

/-- A step that leaves `glob` as it is. -/
theorem Counted.move (h : Counted K loop sh th) (hglob : sh'.glob = sh.glob)
    (hleft : left loop (some pc) = left loop (th i)) (hok : pc.Ok sh.glob)
    (hguards : K.Guards sh'.lock (Inside (Function.update th i (some pc)))) :
    Counted K loop sh' (Function.update th i (some pc)) := by
  have hsum := sum_update loop th i pc
  have htotal := h.total
  have hnonneg := h.nonneg
  refine ⟨by omega, by omega, hguards, fun j pc' hj => ?_⟩
  rw [hglob]
  rcases eq_or_ne j i with rfl | hne
  · rw [Function.update_self] at hj
    cases hj
    exact hok
  · rw [Function.update_of_ne hne] at hj
    exact h.thread j pc' hj

/-- A step that neither enters the section nor leaves it. -/
theorem Counted.stay (h : Counted K loop sh th) (hpc : th i = some pc)
    (hin : pc'.Inside ↔ pc.Inside) : K.Guards sh.lock (Inside (Function.update th i (some pc'))) := by
  refine h.guards.congr fun j => ?_
  rcases eq_or_ne j i with rfl | hne
  · rw [inside_update, hin, Inside, hpc]
    simp
  · exact inside_update_of_ne hne

/-- A step of a thread keeps the count. -/
theorem counted_step (h : Counted K loop sh th) (hpc : th i = some pc)
    (hstep : step K loop sh pc = some (sh', pc')) :
    Counted K loop sh' (Function.update th i (some pc')) := by
  have hok := h.thread i pc hpc
  cases pc with
  | test c =>
    cases henter : loop.enter c with
    | none =>
      simp only [step, henter] at hstep
      cases hstep
      exact h.move rfl (by rw [hpc]; exact (loop.left_exit c henter).symm) trivial (h.stay hpc .rfl)
    | some c' =>
      simp only [step, henter] at hstep
      cases hstep
      exact h.move rfl (by rw [hpc]; exact loop.left_enter c c' henter) trivial (h.stay hpc .rfl)
  | acquire c =>
    obtain ⟨lock, hlock, heq⟩ := Option.map_eq_some_iff.mp hstep
    cases heq
    have hin : Inside (Function.update th i (some (.load c))) i := inside_update.mpr trivial
    have hguards := (h.guards.acquire (i := i) hlock (fun j => inside_update_of_ne) hin).2
    exact h.move rfl (by rw [hpc]; rfl) trivial hguards
  | load c =>
    cases hstep
    exact h.move rfl (by rw [hpc]; rfl) rfl (h.stay hpc .rfl)
  | add c loc =>
    obtain ⟨loc', hadd, heq⟩ := Option.map_eq_some_iff.mp hstep
    cases heq
    obtain ⟨rfl, -⟩ := addInt_eq_some hadd
    have hloc : loc = sh.glob := hok
    exact h.move rfl (by rw [hpc]; rfl) (by rw [Pc.Ok, hloc]) (h.stay hpc .rfl)
  | store c loc =>
    cases hstep
    have hloc : loc = sh.glob + 1 := hok
    have hsum := sum_update loop th i (.release c)
    have htotal := h.total
    have hbefore : left loop (th i) = loop.left (loop.again c) + 1 := by
      rw [hpc]
      rfl
    have hafter : left loop (some (.release c)) = loop.left (loop.again c) := rfl
    have hnonneg := h.nonneg
    refine ⟨by simp only; omega, by simp only; omega, h.stay hpc .rfl, fun j pc' hj => ?_⟩
    have hinside : Inside th i := ⟨_, hpc, trivial⟩
    rcases eq_or_ne j i with rfl | hne
    · rw [Function.update_self] at hj
      cases hj
      trivial
    · rw [Function.update_of_ne hne] at hj
      -- the other threads have loaded nothing
      have hout : ¬ pc'.Inside := fun hin => hne ((h.guards.alone hinside).2 j ⟨pc', hj, hin⟩)
      cases pc' <;> first | trivial | exact absurd trivial hout
  | release c =>
    cases hstep
    have hout : ¬ Inside (Function.update th i (some (.test (loop.again c)))) i :=
      fun hin => inside_update.mp hin
    have hguards := h.guards.release (i := i) ⟨_, hpc, trivial⟩ (fun j => inside_update_of_ne) hout
    exact h.move rfl (by rw [hpc]; rfl) trivial hguards
  | returned => cases hstep

/-- At the beginning nothing is counted and the lock is free. -/
theorem counted_init (K : Lock L) (loop : Loop) (k : ℕ) :
    Counted K loop ⟨0, K.free⟩ fun _ : Fin k => none :=
  ⟨Int.le_refl 0, by simp [left], .free rfl (by simp [Inside]), fun _ _ => nofun⟩

/-- Creating a thread keeps the count. -/
theorem counted_create (h : Counted K loop sh th) (hj : th j = none) :
    Counted K loop sh (Function.update th j (some (.test loop.first))) := by
  refine h.move rfl (by rw [hj]; rfl) trivial (h.guards.congr fun i => ?_)
  rcases eq_or_ne i j with rfl | hne
  · rw [inside_update, Inside, hj]
    simp [Pc.Inside]
  · exact inside_update_of_ne hne

/-- The count holds in every state that a run reaches. -/
theorem counted_of_run {ls : List (ForkJoin.Label k)} {s : ForkJoin.State k (Shared L) Pc}
    (h : Run (ForkJoin.Step (thread K loop)) (ForkJoin.init ⟨0, K.free⟩) ls s) :
    Counted K loop s.shared s.thread :=
  ForkJoin.Run.invariant (I := Counted K loop) (counted_init K loop k)
    (fun _ _ _ hc hj => counted_create hc hj) (fun _ _ _ _ _ _ hc hlo hstep => counted_step hc hlo hstep) h

/-! ## The threads return -/

/-- The steps that a thread still takes, at most. -/
def toGo (loop : Loop) : Pc → ℕ
  | .test c => 7 * loop.left c + 1
  | .acquire c => 7 * loop.left (loop.again c) + 7
  | .load c => 7 * loop.left (loop.again c) + 6
  | .add c _ => 7 * loop.left (loop.again c) + 5
  | .store c _ => 7 * loop.left (loop.again c) + 4
  | .release c => 7 * loop.left (loop.again c) + 3
  | .returned => 0

/-- Every step of a thread makes it smaller. -/
theorem toGo_step (h : step K loop sh pc = some (sh', pc')) : toGo loop pc' < toGo loop pc := by
  cases pc with
  | test c =>
    cases henter : loop.enter c with
    | none =>
      simp only [step, henter] at h
      cases h
      exact Nat.succ_pos _
    | some c' =>
      simp only [step, henter] at h
      cases h
      have hleft := loop.left_enter c c' henter
      simp only [toGo]
      omega
  | acquire c =>
    obtain ⟨lock, -, heq⟩ := Option.map_eq_some_iff.mp h
    cases heq
    exact Nat.lt_succ_self _
  | add c loc =>
    obtain ⟨loc', -, heq⟩ := Option.map_eq_some_iff.mp h
    cases heq
    exact Nat.lt_succ_self _
  | load c =>
    cases h
    exact Nat.lt_succ_self _
  | store c loc =>
    cases h
    exact Nat.lt_succ_self _
  | release c =>
    cases h
    simp only [toGo]
    omega
  | returned => cases h

/-- A thread that has not returned can go on, except for one at the acquisition of a lock that is held,
when `glob` stays in the range of its type. -/
theorem step_isSome (hrange : k * loop.left loop.first < 2 ^ 31) (h : Counted K loop sh th)
    (hpc : th i = some pc) (hret : pc ≠ .returned) (hfree : pc.Inside ∨ ∀ j, ¬ Inside th j) :
    ∃ r, step K loop sh pc = some r := by
  cases pc with
  | test c =>
    cases henter : loop.enter c with
    | none =>
      simp only [step, henter]
      exact ⟨_, rfl⟩
    | some c' =>
      simp only [step, henter]
      exact ⟨_, rfl⟩
  | acquire c =>
    have hlock := h.guards.can_acquire (hfree.resolve_left id)
    simp only [step, hlock, Option.map_some]
    exact ⟨_, rfl⟩
  | add c loc =>
    have hloc : loc = sh.glob := h.thread i _ hpc
    have hleft : left loop (th i) = loop.left (loop.again c) + 1 := by
      rw [hpc]
      rfl
    -- the increment of this thread is one of those that `glob` is short of
    have hone : left loop (th i) ≤ ∑ j, left loop (th j) :=
      Finset.single_le_sum (fun j _ => Nat.zero_le (left loop (th j))) (Finset.mem_univ i)
    have htotal := h.total
    have hnonneg := h.nonneg
    have hadd : addInt loc 1 = some (loc + 1) := addInt_of_range (by omega) (by omega)
    simp only [step, hadd, Option.map_some]
    exact ⟨_, rfl⟩
  | returned => exact absurd rfl hret
  | load c => exact ⟨_, rfl⟩
  | store c loc => exact ⟨_, rfl⟩
  | release c => exact ⟨_, rfl⟩

/-- Some thread can go on as long as one has not returned: the one inside, if there is one. -/
theorem some_step (hrange : k * loop.left loop.first < 2 ^ 31) (h : Counted K loop sh th)
    (hpc : th i = some pc) (hret : pc ≠ .returned) :
    ∃ j pc' r, th j = some pc' ∧ step K loop sh pc' = some r := by
  by_cases hin : ∃ j, Inside th j
  · obtain ⟨j, pc', hj, hinside⟩ := hin
    have hnot : pc' ≠ .returned := by
      rintro rfl
      exact hinside
    obtain ⟨r, hr⟩ := step_isSome hrange h hj hnot (.inl hinside)
    exact ⟨j, pc', r, hj, hr⟩
  · obtain ⟨r, hr⟩ := step_isSome hrange h hpc hret (.inr (not_exists.mp hin))
    exact ⟨i, pc, r, hpc, hr⟩

/-- In every run without a failing creation what is printed is `v`, and the run can go on to where it is
printed. -/
def AlwaysPrints (P : ThreadProg (Shared L) Pc) (free : L) (v : ℤ) : Prop :=
  ∀ ls s, Run (ForkJoin.Step (k := 2) P) (ForkJoin.init ⟨0, free⟩) ls s → s.main ≠ .failed →
    (s.main = .joined → s.shared.glob = v) ∧ ∃ t, ForkJoin.Reaches P s t ∧ t.main = .joined

/-- The program prints the same sum in every run, if the sum fits an `int`. -/
theorem alwaysPrints_thread (K : Lock L) (loop : Loop) (hrange : 2 * loop.left loop.first < 2 ^ 31) :
    AlwaysPrints (thread K loop) K.free (2 * loop.left loop.first : ℕ) := by
  intro ls s hrun hmain
  refine ⟨fun hjoined => ?_, ?_⟩
  · have hleft : ∀ i, left loop (s.thread i) = 0 := by
      intro i
      obtain ⟨pc, hpc, hret⟩ := ForkJoin.all_returned hrun hjoined i
      rw [hpc, of_decide_eq_true hret]
      rfl
    have htotal := (counted_of_run hrun).total
    simpa [hleft] using htotal
  · exact ForkJoin.can_join (I := Counted K loop) (toGo loop) (counted_init K loop 2)
      (fun _ _ _ hc hj => counted_create hc hj) (fun _ _ _ _ _ _ hc hlo hstep => counted_step hc hlo hstep)
      (fun _ _ _ _ hstep => toGo_step hstep)
      (fun _ _ _ _ hc hpc hret => some_step hrange hc hpc (of_decide_eq_false hret)) hrun hmain

end LockedIncr

namespace ThreadIncrMutex

/-- `while (loops--)`. -/
def loop (loops : ℕ) : LockedIncr.Loop where
  first := loops
  enter c := if c = 0 then none else some (c - 1)
  again c := c
  left c := c
  left_exit c h := by
    simpa using h
  left_enter c c' h := by
    obtain ⟨hc, h⟩ := Option.ite_none_left_eq_some.mp h
    obtain rfl := Option.some.inj h
    omega

/-- `threadFunc`. -/
def threadFunc (loops : ℕ) : ThreadProg (LockedIncr.Shared Bool) LockedIncr.Pc :=
  LockedIncr.thread mutex (loop loops)

end ThreadIncrMutex

namespace ThreadIncrPsem

/-- `for (j = 0; j < loops; ++j)`. -/
def loop (loops : ℕ) : LockedIncr.Loop where
  first := 0
  enter j := if j < loops then some j else none
  again j := j + 1
  left j := loops - j
  left_exit j h := by
    have : ¬ j < loops := by simpa using h
    omega
  left_enter j j' h := by
    obtain ⟨hj, h⟩ := Option.ite_none_right_eq_some.mp h
    obtain rfl := Option.some.inj h
    omega

/-- `threadFunc`. -/
def threadFunc (loops : ℕ) : ThreadProg (LockedIncr.Shared ℕ) LockedIncr.Pc :=
  LockedIncr.thread semaphore (loop loops)

end ThreadIncrPsem

namespace LockedIncr

/-- Both programs print the number of all increments, in every order of the threads' steps. -/
theorem total (loops : ℕ) (hrange : 2 * loops < 2 ^ 31) :
    AlwaysPrints (ThreadIncrMutex.threadFunc loops) mutex.free (2 * loops : ℕ) ∧
      AlwaysPrints (ThreadIncrPsem.threadFunc loops) semaphore.free (2 * loops : ℕ) :=
  ⟨alwaysPrints_thread mutex (ThreadIncrMutex.loop loops) hrange,
    alwaysPrints_thread semaphore (ThreadIncrPsem.loop loops) hrange⟩

/-- The programs' own numbers of loops. -/
theorem total_defaults :
    AlwaysPrints (ThreadIncrMutex.threadFunc 1000) mutex.free 2000 ∧
      AlwaysPrints (ThreadIncrPsem.threadFunc 10000000) semaphore.free 20000000 :=
  ⟨(total 1000 (by decide)).1, (total 10000000 (by decide)).2⟩

end LockedIncr

end Ulsp
