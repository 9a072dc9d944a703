import Ulsp.Lib.Run
import Ulsp.Lib.Tally
import Mathlib.Algebra.Order.Ring.Int

/-!
# Joining the threads as they end (`threads/thread_multijoin.c`)

`main` creates its threads and joins each of them once it has ended. A thread that ends says so in
its entry of `thread` and in `numUnjoined`, both under `threadMutex`, and then signals `threadDied`;
`main` waits on that while `numUnjoined` is 0 and goes through all the entries otherwise, with the mutex
held. A signal is lost when `main` is not asleep, and a wakeup may be spurious: what matters is that
`main` falls asleep only when no terminated thread is left, so each one that terminates while `main` is
asleep has its signal still to send (`State.Ok.asleep`).

The steps are those between two calls of the thread library, so that a thread can terminate before
`numLive` is set or while `main` joins another.
-/

namespace Ulsp

open Lib

namespace Multijoin

/-- `enum tstate`. -/
inductive TState where
  | alive
  | terminated
  | joined
  deriving DecidableEq

/-- Where a thread is: not yet created, at its `pthread_mutex_lock` (after its sleep), at the
assignments, at the `pthread_mutex_unlock`, at the `pthread_cond_signal`, or behind its `return`. -/
inductive ThreadPc where
  | uncreated
  | lock
  | update
  | unlock
  | signal
  | returned
  deriving DecidableEq

/-- Where `main` is: at the creation of a thread, at `numLive = totThreads = argc - 1`, at the test of
its loop, at `pthread_mutex_lock`, at the test of `numUnjoined`, asleep in `pthread_cond_wait`, woken
there and at the mutex again, at the test of an entry, in `pthread_join` of a thread, at
`pthread_mutex_unlock`, at `exit`, or in an `errExitEN`. -/
inductive MainPc (n : ℕ) where
  | create (idx : ℕ)
  | setLive
  | test
  | lock
  | testUnjoined
  | asleep
  | woken
  | scan (idx : ℕ)
  | join (idx : Fin n)
  | unlock
  | exit
  | failed
  deriving DecidableEq

/-- Who holds `threadMutex`. -/
inductive Owner (n : ℕ) where
  | main
  | thread (i : Fin n)
  deriving DecidableEq

/-- The process with `n` threads: the variables, the `state` of each entry of `thread`, where each thread
and `main` are, the mutex, and the threads that `pthread_join` has joined, in order. -/
structure State (n : ℕ) where
  totThreads : ℤ
  numLive : ℤ
  numUnjoined : ℤ
  state : Fin n → TState
  thread : Fin n → ThreadPc
  main : MainPc n
  mutex : Option (Owner n)
  joins : List (Fin n)

/-- Who takes a step; `createFails` is a `pthread_create` that fails, and `wakeup` a spurious one. -/
inductive Label (n : ℕ) where
  | main
  | createFails
  | thread (i : Fin n)
  | wakeup

variable {n : ℕ}

/-- A step of a thread. A signal wakes `main` if it is asleep. -/
def threadFunc (s : State n) (i : Fin n) : Option (State n) :=
  match s.thread i with
  | .uncreated => none
  | .lock =>
    match s.mutex with
    | none => some { s with mutex := some (.thread i), thread := Function.update s.thread i .update }
    | some _ => none
  | .update =>
    some { s with
      numUnjoined := s.numUnjoined + 1
      state := Function.update s.state i .terminated
      thread := Function.update s.thread i .unlock }
  | .unlock => some { s with mutex := none, thread := Function.update s.thread i .signal }
  | .signal =>
    some { s with
      main := match s.main with
        | .asleep => .woken
        | pc => pc
      thread := Function.update s.thread i .returned }
  | .returned => none

/-- A step of `main`. It stays in `pthread_join` until the thread has returned. -/
def mainNext (s : State n) : Option (State n) :=
  match s.main with
  | .create idx =>
    if h : idx < n then
      some { s with
        state := Function.update s.state ⟨idx, h⟩ .alive
        thread := Function.update s.thread ⟨idx, h⟩ .lock
        main := .create (idx + 1) }
    else some { s with main := .setLive }
  | .setLive => some { s with totThreads := n, numLive := n, main := .test }
  | .test => some { s with main := if s.numLive ≠ 0 then .lock else .exit }
  | .lock =>
    match s.mutex with
    | none => some { s with mutex := some .main, main := .testUnjoined }
    | some _ => none
  | .testUnjoined =>
    if s.numUnjoined = 0 then some { s with mutex := none, main := .asleep }
    else some { s with main := .scan 0 }
  | .asleep => none
  | .woken =>
    match s.mutex with
    | none => some { s with mutex := some .main, main := .testUnjoined }
    | some _ => none
  | .scan idx =>
    if (idx : ℤ) < s.totThreads then
      if h : idx < n then
        if s.state ⟨idx, h⟩ = .terminated then some { s with main := .join ⟨idx, h⟩ }
        else some { s with main := .scan (idx + 1) }
      else none
    else some { s with main := .unlock }
  | .join idx =>
    if s.thread idx = .returned then
      some { s with
        state := Function.update s.state idx .joined
        numLive := s.numLive - 1
        numUnjoined := s.numUnjoined - 1
        joins := s.joins ++ [idx]
        main := .scan (idx.val + 1) }
    else none
  | .unlock => some { s with mutex := none, main := .test }
  | .exit | .failed => none

/-- One step. -/
def next (s : State n) : Label n → Option (State n)
  | .main => mainNext s
  | .createFails =>
    match s.main with
    | .create idx => if idx < n then some { s with main := .failed } else none
    | _ => none
  | .thread i => threadFunc s i
  | .wakeup =>
    match s.main with
    | .asleep => some { s with main := .woken }
    | _ => none

/-- A step of the process. -/
def Step (s : State n) (l : Label n) (s' : State n) : Prop := next s l = some s'

/-- The start: the variables and the entries are zero. -/
def State.init (n : ℕ) : State n where
  totThreads := 0
  numLive := 0
  numUnjoined := 0
  state _ := .alive
  thread _ := .uncreated
  main := .create 0
  mutex := none
  joins := []

/-! ## The invariant -/

/-- Whether a thread has terminated and is not joined. -/
def TState.isTerminated : TState → Bool
  | .terminated => true
  | _ => false

/-- Whether a thread is not joined. -/
def TState.isUnjoined : TState → Bool
  | .joined => false
  | _ => true

/-- The states that the entry of a thread can have at a point of the thread. -/
def ThreadPc.fits : ThreadPc → TState → Bool
  | .uncreated, .alive | .lock, .alive | .update, .alive => true
  | .unlock, .terminated | .signal, .terminated => true
  | .returned, .terminated | .returned, .joined => true
  | _, _ => false

/-- Whether `main` has set `numLive` and `totThreads`. -/
def MainPc.isSet : MainPc n → Bool
  | .create _ | .setLive | .failed => false
  | _ => true

/-- Whether a thread is between the locking of `threadMutex` and its release. -/
def ThreadPc.inLock : ThreadPc → Bool
  | .update | .unlock => true
  | _ => false

/-- Whether `main` is between the locking of `threadMutex` and its release. -/
def MainPc.inLock : MainPc n → Bool
  | .testUnjoined | .scan _ | .join _ | .unlock => true
  | _ => false

/-- Who is between the locking of `threadMutex` and its release. -/
def State.holds (s : State n) : Owner n → Bool
  | .main => s.main.inLock
  | .thread i => (s.thread i).inLock

/-- The invariant: the holder of the mutex, the two counters, and the threads that are joined. When
`main` falls asleep no thread is terminated, so one that terminates meanwhile has not returned. -/
structure State.Ok (s : State n) : Prop where
  owner : ∀ o, s.mutex = some o ↔ s.holds o = true
  unjoined : s.numUnjoined = count TState.isTerminated s.state
  live : s.main.isSet = true → s.numLive = count TState.isUnjoined s.state ∧ s.totThreads = n
  unset : s.main.isSet = false → ∀ i, s.state i ≠ .joined
  fits : ∀ i, (s.thread i).fits (s.state i) = true
  created : ∀ idx, s.main = .create idx → ∀ i : Fin n, idx ≤ i.val → s.thread i = .uncreated
  nodup : s.joins.Nodup
  joined : ∀ i, i ∈ s.joins ↔ s.state i = .joined
  joining : ∀ i, s.main = .join i → s.state i = .terminated
  asleep : s.main = .asleep → ∀ i, s.state i = .terminated → s.thread i ≠ .returned
  exited : s.main = .exit → s.numLive = 0

variable {s s' : State n} {l : Label n} {i : Fin n}

theorem init_ok (n : ℕ) : (State.init n).Ok where
  owner o := by cases o <;> simp [State.init, State.holds, MainPc.inLock, ThreadPc.inLock]
  unjoined := by
    have hzero : count TState.isTerminated (State.init n).state = 0 := count_eq_zero.mpr fun _ => rfl
    exact (congrArg Nat.cast hzero).symm
  live h := nomatch h
  unset _ _ := nofun
  fits _ := rfl
  created _ _ _ _ := rfl
  nodup := .nil
  joined _ := by simp [State.init]
  joining _ h := nomatch h
  asleep h := nomatch h
  exited h := nomatch h

/-! ## The mutex -/

section Owner

variable {m : Option (Owner n)} {holds holds' : Owner n → Bool} {o : Owner n}

theorem owner_acquire (h : ∀ u, m = some u ↔ holds u = true) (hfree : m = none)
    (hself : holds' o = true) (hother : ∀ u, u ≠ o → holds' u = holds u) (u : Owner n) :
    some o = some u ↔ holds' u = true := by
  rcases eq_or_ne u o with rfl | hne
  · simp [hself]
  · rw [hother u hne, ← h u, hfree]
    simp [hne.symm]

theorem owner_release (h : ∀ u, m = some u ↔ holds u = true) (hheld : holds o = true)
    (hself : holds' o = false) (hother : ∀ u, u ≠ o → holds' u = holds u) (u : Owner n) :
    none = some u ↔ holds' u = true := by
  rcases eq_or_ne u o with rfl | hne
  · simp [hself]
  · rw [hother u hne, ← h u, (h o).mpr hheld]
    simp [hne.symm]

theorem owner_keep (h : ∀ u, m = some u ↔ holds u = true) (hself : holds' o = holds o)
    (hother : ∀ u, u ≠ o → holds' u = holds u) (u : Owner n) : m = some u ↔ holds' u = true := by
  rcases eq_or_ne u o with rfl | hne
  · rw [hself, h u]
  · rw [hother u hne, h u]

end Owner

/-- A thread's move is not the others'. -/
theorem holds_thread (s : State n) (i : Fin n) (pc : ThreadPc) (u : Owner n) (hu : u ≠ .thread i) :
    ({ s with thread := Function.update s.thread i pc } : State n).holds u = s.holds u := by
  cases u with
  | main => rfl
  | thread j =>
    have hne : j ≠ i := fun he => hu (congrArg Owner.thread he)
    simp [State.holds, hne]

/-- A move of `main` is not the threads'. -/
theorem holds_main (s : State n) (pc : MainPc n) (u : Owner n) (hu : u ≠ .main) :
    ({ s with main := pc } : State n).holds u = s.holds u := by
  cases u with
  | main => exact absurd rfl hu
  | thread j => rfl

/-! ## The steps of a thread -/

/-- The entry of a thread, where only one state fits the point it is at. -/
theorem State.Ok.state_eq (hs : s.Ok) {pc : ThreadPc} {t : TState} (hpc : s.thread i = pc)
    (honly : ∀ u, pc.fits u = true → u = t) : s.state i = t :=
  honly _ (hpc ▸ hs.fits i)

/-- A thread that is created, and not joined, goes on and its entry becomes `t`. -/
theorem State.Ok.moveThread (hs : s.Ok) {pc : ThreadPc} {t : TState} {mutex : Option (Owner n)}
    {numUnjoined : ℤ} (hpc : s.thread i ≠ .uncreated) (hstate : s.state i ≠ .joined)
    (hfits : pc.fits t = true) (ht : t ≠ .joined) (hstays : s.state i = .terminated → t = .terminated)
    (hreturned : s.main = .asleep → t = .terminated → pc ≠ .returned)
    (howner : ∀ o, mutex = some o ↔
      ({ s with thread := Function.update s.thread i pc } : State n).holds o = true)
    (hunjoined : numUnjoined + ((s.state i).isTerminated.toNat : ℤ) =
      s.numUnjoined + (t.isTerminated.toNat : ℤ)) : ({ s with
      mutex
      numUnjoined
      state := Function.update s.state i t
      thread := Function.update s.thread i pc } : State n).Ok := by
  refine ⟨howner, ?_, ?_, ?_, ?_, ?_, hs.nodup, ?_, ?_, ?_, hs.exited⟩
  · have hcount := count_update TState.isTerminated s.state i t
    have hbefore := hs.unjoined
    show numUnjoined = count TState.isTerminated (Function.update s.state i t)
    omega
  · intro hset
    have hcount := count_update TState.isUnjoined s.state i t
    obtain ⟨hlive, htot⟩ := hs.live hset
    have hkept : ∀ u : TState, u ≠ .joined → u.isUnjoined = true := fun u hu => by
      cases u <;> first | rfl | exact absurd rfl hu
    rw [hkept _ hstate, hkept _ ht] at hcount
    refine ⟨?_, htot⟩
    show s.numLive = count TState.isUnjoined (Function.update s.state i t)
    omega
  · intro hset j
    rcases eq_or_ne j i with rfl | hne
    · simpa using ht
    · simpa [hne] using hs.unset hset j
  · intro j
    rcases eq_or_ne j i with rfl | hne
    · simpa using hfits
    · simpa [hne] using hs.fits j
  · intro idx hidx j hj
    rcases eq_or_ne j i with rfl | hne
    · exact absurd (hs.created idx hidx j hj) hpc
    · simpa [hne] using hs.created idx hidx j hj
  · intro j
    rcases eq_or_ne j i with rfl | hne
    · simp [hs.joined, hstate, ht]
    · simpa [hne] using hs.joined j
  · intro j hj
    rcases eq_or_ne j i with rfl | hne
    · simpa using hstays (hs.joining j hj)
    · simpa [hne] using hs.joining j hj
  · intro hasleep j hj
    rcases eq_or_ne j i with rfl | hne
    · simpa using hreturned hasleep (by simpa using hj)
    · simpa [hne] using hs.asleep hasleep j (by simpa [hne] using hj)

/-- A thread goes on with its entry as it is. -/
theorem State.Ok.passThread (hs : s.Ok) {pc : ThreadPc} {mutex : Option (Owner n)}
    (hpc : s.thread i ≠ .uncreated) (hstate : s.state i ≠ .joined)
    (hfits : pc.fits (s.state i) = true)
    (hreturned : s.main = .asleep → s.state i = .terminated → pc ≠ .returned)
    (howner : ∀ o, mutex = some o ↔
      ({ s with thread := Function.update s.thread i pc } : State n).holds o = true) :
    ({ s with mutex, thread := Function.update s.thread i pc } : State n).Ok := by
  have hmoved := hs.moveThread hpc hstate hfits hstate id hreturned howner rfl
  rwa [Function.update_eq_self] at hmoved

/-- A thread says that it has terminated. -/
theorem State.Ok.terminate (hs : s.Ok) (hpc : s.thread i = .update) : ({ s with
    numUnjoined := s.numUnjoined + 1
    state := Function.update s.state i .terminated
    thread := Function.update s.thread i .unlock } : State n).Ok := by
  have halive : s.state i = .alive := hs.state_eq hpc fun u => by cases u <;> simp [ThreadPc.fits]
  exact hs.moveThread (by simp [hpc]) (by simp [halive]) rfl nofun (fun _ => rfl) (fun _ _ => nofun)
    (owner_keep (o := .thread i) hs.owner (by simp [State.holds, hpc, ThreadPc.inLock])
      (holds_thread s i .unlock)) (by simp [halive, TState.isTerminated])

/-- A thread that has signalled returns, when `main` is not asleep. -/
theorem State.Ok.return (hs : s.Ok) (hpc : s.thread i = .signal) (hawake : s.main ≠ .asleep) :
    ({ s with thread := Function.update s.thread i .returned } : State n).Ok := by
  have hterminated : s.state i = .terminated :=
    hs.state_eq hpc fun u => by cases u <;> simp [ThreadPc.fits]
  exact hs.passThread (by simp [hpc]) (by simp [hterminated]) (by rw [hterminated]; rfl)
    (absurd · hawake)
    (owner_keep (o := .thread i) hs.owner (by simp [State.holds, hpc, ThreadPc.inLock])
      (holds_thread s i .returned))

/-- `main` goes on with the entries and the threads as they are. -/
theorem State.Ok.moveMain (hs : s.Ok) {pc : MainPc n} {mutex : Option (Owner n)}
    (hset : pc.isSet = s.main.isSet) (hcreate : ∀ idx, pc ≠ .create idx)
    (hjoin : ∀ i, pc = .join i → s.state i = .terminated)
    (hasleep : pc = .asleep → ∀ i, s.state i ≠ .terminated) (hexit : pc = .exit → s.numLive = 0)
    (howner : ∀ o, mutex = some o ↔ ({ s with main := pc } : State n).holds o = true) :
    ({ s with main := pc, mutex } : State n).Ok :=
  ⟨howner, hs.unjoined, fun h => hs.live (hset ▸ h), fun h => hs.unset (hset ▸ h), hs.fits,
    fun idx hidx => absurd hidx (hcreate idx), hs.nodup, hs.joined, hjoin,
    fun h i hi => absurd hi (hasleep h i), hexit⟩

/-- `main` goes on without locking or releasing the mutex. -/
theorem State.Ok.goOn (hs : s.Ok) {pc : MainPc n} (hset : pc.isSet = s.main.isSet)
    (hlock : pc.inLock = s.main.inLock) (hcreate : ∀ idx, pc ≠ .create idx)
    (hjoin : ∀ i, pc = .join i → s.state i = .terminated) (hasleep : pc ≠ .asleep)
    (hexit : pc = .exit → s.numLive = 0) : ({ s with main := pc } : State n).Ok :=
  hs.moveMain hset hcreate hjoin (absurd · hasleep) hexit
    (owner_keep (o := .main) hs.owner hlock (holds_main s pc))

/-- `main` wakes up. -/
theorem State.Ok.wake (hs : s.Ok) (hpc : s.main = .asleep) :
    ({ s with main := .woken } : State n).Ok :=
  hs.goOn (by rw [hpc]; rfl) (by rw [hpc]; rfl) nofun nofun nofun nofun

/-- `main` locks the mutex. -/
theorem State.Ok.lock (hs : s.Ok) (hset : s.main.isSet = true) (hfree : s.mutex = none) :
    ({ s with mutex := some .main, main := .testUnjoined } : State n).Ok :=
  hs.moveMain hset.symm nofun nofun nofun nofun (owner_acquire hs.owner hfree rfl (holds_main s _))

/-- `main` releases the mutex. -/
theorem State.Ok.release (hs : s.Ok) {pc : MainPc n} (hset : pc.isSet = s.main.isSet)
    (hlock : s.main.inLock = true) (hpc : pc = .test ∨ pc = .asleep ∧ ∀ i, s.state i ≠ .terminated) :
    ({ s with mutex := none, main := pc } : State n).Ok := by
  have hout : pc.inLock = false := by rcases hpc with rfl | ⟨rfl, -⟩ <;> rfl
  refine hs.moveMain hset ?_ ?_ ?_ ?_
    (owner_release (o := .main) hs.owner hlock hout (holds_main s pc))
  · intro idx he
    rcases hpc with rfl | ⟨rfl, -⟩ <;> cases he
  · intro i he
    rcases hpc with rfl | ⟨rfl, -⟩ <;> cases he
  · intro he
    rcases hpc with rfl | ⟨-, hnone⟩
    · cases he
    · exact hnone
  · intro he
    rcases hpc with rfl | ⟨rfl, -⟩ <;> cases he

/-- Every step of a thread keeps the invariant. -/
theorem State.Ok.thread (hs : s.Ok) (h : threadFunc s i = some s') : s'.Ok := by
  simp only [threadFunc] at h
  split at h
  · cases h
  · rename_i hpc
    split at h
    · rename_i hfree
      cases h
      have halive : s.state i = .alive :=
        hs.state_eq hpc fun u => by cases u <;> simp [ThreadPc.fits]
      exact hs.passThread (by simp [hpc]) (by simp [halive]) (by rw [halive]; rfl) (fun _ _ => nofun)
        (owner_acquire (o := .thread i) hs.owner hfree (by simp [State.holds, ThreadPc.inLock])
          (holds_thread s i .update))
    · cases h
  · rename_i hpc
    cases h
    exact hs.terminate hpc
  · rename_i hpc
    cases h
    have hterminated : s.state i = .terminated :=
      hs.state_eq hpc fun u => by cases u <;> simp [ThreadPc.fits]
    exact hs.passThread (by simp [hpc]) (by simp [hterminated]) (by rw [hterminated]; rfl)
      (fun _ _ => nofun)
      (owner_release (o := .thread i) hs.owner (by simp [State.holds, hpc, ThreadPc.inLock])
        (by simp [State.holds, ThreadPc.inLock]) (holds_thread s i .signal))
  · rename_i hpc
    cases h
    split
    · rename_i hasleep
      exact (hs.wake hasleep).return hpc nofun
    · rename_i hawake
      exact hs.return hpc hawake
  · cases h

/-! ## The steps of `main` -/

/-- `main` creates the next thread. -/
theorem State.Ok.create (hs : s.Ok) {idx : ℕ} (hidx : idx < n) (hpc : s.main = .create idx) : ({ s with
    state := Function.update s.state ⟨idx, hidx⟩ .alive
    thread := Function.update s.thread ⟨idx, hidx⟩ .lock
    main := .create (idx + 1) } : State n).Ok := by
  have hnew : s.thread ⟨idx, hidx⟩ = .uncreated := hs.created idx hpc _ le_rfl
  have halive : s.state ⟨idx, hidx⟩ = .alive :=
    hs.state_eq hnew fun u => by cases u <;> simp [ThreadPc.fits]
  have hsame : Function.update s.state ⟨idx, hidx⟩ .alive = s.state := by
    rw [← halive, Function.update_eq_self]
  rw [hsame]
  refine ⟨?_, hs.unjoined, nofun, fun _ => hs.unset (by rw [hpc]; rfl), ?_,
    ?_, hs.nodup, hs.joined, nofun, nofun, nofun⟩
  · intro u
    rw [owner_keep (o := .thread ⟨idx, hidx⟩) hs.owner (by simp [State.holds, hnew, ThreadPc.inLock])
      (holds_thread s ⟨idx, hidx⟩ .lock) u]
    cases u with
    | main => simp [State.holds, hpc, MainPc.inLock]
    | thread j => rfl
  · intro j
    rcases eq_or_ne j ⟨idx, hidx⟩ with rfl | hne
    · simp [halive, ThreadPc.fits]
    · simpa [hne] using hs.fits j
  · intro k hk j hj
    obtain rfl : idx + 1 = k := by simpa using hk
    have hne : j ≠ ⟨idx, hidx⟩ := by
      rintro rfl
      exact Nat.not_succ_le_self idx hj
    simpa [hne] using hs.created idx hpc j (by omega)

/-- `main` sets `numLive`, before it has joined a thread. -/
theorem State.Ok.setLive (hs : s.Ok) (hpc : s.main = .setLive) :
    ({ s with totThreads := n, numLive := n, main := .test } : State n).Ok := by
  have hall : Fintype.card (Fin n) ≤ count TState.isUnjoined s.state := by
    refine card_le_count.mpr ?_
    intro i
    have hi := hs.unset (by rw [hpc]; rfl) i
    cases hst : s.state i <;> first | rfl | exact absurd hst hi
  have hle : count TState.isUnjoined s.state ≤ Fintype.card (Fin n) := Finset.card_filter_le _ _
  rw [Fintype.card_fin] at hall hle
  refine ⟨?_, hs.unjoined, fun _ => ⟨?_, rfl⟩, nofun, hs.fits, nofun, hs.nodup, hs.joined, nofun,
    nofun, nofun⟩
  · exact owner_keep (o := .main) hs.owner (by rw [State.holds, State.holds, hpc]; rfl)
      (holds_main s .test)
  · exact congrArg Nat.cast (le_antisymm hall hle)

/-- `main` joins a terminated thread. -/
theorem State.Ok.join (hs : s.Ok) (hpc : s.main = .join i) (hreturned : s.thread i = .returned) :
    ({ s with
      state := Function.update s.state i .joined
      numLive := s.numLive - 1
      numUnjoined := s.numUnjoined - 1
      joins := s.joins ++ [i]
      main := .scan (i.val + 1) } : State n).Ok := by
  have hi := hs.joining i hpc
  have hnot : i ∉ s.joins := by simp [hs.joined, hi]
  refine ⟨?_, ?_, ?_, nofun, ?_, nofun, ?_, ?_, nofun, nofun, nofun⟩
  · exact owner_keep (o := .main) hs.owner (by rw [State.holds, State.holds, hpc]; rfl)
      (holds_main s _)
  · have hcount := count_update TState.isTerminated s.state i .joined
    have hunjoined := hs.unjoined
    simp only [hi, TState.isTerminated, Bool.toNat_false, Bool.toNat_true] at hcount
    show s.numUnjoined - 1 = count TState.isTerminated (Function.update s.state i .joined)
    omega
  · intro _
    have hcount := count_update TState.isUnjoined s.state i .joined
    obtain ⟨hlive, htot⟩ := hs.live (by rw [hpc]; rfl)
    simp only [hi, TState.isUnjoined, Bool.toNat_false, Bool.toNat_true] at hcount
    refine ⟨?_, htot⟩
    show s.numLive - 1 = count TState.isUnjoined (Function.update s.state i .joined)
    omega
  · intro j
    rcases eq_or_ne j i with rfl | hne
    · simp [hreturned, ThreadPc.fits]
    · simpa [hne] using hs.fits j
  · exact List.nodup_append'.mpr ⟨hs.nodup, List.nodup_singleton i, by simpa using hnot⟩
  · intro j
    rcases eq_or_ne j i with rfl | hne
    · simp
    · simpa [hne] using hs.joined j

/-- Every step of `main` keeps the invariant. -/
theorem State.Ok.main (hs : s.Ok) (h : mainNext s = some s') : s'.Ok := by
  simp only [mainNext] at h
  split at h
  · rename_i idx hpc
    split at h
    · rename_i hidx
      cases h
      exact hs.create hidx hpc
    · cases h
      exact hs.goOn (by rw [hpc]; rfl) (by rw [hpc]; rfl) nofun nofun nofun nofun
  · rename_i hpc
    cases h
    exact hs.setLive hpc
  · rename_i hpc
    cases h
    split
    · exact hs.goOn (by rw [hpc]; rfl) (by rw [hpc]; rfl) nofun nofun nofun nofun
    · rename_i hzero
      exact hs.goOn (by rw [hpc]; rfl) (by rw [hpc]; rfl) nofun nofun nofun fun _ => not_ne_iff.mp hzero
  · rename_i hpc
    split at h
    · cases h
      exact hs.lock (by rw [hpc]; rfl) ‹_›
    · cases h
  · -- the test of `numUnjoined`
    rename_i hpc
    split at h
    · rename_i hzero
      cases h
      refine hs.release (by rw [hpc]; rfl) (by rw [hpc]; rfl) (.inr ⟨rfl, ?_⟩)
      intro i hi
      have hcount : count TState.isTerminated s.state = 0 := by
        have hunjoined := hs.unjoined
        omega
      have hfalse := count_eq_zero.mp hcount i
      rw [hi] at hfalse
      cases hfalse
    · cases h
      exact hs.goOn (by rw [hpc]; rfl) (by rw [hpc]; rfl) nofun nofun nofun nofun
  · cases h
  · rename_i hpc
    split at h
    · cases h
      exact hs.lock (by rw [hpc]; rfl) ‹_›
    · cases h
  · rename_i idx hpc
    split at h
    · split at h
      · split at h
        · rename_i hterminated
          cases h
          refine hs.goOn (by rw [hpc]; rfl) (by rw [hpc]; rfl) nofun ?_ nofun nofun
          intro i hi
          cases hi
          exact hterminated
        · cases h
          exact hs.goOn (by rw [hpc]; rfl) (by rw [hpc]; rfl) nofun nofun nofun nofun
      · cases h
    · cases h
      exact hs.goOn (by rw [hpc]; rfl) (by rw [hpc]; rfl) nofun nofun nofun nofun
  · rename_i idx hpc
    split at h
    · rename_i hreturned
      cases h
      exact hs.join hpc hreturned
    · cases h
  · rename_i hpc
    cases h
    exact hs.release (by rw [hpc]; rfl) (by rw [hpc]; rfl) (.inl rfl)
  · cases h
  · cases h

/-- Every step keeps the invariant. -/
theorem ok_step (hs : s.Ok) (h : Step s l s') : s'.Ok := by
  cases l with
  | main => exact hs.main h
  | createFails =>
    simp only [Step, next] at h
    split at h
    · rename_i idx hpc
      split at h
      · cases h
        exact hs.goOn (by rw [hpc]; rfl) (by rw [hpc]; rfl) nofun nofun nofun nofun
      · cases h
    · cases h
  | thread i => exact hs.thread h
  | wakeup =>
    simp only [Step, next] at h
    split at h
    · rename_i hpc
      cases h
      exact hs.wake hpc
    · cases h

/-- Every state of a run satisfies the invariant. -/
theorem ok_of_run {ls : List (Label n)} (h : Run Step (State.init n) ls s) : s.Ok :=
  h.invariant (fun _ _ _ hs hstep => ok_step hs hstep) (init_ok n)

/-- Whether a thread has its signal still to send. -/
def ThreadPc.willSignal : ThreadPc → Bool
  | .unlock | .signal => true
  | _ => false

/-- In every run, with any number of threads: while `threadMutex` is free, `numUnjoined` is the number of
terminated threads and `numLive`, once it is set, that of the threads that are not joined; no thread is
joined twice, those joined have returned, one that `main` is to join has terminated, and all are joined
when `main` exits; and while `main` is asleep without having been woken, every terminated thread has its
signal still to send. -/
theorem joins_each_once {ls : List (Label n)} (h : Run Step (State.init n) ls s) :
    (s.mutex = none → s.numUnjoined = count TState.isTerminated s.state ∧
      (s.main.isSet = true → s.numLive = count TState.isUnjoined s.state)) ∧
    (s.joins.Nodup ∧ (∀ i, i ∈ s.joins ↔ s.state i = .joined) ∧
      (∀ i, s.state i = .joined → s.thread i = .returned) ∧
      (∀ i, s.main = .join i → s.state i = .terminated) ∧ (s.main = .exit → ∀ i, i ∈ s.joins)) ∧
    (s.main = .asleep → ∀ i, s.state i = .terminated → (s.thread i).willSignal = true) := by
  have hs := ok_of_run h
  refine ⟨fun _ => ⟨hs.unjoined, fun hset => (hs.live hset).1⟩, ⟨hs.nodup, hs.joined, ?_,
    hs.joining, ?_⟩, ?_⟩
  · intro i hi
    have hfits := hs.fits i
    rw [hi] at hfits
    cases hpc : s.thread i <;> rw [hpc] at hfits <;> first | rfl | cases hfits
  · intro hexit i
    have hzero : count TState.isUnjoined s.state = 0 := by
      have hlive := (hs.live (by rw [hexit]; rfl)).1
      have hnone := hs.exited hexit
      omega
    have hi := count_eq_zero.mp hzero i
    rw [hs.joined]
    cases hst : s.state i <;> first | rfl | (rw [hst] at hi; cases hi)
  · intro hasleep i hi
    have hfits := hs.fits i
    have hnot := hs.asleep hasleep i hi
    rw [hi] at hfits
    cases hpc : s.thread i <;> rw [hpc] at hfits <;>
      first | rfl | exact absurd hpc hnot | cases hfits

/-- Two threads: the second one ends before `numLive` is set, and its signal finds nobody. `main` joins
it, falls asleep, is woken by the first one's signal, joins that one and exits. -/
theorem joins_each_once_two : ∃ s : State 2, Run Step (State.init 2)
    [.main, .main, .thread 1, .thread 1, .thread 1, .thread 1, .main, .main, .main, .main, .main,
      .main, .main, .main, .main, .main, .main, .main, .main, .thread 0, .thread 0, .thread 0,
      .thread 0, .main, .main, .main, .main, .main, .main, .main, .main] s ∧
    s.main = .exit ∧ ∀ i, i ∈ s.joins := by
  have hexec : (exec next (State.init 2)
      [.main, .main, .thread 1, .thread 1, .thread 1, .thread 1, .main, .main, .main, .main, .main,
        .main, .main, .main, .main, .main, .main, .main, .main, .thread 0, .thread 0, .thread 0,
        .thread 0, .main, .main, .main, .main, .main, .main, .main, .main]).map
      State.main = some .exit := by decide
  obtain ⟨s, hrun, hexit⟩ := Run.of_exec_map hexec
  exact ⟨s, hrun, hexit, (joins_each_once hrun).2.1.2.2.2.2 hexit⟩

end Multijoin

end Ulsp
