import Ulsp.Lib.Run
import Ulsp.Lib.Tally
import Mathlib.Algebra.Order.Ring.Int

/-!
# Reaping in a handler (`procexec/multi_SIGCHLD.c`)

`main` counts its children in `numLiveChildren` before it forks them, and waits in `sigsuspend` until
the handler of `SIGCHLD` has reaped them all. The signal is pending at most once, however many children
end, so the handler goes on with `waitpid` until it finds no zombie. `SIGCHLD` is blocked in the handler,
and outside of `sigsuspend`: a child that ends after the last `waitpid` leaves the signal pending for the
next `sigsuspend`, and one that ends between the test of the loop and `sigsuspend` does so too.

A run starts after `numLiveChildren` and the handler have been set. The signal may come from elsewhere
too, as when a child stops.
-/

namespace Ulsp

open Lib

namespace Sigchld

/-- A child: still to be forked, running, a zombie or reaped. -/
inductive Child where
  | unforked
  | running
  | zombie
  | reaped
  deriving DecidableEq

/-- Whether a child is still to be reaped. -/
def Child.isLive : Child → Bool
  | unforked => true
  | running => true
  | zombie => true
  | reaped => false

/-- Where `main` is: at `sigprocmask`, at the `fork` of the next child after `j` of them, at the test of
the loop, at the call of `sigsuspend`, in `sigsuspend`, behind the loop, or in `errExit("fork")`. -/
inductive MainPc where
  | sigprocmask
  | fork (j : ℕ)
  | test
  | call
  | sigsuspend
  | left
  | failed
  deriving DecidableEq

/-- Where the handler is: at the `waitpid` of its loop, or behind the loop. -/
inductive HandlerPc where
  | waitpid
  | finish
  deriving DecidableEq

/-- The process, with `n` arguments: its variables, its children, whether `SIGCHLD` is pending and whether
`main` has it blocked, and the handler if it is running. -/
structure State (n : ℕ) where
  numLiveChildren : ℤ
  sigCnt : ℤ
  child : Fin n → Child
  pending : Bool
  blocked : Bool
  main : MainPc
  handler : Option HandlerPc

/-- What happens: a step of `main`, a `fork` that fails, the end of a child, a `SIGCHLD` from elsewhere,
the call of the handler, a `waitpid` that reaps a child with the decrement after it, one that reaps
none, and the return of the handler. -/
inductive Label (n : ℕ) where
  | main
  | forkFails
  | exit (i : Fin n)
  | signal
  | deliver
  | reap (i : Fin n)
  | reapNone
  | handlerReturns

variable {n : ℕ}

/-- A step of `main`, which the handler interrupts. -/
def mainNext (s : State n) : Option (State n) :=
  match s.handler, s.main with
  | some _, _ => none
  | none, .sigprocmask => some { s with blocked := true, main := .fork 0 }
  | none, .fork j =>
    if h : j < n then
      some { s with child := Function.update s.child ⟨j, h⟩ .running, main := .fork (j + 1) }
    else some { s with main := .test }
  | none, .test => some { s with main := if 0 < s.numLiveChildren then .call else .left }
  | none, .call => some { s with main := .sigsuspend }
  | none, .sigsuspend | none, .left | none, .failed => none

/-- One step. `sigsuspend` lets the signal through, and returns after the handler has. -/
def next (s : State n) : Label n → Option (State n)
  | .main => mainNext s
  | .forkFails =>
    match s.handler, s.main with
    | none, .fork j => if j < n then some { s with main := .failed } else none
    | _, _ => none
  | .exit i =>
    if s.child i = .running then
      some { s with child := Function.update s.child i .zombie, pending := true }
    else none
  | .signal => some { s with pending := true }
  | .deliver =>
    if s.pending ∧ s.handler = none ∧ (s.blocked = false ∨ s.main = .sigsuspend) then
      some { s with pending := false, handler := some .waitpid }
    else none
  | .reap i =>
    if s.handler = some .waitpid ∧ s.child i = .zombie then
      some { s with
        child := Function.update s.child i .reaped
        numLiveChildren := s.numLiveChildren - 1 }
    else none
  | .reapNone =>
    if s.handler = some .waitpid ∧ ∀ i, s.child i ≠ .zombie then
      some { s with handler := some .finish }
    else none
  | .handlerReturns =>
    if s.handler = some .finish then
      match s.main with
      | .sigsuspend => some { s with handler := none, main := .test, sigCnt := s.sigCnt + 1 }
      | _ => some { s with handler := none }
    else none

/-- A step of the process. -/
def Step (s : State n) (l : Label n) (s' : State n) : Prop := next s l = some s'

/-- The start, with the signal mask and a pending signal as they are inherited. -/
def State.init (n : ℕ) (pending blocked : Bool) : State n where
  numLiveChildren := n
  sigCnt := 0
  child _ := .unforked
  pending := pending
  blocked := blocked
  main := .sigprocmask
  handler := none

/-! ## The invariant -/

/-- `main` is at a point where the handler does not run. -/
def MainPc.undisturbed : MainPc → Bool
  | .sigprocmask => false
  | .sigsuspend => false
  | _ => true

/-- How many of the `n` children `main` has forked at a point, unless a `fork` has failed. -/
def MainPc.forkedTo (n : ℕ) : MainPc → Option ℕ
  | .sigprocmask => some 0
  | .fork j => some j
  | .failed => none
  | _ => some n

/-- The invariant: the count, a zombie that the handler will find or the signal announces, the mask,
a child not reaped when `main` goes to sleep, and the children that have been forked. -/
structure State.Ok (s : State n) : Prop where
  live : s.numLiveChildren = count Child.isLive s.child
  announced : ∀ i, s.child i = .zombie → s.pending = true ∨ s.handler = some .waitpid
  masked : s.main ≠ .sigprocmask → s.blocked = true
  undisturbed : s.main.undisturbed = true → s.handler = none
  asleep : s.main = .call ∨ s.main = .sigsuspend ∧ s.handler = none → 0 < s.numLiveChildren
  forked : ∀ j, s.main.forkedTo n = some j → ∀ i, s.child i = .unforked ↔ j ≤ i.val
  left : s.main = .left → s.numLiveChildren ≤ 0

variable {s s' : State n} {l : Label n}

theorem init_ok (n : ℕ) (pending blocked : Bool) : (State.init n pending blocked).Ok where
  live := by
    have hall : Fintype.card (Fin n) ≤ count Child.isLive (State.init n pending blocked).child :=
      card_le_count.mpr fun _ => rfl
    have hle : count Child.isLive (State.init n pending blocked).child ≤ Fintype.card (Fin n) :=
      Finset.card_filter_le _ _
    rw [Fintype.card_fin] at hall hle
    exact congrArg Nat.cast (le_antisymm hall hle)
  announced _ h := nomatch h
  masked h := absurd rfl h
  undisturbed h := nomatch h
  asleep h := by rcases h with h | ⟨h, -⟩ <;> cases h
  forked j hj i := by
    obtain rfl : 0 = j := Option.some.inj hj
    exact iff_of_true rfl (Nat.zero_le _)
  left h := nomatch h

/-! ## The steps -/

/-- A child that goes on without being reaped is counted as before. -/
theorem count_live_update {i : Fin n} {c : Child} (h : (s.child i).isLive = true)
    (hc : c.isLive = true) :
    count Child.isLive (Function.update s.child i c) = count Child.isLive s.child := by
  have hcount := count_update Child.isLive s.child i c
  rw [h, hc] at hcount
  omega

/-- The children that have been forked, after a step that forks none and does not reap a child that has
not been forked. -/
theorem forked_update {i : Fin n} {c : Child} {j : ℕ} (hi : s.child i ≠ .unforked)
    (hc : c ≠ .unforked) (h : ∀ k, s.child k = .unforked ↔ j ≤ k.val) (k : Fin n) :
    Function.update s.child i c k = .unforked ↔ j ≤ k.val := by
  rw [← h k]
  rcases eq_or_ne k i with rfl | hne
  · simp [hi, hc]
  · simp [hne]

/-- The next child is forked. -/
theorem State.Ok.fork (hs : s.Ok) {j : ℕ} (hj : j < n) (hpc : s.main = .fork j) :
    ({ s with child := Function.update s.child ⟨j, hj⟩ .running, main := .fork (j + 1) } :
      State n).Ok := by
  obtain ⟨hlive, hannounced, hmasked, hundisturbed, hasleep, hforked, hleft⟩ := hs
  have hforked' := hforked j (by rw [hpc]; rfl)
  have hj' : s.child ⟨j, hj⟩ = .unforked := (hforked' _).mpr le_rfl
  refine ⟨?_, ?_, fun _ => hmasked (by simp [hpc]),
    fun _ => hundisturbed (by rw [hpc]; rfl), by simp, ?_, nofun⟩
  · show s.numLiveChildren = count Child.isLive (Function.update s.child ⟨j, hj⟩ .running)
    rw [count_live_update (by rw [hj']; rfl) rfl, hlive]
  · intro i hi
    rcases eq_or_ne i ⟨j, hj⟩ with rfl | hne
    · simp at hi
    · exact hannounced i (by simpa [hne] using hi)
  · intro k hk i
    obtain rfl : j + 1 = k := Option.some.inj hk
    rcases eq_or_ne i ⟨j, hj⟩ with rfl | hne
    · simp
    · have hval : i.val ≠ j := fun he => hne (Fin.ext he)
      simp only [ne_eq, hne, not_false_eq_true, Function.update_of_ne, hforked']
      omega

/-- `main` goes on without forking a child, where the handler does not run. -/
theorem State.Ok.moveMain (hs : s.Ok) {pc : MainPc} {blocked : Bool} (hidle : s.handler = none)
    (hmasked : pc ≠ .sigprocmask → blocked = true)
    (hasleep : pc = .call ∨ pc = .sigsuspend → 0 < s.numLiveChildren)
    (hforked : ∀ j, pc.forkedTo n = some j → ∀ i, s.child i = .unforked ↔ j ≤ i.val)
    (hleft : pc = .left → s.numLiveChildren ≤ 0) : ({ s with blocked, main := pc } : State n).Ok :=
  ⟨hs.live, hs.announced, hmasked, fun _ => hidle, fun h => hasleep (h.imp_right And.left), hforked,
    hleft⟩

/-- The children forked at two points, where their number is the same. -/
theorem State.Ok.forked_of (hs : s.Ok) {pc : MainPc} (h : pc.forkedTo n = s.main.forkedTo n) (j : ℕ)
    (hj : pc.forkedTo n = some j) (i : Fin n) : s.child i = .unforked ↔ j ≤ i.val :=
  hs.forked j (h ▸ hj) i

/-- A step of `main`. -/
theorem State.Ok.main (hs : s.Ok) (h : mainNext s = some s') : s'.Ok := by
  simp only [mainNext] at h
  split at h
  · cases h
  · rename_i hidle hpc
    cases h
    exact hs.moveMain hidle (fun _ => rfl) (by simp) (hs.forked_of (by rw [hpc]; rfl)) nofun
  · rename_i j hidle hpc
    have hblocked := hs.masked (by simp [hpc])
    split at h
    · rename_i hj
      cases h
      exact hs.fork hj hpc
    · rename_i hj
      cases h
      refine hs.moveMain hidle (fun _ => hblocked) (by simp) ?_ nofun
      intro k hk i
      obtain rfl : n = k := Option.some.inj hk
      rw [hs.forked j (by rw [hpc]; rfl)]
      omega
  · -- the test of the loop
    rename_i hidle hpc
    have hblocked := hs.masked (by simp [hpc])
    cases h
    split
    · rename_i hpos
      exact hs.moveMain hidle (fun _ => hblocked) (fun _ => hpos) (hs.forked_of (by rw [hpc]; rfl))
        nofun
    · rename_i hnone
      exact hs.moveMain hidle (fun _ => hblocked) (by simp) (hs.forked_of (by rw [hpc]; rfl))
        fun _ => not_lt.mp hnone
  · rename_i hidle hpc
    cases h
    exact hs.moveMain hidle (fun _ => hs.masked (by simp [hpc])) (fun _ => hs.asleep (.inl hpc))
      (hs.forked_of (by rw [hpc]; rfl)) nofun
  · cases h
  · cases h
  · cases h

/-- A running child ends. -/
theorem State.Ok.exit (hs : s.Ok) {i : Fin n} (hi : s.child i = .running) :
    ({ s with child := Function.update s.child i .zombie, pending := true } : State n).Ok := by
  obtain ⟨hlive, hannounced, hmasked, hundisturbed, hasleep, hforked, hleft⟩ := hs
  refine ⟨?_, fun _ _ => .inl rfl, hmasked, hundisturbed, hasleep, ?_, hleft⟩
  · show s.numLiveChildren = count Child.isLive (Function.update s.child i .zombie)
    rw [count_live_update (by rw [hi]; rfl) rfl, hlive]
  · intro k hk
    exact forked_update (by simp [hi]) nofun (hforked k hk)

/-! ## The steps of the handler -/

/-- Where `main` is while the handler runs. -/
theorem State.Ok.interrupted (hs : s.Ok) {pc : HandlerPc} (hpc : s.handler = some pc) :
    s.main = .sigprocmask ∨ s.main = .sigsuspend := by
  have hdisturbed : s.main.undisturbed ≠ true := fun h => by
    cases hpc.symm.trans (hs.undisturbed h)
  cases hmain : s.main <;> rw [hmain] at hdisturbed <;>
    first | exact .inl rfl | exact .inr rfl | exact absurd rfl hdisturbed

/-- What the invariant says of `main` where the handler runs, or is to run. -/
theorem MainPc.of_interrupted {pc : MainPc} (h : pc = .sigprocmask ∨ pc = .sigsuspend) :
    pc.undisturbed ≠ true ∧ pc ≠ .call ∧ pc ≠ .left := by
  rcases h with rfl | rfl <;> exact ⟨nofun, nofun, nofun⟩

/-- The handler is called, goes on or reaps a child. -/
theorem State.Ok.moveHandler (hs : s.Ok) {pc : HandlerPc} {pending : Bool}
    (hmain : s.main = .sigprocmask ∨ s.main = .sigsuspend)
    (hannounced : ∀ i, s.child i = .zombie → pending = true ∨ pc = .waitpid) :
    ({ s with pending, handler := some pc } : State n).Ok := by
  obtain ⟨hdisturbed, hcall, hleft⟩ := MainPc.of_interrupted hmain
  refine ⟨hs.live, fun i hi => (hannounced i hi).imp_right (congrArg some), hs.masked,
    fun h => absurd h hdisturbed, ?_, hs.forked, fun h => absurd h hleft⟩
  rintro (h | ⟨-, h⟩)
  · exact absurd h hcall
  · cases h

/-- `waitpid` reaps a zombie. -/
theorem State.Ok.reap (hs : s.Ok) {i : Fin n} (hpc : s.handler = some .waitpid)
    (hi : s.child i = .zombie) : ({ s with
      child := Function.update s.child i .reaped
      numLiveChildren := s.numLiveChildren - 1 } : State n).Ok := by
  obtain ⟨-, hcall, hleft⟩ := MainPc.of_interrupted (hs.interrupted hpc)
  refine ⟨?_, fun j hj => .inr hpc, hs.masked, hs.undisturbed, ?_, ?_, fun h => absurd h hleft⟩
  · have hcount := count_update Child.isLive s.child i .reaped
    have hlive := hs.live
    rw [hi] at hcount
    simp only [Child.isLive, Bool.toNat_true, Bool.toNat_false] at hcount
    show s.numLiveChildren - 1 = count Child.isLive (Function.update s.child i .reaped)
    omega
  · rintro (h | ⟨-, hnone⟩)
    · exact absurd h hcall
    · cases hpc.symm.trans hnone
  · intro k hk
    exact forked_update (by simp [hi]) nofun (hs.forked k hk)

/-- The handler returns, and `main` goes on in `sigprocmask` or behind `sigsuspend`. -/
theorem State.Ok.handlerReturns (hs : s.Ok) (hpc : s.handler = some .finish)
    (h : next s .handlerReturns = some s') : s'.Ok := by
  have hpending : ∀ i, s.child i = .zombie → s.pending = true := fun i hi =>
    (hs.announced i hi).resolve_right (by simp [hpc])
  have hmain := hs.interrupted hpc
  obtain ⟨-, hcall, hleft⟩ := MainPc.of_interrupted hmain
  simp only [next, hpc, if_true] at h
  split at h
  · rename_i hsuspend
    cases h
    exact ⟨hs.live, fun i hi => .inl (hpending i hi), fun _ => hs.masked (by simp [hsuspend]),
      fun _ => rfl, by simp, hs.forked_of (by rw [hsuspend]; rfl), nofun⟩
  · rename_i hawake
    cases h
    refine ⟨hs.live, fun i hi => .inl (hpending i hi), hs.masked, fun _ => rfl, ?_, hs.forked,
      fun h => absurd h hleft⟩
    rintro (h | ⟨hsuspend, -⟩)
    · exact absurd h hcall
    · exact absurd hsuspend hawake

/-- Every step keeps the invariant. -/
theorem ok_step (hs : s.Ok) (h : Step s l s') : s'.Ok := by
  simp only [Step] at h
  cases l with
  | main => exact hs.main h
  | forkFails =>
    simp only [next] at h
    split at h
    · rename_i j hidle hpc
      split at h
      · cases h
        exact hs.moveMain hidle (fun _ => hs.masked (by simp [hpc])) (by simp) nofun nofun
      · cases h
    · cases h
  | exit i =>
    simp only [next] at h
    split at h
    · rename_i hi
      cases h
      exact hs.exit hi
    · cases h
  | signal =>
    cases h
    exact ⟨hs.live, fun _ _ => .inl rfl, hs.masked, hs.undisturbed, hs.asleep, hs.forked, hs.left⟩
  | deliver =>
    simp only [next] at h
    split at h
    · rename_i hopen
      cases h
      -- the signal is let through where it is not blocked, or in `sigsuspend`
      refine hs.moveHandler (hopen.2.2.imp_left ?_) fun _ _ => .inr rfl
      intro hunblocked
      by_contra hne
      cases hunblocked.symm.trans (hs.masked hne)
    · cases h
  | reap i =>
    simp only [next] at h
    split at h
    · rename_i hi
      cases h
      exact hs.reap hi.1 hi.2
    · cases h
  | reapNone =>
    simp only [next] at h
    split at h
    · rename_i hnone
      cases h
      exact hs.moveHandler (hs.interrupted hnone.1) fun i hi => absurd hi (hnone.2 i)
    · cases h
  | handlerReturns =>
    by_cases hpc : s.handler = some .finish
    · exact hs.handlerReturns hpc h
    · simp [next, hpc] at h

/-- Every state of a run satisfies the invariant. -/
theorem ok_of_run {pending blocked : Bool} {ls : List (Label n)}
    (h : Run Step (State.init n pending blocked) ls s) : s.Ok :=
  h.invariant (fun _ _ _ hs hstep => ok_step hs hstep) (init_ok n pending blocked)

/-! ## What the counter and `sigsuspend` rely on -/

/-- In every run, with any number of children, `numLiveChildren` is the number of those still to be
forked, running or zombies; `main` does not wait in `sigsuspend` with a zombie left, the handler not
running and the signal not pending; and it leaves its loop only when all children have been reaped. -/
theorem no_child_lost {pending blocked : Bool} {ls : List (Label n)}
    (h : Run Step (State.init n pending blocked) ls s) :
    s.numLiveChildren = count Child.isLive s.child ∧
    ¬(s.main = .sigsuspend ∧ s.handler = none ∧ (∃ i, s.child i = .zombie) ∧ s.pending = false) ∧
    (s.main = .left → ∀ i, s.child i = .reaped) := by
  have hs := ok_of_run h
  refine ⟨hs.live, ?_, ?_⟩
  · rintro ⟨-, hidle, ⟨i, hi⟩, hquiet⟩
    rcases hs.announced i hi with hpending | hruns
    · cases hquiet.symm.trans hpending
    · cases hidle.symm.trans hruns
  · intro hleft i
    have hzero : count Child.isLive s.child = 0 := by
      have hlive := hs.live
      have hnone := hs.left hleft
      omega
    have hi := count_eq_zero.mp hzero i
    cases hc : s.child i <;> rw [hc] at hi <;> first | rfl | cases hi

/-- Two children, of which one ends before `main` waits, and the other while the handler runs: the second
`sigsuspend` returns at once, and `main` leaves its loop with both reaped. -/
theorem no_child_lost_two : ∃ s : State 2, Run Step (State.init 2 false false)
    [.main, .main, .main, .exit 0, .main, .main, .main, .deliver, .reap 0, .reapNone, .exit 1,
      .handlerReturns, .main, .main, .deliver, .reap 1, .reapNone, .handlerReturns, .main] s ∧
    s.main = .left ∧ ∀ i, s.child i = .reaped := by
  have hexec : (exec next (State.init 2 false false)
      [.main, .main, .main, .exit 0, .main, .main, .main, .deliver, .reap 0, .reapNone, .exit 1,
        .handlerReturns, .main, .main, .deliver, .reap 1, .reapNone, .handlerReturns, .main]).map
      State.main = some .left := by decide
  obtain ⟨s, hrun, hleft⟩ := Run.of_exec_map hexec
  exact ⟨s, hrun, hleft, (no_child_lost hrun).2.2 hleft⟩

/-- While `main` waits in `sigsuspend` there is something to wake it: the handler runs, the signal is
pending, or a child is running. -/
theorem never_asleep_for_good {pending blocked : Bool} {ls : List (Label n)}
    (h : Run Step (State.init n pending blocked) ls s) (hpc : s.main = .sigsuspend) :
    s.handler ≠ none ∨ s.pending = true ∨ ∃ i, s.child i = .running := by
  have hs := ok_of_run h
  by_contra hasleep
  push Not at hasleep
  obtain ⟨hidle, hquiet, hnone⟩ := hasleep
  have hpos := hs.asleep (.inr ⟨hpc, hidle⟩)
  have hzero : count Child.isLive s.child = 0 := by
    refine count_eq_zero.mpr ?_
    intro i
    cases hc : s.child i with
    | unforked =>
      have hi := (hs.forked n (by rw [hpc]; rfl) i).mp hc
      omega
    | running => exact absurd hc (hnone i)
    | zombie =>
      rcases hs.announced i hc with hpending | hruns
      · exact absurd hpending hquiet
      · cases hidle.symm.trans hruns
    | reaped => rfl
  have hlive := hs.live
  omega

end Sigchld

end Ulsp
