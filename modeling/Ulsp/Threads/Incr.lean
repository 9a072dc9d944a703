import Mathlib.Algebra.BigOperators.Fin
import Ulsp.Base
import Ulsp.Lib.ForkJoin

/-!
# Two threads that increment one variable (`threads/thread_incr.c`)

`main` creates two threads that each increment `glob` as often as `loops` says, joins them and prints
`glob`. An increment is a load, an addition and a store, and nothing keeps the two threads apart: an
increment is lost when the other thread stores between the load and the store. `printed_iff` says what
can be printed: every number from 2 on, and 1 if there is only one increment for each thread, up to the
number of all increments. Two is the least since a thread's last load is behind a store of its own.
-/

namespace Ulsp

open Lib

namespace ThreadIncr

/-- Where a thread is: at the test of its loop, before `loc = glob`, before `++loc`, before
`glob = loc`, or behind its `return`. -/
inductive Pc where
  | test (loops : ℤ)
  | load (loops : ℤ)
  | add (loops loc : ℤ)
  | store (loops loc : ℤ)
  | returned
  deriving DecidableEq, Repr

/-- A step of `threadFunc`. -/
def step (glob : ℤ) : Pc → Option (ℤ × Pc)
  | .test loops => some (glob, if loops = 0 then .returned else .load (loops - 1))
  | .load loops => some (glob, .add loops glob)
  | .add loops loc => (addInt loc 1).map fun loc => (glob, .store loops loc)
  | .store loops loc => some (loc, .test loops)
  | .returned => none

/-- `threadFunc`, of the argument `loops`. -/
def threadFunc (loops : ℤ) : ThreadProg ℤ Pc where
  start := .test loops
  step := step
  returned pc := pc = .returned
  step_returned _ lo h := by
    obtain rfl := of_decide_eq_true h
    rfl

/-- `main` prints `v`. -/
def Prints (loops v : ℤ) : Prop :=
  ∃ ls s, Run (ForkJoin.Step (k := 2) (threadFunc loops)) (ForkJoin.init 0) ls s ∧ s.main = .joined ∧
    s.shared = v

/-! ## What is printed is within the bounds -/

/-- The stores that a thread has still to make. -/
def left (loops : ℤ) : Option Pc → ℤ
  | none => loops
  | some (.test l) => l
  | some (.load l) | some (.add l _) | some (.store l _) => l + 1
  | some .returned => 0

/-- The stores made. -/
def made (loops : ℤ) (th : Fin 2 → Option Pc) : ℤ := ∑ i, (loops - left loops (th i))

/-- The value a thread has loaded, when `made` stores are made: it is not 0 if a store of the thread
itself is one of them. -/
def Pc.Ok (loops made : ℤ) : Pc → Prop
  | .test l => 0 ≤ l ∧ l ≤ loops
  | .load l => 0 ≤ l ∧ l < loops
  | .add l loc => 0 ≤ l ∧ l < loops ∧ 0 ≤ loc ∧ loc ≤ made ∧ (l + 1 < loops → 1 ≤ loc)
  | .store l loc => 0 ≤ l ∧ l < loops ∧ 1 ≤ loc ∧ loc ≤ made + 1 ∧ (l + 1 < loops → 2 ≤ loc)
  | .returned => True

/-- The bounds of `glob`, and what the threads have loaded of it. -/
structure Bounded (loops glob : ℤ) (th : Fin 2 → Option Pc) : Prop where
  nonneg : 0 ≤ glob
  le_made : glob ≤ made loops th
  pos : 0 < made loops th → 1 ≤ glob
  last : made loops th = 2 * loops → 2 ≤ loops → 2 ≤ glob
  thread : ∀ i, ∀ pc ∈ th i, pc.Ok loops (made loops th)

variable {loops glob v : ℤ} {th : Fin 2 → Option Pc} {i : Fin 2} {pc pc' : Pc} {m m' : ℤ}

theorem Pc.Ok.mono (h : pc.Ok loops m) (hm : m ≤ m') : pc.Ok loops m' := by
  cases pc with
  | add l loc => exact ⟨h.1, h.2.1, h.2.2.1, h.2.2.2.1.trans hm, h.2.2.2.2⟩
  | store l loc => exact ⟨h.1, h.2.1, h.2.2.1, h.2.2.2.1.trans (by omega), h.2.2.2.2⟩
  | _ => exact h

theorem Pc.Ok.left_le (h : pc.Ok loops m) (hpos : 0 < loops) :
    0 ≤ left loops (some pc) ∧ left loops (some pc) ≤ loops := by
  cases pc with
  | returned => exact ⟨Int.le_refl 0, hpos.le⟩
  | test l => exact h
  | _ =>
    have := h.1
    simp only [Ok] at h
    simp only [left]
    omega

theorem made_update : made loops (Function.update th i (some pc)) =
    made loops th + left loops (th i) - left loops (some pc) := by
  have hboth : ∀ i : Fin 2, made loops (Function.update th i (some pc)) =
      made loops th + left loops (th i) - left loops (some pc) := by
    rw [Fin.forall_fin_two]
    refine ⟨?_, ?_⟩ <;> simp [made, Fin.sum_univ_two] <;> omega
  exact hboth i

theorem Bounded.left_le (h : Bounded loops glob th) (hpos : 0 < loops) (i : Fin 2) :
    0 ≤ left loops (th i) ∧ left loops (th i) ≤ loops := by
  cases hi : th i with
  | none => exact ⟨hpos.le, Int.le_refl loops⟩
  | some pc => exact (h.thread i pc hi).left_le hpos

/-- The stores made are those of the thread and those of the other. -/
theorem Bounded.own_le (h : Bounded loops glob th) (hpos : 0 < loops) (i : Fin 2) :
    loops - left loops (th i) ≤ made loops th ∧ made loops th ≤ 2 * loops - left loops (th i) := by
  have h₀ := h.left_le hpos 0
  have h₁ := h.left_le hpos 1
  have hmade : made loops th = (loops - left loops (th 0)) + (loops - left loops (th 1)) :=
    Fin.sum_univ_two _
  revert i
  rw [Fin.forall_fin_two]
  omega

/-- A step that is not a store, to a state of the thread that is as it should be. -/
theorem Bounded.move (h : Bounded loops glob th) (hleft : left loops (some pc) = left loops (th i))
    (hok : pc.Ok loops (made loops th)) : Bounded loops glob (Function.update th i (some pc)) := by
  have hmade : made loops (Function.update th i (some pc)) = made loops th := by
    rw [made_update]
    omega
  refine ⟨h.nonneg, hmade ▸ h.le_made, hmade ▸ h.pos, hmade ▸ h.last, fun j pc' hj => ?_⟩
  rw [hmade]
  rcases eq_or_ne j i with rfl | hne
  · rw [Function.update_self] at hj
    cases hj
    exact hok
  · rw [Function.update_of_ne hne] at hj
    exact h.thread j pc' hj

theorem bounded_step (hpos : 0 < loops) (h : Bounded loops glob th) (hpc : th i = some pc)
    {glob' : ℤ} (hstep : step glob pc = some (glob', pc')) :
    Bounded loops glob' (Function.update th i (some pc')) := by
  have hok := h.thread i pc hpc
  cases pc with
  | test l =>
    obtain ⟨hl, hle⟩ := hok
    cases hstep
    by_cases hzero : l = 0
    · rw [if_pos hzero]
      exact h.move (by simp [hpc, left, hzero]) trivial
    · rw [if_neg hzero]
      refine h.move (by simp [hpc, left]) ⟨?_, ?_⟩ <;> omega
  | load l =>
    obtain ⟨hl, hlt⟩ := hok
    cases hstep
    refine h.move (by simp [hpc, left]) ⟨hl, hlt, h.nonneg, h.le_made, fun hmore => h.pos ?_⟩
    have hown := (h.own_le hpos i).1
    simp only [hpc, left] at hown
    omega
  | add l loc =>
    obtain ⟨hl, hlt, hnonneg, hle, hown⟩ := hok
    obtain ⟨loc', hadd, heq⟩ := Option.map_eq_some_iff.mp hstep
    cases heq
    obtain ⟨rfl, -⟩ := addInt_eq_some hadd
    refine h.move (by simp [hpc, left]) ⟨hl, hlt, ?_, ?_, fun hmore => ?_⟩
    · omega
    · omega
    · have := hown hmore
      omega
  | store l loc =>
    obtain ⟨hl, hlt, hone, hle, hown⟩ := hok
    cases hstep
    have hmade : made loops (Function.update th i (some (.test l))) = made loops th + 1 := by
      rw [made_update, hpc]
      simp only [left]
      omega
    refine ⟨by omega, by omega, fun _ => hone, fun hall htwo => hown ?_, fun j pc' hj => ?_⟩
    · have hrest := (h.own_le hpos i).2
      simp only [hpc, left] at hrest
      omega
    · rw [hmade]
      rcases eq_or_ne j i with rfl | hne
      · rw [Function.update_self] at hj
        cases hj
        exact ⟨hl, hlt.le⟩
      · rw [Function.update_of_ne hne] at hj
        exact (h.thread j pc' hj).mono (by omega)
  | returned => cases hstep

theorem bounded_of_run {ls : List (ForkJoin.Label 2)} {s : ForkJoin.State 2 ℤ Pc} (hpos : 0 < loops)
    (h : Run (ForkJoin.Step (threadFunc loops)) (ForkJoin.init 0) ls s) :
    Bounded loops s.shared s.thread := by
  refine ForkJoin.Run.invariant (I := Bounded loops) ?_ (fun sh th j hb hj => ?_)
    (fun sh th i lo sh' lo' hb hlo hstep => bounded_step hpos hb hlo hstep) h
  · have hmade : made loops (fun _ => none) = 0 := by simp [made, left]
    exact ⟨Int.le_refl 0, hmade.ge, fun h => by omega, fun h => by omega, fun _ _ => nofun⟩
  · exact hb.move (by rw [hj]; rfl) ⟨hpos.le, Int.le_refl loops⟩

/-- What is printed is within the bounds. -/
theorem prints_bounds (hpos : 0 < loops) (h : Prints loops v) :
    (if loops = 1 then 1 else 2) ≤ v ∧ v ≤ 2 * loops := by
  obtain ⟨ls, s, hrun, hmain, rfl⟩ := h
  have hb := bounded_of_run hpos hrun
  have hleft : ∀ i, left loops (s.thread i) = 0 := by
    intro i
    obtain ⟨pc, hpc, hret⟩ := ForkJoin.all_returned hrun hmain i
    rw [hpc, of_decide_eq_true hret]
    rfl
  have hmade : made loops s.thread = 2 * loops := by
    simp only [made, hleft, Fin.sum_univ_two]
    omega
  have hle := hb.le_made
  have hone := hb.pos (by omega)
  split
  · omega
  · exact ⟨hb.last hmade (by omega), by omega⟩

/-! ## What is within the bounds is printed -/

open ForkJoin (Solo Reaches)

theorem solo_load {l l' g : ℤ} (hl : l ≠ 0) (hl' : l' = l - 1) :
    Solo (threadFunc loops) (g, .test l) (g, .add l' g) := by
  subst hl'
  exact .head (b := (g, .load (l - 1))) (by simp [threadFunc, step, hl]) (.single rfl)

theorem solo_store {l g g' loc : ℤ} (hg' : g' = loc + 1) (hlow : -2 ^ 31 ≤ g') (hhigh : g' < 2 ^ 31) :
    Solo (threadFunc loops) (g, .add l loc) (g', .test l) := by
  subst hg'
  have hadd := addInt_of_range hlow hhigh
  exact .head (b := (g, .store l (loc + 1))) (by simp [threadFunc, step, hadd]) (.single rfl)

/-- Some increments of a thread by itself. -/
theorem solo_increments {l l' g g' : ℤ} (n : ℕ) (hl : l = l' + n) (hg : g' = g + n) (hl' : 0 ≤ l')
    (hlow : 0 ≤ g) (hhigh : g' < 2 ^ 31) : Solo (threadFunc loops) (g, .test l) (g', .test l') := by
  induction n generalizing l g with
  | zero =>
    obtain rfl : l = l' := by omega
    obtain rfl : g' = g := by omega
    exact .refl
  | succ n ih =>
    have hload : Solo (threadFunc loops) (g, .test l) (g, .add (l - 1) g) := solo_load (by omega) rfl
    have hstore : Solo (threadFunc loops) (g, .add (l - 1) g) (g + 1, .test (l - 1)) :=
      solo_store rfl (by omega) (by omega)
    exact hload.trans (hstore.trans (ih (by omega) (by omega) (by omega)))

/-- The increments that are left to a thread, by itself. -/
theorem solo_rest {l g g' : ℤ} (hl : 0 ≤ l) (hg : g' = g + l) (hlow : 0 ≤ g) (hhigh : g' < 2 ^ 31) :
    Solo (threadFunc loops) (g, .test l) (g', .returned) := by
  obtain ⟨n, rfl⟩ := Int.eq_ofNat_of_zero_le hl
  have hall : Solo (threadFunc loops) (g, .test n) (g', .test 0) :=
    solo_increments n (by omega) (by omega) (Int.le_refl 0) hlow hhigh
  exact hall.tail rfl

/-- Both threads are created, and `main` is at the joins. -/
def both (glob : ℤ) (t₁ t₂ : Pc) : ForkJoin.State 2 ℤ Pc :=
  ⟨glob, fun i => some (if (i : ℕ) = 0 then t₁ else t₂), .join 0⟩

variable {g g' : ℤ} {t₁ t₂ t₁' t₂' : Pc}

theorem reaches_first (h : Solo (threadFunc loops) (g, t₁) (g', t₁')) :
    Reaches (threadFunc loops) (both g t₁ t₂) (both g' t₁' t₂) := by
  have hreach := ForkJoin.reaches_solo (s := both g t₁ t₂) (i := 0) h nofun rfl rfl
  have hthread : Function.update (both g t₁ t₂).thread 0 (some t₁') = (both g' t₁' t₂).thread :=
    funext (Fin.forall_fin_two.mpr ⟨rfl, rfl⟩)
  rwa [hthread] at hreach

theorem reaches_second (h : Solo (threadFunc loops) (g, t₂) (g', t₂')) :
    Reaches (threadFunc loops) (both g t₁ t₂) (both g' t₁ t₂') := by
  have hreach := ForkJoin.reaches_solo (s := both g t₁ t₂) (i := 1) h nofun rfl rfl
  have hthread : Function.update (both g t₁ t₂).thread 1 (some t₂') = (both g' t₁ t₂').thread :=
    funext (Fin.forall_fin_two.mpr ⟨rfl, rfl⟩)
  rwa [hthread] at hreach

/-- A schedule from the creation of the threads to the end of both is one of the whole program. -/
theorem prints_of_reaches
    (h : Reaches (threadFunc loops) (both 0 (.test loops) (.test loops)) (both v .returned .returned)) :
    Prints loops v := by
  have hcreated : Reaches (threadFunc loops) (ForkJoin.init 0) (both 0 (.test loops) (.test loops)) := by
    have hreach := ForkJoin.reaches_created (P := threadFunc loops) (k := 2) (j := 0)
      (s := ForkJoin.init 0) rfl
    have hboth : both 0 (.test loops) (.test loops) = ⟨0, fun i => if (i : ℕ) < 0 then none
        else some (threadFunc loops).start, .join 0⟩ := by
      rw [both, ForkJoin.State.mk.injEq]
      exact ⟨rfl, funext (Fin.forall_fin_two.mpr ⟨rfl, rfl⟩), rfl⟩
    rw [hboth]
    exact hreach
  have hjoined := ForkJoin.reaches_joined (P := threadFunc loops) (s := both v .returned .returned)
    (j := 0) rfl fun i => ⟨.returned, by simp [both], rfl⟩
  obtain ⟨ls, hls⟩ := hcreated.trans (h.trans hjoined)
  exact ⟨ls, _, hls, rfl, rfl⟩

/-- The first thread loads, and stores behind `j` increments of the second, which are lost. -/
theorem prints_high (n j : ℕ) (hn : 0 < n) (hj : j ≤ n) (hv : (2 * n - j : ℤ) < 2 ^ 31) :
    Prints n (2 * n - j) := by
  apply prints_of_reaches
  have hload : Solo (threadFunc n) (0, .test n) (0, .add (n - 1) 0) := solo_load (by omega) rfl
  have hlost : Solo (threadFunc n) (0, .test n) (j, .test (n - j)) :=
    solo_increments j (by omega) (by omega) (by omega) (by omega) (by omega)
  have hstore : Solo (threadFunc n) (j, .add (n - 1) 0) (1, .test (n - 1)) :=
    solo_store rfl (by decide) (by decide)
  have hfirst : Solo (threadFunc n) (1, .test (n - 1)) (n, .returned) :=
    solo_rest (by omega) (by omega) (by omega) (by omega)
  have hsecond : Solo (threadFunc n) (n, .test (n - j)) (2 * n - j, .returned) :=
    solo_rest (by omega) (by omega) (by omega) (by omega)
  exact (reaches_first hload).trans <| (reaches_second hlost).trans <| (reaches_first hstore).trans <|
    (reaches_first hfirst).trans (reaches_second hsecond)

/-- The first thread stores 1 behind all but one increment of the second, and the second stores 2
behind `m` further ones of the first. -/
theorem prints_low (n m : ℕ) (hm : m < n) (hn : (n : ℤ) < 2 ^ 31) (hv : (n + 1 - m : ℤ) < 2 ^ 31) :
    Prints n (n + 1 - m) := by
  apply prints_of_reaches
  have hload : Solo (threadFunc n) (0, .test n) (0, .add (n - 1) 0) := solo_load (by omega) rfl
  have hlost : Solo (threadFunc n) (0, .test n) (n - 1, .test 1) :=
    solo_increments (n - 1) (by omega) (by omega) (by omega) (by omega) (by omega)
  have hstore : Solo (threadFunc n) (n - 1, .add (n - 1) 0) (1, .test (n - 1)) :=
    solo_store rfl (by decide) (by decide)
  have hagain : Solo (threadFunc n) (1, .test 1) (1, .add 0 1) := solo_load (by decide) rfl
  have hmore : Solo (threadFunc n) (1, .test (n - 1)) (1 + m, .test (n - 1 - m)) :=
    solo_increments m (by omega) (by omega) (by omega) (by omega) (by omega)
  have hstore' : Solo (threadFunc n) (1 + m, .add 0 1) (2, .test 0) :=
    solo_store rfl (by decide) (by decide)
  have hlast : Solo (threadFunc n) (1 + m, .add 0 1) (2, .returned) := hstore'.tail rfl
  have hrest : Solo (threadFunc n) (2, .test (n - 1 - m)) (n + 1 - m, .returned) :=
    solo_rest (by omega) (by omega) (by omega) (by omega)
  exact (reaches_first hload).trans <| (reaches_second hlost).trans <| (reaches_first hstore).trans <|
    (reaches_second hagain).trans <| (reaches_first hmore).trans <| (reaches_second hlast).trans
      (reaches_first hrest)

/-- What `main` can print, over all orders of the threads' steps. -/
theorem printed_iff (hpos : 0 < loops) (hloops : loops < 2 ^ 31) (hv : v < 2 ^ 31) :
    Prints loops v ↔ (if loops = 1 then 1 else 2) ≤ v ∧ v ≤ 2 * loops := by
  refine ⟨prints_bounds hpos, fun hbounds => ?_⟩
  obtain ⟨hlow, hhigh⟩ := hbounds
  obtain ⟨n, rfl⟩ := Int.eq_ofNat_of_zero_le hpos.le
  by_cases hn : (n : ℤ) ≤ v
  · have h := prints_high n (2 * n - v).toNat (by omega) (by omega) (by omega)
    rwa [show (2 * n - ((2 * n - v).toNat : ℕ) : ℤ) = v by omega] at h
  · have hlow' : 2 ≤ v := by
      split at hlow <;> omega
    have h := prints_low n (n + 1 - v).toNat (by omega) hloops (by omega)
    rwa [show (n + 1 - ((n + 1 - v).toNat : ℕ) : ℤ) = v by omega] at h

/-- Two threads of a thousand increments each can print 2. -/
theorem printed_two : Prints 1000 2 :=
  (printed_iff (by decide) (by decide) (by decide)).mpr (by decide)

end ThreadIncr

end Ulsp
