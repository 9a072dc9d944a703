import Ulsp.Thpool.Pool
import Ulsp.Lib.Run

/-!
# Several pools

The flag `stop`, on which the workers of a paused pool spin, is a variable of the process, so every
pool shares it. `thpool_resume` of one pool releases the workers of another (`resume_releases_other`).
Pools are independent in the runs in which a call changes the flag only while no other pool has a
worker in `thread_pause` or a signal on its way (`Apart`).
-/

namespace Ulsp

open Lib

namespace Thpool

/-- The flag as another pool has left it. -/
def State.setStop {n : ℕ} {C : Type} (stop : Bool) (s : State n C) : State n C :=
  { s with sh := { s.sh with stop } }

/-- A worker that is in `thread_pause` and cannot leave it. -/
def State.held {n : ℕ} {C : Type} (s : State n C) (i : Fin n) : Bool := s.paused i && s.sh.stop

/-- Whether a client is in `thpool_pause`. -/
def ClientPc.isPausing : ClientPc → Bool
  | pausing _ => true
  | _ => false

/-- A worker is in `thread_pause`, or a signal is on its way or still to be sent. -/
def State.Busy {n : ℕ} {C : Type} (s : State n C) : Prop :=
  (∃ i, s.paused i = true ∨ s.pending i = true) ∨ ∃ c, (s.client c).isPausing = true

instance {n : ℕ} {C : Type} [Fintype C] (s : State n C) : Decidable s.Busy :=
  inferInstanceAs (Decidable (_ ∨ _))

/-! ## What a step does to the flag -/

section
variable {n : ℕ} {C : Type} {t : Thread n C} {sh sh' : Shared n C} {s s' : State n C}
  {l : Label n C} {stop : Bool}

theorem threadDo_stop {pc pc' : WorkerPc} {signal : Bool}
    (h : threadDo t sh pc = some (pc', sh', signal)) : sh'.stop = sh.stop := by
  cases threadDo_cases h <;> rfl

/-- A client that is in a call leaves the flag. -/
theorem ClientStep.stop_eq {pc pc' : ClientPc} (h : ClientStep t sh pc pc' sh') (hpc : pc ≠ .out) :
    sh'.stop = sh.stop ∧ pc'.isPausing = false := by
  cases h with
  | malloc | wait | pause | resume => exact absurd rfl hpc
  | waitLen | waitWorking => exact ⟨rfl, by split <;> rfl⟩
  | _ => exact ⟨rfl, rfl⟩

/-- Only the first step of `thpool_pause` and `thpool_resume` change the flag. -/
theorem clientDo_stop {pc pc' : ClientPc} {move : Move}
    (h : clientDo t sh pc move = some (pc', sh')) :
    (move = .pause ∧ sh'.stop = true) ∨ (move = .resume ∧ sh'.stop = false) ∨
      (move ≠ .pause ∧ move ≠ .resume ∧ sh'.stop = sh.stop ∧ pc'.isPausing = false) := by
  by_cases hpc : pc = .out
  · subst hpc
    cases move with
    | pause => cases h; exact .inl ⟨rfl, rfl⟩
    | resume => cases h; exact .inr (.inl ⟨rfl, rfl⟩)
    | add job =>
      refine .inr (.inr ⟨nofun, nofun, ?_⟩)
      simp only [clientDo] at h
      split at h
      · cases h
      · cases h
        exact ⟨rfl, rfl⟩
    | wait => cases h; exact .inr (.inr ⟨nofun, nofun, rfl, rfl⟩)
    | go | wake => cases h
  · obtain ⟨hstop, hpausing⟩ := (clientDo_cases h).stop_eq hpc
    refine .inr (.inr ⟨?_, ?_, hstop, hpausing⟩)
    · rintro rfl
      cases pc <;> first | exact hpc rfl | cases h
    · rintro rfl
      cases pc <;> first | exact hpc rfl | cases h

variable [DecidableEq C] [Fintype C]

/-- What a step of a pool does to the flag, and whether the pool gets busy. -/
theorem step_stop (h : Step s l s') :
    (∃ c, l = .client c .pause ∧ s'.sh.stop = true) ∨
      (∃ c, l = .client c .resume ∧ s'.sh.stop = false) ∨
      ((∀ c, l ≠ .client c .pause ∧ l ≠ .client c .resume) ∧ s'.sh.stop = s.sh.stop ∧
        (s'.Busy → s.Busy)) := by
  cases l with
  | worker i woken =>
    obtain ⟨-, pc, sh, signal, client, hdo, hnotify, rfl⟩ := step_worker h
    refine .inr (.inr ⟨fun c => ⟨nofun, nofun⟩, threadDo_stop hdo, ?_⟩)
    rintro (hworker | ⟨c, hc⟩)
    · exact .inl hworker
    · exact .inr ⟨c, (notify_congr (fun _ => rfl) hnotify c).symm.trans hc⟩
  | deliver i =>
    obtain ⟨hpending, -, rfl⟩ := step_deliver h
    exact .inr (.inr ⟨fun c => ⟨nofun, nofun⟩, rfl, fun _ => .inl ⟨i, .inr hpending⟩⟩)
  | leave i b =>
    obtain ⟨hpaused, -, pc, -, rfl⟩ := step_leave h
    exact .inr (.inr ⟨fun c => ⟨nofun, nofun⟩, rfl, fun _ => .inl ⟨i, .inl hpaused⟩⟩)
  | client c move =>
    obtain ⟨pc, sh, pending, rfl, ⟨hdo, rfl⟩ | ⟨k, hk, hpc, rfl⟩⟩ := step_client h
    · rcases clientDo_stop hdo with ⟨rfl, hstop⟩ | ⟨rfl, hstop⟩ | ⟨hpause, hresume, hstop, hpausing⟩
      · exact .inl ⟨c, rfl, hstop⟩
      · exact .inr (.inl ⟨c, rfl, hstop⟩)
      · refine .inr (.inr ⟨fun d => ⟨?_, ?_⟩, hstop, ?_⟩)
        · rintro ⟨rfl⟩
          exact hpause rfl
        · rintro ⟨rfl⟩
          exact hresume rfl
        · rintro (hworker | ⟨d, hd⟩)
          · exact .inl hworker
          · refine .inr ⟨d, ?_⟩
            rcases eq_or_ne d c with rfl | hne
            · have hpc : pc.isPausing = true := by simpa using hd
              cases hpc.symm.trans hpausing
            · simpa [Function.update_of_ne hne] using hd
    · refine .inr (.inr ⟨fun d => ⟨?_, ?_⟩, rfl, fun _ => .inr ⟨c, by rw [hk]; rfl⟩⟩)
      · rintro ⟨rfl⟩
        simp [Step, next, hk, clientDo] at h
      · rintro ⟨rfl⟩
        simp [Step, next, hk, clientDo] at h

end

/-! ## The pools together -/

namespace Pools

variable {P C : Type} {n : P → ℕ}

/-- The state of each pool; all have the same flag. -/
abbrev States (n : P → ℕ) (C : Type) := ∀ p, State (n p) C

/-- A step of one pool. -/
abbrev PoolLabel (n : P → ℕ) (C : Type) := Σ p, Label (n p) C

/-- The pools as `thpool_init` makes them. -/
def init : States n C := fun _ => Thpool.init

variable [DecidableEq P]

/-- The call of `thpool_pause` or `thpool_resume` on a pool that a step begins. -/
def callOn (p : P) : PoolLabel n C → Option Move
  | ⟨q, .client _ .pause⟩ => if q = p then some .pause else none
  | ⟨q, .client _ .resume⟩ => if q = p then some .resume else none
  | _ => none

/-- The last of these calls. -/
def lastCall (p : P) (ls : List (PoolLabel n C)) : Option Move := (ls.filterMap (callOn p)).getLast?

/-- The steps of the pools: what one pool does to the flag, it does to the flag of all. A thread that
calls several pools is a client of each. -/
def next [DecidableEq C] [Fintype C] (s : States n C) (l : PoolLabel n C) : Option (States n C) :=
  (Thpool.next (s l.1) l.2).map fun t => Function.update (fun q => (s q).setStop t.sh.stop) l.1 t

def Step [DecidableEq C] [Fintype C] (s : States n C) (l : PoolLabel n C) (t : States n C) : Prop :=
  next s l = some t

/-- A call that changes the flag finds no other pool busy. -/
def Apart (s : States n C) (l : PoolLabel n C) : Prop :=
  match l with
  | ⟨p, .client _ .pause⟩ => (s p).sh.stop = false → ∀ q ≠ p, ¬ (s q).Busy
  | ⟨p, .client _ .resume⟩ => (s p).sh.stop = true → ∀ q ≠ p, ¬ (s q).Busy
  | _ => True

/-- Every pool that is busy finds the flag as its own last call has left it. -/
structure Own (ls : List (PoolLabel n C)) (s : States n C) : Prop where
  shared : ∀ p q, (s p).sh.stop = (s q).sh.stop
  own : ∀ p, (s p).Busy → lastCall p ls = some (if (s p).sh.stop then .pause else .resume)

section
variable {s s' : States n C} {p q : P} {ls : List (PoolLabel n C)} {l : Label (n p) C}

theorem lastCall_append {l : PoolLabel n C} :
    lastCall q (ls ++ [l]) = (callOn q l).or (lastCall q ls) := by
  unfold lastCall
  rw [List.filterMap_append, List.getLast?_append]
  cases h : callOn q l <;> simp [h]

theorem init_own : Own [] (init : States n C) where
  shared _ _ := rfl
  own p := by
    rintro (⟨i, hi | hi⟩ | ⟨c, hc⟩)
    · cases hi
    · cases hi
    · cases hc

/-- Steps that are no calls. -/
theorem lastCall_other (h : ∀ c, l ≠ .client c .pause ∧ l ≠ .client c .resume) :
    lastCall q (ls ++ [⟨p, l⟩]) = lastCall q ls := by
  have hnone : callOn q (⟨p, l⟩ : PoolLabel n C) = none := by
    unfold callOn
    split
    · rename_i heq
      cases heq
      exact absurd rfl (h _).1
    · rename_i heq
      cases heq
      exact absurd rfl (h _).2
    · rfl
  rw [lastCall_append, hnone, Option.none_or]

variable [DecidableEq C] [Fintype C]

/-- A step of one pool, and the flag of the others. -/
theorem step_cases (h : Step s ⟨p, l⟩ s') : Thpool.Step (s p) l (s' p) ∧
    ∀ q ≠ p, s' q = (s q).setStop (s' p).sh.stop := by
  obtain ⟨t, ht, hs'⟩ := Option.map_eq_some_iff.mp h
  have hp : s' p = t := by
    rw [← hs']
    exact Function.update_self ..
  refine ⟨hp ▸ ht, ?_⟩
  intro q hq
  rw [hp, ← hs', Function.update_of_ne hq]

/-- A step that is apart leaves every busy pool with the flag as its own last call has left it. -/
theorem own_step (hs : Own ls s) (h : Guarded Step Apart s ⟨p, l⟩ s') : Own (ls ++ [⟨p, l⟩]) s' := by
  obtain ⟨hstep, hapart⟩ := h
  obtain ⟨hp, hother⟩ := step_cases hstep
  have hstop : ∀ q, (s' q).sh.stop = (s' p).sh.stop := by
    intro q
    rcases eq_or_ne q p with rfl | hq
    · rfl
    · rw [hother q hq]
      rfl
  refine ⟨fun q r => (hstop q).trans (hstop r).symm, ?_⟩
  intro q hbusy
  rw [hstop q]
  have hbusy' : q ≠ p → (s q).Busy := fun hq => by
    rw [hother q hq] at hbusy
    exact hbusy
  rcases step_stop hp with ⟨c, rfl, hset⟩ | ⟨c, rfl, hset⟩ | ⟨hcalls, hset, hkeep⟩
  · rw [lastCall_append, hset]
    rcases eq_or_ne q p with rfl | hq
    · simp [callOn]
    · -- another busy pool, so the flag was set
      have hold : (s p).sh.stop = true := by
        by_contra hclear
        exact hapart (Bool.eq_false_iff.mpr hclear) q hq (hbusy' hq)
      simpa [callOn, Ne.symm hq, hs.shared q p, hold] using hs.own q (hbusy' hq)
  · rw [lastCall_append, hset]
    rcases eq_or_ne q p with rfl | hq
    · simp [callOn]
    · have hold : (s p).sh.stop = false := by
        by_contra hset
        exact hapart (Bool.eq_true_of_not_eq_false hset) q hq (hbusy' hq)
      simpa [callOn, Ne.symm hq, hs.shared q p, hold] using hs.own q (hbusy' hq)
  · rw [lastCall_other hcalls, hset, ← hs.shared q p]
    rcases eq_or_ne q p with rfl | hq
    · exact hs.own q (hkeep hbusy)
    · exact hs.own q (hbusy' hq)

theorem own_run (h : Run (Guarded Step Apart) init ls s) : Own ls s := by
  induction h with
  | refl => exact init_own
  | @tail ls s t l _ hst ih =>
    obtain ⟨p, l⟩ := l
    exact own_step ih hst

/-- In every run whose calls change the flag only while no other pool is busy, a worker leaves
`thread_pause` only when the last call on its own pool was `thpool_resume`, and no call on a pool
changes which workers of the others are held there. -/
theorem independent (h : Run (Guarded Step Apart) init ls s) (hst : Guarded Step Apart s ⟨p, l⟩ s') :
    (∀ i b, l = .leave i b → lastCall p ls = some .resume) ∧
      ∀ c move, l = .client c move → ∀ q ≠ p, ∀ i, (s' q).held i = (s q).held i := by
  have hs := own_run h
  obtain ⟨hp, hother⟩ := step_cases hst.1
  constructor
  · rintro i b rfl
    obtain ⟨hpaused, hstop, -⟩ := step_leave hp
    rw [hs.own p (.inl ⟨i, .inl hpaused⟩), hstop]
    rfl
  · rintro c move rfl q hq i
    have hs' := own_step hs hst
    have hpaused : (s' q).paused i = (s q).paused i := by rw [hother q hq]; rfl
    by_cases hi : (s q).paused i = true
    · have hcall : lastCall q (ls ++ [⟨p, .client c move⟩]) = lastCall q ls := by
        rw [lastCall_append]
        cases move <;> simp [callOn, Ne.symm hq]
      have hbefore := hs.own q (.inl ⟨i, .inl hi⟩)
      have hafter := hs'.own q (.inl ⟨i, .inl (hpaused.trans hi)⟩)
      rw [hcall, hbefore] at hafter
      have hstop : (s' q).sh.stop = (s q).sh.stop := by
        cases hset : (s q).sh.stop <;> cases hset' : (s' q).sh.stop <;> simp_all
      rw [State.held, State.held, hpaused, hstop]
    · rw [State.held, State.held, hpaused, Bool.eq_false_iff.mpr hi, Bool.false_and, Bool.false_and]
end

/-- Two pools of one worker, with a `thpool_pause` of the first that has reached its worker. -/
def pauseFirst : List (PoolLabel (fun _ : Bool => 1) Unit) :=
  [⟨true, .client () .pause⟩, ⟨true, .client () .go⟩, ⟨true, .client () .go⟩, ⟨true, .deliver sole⟩]

instance (s : States (fun _ : Bool => 1) Unit) (l : PoolLabel (fun _ : Bool => 1) Unit) :
    Decidable (Apart s l) := by
  obtain ⟨p, l⟩ := l
  cases l with
  | client c move => cases move <;> unfold Apart <;> infer_instance
  | _ => exact inferInstanceAs (Decidable True)

/-- The first pool is paused and resumed, and its worker leaves; then the second one. -/
def pauseBoth : List (PoolLabel (fun _ : Bool => 1) Unit) :=
  pauseFirst ++ [⟨true, .client () .resume⟩, ⟨true, .leave sole false⟩, ⟨false, .client () .pause⟩,
    ⟨false, .client () .go⟩, ⟨false, .client () .go⟩, ⟨false, .deliver sole⟩]

/-- The worker of the second pool leaves after its own `thpool_resume`, which changes nothing for the
worker of the first. -/
theorem independent_two : ∃ s s' s'' : States (fun _ : Bool => 1) Unit,
    Run (Guarded Step Apart) init pauseBoth s ∧
    Guarded Step Apart s ⟨false, .client () .resume⟩ s' ∧
    Guarded Step Apart s' ⟨false, .leave 0 false⟩ s'' ∧
    (s' true).held 0 = (s true).held 0 ∧
    lastCall false (pauseBoth ++ [⟨false, .client () .resume⟩]) = some .resume := by
  obtain ⟨s'', hrun'', -⟩ : ∃ s'' : States (fun _ : Bool => 1) Unit, Run (Guarded Step Apart) init
      ((pauseBoth ++ [⟨false, .client () .resume⟩]) ++ [⟨false, .leave 0 false⟩]) s'' ∧
        (s'' false).paused 0 = false := Run.of_exec_guarded rfl
  obtain ⟨s', hrun', hleave⟩ := Run.tail_iff.mp hrun''
  obtain ⟨s, hrun, hresume⟩ := Run.tail_iff.mp hrun'
  exact ⟨s, s', s'', hrun, hresume, hleave,
    (independent hrun hresume).2 () .resume rfl true (by decide) 0,
    (independent hrun' hleave).1 0 false rfl⟩

/-- A `thpool_resume` of the second pool, and the worker of the first leaves, although the only call
on its pool was `thpool_pause`. -/
theorem resume_releases_other : ∃ s s' : States (fun _ : Bool => 1) Unit, Run Step init
      (pauseFirst ++ [⟨false, .client () .resume⟩]) s ∧ Step s ⟨true, .leave 0 false⟩ s' ∧
    lastCall true (pauseFirst ++ [⟨false, .client () .resume⟩]) = some .pause := by
  obtain ⟨s', hrun, -⟩ : ∃ s' : States (fun _ : Bool => 1) Unit, Run Step init
      ((pauseFirst ++ [⟨false, .client () .resume⟩]) ++ [⟨true, .leave 0 false⟩]) s' ∧
        (s' true).paused 0 = false := Run.of_exec_map rfl
  obtain ⟨s, hrun, hst⟩ := Run.tail_iff.mp hrun
  exact ⟨s, s', hrun, hst, rfl⟩

end Pools

end Thpool

end Ulsp
