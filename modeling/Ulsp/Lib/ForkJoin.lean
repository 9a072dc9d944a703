import Mathlib.Algebra.Order.BigOperators.Group.Finset
import Mathlib.Logic.Relation
import Ulsp.Lib.Run

/-!
# Threads that are created and joined

`main` creates `k` threads, one after the other, and then joins each of them. What a thread does is a
parameter: a step on what the threads share and on the thread's own state. A thread runs as soon as it
is created, between any two steps of the others and of `main`. What all steps of threads preserve is
preserved by the runs of the whole (`ForkJoin.Run.invariant`), after the joins all threads have
returned (`ForkJoin.all_returned`), and where the threads can always go on and cannot do so for ever
the joins are reached (`ForkJoin.can_join`).
-/

namespace Lib

/-- What a thread does: the state it starts in, its steps, and whether it has returned. -/
structure ThreadProg (Sh Lo : Type*) where
  start : Lo
  step : Sh → Lo → Option (Sh × Lo)
  returned : Lo → Bool
  step_returned : ∀ sh lo, returned lo = true → step sh lo = none

namespace ForkJoin

/-- Where `main` is: at the creation of a thread, at the join of one, behind the joins, or in the exit
after a creation that failed. -/
inductive MainPc where
  | create (j : ℕ)
  | join (j : ℕ)
  | joined
  | failed
  deriving DecidableEq, Repr

/-- What the threads share, the threads that are created, and `main`. -/
structure State (k : ℕ) (Sh Lo : Type*) where
  shared : Sh
  thread : Fin k → Option Lo
  main : MainPc

/-- Who takes a step; `fails` is a creation that fails. -/
inductive Label (k : ℕ) where
  | main
  | fails
  | thread (i : Fin k)
  deriving DecidableEq, Repr

variable {k : ℕ} {Sh Lo : Type*} (P : ThreadProg Sh Lo)

/-- Before the first thread. -/
def init (sh : Sh) : State k Sh Lo := ⟨sh, fun _ => none, .create 0⟩

/-- A step of `main`. It stays in a join until the thread has returned. -/
def mainNext (s : State k Sh Lo) : Option (State k Sh Lo) :=
  match s.main with
  | .create j =>
    if h : j < k then
      some { s with thread := Function.update s.thread ⟨j, h⟩ (some P.start), main := .create (j + 1) }
    else some { s with main := .join 0 }
  | .join j =>
    if h : j < k then
      if ((s.thread ⟨j, h⟩).map P.returned).getD false then some { s with main := .join (j + 1) } else none
    else some { s with main := .joined }
  | .joined | .failed => none

/-- A step of a thread. The exit of `main` ends it. -/
def threadNext (s : State k Sh Lo) (i : Fin k) : Option (State k Sh Lo) :=
  if s.main = .failed then none
  else
    (s.thread i).bind fun lo => (P.step s.shared lo).map fun r =>
      { s with shared := r.1, thread := Function.update s.thread i (some r.2) }

/-- One step. -/
def next (s : State k Sh Lo) : Label k → Option (State k Sh Lo)
  | .main => mainNext P s
  | .fails =>
    match s.main with
    | .create j => if j < k then some { s with main := .failed } else none
    | _ => none
  | .thread i => threadNext P s i

/-- A step of the system. -/
def Step (s : State k Sh Lo) (l : Label k) (s' : State k Sh Lo) : Prop := next P s l = some s'

variable {P} {s s' t : State k Sh Lo} {l : Label k} {ls : List (Label k)} {sh sh' : Sh} {lo lo' : Lo}
  {i : Fin k}

/-! ## Steps -/

/-- The cases of a step. -/
inductive Moves (P : ThreadProg Sh Lo) (s s' : State k Sh Lo) : Prop
  | creates (j : Fin k) : s.main = .create j →
    s' = { s with thread := Function.update s.thread j (some P.start), main := .create (j + 1) } →
    Moves P s s'
  | created (j : ℕ) : s.main = .create j → k ≤ j → s' = { s with main := .join 0 } → Moves P s s'
  | joins (j : Fin k) (lo : Lo) : s.main = .join j → s.thread j = some lo → P.returned lo = true →
    s' = { s with main := .join (j + 1) } → Moves P s s'
  | joined (j : ℕ) : s.main = .join j → k ≤ j → s' = { s with main := .joined } → Moves P s s'
  | fails (j : ℕ) : s.main = .create j → s' = { s with main := .failed } → Moves P s s'
  | thread (i : Fin k) (lo lo' : Lo) (sh' : Sh) : s.thread i = some lo →
    P.step s.shared lo = some (sh', lo') →
    s' = { s with shared := sh', thread := Function.update s.thread i (some lo') } → Moves P s s'

theorem step_cases (h : Step P s l s') : Moves P s s' := by
  cases l with
  | main =>
    change mainNext P s = some s' at h
    unfold mainNext at h
    split at h
    · rename_i j hmain
      split at h
      · rename_i hj
        exact .creates ⟨j, hj⟩ hmain (Option.some.inj h).symm
      · exact .created j hmain (by omega) (Option.some.inj h).symm
    · rename_i j hmain
      split at h
      · rename_i hj
        split at h
        · rename_i hret
          cases hth : s.thread ⟨j, hj⟩ with
          | none => simp [hth] at hret
          | some lo =>
            exact .joins ⟨j, hj⟩ lo hmain hth (by simpa [hth] using hret) (Option.some.inj h).symm
        · cases h
      · exact .joined j hmain (by omega) (Option.some.inj h).symm
    · cases h
    · cases h
  | fails =>
    change (match s.main with
      | .create j => if j < k then some { s with main := .failed } else none
      | _ => none) = some s' at h
    split at h
    · rename_i j hmain
      split at h
      · exact .fails j hmain (Option.some.inj h).symm
      · cases h
    · cases h
  | thread i =>
    change threadNext P s i = some s' at h
    obtain ⟨-, h⟩ := Option.ite_none_left_eq_some.mp h
    obtain ⟨lo, hlo, h⟩ := Option.bind_eq_some_iff.mp h
    obtain ⟨⟨sh', lo'⟩, hstep, rfl⟩ := Option.map_eq_some_iff.mp h
    exact .thread i lo lo' sh' hlo hstep rfl

/-- A thread that can go on does. -/
theorem step_thread (hmain : s.main ≠ .failed) (hlo : s.thread i = some lo)
    (hstep : P.step s.shared lo = some (sh', lo')) : Step P s (.thread i)
      { s with shared := sh', thread := Function.update s.thread i (some lo') } := by
  change threadNext P s i = _
  rw [threadNext, if_neg hmain, hlo, Option.bind_some, hstep, Option.map_some]

/-! ## Invariants -/

/-- What the creation of a thread and every step of one preserve, the whole preserves. -/
theorem Run.invariant {I : Sh → (Fin k → Option Lo) → Prop} (hinit : I sh fun _ => none)
    (hcreate : ∀ sh th j, I sh th → th j = none → I sh (Function.update th j (some P.start)))
    (hstep : ∀ sh th i lo sh' lo', I sh th → th i = some lo → P.step sh lo = some (sh', lo') →
      I sh' (Function.update th i (some lo')))
    (h : Run (Step P) (init sh) ls s) : I s.shared s.thread := by
  have hall : I s.shared s.thread ∧
      ∀ j : ℕ, s.main = .create j → ∀ i : Fin k, j ≤ i → s.thread i = none := by
    refine Lib.Run.invariant (I := fun s => I s.shared s.thread ∧
      ∀ j : ℕ, s.main = .create j → ∀ i : Fin k, j ≤ i → s.thread i = none) ?_ h
      ⟨hinit, fun _ _ _ _ => rfl⟩
    rintro s l s' ⟨hI, hnone⟩ hst
    cases step_cases hst with
    | creates j hmain heq =>
      subst heq
      refine ⟨hcreate _ _ _ hI (hnone j hmain j (Nat.le_refl _)), ?_⟩
      rintro _ ⟨⟩ i hi
      have hne : i ≠ j := by
        rintro rfl
        omega
      exact (Function.update_of_ne hne ..).trans (hnone j hmain i (by omega))
    | created j hmain hj heq => subst heq; exact ⟨hI, nofun⟩
    | joins j lo hmain hlo hret heq => subst heq; exact ⟨hI, nofun⟩
    | joined j hmain hj heq => subst heq; exact ⟨hI, nofun⟩
    | fails j hmain heq => subst heq; exact ⟨hI, nofun⟩
    | thread i lo lo' sh' hlo hmoved heq =>
      subst heq
      refine ⟨hstep _ _ _ _ _ _ hI hlo hmoved, ?_⟩
      intro j hmain m hm
      have hne : m ≠ i := by
        rintro rfl
        rw [hnone j hmain m hm] at hlo
        cases hlo
      exact (Function.update_of_ne hne ..).trans (hnone j hmain m hm)
  exact hall.1

/-- The thread has returned. -/
def Ended (P : ThreadProg Sh Lo) (s : State k Sh Lo) (i : Fin k) : Prop :=
  ∃ lo, s.thread i = some lo ∧ P.returned lo = true

/-- The threads that are created, and those that are joined. -/
structure State.Ok (P : ThreadProg Sh Lo) (s : State k Sh Lo) : Prop where
  created : ∀ j, s.main = .create j → ∀ i : Fin k, i < j → s.thread i ≠ none
  joins : ∀ j, s.main = .join j →
    (∀ i, s.thread i ≠ none) ∧ ∀ i : Fin k, i < j → Ended P s i
  joined : s.main = .joined → ∀ i, Ended P s i

theorem ok_step (hs : s.Ok P) (h : Step P s l s') : s'.Ok P := by
  cases step_cases h with
  | creates j hmain heq =>
    subst heq
    refine ⟨?_, nofun, nofun⟩
    rintro _ ⟨⟩ i hi
    change Function.update s.thread j (some P.start) i ≠ none
    rcases eq_or_ne i j with rfl | hne
    · rw [Function.update_self]
      exact nofun
    · rw [Function.update_of_ne hne]
      have := Fin.val_ne_of_ne hne
      exact hs.created j hmain i (by omega)
  | created j hmain hj heq =>
    subst heq
    refine ⟨nofun, ?_, nofun⟩
    rintro _ ⟨⟩
    exact ⟨fun i => hs.created j hmain i (by omega), fun i hi => absurd hi (Nat.not_lt_zero _)⟩
  | joins j lo hmain hlo hret heq =>
    subst heq
    refine ⟨nofun, ?_, nofun⟩
    rintro _ ⟨⟩
    obtain ⟨hall, hended⟩ := hs.joins j hmain
    refine ⟨hall, fun i hi => ?_⟩
    rcases Nat.lt_succ_iff_lt_or_eq.mp hi with hlt | heq
    · exact hended i hlt
    · obtain rfl := Fin.ext heq
      exact ⟨lo, hlo, hret⟩
  | joined j hmain hj heq =>
    subst heq
    exact ⟨nofun, nofun, fun _ i => (hs.joins j hmain).2 i (by omega)⟩
  | fails j hmain heq =>
    subst heq
    exact ⟨nofun, nofun, nofun⟩
  | thread i lo lo' sh' hlo hmoved heq =>
    subst heq
    have hended : ∀ m, Ended P s m → Ended P
        { s with shared := sh', thread := Function.update s.thread i (some lo') } m := by
      rintro m ⟨lo₁, hlo₁, hret⟩
      have hne : m ≠ i := by
        rintro rfl
        obtain rfl := Option.some.inj (hlo.symm.trans hlo₁)
        rw [P.step_returned _ _ hret] at hmoved
        cases hmoved
      exact ⟨lo₁, (Function.update_of_ne hne ..).trans hlo₁, hret⟩
    have hsome : ∀ m, s.thread m ≠ none → Function.update s.thread i (some lo') m ≠ none := by
      intro m hm
      rcases eq_or_ne m i with rfl | hne
      · rw [Function.update_self]
        exact nofun
      · rwa [Function.update_of_ne hne]
    refine ⟨fun j hmain m hm => hsome m (hs.created j hmain m hm), fun j hmain => ?_,
      fun hmain m => hended m (hs.joined hmain m)⟩
    obtain ⟨hall, hjoined⟩ := hs.joins j hmain
    exact ⟨fun m => hsome m (hall m), fun m hm => hended m (hjoined m hm)⟩

theorem ok_of_run (h : Run (Step P) (init sh) ls s) : s.Ok P := by
  have hinit : (init sh : State k Sh Lo).Ok P := by
    refine ⟨?_, nofun, nofun⟩
    rintro _ ⟨⟩ i hi
    exact absurd hi (Nat.not_lt_zero _)
  exact Lib.Run.invariant (I := State.Ok P) (fun _ _ _ hs hst => ok_step hs hst) h hinit

/-- Behind the joins all threads have returned. -/
theorem all_returned (h : Run (Step P) (init sh) ls s) (hmain : s.main = .joined) (i : Fin k) :
    Ended P s i := (ok_of_run h).joined hmain i

/-! ## The joins are reached -/

variable (P) in
/-- The state can be reached by a run. -/
def Reaches (s t : State k Sh Lo) : Prop := ∃ ls, Run (Step P) s ls t

theorem Reaches.refl (s : State k Sh Lo) : Reaches P s s := ⟨[], .refl⟩

theorem Reaches.trans {u : State k Sh Lo} (h : Reaches P s t) (h' : Reaches P t u) : Reaches P s u := by
  obtain ⟨ls, hls⟩ := h
  obtain ⟨ms, hms⟩ := h'
  exact ⟨ls ++ ms, hls.append hms⟩

theorem Reaches.single (h : Step P s l t) : Reaches P s t := ⟨[l], .single h⟩

variable (P) in
/-- The thread goes from one state to another by itself, and the shared state with it. -/
def Solo : Sh × Lo → Sh × Lo → Prop := Relation.ReflTransGen fun a b => P.step a.1 a.2 = some b

/-- What a thread can do by itself it can do in the whole. -/
theorem reaches_solo {a b : Sh × Lo} (h : Solo P a b) (hmain : s.main ≠ .failed) (hsh : s.shared = a.1)
    (hlo : s.thread i = some a.2) :
    Reaches P s { s with shared := b.1, thread := Function.update s.thread i (some b.2) } := by
  induction h with
  | refl =>
    rw [← hsh, ← hlo, Function.update_eq_self]
    exact .refl s
  | @tail b c _ hstep ih =>
    have hlast : Step P { s with shared := b.1, thread := Function.update s.thread i (some b.2) }
        (.thread i) { s with
          shared := c.1
          thread := Function.update (Function.update s.thread i (some b.2)) i (some c.2) } :=
      step_thread (s := { s with shared := b.1, thread := Function.update s.thread i (some b.2) }) hmain
        (Function.update_self ..) hstep
    rw [Function.update_idem] at hlast
    exact ih.trans (.single hlast)

/-- The threads from `j` on are created. -/
theorem reaches_created {j : ℕ} (hmain : s.main = .create j) : Reaches P s { s with
    thread := fun i : Fin k => if (i : ℕ) < j then s.thread i else some P.start
    main := .join 0 } := by
  induction hd : k - j generalizing s j with
  | zero =>
    have hthread : (fun i : Fin k => if (i : ℕ) < j then s.thread i else some P.start) = s.thread :=
      funext fun i => if_pos (by omega)
    rw [hthread]
    refine .single (l := .main) ?_
    change mainNext P s = _
    simp only [mainNext, hmain]
    rw [dif_neg (by omega)]
  | succ d ih =>
    have hj : j < k := by omega
    have hstep : Step P s .main { s with
        thread := Function.update s.thread ⟨j, hj⟩ (some P.start), main := .create (j + 1) } := by
      change mainNext P s = _
      simp only [mainNext, hmain]
      rw [dif_pos hj]
    have hthread : (fun i : Fin k => if (i : ℕ) < j + 1
          then Function.update s.thread ⟨j, hj⟩ (some P.start) i else some P.start) =
        fun i : Fin k => if (i : ℕ) < j then s.thread i else some P.start := by
      funext i
      rcases eq_or_ne i ⟨j, hj⟩ with rfl | hne
      · rw [if_pos (Nat.lt_succ_self j), if_neg (Nat.lt_irrefl j), Function.update_self]
      · have hval : (i : ℕ) ≠ j := Fin.val_ne_of_ne hne
        rw [Function.update_of_ne hne]
        exact if_congr (by omega) rfl rfl
    refine (Reaches.single hstep).trans ?_
    rw [← hthread]
    exact ih rfl (by omega)

/-- When all threads have returned they are joined. -/
theorem reaches_joined {j : ℕ} (hmain : s.main = .join j) (hended : ∀ i, Ended P s i) :
    Reaches P s { s with main := .joined } := by
  induction hd : k - j generalizing s j with
  | zero =>
    refine .single (l := .main) ?_
    change mainNext P s = _
    simp only [mainNext, hmain]
    rw [dif_neg (by omega)]
  | succ d ih =>
    have hj : j < k := by omega
    obtain ⟨lo, hlo, hret⟩ := hended ⟨j, hj⟩
    have hstep : Step P s .main { s with main := .join (j + 1) } := by
      change mainNext P s = _
      simp only [mainNext, hmain]
      rw [dif_pos hj, if_pos (by simp [hlo, hret])]
    exact (Reaches.single hstep).trans (ih (s := { s with main := .join (j + 1) }) rfl hended (by omega))

/-- Where a thread that has not returned can always go on, and its steps make something less, the
threads return. -/
theorem reaches_ended {I : Sh → (Fin k → Option Lo) → Prop} (μ : Lo → ℕ)
    (hstep : ∀ sh th i lo sh' lo', I sh th → th i = some lo → P.step sh lo = some (sh', lo') →
      I sh' (Function.update th i (some lo')))
    (hless : ∀ sh lo sh' lo', P.step sh lo = some (sh', lo') → μ lo' < μ lo)
    (hgo : ∀ sh th i lo, I sh th → th i = some lo → P.returned lo = false →
      ∃ j lo' r, th j = some lo' ∧ P.step sh lo' = some r)
    (hI : I s.shared s.thread) (hmain : s.main ≠ .failed) (hall : ∀ i, s.thread i ≠ none) :
    ∃ sh th, Reaches P s { s with shared := sh, thread := th } ∧ I sh th ∧
      ∀ i, Ended P { s with shared := sh, thread := th } i := by
  induction hm : ∑ i, ((s.thread i).map μ).getD 0 using Nat.strongRecOn generalizing s with
  | ind m ih =>
    by_cases hended : ∀ i, Ended P s i
    · exact ⟨s.shared, s.thread, .refl s, hI, hended⟩
    obtain ⟨i, hi⟩ := not_forall.mp hended
    obtain ⟨lo, hlo⟩ := Option.ne_none_iff_exists'.mp (hall i)
    have hret : P.returned lo = false := Bool.eq_false_iff.mpr fun h => hi ⟨lo, hlo, h⟩
    obtain ⟨j, lo₁, ⟨sh', lo'⟩, hlo₁, hmoved⟩ := hgo _ _ i lo hI hlo hret
    have hsum : ∑ i, ((Function.update s.thread j (some lo') i).map μ).getD 0 < m := by
      rw [← hm]
      have hlt : ((Function.update s.thread j (some lo') j).map μ).getD 0 < ((s.thread j).map μ).getD 0 := by
        rw [Function.update_self, hlo₁]
        exact hless _ _ _ _ hmoved
      refine Finset.sum_lt_sum (fun i _ => ?_) ⟨j, Finset.mem_univ j, hlt⟩
      rcases eq_or_ne i j with rfl | hne
      · exact hlt.le
      · rw [Function.update_of_ne hne]
    have hall' : ∀ i, Function.update s.thread j (some lo') i ≠ none := by
      intro i
      rcases eq_or_ne i j with rfl | hne
      · rw [Function.update_self]
        exact nofun
      · rw [Function.update_of_ne hne]
        exact hall i
    obtain ⟨sh, th, hreach, hrest⟩ := ih _ hsum
      (s := { s with shared := sh', thread := Function.update s.thread j (some lo') })
      (hstep _ _ _ _ _ _ hI hlo₁ hmoved) hmain hall' rfl
    exact ⟨sh, th, (Reaches.single (step_thread hmain hlo₁ hmoved)).trans hreach, hrest⟩

/-- Where threads can always go on and not for ever, every run in which no creation fails can reach the
end of the joins. -/
theorem can_join {I : Sh → (Fin k → Option Lo) → Prop} (μ : Lo → ℕ) (hinit : I sh fun _ => none)
    (hcreate : ∀ sh th j, I sh th → th j = none → I sh (Function.update th j (some P.start)))
    (hstep : ∀ sh th i lo sh' lo', I sh th → th i = some lo → P.step sh lo = some (sh', lo') →
      I sh' (Function.update th i (some lo')))
    (hless : ∀ sh lo sh' lo', P.step sh lo = some (sh', lo') → μ lo' < μ lo)
    (hgo : ∀ sh th i lo, I sh th → th i = some lo → P.returned lo = false →
      ∃ j lo' r, th j = some lo' ∧ P.step sh lo' = some r)
    (h : Run (Step P) (init sh) ls s) (hmain : s.main ≠ .failed) :
    ∃ t, Reaches P s t ∧ t.main = .joined := by
  have hjoins : ∀ (ms : List (Label k)) u j, Run (Step P) (init sh) ms u → u.main = .join j →
      ∃ t, Reaches P u t ∧ t.main = .joined := by
    intro ms u j hrun hu
    obtain ⟨sh', th, hreach, -, hended⟩ := reaches_ended μ hstep hless hgo
      (Run.invariant hinit hcreate hstep hrun) (by simp [hu]) ((ok_of_run hrun).joins j hu).1
    exact ⟨_, hreach.trans (reaches_joined hu hended), rfl⟩
  cases hs : s.main with
  | create j =>
    have hcreated := reaches_created (P := P) hs
    obtain ⟨ms, hms⟩ := hcreated
    obtain ⟨t, ht, hjoined⟩ := hjoins _ _ 0 (h.append hms) rfl
    exact ⟨t, Reaches.trans ⟨ms, hms⟩ ht, hjoined⟩
  | join j => exact hjoins ls s j h hs
  | joined => exact ⟨s, .refl s, hs⟩
  | failed => exact absurd hs hmain

end ForkJoin

end Lib
