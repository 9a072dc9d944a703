import Ulsp.Lib.Buffer
import Ulsp.Lib.Run
import Ulsp.Stdlib

/-!
# `strerror` with a buffer for each thread (`threads/strerror_tsd.c`)

The key of the thread-specific data is created by whichever thread is the first in `pthread_once`. A
call takes the buffer its thread has under the key, or allocates one and sets it, and `snprintf` fills
that byte by byte while other threads are in calls of their own. A thread that exits frees its buffer,
and a later `malloc` may return the same address. The threads are any, and each calls `strerror` as
often as it likes.

What a call has returned stays as it is until the thread's next call (`isolated`): a buffer that is live
belongs to one thread (`Ok.apart`), and only that stores into it.
-/

namespace Ulsp

open Lib

namespace StrerrorTsd

/-- `MAX_ERROR_LEN`. -/
def maxErrorLen : ℕ := 256

/-- `EPERM`. -/
def EPERM : ℤ := 1

/-- `EINVAL`. -/
def EINVAL : ℤ := 22

/-- The text for an error. -/
def message (err : ℤ) : List UInt8 :=
  List.map Char.toUInt8 <|
    if err = EINVAL then "EINVAL\n".toList
    else if err = EPERM then "EPERM\n".toList
    else "Unknown error ".toList ++ decimal err

/-- The bytes that `snprintf` stores: the text as far as it fits, and its terminator. -/
def stored (err : ℤ) : List UInt8 := (message err).take (maxErrorLen - 1) ++ [0]

/-- `once_var`: `createKey` has not been called, is running, or has returned. -/
inductive Once where
  | init
  | running
  | done
  deriving DecidableEq, Repr

/-- Where a thread is: outside of `strerror`, with the error and the result of its last call, in
`pthread_once`, in `createKey`, at `pthread_getspecific`, at `pthread_setspecific`, in `snprintf` with
`k` bytes stored, or at its end. -/
inductive Pc where
  | out (last : Option (ℤ × Ptr))
  | once (err : ℤ)
  | create (err : ℤ)
  | get (err : ℤ)
  | set (err : ℤ) (buf : Ptr)
  | print (err : ℤ) (buf : Ptr) (k : ℕ)
  | ended
  deriving DecidableEq, Repr

/-- What the threads share: `once_var`, the number of keys created, what each thread has under the
key, and the live buffers; and the threads. -/
structure State (T : Type) where
  once : Once
  keys : ℕ
  tsd : T → Option Ptr
  heap : Store Buffer
  thread : T → Pc

/-- What a thread does: call `strerror`, go on in it, with the address and the contents of a new buffer
where it allocates one, or exit. -/
inductive Move where
  | call (err : ℤ)
  | go
  | malloc (buf : Ptr) (contents : Buffer)
  | exit

variable {T : Type} [DecidableEq T]

/-- Before the first call. -/
def init : State T := ⟨.init, 0, fun _ => none, fun _ => none, fun _ => .out none⟩

/-- The thread goes on at `pc`. -/
def State.goTo (s : State T) (t : T) (pc : Pc) : State T :=
  { s with thread := Function.update s.thread t pc }

/-- A step of a thread. At its exit `dest` frees what it has under the key. -/
def next (s : State T) (l : T × Move) : Option (State T) :=
  match s.thread l.1, l.2 with
  | .out _, .call err => some (s.goTo l.1 (.once err))
  | .once err, .go =>
    match s.once with
    | .init => some { s.goTo l.1 (.create err) with once := .running }
    | .running => none
    | .done => some (s.goTo l.1 (.get err))
  | .create err, .go => some { s.goTo l.1 (.get err) with once := .done, keys := s.keys + 1 }
  | .get err, .go => (s.tsd l.1).map fun buf => s.goTo l.1 (.print err buf 0)
  | .get err, .malloc buf contents =>
    if s.tsd l.1 = none ∧ s.heap buf = none then
      some { s.goTo l.1 (.set err buf) with heap := Function.update s.heap buf (some contents) }
    else none
  | .set err buf, .go =>
    some { s.goTo l.1 (.print err buf 0) with tsd := Function.update s.tsd l.1 (some buf) }
  | .print err buf k, .go =>
    match (stored err)[k]? with
    | some c => (s.heap buf).map fun b => { s.goTo l.1 (.print err buf (k + 1)) with
        heap := Function.update s.heap buf (some (Function.update b k c)) }
    | none => some (s.goTo l.1 (.out (some (err, buf))))
  | .out _, .exit =>
    match s.tsd l.1 with
    | none => some (s.goTo l.1 .ended)
    | some buf =>
      if s.heap buf = none then none
      else some { s.goTo l.1 .ended with
        tsd := Function.update s.tsd l.1 none
        heap := Function.update s.heap buf none }
  | _, _ => none

/-- The step relation. -/
def Step (s : State T) (l : T × Move) (s' : State T) : Prop := next s l = some s'

/-! ## What a step does -/

/-- The cases of a step. -/
inductive Moves (s s' : State T) (t : T) : Prop
  | calls (last : Option (ℤ × Ptr)) (err : ℤ) : s.thread t = .out last → s' = s.goTo t (.once err) →
    Moves s s' t
  | creates (err : ℤ) : s.thread t = .once err → s.once = .init →
    s' = { s.goTo t (.create err) with once := .running } → Moves s s' t
  | passes (err : ℤ) : s.thread t = .once err → s.once = .done → s' = s.goTo t (.get err) → Moves s s' t
  | created (err : ℤ) : s.thread t = .create err →
    s' = { s.goTo t (.get err) with once := .done, keys := s.keys + 1 } → Moves s s' t
  | gets (err : ℤ) (buf : Ptr) : s.thread t = .get err → s.tsd t = some buf →
    s' = s.goTo t (.print err buf 0) → Moves s s' t
  | mallocs (err : ℤ) (buf : Ptr) (contents : Buffer) : s.thread t = .get err → s.tsd t = none →
    s.heap buf = none →
    s' = { s.goTo t (.set err buf) with heap := Function.update s.heap buf (some contents) } → Moves s s' t
  | sets (err : ℤ) (buf : Ptr) : s.thread t = .set err buf →
    s' = { s.goTo t (.print err buf 0) with tsd := Function.update s.tsd t (some buf) } → Moves s s' t
  | stores (err : ℤ) (buf : Ptr) (k : ℕ) (c : UInt8) (b : Buffer) : s.thread t = .print err buf k →
    (stored err)[k]? = some c → s.heap buf = some b →
    s' = { s.goTo t (.print err buf (k + 1)) with
      heap := Function.update s.heap buf (some (Function.update b k c)) } → Moves s s' t
  | returns (err : ℤ) (buf : Ptr) (k : ℕ) : s.thread t = .print err buf k → (stored err)[k]? = none →
    s' = s.goTo t (.out (some (err, buf))) → Moves s s' t
  | exits (last : Option (ℤ × Ptr)) : s.thread t = .out last → s.tsd t = none →
    s' = s.goTo t .ended → Moves s s' t
  | frees (last : Option (ℤ × Ptr)) (buf : Ptr) : s.thread t = .out last → s.tsd t = some buf →
    s' = { s.goTo t .ended with
      tsd := Function.update s.tsd t none
      heap := Function.update s.heap buf none } → Moves s s' t

variable {s s' : State T} {t u : T} {m : Move} {err : ℤ} {p : Ptr}

theorem step_cases (h : Step s (t, m) s') : Moves s s' t := by
  unfold Step next at h
  split at h
  · cases h
    exact .calls _ _ ‹_› rfl
  · split at h
    · cases h
      exact .creates _ ‹_› ‹_› rfl
    · cases h
    · cases h
      exact .passes _ ‹_› ‹_› rfl
  · cases h
    exact .created _ ‹_› rfl
  · obtain ⟨buf, hbuf, heq⟩ := Option.map_eq_some_iff.mp h
    exact .gets _ buf ‹_› hbuf heq.symm
  · obtain ⟨⟨hnone, hfree⟩, heq⟩ := Option.ite_none_right_eq_some.mp h
    exact .mallocs _ _ _ ‹_› hnone hfree (Option.some.inj heq).symm
  · cases h
    exact .sets _ _ ‹_› rfl
  · split at h
    · obtain ⟨b, hb, heq⟩ := Option.map_eq_some_iff.mp h
      exact .stores _ _ _ _ b ‹_› ‹_› hb heq.symm
    · cases h
      exact .returns _ _ _ ‹_› ‹_› rfl
  · split at h
    · cases h
      exact .exits _ ‹_› ‹_› rfl
    · obtain ⟨-, heq⟩ := Option.ite_none_left_eq_some.mp h
      exact .frees _ _ ‹_› ‹_› (Option.some.inj heq).symm
  · cases h

/-! ## The buffers -/

/-- The buffer of a thread: the one it has allocated, or the one under the key. -/
def Pc.holds (tsd : Option Ptr) : Pc → Option Ptr
  | .set _ buf => some buf
  | _ => tsd

/-- What the buffer of a thread holds. -/
def Pc.Ok (tsd : Option Ptr) (heap : Store Buffer) : Pc → Prop
  | .set _ _ => tsd = none
  | .print err buf k =>
    tsd = some buf ∧ ∃ b, heap buf = some b ∧ b.take k = (stored err).take k ∧ k ≤ (stored err).length
  | .out (some (err, buf)) =>
    tsd = some buf ∧ ∃ b, heap buf = some b ∧ b.take (stored err).length = stored err
  | _ => True

/-- The buffer of the thread `t`. -/
def State.holds (s : State T) (t : T) : Option Ptr := (s.thread t).holds (s.tsd t)

/-- The threads' buffers are live and their own. -/
structure Owned (s : State T) : Prop where
  live : ∀ t p, s.holds t = some p → s.heap p ≠ none
  apart : ∀ t u p, s.holds t = some p → s.holds u = some p → t = u
  thread : ∀ t, (s.thread t).Ok (s.tsd t) s.heap

/-- What a thread knows of its buffer it knows as long as nobody else stores into that. -/
theorem Pc.Ok.congr {pc : Pc} {tsd : Option Ptr} {heap heap' : Store Buffer} (h : pc.Ok tsd heap)
    (hsame : ∀ p, tsd = some p → heap' p = heap p) : pc.Ok tsd heap' := by
  cases pc with
  | print err buf k =>
    obtain ⟨htsd, hrest⟩ := h
    exact ⟨htsd, by rwa [hsame buf htsd]⟩
  | out last =>
    cases last with
    | none => trivial
    | some r =>
      obtain ⟨htsd, hrest⟩ := h
      exact ⟨htsd, by rwa [hsame r.2 htsd]⟩
  | _ => exact h

/-- A thread takes a step that leaves the buffers of the others as they are. -/
theorem Owned.move {pc : Pc} (h : Owned s) (hthread : s'.thread = Function.update s.thread t pc)
    (htsd : ∀ u, u ≠ t → s'.tsd u = s.tsd u)
    (hheap : ∀ u q, u ≠ t → s.holds u = some q → s'.heap q = s.heap q)
    (hnew : ∀ q, pc.holds (s'.tsd t) = some q → s'.heap q ≠ none ∧ ∀ u, u ≠ t → s.holds u ≠ some q)
    (hpc : pc.Ok (s'.tsd t) s'.heap) : Owned s' := by
  have hself : s'.thread t = pc := by rw [hthread, Function.update_self]
  have hrest : ∀ u, u ≠ t → s'.thread u = s.thread u := fun u hu => by
    rw [hthread, Function.update_of_ne hu]
  have hnew' : ∀ q, s'.holds t = some q → s'.heap q ≠ none ∧ ∀ u, u ≠ t → s.holds u ≠ some q := by
    intro q hq
    rw [State.holds, hself] at hq
    exact hnew q hq
  have hholds : ∀ u, u ≠ t → s'.holds u = s.holds u := fun u hu => by
    rw [State.holds, hrest u hu, htsd u hu, State.holds]
  refine ⟨fun u q hq => ?_, fun u v q hu hv => ?_, fun u => ?_⟩
  · rcases eq_or_ne u t with rfl | hu
    · exact (hnew' q hq).1
    · rw [hholds u hu] at hq
      rw [hheap u q hu hq]
      exact h.live u q hq
  · rcases eq_or_ne u t with rfl | hut
    · by_contra hne
      rw [hholds v (Ne.symm hne)] at hv
      exact (hnew' q hu).2 v (Ne.symm hne) hv
    · rcases eq_or_ne v t with rfl | hvt
      · rw [hholds u hut] at hu
        exact absurd hu ((hnew' q hv).2 u hut)
      · rw [hholds u hut] at hu
        rw [hholds v hvt] at hv
        exact h.apart u v q hu hv
  · rcases eq_or_ne u t with rfl | hu
    · rwa [hself]
    · rw [hrest u hu, htsd u hu]
      refine (h.thread u).congr fun q hq => ?_
      cases hset : s.thread u with
      | set err buf =>
        have hnone := h.thread u
        rw [hset] at hnone
        rw [show s.tsd u = none from hnone] at hq
        cases hq
      | _ => exact hheap u q hu (by rw [State.holds, hset]; exact hq)

/-- A step that neither allocates nor stores. -/
theorem Owned.goTo (h : Owned s) {pc : Pc} (hholds : pc.holds (s.tsd t) = s.holds t)
    (hpc : pc.Ok (s.tsd t) s.heap) : Owned (s.goTo t pc) := by
  refine h.move rfl (fun _ _ => rfl) (fun _ _ _ _ => rfl) (fun q hq => ?_) hpc
  have hq' : s.holds t = some q := hholds ▸ hq
  exact ⟨h.live t q hq', fun u hu hother => hu (h.apart u t q hother hq')⟩

/-- `snprintf` stores a byte. -/
theorem take_stored {b : Buffer} {k : ℕ} {c : UInt8} (h : b.take k = (stored err).take k)
    (hc : (stored err)[k]? = some c) :
    Buffer.take (k + 1) (Function.update b k c) = (stored err).take (k + 1) := by
  rw [Buffer.take_succ, Buffer.take_update (Nat.le_refl k), h, Function.update_self, List.take_add_one, hc]
  rfl

theorem owned_step (h : Owned s) (hstep : Step s (t, m) s') : Owned s' := by
  have hpc := h.thread t
  cases step_cases hstep with
  | calls last err hout heq =>
    subst heq
    exact h.goTo (by rw [State.holds, hout]; rfl) trivial
  | creates err hout honce heq =>
    subst heq
    have hat : Owned (s.goTo t (.create err)) := h.goTo (by rw [State.holds, hout]; rfl) trivial
    exact ⟨hat.live, hat.apart, hat.thread⟩
  | passes err hout honce heq =>
    subst heq
    exact h.goTo (by rw [State.holds, hout]; rfl) trivial
  | created err hout heq =>
    subst heq
    have hat : Owned (s.goTo t (.get err)) := h.goTo (by rw [State.holds, hout]; rfl) trivial
    exact ⟨hat.live, hat.apart, hat.thread⟩
  | gets err buf hout htsd heq =>
    subst heq
    have hholds : s.holds t = some buf := by
      rw [State.holds, hout]
      exact htsd
    obtain ⟨b, hb⟩ := Option.ne_none_iff_exists'.mp (h.live t buf hholds)
    exact h.goTo (by rw [hholds]; exact htsd) ⟨htsd, b, hb, rfl, Nat.zero_le _⟩
  | mallocs err buf contents hout htsd hfree heq =>
    subst heq
    have hother : ∀ u, s.holds u ≠ some buf := fun u hu => h.live u buf hu hfree
    have hlive : Function.update s.heap buf (some contents) buf ≠ none := by
      rw [Function.update_self]
      exact nofun
    refine h.move rfl (fun _ _ => rfl) (fun u q hu hq => Function.update_of_ne ?_ ..) (fun q hq => ?_) htsd
    · rintro rfl
      exact hother u hq
    · cases hq
      exact ⟨hlive, fun u _ => hother u⟩
  | sets err buf hout heq =>
    subst heq
    have hholds : s.holds t = some buf := by
      rw [State.holds, hout]
      rfl
    have hlive := h.live t buf hholds
    have hself : Function.update s.tsd t (some buf) t = some buf := Function.update_self ..
    obtain ⟨b, hb⟩ := Option.ne_none_iff_exists'.mp hlive
    refine h.move rfl (fun u hu => Function.update_of_ne hu ..) (fun _ _ _ _ => rfl) (fun q hq => ?_)
      ⟨hself, b, hb, rfl, Nat.zero_le _⟩
    obtain rfl : buf = q := Option.some.inj (hself.symm.trans hq)
    exact ⟨hlive, fun u hu hother => hu (h.apart u t buf hother hholds)⟩
  | stores err buf k c b hout hc hb heq =>
    subst heq
    rw [hout] at hpc
    obtain ⟨htsd, b', hb', htake, hle⟩ := hpc
    obtain rfl : b = b' := Option.some.inj (hb.symm.trans hb')
    have hholds : s.holds t = some buf := by
      rw [State.holds, hout]
      exact htsd
    have hk : k < (stored err).length := (List.getElem?_eq_some_iff.mp hc).1
    have hlive : Function.update s.heap buf (some (Function.update b k c)) buf ≠ none := by
      rw [Function.update_self]
      exact nofun
    refine h.move rfl (fun _ _ => rfl) (fun u q hu hq => Function.update_of_ne ?_ ..) (fun q hq => ?_)
      ⟨htsd, _, Function.update_self .., take_stored htake hc, hk⟩
    · rintro rfl
      exact hu (h.apart u t q hq hholds)
    · obtain rfl : buf = q := Option.some.inj (htsd.symm.trans hq)
      exact ⟨hlive, fun u hu hother => hu (h.apart u t buf hother hholds)⟩
  | returns err buf k hout hend heq =>
    subst heq
    rw [hout] at hpc
    obtain ⟨htsd, b, hb, htake, hle⟩ := hpc
    have hk : k = (stored err).length := Nat.le_antisymm hle (List.getElem?_eq_none_iff.mp hend)
    refine h.goTo (by rw [State.holds, hout]; rfl) ⟨htsd, b, hb, ?_⟩
    rw [← hk, htake, hk, List.take_length]
  | exits last hout htsd heq =>
    subst heq
    exact h.goTo (by rw [State.holds, hout]; rfl) trivial
  | frees last buf hout htsd heq =>
    subst heq
    have hholds : s.holds t = some buf := by
      rw [State.holds, hout]
      exact htsd
    refine h.move rfl (fun u hu => Function.update_of_ne hu ..)
      (fun u q hu hq => Function.update_of_ne ?_ ..) (fun q hq => ?_) trivial
    · rintro rfl
      exact hu (h.apart u t q hq hholds)
    · have hself : Function.update s.tsd t none t = none := Function.update_self ..
      cases hself.symm.trans hq

/-! ## The key -/

/-- A thread that is past `pthread_once`, or has been. -/
def Pc.Past : Pc → Prop
  | .get _ | .set _ _ | .print _ _ _ | .out (some _) => True
  | _ => False

/-- The key is created by one thread, and before any thread uses it. -/
structure Keyed (s : State T) : Prop where
  keys : s.keys = if s.once = .done then 1 else 0
  creating : ∀ t err, s.thread t = .create err → s.once = .running
  unique : ∀ t u err err', s.thread t = .create err → s.thread u = .create err' → t = u
  past : ∀ t, (s.thread t).Past → s.once = .done

/-- A step of a thread that does not create the key. -/
theorem Keyed.goTo (h : Keyed s) {pc : Pc} (hpc : ∀ err, pc ≠ .create err)
    (hpast : pc.Past → s.once = .done) : Keyed (s.goTo t pc) := by
  have hthread : ∀ u, (s.goTo t pc).thread u = if u = t then pc else s.thread u :=
    fun u => Function.update_apply ..
  have hcreate : ∀ u err, (s.goTo t pc).thread u = .create err → s.thread u = .create err := by
    intro u err hu
    rw [hthread] at hu
    split at hu
    · exact absurd hu (hpc err)
    · exact hu
  refine ⟨h.keys, fun u err hu => h.creating u err (hcreate u err hu),
    fun u v err err' hu hv => h.unique u v err err' (hcreate u err hu) (hcreate v err' hv), fun u hu => ?_⟩
  rw [hthread] at hu
  split at hu
  · exact hpast hu
  · exact h.past u hu

theorem keyed_step (h : Keyed s) (hstep : Step s (t, m) s') : Keyed s' := by
  have hpast := h.past t
  cases step_cases hstep with
  | calls last err hout heq => subst heq; exact h.goTo nofun nofun
  | passes err hout honce heq => subst heq; exact h.goTo nofun fun _ => honce
  | exits last hout htsd heq => subst heq; exact h.goTo nofun nofun
  | gets err buf hout htsd heq =>
    subst heq
    exact h.goTo nofun fun _ => hpast (by rw [hout]; trivial)
  | returns err buf k hout hend heq =>
    subst heq
    exact h.goTo nofun fun _ => hpast (by rw [hout]; trivial)
  | mallocs err buf contents hout htsd hfree heq =>
    subst heq
    have hat : Keyed (s.goTo t (.set err buf)) := h.goTo nofun fun _ => hpast (by rw [hout]; trivial)
    exact ⟨hat.keys, hat.creating, hat.unique, hat.past⟩
  | sets err buf hout heq =>
    subst heq
    have hat : Keyed (s.goTo t (.print err buf 0)) := h.goTo nofun fun _ => hpast (by rw [hout]; trivial)
    exact ⟨hat.keys, hat.creating, hat.unique, hat.past⟩
  | stores err buf k c b hout hc hb heq =>
    subst heq
    have hat : Keyed (s.goTo t (.print err buf (k + 1))) :=
      h.goTo nofun fun _ => hpast (by rw [hout]; trivial)
    exact ⟨hat.keys, hat.creating, hat.unique, hat.past⟩
  | frees last buf hout htsd heq =>
    subst heq
    have hat : Keyed (s.goTo t .ended) := h.goTo nofun nofun
    exact ⟨hat.keys, hat.creating, hat.unique, hat.past⟩
  | creates err hout honce heq =>
    subst heq
    have hnone : ∀ u err, s.thread u ≠ .create err := fun u err hu => by
      cases honce.symm.trans (h.creating u err hu)
    have hself : ∀ u err', Function.update s.thread t (.create err) u = .create err' → u = t := by
      intro u err' hu
      by_contra hne
      rw [Function.update_of_ne hne] at hu
      exact hnone u err' hu
    refine ⟨?_, fun _ _ _ => rfl, fun u v err' err'' hu hv => ?_, fun u hu => ?_⟩
    · have hkeys := h.keys
      rw [honce] at hkeys
      exact hkeys
    · exact (hself u err' hu).trans (hself v err'' hv).symm
    · have hu' : (Function.update s.thread t (.create err) u).Past := hu
      rcases eq_or_ne u t with rfl | hne
      · rw [Function.update_self] at hu'
        exact hu'.elim
      · rw [Function.update_of_ne hne] at hu'
        cases honce.symm.trans (h.past u hu')
  | created err hout heq =>
    subst heq
    have honce := h.creating t err hout
    have hnone : ∀ u err', Function.update s.thread t (.get err) u ≠ .create err' := by
      intro u err' hu
      rcases eq_or_ne u t with rfl | hne
      · rw [Function.update_self] at hu
        cases hu
      · rw [Function.update_of_ne hne] at hu
        exact hne (h.unique u t err' err hu hout)
    refine ⟨?_, fun u err' hu => absurd hu (hnone u err'), fun u v err' err'' hu hv =>
      absurd hu (hnone u err'), fun _ _ => rfl⟩
    have hkeys := h.keys
    rw [honce] at hkeys
    exact congrArg (· + 1) hkeys

/-! ## Runs -/

theorem invariant_of_run {ls : List (T × Move)} (h : Run Step init ls s) : Owned s ∧ Keyed s := by
  refine h.invariant (I := fun s => Owned s ∧ Keyed s) (fun s l s' hs hstep => ?_) ⟨?_, ?_⟩
  · obtain ⟨t, m⟩ := l
    exact ⟨owned_step hs.1 hstep, keyed_step hs.2 hstep⟩
  · exact ⟨nofun, nofun, fun _ => trivial⟩
  · exact ⟨rfl, nofun, nofun, fun _ => False.elim⟩

/-- A character that is not null. -/
def IsText (c : Char) : Prop := c.toUInt8 ≠ 0

instance : DecidablePred IsText := fun c => inferInstanceAs (Decidable (c.toUInt8 ≠ 0))

theorem isText_of_isDigit {c : Char} (h : c.isDigit = true) : IsText c := by
  obtain ⟨hlow, hhigh⟩ := Char.isDigit_iff_toNat.mp h
  have h0 : '0'.toNat = 48 := rfl
  have h9 : '9'.toNat = 57 := rfl
  intro hnull
  have hmod : c.toNat % 256 = 0 := congrArg UInt8.toNat hnull
  omega

/-- No text has a zero byte in it. -/
theorem nul_free_message (err : ℤ) : 0 ∉ message err := by
  have htext : ∀ c ∈ decimal err, IsText c := by
    intro c hc
    rcases List.mem_append.mp hc with hsign | hdigit
    · split at hsign
      · obtain rfl := List.mem_singleton.mp hsign
        decide
      · cases hsign
    · exact isText_of_isDigit (Nat.isDigit_of_mem_toDigits (by decide) (by decide) hdigit)
  have hunknown : ∀ c ∈ "Unknown error ".toList, IsText c := by simp [IsText]; decide
  intro hzero
  obtain ⟨c, hc, hnull⟩ := List.mem_map.mp hzero
  refine (?_ : IsText c) hnull
  split at hc
  · have hall : ∀ c ∈ "EINVAL\n".toList, IsText c := by simp [IsText]; decide
    exact hall c hc
  · split at hc
    · have hall : ∀ c ∈ "EPERM\n".toList, IsText c := by simp [IsText]; decide
      exact hall c hc
    · exact (List.mem_append.mp hc).elim (hunknown c) (htext c)

/-- As long as a thread has not called `strerror` again, and has not exited, what its last call
returned is a live buffer with the text for its error, and no other thread's; and the key was created
once. -/
theorem isolated {ls : List (T × Move)} (h : Run Step init ls s)
    (hout : s.thread t = .out (some (err, p))) :
    (∃ b, s.heap p = some b ∧ b.cstring maxErrorLen = some ((message err).take (maxErrorLen - 1))) ∧
      (∀ u, s.tsd u = some p → u = t) ∧ s.keys = 1 := by
  obtain ⟨howned, hkeyed⟩ := invariant_of_run h
  have hpc := howned.thread t
  rw [hout] at hpc
  obtain ⟨htsd, b, hb, htake⟩ := hpc
  have hholds : s.holds t = some p := by
    rw [State.holds, hout]
    exact htsd
  refine ⟨⟨b, hb, ?_⟩, fun u hu => ?_, ?_⟩
  · rw [stored, List.length_append, List.length_singleton, Buffer.take_succ] at htake
    obtain ⟨htext, hend⟩ := List.append_inj' htake rfl
    have hlen := List.length_take_le (maxErrorLen - 1) (message err)
    refine Buffer.cstring_eq_some_iff.mpr ⟨⟨htext, List.singleton_inj.mp hend, fun hmem => ?_⟩, ?_⟩
    · exact nul_free_message err (List.mem_of_mem_take hmem)
    · exact Nat.lt_of_le_of_lt hlen (by decide)
  · refine howned.apart u t p ?_ hholds
    have hset := howned.thread u
    cases hu' : s.thread u with
    | set err' buf =>
      rw [hu'] at hset
      cases (show s.tsd u = none from hset).symm.trans hu
    | _ => rw [State.holds, hu']; exact hu
  · have hdone := hkeyed.past t (by rw [hout]; trivial)
    rw [hkeyed.keys, if_pos hdone]

/-- Two threads that call `strerror` at the same time, the bytes of each call stored between those of
the other. -/
def twoCalls : List (Bool × Move) :=
  let both (m : Move) : List (Bool × Move) := [(false, m), (true, m)]
  [(false, .call EINVAL), (true, .call EPERM), (false, .go), (false, .go), (true, .go),
    (true, .malloc 2 fun _ => 7), (false, .malloc 1 fun _ => 7)] ++
    (List.replicate 9 (both .go)).flatten ++ [(false, .go)]

/-- What the first has got is its own text. -/
theorem isolated_twoCalls : ∃ s b, Run Step (init (T := Bool)) twoCalls s ∧ s.heap 1 = some b ∧
    b.cstring maxErrorLen = some (message EINVAL) := by
  have hends : (exec next (init (T := Bool)) twoCalls).map (fun s => s.thread false) =
      some (.out (some (EINVAL, 1))) := by decide
  obtain ⟨s, hrun, hout⟩ := Run.of_exec_map hends
  obtain ⟨b, hb, htext⟩ := (isolated hrun hout).1
  exact ⟨s, b, hrun, hb, htext⟩

end StrerrorTsd

end Ulsp
