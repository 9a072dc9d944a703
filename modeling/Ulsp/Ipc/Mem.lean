import Ulsp.Lib.Ring
import Ulsp.Lib.Run
import Ulsp.Lib.Tally

/-!
# The ring buffer in shared memory (`ipc/mem.h`, `ipc/memwrite.c`, `ipc/memread.c`)

Producers and consumers share a `struct Mem` and two semaphores, `empty` and `full`. A producer
repeats `sem_wait(empty); mem_write; sem_post(full)`, a consumer
`sem_wait(full); mem_read; sem_post(empty)`; `mem_write` and `mem_read` run under `lock` and are one
step each. Values are written in one order and announced in `full` in another, so neither semaphore
is the number of unread values. What is invariant is that each of them is short of it by the threads
between their `sem_wait` and their `sem_post` (`State.Balanced`): therefore a thread that has passed
its `sem_wait` finds a slot for it, whichever thread's `sem_post` let it pass.
-/

namespace Ulsp

open Lib

namespace Ipc

/-- `BUFSIZE`. -/
abbrev BUFSIZE : ℕ := 5

/-- `struct Mem`, without its `lock`. `head` and `tail` are remainders by `BUFSIZE` at all times. -/
structure Mem where
  head : Fin BUFSIZE
  tail : Fin BUFSIZE
  nums : Fin BUFSIZE → ℤ

/-- `init`. -/
def init (pm : Mem) : Mem := { pm with head := 0, tail := 0 }

/-- `mem_read`, with the number it prints. -/
def memRead (pm : Mem) : Mem × ℤ := ({ pm with tail := pm.tail + 1 }, pm.nums pm.tail)

/-- `mem_write`. -/
def memWrite (pm : Mem) (val : ℤ) : Mem :=
  { pm with nums := Function.update pm.nums pm.head val, head := pm.head + 1 }

/-- Where a producer is: before `sem_wait(empty)`, `mem_write` or `sem_post(full)`. -/
inductive ProducerPc where
  | wait | write | post
  deriving DecidableEq

/-- Where a consumer is: before `sem_wait(full)`, `mem_read` or `sem_post(empty)`. -/
inductive ConsumerPc where
  | wait | read | post
  deriving DecidableEq

/-- What happened so far: the values in the order they were written and read, and the slots that were
written and not read since. -/
structure Log where
  written : List ℤ
  read : List ℤ
  unread : Finset (Fin BUFSIZE)

/-- The shared memory, the values of the semaphores, and the producers `P` and consumers `C`. -/
structure State (P C : Type) where
  pm : Mem
  empty : ℕ
  full : ℕ
  producer : P → ProducerPc
  consumer : C → ConsumerPc
  log : Log

/-- Who takes a step, and the value it writes if it writes one. -/
inductive Label (P C : Type) where
  | producer (p : P) (val : ℤ)
  | consumer (c : C)

variable {P C : Type}

/-- One step of a process. `sem_wait` returns only when the semaphore is positive. -/
def next [DecidableEq P] [DecidableEq C] (s : State P C) : Label P C → Option (State P C)
  | .producer p val =>
    match s.producer p with
    | .wait =>
      if 0 < s.empty then
        some { s with empty := s.empty - 1, producer := Function.update s.producer p .write }
      else none
    | .write =>
      some { s with
        pm := memWrite s.pm val
        producer := Function.update s.producer p .post
        log := { s.log with
          written := s.log.written ++ [val]
          unread := insert s.pm.head s.log.unread } }
    | .post =>
      some { s with full := s.full + 1, producer := Function.update s.producer p .wait }
  | .consumer c =>
    match s.consumer c with
    | .wait =>
      if 0 < s.full then
        some { s with full := s.full - 1, consumer := Function.update s.consumer c .read }
      else none
    | .read =>
      let (pm, val) := memRead s.pm
      some { s with
        pm := pm
        consumer := Function.update s.consumer c .post
        log := { s.log with
          read := s.log.read ++ [val]
          unread := s.log.unread.erase s.pm.tail } }
    | .post =>
      some { s with empty := s.empty + 1, consumer := Function.update s.consumer c .wait }

/-- A step of the system. -/
def Step [DecidableEq P] [DecidableEq C] (s : State P C) (l : Label P C) (s' : State P C) : Prop :=
  next s l = some s'

/-- All processes at the top of their loops, after `init` and with `empty` at `BUFSIZE`. -/
def State.init (pm : Mem) : State P C where
  pm := Ipc.init pm
  empty := BUFSIZE
  full := 0
  producer _ := .wait
  consumer _ := .wait
  log := ⟨[], [], ∅⟩

/-! ## The invariant -/

/-- Whether a producer is between `sem_wait(empty)` and `mem_write`. -/
def ProducerPc.writing : ProducerPc → Bool
  | write => true
  | _ => false

/-- Whether a producer is between `mem_write` and `sem_post(full)`. -/
def ProducerPc.posting : ProducerPc → Bool
  | post => true
  | _ => false

/-- Whether a consumer is between `sem_wait(full)` and `mem_read`. -/
def ConsumerPc.reading : ConsumerPc → Bool
  | read => true
  | _ => false

/-- Whether a consumer is between `mem_read` and `sem_post(empty)`. -/
def ConsumerPc.posting : ConsumerPc → Bool
  | post => true
  | _ => false

variable [Fintype P] [Fintype C] {s s' : State P C} {l : Label P C}

/-- The semaphores and the processes inside their loops account for the unread values and for the
free slots. -/
structure State.Balanced (s : State P C) : Prop where
  unread : s.log.written.length = s.log.read.length +
    (s.full + count ProducerPc.posting s.producer + count ConsumerPc.reading s.consumer)
  free : s.log.written.length + (s.empty + count ProducerPc.writing s.producer +
    count ConsumerPc.posting s.consumer) = s.log.read.length + BUFSIZE

/-- The invariant: the buffer holds the unread values, and what was read are the first values. -/
structure State.Ok (s : State P C) : Prop where
  balanced : s.Balanced
  holds : Ring.Holds s.pm.nums s.pm.head s.pm.tail s.log.unread s.log.written s.log.read.length
  order : s.log.read = s.log.written.take s.log.read.length

/-- A process that is somewhere is counted there. -/
theorem count_pos {ι α : Type*} [Fintype ι] {p : α → Bool} {w : ι → α} {i : ι}
    (h : p (w i) = true) : 0 < count p w := by
  refine Nat.pos_of_ne_zero ?_
  intro hzero
  rw [count_eq_zero.mp hzero i] at h
  cases h

/-- A producer that has passed `sem_wait(empty)` finds room. -/
theorem State.Balanced.room (h : s.Balanced) {p : P} (hp : s.producer p = .write) :
    s.log.written.length < s.log.read.length + BUFSIZE := by
  have hpos : 0 < count ProducerPc.writing s.producer := count_pos (i := p) (by rw [hp]; rfl)
  have hfree := h.free
  omega

/-- A consumer that has passed `sem_wait(full)` finds a value. -/
theorem State.Balanced.ready (h : s.Balanced) {c : C} (hc : s.consumer c = .read) :
    s.log.read.length < s.log.written.length := by
  have hpos : 0 < count ConsumerPc.reading s.consumer := count_pos (i := c) (by rw [hc]; rfl)
  have hunread := h.unread
  omega

section Steps

variable [DecidableEq P] [DecidableEq C]

/-- A step of a producer. -/
theorem ok_producer {p : P} {val : ℤ} (hs : s.Ok) (h : next s (.producer p val) = some s') :
    s'.Ok := by
  obtain ⟨hbal, hholds, horder⟩ := hs
  obtain ⟨hunread, hfree⟩ := hbal
  have hwriting := count_update ProducerPc.writing s.producer p
  have hposting := count_update ProducerPc.posting s.producer p
  simp only [next] at h
  split at h
  · rename_i hp
    rw [hp] at hwriting hposting
    split at h
    · cases h
      have hw := hwriting .write
      have hq := hposting .write
      simp only [ProducerPc.writing, ProducerPc.posting, Bool.toNat_true, Bool.toNat_false] at hw hq
      exact ⟨⟨by dsimp only; omega, by dsimp only; omega⟩, hholds, horder⟩
    · cases h
  · rename_i hp
    have hroom := State.Balanced.room ⟨hunread, hfree⟩ hp
    rw [hp] at hwriting hposting
    cases h
    have hw := hwriting .post
    have hq := hposting .post
    have hle := hholds.le_written
    simp only [ProducerPc.writing, ProducerPc.posting, Bool.toNat_true, Bool.toNat_false] at hw hq
    refine ⟨⟨?_, ?_⟩, hholds.put hroom val, ?_⟩
    · simp only [List.length_append, List.length_singleton]
      omega
    · simp only [List.length_append, List.length_singleton]
      omega
    · dsimp only
      rw [List.take_append_of_le_length hle]
      exact horder
  · rename_i hp
    rw [hp] at hwriting hposting
    cases h
    have hw := hwriting .wait
    have hq := hposting .wait
    simp only [ProducerPc.writing, ProducerPc.posting, Bool.toNat_true, Bool.toNat_false] at hw hq
    exact ⟨⟨by dsimp only; omega, by dsimp only; omega⟩, hholds, horder⟩

/-- A step of a consumer. -/
theorem ok_consumer {c : C} (hs : s.Ok) (h : next s (.consumer c) = some s') : s'.Ok := by
  obtain ⟨hbal, hholds, horder⟩ := hs
  obtain ⟨hunread, hfree⟩ := hbal
  have hreading := count_update ConsumerPc.reading s.consumer c
  have hposting := count_update ConsumerPc.posting s.consumer c
  simp only [next] at h
  split at h
  · rename_i hc
    rw [hc] at hreading hposting
    split at h
    · cases h
      have hr := hreading .read
      have hq := hposting .read
      simp only [ConsumerPc.reading, ConsumerPc.posting, Bool.toNat_true, Bool.toNat_false] at hr hq
      exact ⟨⟨by dsimp only; omega, by dsimp only; omega⟩, hholds, horder⟩
    · cases h
  · rename_i hc
    have hready := State.Balanced.ready ⟨hunread, hfree⟩ hc
    rw [hc] at hreading hposting
    cases h
    have hr := hreading .post
    have hq := hposting .post
    have hlen : (s.log.read ++ [(memRead s.pm).2]).length = s.log.read.length + 1 :=
      List.length_append
    simp only [ConsumerPc.reading, ConsumerPc.posting, Bool.toNat_true, Bool.toNat_false] at hr hq
    refine ⟨⟨?_, ?_⟩, hlen ▸ hholds.take hready, ?_⟩
    · dsimp only
      omega
    · dsimp only
      omega
    · have hval : (memRead s.pm).2 = s.log.written[s.log.read.length] := hholds.next hready
      dsimp only
      rw [hlen, List.take_add_one, List.getElem?_eq_getElem hready, ← horder, hval]
      rfl
  · rename_i hc
    rw [hc] at hreading hposting
    cases h
    have hr := hreading .wait
    have hq := hposting .wait
    simp only [ConsumerPc.reading, ConsumerPc.posting, Bool.toNat_true, Bool.toNat_false] at hr hq
    exact ⟨⟨by dsimp only; omega, by dsimp only; omega⟩, hholds, horder⟩

/-- Every step keeps the invariant. -/
theorem ok_step (hs : s.Ok) (h : Step s l s') : s'.Ok := by
  cases l with
  | producer p val => exact ok_producer hs h
  | consumer c => exact ok_consumer hs h

omit [DecidableEq P] [DecidableEq C] in
/-- The invariant holds before the first step. -/
theorem init_ok (pm : Mem) : (State.init pm : State P C).Ok := by
  have hwriting : count ProducerPc.writing (fun _ : P => .wait) = 0 := count_eq_zero.mpr fun _ => rfl
  have hannounce : count ProducerPc.posting (fun _ : P => .wait) = 0 := count_eq_zero.mpr fun _ => rfl
  have hreading : count ConsumerPc.reading (fun _ : C => .wait) = 0 := count_eq_zero.mpr fun _ => rfl
  have hrelease : count ConsumerPc.posting (fun _ : C => .wait) = 0 := count_eq_zero.mpr fun _ => rfl
  refine ⟨⟨?_, ?_⟩, Ring.holds_nil _, rfl⟩
  · simp only [State.init, hannounce, hreading, List.length_nil]
  · simp only [State.init, hwriting, hrelease, List.length_nil]

/-- In every state that any number of producers and consumers reach, what was read is a prefix of
what was written, at most `BUFSIZE` values are unread, a producer that is about to write finds a slot
that holds no unread value, and a consumer that is about to read one that does. -/
theorem ring_fifo {pm : Mem} {ls : List (Label P C)} (h : Run Step (State.init pm) ls s) :
    s.log.read <+: s.log.written ∧ s.log.written.length ≤ s.log.read.length + BUFSIZE ∧
      (∀ p, s.producer p = .write → s.pm.head ∉ s.log.unread) ∧
      ∀ c, s.consumer c = .read → s.pm.tail ∈ s.log.unread := by
  have hs : s.Ok := h.invariant (fun _ _ _ hs hstep => ok_step hs hstep) (init_ok pm)
  obtain ⟨hbal, hholds, horder⟩ := hs
  refine ⟨?_, hholds.fits, fun p hp => hholds.head_free (hbal.room hp), fun c hc =>
    hholds.tail_full (hbal.ready hc)⟩
  rw [horder]
  exact List.take_prefix _ _

/-- One producer writes two values and one consumer reads the first. -/
theorem ring_fifo_two : ∃ s : State Unit Unit,
    Run Step (State.init ⟨0, 0, fun _ => 0⟩) [.producer () 8, .producer () 8, .producer () 8,
      .producer () 9, .producer () 9, .consumer (), .consumer ()] s ∧
    (s.log.written = [8, 9] ∧ s.log.read = [8]) ∧ s.log.read <+: s.log.written := by
  have hexec : (exec (next (P := Unit) (C := Unit)) (State.init ⟨0, 0, fun _ => 0⟩)
      [.producer () 8, .producer () 8, .producer () 8, .producer () 9, .producer () 9, .consumer (),
        .consumer ()]).map (fun s => (s.log.written, s.log.read)) = some ([8, 9], [8]) := by decide
  obtain ⟨s, hrun, hlog⟩ := Run.of_exec_map hexec
  exact ⟨s, hrun, by simpa using hlog, (ring_fifo hrun).1⟩

end Steps

end Ipc

end Ulsp
