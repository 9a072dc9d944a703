import Mathlib.Algebra.Order.Ring.Int
import Ulsp.Lib.Buffer
import Ulsp.Lib.Fuel

/-!
# `safe_read` and `safe_write` (`cmd/src/cat.c`)

Both loops call `read` or `write` for what is left until it fails, and go on without counting what it
has moved when `errno` is `EINTR`. They are one loop (`Kind.loop`), which differs in what a call moves
and where, and in that a `read` of nothing ends it. A call that succeeds leaves `errno` as it is. So
an `EINTR` from before makes the loop move the same bytes again and again (`Kind.loop_stale`), and
every failure ends it, an interruption too, with the number of bytes counted and never a negative one
(`Kind.loop_spec`).
-/

namespace Ulsp

open Lib

namespace Cat

/-- `EINTR`. -/
def EINTR : ℤ := 4

/-- The bytes that calls have moved; a call that returns -1 moves none. -/
def moved (log : List (Except ℤ (List UInt8))) : List UInt8 :=
  log.flatMap fun
    | .ok bytes => bytes
    | .error _ => []

/-- What the loop leaves: `rem`, the memory, and what each call has moved, or its `errno`. -/
structure Transfer (μ : Type) where
  rem : ℕ
  mem : μ
  log : List (Except ℤ (List UInt8))

/-- The system call of a loop over `size` bytes, with results in `β` and a memory `μ`: whether it may
find the end of a file, how many bytes a result stands for, and which of the `rem` bytes asked for it
moves. -/
structure Kind (β μ : Type) where
  size : ℕ
  eof : Bool
  count : β → ℕ
  count_pos : eof = false → ∀ b, 0 < count b
  chunk : ℕ → β → List UInt8
  length_chunk : ∀ rem b, rem ≤ size → (chunk rem b).length = min rem (count b)
  store : ℕ → List UInt8 → μ → μ

/-- `read` into a buffer of `size` bytes, with the bytes that it returns; none at the end of the file.
-/
def reading (size : ℕ) : Kind (List UInt8) Buffer where
  size := size
  eof := true
  count := List.length
  count_pos := nofun
  chunk rem bytes := bytes.take rem
  length_chunk _ _ _ := List.length_take
  store := Buffer.store

/-- `write` of `data`, with the number of bytes that it takes, at least one. -/
def writing (data : List UInt8) : Kind ℕ Unit where
  size := data.length
  eof := false
  count n := max 1 n
  count_pos _ n := by omega
  chunk rem n := (data.drop (data.length - rem)).take (max 1 n)
  length_chunk rem n h := by
    rw [List.length_take, List.length_drop]
    omega
  store _ _ mem := mem

variable {β μ : Type} {k : Kind β μ} {res : ℕ → Except ℤ β} {errno e : ℤ} {fuel rem : ℕ} {mem : μ}
  {t : Transfer μ}

/-- A call that succeeds, before the others. -/
def Transfer.after (bytes : List UInt8) (t : Transfer μ) : Transfer μ :=
  { t with log := .ok bytes :: t.log }

/-- The loop, for at most `fuel` passes, with the results of the calls to come. -/
def Kind.loop (k : Kind β μ) : ℕ → (ℕ → Except ℤ β) → ℤ → ℕ → μ → Option (Transfer μ)
  | 0, _, _, _, _ => none
  | fuel + 1, res, errno, rem, mem =>
    if rem = 0 then some ⟨0, mem, []⟩
    else
      match res 0 with
      | .error e => some ⟨rem, mem, [.error e]⟩
      | .ok b =>
        let bytes := k.chunk rem b
        let mem := k.store (k.size - rem) bytes mem
        if errno = EINTR then
          (k.loop fuel (fun i => res (i + 1)) errno rem mem).map (Transfer.after bytes)
        else if k.eof ∧ bytes = [] then some ⟨rem, mem, [.ok bytes]⟩
        else
          (k.loop fuel (fun i => res (i + 1)) errno (rem - bytes.length) mem).map (Transfer.after bytes)

/-- The loop from the beginning, with what the function returns. -/
def Kind.run (k : Kind β μ) (res : ℕ → Except ℤ β) (errno : ℤ) (mem : μ) (fuel : ℕ) :
    Option (ℤ × Transfer μ) :=
  (k.loop fuel res errno k.size mem).map fun t => ((k.size : ℤ) - t.rem, t)

/-- `safe_read`, for at most `fuel` calls. -/
def safeRead (size : ℕ) (res : ℕ → Except ℤ (List UInt8)) (errno : ℤ) (buf : Buffer) :
    ℕ → Option (ℤ × Transfer Buffer) := (reading size).run res errno buf

/-- `safe_write`, for at most `fuel` calls. -/
def safeWrite (data : List UInt8) (res : ℕ → Except ℤ ℕ) (errno : ℤ) : ℕ → Option (ℤ × Transfer Unit) :=
  (writing data).run res errno ()

/-! ## An interruption from before -/

theorem moved_cons (bytes : List UInt8) (log : List (Except ℤ (List UInt8))) :
    moved (.ok bytes :: log) = bytes ++ moved log := rfl

theorem Kind.loop_error (hrem : rem ≠ 0) (h : res 0 = .error e) :
    k.loop (fuel + 1) res errno rem mem = some ⟨rem, mem, [.error e]⟩ := by
  rw [Kind.loop, if_neg hrem, h]

theorem Kind.loop_stale_ok {b : β} (hrem : rem ≠ 0) (h : res 0 = .ok b) :
    k.loop (fuel + 1) res EINTR rem mem =
      (k.loop fuel (fun i => res (i + 1)) EINTR rem (k.store (k.size - rem) (k.chunk rem b) mem)).map
        (Transfer.after (k.chunk rem b)) := by
  rw [Kind.loop, if_neg hrem, h]
  exact if_pos rfl

/-- With an `EINTR` from before nothing is counted, and the loop ends with a failure. -/
theorem Kind.loop_stale (hrem : rem ≠ 0) (h : k.loop fuel res EINTR rem mem = some t) :
    t.rem = rem ∧ ∃ e, t.log.getLast? = some (.error e) := by
  induction fuel generalizing res mem t with
  | zero => cases h
  | succ fuel ih =>
    rcases hres : res 0 with e | b
    · rw [Kind.loop_error hrem hres] at h
      obtain rfl := Option.some.inj h
      exact ⟨rfl, e, rfl⟩
    · rw [Kind.loop_stale_ok hrem hres] at h
      obtain ⟨t', hrest, rfl⟩ := Option.map_eq_some_iff.mp h
      obtain ⟨hrem', e, he⟩ := ih hrest
      refine ⟨hrem', e, ?_⟩
      rw [Transfer.after, List.getLast?_cons, he]
      rfl

/-- It ends if there is one. -/
theorem Kind.loop_stale_returns (hrem : rem ≠ 0) {i : ℕ} (h : res i = .error e) (mem : μ) :
    ∃ t, Returns (fun fuel => k.loop fuel res EINTR rem mem) t := by
  induction i generalizing res mem with
  | zero => exact ⟨_, .succ (k := 0) fun fuel _ => Kind.loop_error hrem h⟩
  | succ i ih =>
    rcases hres : res 0 with e' | b
    · exact ⟨_, .succ (k := 0) fun fuel _ => Kind.loop_error hrem hres⟩
    · obtain ⟨t, n, hn⟩ := @ih (fun i => res (i + 1)) h
        (k.store (k.size - rem) (k.chunk rem b) mem)
      refine ⟨t.after (k.chunk rem b), .succ (k := n) ?_⟩
      intro fuel hf
      rw [Kind.loop_stale_ok hrem hres]
      exact congrArg (Option.map _) (hn fuel hf)

/-- It does not end if there is none. -/
theorem Kind.loop_stale_none (hrem : rem ≠ 0) (h : ∀ i e, res i ≠ .error e) :
    k.loop fuel res EINTR rem mem = none := by
  induction fuel generalizing res mem with
  | zero => rfl
  | succ fuel ih =>
    rcases hres : res 0 with e | b
    · exact absurd hres (h 0 e)
    · rw [Kind.loop_stale_ok hrem hres, ih fun i => h (i + 1)]
      rfl

/-! ## The results that the loop is right about -/

/-- How many bytes the first results stand for. -/
def total (count : β → ℕ) : (ℕ → Except ℤ β) → ℕ → ℕ
  | _, 0 => 0
  | res, i + 1 =>
    (match res 0 with
    | .ok b => count b
    | .error _ => 0) + total count (fun j => res (j + 1)) i

/-- No call fails before the end of the file, where there is one, and before `rem` bytes are moved. -/
def Kind.Unbroken (k : Kind β μ) (rem : ℕ) (res : ℕ → Except ℤ β) : Prop :=
  ∀ i e, res i = .error e →
    (k.eof ∧ ∃ j < i, ∃ b, res j = .ok b ∧ k.count b = 0) ∨ rem ≤ total k.count res i

theorem Kind.unbroken_cons {b : β} (h : res 0 = .ok b) (hne : ¬(k.eof ∧ k.count b = 0)) :
    k.Unbroken rem res ↔ k.Unbroken (rem - min rem (k.count b)) fun i => res (i + 1) := by
  have htotal (i : ℕ) : total k.count res (i + 1) =
      k.count b + total k.count (fun j => res (j + 1)) i := by rw [total, h]
  refine ⟨?_, ?_⟩
  · intro hres i e hi
    rcases hres (i + 1) e hi with ⟨heof, j, hj, b', hb', hzero⟩ | hfull
    · rcases j with _ | j
      · obtain rfl := Except.ok.inj (h.symm.trans hb')
        exact absurd ⟨heof, hzero⟩ hne
      · exact .inl ⟨heof, j, by omega, b', hb', hzero⟩
    · rw [htotal] at hfull
      exact .inr (by omega)
  · intro hres i e hi
    rcases i with _ | i
    · exact absurd (h.symm.trans hi) nofun
    rcases hres i e hi with ⟨heof, j, hj, b', hb', hzero⟩ | hfull
    · exact .inl ⟨heof, j + 1, by omega, b', hb', hzero⟩
    · exact .inr (by rw [htotal]; omega)

/-- What the loop comes to without an `EINTR` from before: it moves all of the `rem` bytes, or those
up to the end of the file, unless a call fails before; then it ends with that. -/
theorem Kind.loop_spec (herrno : errno ≠ EINTR) (hrem : rem ≤ k.size) (res : ℕ → Except ℤ β) (mem : μ) :
    ∃ t, Returns (fun fuel => k.loop fuel res errno rem mem) t ∧
      ((k.Unbroken rem res ∧ (∀ e, .error e ∉ t.log) ∧ (moved t.log).length + t.rem = rem ∧
        (t.rem = 0 ∨ k.eof ∧ t.log.getLast? = some (.ok []))) ∨
      (¬k.Unbroken rem res ∧ t.rem ≠ 0 ∧ t.rem ≤ rem ∧ ∃ e, t.log.getLast? = some (.error e))) := by
  induction rem using Nat.strongRecOn generalizing res mem with
  | ind rem ih =>
    rcases Nat.eq_zero_or_pos rem with rfl | hpos
    · refine ⟨⟨0, mem, []⟩, .succ (k := 0) fun fuel _ => rfl, .inl ⟨?_, nofun, rfl, .inl rfl⟩⟩
      exact fun i e _ => .inr (Nat.zero_le _)
    rcases hres : res 0 with e | b
    · refine ⟨_, .succ (k := 0) fun fuel _ => Kind.loop_error hpos.ne' hres,
        .inr ⟨?_, hpos.ne', le_rfl, e, rfl⟩⟩
      intro hunbroken
      rcases hunbroken 0 e hres with ⟨-, j, hj, -⟩ | hfull
      · omega
      · exact absurd hfull (Nat.not_le.mpr hpos)
    have hlen := k.length_chunk rem b hrem
    by_cases hend : k.eof ∧ k.count b = 0
    · -- the end of the file
      have hnil : k.chunk rem b = [] := List.length_eq_zero_iff.mp (by omega)
      refine ⟨⟨rem, k.store (k.size - rem) [] mem, [.ok []]⟩, .succ (k := 0) ?_, .inl ⟨?_, ?_, ?_, ?_⟩⟩
      · intro fuel _
        simp only [Kind.loop, hpos.ne', if_false, hres, herrno, hnil, hend.1, and_self, if_true]
      · intro i e hi
        rcases i with _ | i
        · exact absurd (hres.symm.trans hi) nofun
        · exact .inl ⟨hend.1, 0, Nat.succ_pos i, b, hres, hend.2⟩
      · simp
      · simp [moved]
      · exact .inr ⟨hend.1, rfl⟩
    · have hcount : 0 < k.count b := by
        rcases heof : k.eof with _ | _
        · exact k.count_pos heof b
        · exact Nat.pos_of_ne_zero fun hzero => hend ⟨heof, hzero⟩
      have hne : k.chunk rem b ≠ [] := List.ne_nil_of_length_pos (by omega)
      obtain ⟨t, ⟨n, hn⟩, ht⟩ := ih (rem - (k.chunk rem b).length) (by omega) (by omega)
        (fun i => res (i + 1)) (k.store (k.size - rem) (k.chunk rem b) mem)
      refine ⟨t.after (k.chunk rem b), .succ (k := n) ?_, ?_⟩
      · intro fuel hf
        have hrest := hn fuel hf
        simp only [Kind.loop, hpos.ne', if_false, hres, herrno, hne, and_false, hrest, Option.map_some]
      have hcons : k.Unbroken rem res ↔ _ := Kind.unbroken_cons hres hend
      rw [← hlen] at hcons
      have hlast {x : Except ℤ (List UInt8)} (h : t.log.getLast? = some x) :
          (t.after (k.chunk rem b)).log.getLast? = some x := by
        rw [Transfer.after, List.getLast?_cons, h]
        rfl
      refine ht.imp ?_ ?_
      · rintro ⟨hunbroken, hok, hmoved, hdone⟩
        refine ⟨hcons.mpr hunbroken, ?_, ?_, hdone.imp_right fun h => ⟨h.1, hlast h.2⟩⟩
        · intro e he
          exact hok e ((List.mem_cons.mp he).resolve_left nofun)
        · show (moved (.ok (k.chunk rem b) :: t.log)).length + t.rem = rem
          rw [moved_cons, List.length_append]
          omega
      · rintro ⟨hbroken, hrem', hle, e, he⟩
        exact ⟨mt hcons.mp hbroken, hrem', hle.trans (Nat.sub_le _ _), e, hlast he⟩

/-- What the functions return: the number of bytes moved, only when all are or at the end of the file,
and a negative value exactly when a call has failed otherwise than by an interruption. They do so at
last if the interruptions do not go on for ever. -/
structure Kind.Delivers (k : Kind β μ) (res : ℕ → Except ℤ β) (errno : ℤ) (mem : μ) : Prop where
  ends : (∃ n, ∀ i, n ≤ i → res i ≠ .error EINTR) → ∃ r, Returns (k.run res errno mem) r
  count : ∀ ret t, Returns (k.run res errno mem) (ret, t) → 0 ≤ ret → ret = (moved t.log).length ∧
    ((moved t.log).length = k.size ∨ k.eof ∧ t.log.getLast? = some (.ok []))
  error : ∀ ret t, Returns (k.run res errno mem) (ret, t) →
    (ret < 0 ↔ ∃ e, .error e ∈ t.log ∧ e ≠ EINTR)

theorem Kind.loop_zero (h : k.loop fuel res errno 0 mem = some t) : moved t.log = [] := by
  cases fuel with
  | zero => cases h
  | succ fuel =>
    obtain rfl := Option.some.inj h
    rfl

/-- The function returns what the loop counts. -/
theorem Kind.run_returns (h : Returns (fun fuel => k.loop fuel res errno k.size mem) t) :
    Returns (k.run res errno mem) ((k.size : ℤ) - t.rem, t) :=
  h.map fun t => ((k.size : ℤ) - t.rem, t)

/-- It does not deliver if the loop ends with a failure. -/
theorem Kind.not_delivers (h : Returns (fun fuel => k.loop fuel res errno k.size mem) t)
    (hrem : t.rem ≠ 0) (hle : t.rem ≤ k.size) (he : t.log.getLast? = some (.error e)) :
    ¬k.Delivers res errno mem := by
  intro hdel
  obtain ⟨hret, hfull | ⟨-, heof⟩⟩ := hdel.count _ _ (Kind.run_returns h) (by omega)
  · omega
  · exact absurd (he.symm.trans heof) nofun

/-- When the loop is right, for every kind of call. -/
theorem Kind.delivers_iff (k : Kind β μ) (res : ℕ → Except ℤ β) (errno : ℤ) (mem : μ) :
    k.Delivers res errno mem ↔ k.size = 0 ∨ errno ≠ EINTR ∧ k.Unbroken k.size res := by
  rcases Nat.eq_zero_or_pos k.size with hsize | hsize
  · refine iff_of_true ?_ (.inl hsize)
    have hret : Returns (k.run res errno mem) ((k.size : ℤ) - (0 : ℕ), ⟨0, mem, []⟩) :=
      Kind.run_returns (.succ (k := 0) fun fuel _ => by rw [Kind.loop, if_pos hsize])
    refine ⟨fun _ => ⟨_, hret⟩, ?_, ?_⟩
    · intro ret t h _
      obtain ⟨rfl, rfl⟩ := Prod.mk.inj (h.unique hret)
      exact ⟨by simp [hsize, moved], .inl hsize.symm⟩
    · intro ret t h
      obtain ⟨rfl, rfl⟩ := Prod.mk.inj (h.unique hret)
      simp [hsize]
  rw [or_iff_right hsize.ne']
  rcases eq_or_ne errno EINTR with rfl | herrno
  · refine iff_of_false ?_ (by simp)
    intro hdel
    by_cases hfail : ∃ i e, res i = .error e
    · obtain ⟨i, e, hi⟩ := hfail
      obtain ⟨t, n, hn⟩ := Kind.loop_stale_returns hsize.ne' hi mem
      obtain ⟨hrem, e, he⟩ := Kind.loop_stale hsize.ne' (hn n le_rfl)
      exact Kind.not_delivers ⟨n, hn⟩ (by omega) hrem.le he hdel
    · -- without a failure it does not end
      push Not at hfail
      obtain ⟨r, n, hn⟩ := hdel.ends ⟨0, fun i _ => hfail i EINTR⟩
      have hnone := hn n le_rfl
      rw [Kind.run, Kind.loop_stale_none hsize.ne' hfail] at hnone
      cases hnone
  · rw [and_iff_right herrno]
    obtain ⟨t, hloop, ⟨hunbroken, hok, hmoved, hdone⟩ | ⟨hbroken, hrem, hle, e, he⟩⟩ :=
      Kind.loop_spec herrno le_rfl res mem
    · refine iff_of_true ?_ hunbroken
      have hret := Kind.run_returns hloop
      refine ⟨fun _ => ⟨_, hret⟩, ?_, ?_⟩
      · intro ret t' h _
        obtain ⟨rfl, rfl⟩ := Prod.mk.inj (h.unique hret)
        exact ⟨by omega, hdone.imp_left fun hzero => by omega⟩
      · intro ret t' h
        obtain ⟨rfl, rfl⟩ := Prod.mk.inj (h.unique hret)
        refine iff_of_false (by omega) ?_
        rintro ⟨e, he, -⟩
        exact hok e he
    · exact iff_of_false (Kind.not_delivers hloop hrem hle he) hbroken

/-! ## `safe_read` and `safe_write` -/

/-- A pass without an `EINTR` from before, if the loop ends: it moves nothing, or some bytes before
the rest. -/
theorem Kind.loop_cases (herrno : errno ≠ EINTR) (h : k.loop (fuel + 1) res errno rem mem = some t) :
    (moved t.log = [] ∧ (t.mem = mem ∨ t.mem = k.store (k.size - rem) [] mem)) ∨
    ∃ b t', t = t'.after (k.chunk rem b) ∧ k.loop fuel (fun i => res (i + 1)) errno
      (rem - (k.chunk rem b).length) (k.store (k.size - rem) (k.chunk rem b) mem) = some t' := by
  rw [Kind.loop] at h
  split at h
  · obtain rfl := Option.some.inj h
    exact .inl ⟨rfl, .inl rfl⟩
  rcases hres : res 0 with e | b
  · rw [hres] at h
    obtain rfl := Option.some.inj h
    exact .inl ⟨rfl, .inl rfl⟩
  simp only [hres] at h
  split at h
  · rename_i hend
    rw [hend.2] at h
    obtain rfl := Option.some.inj h
    exact .inl ⟨rfl, .inr rfl⟩
  · obtain ⟨t', hrest, rfl⟩ := Option.map_eq_some_iff.mp h
    exact .inr ⟨b, t', rfl, hrest⟩

/-- What `safe_read` has stored, without an `EINTR` from before. -/
theorem reading_stored {size : ℕ} {res : ℕ → Except ℤ (List UInt8)} {buf : Buffer} {t : Transfer Buffer}
    (herrno : errno ≠ EINTR) (hrem : rem ≤ size)
    (h : (reading size).loop fuel res errno rem buf = some t) :
    t.mem.take (size - rem + (moved t.log).length) = buf.take (size - rem) ++ moved t.log := by
  induction fuel generalizing res rem buf t with
  | zero => cases h
  | succ fuel ih =>
    rcases Kind.loop_cases herrno h with ⟨hmoved, hmem⟩ | ⟨bytes, t', rfl, hrest⟩
    · have hstore : (reading size).store (size - rem) [] buf = buf := by
        funext i
        simp [reading, Buffer.store]
      have hmem' : t.mem = buf := hmem.elim id fun h => h.trans hstore
      rw [hmoved, hmem', List.append_nil, List.length_nil, Nat.add_zero]
    · have hlen : ((reading size).chunk rem bytes).length ≤ rem := by
        rw [(reading size).length_chunk rem bytes hrem]
        exact Nat.min_le_left _ _
      have hstored := ih (by omega) hrest
      generalize (reading size).chunk rem bytes = got at hstored hlen
      have hpos : size - (rem - got.length) = size - rem + got.length := by omega
      have htake : Buffer.take (size - rem + got.length)
          ((reading size).store ((reading size).size - rem) got buf) = buf.take (size - rem) ++ got :=
        Buffer.take_store
      rw [hpos, htake, List.append_assoc] at hstored
      rw [Transfer.after, moved_cons, List.length_append, ← Nat.add_assoc]
      exact hstored

/-- What `safe_write` has passed, without an `EINTR` from before. -/
theorem writing_passed {data : List UInt8} {res : ℕ → Except ℤ ℕ} {t : Transfer Unit}
    (herrno : errno ≠ EINTR) (hrem : rem ≤ data.length)
    (h : (writing data).loop fuel res errno rem () = some t) :
    moved t.log <+: data.drop (data.length - rem) := by
  induction fuel generalizing res rem t with
  | zero => cases h
  | succ fuel ih =>
    rcases Kind.loop_cases herrno h with ⟨hmoved, -⟩ | ⟨n, t', rfl, hrest⟩
    · rw [hmoved]
      exact List.nil_prefix
    · have hlen := (writing data).length_chunk rem n hrem
      have hpassed := ih (by omega) hrest
      have hprefix : (writing data).chunk rem n <+: data.drop (data.length - rem) :=
        List.take_prefix _ _
      generalize (writing data).chunk rem n = passed at hlen hpassed hprefix
      have hpos : data.length - (rem - passed.length) = data.length - rem + passed.length := by omega
      rw [hpos, ← List.drop_drop] at hpassed
      rw [Transfer.after, moved_cons, ← List.prefix_iff_eq_append.mp hprefix]
      exact (List.prefix_append_right_inj passed).mpr hpassed

/-- What `safe_read` is for: besides what it returns, it stores what the calls deliver, in order. -/
structure ReadsAll (size : ℕ) (res : ℕ → Except ℤ (List UInt8)) (errno : ℤ) (buf : Buffer) : Prop where
  delivers : (reading size).Delivers res errno buf
  stored : ∀ ret t, Returns (safeRead size res errno buf) (ret, t) →
    t.mem.take (moved t.log).length = moved t.log

/-- What `safe_write` is for: besides what it returns, it passes the bytes once and in order. -/
structure WritesAll (data : List UInt8) (res : ℕ → Except ℤ ℕ) (errno : ℤ) : Prop where
  delivers : (writing data).Delivers res errno ()
  passed : ∀ ret t, Returns (safeWrite data res errno) (ret, t) → moved t.log <+: data

/-- `safe_read` and `safe_write`, for all sizes and bytes, every `errno` before and all results of the
system calls: they deliver all bytes if and only if there is nothing to move, or there is no `EINTR`
from before and no call fails before the end of the file or before all bytes are moved. -/
theorem syscalls_iff (errno : ℤ) (size : ℕ) (results : ℕ → Except ℤ (List UInt8)) (buf : Buffer)
    (data : List UInt8) (taken : ℕ → Except ℤ ℕ) :
    (ReadsAll size results errno buf ↔
      size = 0 ∨ errno ≠ EINTR ∧ (reading size).Unbroken size results) ∧
    (WritesAll data taken errno ↔
      data = [] ∨ errno ≠ EINTR ∧ (writing data).Unbroken data.length taken) := by
  refine ⟨⟨fun h => ((reading size).delivers_iff results errno buf).mp h.delivers, ?_⟩, ?_⟩
  · intro hcond
    refine ⟨((reading size).delivers_iff results errno buf).mpr hcond, ?_⟩
    rintro ret t ⟨n, hn⟩
    obtain ⟨t, hloop, heq⟩ := Option.map_eq_some_iff.mp (hn n le_rfl)
    obtain ⟨-, rfl⟩ := Prod.mk.inj heq
    rcases hcond with rfl | ⟨herrno, -⟩
    · rw [Kind.loop_zero hloop]
      rfl
    · have hstored := reading_stored herrno le_rfl hloop
      rwa [Nat.sub_self, Nat.zero_add, show buf.take 0 = [] from rfl, List.nil_append] at hstored
  · have hsize : (writing data).size = 0 ↔ data = [] := List.length_eq_zero_iff
    rw [← hsize]
    refine ⟨fun h => ((writing data).delivers_iff taken errno ()).mp h.delivers, ?_⟩
    intro hcond
    refine ⟨((writing data).delivers_iff taken errno ()).mpr hcond, ?_⟩
    rintro ret t ⟨n, hn⟩
    obtain ⟨t, hloop, heq⟩ := Option.map_eq_some_iff.mp (hn n le_rfl)
    obtain ⟨-, rfl⟩ := Prod.mk.inj heq
    rcases hcond with hnone | ⟨herrno, -⟩
    · rw [hnone] at hloop
      rw [Kind.loop_zero hloop]
      exact List.nil_prefix
    · have hpassed := writing_passed herrno le_rfl hloop
      rwa [Nat.sub_self, List.drop_zero] at hpassed

/-- `safe_read` of a byte, when the first `read` is interrupted: it returns 0. -/
theorem syscalls_interrupted :
    ¬ReadsAll 1 (fun i => if i = 0 then .error EINTR else .ok [97]) 0 fun _ => 0 := by
  intro h
  have hret : Returns (safeRead 1 (fun i => if i = 0 then .error EINTR else .ok [97]) 0 fun _ => 0)
      (0, ⟨1, fun _ => 0, [.error EINTR]⟩) := .succ (k := 0) fun fuel _ => rfl
  obtain ⟨-, hfull | ⟨-, heof⟩⟩ := h.delivers.count _ _ hret (by decide)
  · exact absurd hfull (by decide)
  · exact absurd heof nofun

end Cat

end Ulsp
