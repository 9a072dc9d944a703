import Mathlib.Data.Int.Notation
import Mathlib.Data.List.GetD
import Mathlib.Data.List.TakeWhile
import Mathlib.Logic.Function.Basic

/-!
# Byte buffers and the strings in them

A buffer of C is a function from positions to bytes; how many of its positions exist is an argument
of the operations that could leave it. `Buffer.cstring` is the string at the start of a buffer, up to
the first zero byte, and `Buffer.Holds` the statement that the buffer starts with a given text and
its terminator, which is what code that fills a buffer establishes.
-/

namespace Lib

/-- A buffer of bytes. -/
abbrev Buffer := ℕ → UInt8

namespace Buffer

variable {b : Buffer} {i k n size : ℕ} {bytes text : List UInt8}

/-- The bytes before position `n`. -/
def take (n : ℕ) (b : Buffer) : List UInt8 := (List.range n).map b

/-- The `n` bytes from position `i`. -/
def slice (i n : ℕ) (b : Buffer) : List UInt8 := Buffer.take n fun k => b (i + k)

/-- What `strncpy` stores of `bytes`: those before the first zero byte, and zeros after them. -/
def strncpy (bytes : List UInt8) : List UInt8 :=
  let text := bytes.takeWhile (· ≠ 0)
  text ++ List.replicate (bytes.length - text.length) 0

/-- `memset` of a buffer to zero, from position `i` to its end. -/
def clearFrom (i : ℕ) (b : Buffer) : Buffer := fun k => if i ≤ k then 0 else b k

/-- `memcpy` of `bytes` to position `i`. -/
def store (i : ℕ) (bytes : List UInt8) (b : Buffer) : Buffer :=
  fun k => if i ≤ k then bytes.getD (k - i) (b k) else b k

/-- The first zero byte of the `n` bytes from position `i`. -/
def strlenFrom (b : Buffer) : ℕ → ℕ → Option ℕ
  | 0, _ => none
  | n + 1, i => if b i = 0 then some i else strlenFrom b n (i + 1)

/-- `strlen` of a buffer of `size` bytes, undefined when none of them is zero. -/
def strlen (size : ℕ) (b : Buffer) : Option ℕ := strlenFrom b size 0

/-- The string at the start of a buffer of `size` bytes. -/
def cstring (size : ℕ) (b : Buffer) : Option (List UInt8) := (b.strlen size).map fun n => b.take n

/-- The byte at an index of a buffer of `size` bytes, undefined for an index outside of it. -/
def readAt (size : ℕ) (b : Buffer) (i : ℤ) : Option UInt8 :=
  if 0 ≤ i ∧ i < size then some (b i.toNat) else none

/-- The buffer of `size` bytes after `bytes` are written from an index on, undefined when one of them
falls outside of it. -/
def writeAt (size : ℕ) (b : Buffer) (i : ℤ) (bytes : List UInt8) : Option Buffer :=
  if 0 ≤ i ∧ i + bytes.length ≤ size then some (b.store i.toNat bytes) else none

/-- The first `n` bytes of a buffer of `size` bytes. -/
def readTo (size : ℕ) (b : Buffer) (n : ℕ) : Option (List UInt8) :=
  if n ≤ size then some (b.take n) else none

/-- The buffer starts with the text and its terminator. -/
structure Holds (b : Buffer) (text : List UInt8) : Prop where
  take : b.take text.length = text
  terminated : b text.length = 0
  nul_free : 0 ∉ text

/-- The first `n` bytes are `n` many. -/
@[simp]
theorem length_take : (b.take n).length = n := by simp [take]

/-- The bytes taken are those of the buffer. -/
theorem getElem_take (h : k < (b.take n).length) : (b.take n)[k] = b k := by simp [take]

/-- An empty slice. -/
@[simp]
theorem slice_zero : b.slice i 0 = [] := rfl

/-- The first byte of a slice. -/
theorem slice_succ : b.slice i (n + 1) = b i :: b.slice (i + 1) n := by
  simp [slice, take, List.range_succ_eq_map, Nat.add_comm, Nat.add_left_comm]

/-- Buffers that agree on the bytes before `n`. -/
theorem take_congr {b' : Buffer} (h : ∀ k < n, b' k = b k) : b'.take n = b.take n :=
  List.map_congr_left fun k hk => h k (List.mem_range.mp hk)

/-- Two buffers begin alike if they agree at each of the first positions. -/
theorem take_eq_take_iff {b' : Buffer} : b.take n = b'.take n ↔ ∀ k < n, b k = b' k := by
  simp only [take, List.map_inj_left, List.mem_range]

/-- Clearing behind the first `n` bytes leaves them as they are. -/
theorem take_clearFrom : (b.clearFrom n).take n = b.take n :=
  take_congr fun k hk => if_neg (by omega)

/-- What is stored follows what was there. -/
theorem take_store : (b.store i bytes).take (i + bytes.length) = b.take i ++ bytes := by
  refine List.ext_getElem (by simp) ?_
  intro k h₁ h₂
  rw [getElem_take]
  rcases Nat.lt_or_ge k i with hk | hk
  · rw [List.getElem_append_left (by simpa using hk), getElem_take, store, if_neg (by omega)]
  · rw [List.getElem_append_right (by simpa using hk), store, if_pos hk]
    simp only [length_take, List.length_append] at h₂ ⊢
    rw [List.getD_eq_getElem _ _ (by omega)]

/-- What is stored leaves what was before it. -/
theorem take_store_prefix : (b.store i bytes).take i = b.take i :=
  take_congr fun k hk => if_neg (by omega)

/-- One byte more is taken at the end. -/
theorem take_succ : b.take (n + 1) = b.take n ++ [b n] := by simp [take, List.range_succ]

/-- A byte set at or after `n` is not one of those before `n`. -/
theorem take_update {c : UInt8} (h : n ≤ k) : Buffer.take n (Function.update b k c) = b.take n :=
  take_congr fun j hj => Function.update_of_ne (by omega) _ _

/-- The beginning of the beginning. -/
theorem take_take (h : k ≤ n) : (b.take n).take k = b.take k := by
  rw [take, ← List.map_take, List.take_range, Nat.min_eq_left h, take]

/-- A beginning, and the slice behind it. -/
theorem take_add : b.take (i + n) = b.take i ++ b.slice i n := by
  rw [take, List.range_add, List.map_append, List.map_map]
  rfl

/-- What stands behind the first `i` of `n` bytes is a slice. -/
theorem drop_take (h : i ≤ n) : (b.take n).drop i = b.slice i (n - i) := by
  obtain ⟨k, rfl⟩ := Nat.exists_eq_add_of_le h
  rw [take_add, List.drop_left' length_take, Nat.add_sub_cancel_left]

/-- Two slices one after the other. -/
theorem slice_add : b.slice i (k + n) = b.slice i k ++ b.slice (i + k) n := by
  rw [slice, take_add]
  simp only [slice, Nat.add_assoc]

/-- A slice grows by one byte at its end. -/
theorem slice_concat : b.slice i (n + 1) = b.slice i n ++ [b (i + n)] := slice_add

/-- Buffers that agree on the bytes of a slice. -/
theorem slice_congr {b' : Buffer} (h : ∀ k, i ≤ k → k < i + n → b' k = b k) :
    b'.slice i n = b.slice i n :=
  take_congr fun k hk => h (i + k) (by omega) (by omega)

/-- A slice of `n` bytes has `n` bytes. -/
@[simp]
theorem length_slice : (b.slice i n).length = n := length_take

/-- `strncpy` writes as many bytes as it is told to. -/
@[simp]
theorem length_strncpy : (strncpy bytes).length = bytes.length := by
  have hle := (List.takeWhile_prefix (· ≠ 0) (l := bytes)).length_le
  rw [strncpy, List.length_append, List.length_replicate]
  omega

/-- What `strncpy` stores is what it reads if nothing follows the first zero byte but zeros. -/
theorem strncpy_eq_self : strncpy bytes = bytes ↔ ∀ c ∈ bytes.dropWhile (· ≠ 0), c = 0 := by
  have hsplit : bytes.takeWhile (· ≠ 0) ++ bytes.dropWhile (· ≠ 0) = bytes :=
    List.takeWhile_append_dropWhile
  have hlen := congrArg List.length hsplit
  rw [List.length_append] at hlen
  have hzeros : bytes.length - (bytes.takeWhile (· ≠ 0)).length = (bytes.dropWhile (· ≠ 0)).length := by
    omega
  have hiff : bytes.takeWhile (· ≠ 0) ++ List.replicate (bytes.dropWhile (· ≠ 0)).length 0 =
      bytes.takeWhile (· ≠ 0) ++ bytes.dropWhile (· ≠ 0) ↔ ∀ c ∈ bytes.dropWhile (· ≠ 0), c = 0 := by
    rw [List.append_cancel_left_eq, eq_comm, List.eq_replicate_iff, and_iff_right rfl]
  rwa [← hzeros, hsplit] at hiff

/-- Past what is stored nothing changes. -/
theorem store_of_le (h : i + bytes.length ≤ k) : b.store i bytes k = b k := by
  rw [store, if_pos (by omega), List.getD_eq_default _ _ (by omega)]

/-- What is stored does not depend on what was there. -/
theorem store_of_lt {b' : Buffer} (hi : i ≤ k) (hk : k < i + bytes.length) :
    b.store i bytes k = b'.store i bytes k := by
  rw [store, if_pos hi, store, if_pos hi, List.getD_eq_getElem _ _ (by omega),
    List.getD_eq_getElem _ _ (by omega)]

/-- Text stored in a cleared buffer ends where it was cleared. -/
theorem holds_store (h₁ : 0 ∉ b.take i) (h₂ : 0 ∉ bytes) :
    ((b.clearFrom i).store i bytes).Holds (b.take i ++ bytes) := by
  have hlen : (b.take i ++ bytes).length = i + bytes.length := by simp
  refine ⟨?_, ?_, by simp [h₁, h₂]⟩
  · rw [hlen, take_store, take_clearFrom]
  · rw [hlen, store_of_le (Nat.le_refl _), clearFrom, if_pos (by omega)]

/-- Bytes stored at the start of a buffer hold the text before their first zero byte. -/
theorem holds_store_zero {rest : List UInt8} (h : 0 ∉ text) :
    (b.store 0 (text ++ 0 :: rest)).Holds text := by
  have hstored : (b.store 0 (text ++ 0 :: rest)).take (text ++ 0 :: rest).length = text ++ 0 :: rest := by
    have h : (b.store 0 (text ++ 0 :: rest)).take (0 + (text ++ 0 :: rest).length) =
        b.take 0 ++ (text ++ 0 :: rest) := take_store
    rwa [Nat.zero_add] at h
  refine ⟨?_, ?_, h⟩
  · rw [← take_take (n := (text ++ 0 :: rest).length) (by simp), hstored, List.take_left]
  · rw [store, if_pos (Nat.zero_le _), Nat.sub_zero, List.getD_append_right _ _ _ _ (Nat.le_refl _),
      Nat.sub_self]
    rfl

/-- The bytes before the first zero byte are all if there is none. -/
theorem takeWhile_eq_self : bytes.takeWhile (· ≠ 0) = bytes ↔ 0 ∉ bytes := by
  rw [List.takeWhile_eq_self_iff]
  refine ⟨fun h hzero => by simpa using h 0 hzero, fun h c hc => decide_eq_true ?_⟩
  rintro rfl
  exact h hc

/-- A text, a zero byte, and what follows. -/
theorem takeWhile_text_append {rest : List UInt8} (h : 0 ∉ text) :
    (text ++ 0 :: rest).takeWhile (· ≠ 0) = text := by
  rw [List.takeWhile_append_of_pos (List.takeWhile_eq_self_iff.mp (takeWhile_eq_self.mpr h)),
    List.takeWhile_cons_of_neg (by decide), List.append_nil]

/-- A zero byte behind a text does not belong to it. -/
theorem takeWhile_concat_zero : (bytes ++ [0]).takeWhile (· ≠ 0) = bytes.takeWhile (· ≠ 0) := by
  by_cases hzero : 0 ∈ bytes
  · obtain ⟨text, rest, rfl, hfree⟩ := List.eq_append_cons_of_mem hzero
    rw [takeWhile_text_append hfree, List.append_assoc, List.cons_append, takeWhile_text_append hfree]
  · rw [takeWhile_text_append hzero, takeWhile_eq_self.mpr hzero]

/-- One byte stored. -/
theorem store_singleton {c : UInt8} : b.store i [c] = Function.update b i c := by
  funext k
  rcases Nat.lt_trichotomy k i with hk | rfl | hk
  · rw [store, if_neg (by omega), Function.update_of_ne (by omega)]
  · rw [store, if_pos (Nat.le_refl k), Nat.sub_self, Function.update_self]
    rfl
  · rw [store_of_le hk, Function.update_of_ne (by omega)]

/-- A buffer cleared from its start. -/
theorem clearFrom_zero : b.clearFrom 0 = fun _ => 0 := funext fun k => if_pos (Nat.zero_le k)

/-- Bytes stored in a cleared buffer hold the text before their first zero byte. -/
theorem holds_store_takeWhile : (store 0 bytes fun _ => 0).Holds (bytes.takeWhile (· ≠ 0)) := by
  by_cases hzero : 0 ∈ bytes
  · obtain ⟨text, rest, rfl, hfree⟩ := List.eq_append_cons_of_mem hzero
    rw [takeWhile_text_append hfree]
    exact holds_store_zero hfree
  · have hholds := holds_store (b := fun _ => 0) (i := 0) List.not_mem_nil hzero
    rw [clearFrom_zero] at hholds
    rw [takeWhile_eq_self.mpr hzero]
    exact hholds

/-- A zero byte stored in a text ends it. -/
theorem Holds.truncate {rest : List UInt8} (h : b.Holds (text ++ rest)) :
    (b.store text.length [0]).Holds text := by
  have htake := congrArg (List.take text.length) h.take
  rw [List.take_left, List.length_append, take_add, List.take_left' length_take] at htake
  refine ⟨?_, ?_, fun hmem => h.nul_free (List.mem_append_left _ hmem)⟩
  · exact Eq.trans take_store_prefix htake
  · rw [store, if_pos (Nat.le_refl _), Nat.sub_self]
    rfl

/-- The last byte of a text. -/
theorem Holds.last {c : UInt8} (h : b.Holds (text ++ [c])) : b text.length = c := by
  have htake := h.take
  rw [List.length_append, List.length_singleton, take_succ] at htake
  exact List.singleton_inj.mp (List.append_inj_right' htake rfl)

/-- What `strncpy` stores of a text. -/
theorem Holds.strncpy (h : b.Holds text) (hn : text.length ≤ n) :
    Buffer.strncpy (b.take n) = text ++ List.replicate (n - text.length) 0 := by
  have htext : (b.take n).takeWhile (· ≠ 0) = text := by
    obtain ⟨k, rfl⟩ := Nat.exists_eq_add_of_le hn
    rw [take_add, h.take]
    cases k with
    | zero => rw [slice_zero, List.append_nil, takeWhile_eq_self.mpr h.nul_free]
    | succ k => rw [slice_succ, h.terminated, takeWhile_text_append h.nul_free]
  rw [Buffer.strncpy, htext, length_take]

/-- A read inside the buffer. -/
theorem readAt_of_lt (h : i < size) : b.readAt size i = some (b i) := if_pos (by omega)

/-- A read that is defined is at a position of the array. -/
theorem readAt_eq_some {c : UInt8} {j : ℤ} (h : b.readAt size j = some c) :
    0 ≤ j ∧ b j.toNat = c := by
  obtain ⟨⟨hj, -⟩, hc⟩ := Option.ite_none_right_eq_some.mp h
  exact ⟨hj, Option.some.inj hc⟩

/-- A write that is defined ends within the array. -/
theorem writeAt_eq_some {b' : Buffer} {j : ℤ} (h : b.writeAt size j bytes = some b') :
    j + bytes.length ≤ size ∧ b.store j.toNat bytes = b' := by
  obtain ⟨⟨-, hj⟩, hb⟩ := Option.ite_none_right_eq_some.mp h
  exact ⟨hj, Option.some.inj hb⟩

/-- A write inside the buffer. -/
theorem writeAt_of_le (h : i + bytes.length ≤ size) :
    b.writeAt size i bytes = some (b.store i bytes) := if_pos (by omega)

/-- The search finds the first zero byte, if it is in reach. -/
theorem strlenFrom_eq (hzero : b k = 0) (hne : ∀ j, i ≤ j → j < k → b j ≠ 0) (hik : i ≤ k)
    (hn : k < i + n) : strlenFrom b n i = some k := by
  induction n generalizing i with
  | zero => omega
  | succ n ih =>
    rcases Nat.eq_or_lt_of_le hik with rfl | hlt
    · simp [strlenFrom, hzero]
    · rw [strlenFrom, if_neg (hne i (Nat.le_refl _) hlt)]
      exact ih (fun j hj => hne j (by omega)) hlt (by omega)

/-- The length of the text in a buffer. -/
theorem Holds.strlen (h : b.Holds text) (hsize : text.length < size) :
    b.strlen size = some text.length := by
  refine strlenFrom_eq h.terminated ?_ (Nat.zero_le _) (by omega)
  intro j _ hj
  have hmem : b j ∈ b.take text.length :=
    List.mem_map_of_mem (List.mem_range.mpr hj)
  rw [h.take] at hmem
  exact fun hzero => h.nul_free (hzero ▸ hmem)

/-- The text in a buffer. -/
theorem Holds.cstring (h : b.Holds text) (hsize : text.length < size) :
    b.cstring size = some text := by
  rw [Buffer.cstring, h.strlen hsize, Option.map_some, h.take]

/-- What the search finds is the first zero byte. -/
theorem strlenFrom_eq_some (h : strlenFrom b n i = some k) :
    b k = 0 ∧ k < i + n ∧ ∀ j, i ≤ j → j < k → b j ≠ 0 := by
  induction n generalizing i with
  | zero => cases h
  | succ n ih =>
    rw [strlenFrom] at h
    split at h
    · rename_i hzero
      obtain rfl := Option.some.inj h
      exact ⟨hzero, by omega, fun j hij hji => absurd hij (by omega)⟩
    · rename_i hne
      obtain ⟨hzero, hlt, hbefore⟩ := ih h
      refine ⟨hzero, by omega, fun j hij hjk => ?_⟩
      rcases Nat.eq_or_lt_of_le hij with rfl | hlt'
      · exact hne
      · exact hbefore j hlt' hjk

/-- The text in a buffer is what it starts with. -/
theorem cstring_eq_some_iff : b.cstring size = some text ↔ b.Holds text ∧ text.length < size := by
  refine ⟨fun h => ?_, fun h => h.1.cstring h.2⟩
  obtain ⟨n, hn, rfl⟩ := Option.map_eq_some_iff.mp h
  obtain ⟨hzero, hlt, hbefore⟩ := strlenFrom_eq_some hn
  rw [length_take]
  refine ⟨⟨by rw [length_take], by rwa [length_take], ?_⟩, by omega⟩
  intro hmem
  obtain ⟨j, hj, hbj⟩ := List.mem_map.mp hmem
  exact hbefore j (Nat.zero_le j) (List.mem_range.mp hj) hbj

end Buffer

end Lib
