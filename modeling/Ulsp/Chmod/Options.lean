import Mathlib.Data.List.Induction
import Ulsp.Base
import Ulsp.Lib.Buffer

/-!
# Modes among the options

An option that starts with a letter of a permission or an octal digit is a mode, and `main` collects
these modes in `mode_list`, with commas between them. The block for them is to grow with `realloc`,
which is not given the block but `mode`, a number that is zero until all options are read: so each
time there is a new block, of the contents `malloc` leaves it with, and only the last mode is written
to it, without a null character behind it.

The sizes are `int`s, so what is collected is undefined where they overflow, and where something would
be written outside the block.
-/

namespace Ulsp

open Lib

namespace Chmod

/-- An option argument that `getopt_long` gives one of these switches for. -/
structure ModeArg where
  switch : UInt8
  switch_mem : switch ∈ ['r', 'w', 'x', 's', '0', '1', '2', '3', '4', '5', '6', '7'].map Char.toUInt8
  rest : List UInt8
  nul_free : 0 ∉ rest

/-- The argument, with its dash. -/
def ModeArg.text (arg : ModeArg) : List UInt8 := '-'.toUInt8 :: arg.switch :: arg.rest

/-- `mode_list`, `mode_alloc` and `mode_len`; a size of zero is no block. -/
structure Collector where
  modeList : Buffer
  modeAlloc : ℤ
  modeLen : ℤ

/-- The block, and its size, for a text of length `newModeLen`; `fresh` is what is in a new block. -/
def Collector.grow (fresh : Buffer) (g : Collector) (newModeLen : ℤ) : Option (Buffer × ℤ) :=
  if g.modeAlloc ≤ newModeLen then (addInt newModeLen 1).map fun alloc => (fresh, alloc)
  else some (g.modeList, g.modeAlloc)

/-- The loop over the options, at one of these switches. -/
def Collector.add (fresh : Buffer) (g : Collector) (arg : List UInt8) : Option Collector := do
  let argLen := toInt32 arg.length
  let modeCommaLen ← addInt g.modeLen (if g.modeLen = 0 then 0 else 1)
  let newModeLen ← addInt modeCommaLen argLen
  let (modeList, modeAlloc) ← g.grow fresh newModeLen
  let n := toUInt64 argLen
  if 0 ≤ g.modeLen ∧ g.modeLen < modeAlloc ∧ 0 ≤ modeCommaLen ∧ modeCommaLen + n ≤ modeAlloc then
    let modeList := Function.update modeList g.modeLen.toNat ','.toUInt8
    -- `strncpy` of `n` bytes
    let modeList := Buffer.store modeCommaLen.toNat
      (arg.take n ++ List.replicate (n - arg.length) 0) modeList
    some ⟨modeList, modeAlloc, newModeLen⟩
  else none

/-- The loop over the modes among the options; `fresh i` is the `i`-th block. -/
def Collector.addAll (fresh : ℕ → Buffer) : ℕ → List ModeArg → Collector → Option Collector
  | _, [], g => some g
  | i, arg :: args, g => (g.add (fresh i) arg.text).bind (addAll fresh (i + 1) args)

/-- The arguments, with commas between them. -/
def joined (args : List ModeArg) : List UInt8 := [','.toUInt8].intercalate (args.map ModeArg.text)

/-- The modes among the options are collected inside the block, and it holds a string of them. -/
def Collected (fresh : ℕ → Buffer) (args : List ModeArg) : Prop :=
  ∃ g, Collector.addAll fresh 0 args ⟨fresh 0, 0, 0⟩ = some g ∧
    g.modeList.cstring g.modeAlloc.toNat = some (joined args)

section
variable {fresh : ℕ → Buffer} {block : Buffer} {args : List ModeArg} {arg last : ModeArg}
  {g g' : Collector} {i : ℕ} {text : List UInt8}

/-! ## What is collected -/

theorem text_ne_nil : arg.text ≠ [] := List.cons_ne_nil _ _

theorem joined_append : joined (args ++ [last]) =
    joined args ++ ((if args = [] then [] else [','.toUInt8]) ++ last.text) := by
  induction args with
  | nil => simp [joined]
  | cons arg args ih =>
    cases args with
    | nil => simp [joined, List.intercalate_cons_cons]
    | cons arg' args =>
      rw [if_neg (List.cons_ne_nil _ _)] at ih ⊢
      simp only [joined, List.cons_append, List.map_cons, List.intercalate_cons_cons] at ih ⊢
      simp only [ih, List.append_assoc]

theorem addAll_append : Collector.addAll fresh i (args ++ [last]) g =
    (Collector.addAll fresh i args g).bind fun g => g.add (fresh (i + args.length)) last.text := by
  induction args generalizing i g with
  | nil => simp [Collector.addAll]
  | cons arg args ih =>
    rw [List.cons_append, Collector.addAll, Collector.addAll, Option.bind_assoc, List.length_cons]
    simp only [ih, Nat.add_comm args.length, Nat.add_assoc]

theorem joined_eq_nil : joined args = [] ↔ args = [] := by
  refine ⟨fun h => ?_, fun h => by rw [h]; rfl⟩
  rcases List.eq_nil_or_concat args with rfl | ⟨args, arg, rfl⟩
  · rfl
  · rw [List.concat_eq_append, joined_append, ModeArg.text] at h
    simp at h

theorem nul_free_joined : 0 ∉ joined args := by
  have htext : ∀ arg : ModeArg, 0 ∉ arg.text := by
    intro arg hmem
    have hswitch : 0 ∉ ['r', 'w', 'x', 's', '0', '1', '2', '3', '4', '5', '6', '7'].map
        Char.toUInt8 := by decide
    rcases List.mem_cons.mp hmem with hdash | hmem
    · exact absurd hdash (by decide)
    · rcases List.mem_cons.mp hmem with hzero | hmem
      · exact hswitch (hzero ▸ arg.switch_mem)
      · exact arg.nul_free hmem
  induction args using List.reverseRecOn with
  | nil => exact List.not_mem_nil
  | append_singleton args arg ih =>
    rw [joined_append, List.mem_append, List.mem_append]
    rintro (hmem | hmem | hmem)
    · exact ih hmem
    · split at hmem
      · cases hmem
      · exact absurd (List.mem_singleton.mp hmem) (by decide)
    · exact htext arg hmem

/-- An `int` holds the size of a block. -/
theorem add_alloc (hadd : g.add block text = some g') (hg : g.modeAlloc < 2 ^ 31) :
    g'.modeAlloc < 2 ^ 31 := by
  unfold Collector.add at hadd
  simp only [Option.bind_eq_bind, Option.bind_eq_some_iff] at hadd
  obtain ⟨comma, -, len, -, ⟨list, alloc⟩, hblock, hadd⟩ := hadd
  have halloc : alloc < 2 ^ 31 := by
    unfold Collector.grow at hblock
    split at hblock
    · obtain ⟨alloc', hsize, heq⟩ := Option.map_eq_some_iff.mp hblock
      obtain ⟨-, rfl⟩ := Prod.mk.inj heq
      exact (addInt_eq_some hsize).2
    · obtain ⟨-, rfl⟩ := Prod.mk.inj (Option.some.inj hblock)
      exact hg
  dsimp only at hadd
  split at hadd
  · obtain rfl := Option.some.inj hadd
    exact halloc
  · cases hadd

theorem addAll_alloc (hadd : Collector.addAll fresh i args g = some g')
    (hg : g.modeAlloc < 2 ^ 31) : g'.modeAlloc < 2 ^ 31 := by
  induction args generalizing i g with
  | nil => cases hadd; exact hg
  | cons arg args ih =>
    obtain ⟨g₁, hone, hrest⟩ := Option.bind_eq_some_iff.mp hadd
    exact ih hrest (add_alloc hone hg)

/-- How many commas are put behind a text. -/
def commas (n : ℕ) : ℕ := if n = 0 then 0 else 1

/-- What a new block holds after an argument: what was in it when `malloc` returned it, but for a comma
behind the length so far, and the argument. -/
def written (block : Buffer) (n : ℕ) (text : List UInt8) : Buffer :=
  Buffer.store (n + commas n) text (Function.update block n ','.toUInt8)

theorem addInt_natCast {a b : ℕ} (h : a + b < 2 ^ 31) : addInt a b = some ((a + b : ℕ) : ℤ) := by
  rw [addInt_of_range (by omega) (by omega), Nat.cast_add]

/-- An argument, as long as an `int` holds the size: there is a new block. -/
theorem add_eq {n : ℕ} (hn : g.modeLen = n) (halloc : g.modeAlloc ≤ n + 1) (htext : text ≠ [])
    (hlt : n + commas n + text.length + 1 < 2 ^ 31) :
    g.add block text = some ⟨written block n text, (n + commas n + text.length + 1 : ℕ),
      (n + commas n + text.length : ℕ)⟩ := by
  have hpos := List.length_pos_iff.mpr htext
  have hone : commas n ≤ 1 := by unfold commas; split <;> omega
  have hsep : (if g.modeLen = 0 then 0 else 1 : ℤ) = commas n := by
    unfold commas
    rw [hn]
    split <;> simp_all
  have hgrow : g.grow block (n + commas n + text.length : ℕ) =
      some (block, ((n + commas n + text.length + 1 : ℕ) : ℤ)) := by
    rw [Collector.grow, if_pos (by omega), ← Nat.cast_one, addInt_natCast hlt]
    rfl
  unfold written
  generalize commas n = c at *
  have hlen : toInt32 text.length = text.length := toInt32_of_range (by omega) (by omega)
  have hsize : toUInt64 (text.length : ℤ) = text.length := toUInt64_of_range (by omega)
  have hcomma : addInt n c = some ((n + c : ℕ) : ℤ) := addInt_natCast (by omega)
  have hnew : addInt ((n + c : ℕ) : ℤ) text.length = some ((n + c + text.length : ℕ) : ℤ) :=
    addInt_natCast (by omega)
  have hinside : (0 : ℤ) ≤ n ∧ (n : ℤ) < (n + c + text.length + 1 : ℕ) ∧ (0 : ℤ) ≤ (n + c : ℕ) ∧
      ((n + c : ℕ) : ℤ) + text.length ≤ (n + c + text.length + 1 : ℕ) := by omega
  rw [Collector.add, hsep, hlen, hn, hcomma, Option.bind_eq_bind, Option.bind_some, hnew,
    Option.bind_eq_bind, Option.bind_some, hgrow, Option.bind_some, hsize]
  refine (if_pos hinside).trans ?_
  rw [Int.toNat_natCast, Int.toNat_natCast, List.take_length, Nat.sub_self, List.replicate_zero,
    List.append_nil]

/-- What is written is put behind what was in the block. -/
theorem take_written {n : ℕ} : Buffer.take (n + commas n + text.length) (written block n text) =
    block.take n ++ ((if n = 0 then [] else [','.toUInt8]) ++ text) := by
  rw [written, Buffer.take_store]
  by_cases hn : n = 0
  · rw [commas, if_pos hn, if_pos hn, hn]
    rfl
  · rw [commas, if_neg hn, if_neg hn, Buffer.take_succ, Buffer.take_update le_rfl,
      Function.update_self, List.append_assoc]

/-- Behind it nothing is. -/
theorem written_end {n : ℕ} (htext : text ≠ []) :
    written block n text (n + commas n + text.length) = block (n + commas n + text.length) := by
  have hpos := List.length_pos_iff.mpr htext
  rw [written, Buffer.store_of_le le_rfl, Function.update_of_ne (by omega)]

theorem length_joined_append : (joined (args ++ [last])).length =
    (joined args).length + commas (joined args).length + last.text.length := by
  have hempty : (joined args).length = 0 ↔ args = [] := by
    rw [List.length_eq_zero_iff, joined_eq_nil]
  rw [joined_append, List.length_append, List.length_append, ← Nat.add_assoc, commas]
  simp only [hempty]
  split <;> rfl

/-- The modes so far, as long as an `int` holds the size. -/
theorem addAll_eq (fresh : ℕ → Buffer) (args : List ModeArg)
    (hlt : (joined args).length + 1 < 2 ^ 31) : ∃ list alloc,
    Collector.addAll fresh 0 args ⟨fresh 0, 0, 0⟩ = some ⟨list, alloc, (joined args).length⟩ ∧
      alloc ≤ (joined args).length + 1 := by
  induction args using List.reverseRecOn with
  | nil => exact ⟨fresh 0, 0, rfl, by omega⟩
  | append_singleton args last ih =>
    rw [length_joined_append] at hlt ⊢
    obtain ⟨list, alloc, hadd, halloc⟩ := ih (by omega)
    refine ⟨written (fresh (0 + args.length)) (joined args).length last.text, _, ?_, le_rfl⟩
    rw [addAll_append, hadd, Option.bind_some, add_eq rfl halloc text_ne_nil hlt]
    rfl

/-- The modes up to the last one. -/
theorem addAll_last (hlt : (joined (args ++ [last])).length + 1 < 2 ^ 31) :
    Collector.addAll fresh 0 (args ++ [last]) ⟨fresh 0, 0, 0⟩ =
      some ⟨written (fresh args.length) (joined args).length last.text,
        ((joined (args ++ [last])).length + 1 : ℕ), (joined (args ++ [last])).length⟩ := by
  rw [length_joined_append] at hlt ⊢
  obtain ⟨list, alloc, hadd, halloc⟩ := addAll_eq fresh args (by omega)
  rw [addAll_append, hadd, Option.bind_some, add_eq rfl halloc text_ne_nil hlt, Nat.zero_add]

/-- The modes are collected exactly when an `int` holds the size of all of them, the last block has
the others at its start by itself, and a zero where the string is to end. -/
theorem collected_iff (fresh : ℕ → Buffer) (args : List ModeArg) (last : ModeArg) :
    Collected fresh (args ++ [last]) ↔
      (joined (args ++ [last])).length + 1 < 2 ^ 31 ∧
        (fresh args.length).take (joined args).length = joined args ∧
        fresh args.length (joined (args ++ [last])).length = 0 := by
  have htake : Buffer.take (joined (args ++ [last])).length
      (written (fresh args.length) (joined args).length last.text) =
        (fresh args.length).take (joined args).length ++
          ((if args = [] then [] else [','.toUInt8]) ++ last.text) := by
    rw [length_joined_append, take_written]
    simp only [List.length_eq_zero_iff, joined_eq_nil]
  have hend : written (fresh args.length) (joined args).length last.text
      (joined (args ++ [last])).length = fresh args.length (joined (args ++ [last])).length := by
    rw [length_joined_append, written_end text_ne_nil]
  constructor
  · rintro ⟨g, hadd, hstring⟩
    obtain ⟨hholds, hsize⟩ := Buffer.cstring_eq_some_iff.mp hstring
    have halloc : g.modeAlloc < 2 ^ 31 := addAll_alloc hadd (show (0 : ℤ) < 2 ^ 31 by decide)
    have hlt : (joined (args ++ [last])).length + 1 < 2 ^ 31 := by omega
    rw [addAll_last hlt] at hadd
    obtain rfl := Option.some.inj hadd
    have hall := hholds.take
    rw [htake, joined_append] at hall
    exact ⟨hlt, List.append_cancel_right hall, hend.symm.trans hholds.terminated⟩
  · rintro ⟨hlt, hbefore, hzero⟩
    refine ⟨_, addAll_last hlt, Buffer.cstring_eq_some_iff.mpr ⟨⟨?_, ?_, nul_free_joined⟩, by simp⟩⟩
    · rw [htake, hbefore, joined_append]
    · exact hend.trans hzero

/-- `-r`. -/
def minusR : ModeArg := ⟨'r'.toUInt8, by decide, [], by decide⟩

/-- `-w`. -/
def minusW : ModeArg := ⟨'w'.toUInt8, by decide, [], by decide⟩

/-- After `-r -w`, with blocks that are zero, the string is empty. -/
theorem minusR_lost : ¬ Collected (fun _ _ => 0) [minusR, minusW] := by
  have hrun : (Collector.addAll (fun _ _ => 0) 0 [minusR, minusW] ⟨fun _ => 0, 0, 0⟩).map
      (fun g => g.modeList.cstring g.modeAlloc.toNat) = some (some []) := by decide
  rintro ⟨g, hadd, hstring⟩
  rw [hadd, Option.map_some, hstring] at hrun
  exact absurd hrun (by decide)

end

end Chmod

end Ulsp
