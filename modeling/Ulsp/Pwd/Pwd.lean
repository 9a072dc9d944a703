import Mathlib.Data.List.Basic
import Ulsp.Lib.Fuel

/-!
# `pwd` (`cmd/src/pwd.c`)

`do_pwd` climbs from the working directory to the root, and finds the name of each directory by
looking for its inode number among the entries of its parent. It compares inode numbers only, and
these tell directories apart on one device only: the entry of a directory on which a file system is
mounted has the number of the directory below, and `lstat` gives that of the mounted root.

System calls succeed and `errno` starts at 0, so the error paths are not part of the model; names are
shorter than the buffer.
-/

namespace Ulsp

open Lib

namespace Pwd

variable {Node : Type}

/-- A directory entry: its name, and the file on its own device that it is an entry of. -/
structure Entry (Node : Type) where
  name : List Char
  node : Node
  deriving DecidableEq

/-- An entry that is not `.` or `..`. -/
def Entry.proper (e : Entry Node) : Bool := e.name ≠ ['.'] ∧ e.name ≠ ['.', '.']

/-- A directory tree of mounted file systems. `entries` is what `readdir` gives, in its order, and
`mounted` takes a directory to the root of the file system mounted on it, or to itself. -/
structure Tree (Node : Type) where
  dev : Node → ℕ
  ino : Node → ℕ
  IsDir : Node → Prop
  root : Node
  entries : Node → List (Entry Node)
  mounted : Node → Node
  /-- Inode numbers are unique within one device. -/
  ino_unique : ∀ x y, dev x = dev y → ino x = ino y → x = y
  /-- The entries of a directory are on its device. -/
  entry_dev : ∀ d, ∀ e ∈ entries d, dev e.node = dev d
  name_valid : ∀ d, ∀ e ∈ entries d, e.name ≠ [] ∧ '/' ∉ e.name
  name_unique : ∀ d, ∀ e ∈ entries d, ∀ e' ∈ entries d, e.name = e'.name → e = e'
  /-- A directory is not an entry of its own, but for `.` and `..`. -/
  not_self : ∀ d, ∀ e ∈ entries d, e.proper → IsDir e.node → e.node ≠ d
  /-- A directory has one entry, but for `.` and `..`. -/
  dir_once : ∀ d, ∀ e ∈ entries d, ∀ e' ∈ entries d, e.proper → e'.proper → IsDir e.node →
    e.node = e'.node → e = e'

namespace Tree

variable (T : Tree Node)

/-- A directory by the entries that lead to it from the root, the last one first. -/
def dirOf : List (Entry Node) → Node
  | [] => T.root
  | e :: _ => T.mounted e.node

/-- The entries lead from the root to a directory. -/
def Valid : List (Entry Node) → Prop
  | [] => True
  | e :: path => e ∈ T.entries (T.dirOf path) ∧ e.proper ∧ T.IsDir e.node ∧ Valid path

/-! The working directory is given by the entries that lead to it, so `..` is the tail of the list,
and the root itself in the root. -/

/-- `get_inode` of `.` in the directory. -/
def getInode (path : List (Entry Node)) : ℕ := T.ino (T.dirOf path)

/-- `get_filename` in the directory. -/
def getFilename (ino : ℕ) (path : List (Entry Node)) : List Char :=
  match (T.entries (T.dirOf path)).find? fun e => T.ino e.node = ino ∧ e.proper with
  | some e => e.name
  | none => []

/-- `do_pwd` in the directory: what it prints. -/
def doPwd : ℕ → List (Entry Node) → ℕ → Option (List Char)
  | 0, _, _ => none
  | fuel + 1, path, thisInode =>
    if T.getInode path.tail = thisInode then some []
    else do
      let path := path.tail
      let filename := T.getFilename thisInode path
      let out ← doPwd fuel path (T.getInode path)
      some (out ++ '/' :: filename)

/-- `main` in the directory: what it prints. -/
def main (fuel : ℕ) (path : List (Entry Node)) : Option (List Char) :=
  if T.getInode path = T.getInode path.tail then some ['/', '\n']
  else do
    let out ← T.doPwd fuel path (T.getInode path)
    some (out ++ ['\n'])

end Tree

/-- Names from the root, each after a slash. -/
def slashed (names : List (List Char)) : List Char := names.reverse.flatMap fun n => '/' :: n

/-- The absolute path of a directory. -/
def absolutePath (path : List (Entry Node)) : List Char :=
  if path = [] then ['/'] else slashed (path.map Entry.name)

/-! ## What is printed -/

section
variable {T : Tree Node} {path : List (Entry Node)} {e : Entry Node} {n : List Char}
  {ns : List (List Char)}

/-- The names that `do_pwd` finds on the way up. -/
def Tree.found (T : Tree Node) : List (Entry Node) → List (List Char)
  | [] => []
  | e :: path =>
    if T.getInode path = T.getInode (e :: path) then []
    else T.getFilename (T.getInode (e :: path)) path :: T.found path

/-- `do_pwd` prints the names it finds. -/
theorem doPwd_returns :
    Returns (fun fuel => T.doPwd fuel path (T.getInode path)) (slashed (T.found path)) := by
  induction path with
  | nil => exact .succ (k := 0) fun fuel _ => by simp [Tree.doPwd, Tree.found, slashed]
  | cons e path ih =>
    obtain ⟨k, hk⟩ := ih
    refine .succ (k := k) ?_
    intro fuel hle
    simp only [Tree.doPwd, List.tail_cons, Tree.found]
    by_cases hstop : T.getInode path = T.getInode (e :: path)
    · simp [hstop, slashed]
    · have hrec : T.doPwd fuel path (T.getInode path) = some (slashed (T.found path)) := hk fuel hle
      simp [hstop, hrec, slashed]

/-- A directory is found under its name when its entry has its inode number. -/
theorem getFilename_eq_iff (he : e ∈ T.entries (T.dirOf path)) (hproper : e.proper)
    (hdir : T.IsDir e.node) {ino : ℕ} :
    T.getFilename ino path = e.name ↔ ino = T.ino e.node := by
  unfold Tree.getFilename
  split
  · rename_i e' hfound
    have hmem' := List.mem_of_find?_eq_some hfound
    obtain ⟨hino, hproper'⟩ : T.ino e'.node = ino ∧ e'.proper := by
      simpa using List.find?_some hfound
    constructor
    · intro hname
      obtain rfl := T.name_unique _ _ hmem' _ he hname
      exact hino.symm
    · intro heq
      have hdev : T.dev e.node = T.dev e'.node := by rw [T.entry_dev _ _ he, T.entry_dev _ _ hmem']
      have hnode : e.node = e'.node := T.ino_unique _ _ hdev (heq.symm.trans hino.symm)
      rw [T.dir_once _ _ he _ hmem' hproper hproper' hdir hnode]
  · rename_i hnone
    refine iff_of_false (fun hnil => (T.name_valid _ _ he).1 hnil.symm) ?_
    intro heq
    have hnot := List.find?_eq_none.mp hnone e he
    exact hnot (by simp [heq, hproper])

/-- The names found are those on the path when each directory on it has the inode number of its
entry. -/
theorem found_eq_iff (h : T.Valid path) :
    T.found path = path.map Entry.name ↔ ∀ e ∈ path, T.ino (T.mounted e.node) = T.ino e.node := by
  induction path with
  | nil => simp [Tree.found]
  | cons e path ih =>
    obtain ⟨he, hproper, hdir, hpath⟩ := h
    rw [List.forall_mem_cons, List.map_cons, Tree.found, ← ih hpath]
    by_cases hstop : T.getInode path = T.getInode (e :: path)
    · rw [if_pos hstop]
      refine iff_of_false nofun fun ⟨hino, _⟩ => T.not_self _ _ he hproper hdir ?_
      -- the entry and the directory it is in are on one device
      exact T.ino_unique _ _ (T.entry_dev _ _ he) (hino.symm.trans hstop.symm)
    · rw [if_neg hstop, List.cons.injEq, getFilename_eq_iff he hproper hdir]
      rfl

/-- Names without slashes can be read back. -/
theorem splitOn_slashed (hn : '/' ∉ n) (hns : ∀ n ∈ ns, '/' ∉ n) :
    (n ++ ns.flatMap fun n => '/' :: n).splitOn '/' = n :: ns := by
  induction ns generalizing n with
  | nil => simpa using List.splitOn_eq_singleton hn
  | cons m ns ih =>
    obtain ⟨hm, hns⟩ := List.forall_mem_cons.mp hns
    rw [List.flatMap_cons, List.cons_append, List.splitOn_append_cons_self_of_not_mem hn, ih hm hns]

theorem slashed_injective {ns ms : List (List Char)} (hns : ∀ n ∈ ns, '/' ∉ n)
    (hms : ∀ n ∈ ms, '/' ∉ n) (h : slashed ns = slashed ms) : ns = ms := by
  have hsplit := splitOn_slashed (n := []) (by simp) fun n hn => hns n (List.mem_reverse.mp hn)
  have hsplit' := splitOn_slashed (n := []) (by simp) fun n hn => hms n (List.mem_reverse.mp hn)
  have hcons : [] :: ns.reverse = [] :: ms.reverse := by
    rw [← hsplit, ← hsplit']
    exact congrArg (fun t => (([] : List Char) ++ t).splitOn '/') h
  exact List.reverse_injective (List.cons.inj hcons).2

/-- The names found have no slashes. -/
theorem found_valid : ∀ n ∈ T.found path, '/' ∉ n := by
  induction path with
  | nil => simp [Tree.found]
  | cons e path ih =>
    rw [Tree.found]
    split
    · simp
    · refine List.forall_mem_cons.mpr ⟨?_, ih⟩
      unfold Tree.getFilename
      split
      · rename_i e' hfound
        exact (T.name_valid _ _ (List.mem_of_find?_eq_some hfound)).2
      · simp

theorem name_of_valid (h : T.Valid path) : ∀ e ∈ path, e.name ≠ [] ∧ '/' ∉ e.name := by
  induction path with
  | nil => simp
  | cons e path ih =>
    obtain ⟨he, -, -, hpath⟩ := h
    exact List.forall_mem_cons.mpr ⟨T.name_valid _ _ he, ih hpath⟩

/-- What `main` prints: a slash where it takes the directory for the root. -/
theorem main_returns : Returns (fun fuel => T.main fuel path)
    ((if T.getInode path = T.getInode path.tail then ['/'] else slashed (T.found path)) ++
      ['\n']) := by
  unfold Tree.main
  split
  · exact ⟨0, fun _ _ => rfl⟩
  · exact doPwd_returns.bind (g := fun _ out => some (out ++ ['\n'])) ⟨0, fun _ _ => rfl⟩

/-- It prints the absolute path when it finds the names on it. -/
theorem printed_eq_iff (h : T.Valid path) :
    (if T.getInode path = T.getInode path.tail then ['/'] else slashed (T.found path)) =
      absolutePath path ↔ T.found path = path.map Entry.name := by
  have hnames : ∀ n ∈ path.map Entry.name, n ≠ [] ∧ '/' ∉ n := by
    intro n hn
    obtain ⟨e, he, rfl⟩ := List.mem_map.mp hn
    exact name_of_valid h e he
  cases path with
  | nil => simp [absolutePath, Tree.found]
  | cons e path =>
    rw [absolutePath, if_neg (List.cons_ne_nil _ _), List.tail_cons]
    by_cases hstop : T.getInode (e :: path) = T.getInode path
    · rw [if_pos hstop, Tree.found, if_pos hstop.symm]
      refine iff_of_false ?_ nofun
      intro heq
      have hslash : slashed [[]] = slashed ((e :: path).map Entry.name) := heq
      have hone := slashed_injective (by simp) (fun n hn => (hnames n hn).2) hslash
      exact (hnames [] (hone ▸ List.mem_singleton_self _)).1 rfl
    · rw [if_neg hstop]
      exact ⟨fun heq => slashed_injective found_valid (fun n hn => (hnames n hn).2) heq,
        fun heq => by rw [heq]⟩
end

/-- `pwd` prints the absolute path of the working directory exactly when every directory on it has
the inode number of the entry it is found under: the roots of mounted file systems on the path have
the numbers of the directories below them. -/
theorem prints_path_iff {T : Tree Node} {path : List (Entry Node)} (h : T.Valid path) :
    Returns (fun fuel => T.main fuel path) (absolutePath path ++ ['\n']) ↔
      ∀ e ∈ path, T.ino (T.mounted e.node) = T.ino e.node := by
  rw [← found_eq_iff h, ← printed_eq_iff h]
  constructor
  · exact fun hret => List.append_cancel_right (main_returns.unique hret)
  · exact fun heq => heq ▸ main_returns

/-- The entries of a root directory 0 with directories `/a` and `/b`, which are 1 and 2, of `/a` with a
directory `c`, which is 3, and of the root 4 of another file system with a directory `d`, which is 5. -/
def treeEntries (d : Fin 6) : List (Entry (Fin 6)) :=
  if d = 0 then [⟨['.'], 0⟩, ⟨['.', '.'], 0⟩, ⟨['b'], 2⟩, ⟨['a'], 1⟩]
  else if d = 1 then [⟨['.'], 1⟩, ⟨['.', '.'], 0⟩, ⟨['c'], 3⟩]
  else if d = 4 then [⟨['.'], 4⟩, ⟨['.', '.'], 4⟩, ⟨['d'], 5⟩]
  else []

/-- The tree of these, where `d` has the inode number of `/a`, and the root of the other file system that
of `c`. -/
def tree (mounted : Fin 6 → Fin 6) : Tree (Fin 6) where
  dev x := if x = 4 ∨ x = 5 then 1 else 0
  ino x := if x = 0 then 2 else if x = 1 ∨ x = 5 then 11 else if x = 2 then 12 else 13
  IsDir _ := True
  root := 0
  entries := treeEntries
  mounted := mounted
  ino_unique := by decide
  entry_dev := by decide
  name_valid := by decide
  name_unique := by decide
  not_self d e he hproper _ :=
    (by decide : ∀ d, ∀ e ∈ treeEntries d, e.proper → e.node ≠ d) d e he hproper
  dir_once d e he e' he' hproper hproper' _ :=
    (by decide : ∀ d, ∀ e ∈ treeEntries d, ∀ e' ∈ treeEntries d, e.proper → e'.proper →
      e.node = e'.node → e = e') d e he e' he' hproper hproper'

/-- In `/a/c/d`, with the other file system mounted on `/a/c`. -/
theorem prints_path_iff_tree : Returns (fun fuel =>
    (tree fun x => if x = 3 then 4 else x).main fuel [⟨['d'], 5⟩, ⟨['c'], 3⟩, ⟨['a'], 1⟩])
      ['/', 'a', '/', 'c', '/', 'd', '\n'] := by
  have hvalid : (tree fun x => if x = 3 then 4 else x).Valid [⟨['d'], 5⟩, ⟨['c'], 3⟩, ⟨['a'], 1⟩] :=
    ⟨by decide, by decide, trivial, by decide, by decide, trivial, by decide, by decide,
      trivial, trivial⟩
  exact (prints_path_iff hvalid).mpr (by decide)

/-- The entries of a root directory 0 with a directory `/a`, which is 1. -/
def smallEntries (d : Fin 3) : List (Entry (Fin 3)) :=
  if d = 0 then [⟨['.'], 0⟩, ⟨['.', '.'], 0⟩, ⟨['a'], 1⟩] else []

/-- The tree of these and the root 2 of another file system, with the inode number of the first
root. -/
def smallTree (mounted : Fin 3 → Fin 3) : Tree (Fin 3) where
  dev x := if x = 2 then 1 else 0
  ino x := if x = 1 then 5 else 2
  IsDir _ := True
  root := 0
  entries := smallEntries
  mounted := mounted
  ino_unique := by decide
  entry_dev := by decide
  name_valid := by decide
  name_unique := by decide
  not_self d e he hproper _ :=
    (by decide : ∀ d, ∀ e ∈ smallEntries d, e.proper → e.node ≠ d) d e he hproper
  dir_once d e he e' he' hproper hproper' _ :=
    (by decide : ∀ d, ∀ e ∈ smallEntries d, ∀ e' ∈ smallEntries d, e.proper → e'.proper →
      e.node = e'.node → e = e') d e he e' he' hproper hproper'

/-- With a file system mounted on `/a`, `pwd` in `/a` takes it for the root. -/
theorem mounted_root : (smallTree fun x => if x = 1 then 2 else x).Valid [⟨['a'], 1⟩] ∧
    ∀ fuel, (smallTree fun x => if x = 1 then 2 else x).main fuel [⟨['a'], 1⟩] = some ['/', '\n'] :=
  ⟨⟨by decide, by decide, trivial, trivial⟩, fun _ => rfl⟩

end Pwd

end Ulsp
