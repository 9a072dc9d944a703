import Ulsp.Chown.Chown

/-!
# What `chown -R` reaches

By default no symbolic link is to be traversed, so `chown -R` is to change the operand and what is
reached from it through directories. It follows links all the same: what it changes stays inside
exactly when no link inside leads out.
-/

namespace Ulsp

namespace Chown

variable {Obj : Type}

/-- What is reached from the operand through directories, and through no links. -/
inductive Fs.Inside (fs : Fs Obj) (operand : Obj) : Obj → Prop
  | operand : Fs.Inside fs operand operand
  | entry {d : Obj} {entries : List (Entry Obj)} {e : Entry Obj} : Fs.Inside fs operand d →
      fs.kind d = .dir entries → e ∈ entries → e.proper → Fs.Inside fs operand e.node

/-- The entries lead from one object through directories to another. -/
inductive Fs.Chain (fs : Fs Obj) : Obj → List (Entry Obj) → Obj → Prop
  | nil {o : Obj} : Fs.Chain fs o [] o
  | cons {d o : Obj} {entries es : List (Entry Obj)} {e : Entry Obj} :
      fs.kind d = .dir entries → e ∈ entries → e.proper → Fs.Chain fs e.node es o →
      Fs.Chain fs d (e :: es) o

section
variable {fs : Fs Obj} {sys : Sys fs} {opts : Options} {own : Owners Obj} {operand d o l x : Obj}
  {entries es pre : List (Entry Obj)} {e : Entry Obj} {room : ℕ} {path : List (List Char)}

theorem Fs.follow_of_not_link (h : ∀ target, fs.kind o ≠ .link target) : fs.follow o = some o := by
  unfold Fs.follow
  split
  · rename_i target hkind
    exact absurd hkind (h target)
  · rfl

/-- If no link inside leads out, whatever is changed is inside. -/
theorem run_inside [DecidableEq Obj]
    (hlinks : ∀ l x, fs.Inside operand l → fs.kind l = .link (some x) → fs.Inside operand x)
    (hx : run fs sys opts operand own x ≠ own x) : fs.Inside operand x := by
  have hfollow : ∀ o y, fs.Inside operand o → fs.follow o = some y → fs.Inside operand y := by
    intro o y ho hy
    unfold Fs.follow at hy
    split at hy
    · rename_i target hkind
      exact hlinks o y ho (hy ▸ hkind)
    · exact Option.some.inj hy ▸ ho
  have hrel : ∀ x, (chownFile fs sys opts sys.pathMax [] operand own).1 x ≠ own x →
      fs.Inside operand x := chownFile_rel (I := fs.Inside operand)
    (R := fun own own' => ∀ x, own' x ≠ own x → fs.Inside operand x)
    (fun _ _ h => absurd rfl h)
    (fun a b c hab hbc x h => by
      by_cases hb : b x = a x
      · exact hbc x (hb ▸ h)
      · exact hab x hb)
    (fun o y ho hy own x h => by
      by_cases hxy : x = y
      · exact hxy ▸ hfollow o y ho hy
      · exact absurd (Function.update_of_ne hxy _ _) h)
    (fun o y entries ho hy hkind e he hproper => .entry (hfollow o y ho hy) hkind he hproper)
    .operand
  exact hrel x hx

/-! ## A run along a chain -/

theorem Fs.Chain.snoc (h : fs.Chain o es d) (hkind : fs.kind d = .dir entries) (he : e ∈ entries)
    (hproper : e.proper) : fs.Chain o (es ++ [e]) e.node := by
  induction h with
  | nil => exact .cons hkind he hproper .nil
  | cons hkind' he' hproper' _ ih => exact .cons hkind' he' hproper' (ih hkind)

theorem Fs.Inside.chain (h : fs.Inside operand o) : ∃ es, fs.Chain operand es o := by
  induction h with
  | operand => exact ⟨[], .nil⟩
  | entry _ hkind he hproper ih =>
    obtain ⟨es, hes⟩ := ih
    exact ⟨_, hes.snoc hkind he hproper⟩

variable [DecidableEq Obj]

/-- The entries with a given one first, if it is one of them. -/
def putFirst (e : Option (Entry Obj)) (entries : List (Entry Obj)) : List (Entry Obj) :=
  match e with
  | some e => if e ∈ entries then e :: entries.erase e else entries
  | none => entries

theorem putFirst_perm {e : Option (Entry Obj)} : (putFirst e entries).Perm entries := by
  unfold putFirst
  split
  · split
    · rename_i he
      exact (List.perm_cons_erase he).symm
    · exact .refl _
  · exact .refl _

/-- No call fails, and each directory on the chain gives its entry on the chain first. -/
def chainSys (fs : Fs Obj) (chain : List (Entry Obj)) : Sys fs where
  statFails _ := false
  chownFails _ := false
  opendirFails _ := false
  closedirFails _ := false
  readdir path d :=
    match fs.kind d with
    | .dir entries => putFirst chain[path.length]? entries
    | _ => []
  readdir_perm path d entries hkind := by
    simp only [hkind]
    exact putFirst_perm
  pathMax := chain.length + 1

/-- Everyone to 1. -/
def toOne : Options := ⟨true, some 1, some 1, none, none⟩

theorem toOne_change {own : Owner} : toOne.change own = ⟨1, 1⟩ := rfl

theorem toOne_skips {own : Owner} : toOne.skips own = false := rfl

/-- What an owner of 1 stays through. -/
theorem one_stays_update (y : Obj) (own : Owners Obj) (h : own x = ⟨1, 1⟩) :
    Function.update own y (toOne.change (own y)) x = ⟨1, 1⟩ := by
  by_cases hxy : x = y
  · rw [hxy, Function.update_self, toOne_change]
  · rw [Function.update_of_ne hxy, h]

theorem one_stays (h : own x = ⟨1, 1⟩) : (chownFile fs sys toOne room path o own).1 x = ⟨1, 1⟩ :=
  chownFile_rel (I := fun _ => True) (R := fun own own' => own x = ⟨1, 1⟩ → own' x = ⟨1, 1⟩)
    (fun _ h => h) (fun _ _ _ hab hbc h => hbc (hab h))
    (fun _ y _ _ own h => one_stays_update y own h) (fun _ _ _ _ _ _ _ _ _ => trivial) trivial h

theorem one_stays_each {ok : Bool} (h : own x = ⟨1, 1⟩) :
    (eachEntry (fun e => chownFile fs sys toOne room (e.name :: path) e.node) entries own ok).1 x =
      ⟨1, 1⟩ :=
  eachEntry_rel (R := fun own own' => own x = ⟨1, 1⟩ → own' x = ⟨1, 1⟩) (fun _ h => h)
    (fun _ _ _ hab hbc h => hbc (hab h)) (fun _ _ _ _ => one_stays) h

/-- A call when no system call fails. -/
theorem chownFile_chain {chain : List (Entry Obj)} (hx : fs.follow o = some x) :
    (chownFile fs (chainSys fs chain) toOne (room + 1) path o own).1 =
      match fs.kind x with
      | .dir entries => (eachEntry
          (fun e => chownFile fs (chainSys fs chain) toOne room (e.name :: path) e.node)
          (putFirst chain[path.length]? entries) (Function.update own x ⟨1, 1⟩) true).1
      | _ => Function.update own x ⟨1, 1⟩ := by
  rw [chownFile]
  simp only [chainSys, Bool.false_eq_true, if_false, hx, toOne_skips, toOne_change]
  cases fs.kind x <;> rfl

/-- The run along the chain comes to its end. -/
theorem run_chain (hchain : fs.Chain d es l) (hl : fs.follow l = some x)
    (hpre : path.length = pre.length) (hroom : es.length < room) :
    (chownFile fs (chainSys fs (pre ++ es)) toOne room path d own).1 x = ⟨1, 1⟩ := by
  induction hchain generalizing room path pre own with
  | nil =>
    obtain ⟨room, rfl⟩ : ∃ n, room = n + 1 := ⟨room - 1, by omega⟩
    rw [chownFile_chain hl]
    split
    · exact one_stays_each (Function.update_self _ _ _)
    · exact Function.update_self _ _ _
  | @cons d l entries es e hkind he hproper _ ih =>
    obtain ⟨room, rfl⟩ : ∃ n, room = n + 1 := ⟨room - 1, by omega⟩
    have hd : fs.follow d = some d := Fs.follow_of_not_link (by simp [hkind])
    have hfirst : (pre ++ e :: es)[path.length]? = some e := by simp [hpre]
    have hlist : pre ++ e :: es = (pre ++ [e]) ++ es := by simp
    rw [chownFile_chain hd, hkind, hfirst]
    simp only [putFirst, if_pos he, eachEntry, hproper, if_true]
    have hcall : (chownFile fs (chainSys fs (pre ++ [e] ++ es)) toOne room (e.name :: path) e.node
        (Function.update own d ⟨1, 1⟩)).1 x = ⟨1, 1⟩ :=
      ih hl (by simp [hpre]) (by simp at hroom; omega)
    rw [← hlist] at hcall
    split
    · rename_i hr
      rw [hr] at hcall
      exact one_stays_each hcall
    · rename_i hr
      rw [hr] at hcall
      exact hcall
end

/-- `chown -R` changes nothing but the operand and what is reached from it through directories, in
whatever order it finds the entries, whatever system calls fail and whatever `--from` leaves out,
exactly when no symbolic link reached so leads to anything else. -/
theorem stays_inside_iff [DecidableEq Obj] (fs : Fs Obj) (operand : Obj) :
    (∀ (sys : Sys fs) (opts : Options) (own : Owners Obj) (x : Obj), opts.Rflag →
      run fs sys opts operand own x ≠ own x → fs.Inside operand x) ↔
      ∀ l x, fs.Inside operand l → fs.kind l = .link (some x) → fs.Inside operand x := by
  constructor
  · intro hrun l x hl hlink
    obtain ⟨es, hes⟩ := hl.chain
    have hfollow : fs.follow l = some x := by simp [Fs.follow, hlink]
    have hchain : (chownFile fs (chainSys fs ([] ++ es)) toOne (es.length + 1) [] operand
        fun _ => ⟨0, 0⟩).1 x = ⟨1, 1⟩ := run_chain hes hfollow rfl (Nat.lt_succ_self _)
    have hone : run fs (chainSys fs es) toOne operand (fun _ => ⟨0, 0⟩) x = ⟨1, 1⟩ := hchain
    refine hrun (chainSys fs es) toOne (fun _ => ⟨0, 0⟩) x rfl ?_
    rw [hone]
    decide
  · exact fun hlinks sys opts own x _ hx => run_inside hlinks hx

/-- The operand 0 with a link `l` to the directory 2, which has a file 3. -/
def linkFs : Fs (Fin 4) where
  kind
    | 0 => .dir [⟨['l'], 1⟩]
    | 1 => .link (some 2)
    | 2 => .dir [⟨['f'], 3⟩]
    | 3 => .file

/-- `chown -R` goes through the link. -/
theorem follows_link :
    run linkFs (chainSys linkFs [⟨['l'], 1⟩, ⟨['f'], 3⟩]) ⟨true, some 1, none, none, none⟩ 0
      (fun _ => ⟨0, 0⟩) 3 = ⟨1, 0⟩ ∧ ¬ linkFs.Inside 0 3 := by
  have hinside : ∀ x, linkFs.Inside 0 x → x = 0 ∨ x = 1 := by
    intro x hx
    induction hx with
    | operand => exact .inl rfl
    | @entry d entries e _ hkind he _ ih =>
      rcases ih with rfl | rfl
      · cases hkind
        exact .inr (congrArg Entry.node (List.mem_singleton.mp he))
      · cases hkind
  exact ⟨rfl, fun h => absurd (hinside 3 h) (by decide)⟩

end Chown

end Ulsp
