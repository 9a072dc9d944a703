import Mathlib.Data.List.Nodup
import Ulsp.Chown.Inside

/-!
# `chown -R --from`

With `--from` the owner of each file is to be changed that has the owner given. `chown_file` looks at a
directory's owner before it looks at its entries, and goes no further if that is not the one given: so
in a tree it changes what it can reach through directories of that owner.
-/

namespace Ulsp

namespace Chown

variable {Obj : Type}

/-- What is inside is a finite tree without links: `height` goes down from a directory to its entries,
and no object is an entry of two directories or twice of one. -/
structure Fs.IsTree (fs : Fs Obj) (operand : Obj) (height : Obj → ℕ) : Prop where
  no_link : ∀ o target, fs.Inside operand o → fs.kind o ≠ .link target
  height_lt : ∀ d entries e, fs.Inside operand d → fs.kind d = .dir entries → e ∈ entries → e.proper →
    height e.node < height d
  parent : ∀ d entries e d' entries' e', fs.Inside operand d → fs.kind d = .dir entries →
    e ∈ entries → e.proper → fs.Inside operand d' → fs.kind d' = .dir entries' → e' ∈ entries' →
    e'.proper → e.node = e'.node → d = d'
  nodup : ∀ d entries, fs.Inside operand d → fs.kind d = .dir entries →
    ((entries.filter Entry.proper).map Entry.node).Nodup

/-- No system call fails. -/
structure Sys.Succeeds {fs : Fs Obj} (sys : Sys fs) : Prop where
  stat : ∀ path, sys.statFails path = false
  chown : ∀ path, sys.chownFails path = false
  opendir : ∀ path, sys.opendirFails path = false
  closedir : ∀ path, sys.closedirFails path = false

/-- What is reached from the operand through directories that `--from` does not leave out. -/
inductive Fs.Passed (fs : Fs Obj) (opts : Options) (own : Owners Obj) (operand : Obj) : Obj → Prop
  | operand : Fs.Passed fs opts own operand operand
  | entry {d : Obj} {entries : List (Entry Obj)} {e : Entry Obj} : Fs.Passed fs opts own operand d →
      opts.skips (own d) = false → fs.kind d = .dir entries → e ∈ entries → e.proper →
      Fs.Passed fs opts own operand e.node

/-- The owners of those with `P` that `--from` does not leave out are changed, and no others. -/
structure Changes (opts : Options) (own : Owners Obj) (P : Obj → Prop) (own₁ own₂ : Owners Obj) :
    Prop where
  changed : ∀ x, P x → opts.skips (own x) = false → own₂ x = opts.change (own x)
  kept : ∀ x, ¬ (P x ∧ opts.skips (own x) = false) → own₂ x = own₁ x

section
variable {fs : Fs Obj} {sys : Sys fs} {opts : Options} {own own₁ : Owners Obj} {height : Obj → ℕ}
  {a b o x : Obj} {entries l : List (Entry Obj)} {e e' : Entry Obj} {room : ℕ}
  {path : List (List Char)} {ok : Bool}

/-! ## Trees -/

/-- What is inside something inside is inside. -/
theorem Fs.Inside.trans (hab : fs.Inside a b) (hbx : fs.Inside b x) : fs.Inside a x := by
  induction hbx with
  | operand => exact hab
  | entry _ hkind he hproper ih => exact .entry ih hkind he hproper

/-- Inside a directory is what is inside its entries. -/
theorem Fs.Inside.cons (hkind : fs.kind o = .dir entries) (he : e ∈ entries) (hproper : e.proper)
    (hx : fs.Inside e.node x) : fs.Inside o x :=
  Fs.Inside.trans (.entry .operand hkind he hproper) hx

/-- A part of a tree is a tree. -/
theorem Fs.IsTree.sub (ht : fs.IsTree o height) (ha : fs.Inside o a) : fs.IsTree a height where
  no_link d target hd := ht.no_link d target (ha.trans hd)
  height_lt d entries e hd := ht.height_lt d entries e (ha.trans hd)
  parent d entries e d' entries' e' hd hkind he hproper hd' :=
    ht.parent d entries e d' entries' e' (ha.trans hd) hkind he hproper (ha.trans hd')
  nodup d entries hd := ht.nodup d entries (ha.trans hd)

/-- What is inside the root of a tree is the root or lower. -/
theorem Fs.IsTree.eq_or_lt (ht : fs.IsTree o height) (hx : fs.Inside o x) :
    x = o ∨ height x < height o := by
  induction hx with
  | operand => exact .inl rfl
  | @entry d entries e hd hkind he hproper ih =>
    have hlt := ht.height_lt d entries e hd hkind he hproper
    rcases ih with rfl | hd
    · exact .inr hlt
    · exact .inr (Nat.lt_trans hlt hd)

/-- A directory is not inside its entries. -/
theorem Fs.IsTree.not_inside_entry (ht : fs.IsTree o height) (hkind : fs.kind o = .dir entries)
    (he : e ∈ entries) (hproper : e.proper) : ¬ fs.Inside e.node o := by
  intro h
  have hlt := ht.height_lt o entries e .operand hkind he hproper
  rcases (ht.sub (.entry .operand hkind he hproper)).eq_or_lt h with heq | hgt
  · rw [← heq] at hlt
    exact Nat.lt_irrefl _ hlt
  · exact Nat.lt_asymm hlt hgt

/-- Of two objects above a third one is above the other. -/
theorem Fs.IsTree.comparable (ht : fs.IsTree o height) (ha : fs.Inside o a) (hb : fs.Inside o b)
    (hax : fs.Inside a x) (hbx : fs.Inside b x) : fs.Inside a b ∨ fs.Inside b a := by
  induction hax with
  | operand => exact .inr hbx
  | @entry d entries e hd hkind he hproper ih =>
    generalize hnode : e.node = y at hbx
    cases hbx with
    | operand => exact .inl (hnode ▸ .entry hd hkind he hproper)
    | @entry d' entries' e' hd' hkind' he' hproper' =>
      obtain rfl := ht.parent d entries e d' entries' e' (ha.trans hd) hkind he hproper (hb.trans hd')
        hkind' he' hproper' hnode
      exact ih hd'

/-- No entry of a directory is inside another. -/
theorem Fs.IsTree.entry_eq (ht : fs.IsTree o height) (hkind : fs.kind o = .dir entries)
    (he : e ∈ entries) (hproper : e.proper) (he' : e' ∈ entries) (hproper' : e'.proper)
    (hin : fs.Inside e.node e'.node) : e.node = e'.node := by
  generalize hnode : e'.node = y at hin
  cases hin with
  | operand => rfl
  | @entry d entries₁ e₁ hd hkind₁ he₁ hproper₁ =>
    have hod : fs.Inside o d := .cons hkind he hproper hd
    obtain rfl := ht.parent o entries e' d entries₁ e₁ .operand hkind he' hproper' hod hkind₁ he₁
      hproper₁ hnode
    exact absurd hd (ht.not_inside_entry hkind he hproper)

/-- Nothing is inside two entries of a directory. -/
theorem Fs.IsTree.disjoint (ht : fs.IsTree o height) (hkind : fs.kind o = .dir entries)
    (he : e ∈ entries) (hproper : e.proper) (he' : e' ∈ entries) (hproper' : e'.proper)
    (hne : e.node ≠ e'.node) (hx : fs.Inside e.node x) : ¬ fs.Inside e'.node x := by
  intro hx'
  rcases ht.comparable (.entry .operand hkind he hproper) (.entry .operand hkind he' hproper') hx hx'
    with hin | hin
  · exact hne (ht.entry_eq hkind he hproper he' hproper' hin)
  · exact hne (ht.entry_eq hkind he' hproper' he hproper hin).symm

/-! ## What is passed -/

/-- The descent stays inside. -/
theorem Fs.Passed.inside (h : fs.Passed opts own o x) : fs.Inside o x := by
  induction h with
  | operand => exact .operand
  | entry _ _ hkind he hproper ih => exact .entry ih hkind he hproper

/-- What is passed from an entry is passed from the directory. -/
theorem Fs.Passed.cons (hmatch : opts.skips (own o) = false) (hkind : fs.kind o = .dir entries)
    (he : e ∈ entries) (hproper : e.proper) (hx : fs.Passed opts own e.node x) :
    fs.Passed opts own o x := by
  induction hx with
  | operand => exact .entry .operand hmatch hkind he hproper
  | entry _ hmatch' hkind' he' hproper' ih => exact .entry ih hmatch' hkind' he' hproper'

/-- What is passed is the operand, or passed from one of its entries. -/
theorem Fs.Passed.head (h : fs.Passed opts own o x) : x = o ∨ opts.skips (own o) = false ∧
    ∃ entries e, fs.kind o = .dir entries ∧ e ∈ entries ∧ e.proper ∧
      fs.Passed opts own e.node x := by
  induction h with
  | operand => exact .inl rfl
  | @entry d entries e _ hmatch hkind he hproper ih =>
    rcases ih with rfl | ⟨hfirst, entries', e', hkind', he', hproper', hd⟩
    · exact .inr ⟨hmatch, entries, e, hkind, he, hproper, .operand⟩
    · exact .inr ⟨hfirst, entries', e', hkind', he', hproper', .entry hd hmatch hkind he hproper⟩

/-- In a tree it is what is inside directories that are all not left out. -/
theorem Fs.IsTree.passed_iff (ht : fs.IsTree o height) : fs.Passed opts own o x ↔
    fs.Inside o x ∧ ∀ d, fs.Inside o d → fs.Inside d x → d ≠ x → opts.skips (own d) = false := by
  constructor
  · intro h
    refine ⟨h.inside, ?_⟩
    induction h with
    | operand =>
      intro d hd hdo hne
      rcases (ht.sub hd).eq_or_lt hdo with rfl | hlt
      · exact absurd rfl hne
      · rcases ht.eq_or_lt hd with rfl | hgt
        · exact absurd rfl hne
        · exact absurd hgt (Nat.lt_asymm hlt)
    | @entry d entries e hpassed hmatch hkind he hproper ih =>
      intro a ha hae hne
      generalize hnode : e.node = y at hae hne
      cases hae with
      | operand => exact absurd rfl hne
      | @entry d' entries' e' hd' hkind' he' hproper' =>
        obtain rfl := ht.parent d entries e d' entries' e' hpassed.inside hkind he hproper
          (ha.trans hd') hkind' he' hproper' hnode
        by_cases had : a = d
        · rw [had]
          exact hmatch
        · exact ih a ha hd' had
  · rintro ⟨hx, habove⟩
    induction hx with
    | operand => exact .operand
    | @entry d entries e hd hkind he hproper ih =>
      have hne : ∀ a, fs.Inside a d → a ≠ e.node := by
        rintro a ha rfl
        exact (ht.sub hd).not_inside_entry hkind he hproper ha
      refine .entry (ih fun a ha had _ => ?_) (habove d hd ?_ (hne d .operand)) hkind he hproper
      · exact habove a ha (.entry had hkind he hproper) (hne a had)
      · exact .entry .operand hkind he hproper

/-! ## The run -/

/-- Two changes one after the other. -/
theorem Changes.trans {P Q : Obj → Prop} {own₂ own₃ : Owners Obj} (h : Changes opts own P own₁ own₂)
    (h' : Changes opts own Q own₂ own₃) : Changes opts own (fun x => P x ∨ Q x) own₁ own₃ where
  changed x hx hmatch := by
    by_cases hQ : Q x
    · exact h'.changed x hQ hmatch
    · rw [h'.kept x fun hx' => hQ hx'.1]
      exact h.changed x (hx.resolve_right hQ) hmatch
  kept x hx := by
    rw [h'.kept x fun hQ => hx ⟨.inr hQ.1, hQ.2⟩]
    exact h.kept x fun hP => hx ⟨.inl hP.1, hP.2⟩

/-- The objects to be changed, described in another way. -/
theorem Changes.congr {P Q : Obj → Prop} {own₂ : Owners Obj} (h : Changes opts own P own₁ own₂)
    (hPQ : ∀ x, P x ↔ Q x) : Changes opts own Q own₁ own₂ where
  changed x hx := h.changed x ((hPQ x).mpr hx)
  kept x hx := h.kept x fun hP => hx ⟨(hPQ x).mp hP.1, hP.2⟩

/-- One change. -/
theorem Changes.update [DecidableEq Obj] (hmatch : opts.skips (own o) = false) :
    Changes opts own (· = o) own₁ (Function.update own₁ o (opts.change (own o))) where
  changed x hx _ := by rw [hx, Function.update_self]
  kept x hx := Function.update_of_ne (fun h => hx ⟨h, by rw [h]; exact hmatch⟩) _ _

/-- The loop over entries that have nothing in common inside. -/
theorem eachEntry_changes (call : Entry Obj → Owners Obj → Owners Obj × Option Bool) (ok : Bool)
    {P : Entry Obj → Obj → Prop} (hinside : ∀ e x, P e x → fs.Inside e.node x)
    (hcall : ∀ e ∈ l, e.proper → ∀ own₁, (∀ x, fs.Inside e.node x → own₁ x = own x) →
      ∃ own₂ ok, call e own₁ = (own₂, some ok) ∧ Changes opts own (P e) own₁ own₂)
    (hdisjoint : l.Pairwise fun e e' => e.proper → e'.proper → ∀ x, fs.Inside e.node x →
      ¬ fs.Inside e'.node x)
    (hown : ∀ e ∈ l, e.proper → ∀ x, fs.Inside e.node x → own₁ x = own x) :
    ∃ own₂ ok', eachEntry call l own₁ ok = (own₂, some ok') ∧
      Changes opts own (fun x => ∃ e ∈ l, e.proper ∧ P e x) own₁ own₂ := by
  induction l generalizing own₁ ok with
  | nil => exact ⟨own₁, ok, rfl, ⟨by simp, by simp⟩⟩
  | cons e l ih =>
    obtain ⟨he, hl⟩ := List.forall_mem_cons.mp hcall
    obtain ⟨hdis, hdisjoint⟩ := List.pairwise_cons.mp hdisjoint
    obtain ⟨howne, hownl⟩ := List.forall_mem_cons.mp hown
    rw [eachEntry]
    split
    · rename_i hproper
      obtain ⟨own₂, b, hrun, hfirst⟩ := he hproper own₁ (howne hproper)
      have hown₂ : ∀ e' ∈ l, e'.proper → ∀ x, fs.Inside e'.node x → own₂ x = own x := by
        intro e' he' hproper' x hx
        rw [hfirst.kept x fun h => hdis e' he' hproper hproper' x (hinside e x h.1) hx]
        exact hownl e' he' hproper' x hx
      obtain ⟨own₃, ok', hrest, hchanges⟩ := ih (ok && b) hl hdisjoint hown₂
      rw [hrun]
      exact ⟨own₃, ok', hrest, (hfirst.trans hchanges).congr fun x => by simp [hproper]⟩
    · rename_i hproper
      obtain ⟨own₂, ok', hrun, hchanges⟩ := ih ok hl hdisjoint hownl
      exact ⟨own₂, ok', hrun, hchanges.congr fun x => by simp [hproper]⟩

/-- What is passed from a directory that is not left out. -/
theorem Fs.passed_dir_iff (hmatch : opts.skips (own o) = false) (hkind : fs.kind o = .dir entries)
    (hperm : l.Perm entries) : fs.Passed opts own o x ↔
      x = o ∨ ∃ e ∈ l, e.proper ∧ fs.Passed opts own e.node x := by
  constructor
  · intro h
    rcases h.head with rfl | ⟨-, entries', e, hkind', he, hproper, hx⟩
    · exact .inl rfl
    · obtain rfl : entries = entries' := by rw [hkind] at hkind'; cases hkind'; rfl
      exact .inr ⟨e, hperm.mem_iff.mpr he, hproper, hx⟩
  · rintro (rfl | ⟨e, he, hproper, hx⟩)
    · exact .operand
    · exact hx.cons hmatch hkind (hperm.mem_iff.mp he) hproper

/-- The entries of a directory, in any order, have nothing in common inside. -/
theorem Fs.IsTree.pairwise (ht : fs.IsTree o height) (hkind : fs.kind o = .dir entries)
    (hperm : l.Perm entries) : l.Pairwise fun e e' => e.proper → e'.proper → ∀ x,
      fs.Inside e.node x → ¬ fs.Inside e'.node x := by
  have hnodup : ((l.filter Entry.proper).map Entry.node).Nodup :=
    ((hperm.filter _).map _).nodup_iff.mpr (ht.nodup o entries .operand hkind)
  rw [List.Nodup, List.pairwise_map, List.pairwise_filter] at hnodup
  refine hnodup.imp_of_mem fun he he' hne hproper hproper' x hx => ?_
  exact ht.disjoint hkind (hperm.mem_iff.mp he) hproper (hperm.mem_iff.mp he') hproper'
    (hne hproper hproper') hx

/-- A directory that is not left out: it is changed, and then what is passed from its entries. -/
theorem dir_changes [DecidableEq Obj] (call : Entry Obj → Owners Obj → Owners Obj × Option Bool)
    (ht : fs.IsTree o height) (hmatch : opts.skips (own o) = false) (hkind : fs.kind o = .dir entries)
    (hperm : l.Perm entries)
    (hcall : ∀ e ∈ l, e.proper → ∀ own₁, (∀ x, fs.Inside e.node x → own₁ x = own x) →
      ∃ own₂ ok, call e own₁ = (own₂, some ok) ∧
        Changes opts own (fs.Passed opts own e.node) own₁ own₂)
    (hown : ∀ x, fs.Inside o x → own₁ x = own x) :
    ∃ own₂ ok, eachEntry call l (Function.update own₁ o (opts.change (own o))) true =
      (own₂, some ok) ∧ Changes opts own (fs.Passed opts own o) own₁ own₂ := by
  have hfirst : Changes opts own (· = o) own₁ _ := Changes.update hmatch
  have hown₁ : ∀ e ∈ l, e.proper → ∀ x, fs.Inside e.node x →
      Function.update own₁ o (opts.change (own o)) x = own x := by
    intro e he hproper x hx
    have hmem := hperm.mem_iff.mp he
    have hne : x ≠ o := by
      rintro rfl
      exact ht.not_inside_entry hkind hmem hproper hx
    rw [Function.update_of_ne hne]
    exact hown x (hx.cons hkind hmem hproper)
  obtain ⟨own₂, ok, hrun, hrest⟩ := eachEntry_changes call true (fun e x hx => hx.inside) hcall
    (ht.pairwise hkind hperm) hown₁
  exact ⟨own₂, ok, hrun,
    (hfirst.trans hrest).congr fun x => (Fs.passed_dir_iff hmatch hkind hperm).symm⟩

/-- A call on a tree changes what is passed. -/
theorem chownFile_changes [DecidableEq Obj] (path : List (List Char)) (ht : fs.IsTree o height)
    (hsys : sys.Succeeds) (hR : opts.Rflag) (hroom : height o < room)
    (hown : ∀ x, fs.Inside o x → own₁ x = own x) :
    ∃ own₂ ok, chownFile fs sys opts room path o own₁ = (own₂, some ok) ∧
      Changes opts own (fs.Passed opts own o) own₁ own₂ := by
  induction room generalizing o path own₁ with
  | zero => exact absurd hroom (Nat.not_lt_zero _)
  | succ room ih =>
    have ho : fs.follow o = some o := Fs.follow_of_not_link fun target => ht.no_link o target .operand
    rw [chownFile, hsys.stat]
    simp only [Bool.false_eq_true, if_false, ho, hown o .operand, hsys.chown, hsys.opendir,
      hsys.closedir, hR, if_true]
    cases hskip : opts.skips (own o) with
    | true =>
      refine ⟨own₁, true, by simp, fun x hx hmatch => ?_, fun _ _ => rfl⟩
      rcases hx.head with rfl | ⟨hfirst, -⟩
      · exact absurd hskip (by simp [hmatch])
      · exact absurd hskip (by simp [hfirst])
    | false =>
      simp only [Bool.false_eq_true, if_false]
      cases hkind : fs.kind o with
      | file =>
        have honly : ∀ x, x = o ↔ fs.Passed opts own o x := by
          refine fun x => ⟨fun h => h ▸ .operand, fun hx => ?_⟩
          rcases hx.head with rfl | ⟨-, entries, e, hdir, -⟩
          · rfl
          · rw [hkind] at hdir
            cases hdir
        exact ⟨_, true, rfl, (Changes.update hskip).congr honly⟩
      | link target => exact absurd hkind (ht.no_link o target .operand)
      | dir entries =>
        have hperm := sys.readdir_perm path o entries hkind
        obtain ⟨own₂, ok, hrun, hchanges⟩ := dir_changes
          (fun e => chownFile fs sys opts room (e.name :: path) e.node) ht hskip hkind hperm
          (fun e he hproper own₁ hown₁ => by
            have hmem := hperm.mem_iff.mp he
            have hlt := ht.height_lt o entries e .operand hkind hmem hproper
            exact ih (e.name :: path) (ht.sub (.entry .operand hkind hmem hproper)) (by omega) hown₁)
          hown
        refine ⟨own₂, ok && true, ?_, hchanges⟩
        simp only [hrun, Option.map_some, Bool.not_false]

end

/-- `chown -R` with `--from` changes the owner of those inside that have the owner given, and of no
others. -/
def ReachesMatches [DecidableEq Obj] (fs : Fs Obj) (sys : Sys fs) (opts : Options) (operand : Obj)
    (own : Owners Obj) : Prop :=
  Changes opts own (fs.Inside operand) own (run fs sys opts operand own)

/-- In a tree it does so, all system calls succeeding, exactly when all directories above an object
that is to get another owner have the owner given too. -/
theorem reaches_matches_iff [DecidableEq Obj] (fs : Fs Obj) (sys : Sys fs) (opts : Options)
    (operand : Obj) (own : Owners Obj) (height : Obj → ℕ) (htree : fs.IsTree operand height)
    (hsys : sys.Succeeds) (hpath : height operand < sys.pathMax) (hR : opts.Rflag) :
    ReachesMatches fs sys opts operand own ↔
      ∀ x, fs.Inside operand x → opts.skips (own x) = false → opts.change (own x) ≠ own x →
        ∀ d, fs.Inside operand d → fs.Inside d x → d ≠ x → opts.skips (own d) = false := by
  have hown : ∀ x, fs.Inside operand x → own x = own x := fun _ _ => rfl
  obtain ⟨own₂, ok, hrun, hchanges⟩ := chownFile_changes [] htree hsys hR hpath hown
  have hrun₂ : run fs sys opts operand own = own₂ := by rw [run, hrun]
  rw [ReachesMatches, hrun₂]
  constructor
  · intro h x hx hmatch hnew
    have hpassed : fs.Passed opts own operand x := by
      by_contra hnot
      have hkept := hchanges.kept x fun hx' => hnot hx'.1
      exact hnew ((h.changed x hx hmatch).symm.trans hkept)
    exact (htree.passed_iff.mp hpassed).2
  · intro h
    refine ⟨fun x hx hmatch => ?_, fun x hx => hchanges.kept x fun hx' => hx ⟨hx'.1.inside, hx'.2⟩⟩
    by_cases hpassed : fs.Passed opts own operand x
    · exact hchanges.changed x hpassed hmatch
    · rw [hchanges.kept x fun hx' => hpassed hx'.1]
      by_contra hnew
      exact hpassed (htree.passed_iff.mpr ⟨hx, h x hx hmatch (Ne.symm hnew)⟩)

/-- The operand 0 with a file 1. -/
def fileFs : Fs (Fin 2) where
  kind
    | 0 => .dir [⟨['f'], 1⟩]
    | 1 => .file

/-- No call fails. -/
def fileSys : Sys fileFs where
  statFails _ := false
  chownFails _ := false
  opendirFails _ := false
  closedirFails _ := false
  readdir _ d :=
    match fileFs.kind d with
    | .dir entries => entries
    | _ => []
  readdir_perm path d entries hkind := by
    simp only [hkind]
    exact .refl _
  pathMax := 4

/-- The only directory is the root. -/
theorem fileFs_dir {d : Fin 2} {entries : List (Entry (Fin 2))} (h : fileFs.kind d = .dir entries) :
    d = 0 ∧ entries = [⟨['f'], 1⟩] := by
  match d with
  | 0 => cases h; exact ⟨rfl, rfl⟩
  | 1 => cases h

/-- It is a tree, of height one. -/
theorem fileFs_isTree : fileFs.IsTree 0 fun o => 1 - o where
  no_link
    | 0, _, _, h => nomatch h
    | 1, _, _, h => nomatch h
  height_lt d entries e _ hkind he _ := by
    obtain ⟨rfl, rfl⟩ := fileFs_dir hkind
    rw [List.mem_singleton.mp he]
    decide
  parent d entries e d' entries' e' _ hkind _ _ _ hkind' _ _ _ := by
    rw [(fileFs_dir hkind).1, (fileFs_dir hkind').1]
  nodup d entries _ hkind := by
    rw [(fileFs_dir hkind).2]
    decide

/-- From 5 to 7. -/
def fiveToSeven : Options := ⟨true, some 7, none, some 5, none⟩

/-- All that matches is reached in a directory with one file. -/
theorem reaches_matches_file : ReachesMatches fileFs fileSys fiveToSeven 0 fun _ => ⟨5, 0⟩ :=
  (reaches_matches_iff fileFs fileSys fiveToSeven 0 (fun _ => ⟨5, 0⟩) (fun o => 1 - o) fileFs_isTree
    ⟨fun _ => rfl, fun _ => rfl, fun _ => rfl, fun _ => rfl⟩ (by decide) rfl).mpr
    fun _ _ _ _ _ _ _ _ => rfl

/-- The file of 5 in a directory of 0 is not reached. -/
theorem file_not_reached :
    ¬ ReachesMatches fileFs fileSys fiveToSeven 0 fun o => if o = 1 then ⟨5, 0⟩ else ⟨0, 0⟩ := by
  intro h
  have hfile : fileFs.Inside 0 1 :=
    @Fs.Inside.entry _ fileFs 0 0 [⟨['f'], 1⟩] ⟨['f'], 1⟩ .operand rfl List.mem_cons_self rfl
  exact absurd (h.changed 1 hfile rfl) (by decide)

end Chown

end Ulsp
