import Mathlib.Data.Finset.SDiff
import Ulsp.Timer.HeapSift

/-!
# The operations of the time heap

`Rep h ts` is the representation invariant: the array stores the live timers `ts`, none twice, in
heap order. Each operation has one theorem that says it follows no null or freed pointer, which
timers are stored afterwards, and that `Rep` holds again: `addTimer_spec`, `adjustTimer_spec`,
`delTimer_spec`, `tick_spec`. The last also says which timers a tick fires, and in which order.
-/

namespace Ulsp

open Lib.HeapOrder

/-- Changing an object that is not in the list keeps the keys. -/
theorem keys_update {mem : Store HpTimer} {ts : List Ptr} {t : Ptr} (ht : t ∉ ts)
    (o : Option HpTimer) : keys (Function.update mem t o) ts = keys mem ts := by
  funext i
  cases hi : ts[i]? with
  | none => simp [keys, hi]
  | some u =>
    have hu : u ≠ t := fun e => ht (e ▸ List.mem_of_getElem? hi)
    simp [keys, hi, expiry, Function.update_of_ne hu]

/-- Changing one object of a list without repetition keeps the other positions' keys. -/
theorem keys_update_of_ne {mem : Store HpTimer} {ts : List Ptr} {t : Ptr} {i j : ℕ}
    (hnd : ts.Nodup) (hi : ts[i]? = some t) (hj : j ≠ i) (o : Option HpTimer) :
    keys (Function.update mem t o) ts j = keys mem ts j := by
  cases h : ts[j]? with
  | none => simp [keys, h]
  | some u =>
    have hu : u ≠ t := by
      rintro rfl
      obtain ⟨hilt, hie⟩ := List.getElem?_eq_some_iff.mp hi
      obtain ⟨hjlt, hje⟩ := List.getElem?_eq_some_iff.mp h
      exact hj ((List.Nodup.getElem_inj_iff hnd).mp (hje.trans hie.symm))
    simp [keys, h, expiry, Function.update_of_ne hu]

/-- The timers that a tick does not fire are those stored before without those it fires. -/
theorem toFinset_rest {α : Type} [DecidableEq α] {fired ts ts' : List α}
    (hperm : (fired ++ ts').Perm ts) (hnd : ts.Nodup) :
    ts'.toFinset = ts.toFinset \ fired.toFinset := by
  have hdis := (List.nodup_append'.mp (hperm.nodup_iff.mpr hnd)).2.2
  ext u
  have hmem := hperm.mem_iff (a := u)
  rw [List.mem_append] at hmem
  simp only [List.mem_toFinset, Finset.mem_sdiff, ← hmem]
  exact ⟨fun hu => ⟨.inr hu, fun hf => hdis hf hu⟩, fun hu => hu.1.resolve_left hu.2⟩

namespace TimerHeap

/-- The representation invariant. -/
structure Rep (h : TimerHeap) (ts : List Ptr) : Prop extends Holds h ts where
  nodup : ts.Nodup
  ordered : Ordered heapParent (keys h.mem ts) h.size

variable {h h' : TimerHeap} {ts ts' : List Ptr} {t : Ptr} {now : ℤ}

/-- What is stored does not depend on the alarm and the signal mask. -/
theorem Holds.setAlarm (hh : h.Holds ts) (a : ℕ) (b : Bool) :
    Holds { h with alarm := a, alrmBlocked := b } ts :=
  ⟨⟨hh.room, hh.pos, hh.size, hh.stored⟩, hh.alive⟩

/-- The invariant does not depend on the alarm and the signal mask. -/
theorem Rep.setAlarm (hr : h.Rep ts) (a : ℕ) (b : Bool) :
    Rep { h with alarm := a, alrmBlocked := b } ts :=
  ⟨hr.toHolds.setAlarm a b, hr.nodup, hr.ordered⟩

/-- The invariant does not depend on the objects that are not stored. -/
theorem Rep.update (hr : h.Rep ts) (ht : t ∉ ts) (o : Option HpTimer) :
    Rep { h with mem := Function.update h.mem t o } ts where
  room := hr.room
  pos := hr.pos
  size := hr.size
  stored := hr.stored
  alive := by
    intro u hu
    have hne : u ≠ t := fun e => ht (e ▸ hu)
    simpa [Function.update_of_ne hne] using hr.alive u hu
  nodup := hr.nodup
  ordered := by simpa [keys_update ht] using hr.ordered

theorem Sifted.rep (hs : Sifted h h' ts ts') (hnd : ts.Nodup)
    (ho : Ordered heapParent (keys h'.mem ts') h'.size) : h'.Rep ts' :=
  ⟨hs.holds, hs.perm.nodup_iff.mpr hnd, ho⟩

/-- The empty heap stores nothing. -/
theorem empty_rep (mem : Store HpTimer) (a : ℕ) (b : Bool) : (empty mem a b).Rep [] where
  room := rfl
  pos := by simp [empty]
  size := rfl
  stored := rfl
  alive := by simp
  nodup := List.nodup_nil
  ordered := by intro i _ hi; simp [empty] at hi

theorem resetTimer_spec (hh : h.Holds ts) (now : ℤ) :
    ∃ a, h.resetTimer now = some { h with alarm := a } := by
  unfold resetTimer
  split
  · exact ⟨0, rfl⟩
  · rename_i hne
    rw [hh.expireAt (by omega)]
    exact ⟨_, rfl⟩

/-- `getIdx` finds a stored timer. -/
theorem getIdx_of_mem (hs : h.Stores ts) (ht : t ∈ ts) :
    h.getIdx t < h.size ∧ ts[h.getIdx t]? = some t := by
  have hex : ∃ x ∈ ts.map some, (x == some t) = true := ⟨some t, by simpa using ht, by simp⟩
  have hlt := List.findIdx_lt_length_of_exists hex
  have hget := List.findIdx_getElem (w := hlt)
  unfold getIdx
  rw [hs.stored]
  rw [List.length_map, hs.size] at hlt
  refine ⟨hlt, ?_⟩
  rw [beq_iff_eq, List.getElem_map, Option.some.injEq] at hget
  rw [List.getElem?_eq_getElem (by rw [hs.size]; exact hlt), hget]

/-- `getIdx` gives `size` for the timers that are not stored. -/
theorem getIdx_eq_size_iff (hs : h.Stores ts) : h.getIdx t = h.size ↔ t ∉ ts := by
  refine ⟨fun heq ht => (getIdx_of_mem hs ht).1.ne heq, ?_⟩
  intro ht
  have hlen : (ts.map some).length = h.size := by rw [List.length_map, hs.size]
  rw [getIdx, hs.stored, ← hlen]
  exact List.findIdx_eq_length_of_false fun x hx => by
    obtain ⟨u, hu, rfl⟩ := List.mem_map.mp hx
    simpa using fun he : u = t => ht (he ▸ hu)

/-! ## `add_timer` -/

/-- `resize` keeps what is stored and makes room for another timer. -/
theorem Holds.resize (hh : h.Holds ts) : h.resize.Holds ts ∧ h.size < h.resize.capacity := by
  have hle := hh.size_le
  have hpos := hh.pos
  have hlen : h.resize.slots.length = h.capacity * 2 := by
    simp [TimerHeap.resize, hh.room]; omega
  refine ⟨⟨⟨hlen, by simpa [TimerHeap.resize] using hpos, hh.size, ?_⟩, hh.alive⟩,
    by simp only [TimerHeap.resize]; omega⟩
  simp [TimerHeap.resize, hh.stored, hh.size]

/-- Appending a live timer behind the stored ones leaves a heap but for the edge above it. -/
theorem Holds.push (hh : h.Holds ts) (hroom : h.size < h.capacity)
    (halive : ∃ timer, h.mem t = some timer) :
    Holds { h with slots := h.slots.set h.size (some t), size := h.size + 1 } (ts ++ [t]) ∧
      (Ordered heapParent (keys h.mem ts) h.size →
        SaveAbove heapParent (keys h.mem (ts ++ [t])) (h.size + 1) h.size) := by
  have hlt : h.size < h.slots.length := hh.room ▸ hroom
  have hkeys : ∀ j, j < h.size → keys h.mem (ts ++ [t]) j = keys h.mem ts j := by
    intro j hj
    simp [keys, List.getElem?_append_left (hh.size ▸ hj)]
  refine ⟨⟨⟨by simpa using hh.room, hh.pos, by simp [hh.size], ?_⟩, ?_⟩, fun ho => ⟨?_, ?_⟩⟩
  · show (h.slots.set h.size (some t)).take (h.size + 1) = _
    rw [List.take_add_one, List.getElem?_set_self hlt, List.take_set_of_le le_rfl, hh.stored]
    simp
  · intro u hu
    rcases List.mem_append.mp hu with hu | hu
    · exact hh.alive u hu
    · rw [List.mem_singleton.mp hu]; exact halive
  · intro j hj hjn hne
    have hp := heapParent_lt j hj
    rw [hkeys j (by omega), hkeys _ (by omega)]
    exact ho j hj (by omega)
  · intro _ j hj hjn hpj
    have hp := heapParent_lt j hj
    omega

/-- A full array is doubled before the timer is stored. -/
theorem Holds.grow (hh : h.Holds ts) : ∃ h₀ : TimerHeap,
    (if h.blockAlarm.size = h.blockAlarm.capacity then h.blockAlarm.resize else h.blockAlarm) = h₀ ∧
      h₀.Holds ts ∧ h₀.size < h₀.capacity ∧ h₀.mem = h.mem ∧ h₀.size = h.size ∧ h₀.alarm = h.alarm ∧
      h₀.alrmBlocked = true := by
  have hb : h.blockAlarm.Holds ts := hh.setAlarm h.alarm true
  split
  · exact ⟨_, rfl, hb.resize.1, hb.resize.2, rfl, rfl, rfl, rfl⟩
  · rename_i hne
    exact ⟨_, rfl, hb, lt_of_le_of_ne hb.size_le hne, rfl, rfl, rfl, rfl⟩

/-- `add_timer` stores a live timer, and unblocks `SIGALRM`. -/
theorem Holds.addTimer (hh : h.Holds ts) (halive : ∃ timer, h.mem t = some timer) (now : ℤ) :
    ∃ h' ts', h.addTimer now (some t) = some h' ∧ h'.Holds ts' ∧ ts'.Perm (t :: ts) ∧
      h'.mem = h.mem ∧ h'.alrmBlocked = false ∧ (Ordered heapParent (keys h.mem ts) h.size →
        Ordered heapParent (keys h'.mem ts') h'.size) := by
  obtain ⟨h₀, hif, hh₀, hroom, hmem, hsize, -⟩ := hh.grow
  obtain ⟨hh₁, ho₁⟩ := hh₀.push hroom (hmem ▸ halive)
  obtain ⟨h₂, ts₂, hup, hs₂, ho₂⟩ := percolateUp_spec hh₁ (Nat.lt_succ_self _) (Nat.lt_succ_self _)
  obtain ⟨a, ha⟩ := resetTimer_spec hs₂.holds now
  have hset : h₀.setSlot h₀.size (some t) =
      some { h₀ with slots := h₀.slots.set h₀.size (some t) } :=
    if_pos (hh₀.room ▸ hroom)
  refine ⟨unblockAlarm { h₂ with alarm := a }, ts₂, ?_, hs₂.holds.setAlarm a false,
    hs₂.perm.trans List.perm_append_comm, hs₂.mem_eq.trans hmem, rfl, fun ho => ho₂ (ho₁ ?_)⟩
  · simp only [TimerHeap.addTimer, hif, hset, Option.bind_eq_bind, Option.bind_some,
      Nat.add_sub_cancel, hup, ha]
    rfl
  · rwa [hmem, hsize]

/-- `add_timer` stores a new timer in a heap. -/
theorem addTimer_spec (hr : h.Rep ts) (ht : t ∉ ts) (halive : ∃ timer, h.mem t = some timer)
    (now : ℤ) : ∃ h' ts', h.addTimer now (some t) = some h' ∧ h'.Rep ts' ∧ ts'.Perm (t :: ts) ∧
      h'.mem = h.mem ∧ h'.alrmBlocked = false := by
  obtain ⟨h', ts', hrun, hh', hperm, hmem, hb, ho⟩ := hr.toHolds.addTimer halive now
  have hnd := hperm.nodup_iff.mpr (List.nodup_cons.mpr ⟨ht, hr.nodup⟩)
  exact ⟨h', ts', hrun, ⟨hh', hnd, ho hr.ordered⟩, hperm, hmem, hb⟩

/-! ## `adjust_timer` -/

/-- Around a position whose key was replaced, `adjust_timer` restores the order. -/
theorem adjustAt_spec (key : ℕ → ℤ) {idx : ℕ} (hh : h.Holds ts) (hi : idx < h.size) :
    ∃ h' ts', h.adjustAt idx = some h' ∧ Sifted h h' ts ts' ∧
      (Ordered heapParent key h.size → (∀ j, j < h.size → j ≠ idx → keys h.mem ts j = key j) →
        Ordered heapParent (keys h'.mem ts') h'.size) := by
  have here := hh.expireAt hi
  have above := hh.expireAt (i := idx / 2) (by omega)
  rcases lt_or_ge (keys h.mem ts idx) (keys h.mem ts (idx / 2)) with hlt | hge
  · obtain ⟨h₂, ts₂, hup, hs₂, ho₂⟩ := percolateUp_spec hh hi (Nat.lt_succ_self idx)
    refine ⟨h₂, ts₂, by simp [adjustAt, here, above, hlt, hup], hs₂, fun ho hoff => ho₂ ?_⟩
    -- earlier than its parent, so earlier than the children the parent was in order with
    have hpos : 0 < idx := by
      rcases Nat.eq_zero_or_pos idx with rfl | hpos
      · exact absurd hlt (lt_irrefl _)
      · exact hpos
    have hp := heapParent_lt idx hpos
    have hpar : keys h.mem ts (idx / 2) = key (heapParent idx) := hoff _ (by omega) (by omega)
    exact ho.saveAbove heapParent_lt hi hoff fun j hj hjn hpj =>
      (hpar ▸ hlt.le).trans (ho.across hi hpos hj hjn hpj)
  · have hbelow : Ordered heapParent key h.size →
        (∀ j, j < h.size → j ≠ idx → keys h.mem ts j = key j) →
        SaveBelow heapParent (keys h.mem ts) h.size idx := fun ho hoff => by
      refine ho.saveBelow heapParent_lt hi hoff ?_
      intro hpos
      have hp := heapParent_lt idx hpos
      rw [← hoff _ (by omega) (by omega)]
      exact hge
    obtain ⟨c, hc, hcase, hleast⟩ := lesserChild_spec hh idx
    have hchild : ∀ j, 0 < j → j < h.size → heapParent j = idx →
        keys h.mem ts c ≤ keys h.mem ts j := by
      intro j _ hj hpj
      exact hleast j hj (by unfold heapParent at hpj; omega)
    rcases lt_or_ge c h.size with hcn | hcn
    · have below := hh.expireAt hcn
      rcases lt_or_ge (keys h.mem ts c) (keys h.mem ts idx) with hlt | hle
      · obtain ⟨h₂, ts₂, hdown, hs₂, ho₂⟩ :=
          percolateDown_spec (i := idx) (h.size + 1) hh (by omega) (by omega)
        refine ⟨h₂, ts₂, ?_, hs₂, fun ho hoff => ho₂ (hbelow ho hoff)⟩
        simp [adjustAt, here, above, hge.not_gt, hc, hcn, below, hlt, hdown]
      · refine ⟨h, ts, ?_, .refl hh, fun ho hoff => (hbelow ho hoff).ordered fun j hj hjn hpj =>
          hle.trans (hchild j hj hjn hpj)⟩
        simp [adjustAt, here, above, hge.not_gt, hc, hcn, below, hle.not_gt]
    · refine ⟨h, ts, ?_, .refl hh, fun ho hoff => (hbelow ho hoff).ordered ?_⟩
      · simp [adjustAt, here, above, hge.not_gt, hc, hcn.not_gt]
      · intro j hj hjn hpj
        unfold heapParent at hpj
        omega

/-- `adjust_timer` of a stored timer whose key was replaced. -/
theorem Holds.adjustTimer (hh : h.Holds ts) (ht : t ∈ ts) (key : ℕ → ℤ) (now : ℤ) :
    ∃ h' ts', h.adjustTimer now (some t) = some h' ∧ h'.Holds ts' ∧ ts'.Perm ts ∧ h'.mem = h.mem ∧
      h'.alrmBlocked = h.alrmBlocked ∧ (Ordered heapParent key h.size →
        (∀ j, j < h.size → j ≠ h.getIdx t → keys h.mem ts j = key j) →
        Ordered heapParent (keys h'.mem ts') h'.size) := by
  obtain ⟨hlt, hget⟩ := getIdx_of_mem hh.toStores ht
  obtain ⟨h₁, ts₁, hadj, hs₁, ho₁⟩ := adjustAt_spec key hh hlt
  obtain ⟨a, ha⟩ := resetTimer_spec hs₁.holds now
  refine ⟨{ h₁ with alarm := a }, ts₁, ?_, hs₁.holds.setAlarm a h₁.alrmBlocked, hs₁.perm, hs₁.mem_eq,
    ?_, ho₁⟩
  · simp [TimerHeap.adjustTimer, hlt.ne, hadj, ha]
  · show h₁.alrmBlocked = h.alrmBlocked
    rw [hs₁.frame]

/-- `setExpire` of a stored timer keeps what is stored. -/
theorem Holds.setExpire (hh : h.Holds ts) (t : Ptr) (e : ℤ) : (h.setExpire t e).Holds ts where
  room := hh.room
  pos := hh.pos
  size := hh.size
  stored := hh.stored
  alive := by
    intro u hu
    rcases eq_or_ne u t with rfl | hne
    · exact ⟨⟨e⟩, by simp [TimerHeap.setExpire]⟩
    · simpa [TimerHeap.setExpire, Function.update_of_ne hne] using hh.alive u hu

/-- `setExpire(e)` of a stored timer followed by `adjust_timer` stores the same timers. -/
theorem adjustTimer_spec (hr : h.Rep ts) (ht : t ∈ ts) (e now : ℤ) :
    ∃ h' ts', (h.setExpire t e).adjustTimer now (some t) = some h' ∧ h'.Rep ts' ∧ ts'.Perm ts ∧
      h'.mem = Function.update h.mem t (some ⟨e⟩) ∧ h'.alrmBlocked = h.alrmBlocked := by
  have hh := hr.toHolds.setExpire t e
  obtain ⟨h', ts', hrun, hh', hperm, hmem, hb, ho⟩ := hh.adjustTimer ht (keys h.mem ts) now
  have hget := (getIdx_of_mem hh.toStores ht).2
  have hord := ho hr.ordered fun j _ hne => keys_update_of_ne hr.nodup hget hne _
  exact ⟨h', ts', hrun, ⟨hh', hperm.nodup_iff.mpr hr.nodup, hord⟩, hperm, hmem, hb⟩

/-! ## `del_timer` -/

/-- Moving the last element of a list to position `i` and dropping the last position removes the
element that was at `i`. -/
theorem perm_set_last_take {α : Type} {l : List α} {i n : ℕ} {a b : α} (hn : l.length = n + 1)
    (hi : l[i]? = some a) (hl : l[n]? = some b) : (a :: (l.set i b).take n).Perm l := by
  obtain ⟨hilt, rfl⟩ := List.getElem?_eq_some_iff.mp hi
  obtain ⟨hnlt, rfl⟩ := List.getElem?_eq_some_iff.mp hl
  have hperm : ((l.set i l[n]).set n l[i]).Perm l := List.set_set_perm hilt hnlt
  have hlast : (l.set i l[n]).set n l[i] = (l.set i l[n]).take n ++ [l[i]] := by
    rw [List.set_eq_take_append_cons_drop, if_pos (by simpa using hnlt), List.drop_of_length_le]
    simp [hn]
  rw [hlast] at hperm
  exact (List.perm_append_singleton _ _).symm.trans hperm

/-- `slots[idx] = slots[--size]; slots[size] = nullptr;` removes the timer at `idx`: the last one
takes its place, and the others keep theirs. -/
theorem Stores.moveLast (hs : h.Stores ts) {idx : ℕ} (hi : ts[idx]? = some t) :
    ∃ h₁ ts₁, h.moveLast idx = some h₁ ∧
      h₁ = { h with size := h.size - 1, slots := h₁.slots } ∧ h₁.Stores ts₁ ∧
      (t :: ts₁).Perm ts ∧ (h₁.slots[h₁.size]? = some none) ∧
      (∀ j, j < h.size - 1 → j ≠ idx → ts₁[j]? = ts[j]?) := by
  have hilt : idx < h.size := hs.size ▸ (List.getElem?_eq_some_iff.mp hi).1
  obtain ⟨u, hu, hslot⟩ := hs.slot (i := h.size - 1) (by omega)
  have hlen : h.size ≤ h.slots.length := hs.room ▸ hs.size_le
  refine ⟨{ h with size := h.size - 1,
                   slots := (h.slots.set idx (some u)).set (h.size - 1) none },
    (ts.set idx u).take (h.size - 1), ?_, rfl, ⟨by simpa using hs.room, hs.pos, ?_, ?_⟩,
    perm_set_last_take (by rw [hs.size]; omega) hi hu, ?_, ?_⟩
  · have h1 : idx < h.slots.length := by omega
    have h2 : h.size - 1 < h.slots.length := by omega
    simp only [TimerHeap.moveLast, hslot, setSlot, h1, h2, if_true, Option.bind_eq_bind,
      Option.bind_some, List.length_set]
  · simp [hs.size]
  · show ((h.slots.set idx (some u)).set (h.size - 1) none).take (h.size - 1) = _
    rw [List.take_set_of_le le_rfl, List.map_take, List.map_set, ← hs.stored, ← List.take_set,
      List.take_take, min_eq_left (by omega)]
  · show ((h.slots.set idx (some u)).set (h.size - 1) none)[h.size - 1]? = _
    rw [List.getElem?_set_self (by rw [List.length_set]; omega)]
  · intro j hj hne
    rw [List.getElem?_take_of_lt hj, List.getElem?_set_ne hne.symm]

/-- The removal in `del_timer` keeps the other timers, and a heap a heap. -/
theorem Holds.removeAt (hh : h.Holds ts) {idx : ℕ} (hi : ts[idx]? = some t) :
    ∃ h' ts', h.removeAt idx t = some h' ∧ h'.Holds ts' ∧ (t :: ts').Perm ts ∧ h'.mem = h.mem ∧
      (Ordered heapParent (keys h.mem ts) h.size →
        Ordered heapParent (keys h'.mem ts') h'.size) := by
  obtain ⟨h₁, ts₁, hmove, hframe, hs₁, hperm, hnull, hsame⟩ := hh.toStores.moveLast hi
  have hilt : idx < h.size := hh.size ▸ (List.getElem?_eq_some_iff.mp hi).1
  have hsize : h₁.size = h.size - 1 := by rw [hframe]
  have hmem : h₁.mem = h.mem := by rw [hframe]
  have hh₁ : h₁.Holds ts₁ :=
    ⟨hs₁, fun u hu => hmem ▸ hh.alive u (hperm.subset (List.mem_cons_of_mem _ hu))⟩
  have hoff : ∀ j, j < h₁.size → j ≠ idx → keys h₁.mem ts₁ j = keys h.mem ts j := by
    intro j hj hne
    rw [keys, keys, hsame j (by omega) hne, hmem]
  have hless : h₁.size ≤ h.size := by omega
  rcases lt_or_ge idx h₁.size with hin | hlast
  · obtain ⟨u, -, hslot⟩ := hs₁.slot hin
    have here := hh₁.expireAt hin
    obtain ⟨timer, htimer⟩ := hh.alive t (List.mem_of_getElem? hi)
    have hkey : timer.expire = keys h.mem ts idx := by
      simp [keys_of_getElem? hi, expiry, htimer]
    rw [← hmem] at htimer
    rcases lt_or_ge (keys h₁.mem ts₁ idx) timer.expire with hlt | hge
    · obtain ⟨h₂, ts₂, hup, hs₂, ho₂⟩ := percolateUp_spec hh₁ hin (Nat.lt_succ_self idx)
      refine ⟨h₂, ts₂, ?_, hs₂.holds, (hs₂.perm.cons t).trans hperm, hs₂.mem_eq.trans hmem,
        fun ho => ho₂ ?_⟩
      · simp [TimerHeap.removeAt, hmove, hslot, here, htimer, hlt, hup]
      · refine (ho.mono hless).saveAbove heapParent_lt hin hoff ?_
        intro j hj hjn hpj
        have hle := ho.mono hless j hj hjn
        rw [hpj, ← hkey] at hle
        exact hlt.le.trans hle
    · obtain ⟨h₂, ts₂, hdown, hs₂, ho₂⟩ :=
        percolateDown_spec (i := idx) (h₁.size + 1) hh₁ (by omega) (by omega)
      refine ⟨h₂, ts₂, ?_, hs₂.holds, (hs₂.perm.cons t).trans hperm, hs₂.mem_eq.trans hmem,
        fun ho => ho₂ ?_⟩
      · simp [TimerHeap.removeAt, hmove, hslot, here, htimer, hge.not_gt, hdown]
      · exact (ho.mono hless).saveBelow heapParent_lt hin hoff fun hpos =>
          (ho idx hpos hilt).trans (hkey ▸ hge)
  · -- the last timer is the one removed: nothing moved, and its entry is null
    have heq : idx = h₁.size := by omega
    refine ⟨h₁, ts₁, ?_, hh₁, hperm, hmem, ?_⟩
    · subst heq
      simp [TimerHeap.removeAt, hmove, hnull]
    · intro ho
      exact (ho.mono hless).congr heapParent_lt fun j hj => hoff j hj (by omega)

/-- The removal in `del_timer` keeps a heap of the other timers. -/
theorem removeAt_spec (hr : h.Rep ts) {idx : ℕ} (hi : ts[idx]? = some t) :
    ∃ h' ts', h.removeAt idx t = some h' ∧ h'.Rep ts' ∧ (t :: ts').Perm ts ∧ h'.mem = h.mem := by
  obtain ⟨h', ts', hrun, hh', hperm, hmem, ho⟩ := hr.toHolds.removeAt hi
  have hnd := (List.nodup_cons.mp (hperm.nodup_iff.mpr hr.nodup)).2
  exact ⟨h', ts', hrun, ⟨hh', hnd, ho hr.ordered⟩, hperm, hmem⟩

/-- `del_timer` of a stored timer, and `SIGALRM` is unblocked. -/
theorem Holds.delTimer (hh : h.Holds ts) (ht : t ∈ ts) (now : ℤ) :
    ∃ h' ts', h.delTimer now (some t) = some h' ∧ h'.Holds ts' ∧ (t :: ts').Perm ts ∧
      h'.mem = h.mem ∧ h'.alrmBlocked = false ∧ (Ordered heapParent (keys h.mem ts) h.size →
        Ordered heapParent (keys h'.mem ts') h'.size) := by
  have hb : h.blockAlarm.Holds ts := hh.setAlarm h.alarm true
  obtain ⟨hlt, hget⟩ := getIdx_of_mem hb.toStores ht
  obtain ⟨h₁, ts₁, hrem, hh₁, hperm, hmem, ho⟩ := hb.removeAt hget
  obtain ⟨a, ha⟩ := resetTimer_spec hh₁ now
  obtain ⟨timer, htimer⟩ := hh.alive t ht
  have hne : h.size ≠ 0 := by
    have : h.blockAlarm.size = h.size := rfl
    omega
  refine ⟨unblockAlarm { h₁ with alarm := a }, ts₁, ?_, hh₁.setAlarm a false, hperm, hmem, rfl, ho⟩
  have htimer₁ : h₁.mem t = some timer := by rw [hmem]; exact htimer
  simp [TimerHeap.delTimer, hne, hlt.ne, hrem, ha, htimer₁]

/-- `del_timer` of a stored timer removes it from the heap. -/
theorem delTimer_spec (hr : h.Rep ts) (ht : t ∈ ts) (now : ℤ) :
    ∃ h' ts', h.delTimer now (some t) = some h' ∧ h'.Rep ts' ∧ (t :: ts').Perm ts ∧
      h'.mem = h.mem ∧ h'.alrmBlocked = false := by
  obtain ⟨h', ts', hrun, hh', hperm, hmem, hb, ho⟩ := hr.toHolds.delTimer ht now
  have hnd := (List.nodup_cons.mp (hperm.nodup_iff.mpr hr.nodup)).2
  exact ⟨h', ts', hrun, ⟨hh', hnd, ho hr.ordered⟩, hperm, hmem, hb⟩

/-! ## `tick` -/

/-- No stored timer expires before the root. -/
theorem Rep.root_le (hr : h.Rep ts) {cur u : Ptr} (h0 : ts[0]? = some cur) (hu : u ∈ ts) :
    expiry h.mem cur ≤ expiry h.mem u := by
  obtain ⟨i, hi⟩ := List.getElem?_of_mem hu
  have hlt : i < h.size := hr.size ▸ (List.getElem?_eq_some_iff.mp hi).1
  have hle := hr.ordered.root_le heapParent_lt hlt
  rwa [keys_of_getElem? h0, keys_of_getElem? hi] at hle

/-- What the loop of `tick` does: it fires, earliest first, the timers that have expired at `now`,
frees them and no others, and keeps the rest. -/
structure Ticked (now : ℤ) (h h' : TimerHeap) (ts ts' fired : List Ptr) : Prop where
  rep : h'.Rep ts'
  perm : (fired ++ ts').Perm ts
  due : ∀ t ∈ fired, expiry h.mem t ≤ now
  later : ∀ t ∈ ts', now < expiry h.mem t
  sorted : fired.Pairwise fun t u => expiry h.mem t ≤ expiry h.mem u
  mem_eq : ∀ t, t ∉ fired → h'.mem t = h.mem t
  blocked : h'.alrmBlocked = h.alrmBlocked

/-- Removing the expired root leaves the heap of the other timers. -/
theorem popRoot_spec (hr : h.Rep ts) {cur : Ptr} (h0 : ts[0]? = some cur) :
    ∃ h₁ h₂ ts₂, moveLast 0 { h with mem := Function.update h.mem cur none } = some h₁ ∧
      percolateDown (h₁.size + 1) 0 h₁ = some h₂ ∧ h₂.Rep ts₂ ∧ (cur :: ts₂).Perm ts ∧
      h₂.mem = Function.update h.mem cur none ∧ h₂.size = h.size - 1 ∧
      h₂.alrmBlocked = h.alrmBlocked := by
  have hs : Stores { h with mem := Function.update h.mem cur none } ts :=
    ⟨hr.room, hr.pos, hr.size, hr.stored⟩
  obtain ⟨h₁, ts₁, hmove, hframe, hs₁, hperm, -, hsame⟩ := hs.moveLast h0
  have hmem : h₁.mem = Function.update h.mem cur none := by rw [hframe]
  have hsize : h₁.size = h.size - 1 := by rw [hframe]
  obtain ⟨hcur, hnd⟩ := List.nodup_cons.mp (hperm.nodup_iff.mpr hr.nodup)
  have hh₁ : h₁.Holds ts₁ := by
    refine ⟨hs₁, ?_⟩
    intro u hu
    have hne : u ≠ cur := fun e => hcur (e ▸ hu)
    rw [hmem, Function.update_of_ne hne]
    exact hr.alive u (hperm.subset (List.mem_cons_of_mem _ hu))
  have hkeys : keys h₁.mem ts₁ = keys h.mem ts₁ := by rw [hmem, keys_update hcur]
  have ho₁ : SaveBelow heapParent (keys h₁.mem ts₁) h₁.size 0 := by
    have ho := hr.ordered.mono (m := h₁.size) (by omega)
    rcases Nat.eq_zero_or_pos h₁.size with hz | hpos
    · rw [hz]
      exact ⟨by omega, by omega⟩
    · refine ho.saveBelow heapParent_lt hpos ?_ (by omega)
      intro j hj hne
      rw [hkeys, keys, keys, hsame j (by rw [← hsize]; exact hj) hne]
  obtain ⟨h₂, ts₂, hdown, hs₂, ho₂⟩ :=
    percolateDown_spec (i := 0) (h₁.size + 1) hh₁ (by omega) (by omega)
  refine ⟨h₁, h₂, ts₂, hmove, hdown, hs₂.rep hnd (ho₂ ho₁), (hs₂.perm.cons cur).trans hperm,
    hs₂.mem_eq.trans hmem, hs₂.size_eq.trans hsize, ?_⟩
  rw [hs₂.frame]
  show h₁.alrmBlocked = _
  rw [hframe]

/-- One pass of the loop before the others: an expired root, then what they do to the rest. -/
theorem Ticked.cons {h₂ : TimerHeap} {ts₂ fired : List Ptr} {cur : Ptr} (hr : h.Rep ts)
    (h0 : ts[0]? = some cur) (hdue : expiry h.mem cur ≤ now) (hperm : (cur :: ts₂).Perm ts)
    (hmem : h₂.mem = Function.update h.mem cur none) (hb : h₂.alrmBlocked = h.alrmBlocked)
    (ht : Ticked now h₂ h' ts₂ ts' fired) : Ticked now h h' ts ts' (cur :: fired) := by
  have hcur := (List.nodup_cons.mp (hperm.nodup_iff.mpr hr.nodup)).1
  have hexp : ∀ u ∈ ts₂, expiry h₂.mem u = expiry h.mem u := by
    intro u hu
    have hne : u ≠ cur := fun e => hcur (e ▸ hu)
    simp [expiry, hmem, Function.update_of_ne hne]
  have hfired : ∀ u ∈ fired, u ∈ ts₂ := fun u hu =>
    ht.perm.subset (List.mem_append_left _ hu)
  refine ⟨ht.rep, (ht.perm.cons cur).trans hperm, ?_, ?_, ?_, ?_, ht.blocked.trans hb⟩
  · intro u hu
    rcases List.mem_cons.mp hu with rfl | hu
    · exact hdue
    · exact hexp u (hfired u hu) ▸ ht.due u hu
  · intro u hu
    exact hexp u (ht.perm.subset (List.mem_append_right _ hu)) ▸ ht.later u hu
  · refine List.pairwise_cons.mpr ⟨?_, ?_⟩
    · intro u hu
      exact hr.root_le h0 (hperm.subset (List.mem_cons_of_mem _ (hfired u hu)))
    · refine ht.sorted.imp_of_mem ?_
      intro u v hu hv hle
      rwa [hexp u (hfired u hu), hexp v (hfired v hv)] at hle
  · intro u hu
    rw [ht.mem_eq u fun hm => hu (List.mem_cons_of_mem _ hm), hmem,
      Function.update_of_ne fun e => hu (by rw [e]; exact List.mem_cons_self)]

/-- The loop of `tick` ends, and does what `Ticked` says. -/
theorem tickLoop_spec {fuel : ℕ} (hr : h.Rep ts) (now : ℤ) (hf : h.size < fuel) :
    ∃ h' fired ts', tickLoop now fuel h = some (h', fired) ∧ Ticked now h h' ts ts' fired := by
  induction fuel generalizing h ts with
  | zero => omega
  | succ fuel ih =>
    rcases Nat.eq_zero_or_pos h.size with hz | hpos
    · have hnil : ts = [] := List.eq_nil_of_length_eq_zero (hr.size.trans hz)
      subst hnil
      exact ⟨h, [], [], by simp [tickLoop, hz], hr, by simp, by simp, by simp, .nil, by simp, rfl⟩
    obtain ⟨cur, h0, hslot⟩ := hr.slot hpos
    obtain ⟨timer, htimer⟩ := hr.alive cur (List.mem_of_getElem? h0)
    have hexp : expiry h.mem cur = timer.expire := by simp [expiry, htimer]
    rcases le_or_gt timer.expire now with hle | hgt
    · rcases eq_or_ne h.size 1 with h1 | h1
      · -- the shortcut for a single timer: its entry keeps a dangling pointer, above `size`
        obtain ⟨a, rfl⟩ := List.length_eq_one_iff.mp (hr.size.trans h1)
        obtain rfl : a = cur := by simpa using h0
        refine ⟨{ h with mem := Function.update h.mem a none, size := 0 }, [a], [], ?_, ?_⟩
        · simp [tickLoop, h1, hslot, htimer, hle]
        · refine ⟨⟨⟨⟨hr.room, hr.pos, rfl, by simp⟩, by simp⟩, List.nodup_nil, ?_⟩, by simp, ?_,
            by simp, by simp, ?_, rfl⟩
          · intro i _ hi
            exact absurd hi (Nat.not_lt_zero i)
          · simpa [hexp] using hle
          · intro u hu
            exact Function.update_of_ne (by simpa using hu) _ _
      · obtain ⟨h₁, h₂, ts₂, hmove, hdown, hr₂, hperm, hmem, hsize, hb⟩ := popRoot_spec hr h0
        obtain ⟨h', fired, ts', hrun, ht⟩ := ih hr₂ (by omega)
        refine ⟨h', cur :: fired, ts', ?_, ht.cons hr h0 (hexp ▸ hle) hperm hmem hb⟩
        simp [tickLoop, hpos.ne', h1, hslot, htimer, hle, hmove, hdown, hrun]
    · refine ⟨h, [], ts, ?_, hr, by simp, by simp, ?_, .nil, by simp, rfl⟩
      · simp [tickLoop, hpos.ne', hslot, htimer, hgt.not_ge]
      · intro u hu
        exact lt_of_lt_of_le (hexp ▸ hgt) (hr.root_le h0 hu)

/-- `tick` fires the expired timers in order of expiry, each once, and keeps the others. -/
theorem tick_spec (hr : h.Rep ts) (now later : ℤ) :
    ∃ h' fired ts', h.tick now later = some (h', fired) ∧ Ticked now h h' ts ts' fired := by
  rcases Nat.eq_zero_or_pos h.size with hz | hpos
  · have hnil : ts = [] := List.eq_nil_of_length_eq_zero (hr.size.trans hz)
    subst hnil
    exact ⟨h, [], [], by simp [tick, hz], hr, by simp, by simp, by simp, .nil, by simp, rfl⟩
  obtain ⟨h₁, fired, ts', hrun, ht⟩ := tickLoop_spec hr now (Nat.lt_succ_self h.size)
  obtain ⟨a, ha⟩ := resetTimer_spec ht.rep.toHolds later
  refine ⟨{ h₁ with alarm := a }, fired, ts', ?_, ⟨ht.rep.setAlarm a h₁.alrmBlocked, ht.perm,
    ht.due, ht.later, ht.sorted, ht.mem_eq, ht.blocked⟩⟩
  simp [tick, hpos.ne', hrun, ha]

/-- In every heap and for every reading of the clock, `tick` ends; it fires exactly the stored timers with
`expire <= now`, each once and in order of expiry, and leaves a heap of exactly those that expire later,
each once and with its object as it was. -/
theorem tick_fires_expired (hr : h.Rep ts) (now later : ℤ) :
    ∃ h' fired ts', h.tick now later = some (h', fired) ∧ fired.Nodup ∧
      (∀ t, t ∈ fired ↔ t ∈ ts ∧ expiry h.mem t ≤ now) ∧
      (fired.Pairwise fun t u => expiry h.mem t ≤ expiry h.mem u) ∧ h'.Rep ts' ∧
      (∀ t, t ∈ ts' ↔ t ∈ ts ∧ now < expiry h.mem t) ∧ ∀ t ∈ ts', h'.mem t = h.mem t := by
  obtain ⟨h', fired, ts', hrun, ht⟩ := tick_spec hr now later
  obtain ⟨hfired, -, hdis⟩ := List.nodup_append'.mp (ht.perm.nodup_iff.mpr hr.nodup)
  have hsplit : ∀ t, t ∈ ts ↔ t ∈ fired ∨ t ∈ ts' := fun t => by
    rw [← ht.perm.mem_iff, List.mem_append]
  refine ⟨h', fired, ts', hrun, hfired, ?_, ht.sorted, ht.rep, ?_, ?_⟩
  · intro t
    rw [hsplit]
    refine ⟨fun hf => ⟨.inl hf, ht.due t hf⟩, fun ⟨hmem, hle⟩ => ?_⟩
    exact hmem.resolve_right fun hk => (ht.later t hk).not_ge hle
  · intro t
    rw [hsplit]
    refine ⟨fun hk => ⟨.inr hk, ht.later t hk⟩, fun ⟨hmem, hlt⟩ => ?_⟩
    exact hmem.resolve_left fun hf => (ht.due t hf).not_gt hlt
  · intro t hmem
    exact ht.mem_eq t fun hf => hdis hf hmem

/-- Two of three timers have expired. -/
theorem tick_fires_expired_three : ∃ (h h' : TimerHeap) (fired ts' : List Ptr),
    h.slots = [some 4, some 9, some 6] ∧ h.tick 20 20 = some (h', fired) ∧ h'.Rep ts' ∧
    (∀ t, t ∈ fired ↔ t ∈ [4, 9, 6] ∧ expiry h.mem t ≤ 20) ∧
    ∀ t, t ∈ ts' ↔ t ∈ [4, 9, 6] ∧ 20 < expiry h.mem t := by
  let mem : Store HpTimer := fun p =>
    if p = 4 then some ⟨10⟩ else if p = 9 then some ⟨20⟩ else if p = 6 then some ⟨30⟩ else none
  let h : TimerHeap := ⟨[some 4, some 9, some 6], 3, 3, mem, 0, false⟩
  have hr : h.Rep [4, 9, 6] := by
    refine ⟨⟨⟨rfl, by decide, rfl, rfl⟩, ?_⟩, by decide, ?_⟩
    · intro t ht
      simp only [List.mem_cons, List.not_mem_nil, or_false] at ht
      rcases ht with rfl | rfl | rfl <;> exact ⟨_, rfl⟩
    · intro i hpos hi
      have hcases : i = 1 ∨ i = 2 := by
        have : i < 3 := hi
        omega
      rcases hcases with rfl | rfl <;> decide
  obtain ⟨h', fired, ts', hrun, -, hfired, -, hr', hts', -⟩ := tick_fires_expired hr 20 20
  exact ⟨h, h', fired, ts', rfl, hrun, hr', hfired, hts'⟩

end TimerHeap

end Ulsp
