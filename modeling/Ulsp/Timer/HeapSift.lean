import Ulsp.Timer.Heap
import Ulsp.Lib.HeapOrder
import Mathlib.Data.List.Perm.Basic
import Mathlib.Data.List.Nodup

/-!
# The sifts of the time heap

`Holds h ts` says that the first `size` entries of the array are the timers `ts` (`Stores`), all of
them live objects. Over such a list the reads of the code are reads of `keys h.mem ts`, and the two
loops are sifts of the library's heap order under the parent function `i / 2`: each of them ends,
follows no null or freed pointer and permutes the stored timers, in whatever order they are, and leaves
a heap where one edge only was out of order (`percolateUp_spec`, `percolateDown_spec`). `Sifted` is what
such a loop may change.
-/

namespace Ulsp

open Lib.HeapOrder

/-- The parent of a position. -/
def heapParent (i : ℕ) : ℕ := i / 2

theorem heapParent_lt : ∀ i, 0 < i → heapParent i < i := fun i hi => by unfold heapParent; omega

/-- The `expire` of a timer object. -/
def expiry (mem : Store HpTimer) (t : Ptr) : ℤ := ((mem t).map HpTimer.expire).getD 0

/-- The `expire` of the timer at each position of `ts`. -/
def keys (mem : Store HpTimer) (ts : List Ptr) (i : ℕ) : ℤ := (ts[i]?.map (expiry mem)).getD 0

theorem keys_of_getElem? {mem : Store HpTimer} {ts : List Ptr} {i : ℕ} {t : Ptr}
    (h : ts[i]? = some t) : keys mem ts i = expiry mem t := by simp [keys, h]

namespace TimerHeap

/-- The array has `capacity` entries, and its first `size` are the timers `ts`. -/
structure Stores (h : TimerHeap) (ts : List Ptr) : Prop where
  room : h.slots.length = h.capacity
  pos : 0 < h.capacity
  size : ts.length = h.size
  stored : h.slots.take h.size = ts.map some

/-- The array stores the timers `ts`, which are live objects. -/
structure Holds (h : TimerHeap) (ts : List Ptr) : Prop extends Stores h ts where
  alive : ∀ t ∈ ts, ∃ timer, h.mem t = some timer

/-- `h'` holds a permutation of the timers of `h`, and differs from `h` in the array only. -/
structure Sifted (h h' : TimerHeap) (ts ts' : List Ptr) : Prop where
  frame : h' = { h with slots := h'.slots }
  holds : h'.Holds ts'
  perm : ts'.Perm ts

variable {h h' : TimerHeap} {ts ts' : List Ptr}

/-! ## Reads of the array -/

theorem Stores.size_le (hh : h.Stores ts) : h.size ≤ h.capacity := by
  have hlen := congrArg List.length hh.stored
  rw [List.length_take, List.length_map, hh.size, hh.room] at hlen
  omega

/-- A position below `size` holds a timer of `ts`. -/
theorem Stores.slot (hh : h.Stores ts) {i : ℕ} (hi : i < h.size) :
    ∃ t, ts[i]? = some t ∧ h.slots[i]? = some (some t) := by
  have hlt : i < ts.length := hh.size ▸ hi
  refine ⟨ts[i], List.getElem?_eq_getElem hlt, ?_⟩
  have hget := congrArg (fun l => l[i]?) hh.stored
  simpa [List.getElem?_take, hi, List.getElem?_eq_getElem hlt] using hget

/-- The read `slots[i]->expire` succeeds below `size`. -/
theorem Holds.expireAt (hh : h.Holds ts) {i : ℕ} (hi : i < h.size) :
    h.expireAt i = some (keys h.mem ts i) := by
  obtain ⟨t, ht, hslot⟩ := hh.slot hi
  obtain ⟨timer, htimer⟩ := hh.alive t (List.mem_of_getElem? ht)
  simp [TimerHeap.expireAt, hslot, keys, ht, expiry, htimer]

theorem Sifted.refl (hh : h.Holds ts) : Sifted h h ts ts := ⟨rfl, hh, List.Perm.refl _⟩

theorem Sifted.size_eq (hs : Sifted h h' ts ts') : h'.size = h.size := by rw [hs.frame]

theorem Sifted.mem_eq (hs : Sifted h h' ts ts') : h'.mem = h.mem := by rw [hs.frame]

theorem Sifted.trans {h'' : TimerHeap} {ts'' : List Ptr} (h₁ : Sifted h h' ts ts')
    (h₂ : Sifted h' h'' ts' ts'') : Sifted h h'' ts ts'' where
  frame := by rw [h₂.frame, h₁.frame]
  holds := h₂.holds
  perm := h₂.perm.trans h₁.perm

/-- Writing a live timer over a stored one. -/
theorem Holds.set (hh : h.Holds ts) (i : ℕ) {b : Ptr} (hb : ∃ timer, h.mem b = some timer) :
    Holds { h with slots := h.slots.set i (some b) } (ts.set i b) := by
  refine ⟨⟨by simpa using hh.room, hh.pos, by simpa using hh.size, ?_⟩, ?_⟩
  · simp [List.take_set, hh.stored, List.map_set]
  · intro u hu
    rcases List.mem_or_eq_of_mem_set hu with hu | rfl
    · exact hh.alive u hu
    · exact hb

/-- Writing an exchanged pair keeps the first `size` entries a list of timers. -/
theorem Holds.swapped (hh : h.Holds ts) {i j : ℕ} {a b : Ptr} (hi : ts[i]? = some a)
    (hj : ts[j]? = some b) :
    Sifted h { h with slots := (h.slots.set i (some b)).set j (some a) } ts
      ((ts.set i b).set j a) := by
  obtain ⟨hilt, rfl⟩ := List.getElem?_eq_some_iff.mp hi
  obtain ⟨hjlt, rfl⟩ := List.getElem?_eq_some_iff.mp hj
  have hperm : ((ts.set i ts[j]).set j ts[i]).Perm ts := List.set_set_perm hilt hjlt
  exact ⟨rfl, (hh.set i (hh.alive _ (List.getElem_mem hjlt))).set j
    (hh.alive _ (List.getElem_mem hilt)),
    hperm⟩

/-- `std::swap` of two stored pointers exchanges their keys. -/
theorem Holds.swapSlots (hh : h.Holds ts) {i j : ℕ} (hi : i < h.size) (hj : j < h.size)
    (hne : i ≠ j) : ∃ h' ts', h.swapSlots i j = some h' ∧ Sifted h h' ts ts' ∧
      Swapped (keys h.mem ts) (keys h'.mem ts') i j := by
  obtain ⟨a, ha, hsa⟩ := hh.slot hi
  obtain ⟨b, hb, hsb⟩ := hh.slot hj
  have hilt : i < ts.length := hh.size ▸ hi
  have hjlt : j < ts.length := hh.size ▸ hj
  refine ⟨_, _, by simp [TimerHeap.swapSlots, hsa, hsb], hh.swapped ha hb, ?_, ?_, ?_⟩
  · simp [keys, hne.symm, hilt, hb]
  · simp [keys, hjlt, ha]
  · intro k hki hkj
    simp [keys, hki.symm, hkj.symm]

/-! ## `percolate_up` -/

/-- `percolate_up` ends, and turns a heap but for the edge above `i` into a heap. -/
theorem percolateUp_spec {fuel i : ℕ} (hh : h.Holds ts) (hi : i < h.size) (hf : i < fuel) :
    ∃ h' ts', percolateUp fuel i h = some h' ∧ Sifted h h' ts ts' ∧
      (SaveAbove heapParent (keys h.mem ts) h.size i →
        Ordered heapParent (keys h'.mem ts') h'.size) := by
  induction fuel generalizing h ts i with
  | zero => omega
  | succ fuel ih =>
    rcases Nat.eq_zero_or_pos i with rfl | hpos
    · exact ⟨h, ts, by simp [percolateUp], .refl hh, fun ho => ho.ordered (by omega)⟩
    have hpi : i / 2 < i := heapParent_lt i hpos
    have here := hh.expireAt hi
    have above := hh.expireAt (i := i / 2) (by omega)
    rcases lt_or_ge (keys h.mem ts i) (keys h.mem ts (i / 2)) with hlt | hge
    · obtain ⟨h₁, ts₁, hswap, hs, hk⟩ := hh.swapSlots hi (j := i / 2) (by omega) (by omega)
      obtain ⟨h₂, ts₂, hrun, hs₂, ho₂⟩ :=
        ih (i := heapParent i) hs.holds (by rw [hs.size_eq]; unfold heapParent; omega)
          (by unfold heapParent; omega)
      refine ⟨h₂, ts₂, ?_, hs.trans hs₂, fun ho => ho₂ ?_⟩
      · simpa [percolateUp, hpos, here, above, hlt, hswap, heapParent] using hrun
      · rw [hs.size_eq]
        exact ho.swap heapParent_lt hpos hi hlt hk
    · refine ⟨h, ts, ?_, .refl hh, fun ho => ho.ordered fun _ => hge⟩
      simp [percolateUp, hpos, here, above, hge.not_gt]

/-! ## `percolate_down` -/

/-- `++child` selects a child with the least key, when position `i` has one. At the root `2 * i`
is the root itself. -/
theorem lesserChild_spec (hh : h.Holds ts) (i : ℕ) :
    ∃ c, h.lesserChild (i * 2) = some c ∧ (c = i * 2 ∨ c = i * 2 + 1 ∧ i * 2 + 1 < h.size) ∧
      ∀ j, j < h.size → (j = i * 2 ∨ j = i * 2 + 1) → keys h.mem ts c ≤ keys h.mem ts j := by
  unfold lesserChild
  split
  · rename_i hr
    rw [hh.expireAt hr, hh.expireAt (by omega)]
    rcases lt_or_ge (keys h.mem ts (i * 2 + 1)) (keys h.mem ts (i * 2)) with hlt | hge
    · refine ⟨i * 2 + 1, by simp [hlt], .inr ⟨rfl, hr⟩, ?_⟩
      rintro j - (rfl | rfl)
      exacts [hlt.le, le_rfl]
    · refine ⟨i * 2, by simp [hge], .inl rfl, ?_⟩
      rintro j - (rfl | rfl)
      exacts [le_rfl, hge]
  · refine ⟨i * 2, rfl, .inl rfl, ?_⟩
    rintro j hj (rfl | rfl)
    exacts [le_rfl, by omega]

/-- `percolate_down` ends, and turns a heap but for the edges below `i` into a heap. -/
theorem percolateDown_spec (fuel : ℕ) {i : ℕ} (hh : h.Holds ts) (hf : h.size < fuel + i)
    (h0 : 0 < fuel) : ∃ h' ts', percolateDown fuel i h = some h' ∧ Sifted h h' ts ts' ∧
      (SaveBelow heapParent (keys h.mem ts) h.size i →
        Ordered heapParent (keys h'.mem ts') h'.size) := by
  induction fuel generalizing h ts i with
  | zero => omega
  | succ fuel ih =>
    rcases lt_or_ge (i * 2) h.size with hin | hout
    · obtain ⟨c, hc, hcase, hleast⟩ := lesserChild_spec hh i
      have hcn : c < h.size := by omega
      have hchild : ∀ j, 0 < j → j < h.size → heapParent j = i →
          keys h.mem ts c ≤ keys h.mem ts j := by
        intro j _ hj hpj
        exact hleast j hj (by unfold heapParent at hpj; omega)
      rcases lt_or_ge (keys h.mem ts c) (keys h.mem ts i) with hlt | hge
      · have hne : i ≠ c := by rintro rfl; exact lt_irrefl _ hlt
        obtain ⟨h₁, ts₁, hswap, hs, hk⟩ := hh.swapSlots (i := i) (by omega) hcn hne
        obtain ⟨h₂, ts₂, hrun, hs₂, ho₂⟩ :=
          ih (i := c) hs.holds (by rw [hs.size_eq]; omega) (by omega)
        refine ⟨h₂, ts₂, ?_, hs.trans hs₂, fun ho => ho₂ ?_⟩
        · simpa [percolateDown, hin, hc, hh.expireAt hcn, hh.expireAt (i := i) (by omega), hlt,
            hswap] using hrun
        · rw [hs.size_eq]
          exact ho.swap heapParent_lt (by omega) hcn (by unfold heapParent; omega) hlt hchild hk
      · refine ⟨h, ts, ?_, .refl hh, fun ho => ho.ordered fun j hj hjn hpj =>
          hge.trans (hchild j hj hjn hpj)⟩
        simp [percolateDown, hin, hc, hh.expireAt hcn, hh.expireAt (i := i) (by omega), hge]
    · refine ⟨h, ts, by simp [percolateDown, hout.not_gt], .refl hh, fun ho => ho.ordered ?_⟩
      intro j hj hjn hpj
      unfold heapParent at hpj
      omega

end TimerHeap

end Ulsp
