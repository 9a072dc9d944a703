import Ulsp.Timer.HeapAlarm
import Ulsp.Timer.HeapOps

/-!
# The time heap is safe against harmless ticks

Every head of the operations' code has an assertion (`HeapPc.Inv`), and the code between two heads is
safe from it, in the sense of `Prog.Safe`: with any harmless tick before each action. During
`adjust_timer` the heap is out of order, and a harmless tick fires nothing and changes the alarm only,
so the code is proved safe whatever the alarm (`Quiet`); elsewhere a tick fires timers and leaves a
heap (`settled_tick`). `heap_alarm_safe` is the result over runs. A tick that is not harmless makes
`adjust_timer` follow a null pointer in `heap_alarm_null`.
-/

namespace Ulsp

open Lib Lib.HeapOrder

namespace HeapLog

/-- The heap stores the timers `ts`, none twice: they are the live ones, and with those fired and those
deleted they are the ones added. -/
structure Stored (s : HeapLog) (ts : List Ptr) : Prop where
  holds : s.heap.Holds ts
  nodup : ts.Nodup
  live : ts.toFinset = s.live
  added : s.added.Perm (s.fired ++ s.deleted ++ ts)

/-- The heap stores the live timers, in heap order. -/
def Settled (s : HeapLog) : Prop :=
  ∃ ts, s.Stored ts ∧ Ordered heapParent (keys s.heap.mem ts) s.heap.size

/-- The pending alarm is set. -/
def setAlarm (a : ℕ) (s : HeapLog) : HeapLog := { s with heap := { s.heap with alarm := a } }

variable {s : HeapLog} {ts ts' : List Ptr} {t : Ptr} {a : ℕ} {clock : ℤ × ℤ}

/-- The live timers are the stored ones. -/
theorem Stored.mem_live (hs : s.Stored ts) : t ∈ s.live ↔ t ∈ ts := by
  rw [← hs.live, List.mem_toFinset]

/-- A heap whose contents are in heap order represents its timers. -/
theorem Stored.rep (hs : s.Stored ts) (ho : Ordered heapParent (keys s.heap.mem ts) s.heap.size) :
    s.heap.Rep ts :=
  ⟨hs.holds, hs.nodup, ho⟩

/-- What is stored does not depend on the alarm. -/
theorem Stored.setAlarm (hs : s.Stored ts) (a : ℕ) : (s.setAlarm a).Stored ts where
  holds := hs.holds.setAlarm a s.heap.alrmBlocked
  nodup := hs.nodup
  live := hs.live
  added := hs.added

/-- Nor does it matter to a settled heap. -/
theorem Settled.setAlarm (hs : s.Settled) (a : ℕ) : (s.setAlarm a).Settled := by
  obtain ⟨ts, hst, ho⟩ := hs
  exact ⟨ts, hst.setAlarm a, ho⟩

/-- A sift keeps what is stored. -/
theorem Stored.sifted (hs : s.Stored ts) {heap : TimerHeap}
    (h : TimerHeap.Sifted s.heap heap ts ts') : Stored { s with heap } ts' where
  holds := h.holds
  nodup := h.perm.nodup_iff.mpr hs.nodup
  live := (List.toFinset_eq_of_perm _ _ h.perm).trans hs.live
  added := hs.added.trans (h.perm.symm.append_left _)

/-! ## Ticks -/

/-- A tick on a settled heap completes and leaves one: it leaves the timers that have not expired, and
does not touch the objects of those that are not stored. -/
theorem settled_tick (hs : s.Settled) (clock : ℤ × ℤ) : ∃ s', s.tick clock = some s' ∧ s'.Settled ∧
    (∀ t ∈ s.live, (∀ timer, s.heap.mem t = some timer → clock.1 < timer.expire) → t ∈ s'.live) ∧
    ∀ t ∉ s.live, t ∉ s'.live ∧ s'.heap.mem t = s.heap.mem t := by
  obtain ⟨ts, hst, ho⟩ := hs
  obtain ⟨h', fired, ts', hrun, ht⟩ := TimerHeap.tick_spec (hst.rep ho) clock.1 clock.2
  have hsplit := List.nodup_append'.mp (ht.perm.nodup_iff.mpr hst.nodup)
  have hstored : Stored { s with
      heap := h', live := s.live \ fired.toFinset, fired := s.fired ++ fired } ts' := by
    refine ⟨ht.rep.toHolds, ht.rep.nodup, ?_, ?_⟩
    · rw [toFinset_rest ht.perm hst.nodup, hst.live]
    · -- the timers fired pass from those stored to those fired
      have hswap : (s.deleted ++ (fired ++ ts')).Perm (fired ++ (s.deleted ++ ts')) := by
        rw [← List.append_assoc, ← List.append_assoc]
        exact List.perm_append_comm.append_right ts'
      have hadded := hst.added.trans ((ht.perm.symm.append_left _))
      simp only [List.append_assoc] at hadded ⊢
      exact hadded.trans (hswap.append_left _)
  refine ⟨_, by simp [HeapLog.tick, hrun], ⟨ts', hstored, ht.rep.ordered⟩, ?_,
    fun u hu => ⟨fun hu' => hu (Finset.mem_sdiff.mp hu').1, ht.mem_eq u fun hf => hu ?_⟩⟩
  · intro u hu hlate
    obtain ⟨timer, htimer⟩ := hst.holds.alive u (hst.mem_live.mp hu)
    refine Finset.mem_sdiff.mpr ⟨hu, ?_⟩
    intro hf
    have hdue := ht.due u (List.mem_toFinset.mp hf)
    have := hlate timer htimer
    rw [expiry, htimer] at hdue
    simp only [Option.map_some, Option.getD_some] at hdue
    omega
  · exact hst.mem_live.mpr (ht.perm.subset (List.mem_append_left _ hf))

/-- A tick that finds the root not expired changes the alarm only. -/
theorem quiet_tick (hh : s.heap.Holds ts) (hq : HeapPoint.Harmless clock.1 s.heap .adjust) :
    ∃ a, s.tick clock = some (s.setAlarm a) := by
  rcases Nat.eq_zero_or_pos s.heap.size with hz | hpos
  · have htick : s.heap.tick clock.1 clock.2 = some (s.heap, []) := by simp [TimerHeap.tick, hz]
    exact ⟨s.heap.alarm, by simp [HeapLog.tick, htick, setAlarm]⟩
  · obtain ⟨t, ht, hslot⟩ := hh.slot hpos
    obtain ⟨timer, htimer⟩ := hh.alive t (List.mem_of_getElem? ht)
    have hexp : s.heap.expireAt 0 = some timer.expire := by
      simp [TimerHeap.expireAt, hslot, htimer]
    have hlate : ¬ timer.expire ≤ clock.1 := by
      rcases hq with hz | hq
      · omega
      · have := hq _ hexp
        omega
    obtain ⟨a, ha⟩ := TimerHeap.resetTimer_spec hh clock.2
    refine ⟨a, ?_⟩
    simp [HeapLog.tick, TimerHeap.tick, TimerHeap.tickLoop, hpos.ne', hslot, htimer, hlate, ha,
      setAlarm]

end HeapLog

/-! ## The assertions -/

/-- The heap stores `ts`, in which `t` is at `idx` with its expiry changed: the other positions have
the keys of a heap. -/
structure HeapLog.Unsettled (s : HeapLog) (t : Ptr) (ts : List Ptr) (idx : ℕ) : Prop where
  stored : s.Stored ts
  found : ts[idx]? = some t
  order : ∃ key : ℕ → ℤ, Ordered heapParent key s.heap.size ∧
    ∀ j, j < s.heap.size → j ≠ idx → keys s.heap.mem ts j = key j

/-- The heap is settled, and `t` is a timer object that it does not store. -/
def HeapLog.Outside (s : HeapLog) (t : Ptr) : Prop :=
  s.Settled ∧ t ∉ s.live ∧ ∃ timer, s.heap.mem t = some timer

/-- What holds of the heap at each head of the code. -/
def HeapPc.Inv : HeapPc → HeapLog → Prop
  | .idle, s => s.Settled
  | .add t, s => s.Outside t
  | .del t, s => s.Settled ∧ t ∈ s.live
  | .adjust t, s => ∃ ts idx, s.Unsettled t ts idx
  | .getIdx t i, s => ∃ ts idx, s.Unsettled t ts idx ∧ i ≤ idx
  | .adjustAt idx, s => ∃ t ts, s.Unsettled t ts idx
  | .percolateUp i, s => ∃ ts, s.Stored ts ∧
    SaveAbove heapParent (keys s.heap.mem ts) s.heap.size i ∧ 0 < i ∧ i < s.heap.size
  | .percolateDown i, s => ∃ ts, s.Stored ts ∧
    SaveBelow heapParent (keys s.heap.mem ts) s.heap.size i
  | .resetTimer, s => s.Settled

/-- A tick that is harmless at a point. -/
abbrev HeapPoint.ok (p : HeapPoint) (clock : ℤ × ℤ) (s : HeapLog) : Prop :=
  p.Harmless clock.1 s.heap

/-- The program goes through to a head whose assertion holds, with any harmless ticks. -/
abbrev HeapProg.Safe (prog : HeapProg HeapPc) (s : HeapLog) : Prop :=
  Prog.Safe HeapLog.tick HeapPoint.ok HeapPc.Inv prog s

/-- The program is safe whatever the alarm. -/
def HeapProg.Quiet (prog : HeapProg HeapPc) (s : HeapLog) : Prop :=
  ∀ a, HeapProg.Safe prog (s.setAlarm a)

namespace HeapProg

variable {s s' : HeapLog} {ts : List Ptr} {t : Ptr} {i j : ℕ} {l : HeapPc} {β : Type}

/-- A quiet program is safe with the alarm that is pending. -/
theorem Quiet.safe {prog : HeapProg HeapPc} (h : Quiet prog s) : Safe prog s := h s.heap.alarm

/-- The assertions do not depend on the alarm. -/
theorem inv_setAlarm (h : l.Inv s) (a : ℕ) : l.Inv (s.setAlarm a) := by
  have hun : ∀ {t ts idx}, s.Unsettled t ts idx → (s.setAlarm a).Unsettled t ts idx :=
    fun hu => ⟨hu.stored.setAlarm a, hu.found, hu.order⟩
  cases l with
  | idle => exact h.setAlarm a
  | add t => exact ⟨h.1.setAlarm a, h.2⟩
  | del t => exact ⟨h.1.setAlarm a, h.2⟩
  | adjust t =>
    obtain ⟨ts, idx, hu⟩ := h
    exact ⟨ts, idx, hun hu⟩
  | getIdx t i =>
    obtain ⟨ts, idx, hu, hi⟩ := h
    exact ⟨ts, idx, hun hu, hi⟩
  | adjustAt idx =>
    obtain ⟨t, ts, hu⟩ := h
    exact ⟨t, ts, hun hu⟩
  | percolateUp i =>
    obtain ⟨ts, hst, h⟩ := h
    exact ⟨ts, hst.setAlarm a, h⟩
  | percolateDown i =>
    obtain ⟨ts, hst, h⟩ := h
    exact ⟨ts, hst.setAlarm a, h⟩
  | resetTimer => exact h.setAlarm a

/-- A program that returns where the invariant holds is quiet. -/
theorem Quiet.ret (h : l.Inv s) : Quiet (return l) s := fun a => inv_setAlarm h a

/-- An action of `adjust_timer` whose value and effect do not depend on the alarm. -/
theorem Quiet.act {f : ℤ → HeapLog → Option (β × HeapLog)} {k : β → HeapProg HeapPc} {b : β}
    (hh : s.heap.Holds ts) (hf : ∀ now a, f now (s.setAlarm a) = some (b, s'.setAlarm a))
    (hk : Quiet (k b) s') : Quiet (Prog.step .adjust f >>= k) s := by
  intro a
  refine Prog.Safe.step (fun u => ∃ a, u = s.setAlarm a) ⟨a, rfl⟩ ?_ ?_
  · rintro _ clock ⟨a, rfl⟩ hok
    have hh' : (s.setAlarm a).heap.Holds ts := hh.setAlarm a s.heap.alrmBlocked
    obtain ⟨a', ha'⟩ := HeapLog.quiet_tick hh' hok
    exact ⟨_, ha', a', rfl⟩
  · rintro _ now ⟨a, rfl⟩
    exact ⟨b, s'.setAlarm a, hf now a, hk a⟩

/-- Reading the size is quiet if the rest is, with the size that was read. -/
theorem Quiet.size {k : ℕ → HeapProg HeapPc} (hh : s.heap.Holds ts)
    (hk : Quiet (k s.heap.size) s) : Quiet (HeapProg.size .adjust >>= k) s :=
  Quiet.act hh (fun _ _ => rfl) hk

/-- Reading a slot is quiet if the rest is, with the contents of the slot. -/
theorem Quiet.slot {k : Option Ptr → HeapProg HeapPc} {u : Option Ptr} (hh : s.heap.Holds ts)
    (hu : s.heap.slots[i]? = some u) (hk : Quiet (k u) s) :
    Quiet (HeapProg.slot .adjust i >>= k) s :=
  Quiet.act hh (fun _ _ => by simp [HeapLog.setAlarm, hu]) hk

/-- Reading an expiry is quiet if the rest is, with the expiry of the timer. -/
theorem Quiet.expire {k : ℤ → HeapProg HeapPc} {timer : HpTimer} (hh : s.heap.Holds ts)
    (ht : s.heap.mem t = some timer) (hk : Quiet (k timer.expire) s) :
    Quiet (HeapProg.expire .adjust (some t) >>= k) s :=
  Quiet.act hh (fun _ _ => by simp [HeapLog.setAlarm, ht]) hk

/-- Writing a slot within the array is quiet if the rest is, in the state written. -/
theorem Quiet.setSlot {k : Unit → HeapProg HeapPc} {o : Option Ptr} (hh : s.heap.Holds ts)
    (hi : i < s.heap.slots.length)
    (hk : Quiet (k ()) { s with heap := { s.heap with slots := s.heap.slots.set i o } }) :
    Quiet (HeapProg.setSlot i o >>= k) s :=
  Quiet.act hh (fun _ _ => by simp [HeapLog.setAlarm, TimerHeap.setSlot, hi]) hk

/-- The read `slots[i]->expire`. -/
theorem Quiet.expireAt {k : ℤ → HeapProg HeapPc} (hh : s.heap.Holds ts) (hi : i < s.heap.size)
    (hk : Quiet (k (keys s.heap.mem ts i)) s) : Quiet (HeapProg.expireAt i >>= k) s := by
  obtain ⟨t, ht, hslot⟩ := hh.slot hi
  obtain ⟨timer, htimer⟩ := hh.alive t (List.mem_of_getElem? ht)
  have hkey : keys s.heap.mem ts i = timer.expire := by
    rw [keys_of_getElem? ht, expiry, htimer]
    rfl
  rw [hkey] at hk
  exact Quiet.slot (k := fun t => HeapProg.expire .adjust t >>= k) hh hslot
    (Quiet.expire hh htimer hk)

/-- The choice of the lesser child. -/
theorem Quiet.lesserChild {k : ℕ → HeapProg HeapPc} {c : ℕ} (hh : s.heap.Holds ts)
    (hc : s.heap.lesserChild i = some c) (hk : Quiet (k c) s) :
    Quiet (HeapProg.lesserChild i >>= k) s := by
  rw [HeapProg.lesserChild, Prog.bind_assoc]
  refine Quiet.size hh ?_
  unfold TimerHeap.lesserChild at hc
  split at hc
  · rename_i hright
    rw [if_pos hright, Prog.bind_assoc]
    refine Quiet.expireAt hh hright ?_
    rw [Prog.bind_assoc]
    refine Quiet.expireAt hh (by omega) ?_
    rw [hh.expireAt hright, hh.expireAt (i := i) (by omega)] at hc
    rw [Prog.pure_bind, Option.some.inj hc]
    exact hk
  · rename_i hright
    rw [if_neg hright, Prog.pure_bind, Option.some.inj hc]
    exact hk

/-- The exchange of two stored pointers. Between its two writes one of them is stored twice. -/
theorem Quiet.swapSlots {k : Unit → HeapProg HeapPc} (hh : s.heap.Holds ts) (hi : i < s.heap.size)
    (hj : j < s.heap.size) (hne : i ≠ j)
    (hk : ∀ heap ts', TimerHeap.Sifted s.heap heap ts ts' →
      Swapped (keys s.heap.mem ts) (keys heap.mem ts') i j → Quiet (k ()) { s with heap }) :
    Quiet (HeapProg.swapSlots i j >>= k) s := by
  obtain ⟨a, ha, hsa⟩ := hh.slot hi
  obtain ⟨b, hb, hsb⟩ := hh.slot hj
  obtain ⟨heap, ts', hswap, hsifted, hkeys⟩ := hh.swapSlots hi hj hne
  have hilt : i < s.heap.slots.length := (List.getElem?_eq_some_iff.mp hsa).1
  have hjlt : j < s.heap.slots.length := (List.getElem?_eq_some_iff.mp hsb).1
  obtain rfl : { s.heap with slots := (s.heap.slots.set i (some b)).set j (some a) } = heap := by
    simpa [TimerHeap.swapSlots, hsa, hsb] using hswap
  -- after the first write
  have hmid : TimerHeap.Holds { s.heap with slots := s.heap.slots.set i (some b) } (ts.set i b) :=
    hh.set i (hh.alive b (List.mem_of_getElem? hb))
  rw [HeapProg.swapSlots, Prog.bind_assoc]
  refine Quiet.slot hh hsa ?_
  rw [Prog.bind_assoc]
  refine Quiet.slot hh hsb ?_
  rw [Prog.bind_assoc]
  refine Quiet.setSlot hh hilt ?_
  exact Quiet.setSlot hmid (by simpa using hjlt) (hk _ ts' hsifted hkeys)

/-! ## The code of `adjust_timer` -/

/-- `percolate_up` goes on, or is done, where the heap is in order but for the edge above. -/
theorem inv_upTo (hst : s.Stored ts) (hi : i < s.heap.size)
    (ho : SaveAbove heapParent (keys s.heap.mem ts) s.heap.size i) : (HeapPc.upTo i).Inv s := by
  rw [HeapPc.upTo]
  split
  · exact ⟨ts, hst, ho, ‹_›, hi⟩
  · exact ⟨ts, hst, ho.ordered (by omega)⟩

/-- The cast of `adjust_timer`. -/
theorem quiet_adjust (h : (HeapPc.adjust t).Inv s) : Quiet (HeapPc.code (.adjust t)) s := by
  obtain ⟨ts, idx, hu⟩ := h
  obtain ⟨timer, htimer⟩ := hu.stored.holds.alive t (List.mem_of_getElem? hu.found)
  exact Quiet.expire hu.stored.holds htimer
    (.ret (show (HeapPc.getIdx t 0).Inv s from ⟨ts, idx, hu, Nat.zero_le _⟩))

/-- The search passes over the slots before the timer's. -/
theorem quiet_getIdx (h : (HeapPc.getIdx t i).Inv s) : Quiet (HeapPc.code (.getIdx t i)) s := by
  obtain ⟨ts, idx, hu, hi⟩ := h
  have hh := hu.stored.holds
  have hidx : idx < s.heap.size := hh.size ▸ (List.getElem?_eq_some_iff.mp hu.found).1
  obtain ⟨u, hslot, hread⟩ := hh.slot (i := i) (by omega)
  refine Quiet.size hh ?_
  rw [if_pos (by omega)]
  refine Quiet.slot hh hread (.ret ?_)
  split
  · rename_i hne
    have hlt : i ≠ idx := by
      rintro rfl
      exact hne (hslot.symm.trans hu.found)
    exact ⟨ts, idx, hu, by omega⟩
  · rename_i heq
    obtain rfl : u = t := by simpa using heq
    have hsame : i = idx := by
      obtain ⟨hilt, hie⟩ := List.getElem?_eq_some_iff.mp hslot
      obtain ⟨hjlt, hje⟩ := List.getElem?_eq_some_iff.mp hu.found
      exact (List.Nodup.getElem_inj_iff hu.stored.nodup).mp (hie.trans hje.symm)
    exact ⟨u, ts, hsame ▸ hu⟩

/-- Around the timer's position the order is broken above or below. -/
theorem quiet_adjustAt (h : (HeapPc.adjustAt i).Inv s) : Quiet (HeapPc.code (.adjustAt i)) s := by
  obtain ⟨t, ts, hu⟩ := h
  have hst := hu.stored
  have hh := hst.holds
  have hi : i < s.heap.size := hh.size ▸ (List.getElem?_eq_some_iff.mp hu.found).1
  obtain ⟨key, ho, hoff⟩ := hu.order
  refine Quiet.size hh ?_
  rw [if_neg hi.ne]
  refine Quiet.expireAt hh hi (Quiet.expireAt hh (by omega) ?_)
  split
  · -- earlier than its parent, so earlier than the children the parent was in order with
    rename_i hlt
    have hpos : 0 < i := by
      rcases Nat.eq_zero_or_pos i with rfl | hpos
      · exact absurd hlt (lt_irrefl _)
      · exact hpos
    have hp := heapParent_lt i hpos
    have hpar : keys s.heap.mem ts (i / 2) = key (heapParent i) := hoff _ (by omega) (by omega)
    have ho₁ : SaveAbove heapParent (keys s.heap.mem ts) s.heap.size i :=
      ho.saveAbove heapParent_lt hi hoff fun j hj hjn hpj =>
        (hpar ▸ hlt.le).trans (ho.across hi hpos hj hjn hpj)
    exact .ret (inv_upTo hst hi ho₁)
  · rename_i hge
    have ho₁ : SaveBelow heapParent (keys s.heap.mem ts) s.heap.size i := by
      refine ho.saveBelow heapParent_lt hi hoff ?_
      intro hpos
      have hp := heapParent_lt i hpos
      rw [← hoff _ (by omega) (by omega)]
      exact not_lt.mp hge
    obtain ⟨c, hc, hcase, hleast⟩ := TimerHeap.lesserChild_spec hh i
    have hchild : ∀ j, 0 < j → j < s.heap.size → heapParent j = i →
        keys s.heap.mem ts c ≤ keys s.heap.mem ts j := by
      intro j _ hj hpj
      exact hleast j hj (by unfold heapParent at hpj; omega)
    refine Quiet.lesserChild hh hc (Quiet.size hh ?_)
    split
    · rename_i hcn
      refine Quiet.expireAt hh hi (Quiet.expireAt hh hcn (.ret ?_))
      split
      · exact ⟨ts, hst, ho₁⟩
      · rename_i hle
        exact ⟨ts, hst, ho₁.ordered fun j hj hjn hpj =>
          (not_lt.mp hle).trans (hchild j hj hjn hpj)⟩
    · refine .ret ⟨ts, hst, ho₁.ordered ?_⟩
      intro j hj hjn hpj
      unfold heapParent at hpj
      omega

/-- A pass of the loop of `percolate_up` swaps the slots or ends it in heap order. -/
theorem quiet_percolateUp (h : (HeapPc.percolateUp i).Inv s) :
    Quiet (HeapPc.code (.percolateUp i)) s := by
  obtain ⟨ts, hst, ho, hpos, hi⟩ := h
  have hh := hst.holds
  have hp := heapParent_lt i hpos
  refine Quiet.expireAt hh hi (Quiet.expireAt hh (by omega) ?_)
  split
  · rename_i hlt
    refine Quiet.swapSlots hh hi (by omega) (by omega) fun heap ts' hs hk => .ret ?_
    have ho' := ho.swap heapParent_lt hpos hi hlt hk
    rw [← hs.size_eq] at ho'
    exact inv_upTo (hst.sifted hs) (by rw [hs.size_eq]; unfold heapParent at hp; omega) ho'
  · rename_i hge
    exact .ret ⟨ts, hst, ho.ordered fun _ => not_lt.mp hge⟩

/-- So does a pass of the loop of `percolate_down`. -/
theorem quiet_percolateDown (h : (HeapPc.percolateDown i).Inv s) :
    Quiet (HeapPc.code (.percolateDown i)) s := by
  obtain ⟨ts, hst, ho⟩ := h
  have hh := hst.holds
  refine Quiet.size hh ?_
  split
  · obtain ⟨c, hc, hcase, hleast⟩ := TimerHeap.lesserChild_spec hh i
    have hcn : c < s.heap.size := by omega
    have hi : i < s.heap.size := by omega
    have hchild : ∀ j, 0 < j → j < s.heap.size → heapParent j = i →
        keys s.heap.mem ts c ≤ keys s.heap.mem ts j := by
      intro j _ hj hpj
      exact hleast j hj (by unfold heapParent at hpj; omega)
    refine Quiet.lesserChild hh hc (Quiet.expireAt hh hcn (Quiet.expireAt hh hi ?_))
    split
    · rename_i hlt
      have hne : i ≠ c := by rintro rfl; exact lt_irrefl _ hlt
      refine Quiet.swapSlots hh hi hcn hne fun heap ts' hs hk => .ret ?_
      have ho' := ho.swap heapParent_lt (by omega) hcn (by unfold heapParent; omega) hlt hchild hk
      rw [← hs.size_eq] at ho'
      exact ⟨ts', hst.sifted hs, ho'⟩
    · rename_i hge
      exact .ret ⟨ts, hst, ho.ordered fun j hj hjn hpj =>
        (not_lt.mp hge).trans (hchild j hj hjn hpj)⟩
  · refine .ret ⟨ts, hst, ho.ordered ?_⟩
    intro j hj hjn hpj
    unfold heapParent at hpj
    omega

/-! ## The code of `add_timer`, `del_timer` and `resetTimer` -/

/-- An action before which any tick is harmless, as the heap is settled. -/
theorem safe_settled {p : HeapPoint} {f : ℤ → HeapLog → Option (β × HeapLog)}
    {k : β → HeapProg HeapPc} (hs : s.Settled)
    (hact : ∀ s now, s.Settled → ∃ b s', f now s = some (b, s') ∧ Safe (k b) s') :
    Safe (Prog.step p f >>= k) s :=
  Prog.Safe.step HeapLog.Settled hs
    (fun s clock hs _ => by
      obtain ⟨s', hs', hsettled, -⟩ := HeapLog.settled_tick hs clock
      exact ⟨s', hs', hsettled⟩)
    hact

/-- An action before which any tick is harmless, as the timer it needs is not stored. -/
theorem safe_outside {p : HeapPoint} {f : ℤ → HeapLog → Option (β × HeapLog)}
    {k : β → HeapProg HeapPc} (hs : s.Outside t)
    (hact : ∀ s now, s.Outside t → ∃ b s', f now s = some (b, s') ∧ Safe (k b) s') :
    Safe (Prog.step p f >>= k) s := by
  refine Prog.Safe.step (fun s => s.Outside t) hs ?_ hact
  rintro s clock ⟨hs, ht, timer, htimer⟩ -
  obtain ⟨s', hs', hsettled, -, hout⟩ := HeapLog.settled_tick hs clock
  exact ⟨s', hs', hsettled, (hout t ht).1, timer, (hout t ht).2.trans htimer⟩

/-- The read of the expiry of a live timer, at a point where a harmless tick leaves it. -/
theorem safe_expire {p : HeapPoint} {k : ℤ → HeapProg HeapPc} (hs : s.Settled) (ht : t ∈ s.live)
    (hp : ∀ now h, p.Harmless now h → ∀ timer, h.mem t = some timer → now < timer.expire)
    (hk : ∀ s e, s.Settled → t ∈ s.live → Safe (k e) s) :
    Safe (HeapProg.expire p (some t) >>= k) s := by
  refine Prog.Safe.step (fun s => s.Settled ∧ t ∈ s.live) ⟨hs, ht⟩ ?_ ?_
  · rintro s clock ⟨hs, ht⟩ hok
    obtain ⟨s', hs', hsettled, hlate, -⟩ := HeapLog.settled_tick hs clock
    exact ⟨s', hs', hsettled, hlate t ht (hp clock.1 s.heap hok)⟩
  · rintro s now ⟨hs, ht⟩
    obtain ⟨ts, hst, ho⟩ := hs
    obtain ⟨timer, htimer⟩ := hst.holds.alive t (hst.mem_live.mp ht)
    exact ⟨timer.expire, s, by simp [htimer], hk s _ ⟨ts, hst, ho⟩ ht⟩

/-- An action that leaves the operation idle with the heap settled. -/
theorem safe_alarm {p : HeapPoint} {a : ℤ → HeapLog → ℕ} (hs : s.Settled) :
    Safe (Prog.write p (fun now s =>
      some { s with heap := { s.heap with alarm := a now s } }) >>= fun _ => return .idle) s :=
  safe_settled hs fun s now hs => ⟨(), s.setAlarm (a now s), rfl, hs.setAlarm _⟩

/-- `reset_timer` reads the root and sets the alarm. -/
theorem safe_resetTimer (h : HeapPc.resetTimer.Inv s) : Safe (HeapPc.code .resetTimer) s := by
  refine safe_settled h fun s now hs => ⟨s.heap.size, s, rfl, ?_⟩
  split
  · exact safe_alarm hs
  · rename_i hne
    refine Prog.Safe.step (fun s => s.Settled ∧ s.heap.size ≠ 0) ⟨hs, hne⟩ ?_ ?_
    · -- the stored timer that has not expired is there after a tick
      rintro s clock ⟨⟨ts, hst, ho⟩, -⟩ ⟨i, hi, hlate⟩
      obtain ⟨t, ht, hslot⟩ := hst.holds.slot hi
      obtain ⟨s', hs', hsettled, hlive, -⟩ := HeapLog.settled_tick ⟨ts, hst, ho⟩ clock
      have ht' : t ∈ s'.live := by
        refine hlive t (hst.mem_live.mpr (List.mem_of_getElem? ht)) ?_
        intro timer htimer
        exact hlate timer.expire (by simp [TimerHeap.expireAt, hslot, htimer])
      obtain ⟨ts', hst', ho'⟩ := hsettled
      refine ⟨s', hs', ⟨ts', hst', ho'⟩, ?_⟩
      intro hz
      have hnil : ts' = [] := List.eq_nil_of_length_eq_zero (hst'.holds.size.trans hz)
      simpa [hnil] using hst'.mem_live.mp ht'
    · rintro s now ⟨⟨ts, hst, ho⟩, hne⟩
      obtain ⟨t, ht, hslot⟩ := hst.holds.slot (Nat.pos_of_ne_zero hne)
      refine ⟨some t, s, by simp [hslot], ?_⟩
      exact safe_expire ⟨ts, hst, ho⟩ (hst.mem_live.mpr (List.mem_of_getElem? ht))
        (fun _ _ hok => hok) fun s e hs _ => safe_alarm hs

/-- `add_timer` puts the timer into the settled heap. -/
theorem safe_add (h : (HeapPc.add t).Inv s) : Safe (HeapPc.code (.add t)) s := by
  refine safe_outside h ?_
  rintro s now ⟨⟨ts, hst, ho⟩, ht, halive⟩
  have hts : t ∉ ts := fun hm => ht (hst.mem_live.mpr hm)
  obtain ⟨h', ts', hrun, hr', hperm, -⟩ := TimerHeap.addTimer_spec (hst.rep ho) hts halive now
  refine ⟨(), _, by simp [hrun]; rfl, ts', ⟨hr'.toHolds, hr'.nodup, ?_, ?_⟩, hr'.ordered⟩
  · rw [List.toFinset_eq_of_perm _ _ hperm, List.toFinset_cons, hst.live]
  · have hmove := hst.added.append_right [t]
    rw [List.append_assoc _ ts [t]] at hmove
    exact hmove.trans ((List.perm_append_comm.trans hperm.symm).append_left _)

end HeapProg

namespace TimerHeap

variable {h : TimerHeap} {ts : List Ptr} {t : Ptr}

/-- The blocked section of `del_timer` on a stored timer takes it out. -/
theorem delBlocked_spec (hr : h.Rep ts) (ht : t ∈ ts) (now : ℤ) : ∃ h' ts',
    h.delBlocked now t = some (true, h') ∧ h'.Rep ts' ∧ (t :: ts').Perm ts ∧ h'.mem = h.mem := by
  have hb : h.blockAlarm.Rep ts := hr.setAlarm h.alarm true
  obtain ⟨hlt, hget⟩ := getIdx_of_mem hb.toStores ht
  obtain ⟨h₁, ts₁, hrem, hr₁, hperm, hmem⟩ := removeAt_spec hb hget
  obtain ⟨a, ha⟩ := resetTimer_spec hr₁.toHolds now
  refine ⟨unblockAlarm { h₁ with alarm := a }, ts₁, ?_, hr₁.setAlarm a false, hperm, hmem⟩
  simp [delBlocked, hlt.ne, hrem, ha]

/-- On a timer that a tick has fired it only blocks `SIGALRM`. -/
theorem delBlocked_gone (hr : h.Rep ts) (ht : t ∉ ts) (now : ℤ) :
    h.delBlocked now t = some (false, h.blockAlarm) := by
  have hb : h.blockAlarm.Rep ts := hr.setAlarm h.alarm true
  rw [delBlocked, if_pos ((getIdx_eq_size_iff hb.toStores).mpr ht)]

end TimerHeap

namespace HeapProg

variable {s : HeapLog} {t : Ptr}

/-- `del_timer` reads the timer, takes it out and reads it again for the log. -/
theorem safe_del (h : (HeapPc.del t).Inv s) : Safe (HeapPc.code (.del t)) s := by
  refine safe_expire h.1 h.2 (fun _ _ hok => hok) ?_
  intro s _ hs _
  refine safe_settled hs fun s now hs => ⟨s.heap.size, s, rfl, ?_⟩
  split
  · exact hs
  · refine safe_settled hs fun s now ⟨ts, hst, ho⟩ => ?_
    rcases Decidable.em (t ∈ ts) with ht | ht
    · obtain ⟨h', ts', hrun, hr', hperm, hmem⟩ := TimerHeap.delBlocked_spec (hst.rep ho) ht now
      have hnot : t ∉ ts' := (List.nodup_cons.mp (hperm.nodup_iff.mpr hst.nodup)).1
      obtain ⟨timer, htimer⟩ := hst.holds.alive t ht
      have hout : HeapLog.Outside { s with
          heap := h', live := s.live.erase t, deleted := s.deleted ++ [t] } t := by
        refine ⟨⟨ts', ⟨hr'.toHolds, hr'.nodup, ?_, ?_⟩, hr'.ordered⟩, by simp, timer, ?_⟩
        · have heq := List.toFinset_eq_of_perm _ _ hperm
          rw [List.toFinset_cons, hst.live] at heq
          simp [← heq, hnot]
        · have hadded := hst.added.trans (hperm.symm.append_left _)
          simpa using hadded
        · rw [hmem]
          exact htimer
      refine ⟨true, _, by simp [hrun]; rfl, ?_⟩
      refine safe_outside hout ?_
      intro s now hs
      obtain ⟨timer, htimer⟩ := hs.2.2
      exact ⟨timer.expire, s, by simp [htimer], hs.1⟩
    · refine ⟨false, _, by simp [TimerHeap.delBlocked_gone (hst.rep ho) ht now]; rfl, ?_⟩
      have hr := (hst.rep ho).setAlarm s.heap.alarm true
      exact ⟨ts, ⟨hr.toHolds, hst.nodup, hst.live, hst.added⟩, ho⟩

/-- The code is safe from every head. -/
theorem safe_code (l : HeapPc) (s : HeapLog) (h : l.Inv s) : Safe l.code s := by
  cases l with
  | idle => exact h
  | add t => exact safe_add h
  | del t => exact safe_del h
  | adjust t => exact (quiet_adjust h).safe
  | getIdx t i => exact (quiet_getIdx h).safe
  | adjustAt i => exact (quiet_adjustAt h).safe
  | percolateUp i => exact (quiet_percolateUp h).safe
  | percolateDown i => exact (quiet_percolateDown h).safe
  | resetTimer => exact safe_resetTimer h

/-- Code that has ended is idle. -/
theorem code_ret {l l' : HeapPc} (h : l.code = .ret l') : l' = .idle := by
  cases l with
  | idle => cases h; rfl
  | _ => cases h

end HeapProg

/-! ## Runs -/

namespace AlarmSys

variable {s s' : AlarmSys} {e : AlarmEvent}

/-- The invariant: the operation under way is safe, and one that has ended leaves none. -/
structure Ok (s : AlarmSys) : Prop where
  safe : HeapProg.Safe s.prog s.log
  idle : ∀ l, s.prog = .ret l → l = .idle

/-- The heap is settled when no operation is under way. -/
theorem Ok.settled (hs : s.Ok) (hret : s.prog.isRet = true) : s.log.Settled := by
  have hsafe := hs.safe
  cases hprog : s.prog with
  | ret l =>
    obtain rfl := hs.idle l hprog
    rw [hprog] at hsafe
    exact hsafe
  | act p f next =>
    rw [hprog] at hret
    cases hret

/-- The code of a call is safe if the assertion at its head holds. -/
theorem ok_code {l : HeapPc} {log : HeapLog} (h : l.Inv log) : Ok ⟨l.code, log⟩ :=
  ⟨HeapProg.safe_code l log h, fun _ hret => HeapProg.code_ret hret⟩

/-- The operation under way takes a step. -/
theorem Ok.go (hs : s.Ok) (hact : s.prog.isRet = false) (now : ℤ) :
    ∃ s', Step s (.go now) s' ∧ s'.Ok := by
  have hsafe := hs.safe
  cases hprog : s.prog with
  | ret l =>
    rw [hprog] at hact
    cases hact
  | act p f next =>
    rw [hprog] at hsafe
    obtain ⟨b, log, hf, hrest⟩ := Prog.Safe.act hsafe now
    refine ⟨⟨(next b).enter HeapPc.code, log⟩, by simp [Step, AlarmSys.next, hprog, hf],
      Prog.Safe.enter HeapProg.safe_code hrest, ?_⟩
    intro l hl
    cases hnext : next b with
    | ret l' =>
      rw [hnext] at hl
      exact HeapProg.code_ret hl
    | act p f next' =>
      rw [hnext] at hl
      cases hl

/-- A harmless tick that `SIGALRM` may bring completes. -/
theorem Ok.alarm (hs : s.Ok) {now later : ℤ} (hb : s.log.heap.alrmBlocked = false)
    (hcalm : Calm s (.alarm now later)) : ∃ s', Step s (.alarm now later) s' ∧ s'.Ok := by
  have hsafe := hs.safe
  cases hprog : s.prog with
  | ret l =>
    obtain ⟨log, hlog, hsettled, -⟩ :=
      HeapLog.settled_tick (hs.settled (by rw [hprog]; rfl)) (now, later)
    refine ⟨⟨.ret l, log⟩, by simp [Step, AlarmSys.next, hb, hlog, hprog], ?_, ?_⟩
    · obtain rfl := hs.idle l hprog
      exact hsettled
    · intro l' hl'
      cases hl'
      exact hs.idle l hprog
  | act p f next =>
    rw [hprog] at hsafe
    have hok : p.ok (now, later) s.log := by simpa [Calm, hprog] using hcalm
    obtain ⟨log, hlog, hsafe'⟩ := Prog.Safe.interrupt hsafe hok
    refine ⟨⟨.act p f next, log⟩, by simp [Step, AlarmSys.next, hb, hlog, hprog], hsafe', ?_⟩
    intro l' hl'
    cases hl'

/-- Every step with harmless ticks keeps the invariant. -/
theorem ok_step (hs : s.Ok) (h : Guarded Step Calm s e s') : s'.Ok := by
  obtain ⟨hstep, hcalm⟩ := h
  cases e with
  | add t e =>
    simp only [Step, AlarmSys.next] at hstep
    split at hstep
    · rename_i hcond
      cases hstep
      obtain ⟨ts, hst, ho⟩ := hs.settled hcond.1
      have hts : t ∉ ts := fun hm => hcond.2 (hst.mem_live.mpr hm)
      have hr := (hst.rep ho).update hts (some ⟨e⟩)
      exact ok_code ⟨⟨ts, ⟨hr.toHolds, hst.nodup, hst.live, hst.added⟩, hr.ordered⟩, hcond.2,
        ⟨e⟩, Function.update_self ..⟩
    · cases hstep
  | adjust t e =>
    simp only [Step, AlarmSys.next] at hstep
    split at hstep
    · rename_i hcond
      cases hstep
      obtain ⟨ts, hst, ho⟩ := hs.settled hcond.1
      obtain ⟨idx, hidx⟩ := List.getElem?_of_mem (hst.mem_live.mp hcond.2)
      exact ok_code ⟨ts, idx, ⟨hst.holds.setExpire t e, hst.nodup, hst.live, hst.added⟩, hidx,
        keys s.log.heap.mem ts, ho, fun j _ hne => keys_update_of_ne hst.nodup hidx hne _⟩
    · cases hstep
  | del t =>
    simp only [Step, AlarmSys.next] at hstep
    split at hstep
    · rename_i hcond
      cases hstep
      exact ok_code ⟨hs.settled hcond.1, hcond.2⟩
    · cases hstep
  | go now =>
    have hact : s.prog.isRet = false := by
      cases hprog : s.prog with
      | ret l => simp [Step, AlarmSys.next, hprog] at hstep
      | act p f next => rfl
    obtain ⟨t, ht, hok⟩ := hs.go hact now
    rwa [Option.some.inj (hstep.symm.trans ht)]
  | alarm now later =>
    have hb : s.log.heap.alrmBlocked = false := by
      by_contra hb
      simp [Step, AlarmSys.next, Bool.eq_true_of_not_eq_false hb] at hstep
    obtain ⟨t, ht, hok⟩ := hs.alarm hb hcalm
    rwa [Option.some.inj (hstep.symm.trans ht)]

end AlarmSys

open AlarmSys in
/-- In every run whose ticks are harmless where they are delivered, the operation under way can take
its next step and a tick completes, so that neither follows a null or freed pointer; and when no
operation is under way the heap stores the live timers, each once, in heap order, and every timer
added has been fired once, deleted once, or is stored. -/
theorem heap_alarm_safe {mem : Store HpTimer} {a : ℕ} {b : Bool} {es : List AlarmEvent}
    {s : AlarmSys} (h : Run (Guarded Step Calm) (init mem a b) es s) :
    (s.prog.isRet = false → ∀ now, ∃ s', Step s (.go now) s') ∧
    (s.log.heap.alrmBlocked = false → ∀ now later, Calm s (.alarm now later) →
      ∃ s', Step s (.alarm now later) s') ∧
    (s.prog.isRet = true → ∃ ts : List Ptr, s.log.heap.slots.take s.log.heap.size = ts.map some ∧
      ts.Nodup ∧ (∀ t, t ∈ ts ↔ t ∈ s.log.live) ∧
      s.log.added.Perm (s.log.fired ++ s.log.deleted ++ ts) ∧
      ∀ i, 0 < i → i < s.log.heap.size → ∃ above here, s.log.heap.expireAt (i / 2) = some above ∧
        s.log.heap.expireAt i = some here ∧ above ≤ here) := by
  have hs : s.Ok := by
    refine h.invariant (fun _ _ _ hs hstep => ok_step hs hstep) ⟨?_, ?_⟩
    · have hr := TimerHeap.empty_rep mem a b
      exact ⟨[], ⟨hr.toHolds, hr.nodup, rfl, .nil⟩, hr.ordered⟩
    · intro l hl
      cases hl
      rfl
  refine ⟨?_, ?_, ?_⟩
  · intro hact now
    obtain ⟨s', hstep, -⟩ := hs.go hact now
    exact ⟨s', hstep⟩
  · intro hb now later hcalm
    obtain ⟨s', hstep, -⟩ := hs.alarm hb hcalm
    exact ⟨s', hstep⟩
  · intro hret
    obtain ⟨ts, hst, ho⟩ := hs.settled hret
    refine ⟨ts, hst.holds.stored, hst.nodup, fun t => hst.mem_live.symm, hst.added, ?_⟩
    intro i hpos hi
    have hp := heapParent_lt i hpos
    exact ⟨_, _, hst.holds.expireAt (i := heapParent i) (by omega), hst.holds.expireAt hi,
      ho i hpos hi⟩

/-- A tick fires the first timer before `block_alarm` in the `add_timer` of the second, and another one
fires nothing in the `adjust_timer` of that. -/
def ticksInCalls : List AlarmEvent :=
  [.add 1 10, .go 0, .add 2 20, .alarm 15 15, .go 15, .adjust 2 30, .go 16, .alarm 18 18] ++
    List.replicate 17 (.go 18)

/-- Both calls have returned, and the second timer is stored. -/
theorem heap_alarm_safe_one : ∃ s,
    Run (Guarded AlarmSys.Step Calm) (AlarmSys.init (fun _ => none) 0 false) ticksInCalls s ∧
    s.log.fired = [1] ∧ ∃ ts : List Ptr,
      s.log.heap.slots.take s.log.heap.size = ts.map some ∧
      s.log.added.Perm (s.log.fired ++ s.log.deleted ++ ts) := by
  obtain ⟨s, hrun, hread⟩ : ∃ s,
      Run (Guarded AlarmSys.Step Calm) (AlarmSys.init (fun _ => none) 0 false) ticksInCalls s ∧
      (s.prog.isRet, s.log.fired) = (true, [1]) := Run.of_exec_guarded rfl
  obtain ⟨hret, hfired⟩ := Prod.mk.inj hread
  obtain ⟨ts, hstored, -, -, hadded, -⟩ := (heap_alarm_safe hrun).2.2 hret
  exact ⟨s, hrun, hfired, ts, hstored, hadded⟩

/-- Two timers are stored, and `adjust_timer` of the second has found it at index 1 when a tick fires
both. -/
def tickInAdjust : List AlarmEvent :=
  [.add 1 10, .go 0, .add 2 20, .go 0, .adjust 2 15] ++ List.replicate 6 (.go 0) ++
    [.alarm 30 30, .go 30]

/-- `adjust_timer` then reads `slots[1]`, which is null, and follows it. -/
theorem heap_alarm_null : ∃ s,
    Run AlarmSys.Step (AlarmSys.init (fun _ => none) 0 false) tickInAdjust s ∧
    s.prog.isRet = false ∧ s.log.heap.slots[1]? = some none ∧ ∀ s', ¬ AlarmSys.Step s (.go 30) s' := by
  obtain ⟨s, hrun, hread⟩ : ∃ s,
      Run AlarmSys.Step (AlarmSys.init (fun _ => none) 0 false) tickInAdjust s ∧
      (s.prog.isRet, s.log.heap.slots[1]?, (s.next (.go 30)).isSome) = (false, some none, false) :=
    Run.of_exec_map rfl
  simp only [Prod.mk.injEq] at hread
  obtain ⟨hprog, hslot, hnext⟩ := hread
  refine ⟨s, hrun, hprog, hslot, ?_⟩
  intro s' hstep
  rw [show s.next (.go 30) = some s' from hstep] at hnext
  cases hnext

end Ulsp
