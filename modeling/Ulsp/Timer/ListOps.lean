import Ulsp.Timer.List
import Ulsp.Lib.Fuel

/-!
# The operations of the sorted timer list

`Rep l ts` is the representation invariant: the list is doubly linked through the live timers `ts`,
in ascending order of expiry, and `tail` is the last of them as long as there is one. (`tick` leaves
`tail` dangling when it empties the list; no operation reads it there.) `addTimer_spec` and
`tick_spec` say that these operations end, follow no null or freed pointer and keep the invariant.
-/

namespace Ulsp

open Lib Lib.NodeStore

/-- The `expire` of a timer object. -/
def utilExpiry (mem : NodeStore Ptr UtilTimer) (t : Ptr) : ℤ :=
  ((mem.valOf t).map UtilTimer.expire).getD 0

theorem utilExpiry_of_some {mem : NodeStore Ptr UtilTimer} {t : Ptr} {n : Node Ptr UtilTimer}
    (h : mem t = some n) : utilExpiry mem t = n.val.expire := by
  simp [utilExpiry, valOf_of_some h]

theorem utilExpiry_congr {mem mem' : NodeStore Ptr UtilTimer} (h : mem'.valOf = mem.valOf) :
    utilExpiry mem' = utilExpiry mem := by
  funext t
  rw [utilExpiry, h, utilExpiry]

namespace SortTimerLst

/-- The representation invariant. -/
structure Rep (l : SortTimerLst) (ts : List Ptr) : Prop where
  linked : DChain l.mem.nextOf l.mem.prevOf l.head ts
  alive : ∀ t ∈ ts, ∃ v, l.mem.valOf t = some v
  sorted : ts.Pairwise fun t u => utilExpiry l.mem t ≤ utilExpiry l.mem u
  tail : ts ≠ [] → l.tail = ts.getLast?

variable {l l' : SortTimerLst} {ts ts' : List Ptr} {t : Ptr} {now e : ℤ}

/-- The invariant does not depend on the alarm. -/
theorem Rep.setAlarm (hr : l.Rep ts) (a : ℕ) : Rep { l with alarm := a } ts :=
  ⟨hr.linked, hr.alive, hr.sorted, hr.tail⟩

theorem Rep.nodup (hr : l.Rep ts) : ts.Nodup := hr.linked.fwd.nodup

/-- No object is stored at an address that is free. -/
theorem Rep.not_mem (hr : l.Rep ts) (hfree : l.mem t = none) : t ∉ ts := by
  intro hm
  obtain ⟨v, hv⟩ := hr.alive t hm
  simp [valOf, hfree] at hv

/-- The empty list. -/
theorem empty_rep (mem : NodeStore Ptr UtilTimer) (a : ℕ) : (empty mem a).Rep [] :=
  ⟨.nil, by simp, .nil, by simp⟩

/-- The invariant does not depend on the objects that are not stored. -/
theorem Rep.update (hr : l.Rep ts) (ht : t ∉ ts) (o : Option (Node Ptr UtilTimer)) :
    Rep { l with mem := Function.update l.mem t o } ts := by
  have hne : ∀ u ∈ ts, u ≠ t := fun u hu he => ht (he ▸ hu)
  refine ⟨hr.linked.congr (fun u hu => (update_of_ne (hne u hu) o).1) fun u hu
    => (update_of_ne (hne u hu) o).2.1, ?_, ?_, hr.tail⟩
  · intro u hu
    show ∃ v, valOf (Function.update l.mem t o) u = some v
    rw [(update_of_ne (hne u hu) o).2.2]
    exact hr.alive u hu
  · refine hr.sorted.imp_of_mem ?_
    intro u v hu hv hle
    simpa [utilExpiry, (update_of_ne (hne u hu) o).2.2, (update_of_ne (hne v hv) o).2.2] using hle

theorem resetTimer_spec (h : ∀ hd, l.head = some hd → ∃ v, l.mem.valOf hd = some v) (now : ℤ) :
    ∃ a, l.resetTimer now = some { l with alarm := a } := by
  unfold resetTimer
  split
  · exact ⟨0, rfl⟩
  · rename_i hd hhd
    obtain ⟨v, hv⟩ := h hd hhd
    obtain ⟨n, hn, -⟩ := exists_of_valOf hv
    exact ⟨_, by rw [hn]; rfl⟩

/-- The head of a represented list is live. -/
theorem Rep.head_alive (hr : l.Rep ts) : ∀ hd, l.head = some hd → ∃ v, l.mem.valOf hd = some v := by
  intro hd hhd
  rw [← hr.linked.fwd.head?] at hhd
  exact hr.alive hd (List.mem_of_mem_head? hhd)

/-! ## `add_timer` -/

/-- The search stops at the last node, from `cur` on, whose successor does not expire before
`e`. -/
theorem seek_spec {cur : Ptr} {rest : List Ptr}
    (hc : Chain l.mem.nextOf (some cur) (cur :: rest))
    (halive : ∀ u ∈ cur :: rest, ∃ v, l.mem.valOf u = some v) :
    ∃ as c bs, cur :: rest = as ++ c :: bs ∧ Returns (fun fuel => l.seek e fuel cur) c ∧
      (∀ u ∈ as ++ [c], u = cur ∨ utilExpiry l.mem u < e) ∧
      ∀ b, bs.head? = some b → e ≤ utilExpiry l.mem b := by
  induction rest generalizing cur with
  | nil =>
    obtain ⟨v, hv⟩ := halive cur List.mem_cons_self
    obtain ⟨n, hn, -⟩ := exists_of_valOf hv
    have hnext : n.next = none := by rw [← nextOf_of_some hn]; exact hc.2
    refine ⟨[], cur, [], rfl, .succ (k := 0) ?_, by simp, by simp⟩
    intro fuel _
    simp [seek, hn, hnext]
  | cons y rest ih =>
    obtain ⟨v, hv⟩ := halive cur List.mem_cons_self
    obtain ⟨n, hn, -⟩ := exists_of_valOf hv
    have hnext : n.next = some y := by rw [← nextOf_of_some hn]; exact hc.2.1
    obtain ⟨w, hw⟩ := halive y (by simp)
    obtain ⟨ny, hny, -⟩ := exists_of_valOf hw
    have hey := utilExpiry_of_some hny
    have hc' : Chain l.mem.nextOf (some y) (y :: rest) := ⟨rfl, hc.2.2⟩
    rcases lt_or_ge ny.val.expire e with hlt | hge
    · obtain ⟨as, c, bs, heq, ⟨k, hk⟩, hbefore, hafter⟩ :=
        ih hc' fun u hu => halive u (List.mem_cons_of_mem _ hu)
      refine ⟨cur :: as, c, bs, by rw [heq]; rfl, .succ (k := k) ?_, ?_, hafter⟩
      · intro fuel hf
        simp [seek, hn, hnext, hny, hlt, hk fuel hf]
      · intro u hu
        rcases List.mem_cons.mp hu with rfl | hu
        · exact .inl rfl
        · rcases hbefore u hu with rfl | hu
          · exact .inr (hey ▸ hlt)
          · exact .inr hu
    · refine ⟨[], cur, y :: rest, rfl, .succ (k := 0) ?_, by simp, ?_⟩
      · intro fuel _
        simp [seek, hn, hnext, hny, hge.not_gt]
      · rintro b ⟨⟩
        exact hey ▸ hge

/-- Inserting a timer between the earlier and the later ones keeps the order. -/
theorem sorted_insert {f : Ptr → ℤ} (as : List Ptr) {bs : List Ptr}
    (h : (as ++ bs).Pairwise fun t u => f t ≤ f u) (hbefore : ∀ u ∈ as, f u ≤ f t)
    (hafter : ∀ b, bs.head? = some b → f t ≤ f b) :
    (as ++ t :: bs).Pairwise fun t u => f t ≤ f u := by
  obtain ⟨ha, hb, hab⟩ := List.pairwise_append.mp h
  have hall : ∀ b ∈ bs, f t ≤ f b := by
    intro b hb'
    cases bs with
    | nil => cases hb'
    | cons x bs =>
      rcases List.mem_cons.mp hb' with rfl | hmem
      · exact hafter _ rfl
      · exact (hafter x rfl).trans ((List.pairwise_cons.mp hb).1 b hmem)
  refine List.pairwise_append.mpr ⟨ha, List.pairwise_cons.mpr ⟨hall, hb⟩, ?_⟩
  intro u hu v hv
  rcases List.mem_cons.mp hv with rfl | hv
  · exact hbefore u hu
  · exact hab u hu v hv

/-- The links after a node is inserted behind `c`, whatever the store they are read from. -/
theorem linked_insert {m m' : NodeStore Ptr UtilTimer} {p : Option Ptr} {as bs : List Ptr} {c : Ptr}
    (h : DChain m.nextOf m.prevOf p (as ++ c :: bs)) (ht : t ∉ as ++ c :: bs)
    (hnext : m'.nextOf = Function.update (Function.update m.nextOf t bs.head?) c (some t))
    (hprev : ∀ x, m'.prevOf x =
      if x = t then some c else if bs.head? = some x then some t else m.prevOf x) :
    DChain m'.nextOf m'.prevOf p (as ++ c :: t :: bs) := by
  have hct : t ≠ c := by rintro rfl; simp at ht
  have hne : ∀ x ∈ as ++ c :: bs, x ≠ t := fun x hx he => ht (he ▸ hx)
  have hhead := h.fwd.next_mid
  refine h.insert (by simp [hnext]) (by simp [hnext, hct, hhead]) (by simp [hprev]) ?_ ?_ ?_
  · intro x hx hxc
    rw [hnext, Function.update_of_ne hxc, Function.update_of_ne (hne x hx)]
  · intro x hx
    rw [hhead] at hx
    have hmem : x ∈ bs := List.mem_of_mem_head? hx
    rw [hprev, if_neg (hne x (by simp [hmem])), if_pos hx]
  · intro x hx hnx
    rw [hprev, if_neg (hne x hx), if_neg (hhead ▸ hnx)]

/-- Inserting a timer behind `c`: every sequence of writes that ends in a store with these links keeps
the invariant. -/
theorem Rep.insert {as bs : List Ptr} {c : Ptr} (hr : l.Rep (as ++ c :: bs))
    (ht : t ∉ as ++ c :: bs) {v : UtilTimer} (hv : l.mem.valOf t = some v)
    (hsorted : (as ++ c :: t :: bs).Pairwise fun t u => utilExpiry l.mem t ≤ utilExpiry l.mem u)
    {m : NodeStore Ptr UtilTimer} {p : Option Ptr}
    (hnext : m.nextOf = Function.update (Function.update l.mem.nextOf t bs.head?) c (some t))
    (hprev : ∀ x, m.prevOf x =
      if x = t then some c else if bs.head? = some x then some t else l.mem.prevOf x)
    (hval : m.valOf = l.mem.valOf) (htail : p = (t :: bs).getLast?) :
    Rep { l with mem := m, tail := p } (as ++ c :: t :: bs) := by
  refine ⟨linked_insert hr.linked ht hnext hprev, ?_, ?_, ?_⟩
  · intro u hu
    show ∃ v, m.valOf u = some v
    rw [hval]
    rcases eq_or_ne u t with rfl | hne
    · exact ⟨v, hv⟩
    · exact hr.alive u (by simpa [hne] using hu)
  · rw [utilExpiry_congr hval]
    exact hsorted
  · intro _
    rw [htail]
    simp [List.getLast?_cons]

/-- Linking a timer behind a node of the list. -/
theorem linkBehind_spec {as bs : List Ptr} {c : Ptr} (hr : l.Rep (as ++ c :: bs))
    (ht : t ∉ as ++ c :: bs) {v : UtilTimer} (hv : l.mem.valOf t = some v)
    (hsorted : (as ++ c :: t :: bs).Pairwise fun t u => utilExpiry l.mem t ≤ utilExpiry l.mem u) :
    ∃ l', l.linkBehind t c = some l' ∧ l'.Rep (as ++ c :: t :: bs) ∧
      l'.mem.valOf = l.mem.valOf := by
  obtain ⟨w, hw⟩ := hr.alive c (by simp)
  obtain ⟨node, hnode, -⟩ := exists_of_valOf hw
  have hnext : node.next = bs.head? := by
    rw [← nextOf_of_some hnode]
    exact hr.linked.fwd.next_mid
  cases bs with
  | nil =>
    obtain ⟨m₁, hm₁, hn₁, hp₁, hv₁⟩ := setPrev_spec hv (some c)
    obtain ⟨m₂, hm₂, hn₂, hp₂, hv₂⟩ := setNext_spec (m := m₁) (by rw [hv₁]; exact hv) none
    obtain ⟨m₃, hm₃, hn₃, hp₃, hv₃⟩ :=
      setNext_spec (m := m₂) (by rw [hv₂, hv₁]; exact hw) (some t)
    have hval : m₃.valOf = l.mem.valOf := by rw [hv₃, hv₂, hv₁]
    refine ⟨{ l with mem := m₃, tail := some t }, ?_, hr.insert ht hv hsorted ?_ ?_ hval rfl, hval⟩
    · simp [linkBehind, hnode, hnext, hm₁, hm₂, hm₃]
    · rw [hn₃, hn₂, hn₁]; rfl
    · intro x
      rw [hp₃, hp₂, hp₁, Function.update_apply]
      simp
  | cons b bs =>
    have hbt : b ≠ t := by rintro rfl; simp at ht
    obtain ⟨u, hu⟩ := hr.alive b (by simp)
    obtain ⟨m₁, hm₁, hn₁, hp₁, hv₁⟩ := setNext_spec hv (some b)
    obtain ⟨m₂, hm₂, hn₂, hp₂, hv₂⟩ := setPrev_spec (m := m₁) (by rw [hv₁]; exact hu) (some t)
    obtain ⟨m₃, hm₃, hn₃, hp₃, hv₃⟩ :=
      setPrev_spec (m := m₂) (by rw [hv₂, hv₁]; exact hv) (some c)
    obtain ⟨m₄, hm₄, hn₄, hp₄, hv₄⟩ :=
      setNext_spec (m := m₃) (by rw [hv₃, hv₂, hv₁]; exact hw) (some t)
    have hval : m₄.valOf = l.mem.valOf := by rw [hv₄, hv₃, hv₂, hv₁]
    refine ⟨{ l with mem := m₄ }, ?_, hr.insert ht hv hsorted ?_ ?_ hval ?_, hval⟩
    · simp [linkBehind, hnode, hnext, hm₁, hm₂, hm₃, hm₄]
    · rw [hn₄, hn₃, hn₂, hn₁]; rfl
    · intro x
      rw [hp₄, hp₃, hp₂, hp₁, Function.update_apply, Function.update_apply]
      simp [eq_comm]
    · rw [hr.tail (by simp)]
      simp [List.getLast?_cons]

/-- The overload that inserts behind a node, on a list whose head expires before the timer. -/
theorem addTimerAt_spec {hd : Ptr} {rest : List Ptr} (hr : l.Rep (hd :: rest))
    (ht : t ∉ hd :: rest) {o : Node Ptr UtilTimer} (ho : l.mem t = some o)
    (hlt : utilExpiry l.mem hd < o.val.expire) :
    ∃ l' ts', Returns (l.addTimerAt t hd) l' ∧ l'.Rep ts' ∧ ts'.Perm (t :: hd :: rest) ∧
      l'.mem.valOf = l.mem.valOf := by
  have het := utilExpiry_of_some ho
  have hchain : Chain l.mem.nextOf (some hd) (hd :: rest) := hr.linked.fwd.1 ▸ hr.linked.fwd
  obtain ⟨as, c, bs, heq, ⟨k, hk⟩, hbefore, hafter⟩ :=
    seek_spec (e := o.val.expire) hchain hr.alive
  rw [heq] at hr ht
  have hsorted : (as ++ c :: t :: bs).Pairwise
      fun t u => utilExpiry l.mem t ≤ utilExpiry l.mem u := by
    have hsplit : ∀ xs : List Ptr, as ++ c :: xs = (as ++ [c]) ++ xs := by simp
    rw [hsplit]
    refine sorted_insert _ (by simpa using hr.sorted) ?_ (by rwa [het])
    intro u hu
    rcases hbefore u hu with rfl | h
    · exact het ▸ hlt.le
    · exact het ▸ h.le
  obtain ⟨l', hl', hr', hval⟩ := linkBehind_spec hr ht (valOf_of_some ho) hsorted
  refine ⟨l', _, ⟨k, ?_⟩, hr', ?_, hval⟩
  · intro fuel hf
    simp [addTimerAt, ho, hk fuel hf, hl']
  · rw [heq]
    have hmid : (as ++ [c] ++ t :: bs).Perm (t :: (as ++ [c] ++ bs)) := List.perm_middle
    simpa using hmid

/-- Putting a timer object as constructed in front of the list. -/
theorem Rep.push {hd : Ptr} {rest : List Ptr} (hr : l.Rep (hd :: rest)) (ht : t ∉ hd :: rest)
    (hfresh : l.mem t = some (UtilTimer.fresh e)) {m : NodeStore Ptr UtilTimer}
    (hnext : m.nextOf = Function.update l.mem.nextOf t (some hd))
    (hprev : m.prevOf = Function.update l.mem.prevOf hd (some t)) (hval : m.valOf = l.mem.valOf)
    (hle : e ≤ utilExpiry l.mem hd) : Rep { l with head := some t, mem := m } (t :: hd :: rest) := by
  have hhead : l.head = some hd := hr.linked.fwd.1
  have hne : ∀ u ∈ hd :: rest, u ≠ t := fun u hu he => ht (he ▸ hu)
  refine ⟨hr.linked.push ?_ ?_ ?_ ?_ ?_, ?_, ?_, ?_⟩
  · rw [hnext, Function.update_self, hhead]
  · rw [hprev, Function.update_of_ne (hne hd List.mem_cons_self).symm, prevOf_of_some hfresh]
    rfl
  · intro u hu
    rw [hnext, Function.update_of_ne (hne u hu)]
  · intro u hu
    obtain rfl : hd = u := Option.some.inj (hhead.symm.trans hu)
    rw [hprev, Function.update_self]
  · intro u hu hnu
    rw [hprev, Function.update_of_ne fun he => hnu (by rw [he, hhead])]
  · intro u hu
    show ∃ v, m.valOf u = some v
    rw [hval]
    rcases List.mem_cons.mp hu with rfl | hu
    · exact ⟨_, valOf_of_some hfresh⟩
    · exact hr.alive u hu
  · rw [utilExpiry_congr hval]
    refine sorted_insert [] hr.sorted (by simp) ?_
    rintro b ⟨⟩
    rw [utilExpiry_of_some hfresh]
    exact hle
  · intro _
    rw [hr.tail (by simp)]
    simp [List.getLast?_cons]

/-- `add_timer` of a timer object as constructed stores it, in its place. -/
theorem addTimer_spec (hr : l.Rep ts) (ht : t ∉ ts) (hfresh : l.mem t = some (UtilTimer.fresh e))
    (now : ℤ) : ∃ l' ts', Returns (l.addTimer now (some t)) l' ∧ l'.Rep ts' ∧
      ts'.Perm (t :: ts) ∧ l'.mem.valOf = l.mem.valOf := by
  have hvt := valOf_of_some hfresh
  cases ts with
  | nil =>
    have hhead : l.head = none := hr.linked.fwd
    have hr' : Rep { l with head := some t, tail := some t } [t] := by
      refine ⟨⟨⟨rfl, ?_⟩, ?_, trivial⟩, by simpa using ⟨_, hvt⟩, by simp, by simp⟩
      · exact nextOf_of_some hfresh
      · exact prevOf_of_some hfresh
    obtain ⟨a, ha⟩ := resetTimer_spec hr'.head_alive now
    exact ⟨_, [t], ⟨0, fun fuel _ => by simp [addTimer, hfresh, hhead, ha]⟩, hr'.setAlarm a,
      .refl _, rfl⟩
  | cons hd rest =>
    have hhead : l.head = some hd := hr.linked.fwd.1
    obtain ⟨v, hv⟩ := hr.alive hd List.mem_cons_self
    obtain ⟨first, hfirst, -⟩ := exists_of_valOf hv
    have hef := utilExpiry_of_some hfirst
    rcases le_or_gt e first.val.expire with hle | hgt
    · obtain ⟨m₁, hm₁, hn₁, hp₁, hv₁⟩ := setNext_spec hvt (some hd)
      obtain ⟨m₂, hm₂, hn₂, hp₂, hv₂⟩ := setPrev_spec (m := m₁) (by rw [hv₁]; exact hv) (some t)
      have hval : m₂.valOf = l.mem.valOf := by rw [hv₂, hv₁]
      have hr' := hr.push ht hfresh (m := m₂) (by rw [hn₂, hn₁]) (by rw [hp₂, hp₁]) hval
        (by rw [hef]; exact hle)
      obtain ⟨a, ha⟩ := resetTimer_spec hr'.head_alive now
      refine ⟨_, _, ⟨0, ?_⟩, hr'.setAlarm a, .refl _, hval⟩
      intro fuel _
      simp [addTimer, hfresh, hhead, hfirst, UtilTimer.fresh, hle, hm₁, hm₂, ha]
    · obtain ⟨l', ts', ⟨k, hk⟩, hr', hperm, hval⟩ :=
        addTimerAt_spec hr ht hfresh (by rw [hef]; exact hgt)
      refine ⟨l', ts', ⟨k, ?_⟩, hr', hperm, hval⟩
      intro fuel hf
      simp [addTimer, hfresh, hhead, hfirst, UtilTimer.fresh, hgt.not_ge, hk fuel hf]

/-! ## `del_timer` -/

/-- The objects of a list whose links only were written. -/
theorem Rep.relink {m : NodeStore Ptr UtilTimer} {p q : Option Ptr} {us : List Ptr} (hr : l.Rep ts)
    (hlinked : DChain m.nextOf m.prevOf p us) (hval : m.valOf = l.mem.valOf) (hsub : us.Sublist ts)
    (htail : us ≠ [] → q = us.getLast?) : Rep { l with head := p, tail := q, mem := m } us := by
  refine ⟨hlinked, ?_, ?_, htail⟩
  · intro u hu
    show ∃ v, m.valOf u = some v
    rw [hval]
    exact hr.alive u (hsub.subset hu)
  · rw [utilExpiry_congr hval]
    exact hr.sorted.sublist hsub

/-- A timer can be read again after only links were written. -/
theorem read_again {m m' : NodeStore Ptr UtilTimer} {v : UtilTimer} (hv : m.valOf t = some v)
    (hval : m'.valOf = m.valOf) :
    ∃ n, m' t = some n ∧ n.next = m'.nextOf t ∧ n.prev = m'.prevOf t := by
  obtain ⟨n, hn, -⟩ := exists_of_valOf (m := m') (by rw [hval]; exact hv)
  exact ⟨n, hn, (nextOf_of_some hn).symm, (prevOf_of_some hn).symm⟩

/-- `del_timer` of the only timer. -/
theorem delTimer_only (hr : l.Rep [t]) (now : ℤ) : ∃ l', l.delTimer now (some t) = some l' ∧
    l'.Rep [] ∧ l'.tail = none ∧ l'.mem.valOf = l.mem.valOf := by
  obtain ⟨v, hv⟩ := hr.alive t List.mem_cons_self
  obtain ⟨node, hnode, -⟩ := exists_of_valOf hv
  have hhd : l.head = some t := hr.linked.fwd.1
  have htl : l.tail = some t := hr.tail (by simp)
  have hnone : node.next = none := (nextOf_of_some hnode).symm.trans hr.linked.fwd.2
  have hr' : Rep { l with head := none, tail := none } [] :=
    hr.relink .nil rfl (List.nil_sublist _) (by simp)
  obtain ⟨a, ha⟩ := resetTimer_spec hr'.head_alive now
  exact ⟨_, by simp [delTimer, hhd, htl, hnode, hnone, ha], hr'.setAlarm a, rfl, rfl⟩

/-- A timer that has another behind it is not the last. -/
theorem Rep.tail_ne {as bs : List Ptr} {b : Ptr} (hr : l.Rep (as ++ t :: b :: bs)) :
    l.tail ≠ some t := by
  intro htl
  have hndt := List.nodup_cons.mp (List.nodup_append'.mp hr.nodup).2.1
  have hlast := hr.tail (by simp)
  rw [List.getLast?_append, List.getLast?_cons_cons] at hlast
  exact hndt.1 (List.mem_of_getLast? (by simpa [htl] using hlast.symm))

/-- A timer that has another before it is not the first. -/
theorem Rep.head_ne {as bs : List Ptr} {a : Ptr} (hr : l.Rep (as ++ [a] ++ t :: bs)) :
    l.head ≠ some t := by
  intro hhd
  have hfirst := hr.linked.fwd.head?.trans hhd
  rw [List.head?_append_of_ne_nil _ (by simp)] at hfirst
  exact (List.nodup_append'.mp hr.nodup).2.2 (List.mem_of_mem_head? hfirst) List.mem_cons_self

/-- `del_timer` of the head of several timers. -/
theorem delTimer_head {b : Ptr} {bs : List Ptr} (hr : l.Rep (t :: b :: bs)) (now : ℤ) :
    ∃ l', l.delTimer now (some t) = some l' ∧ l'.Rep (b :: bs) ∧
      l'.tail = (b :: bs).getLast? ∧ l'.mem.valOf = l.mem.valOf := by
  obtain ⟨v, hv⟩ := hr.alive t List.mem_cons_self
  obtain ⟨node, hnode, -⟩ := exists_of_valOf hv
  have hhd : l.head = some t := hr.linked.fwd.1
  have hfront : l.Rep ([] ++ t :: b :: bs) := hr
  have htl : l.tail ≠ some t := hfront.tail_ne
  have hnt : l.mem.nextOf t = some b := hr.linked.fwd.2.1
  have hb : node.next = some b := (nextOf_of_some hnode).symm.trans hnt
  have hprev : l.mem.prevOf t = none := hr.linked.bwd.1
  have hnone : node.prev = none := (prevOf_of_some hnode).symm.trans hprev
  obtain ⟨vb, hvb⟩ := hr.alive b (by simp)
  obtain ⟨m, hm, hn, hp, hval⟩ := setPrev_spec hvb none
  obtain ⟨n, hmt, hnn, -⟩ := read_again hv hval
  rw [hn, hnt] at hnn
  have hlinked : DChain m.nextOf m.prevOf (l.mem.nextOf t) (b :: bs) := by
    refine hfront.linked.remove (by simp) (fun x _ _ => by rw [hn]) ?_ ?_
    · intro x hx
      obtain rfl : b = x := Option.some.inj (hnt.symm.trans hx)
      rw [hp, Function.update_self, hprev]
    · intro x _ hx
      rw [hp, Function.update_of_ne]
      rintro rfl
      exact hx hnt
  have htail : l.tail = (b :: bs).getLast? := (hr.tail (by simp)).trans List.getLast?_cons_cons
  have hr' : Rep { l with head := some b, tail := l.tail, mem := m } (b :: bs) :=
    hr.relink (by rwa [hnt] at hlinked) hval (List.sublist_cons_self t _) fun _ => htail
  obtain ⟨a, ha⟩ := resetTimer_spec hr'.head_alive now
  refine ⟨_, ?_, hr'.setAlarm a, htail, hval⟩
  simp [delTimer, hhd, htl, hnode, hb, hnone, hm, hmt, hnn, ha]

/-- `del_timer` of a timer between two others. -/
theorem delTimer_middle {as bs : List Ptr} {a b : Ptr} (hr : l.Rep (as ++ [a] ++ t :: b :: bs))
    (now : ℤ) : ∃ l', l.delTimer now (some t) = some l' ∧ l'.Rep (as ++ [a] ++ b :: bs) ∧
      l'.tail = (as ++ [a] ++ b :: bs).getLast? ∧ l'.mem.valOf = l.mem.valOf := by
  obtain ⟨v, hv⟩ := hr.alive t (by simp)
  obtain ⟨node, hnode, -⟩ := exists_of_valOf hv
  have hnd := List.nodup_append'.mp hr.nodup
  have htl : l.tail ≠ some t := hr.tail_ne
  have hnt : l.mem.nextOf t = some b := hr.linked.fwd.next_mid
  have hpt : l.mem.prevOf t = some a := by simpa using hr.linked.prev_mid
  have hb : node.next = some b := (nextOf_of_some hnode).symm.trans hnt
  have ha : node.prev = some a := (prevOf_of_some hnode).symm.trans hpt
  have hat : t ≠ a := by
    rintro rfl
    exact hnd.2.2 (by simp) List.mem_cons_self
  have hhd : l.head ≠ some t := hr.head_ne
  obtain ⟨va, hva⟩ := hr.alive a (by simp)
  obtain ⟨vb, hvb⟩ := hr.alive b (by simp)
  obtain ⟨m₁, hm₁, hn₁, hp₁, hval₁⟩ := setNext_spec hva (some b)
  obtain ⟨n, hmt, hnn, hnp⟩ := read_again hv hval₁
  rw [hn₁, Function.update_of_ne hat, hnt] at hnn
  rw [hp₁, hpt] at hnp
  obtain ⟨m₂, hm₂, hn₂, hp₂, hval₂⟩ := setPrev_spec (m := m₁) (by rw [hval₁]; exact hvb) (some a)
  have hval := hval₂.trans hval₁
  have hlinked : DChain m₂.nextOf m₂.prevOf l.head (as ++ [a] ++ b :: bs) := by
    have hremove : DChain m₂.nextOf m₂.prevOf
        (if as ++ [a] = [] then l.mem.nextOf t else l.head) (as ++ [a] ++ b :: bs) := by
      refine hr.linked.remove ?_ ?_ ?_ ?_
      · intro x hx
        obtain rfl : a = x := by simpa using hx
        rw [hn₂, hn₁, Function.update_self, hnt]
      · intro x _ hx
        rw [hn₂, hn₁, Function.update_of_ne]
        rintro rfl
        simp at hx
      · intro x hx
        obtain rfl : b = x := Option.some.inj (hnt.symm.trans hx)
        rw [hp₂, Function.update_self, hpt]
      · intro x _ hx
        rw [hp₂, Function.update_of_ne, hp₁]
        rintro rfl
        exact hx hnt
    rwa [if_neg (by simp)] at hremove
  have htail : l.tail = (as ++ [a] ++ b :: bs).getLast? := by
    rw [hr.tail (by simp), List.getLast?_append, List.getLast?_cons_cons, ← List.getLast?_append]
  refine ⟨{ l with mem := m₂ }, ?_, hr.relink hlinked hval ?_ fun _ => htail, htail, hval⟩
  · simp [delTimer, hhd, htl, hnode, ha, hb, hm₁, hmt, hnn, hnp, hm₂]
  · exact (List.sublist_cons_self t _).append_left _

/-- `del_timer` takes out a stored timer that is not the last of several. -/
theorem delTimer_spec (hr : l.Rep ts) (ht : t ∈ ts) (htail : l.tail = some t → l.head = some t)
    (now : ℤ) : ∃ l', l.delTimer now (some t) = some l' ∧ l'.Rep (ts.erase t) ∧
      l'.tail = (ts.erase t).getLast? ∧ l'.mem.valOf = l.mem.valOf := by
  obtain ⟨as, bs, rfl⟩ := List.append_of_mem ht
  have hnd := List.nodup_append'.mp hr.nodup
  have herase : (as ++ t :: bs).erase t = as ++ bs := by
    rw [List.erase_append_right _ fun hm => hnd.2.2 hm List.mem_cons_self, List.erase_cons_head]
  rw [herase]
  cases bs with
  | nil =>
    -- the last timer: it is the only one
    have has : as = [] := by
      have hfirst := hr.linked.fwd.head?.trans (htail (by simpa using hr.tail (by simp)))
      cases as with
      | nil => rfl
      | cons a as =>
        obtain rfl : a = t := Option.some.inj hfirst
        exact absurd List.mem_cons_self fun hm => hnd.2.2 hm List.mem_cons_self
    subst has
    exact delTimer_only hr now
  | cons b bs =>
    rcases List.eq_nil_or_concat' as with rfl | ⟨as, a, rfl⟩
    · exact delTimer_head hr now
    · exact delTimer_middle hr now

/-- `del_timer` of the last of several timers completes, too, and takes it out, but leaves `tail`. -/
theorem delTimer_last (hr : l.Rep ts) (ht : t ∈ ts) (htail : l.tail = some t)
    (hhd : l.head ≠ some t) (now : ℤ) : ∃ l', l.delTimer now (some t) = some l' ∧
      Rep { l' with tail := (ts.erase t).getLast? } (ts.erase t) ∧ l'.mem.valOf = l.mem.valOf := by
  obtain ⟨v, hv⟩ := hr.alive t ht
  obtain ⟨node, hnode, -⟩ := exists_of_valOf hv
  obtain ⟨as, bs, rfl⟩ := List.append_of_mem ht
  have hprev := hr.linked.prev_mid
  have hnd := List.nodup_append'.mp hr.nodup
  cases bs with
  | cons b bs => exact absurd htail hr.tail_ne
  | nil =>
  rcases List.eq_nil_or_concat' as with rfl | ⟨as, a, rfl⟩
  · exact absurd hr.linked.fwd.1 hhd
  · have ha : node.prev = some a := (prevOf_of_some hnode).symm.trans (by simpa using hprev)
    have hnone : l.mem.nextOf t = none := hr.linked.fwd.next_mid
    have hnn : node.next = none := (nextOf_of_some hnode).symm.trans hnone
    obtain ⟨va, hva⟩ := hr.alive a (by simp)
    obtain ⟨m, hm, hn, hp, hval⟩ := setNext_spec hva none
    have herase : (as ++ [a] ++ [t]).erase t = as ++ [a] := by
      rw [List.erase_append_right _ fun hm => hnd.2.2 hm List.mem_cons_self]
      simp
    have hlinked : DChain m.nextOf m.prevOf
        (if as ++ [a] = [] then l.mem.nextOf t else l.head) (as ++ [a] ++ []) := by
      refine hr.linked.remove ?_ ?_ ?_ fun x _ _ => by rw [hp]
      · intro x hx
        obtain rfl : a = x := by simpa using hx
        rw [hn, Function.update_self, hnone]
      · intro x _ hx
        rw [hn, Function.update_of_ne]
        rintro rfl
        simp at hx
      · intro x hx
        rw [hnone] at hx
        cases hx
    rw [if_neg (by simp), List.append_nil] at hlinked
    refine ⟨{ l with mem := m }, by simp [delTimer, hhd, htail, hnode, ha, hnn, hm], ?_, hval⟩
    rw [herase]
    exact hr.relink hlinked hval (List.sublist_append_left _ _) fun _ => rfl

/-! ## `tick` -/

/-- The invariant of the loop of `tick`: the representation invariant, but for the back link of the
head, which still names the timer deleted last. -/
structure Popping (l : SortTimerLst) (ts : List Ptr) : Prop where
  fwd : Chain l.mem.nextOf l.head ts
  bwd : ∃ q, Back l.mem.prevOf q ts
  alive : ∀ t ∈ ts, ∃ v, l.mem.valOf t = some v
  sorted : ts.Pairwise fun t u => utilExpiry l.mem t ≤ utilExpiry l.mem u
  tail : ts ≠ [] → l.tail = ts.getLast?

theorem Rep.popping (hr : l.Rep ts) : l.Popping ts :=
  ⟨hr.linked.fwd, ⟨none, hr.linked.bwd⟩, hr.alive, hr.sorted, hr.tail⟩

/-- Deleting the head. -/
theorem Popping.pop {hd : Ptr} {rest : List Ptr} (hp : l.Popping (hd :: rest)) :
    Popping { l with head := l.mem.nextOf hd, mem := Function.update l.mem hd none } rest ∧
      ∀ u ∈ rest, valOf (Function.update l.mem hd none) u = l.mem.valOf u := by
  have hnd := List.nodup_cons.mp hp.fwd.nodup
  have hne : ∀ u ∈ rest, u ≠ hd := fun u hu he => hnd.1 (he ▸ hu)
  have hval : ∀ u ∈ rest, valOf (Function.update l.mem hd none) u = l.mem.valOf u :=
    fun u hu => (update_of_ne (hne u hu) none).2.2
  obtain ⟨q, hq⟩ := hp.bwd
  refine ⟨⟨?_, ⟨some hd, ?_⟩, ?_, ?_, ?_⟩, hval⟩
  · exact hp.fwd.2.congr fun u hu => (update_of_ne (hne u hu) none).1
  · exact hq.2.congr fun u hu => (update_of_ne (hne u hu) none).2.1
  · intro u hu
    show ∃ v, valOf (Function.update l.mem hd none) u = some v
    rw [hval u hu]
    exact hp.alive u (List.mem_cons_of_mem _ hu)
  · refine (List.pairwise_cons.mp hp.sorted).2.imp_of_mem ?_
    intro u v hu hv hle
    simpa [utilExpiry, hval u hu, hval v hv] using hle
  · intro hrest
    show l.tail = _
    rw [hp.tail (by simp), List.getLast?_cons_of_ne_nil hrest]

/-- What the loop of `tick` does: it fires the timers in front that have expired at `now`, and
keeps the others, which have not. -/
structure Ticked (now : ℤ) (l l' : SortTimerLst) (ts ts' fired : List Ptr) : Prop where
  split : ts = fired ++ ts'
  due : ∀ t ∈ fired, utilExpiry l.mem t ≤ now
  later : ∀ t ∈ ts', now < utilExpiry l.mem t
  val : ∀ t ∈ ts', l'.mem.valOf t = l.mem.valOf t
  tail : l'.tail = l.tail

/-- The loop of `tick` ends. -/
theorem tickLoop_spec (hp : l.Popping ts) (now : ℤ) :
    ∃ l' fired ts', Returns (fun fuel => tickLoop now fuel l) (l', fired) ∧ l'.Popping ts' ∧
      Ticked now l l' ts ts' fired := by
  induction ts generalizing l with
  | nil =>
    refine ⟨l, [], [], .succ (k := 0) ?_, hp, rfl, by simp, by simp, by simp, rfl⟩
    intro fuel _
    have hhead : l.head = none := hp.fwd
    simp [tickLoop, hhead]
  | cons hd rest ih =>
    have hhead : l.head = some hd := hp.fwd.1
    obtain ⟨v, hv⟩ := hp.alive hd List.mem_cons_self
    obtain ⟨first, hfirst, -⟩ := exists_of_valOf hv
    have hef := utilExpiry_of_some hfirst
    rcases le_or_gt first.val.expire now with hle | hgt
    · obtain ⟨hp', hval⟩ := hp.pop
      obtain ⟨l', fired, ts', ⟨k, hk⟩, hpop, ht⟩ := ih hp'
      have hexp : ∀ u ∈ rest, utilExpiry (Function.update l.mem hd none) u = utilExpiry l.mem u :=
        fun u hu => by rw [utilExpiry, hval u hu, utilExpiry]
      have hsub : ∀ u, u ∈ fired ∨ u ∈ ts' → u ∈ rest := fun u hu => by
        rw [ht.split, List.mem_append]; exact hu
      refine ⟨l', hd :: fired, ts', .succ (k := k) ?_, hpop, ?_, ?_, ?_, ?_, ht.tail⟩
      · intro fuel hf
        have := hk fuel hf
        simp only [nextOf_of_some hfirst] at this
        simp [tickLoop, hhead, hfirst, hle, this]
      · rw [ht.split]; rfl
      · intro u hu
        rcases List.mem_cons.mp hu with rfl | hu
        · exact hef ▸ hle
        · exact hexp u (hsub u (.inl hu)) ▸ ht.due u hu
      · exact fun u hu => hexp u (hsub u (.inr hu)) ▸ ht.later u hu
      · exact fun u hu => (ht.val u hu).trans (hval u (hsub u (.inr hu)))
    · refine ⟨l, [], hd :: rest, .succ (k := 0) ?_, hp, rfl, by simp, ?_, by simp, rfl⟩
      · intro fuel _
        simp [tickLoop, hhead, hfirst, hgt.not_ge]
      · intro u hu
        rcases List.mem_cons.mp hu with rfl | hu
        · exact hef ▸ hgt
        · exact lt_of_lt_of_le (hef ▸ hgt) ((List.pairwise_cons.mp hp.sorted).1 u hu)

/-- `tick` fires the expired timers in order of expiry, and keeps the others. -/
theorem tick_spec (hr : l.Rep ts) (now later : ℤ) :
    ∃ l' fired ts', Returns (l.tick now later) (l', fired) ∧ l'.Rep ts' ∧
      Ticked now l l' ts ts' fired := by
  obtain ⟨l₁, fired, ts', ⟨k, hk⟩, hp, ht⟩ := tickLoop_spec hr.popping now
  cases ts' with
  | nil =>
    have hhead : l₁.head = none := hp.fwd
    have hr₁ : l₁.Rep [] := ⟨⟨hp.fwd, trivial⟩, by simp, .nil, by simp⟩
    obtain ⟨a, ha⟩ := resetTimer_spec hr₁.head_alive later
    refine ⟨_, fired, [], ⟨k, ?_⟩, hr₁.setAlarm a, ht.split, ht.due, by simp, by simp, ht.tail⟩
    intro fuel hf
    obtain ⟨head, tail, mem, alarm⟩ := l₁
    obtain rfl : head = none := hhead
    simp [tick, hk fuel hf, ha]
  | cons hd rest =>
    have hhead : l₁.head = some hd := hp.fwd.1
    obtain ⟨v, hv⟩ := hp.alive hd List.mem_cons_self
    obtain ⟨m, hm, hn, hpr, hval⟩ := setPrev_spec hv none
    have hnd := List.nodup_cons.mp hp.fwd.nodup
    have hr₁ : Rep { l₁ with mem := m } (hd :: rest) := by
      obtain ⟨q, hq⟩ := hp.bwd
      refine ⟨⟨?_, ?_, ?_⟩, ?_, ?_, hp.tail⟩
      · exact hp.fwd.congr fun u _ => congrFun hn u
      · rw [hpr, Function.update_self]
      · refine hq.2.congr ?_
        intro u hu
        have hne : u ≠ hd := fun he => hnd.1 (he ▸ hu)
        rw [hpr, Function.update_of_ne hne]
      · intro u hu
        show ∃ v, m.valOf u = some v
        rw [hval]
        exact hp.alive u hu
      · rw [utilExpiry_congr hval]; exact hp.sorted
    obtain ⟨a, ha⟩ := resetTimer_spec hr₁.head_alive later
    refine ⟨_, fired, _, ⟨k, ?_⟩, hr₁.setAlarm a, ht.split, ht.due, ht.later, ?_, ht.tail⟩
    · intro fuel hf
      obtain ⟨head, tail, mem, alarm⟩ := l₁
      obtain rfl : head = some hd := hhead
      simp [tick, hk fuel hf, hm, ha]
    · intro u hu
      show m.valOf u = _
      rw [hval]
      exact ht.val u hu

end SortTimerLst

end Ulsp
