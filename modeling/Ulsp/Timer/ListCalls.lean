import Ulsp.Timer.ListRun

/-!
# Every call on the sorted timer list

A run of `LstCallStep` makes all the calls a client has: those of `LstStep`, and `setExpire` of a
stored timer followed by `adjust_timer`. `Linked` is what such a run keeps for as long as `InOrder`
guards it: the stored timers are linked in order of expiry, whatever `tail` is. Neither `add_timer` nor
`tick` reads `tail`, so a stale one is harmless until `del_timer` compares it with a timer that was
constructed at its address (`del_timer` of the last timer ends on a null pointer then).
`adjust_timer` of a timer that stays between its neighbours finds the list in order, and of one that
leaves them does nothing either, which is why the guard asks for the first.
-/

namespace Ulsp

open Lib Lib.NodeStore

namespace SortTimerLst

/-- The list with another `tail`. -/
def withTail (x : Option Ptr) (l : SortTimerLst) : SortTimerLst := { l with tail := x }

/-- The list links the timers `ts` in order, whatever its `tail` is. -/
def Linked (l : SortTimerLst) (ts : List Ptr) : Prop := (l.withTail ts.getLast?).Rep ts

variable {l l' : SortTimerLst} {ts ts' : List Ptr} {t : Ptr} {now e : ℤ} {x : Option Ptr}

theorem Rep.linked_of_withTail (hr : (l.withTail x).Rep ts) : l.Linked ts :=
  ⟨hr.linked, hr.alive, hr.sorted, fun _ => rfl⟩

/-- A list whose `tail` is right links its timers as well. -/
theorem Linked.rep (hl : l.Linked ts) (h : l.tail = ts.getLast?) : l.Rep ts :=
  ⟨hl.linked, hl.alive, hl.sorted, fun _ => h⟩

/-! ## `tail` is written, not read -/

@[simp] theorem withTail_head (x : Option Ptr) (l : SortTimerLst) : (l.withTail x).head = l.head := rfl

@[simp] theorem withTail_mem (x : Option Ptr) (l : SortTimerLst) : (l.withTail x).mem = l.mem := rfl

theorem resetTimer_withTail (now : ℤ) (x : Option Ptr) (l : SortTimerLst) :
    (l.withTail x).resetTimer now = (l.resetTimer now).map (withTail x) := by
  obtain ⟨head, tail, mem, alarm⟩ := l
  cases head with
  | none => rfl
  | some hd =>
    simp only [resetTimer, withTail]
    cases mem hd <;> rfl

theorem seek_withTail (e : ℤ) (x : Option Ptr) (l : SortTimerLst) (fuel : ℕ) (cur : Ptr) :
    (l.withTail x).seek e fuel cur = l.seek e fuel cur := by
  induction fuel generalizing cur with
  | zero => rfl
  | succ fuel ih =>
    simp only [seek, ih]
    rfl

/-- Linking a timer behind another sets `tail` or leaves it. -/
theorem linkBehind_withTail (t cur : Ptr) (x : Option Ptr) (l : SortTimerLst) :
    ∃ y, (l.withTail x).linkBehind t cur = (l.linkBehind t cur).map (withTail y) := by
  cases hnode : l.mem cur with
  | none => exact ⟨x, by simp [linkBehind, withTail, hnode]⟩
  | some node =>
    cases hnext : node.next with
    | none =>
      exact ⟨some t, by simp [linkBehind, withTail, hnode, hnext, Option.map_bind, Function.comp_def]⟩
    | some n =>
      exact ⟨x, by simp [linkBehind, withTail, hnode, hnext, Option.map_bind, Function.comp_def]⟩

/-- The overload that inserts behind a node sets `tail` or leaves it. -/
theorem addTimerAt_withTail (t hd : Ptr) (x : Option Ptr) (l : SortTimerLst) (fuel : ℕ) :
    ∃ y, (l.withTail x).addTimerAt t hd fuel = (l.addTimerAt t hd fuel).map (withTail y) := by
  cases hobj : l.mem t with
  | none => exact ⟨x, by simp [addTimerAt, hobj]⟩
  | some obj =>
    cases hcur : l.seek obj.val.expire fuel hd with
    | none => exact ⟨x, by simp [addTimerAt, seek_withTail, hobj, hcur]⟩
    | some cur =>
      obtain ⟨y, hy⟩ := linkBehind_withTail t cur x l
      exact ⟨y, by simp [addTimerAt, seek_withTail, hobj, hcur, hy]⟩

/-- `add_timer` sets `tail` or leaves it. -/
theorem addTimer_withTail (now : ℤ) (timer x : Option Ptr) (l : SortTimerLst) (fuel : ℕ) :
    ∃ y, (l.withTail x).addTimer now timer fuel = (l.addTimer now timer fuel).map (withTail y) := by
  cases timer with
  | none => exact ⟨x, rfl⟩
  | some t =>
    cases hobj : l.mem t with
    | none => exact ⟨x, by simp [addTimer, hobj]⟩
    | some obj =>
      cases hhead : l.head with
      | none =>
        refine ⟨some t, ?_⟩
        simp only [addTimer, withTail_mem, withTail_head, hobj, hhead, Option.bind_eq_bind,
          Option.bind_some]
        exact resetTimer_withTail now (some t) { l with head := some t, tail := some t }
      | some hd =>
        cases hfirst : l.mem hd with
        | none => exact ⟨x, by simp [addTimer, hhead, hfirst]⟩
        | some first =>
          rcases Decidable.em (obj.val.expire ≤ first.val.expire) with hle | hgt
          · refine ⟨x, ?_⟩
            simp only [addTimer, withTail_mem, withTail_head, hobj, hhead, hfirst, hle, if_true,
              Option.bind_eq_bind, Option.bind_some, Option.map_bind]
            refine Option.bind_congr ?_
            intro m _
            rw [Function.comp_apply, Option.map_bind]
            refine Option.bind_congr ?_
            intro m' _
            exact resetTimer_withTail now x { l with head := some t, mem := m' }
          · obtain ⟨y, hy⟩ := addTimerAt_withTail t hd x l fuel
            exact ⟨y, by simp [addTimer, hobj, hhead, hfirst, hgt, hy]⟩

theorem tickLoop_withTail (now : ℤ) (x : Option Ptr) (fuel : ℕ) (l : SortTimerLst) :
    tickLoop now fuel (l.withTail x) =
      (tickLoop now fuel l).map fun r => (r.1.withTail x, r.2) := by
  induction fuel generalizing l with
  | zero => rfl
  | succ fuel ih =>
    cases hhead : l.head with
    | none => simp [tickLoop, withTail, hhead]
    | some hd =>
      cases hfirst : l.mem hd with
      | none => simp [tickLoop, withTail, hhead, hfirst]
      | some first =>
        rcases le_or_gt first.val.expire now with hle | hgt
        · have := ih { l with head := first.next, mem := Function.update l.mem hd none }
          simp only [withTail] at this
          simp [tickLoop, withTail, hhead, hfirst, hle, this, Option.map_bind, Option.bind_map]
        · simp [tickLoop, withTail, hhead, hfirst, hgt.not_ge]

/-- `tick` leaves `tail`. -/
theorem tick_withTail (now later : ℤ) (x : Option Ptr) (l : SortTimerLst) (fuel : ℕ) :
    (l.withTail x).tick now later fuel =
      (l.tick now later fuel).map fun r => (r.1.withTail x, r.2) := by
  cases hloop : tickLoop now fuel l with
  | none => simp [tick, tickLoop_withTail, hloop]
  | some r =>
    obtain ⟨⟨head, tail, mem, alarm⟩, fired⟩ := r
    have hrun : tickLoop now fuel (l.withTail x) = some (⟨head, x, mem, alarm⟩, fired) := by
      rw [tickLoop_withTail, hloop]
      rfl
    have hreset : ∀ m : NodeStore Ptr UtilTimer, resetTimer later ⟨head, x, m, alarm⟩ =
        (resetTimer later ⟨head, tail, m, alarm⟩).map (withTail x) :=
      fun m => resetTimer_withTail later x ⟨head, tail, m, alarm⟩
    cases head with
    | none => simp [tick, hrun, hloop, hreset, Option.map_bind, Option.bind_map]
    | some hd => simp [tick, hrun, hloop, hreset, Option.map_bind, Option.bind_map]

/-- `del_timer` of a timer that is not at `tail` does the same for every other `tail`. -/
theorem delTimer_withTail (now : ℤ) (hx : x ≠ some t) (h : l.tail ≠ some t) :
    ∃ y, (l.withTail x).delTimer now (some t) = (l.delTimer now (some t)).map (withTail y) := by
  rcases Decidable.em (l.head = some t) with hhead | hhead
  · cases hnode : l.mem t with
    | none => exact ⟨x, by simp [delTimer, withTail, hhead, h, hx, hnode]⟩
    | some node =>
      cases hnext : node.next with
      | none => exact ⟨x, by simp [delTimer, withTail, hhead, h, hx, hnode, hnext]⟩
      | some n =>
        cases hm : l.mem.setPrev n node.prev with
        | none => exact ⟨x, by simp [delTimer, withTail, hhead, h, hx, hnode, hnext, hm]⟩
        | some m =>
          cases hnode' : m t with
          | none => exact ⟨x, by simp [delTimer, withTail, hhead, h, hx, hnode, hnext, hm, hnode']⟩
          | some node' =>
            refine ⟨if node'.next = none then none else x, ?_⟩
            simp only [delTimer, withTail, hhead, h, hx, hnode, hnext, hm, hnode', if_true, if_false,
              Option.bind_eq_bind, Option.bind_some]
            rw [← resetTimer_withTail]
            rfl
  · refine ⟨x, ?_⟩
    simp [delTimer, withTail, hhead, h, hx, Option.map_bind, Function.comp_def]

/-! ## What the operations keep of `Linked` -/

/-- The constructor's list links nothing. -/
theorem empty_linked (mem : NodeStore Ptr UtilTimer) (a : ℕ) : (empty mem a).Linked [] :=
  empty_rep mem a

/-- The links do not depend on the objects that are not stored. -/
theorem Linked.update (hl : l.Linked ts) (ht : t ∉ ts) (o : Option (Node Ptr UtilTimer)) :
    Linked { l with mem := Function.update l.mem t o } ts := Rep.update hl ht o

/-- `add_timer` of a timer object as constructed links it in its place. -/
theorem Linked.addTimer (hl : l.Linked ts) (ht : t ∉ ts) (hfresh : l.mem t = some (UtilTimer.fresh e))
    (hadd : Returns (l.addTimer now (some t)) l') :
    ∃ ts', l'.Linked ts' ∧ ts'.Perm (t :: ts) := by
  obtain ⟨m, ts', ⟨k, hk⟩, hr, hperm, -⟩ := addTimer_spec hl ht hfresh now
  obtain ⟨k', hk'⟩ := hadd
  obtain ⟨y, hy⟩ := addTimer_withTail now (some t) ts.getLast? l (max k k')
  rw [hk _ (le_max_left ..), hk' _ (le_max_right ..)] at hy
  obtain rfl := Option.some.inj hy
  exact ⟨ts', hr.linked_of_withTail, hperm⟩

/-- `tick` keeps the timers that have not expired. -/
theorem Linked.tick {later : ℤ} {fired : List Ptr} (hl : l.Linked ts)
    (htick : Returns (l.tick now later) (l', fired)) : ∃ ts', l'.Linked ts' ∧ ts = fired ++ ts' := by
  obtain ⟨m, fired', ts', ⟨k, hk⟩, hr, ht⟩ := tick_spec hl now later
  obtain ⟨k', hk'⟩ := htick
  have heq := tick_withTail now later ts.getLast? l (max k k')
  rw [hk _ (le_max_left ..), hk' _ (le_max_right ..)] at heq
  obtain ⟨rfl, rfl⟩ := Prod.mk.inj (Option.some.inj heq)
  exact ⟨ts', hr.linked_of_withTail, ht.split⟩

/-- `del_timer` of the last timer fails where `tail` is stale: it ends on a null pointer. -/
theorem delTimer_stale {as : List Ptr} (hl : l.Linked (as ++ [t])) (h : l.tail ≠ some t) (now : ℤ) :
    l.delTimer now (some t) = none := by
  obtain ⟨v, hv⟩ := hl.alive t (by simp)
  obtain ⟨node, hnode, -⟩ := exists_of_valOf (m := l.mem) hv
  have hnt : l.mem.nextOf t = none := hl.linked.fwd.next_mid
  have hnone : node.next = none := (nextOf_of_some hnode).symm.trans hnt
  rcases List.eq_nil_or_concat' as with rfl | ⟨as, a, rfl⟩
  · have hhd : l.head = some t := hl.linked.fwd.1
    simp [delTimer, hhd, h, hnode, hnone]
  · have hnd := List.nodup_append'.mp hl.nodup
    have hpt : l.mem.prevOf t = some a := by simpa using hl.linked.prev_mid
    have ha : node.prev = some a := (prevOf_of_some hnode).symm.trans hpt
    have hat : t ≠ a := by
      rintro rfl
      exact hnd.2.2 (by simp) List.mem_cons_self
    have hhd : l.head ≠ some t := hl.head_ne
    obtain ⟨va, hva⟩ := hl.alive a (by simp)
    obtain ⟨m, hm, hn, -, hval⟩ := setNext_spec (m := l.mem) hva none
    obtain ⟨n, hmt, hnn, -⟩ := read_again hv hval
    rw [hn, Function.update_of_ne hat, hnt] at hnn
    simp [delTimer, hhd, h, hnode, ha, hnone, hm, hmt, hnn]

/-- `del_timer` takes a stored timer out of the links, unless it finds the timer at a stale `tail`. -/
theorem Linked.delTimer (hl : l.Linked ts) (ht : t ∈ ts)
    (hlast : l.tail = some t → l.mem.nextOf t = none) (hdel : l.delTimer now (some t) = some l') :
    l'.Linked (ts.erase t) := by
  obtain ⟨as, bs, hts⟩ := List.append_of_mem ht
  have hnt : l.mem.nextOf t = bs.head? := (hts ▸ hl.linked.fwd).next_mid
  rcases Decidable.em (l.tail = some t) with htail | htail
  · -- the last timer, so `tail` is right
    have hbs : bs = [] := List.head?_eq_none_iff.mp (hnt.symm.trans (hlast htail))
    have hr : l.Rep ts := hl.rep (by rw [htail, hts, hbs]; simp)
    rcases Decidable.em (l.head = some t) with hhd | hhd
    · obtain ⟨m, hm, hr', -⟩ := delTimer_spec hr ht (fun _ => hhd) now
      obtain rfl := Option.some.inj (hdel.symm.trans hm)
      exact hr'.linked_of_withTail
    · obtain ⟨m, hm, hr', -⟩ := delTimer_last hr ht htail hhd now
      obtain rfl := Option.some.inj (hdel.symm.trans hm)
      exact hr'
  · cases bs with
    | nil => exact absurd (hdel.symm.trans (delTimer_stale (hts ▸ hl) htail now)) (by simp)
    | cons b bs =>
      have hx : ts.getLast? ≠ some t := by
        have hr : (l.withTail ts.getLast?).Rep (as ++ t :: b :: bs) := hts ▸ hl
        exact hr.tail_ne
      obtain ⟨m, hm, hr', -⟩ := delTimer_spec hl ht (fun h => absurd h hx) now
      obtain ⟨y, hy⟩ := delTimer_withTail now hx htail
      rw [hm, hdel] at hy
      obtain rfl := Option.some.inj hy
      exact hr'.linked_of_withTail

/-- Replacing the expiry of one timer by one between those of its neighbours keeps the order. -/
theorem sorted_replace {f f' : Ptr → ℤ} {as bs : List Ptr} (hnd : (as ++ t :: bs).Nodup)
    (h : (as ++ t :: bs).Pairwise fun t u => f t ≤ f u) (hf : ∀ u, u ≠ t → f' u = f u)
    (hbefore : ∀ p, as.getLast? = some p → f p ≤ f' t)
    (hafter : ∀ n, bs.head? = some n → f' t ≤ f n) :
    (as ++ t :: bs).Pairwise fun t u => f' t ≤ f' u := by
  have hnot : t ∉ as ++ bs := (List.nodup_middle.mp hnd).notMem
  have hother : ∀ u ∈ as ++ bs, f' u = f u := fun u hu => hf u fun he => hnot (he ▸ hu)
  have hrest : (as ++ bs).Pairwise fun t u => f' t ≤ f' u := by
    refine (h.sublist ((List.sublist_cons_self t bs).append_left as)).imp_of_mem ?_
    intro u w hu hw hle
    rwa [hother u hu, hother w hw]
  refine sorted_insert as hrest ?_ ?_
  · -- no timer before `t` expires after the last of them
    intro u hu
    rw [hother u (List.mem_append_left _ hu)]
    obtain ⟨as', p, rfl⟩ : ∃ as' p, as = as' ++ [p] :=
      (List.eq_nil_or_concat' as).resolve_left (List.ne_nil_of_mem hu)
    refine le_trans ?_ (hbefore p List.getLast?_concat)
    rcases List.mem_append.mp hu with hu | hu
    · exact (List.pairwise_append.mp (List.pairwise_append.mp h).1).2.2 u hu p (by simp)
    · rw [List.mem_singleton.mp hu]
  · intro b hb
    rw [hother b (List.mem_append_right _ (List.mem_of_mem_head? hb))]
    exact hafter b hb

/-- `setExpire` changes the expiry of one timer and nothing else. -/
theorem setExpire_spec {v : UtilTimer} (hv : l.mem.valOf t = some v) (e : ℤ) :
    ∃ m, l.setExpire t e = some { l with mem := m } ∧ m.nextOf = l.mem.nextOf ∧
      m.prevOf = l.mem.prevOf ∧ utilExpiry m t = e ∧
      (∀ u, u ≠ t → utilExpiry m u = utilExpiry l.mem u) ∧
      ∀ u, (∃ w, l.mem.valOf u = some w) → ∃ w, m.valOf u = some w := by
  obtain ⟨m, hm, hn, hp, hval⟩ := setVal_spec (m := l.mem) hv ⟨e⟩
  refine ⟨m, by simp [setExpire, hm], hn, hp, by simp [utilExpiry, hval], ?_, ?_⟩
  · intro u hu
    rw [utilExpiry, hval, Function.update_of_ne hu, utilExpiry]
  · intro u hu
    rw [hval]
    rcases eq_or_ne u t with rfl | hne
    · exact ⟨⟨e⟩, Function.update_self ..⟩
    · rwa [Function.update_of_ne hne]

/-- A new expiry between those of its neighbours keeps a timer's place. -/
theorem Linked.setExpire (hl : l.Linked ts) (ht : t ∈ ts) (hset : l.setExpire t e = some l')
    (hprev : ∀ p, l.mem.prevOf t = some p → utilExpiry l.mem p ≤ e)
    (hnext : ∀ n, l.mem.nextOf t = some n → e ≤ utilExpiry l.mem n) : l'.Linked ts := by
  obtain ⟨v, hv⟩ := hl.alive t ht
  obtain ⟨m, hset', hn, hp, het, hother, halive⟩ := setExpire_spec (l := l) hv e
  obtain rfl := Option.some.inj (hset'.symm.trans hset)
  refine ⟨hl.linked.congr (fun u _ => congrFun hn u) fun u _ => congrFun hp u,
    fun u hu => halive u (hl.alive u hu), ?_, fun _ => rfl⟩
  obtain ⟨as, bs, hts⟩ := List.append_of_mem ht
  have hlinked : DChain l.mem.nextOf l.mem.prevOf l.head (as ++ t :: bs) := hts ▸ hl.linked
  have hsorted : (as ++ t :: bs).Pairwise fun t u => utilExpiry l.mem t ≤ utilExpiry l.mem u :=
    hts ▸ hl.sorted
  show ts.Pairwise fun t u => utilExpiry m t ≤ utilExpiry m u
  rw [hts]
  refine sorted_replace (hts ▸ hl.nodup) hsorted hother ?_ ?_
  · intro p hp
    rw [het]
    exact hprev p (hlinked.prev_mid.trans hp)
  · intro n hn
    rw [het]
    exact hnext n (hlinked.fwd.next_mid.trans hn)

/-- `adjust_timer` does nothing when the neighbours of the timer are in order, whatever its own expiry: it
does not expire before the one in front of it, or else not after the one behind it. -/
theorem adjustTimer_noop {as bs : List Ptr}
    (hlinked : DChain l.mem.nextOf l.mem.prevOf l.head (as ++ t :: bs))
    (halive : ∀ u ∈ as ++ t :: bs, ∃ v, l.mem.valOf u = some v)
    (hle : ∀ p n, as.getLast? = some p → bs.head? = some n →
      utilExpiry l.mem p ≤ utilExpiry l.mem n) (deleted added : ℤ) (fuel : ℕ) :
    l.adjustTimer deleted added (some t) fuel = some l := by
  obtain ⟨v, hv⟩ := halive t (by simp)
  obtain ⟨node, hnode, -⟩ := exists_of_valOf (m := l.mem) hv
  have hprev : node.prev = as.getLast? := (prevOf_of_some hnode).symm.trans hlinked.prev_mid
  have hnext : node.next = bs.head? := (nextOf_of_some hnode).symm.trans hlinked.fwd.next_mid
  rcases hp : as.getLast? with _ | p
  · simp [adjustTimer, hnode, hprev, hp]
  obtain ⟨vp, hvp⟩ := halive p (List.mem_append_left _ (List.mem_of_getLast? hp))
  obtain ⟨before, hbefore, -⟩ := exists_of_valOf (m := l.mem) hvp
  rcases le_or_gt before.val.expire node.val.expire with hge | hlt
  · simp [adjustTimer, hnode, hprev, hp, hbefore, hge]
  rcases hn : bs.head? with _ | n
  · simp [adjustTimer, hnode, hprev, hp, hbefore, decide_eq_false hlt.not_ge, hnext, hn]
  obtain ⟨vn, hvn⟩ := halive n (by simp [List.mem_of_mem_head? hn])
  obtain ⟨behind, hbehind, -⟩ := exists_of_valOf (m := l.mem) hvn
  have hpn := hle p n hp hn
  rw [utilExpiry_of_some hbefore, utilExpiry_of_some hbehind] at hpn
  simp [adjustTimer, hnode, hprev, hp, hbefore, decide_eq_false hlt.not_ge, hnext, hn, hbehind,
    hlt.le.trans hpn]

/-- The neighbours of a timer in a sorted list are in order. -/
theorem neighbours_ordered {f : Ptr → ℤ} {as bs : List Ptr} {p n : Ptr}
    (h : (as ++ t :: bs).Pairwise fun t u => f t ≤ f u) (hp : as.getLast? = some p)
    (hn : bs.head? = some n) : f p ≤ f n :=
  (List.pairwise_append.mp h).2.2 p (List.mem_of_getLast? hp) n
    (List.mem_cons_of_mem _ (List.mem_of_mem_head? hn))

/-- `adjust_timer` on a list in order does nothing. -/
theorem adjustTimer_inOrder {deleted added : ℤ} (hl : l.Linked ts) (ht : t ∈ ts)
    (hadj : Returns (l.adjustTimer deleted added (some t)) l') : l' = l := by
  obtain ⟨k, hk⟩ := hadj
  obtain ⟨as, bs, rfl⟩ := List.append_of_mem ht
  have hrun := adjustTimer_noop (l := l) hl.linked hl.alive
    (fun _ _ => neighbours_ordered hl.sorted) deleted added k
  exact Option.some.inj ((hk k le_rfl).symm.trans hrun)

/-- `setExpire` of a stored timer and `adjust_timer` leave the list linked, in order, with the same timers
and the others in the order they were in, if and only if the new expiry is between those of the timer's
neighbours. -/
theorem adjust_restores_iff (hr : l.Rep ts) (ht : t ∈ ts) (e deleted added : ℤ) :
    (∃ l₁ l' ts', l.setExpire t e = some l₁ ∧
      Returns (l₁.adjustTimer deleted added (some t)) l' ∧ l'.Rep ts' ∧ ts'.Perm ts ∧
      ts'.erase t = ts.erase t) ↔
    (∀ p, l.mem.prevOf t = some p → utilExpiry l.mem p ≤ e) ∧
      ∀ n, l.mem.nextOf t = some n → e ≤ utilExpiry l.mem n := by
  obtain ⟨v, hv⟩ := hr.alive t ht
  obtain ⟨m, hset, hn, hp, het, hother, halive⟩ := setExpire_spec hv e
  obtain ⟨as, bs, rfl⟩ := List.append_of_mem ht
  obtain ⟨hsides, htbs⟩ := List.nodup_cons.mp (List.nodup_middle.mp hr.nodup)
  have hlinked : DChain m.nextOf m.prevOf l.head (as ++ t :: bs) := by
    rw [hn, hp]
    exact hr.linked
  have hprev := hr.linked.prev_mid
  have hnext := hr.linked.fwd.next_mid
  have hbefore : ∀ p, as.getLast? = some p → utilExpiry m p = utilExpiry l.mem p := fun p hp =>
    hother p fun he => hsides (he ▸ List.mem_append_left _ (List.mem_of_getLast? hp))
  have hbehind : ∀ n, bs.head? = some n → utilExpiry m n = utilExpiry l.mem n := fun n hn =>
    hother n fun he => hsides (he ▸ List.mem_append_right _ (List.mem_of_mem_head? hn))
  -- whatever the expiry, the list stays as it is
  have hpair : ∀ p n, as.getLast? = some p → bs.head? = some n → utilExpiry m p ≤ utilExpiry m n := by
    intro p n hp hn
    rw [hbefore p hp, hbehind n hn]
    exact neighbours_ordered hr.sorted hp hn
  have hnoop := adjustTimer_noop (l := { l with mem := m }) hlinked
    (fun u hu => halive u (hr.alive u hu)) hpair deleted added
  have hret : Returns (adjustTimer deleted added (some t) { l with mem := m }) { l with mem := m } :=
    ⟨0, fun fuel _ => hnoop fuel⟩
  constructor
  · rintro ⟨l₁, l', ts', hset', hret', hr', -⟩
    obtain rfl := Option.some.inj (hset.symm.trans hset')
    obtain rfl := hret.unique hret'
    obtain rfl : ts' = as ++ t :: bs := hr'.linked.fwd.unique hlinked.fwd
    have hsorted : (as ++ t :: bs).Pairwise fun t u => utilExpiry m t ≤ utilExpiry m u := hr'.sorted
    refine ⟨?_, ?_⟩
    · intro p hpt
      rw [hprev] at hpt
      rw [← hbefore p hpt, ← het]
      exact (List.pairwise_append.mp hsorted).2.2 p (List.mem_of_getLast? hpt) t List.mem_cons_self
    · intro n hnt
      rw [hnext] at hnt
      rw [← hbehind n hnt, ← het]
      exact (List.pairwise_cons.mp (List.pairwise_append.mp hsorted).2.1).1 n
        (List.mem_of_mem_head? hnt)
  · rintro ⟨hle, hge⟩
    refine ⟨_, _, _, hset, hret, ⟨hlinked, fun u hu => halive u (hr.alive u hu), ?_, hr.tail⟩, .refl _,
      rfl⟩
    refine sorted_replace hr.nodup hr.sorted hother ?_ ?_
    · intro p hp
      exact (hle p (hprev.trans hp)).trans_eq het.symm
    · intro n hn
      exact het.trans_le (hge n (hnext.trans hn))

/-- Two timers, which expire at 10 and at 20. -/
def twoTimers : SortTimerLst where
  head := some 1
  tail := some 2
  mem p := if p = 1 then some ⟨⟨10⟩, none, some 2⟩ else if p = 2 then some
    ⟨⟨20⟩, some 1, none⟩ else none
  alarm := 0

theorem twoTimers_rep : twoTimers.Rep [1, 2] where
  linked := ⟨⟨rfl, rfl, rfl⟩, rfl, rfl, trivial⟩
  alive := by simp [twoTimers, valOf]
  sorted := by simp [twoTimers, utilExpiry, valOf]
  tail _ := rfl

/-- The first of two timers, moved to 15. -/
theorem adjust_restores_iff_two : ∃ l₁ l' ts', twoTimers.setExpire 1 15 = some l₁ ∧
    Returns (l₁.adjustTimer 0 0 (some 1)) l' ∧ l'.Rep ts' ∧ ts'.Perm [1, 2] := by
  have hprev : ∀ p, twoTimers.mem.prevOf 1 = some p → utilExpiry twoTimers.mem p ≤ 15 := nofun
  have hnext : ∀ n, twoTimers.mem.nextOf 1 = some n → 15 ≤ utilExpiry twoTimers.mem n := by
    rintro n ⟨⟩
    decide
  obtain ⟨l₁, l', ts', hset, hret, hr', hperm, -⟩ :=
    (adjust_restores_iff (t := 1) twoTimers_rep (by simp) 15 0 0).mpr ⟨hprev, hnext⟩
  exact ⟨l₁, l', ts', hset, hret, hr', hperm⟩

/-- The first of two timers, moved behind the other: it stays in front. -/
theorem adjust_leaves_unsorted : ∃ l₁ l', twoTimers.setExpire 1 30 = some l₁ ∧
    Returns (l₁.adjustTimer 0 0 (some 1)) l' ∧ l'.head = some 1 ∧ ∀ ts', ¬l'.Rep ts' := by
  have hr := twoTimers_rep
  obtain ⟨m, hset, hn, hp, het, hother, halive⟩ :=
    setExpire_spec (l := twoTimers) (t := 1) (v := ⟨10⟩) rfl 30
  have hlinked : DChain m.nextOf m.prevOf (some 1) ([] ++ 1 :: [2]) := by
    rw [hn, hp]
    exact hr.linked
  have hnoop := adjustTimer_noop (l := { twoTimers with mem := m }) hlinked
    (fun u hu => halive u (hr.alive u hu)) (by simp) 0 0
  refine ⟨_, _, hset, ⟨0, fun fuel _ => hnoop fuel⟩, rfl, ?_⟩
  intro ts' hr'
  obtain rfl : ts' = [1, 2] := hr'.linked.fwd.unique hlinked.fwd
  have hle : utilExpiry m 1 ≤ utilExpiry m 2 := (List.pairwise_cons.mp hr'.sorted).1 2 (by simp)
  rw [het, hother 2 (by decide)] at hle
  exact absurd hle (by decide)

end SortTimerLst

/-! ## Runs -/

/-- A call on the list: an operation, or `setExpire` of a stored timer followed by `adjust_timer`. -/
inductive LstCall where
  | op (o : LstOp)
  | reschedule (t : Ptr) (expire deleted added : ℤ)

/-- The steps of a list under every call. -/
inductive LstCallStep (s : LstSys) : LstCall → LstSys → Prop
  | op {o : LstOp} {s' : LstSys} : LstStep s o s' → LstCallStep s (.op o) s'
  | reschedule (t : Ptr) (e deleted added : ℤ) (l l' : SortTimerLst) : t ∈ s.live →
    s.lst.setExpire t e = some l → Returns (l.adjustTimer deleted added (some t)) l' →
    LstCallStep s (.reschedule t e deleted added) ⟨l', s.live⟩

/-- A timer that is deleted while `tail` names it is the last, and a new expiry does not pass those
of the timer's neighbours. -/
def InOrder (s : LstSys) : LstCall → Prop
  | .op (.del t _) => s.lst.tail = some t → s.lst.mem.nextOf t = none
  | .reschedule t e _ _ => (∀ p, s.lst.mem.prevOf t = some p → utilExpiry s.lst.mem p ≤ e) ∧
      ∀ n, s.lst.mem.nextOf t = some n → e ≤ utilExpiry s.lst.mem n
  | _ => True

namespace LstSys

/-- The list links the live timers in order. -/
def Linked (s : LstSys) : Prop := ∃ ts, s.lst.Linked ts ∧ ts.toFinset = s.live

variable {s s' : LstSys} {c : LstCall}

/-- Every call in order keeps the links. -/
theorem Linked.step (hs : s.Linked) (hstep : Guarded LstCallStep InOrder s c s') : s'.Linked := by
  obtain ⟨ts, hl, hlive⟩ := hs
  obtain ⟨hstep, hin⟩ := hstep
  cases hstep with
  | op hop =>
    cases hop with
    | add t e now l hfree hadd =>
      have ht : t ∉ ts := hl.not_mem hfree
      obtain ⟨ts', hl', hperm⟩ := (hl.update ht _).addTimer ht (Function.update_self ..) hadd
      exact ⟨ts', hl', by rw [List.toFinset_eq_of_perm _ _ hperm, List.toFinset_cons, hlive]⟩
    | del t now l hmem hdel =>
      have ht : t ∈ ts := List.mem_toFinset.mp (hlive ▸ hmem)
      refine ⟨ts.erase t, hl.delTimer ht hin hdel, ?_⟩
      ext u
      rw [← hlive, List.mem_toFinset, hl.nodup.mem_erase_iff, Finset.mem_erase, List.mem_toFinset]
    | free t hmem =>
      have ht : t ∉ ts := fun hm => hmem (hlive ▸ List.mem_toFinset.mpr hm)
      exact ⟨ts, hl.update ht none, hlive⟩
    | tick now later l fired htick =>
      obtain ⟨ts', hl', hsplit⟩ := hl.tick htick
      refine ⟨ts', hl', ?_⟩
      rw [toFinset_rest (.of_eq hsplit.symm) hl.nodup, hlive]
  | reschedule t e deleted added l l' hmem hset hadj =>
    have ht : t ∈ ts := List.mem_toFinset.mp (hlive ▸ hmem)
    have hl' := hl.setExpire ht hset hin.1 hin.2
    obtain rfl := SortTimerLst.adjustTimer_inOrder hl' ht hadj
    exact ⟨ts, hl', hlive⟩

/-- In every run of calls in order, the list links exactly the live timers. -/
theorem linked_of_run {mem : NodeStore Ptr UtilTimer} {a : ℕ} {cs : List LstCall}
    (h : Run (Guarded LstCallStep InOrder) (init mem a) cs s) : s.Linked := by
  refine h.invariant (fun _ _ _ hs hstep => Linked.step hs hstep) ?_
  exact ⟨[], SortTimerLst.empty_linked mem a, rfl⟩

end LstSys

end Ulsp
