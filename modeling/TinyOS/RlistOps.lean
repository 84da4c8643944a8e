import Mathlib.Dynamics.PeriodicPts.Lemmas
import TinyOS.RingSplice

/-! The list operations of `util.h` on whole rings: what each does to the ring of its sentinel,
and that it leaves every other ring alone. -/

namespace TinyOS

open Ring

variable {K N : Type*} {h h' : Heap K N} {a b c : N} {l m xs ys : List N}

/-- Nothing changes but the rings through the nodes of `s`; no key does. -/
structure Heap.Untouched (h h' : Heap K N) (s : List N) : Prop where
  wellFormed : h'.WellFormed
  obj : ∀ n, (h' n).obj = (h n).obj
  rings : ∀ c l, h.IsRing c l → (∀ x ∈ s, x ∉ c :: l) → h'.IsRing c l

theorem Heap.IsRing.rotate (hr : h.IsRing a (l ++ b :: m)) : h.IsRing b (m ++ a :: l) := by
  obtain ⟨hab, hba⟩ := walk_append_cons.mp hr.walk
  refine ⟨?_, walk_append_cons.mpr ⟨hba, hab⟩⟩
  have hperm : (a :: (l ++ b :: m)).Perm (b :: (m ++ a :: l)) := by
    have happend : ((a :: l) ++ (b :: m)).Perm ((b :: m) ++ (a :: l)) := List.perm_append_comm
    exact happend
  exact hperm.nodup_iff.mp hr.nodup

theorem Heap.IsRing.next (hr : h.IsRing a xs) : (h a).next = xs.headD a := by
  have hw := hr.walk
  cases xs with
  | nil => exact hw
  | cons x xs => exact hw.1

theorem Heap.IsRing.prev (hr : h.IsRing a xs) (hw : h.WellFormed) : (h a).prev = endOf a xs :=
  hw.prev_eq hr.walk.succ_endOf

theorem Heap.IsRing.unique (hx : h.IsRing a xs) (hy : h.IsRing a ys) : xs = ys :=
  hx.walk.unique hy.walk (List.nodup_cons.mp hx.nodup).1 (List.nodup_cons.mp hy.nodup).1

/-- A ring that does not hold a node does not hold its predecessor. -/
theorem Heap.IsRing.prev_notMem (hr : h.IsRing c l) (hw : h.WellFormed)
    (ha : a ∉ c :: l) : (h a).prev ∉ c :: l := by
  intro hm
  apply ha
  have hnext := closed_of_walk hr.walk _ hm
  rwa [show h.succ (h a).prev = a from hw.next_prev a] at hnext

theorem Heap.IsRing.prev_mem (hr : h.IsRing c l) (hw : h.WellFormed)
    (ha : a ∈ c :: l) : (h a).prev ∈ c :: l := by
  rcases List.mem_cons.mp ha with rfl | ha
  · rw [hr.prev hw]
    exact endOf_mem a l
  · obtain ⟨xs, ys, rfl⟩ := List.append_of_mem ha
    rw [hr.rotate.prev hw]
    have hmem := endOf_mem a (ys ++ c :: xs)
    simp only [List.mem_cons, List.mem_append] at hmem ⊢
    tauto

/-- In a finite heap every node is the sentinel of a list. -/
theorem Heap.WellFormed.exists_ring [Finite N] (hw : h.WellFormed) (a : N) : ∃ l, h.IsRing a l := by
  have hperiodic : a ∈ Function.periodicPts h.succ := hw.succ_injective.mem_periodicPts a
  have hpos := Function.minimalPeriod_pos_of_mem_periodicPts hperiodic
  have hwalk : ∀ (k : Nat) (b : N),
      Walk h.succ b ((List.range k).map fun i => h.succ^[i + 1] b) (h.succ^[k + 1] b) := by
    intro k
    induction k with
    | zero => exact fun b => rfl
    | succ k ih =>
      intro b
      rw [List.range_succ_eq_map, List.map_cons, List.map_map]
      exact ⟨rfl, ih (h.succ b)⟩
  obtain ⟨k, hk⟩ : ∃ k, Function.minimalPeriod h.succ a = k + 1 :=
    Nat.exists_eq_succ_of_ne_zero (by omega)
  refine ⟨(List.range k).map fun i => h.succ^[i + 1] a, ?_, ?_⟩
  · have hall : a :: ((List.range k).map fun i => h.succ^[i + 1] a) =
        (List.range (k + 1)).map fun i => h.succ^[i] a := by
      rw [List.range_succ_eq_map, List.map_cons, List.map_map]
      rfl
    rw [hall]
    refine List.Nodup.map_on (fun i hi j hj hij => ?_) List.nodup_range
    rw [← hk] at hi hj
    exact Function.iterate_injOn_Iio_minimalPeriod (List.mem_range.mp hi) (List.mem_range.mp hj) hij
  · have hback := hwalk k a
    rwa [← hk, Function.iterate_minimalPeriod] at hback

variable [DecidableEq N]

def rlistPopBack (h : Heap K N) (list : N) : Heap K N × N :=
  (rlSplice h list (h list).prev, (h list).prev)

def rlistPrepend (h : Heap K N) (ldest lsrc : N) : Heap K N :=
  rlistRemove (rlistPushFront h ldest lsrc) lsrc

theorem rlSplice_self (h : Heap K N) (a : N) : rlSplice h a a = h := by
  apply heap_ext
  · exact rlSplice_obj h a a
  · intro n
    rw [rlSplice_prev, Equiv.swap_self]
    rfl
  · intro n
    show (rlSplice h a a).succ n = h.succ n
    rw [succ_rlSplice, swapSucc_self]

theorem Heap.Untouched.splice (hw : h.WellFormed) (a b : N) :
    h.Untouched (rlSplice h a b) [a, b] where
  wellFormed := hw.rlSplice a b
  obj := rlSplice_obj h a b
  rings c l hr hs := hr.keep (hs a (by simp)) (hs b (by simp))

omit [DecidableEq N] in
theorem Heap.Untouched.refl (hw : h.WellFormed) (s : List N) : h.Untouched h s :=
  ⟨hw, fun _ => rfl, fun _ _ hr _ => hr⟩

omit [DecidableEq N] in
/-- A predecessor need not be named. -/
theorem Heap.Untouched.of_prev (hw : h.WellFormed) (hu : h.Untouched h' [(h a).prev, b]) :
    h.Untouched h' [a, b] where
  wellFormed := hu.wellFormed
  obj := hu.obj
  rings c l hr hs := by
    apply hu.rings c l hr
    intro x hx
    rcases List.mem_cons.mp hx with rfl | hx
    · exact hr.prev_notMem hw (hs a (by simp))
    · exact hs x (List.mem_cons_of_mem _ hx)

/-! ### One insertion or removal -/

theorem rlistPushFront_ring (hx : h.IsRing a xs) (hy : h.IsRing b ys) (hb : b ∉ a :: xs) :
    (rlistPushFront h a b).IsRing a (ys ++ b :: xs) :=
  hx.join hy hb

theorem rlistPushFront_untouched (hw : h.WellFormed) (a b : N) :
    h.Untouched (rlistPushFront h a b) [a, b] :=
  .splice hw a b

theorem rlistPushBack_ring (hw : h.WellFormed) (hx : h.IsRing a xs) (hy : h.IsRing b ys)
    (hb : b ∉ a :: xs) :
    (rlistPushBack h a b).IsRing a (xs ++ ys ++ [b]) := by
  have hprev := hx.prev hw
  rw [rlistPushBack, hprev]
  rcases List.eq_nil_or_concat' xs with rfl | ⟨l, e, rfl⟩
  · exact hx.join hy hb
  · have hend : endOf a (l ++ [e]) = e := by simp [endOf]
    rw [hend]
    have he : h.IsRing e (a :: l) := by simpa using hx.rotate
    have hbe : b ∉ e :: a :: l := by
      intro hm
      apply hb
      simp only [List.mem_cons, List.mem_append, List.not_mem_nil, or_false] at hm ⊢
      tauto
    have hjoin : (rlSplice h e b).IsRing e ((ys ++ [b]) ++ a :: l) := by simpa using he.join hy hbe
    simpa using hjoin.rotate

theorem rlistPushBack_untouched (hw : h.WellFormed) (a b : N) :
    h.Untouched (rlistPushBack h a b) [a, b] :=
  .of_prev hw (.splice hw _ b)

theorem rlistRemove_self (hw : h.WellFormed) (hr : h.IsRing a xs) :
    (rlistRemove h a).IsRing a [] := by
  have hprev := hr.prev hw
  rw [rlistRemove, hprev]
  rcases List.eq_nil_or_concat' xs with rfl | ⟨l, e, rfl⟩
  · rw [endOf, rlSplice_self]
    exact hr
  · have hend : endOf a (l ++ [e]) = e := by simp [endOf]
    rw [hend]
    have hlast : h.IsRing a (l ++ e :: []) := hr
    exact hlast.cut.1

/-- The node is cut out of whatever list holds it. -/
theorem rlistRemove_ring (hw : h.WellFormed) (hr : h.IsRing b (xs ++ a :: ys)) :
    (rlistRemove h a).IsRing b (xs ++ ys) := by
  have ha := hr.rotate
  have hprev := ha.prev hw
  rw [rlistRemove, hprev]
  rcases List.eq_nil_or_concat' xs with rfl | ⟨l, e, rfl⟩
  · have hend : endOf a (ys ++ [b]) = b := by simp [endOf]
    rw [hend]
    have hlast : h.IsRing a (ys ++ b :: []) := ha
    exact hlast.cut.2
  · have hend : endOf a (ys ++ b :: (l ++ [e])) = e := by simp [endOf]
    rw [hend]
    have hcut : h.IsRing a ((ys ++ b :: l) ++ e :: []) := by simpa using ha
    simpa using hcut.cut.2.rotate

theorem rlistRemove_untouched (hw : h.WellFormed) (a : N) : h.Untouched (rlistRemove h a) [a] where
  wellFormed := hw.rlSplice _ _
  obj := rlistRemove_obj h a
  rings c l hr hs := by
    have ha := hs a (by simp)
    exact hr.keep ha (hr.prev_notMem hw ha)

theorem rlistPopFront_nil (hr : h.IsRing a []) : rlistPopFront h a = (h, a) := by
  rw [rlistPopFront, hr.next, List.headD_nil, rlSplice_self]

theorem rlistPopFront_ring (hr : h.IsRing a (b :: xs)) : (rlistPopFront h a).2 = b ∧
    (rlistPopFront h a).1.IsRing a xs ∧ (rlistPopFront h a).1.IsRing b [] := by
  have hnext := hr.next
  rw [List.headD_cons] at hnext
  rw [rlistPopFront, hnext]
  have hfirst : h.IsRing a ([] ++ b :: xs) := hr
  exact ⟨rfl, hfirst.cut⟩

theorem rlistPopFront_untouched (hw : h.WellFormed) (a : N) :
    h.Untouched (rlistPopFront h a).1 [a] where
  wellFormed := hw.rlSplice _ _
  obj := rlistPopFront_obj h a
  rings c l hr hs := by
    have ha := hs a (by simp)
    refine hr.keep ha fun hm => ha ?_
    have hprev : (h (h a).next).prev = a := hw.prev_next a
    rw [← hprev]
    exact hr.prev_mem hw hm

theorem rlistPopBack_nil (hw : h.WellFormed) (hr : h.IsRing a []) : rlistPopBack h a = (h, a) := by
  rw [rlistPopBack, hr.prev hw, endOf, rlSplice_self]

/-- The last node is returned together with all the others. -/
theorem rlistPopBack_ring (hw : h.WellFormed) (hr : h.IsRing a (xs ++ [b])) :
    (rlistPopBack h a).2 = b ∧
    (rlistPopBack h a).1.IsRing a [] ∧ (rlistPopBack h a).1.IsRing b xs := by
  have hprev := hr.prev hw
  rw [endOf_append_cons] at hprev
  have hlast : (h a).prev = b := hprev
  rw [rlistPopBack, hlast]
  have hback : h.IsRing a (xs ++ b :: []) := hr
  exact ⟨rfl, hback.cut⟩

theorem rlistPopBack_untouched (hw : h.WellFormed) (a : N) :
    h.Untouched (rlistPopBack h a).1 [a] where
  wellFormed := hw.rlSplice _ _
  obj := rlSplice_obj h _ _
  rings c l hr hs := by
    have ha := hs a (by simp)
    exact hr.keep ha (hr.prev_notMem hw ha)

end TinyOS
