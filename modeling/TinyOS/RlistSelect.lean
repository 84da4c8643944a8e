import TinyOS.WholeLists

/-! `rlist_select` of `util.h`: the nodes that satisfy a predicate move to the end of another
list, and both lists keep their order. -/

namespace TinyOS

open Ring

variable {K N : Type*}

/-- A predicate on nodes that reads only keys. -/
abbrev KeyPred (K N : Type*) := (N → K) → N → Bool

def Heap.key (h : Heap K N) (n : N) : K := (h n).obj

variable [DecidableEq N]

/-- The loop, with the cursor at node `i`. -/
def rlistSelectFrom (lsrc ldest : N) (pred : KeyPred K N) : Nat → Heap K N → N → Option (Heap K N)
  | 0, _, _ => none
  | fuel + 1, h, i =>
    if (h i).next ≠ lsrc then
      if pred h.key (h i).next then
        let p := (h i).next
        rlistSelectFrom lsrc ldest pred fuel (rlistPushBack (rlistRemove h p) ldest p) i
      else rlistSelectFrom lsrc ldest pred fuel h (h i).next
    else some h

def rlistSelect (fuel : Nat) (h : Heap K N) (lsrc ldest : N) (pred : KeyPred K N) :
    Option (Heap K N) := rlistSelectFrom lsrc ldest pred fuel h lsrc

variable {h h' : Heap K N} {a b d s x : N} {l xs ys rest : List N} {pred : KeyPred K N}

omit [DecidableEq N] in
/-- The successor of the last node of the first part is the first node of the rest. -/
theorem Heap.IsRing.next_endOf (hr : h.IsRing a (xs ++ rest)) :
    (h (endOf a xs)).next = rest.headD a := by
  cases rest with
  | nil =>
    have hw := hr.walk
    rw [List.append_nil] at hw
    exact hw.succ_endOf
  | cons x rest => exact (walk_append_cons.mp hr.walk).1.succ_endOf

omit [DecidableEq N] in
/-- A change of the rings through `s` and `d` does not show in the rings of other nodes of these
rings. -/
theorem Heap.Untouched.after {h'' : Heap K N} (hu : h.Untouched h' [d, x])
    (hu' : h'.Untouched h'' [s, d])
    (hs : h.IsRing s xs) (hx : x ∈ s :: xs) : h.Untouched h'' [s, d] where
  wellFormed := hu'.wellFormed
  obj n := (hu'.obj n).trans (hu.obj n)
  rings c l hr hc := by
    have hsc := hc s (by simp)
    have hdc := hc d (by simp)
    have hxc : x ∉ c :: l := List.disjoint_right.mp (hr.disjoint hs hsc) hx
    exact hu'.rings c l
      (hu.rings c l hr (List.forall_mem_cons.mpr ⟨hdc, List.forall_mem_singleton.mpr hxc⟩)) hc

/-- One node moves from the one list to the other. -/
theorem move_ring (hw : h.WellFormed) (hs : h.IsRing s (xs ++ x :: rest)) (hd : h.IsRing d ys)
    (hne : d ∉ s :: (xs ++ x :: rest)) :
    (rlistPushBack (rlistRemove h x) d x).IsRing s (xs ++ rest) ∧
      (rlistPushBack (rlistRemove h x) d x).IsRing d (ys ++ [x]) ∧
      h.Untouched (rlistPushBack (rlistRemove h x) d x) [d, x] := by
  have hout : x ∉ d :: ys := List.disjoint_left.mp (hs.disjoint hd hne) (by simp)
  have hremove := rlistRemove_untouched hw x
  have hsrc := rlistRemove_ring hw hs
  have hself := rlistRemove_self hw hs.rotate
  have hdest := hremove.rings d ys hd (by simpa using hout)
  have hpush := rlistPushBack_untouched hremove.wellFormed d x
  have hback := rlistPushBack_ring hremove.wellFormed hdest hself hout
  rw [List.append_nil] at hback
  have hnodup := hs.nodup
  have hxs : x ∉ s :: (xs ++ rest) := by
    have hperm : (s :: (xs ++ x :: rest)).Perm (x :: s :: (xs ++ rest)) :=
      (List.Perm.cons s List.perm_middle).trans (List.Perm.swap x s _)
    exact (List.nodup_cons.mp (hperm.nodup_iff.mp hnodup)).1
  have hds : d ∉ s :: (xs ++ rest) := by
    intro hm
    apply hne
    simp only [List.mem_cons, List.mem_append] at hm ⊢
    tauto
  have hsd : ∀ n ∈ [d, x], n ∉ s :: (xs ++ rest) :=
    List.forall_mem_cons.mpr ⟨hds, List.forall_mem_singleton.mpr hxs⟩
  refine ⟨hpush.rings s _ hsrc hsd, hback, hpush.wellFormed, fun n => ?_, fun c l hr hc => ?_⟩
  · rw [hpush.obj, hremove.obj]
  · have hxc : x ∉ c :: l := hc x (by simp)
    exact hpush.rings c l (hremove.rings c l hr (by simpa using hxc)) hc

/-- The nodes of `xs` have been looked at and stay, those of `rest` are still to be seen. -/
theorem rlistSelectFrom_eq (hw : h.WellFormed) (hs : h.IsRing s (xs ++ rest)) (hd : h.IsRing d ys)
    (hne : d ∉ s :: (xs ++ rest)) (pred : KeyPred K N) :
    ∃ h', (∀ fuel, rest.length < fuel → rlistSelectFrom s d pred fuel h (endOf s xs) = some h') ∧
      h'.IsRing s (xs ++ rest.filter fun n => !pred h.key n) ∧
      h'.IsRing d (ys ++ rest.filter (pred h.key)) ∧ h.Untouched h' [s, d] := by
  induction rest generalizing h xs ys with
  | nil =>
    have hnext := hs.next_endOf
    refine ⟨h, fun fuel hf => ?_, by simpa using hs, by simpa using hd, .refl hw _⟩
    obtain ⟨fuel, rfl⟩ := Nat.exists_eq_succ_of_ne_zero (Nat.ne_of_gt hf)
    rw [rlistSelectFrom, hnext, List.headD_nil, if_neg (not_not.mpr rfl)]
  | cons x rest ih =>
    have hnext := hs.next_endOf
    rw [List.headD_cons] at hnext
    have hxs : x ≠ s := by
      rintro rfl
      exact (List.nodup_cons.mp hs.nodup).1 (by simp)
    have hout : d ∉ s :: (xs ++ rest) := by
      intro hm
      apply hne
      simp only [List.mem_cons, List.mem_append] at hm ⊢
      tauto
    by_cases hp : pred h.key x = true
    · -- the cursor stays, and the list that is left gets shorter
      obtain ⟨hsrc, hdest, hmove⟩ := move_ring hw hs hd hne
      have hkey : (rlistPushBack (rlistRemove h x) d x).key = h.key := funext hmove.obj
      obtain ⟨h', hrun, hs', hd', hu⟩ := ih hmove.wellFormed hsrc hdest hout
      rw [hkey] at hs' hd'
      refine ⟨h', fun fuel hf => ?_, by simpa [hp] using hs', by simpa [hp] using hd',
        hmove.after hu hs (by simp)⟩
      obtain ⟨fuel, rfl⟩ := Nat.exists_eq_succ_of_ne_zero (Nat.ne_of_gt (Nat.zero_lt_of_lt hf))
      rw [rlistSelectFrom, hnext, if_pos hxs, if_pos hp]
      exact hrun fuel (by simpa using hf)
    · have hend : endOf s (xs ++ [x]) = x := by simp [endOf]
      have hmoved : h.IsRing s (xs ++ [x] ++ rest) := by rwa [← List.append_cons]
      obtain ⟨h', hrun, hs', hd', hu⟩ := ih hw hmoved hd (by simpa using hne)
      refine ⟨h', fun fuel hf => ?_, by simpa [hp] using hs', by simpa [hp] using hd', hu⟩
      obtain ⟨fuel, rfl⟩ := Nat.exists_eq_succ_of_ne_zero (Nat.ne_of_gt (Nat.zero_lt_of_lt hf))
      rw [rlistSelectFrom, hnext, if_pos hxs, if_neg hp, ← hend]
      exact hrun fuel (by simpa using hf)

structure StablePartition (h h' : Heap K N) (lsrc ldest : N) (xs ys : List N)
    (pred : KeyPred K N) : Prop where
  kept : h'.IsRing lsrc (xs.filter fun n => !pred h.key n)
  moved : h'.IsRing ldest (ys ++ xs.filter (pred h.key))
  untouched : h.Untouched h' [lsrc, ldest]

/-- `rlist_select` ends, and is a stable partition. -/
theorem rlist_select_partition (hw : h.WellFormed) {lsrc ldest : N} (hs : h.IsRing lsrc xs)
    (hd : h.IsRing ldest ys) (hne : ldest ∉ lsrc :: xs) (pred : KeyPred K N) :
    ∃ h', (∀ fuel, xs.length < fuel → rlistSelect fuel h lsrc ldest pred = some h') ∧
      StablePartition h h' lsrc ldest xs ys pred := by
  have hstart : h.IsRing lsrc ([] ++ xs) := hs
  obtain ⟨h', hrun, hs', hd', hu⟩ := rlistSelectFrom_eq hw hstart hd hne pred
  exact ⟨h', hrun, hs', hd', hu⟩

def twoLists : Heap Nat (Fin 5) := fun n =>
  match n with
  | 0 => ⟨0, 3, 1⟩
  | 1 => ⟨7, 0, 2⟩
  | 2 => ⟨4, 1, 3⟩
  | 3 => ⟨9, 2, 0⟩
  | 4 => ⟨0, 4, 4⟩

theorem twoLists_lists : twoLists.WellFormed ∧ twoLists.IsRing 0 [1, 2, 3] ∧ twoLists.IsRing 4 [] :=
  ⟨⟨by decide, by decide⟩, ⟨by decide, rfl, rfl, rfl, rfl⟩, ⟨by decide, rfl⟩⟩

theorem rlist_select_partition_two : ∃ h', (∀ fuel, 3 < fuel →
    rlistSelect fuel twoLists 0 4 (fun keys n => 5 ≤ keys n) = some h') ∧
      StablePartition twoLists h' 0 4 [1, 2, 3] [] fun keys n => 5 ≤ keys n :=
  rlist_select_partition twoLists_lists.1 twoLists_lists.2.1 twoLists_lists.2.2 (by decide) _

end TinyOS
