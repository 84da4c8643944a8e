import TinyOS.Rlnode

/-! What each operation of `util.h` does to the lists that a heap holds. -/

namespace TinyOS

open Ring

variable {K N ι : Type*}

/-- The heap is well formed and consists of the lists `L` hanging on `head`,
every other node being a singleton. -/
structure Hangs (h : Heap K N) (head : ι → N) (L : ι → List N) : Prop where
  wf : h.WellFormed
  lists : Lists h.succ head L

variable {h : Heap K N} {head : ι → N} {L : ι → List N}

theorem Hangs.prev_mem (hh : Hangs h head L) {i : ι} {l m : List N} {x : N}
    (hi : L i = l ++ x :: m) : (h x).prev = endOf (head i) l := by
  have hw := hh.lists.walk i
  rw [hi] at hw
  exact hh.wf.prev_eq (walk_append_cons.mp hw).1.succ_endOf

theorem Hangs.prev_head (hh : Hangs h head L) (i : ι) :
    (h (head i)).prev = endOf (head i) (L i) :=
  hh.wf.prev_eq (hh.lists.walk i).succ_endOf

theorem Hangs.prev_single (hh : Hangs h head L) {x : N} (hx : ∀ i, x ≠ head i)
    (hxL : ∀ i, x ∉ L i) : (h x).prev = x :=
  hh.wf.prev_eq (hh.lists.singleton x hx hxL)

theorem Hangs.next_head (hh : Hangs h head L) (i : ι) :
    (h (head i)).next = (L i).headD (head i) :=
  hh.lists.succ_head i

variable [DecidableEq N]

theorem Hangs.empty_iff (hh : Hangs h head L) (i : ι) :
    isRlistEmpty h (head i) = true ↔ L i = [] := by
  rw [isRlistEmpty, beq_iff_eq]
  exact hh.lists.eq_nil_iff i

omit [DecidableEq N] in
theorem Hangs.of_same (hh : Hangs h head L) {g : Heap K N} (hnext : ∀ n, (g n).next = (h n).next)
    (hprev : ∀ n, (g n).prev = (h n).prev) : Hangs g head L := by
  have hsucc : g.succ = h.succ := funext hnext
  refine ⟨⟨fun n => ?_, fun n => ?_⟩, hsucc ▸ hh.lists⟩
  · rw [hprev, hnext, hh.wf.prev_next]
  · rw [hnext, hprev, hh.wf.next_prev]

theorem Hangs.init (hh : Hangs h head L) {x : N} (ptr : K) (hx : ∀ i, x ≠ head i)
    (hxL : ∀ i, x ∉ L i) : Hangs (rlnodeInit h x ptr) head L := by
  have hnext : (h x).next = x := hh.lists.singleton x hx hxL
  refine hh.of_same (fun n => ?_) (fun n => ?_) <;> by_cases hn : n = x
  · simp [rlnodeInit, hn, hnext]
  · simp [rlnodeInit, hn]
  · simp [rlnodeInit, hn, hh.prev_single hx hxL]
  · simp [rlnodeInit, hn]

variable [DecidableEq ι]

/-- The two insertions of the source are instances of this one. -/
theorem Hangs.insert (hh : Hangs h head L) {i : ι} {l m : List N} {x : N} (hi : L i = l ++ m)
    (hx : ∀ j, x ≠ head j) (hxL : ∀ j, x ∉ L j) :
    Hangs (rlSplice h (endOf (head i) l) x) head (Function.update L i (l ++ x :: m)) :=
  ⟨hh.wf.rlSplice _ _, by rw [succ_rlSplice]; exact hh.lists.insert hi hx hxL⟩

theorem Hangs.push_front (hh : Hangs h head L) (i : ι) {x : N}
    (hx : ∀ j, x ≠ head j) (hxL : ∀ j, x ∉ L j) :
    Hangs (rlistPushFront h (head i) x) head (Function.update L i (x :: L i)) :=
  hh.insert (l := []) rfl hx hxL

theorem Hangs.push_back (hh : Hangs h head L) (i : ι) {x : N}
    (hx : ∀ j, x ≠ head j) (hxL : ∀ j, x ∉ L j) :
    Hangs (rlistPushBack h (head i) x) head (Function.update L i (L i ++ [x])) := by
  rw [rlistPushBack, hh.prev_head]
  exact hh.insert (List.append_nil _).symm hx hxL

theorem Hangs.pop_front (hh : Hangs h head L) {i : ι} {x : N} {m : List N} (hi : L i = x :: m) :
    (rlistPopFront h (head i)).2 = x ∧
      Hangs (rlistPopFront h (head i)).1 head (Function.update L i m) := by
  have hnext : (h (head i)).next = x := by rw [hh.next_head, hi]; rfl
  refine ⟨hnext, ?_⟩
  rw [rlistPopFront, hnext]
  refine ⟨hh.wf.rlSplice _ _, ?_⟩
  rw [succ_rlSplice]
  exact hh.lists.remove (l := []) hi

omit [DecidableEq ι] in
theorem Hangs.pop_front_nil (hh : Hangs h head L) {i : ι} (hi : L i = []) :
    (rlistPopFront h (head i)).2 = head i ∧ Hangs (rlistPopFront h (head i)).1 head L := by
  have hnext : (h (head i)).next = head i := by rw [hh.next_head, hi]; rfl
  refine ⟨hnext, ?_⟩
  rw [rlistPopFront, hnext]
  refine ⟨hh.wf.rlSplice _ _, ?_⟩
  rw [succ_rlSplice, swapSucc_self]
  exact hh.lists

theorem Hangs.remove_mem (hh : Hangs h head L) {i : ι} {l m : List N} {x : N}
    (hi : L i = l ++ x :: m) : Hangs (rlistRemove h x) head (Function.update L i (l ++ m)) := by
  rw [rlistRemove, hh.prev_mem hi]
  refine ⟨hh.wf.rlSplice _ _, ?_⟩
  rw [succ_rlSplice, swapSucc_comm]
  exact hh.lists.remove hi

omit [DecidableEq ι] in
theorem Hangs.remove_single (hh : Hangs h head L) {x : N} (hx : ∀ i, x ≠ head i)
    (hxL : ∀ i, x ∉ L i) : Hangs (rlistRemove h x) head L := by
  rw [rlistRemove, hh.prev_single hx hxL]
  refine ⟨hh.wf.rlSplice _ _, ?_⟩
  rw [succ_rlSplice, swapSucc_self]
  exact hh.lists

/-- Removal takes the node out of whichever list holds it, if any does. -/
theorem Hangs.remove (hh : Hangs h head L) {x : N} (hx : ∀ i, x ≠ head i) :
    Hangs (rlistRemove h x) head (fun i => (L i).erase x) := by
  by_cases hxL : ∃ i, x ∈ L i
  · obtain ⟨i, hi⟩ := hxL
    obtain ⟨l, m, hlm⟩ := List.append_of_mem hi
    have hnd := hh.lists.nodup i
    rw [hlm] at hnd
    have hxl : x ∉ l := fun hm => List.disjoint_left.mp (List.disjoint_of_nodup_append hnd) hm
      (by simp)
    have he : (fun j => (L j).erase x) = Function.update L i (l ++ m) := by
      funext j
      by_cases hj : j = i
      · subst j
        rw [Function.update_self, hlm, List.erase_append_right _ hxl, List.erase_cons_head]
      · rw [Function.update_of_ne hj]
        exact List.erase_of_not_mem fun hm => hj (hh.lists.disjoint j i x hm hi)
    rw [he]
    exact hh.remove_mem hlm
  · have hnot : ∀ i, x ∉ L i := fun i hi => hxL ⟨i, hi⟩
    have he : (fun i => (L i).erase x) = L := funext fun i => List.erase_of_not_mem (hnot i)
    rw [he]
    exact hh.remove_single hx hnot

theorem Hangs.append (hh : Hangs h head L) {i j : ι} (hij : i ≠ j) :
    Hangs (rlistAppend h (head i) (head j)) head
      (Function.update (Function.update L i (L i ++ L j)) j []) := by
  have hsplice := hh.wf.rlSplice (h (head i)).prev (head j)
  have hsucc : (rlSplice h (h (head i)).prev (head j)).succ =
      swapSucc h.succ (endOf (head i) (L i)) (head j) := by rw [succ_rlSplice, hh.prev_head]
  have hend : swapSucc h.succ (endOf (head i) (L i)) (head j)
      (endOf (endOf (head i) (L i)) (L j)) = head j := by
    cases hj : L j with
    | nil => simpa [endOf, hj, Walk] using hh.lists.walk j
    | cons a m =>
      have hmem : endOf a m ∈ L j := by rw [hj]; exact endOf_mem a m
      have hw := hh.lists.walk j
      rw [hj] at hw
      rw [endOf, swapSucc_of_ne (fun he => ?_) (fun he => ?_)]
      · exact hw.2.succ_endOf
      · exact hij (hh.lists.ring_disjoint (endOf_mem _ _) (he ▸ List.mem_cons_of_mem _ hmem))
      · exact hh.lists.head_notMem j j (he ▸ hmem)
  refine ⟨hsplice.rlSplice _ _, ?_⟩
  rw [rlistAppend, rlistRemove, rlistPushBack, succ_rlSplice, hsucc,
    hsplice.prev_eq (a := endOf (endOf (head i) (L i)) (L j)) (by rw [hsucc]; exact hend)]
  exact hh.lists.append hij

end TinyOS
