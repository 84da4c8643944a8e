import TinyOS.Rlnode

/-! `rl_splice` on the rings of a heap: it joins two rings into one, cuts one ring in two, and
undoes itself. -/

namespace TinyOS

open Ring

variable {K N : Type*} {h : Heap K N} {f g : N → N} {a b c : N} {l xs ys : List N}

structure Heap.IsRing (h : Heap K N) (a : N) (l : List N) : Prop where
  nodup : (a :: l).Nodup
  walk : Walk h.succ a l a

/-- A walk may be entered from another node with the same successor. -/
theorem restart (hw : Walk f b l c) (ha : g a = f b) (hfg : ∀ x ∈ l, g x = f x) : Walk g a l c := by
  cases l with
  | nil => exact ha.trans hw
  | cons x l => exact ⟨ha.trans hw.1, hw.2.congr hfg⟩

/-- A walk does not leave a set that is closed under successors. -/
theorem end_mem_of_closed {S : N → Prop} (hS : ∀ x, S x → S (f x)) (hw : Walk f a l b) {x : N}
    (hx : x ∈ a :: l) (hxS : S x) : S b := by
  induction l generalizing a x with
  | nil =>
    rw [List.mem_singleton.mp hx] at hxS
    rw [← show f a = b from hw]
    exact hS a hxS
  | cons y l ih =>
    rcases List.mem_cons.mp hx with rfl | hx
    · apply ih hw.2 List.mem_cons_self
      rw [← hw.1]
      exact hS x hxS
    · exact ih hw.2 hx hxS

theorem Heap.IsRing.disjoint (ha : h.IsRing a xs) (hb : h.IsRing b ys) (hne : b ∉ a :: xs) :
    (a :: xs).Disjoint (b :: ys) := by
  apply List.disjoint_left.mpr
  intro x hxa hxb
  exact hne (end_mem_of_closed (closed_of_walk ha.walk) hb.walk hxb hxa)

theorem heap_ext {h h' : Heap K N} (hobj : ∀ n, (h n).obj = (h' n).obj)
    (hprev : ∀ n, (h n).prev = (h' n).prev)
    (hnext : ∀ n, (h n).next = (h' n).next) : h = h' := by
  funext n
  have ho := hobj n
  have hp := hprev n
  have hn := hnext n
  cases hx : h n
  cases hy : h' n
  simp_all

variable [DecidableEq N]

theorem rlSplice_comm (h : Heap K N) (a b : N) : rlSplice h b a = rlSplice h a b := by
  apply heap_ext
  · intro n
    rw [rlSplice_obj, rlSplice_obj]
  · intro n
    rw [rlSplice_prev, rlSplice_prev, Equiv.swap_comm]
  · intro n
    show (rlSplice h b a).succ n = (rlSplice h a b).succ n
    rw [succ_rlSplice, succ_rlSplice, swapSucc_comm]

theorem rlSplice_rlSplice (h : Heap K N) (a b : N) : rlSplice (rlSplice h a b) a b = h := by
  have hsucc := succ_rlSplice h a b
  apply heap_ext
  · intro n
    rw [rlSplice_obj, rlSplice_obj]
  · intro n
    have ha : (rlSplice h a b a).next = (h b).next := by
      show (rlSplice h a b).succ a = h.succ b
      rw [hsucc, swapSucc_left]
    have hb : (rlSplice h a b b).next = (h a).next := by
      show (rlSplice h a b).succ b = h.succ a
      rw [hsucc, swapSucc_right]
    rw [rlSplice_prev, rlSplice_prev, ha, hb, Equiv.swap_comm, Equiv.swap_apply_self]
  · intro n
    show (rlSplice (rlSplice h a b) a b).succ n = h.succ n
    rw [succ_rlSplice, hsucc, swapSucc_swapSucc]

theorem Heap.IsRing.join (ha : h.IsRing a xs) (hb : h.IsRing b ys) (hne : b ∉ a :: xs) :
    (rlSplice h a b).IsRing a (ys ++ b :: xs) := by
  have hdis := ha.disjoint hb hne
  have hperm : (a :: (ys ++ b :: xs)).Perm ((a :: xs) ++ (b :: ys)) := by
    apply List.Perm.cons
    have hmid : (xs ++ b :: ys).Perm (b :: (xs ++ ys)) := List.perm_middle
    have hcomm : (ys ++ b :: xs).Perm (b :: (ys ++ xs)) := List.perm_middle
    exact hcomm.trans ((List.perm_append_comm.cons b).trans hmid.symm)
  refine ⟨hperm.nodup_iff.mpr (List.Nodup.append ha.nodup hb.nodup hdis), ?_⟩
  rw [succ_rlSplice, walk_append_cons]
  constructor
  · apply restart hb.walk (swapSucc_left _ _ _)
    intro x hx
    apply swapSucc_of_ne
    · rintro rfl
      exact List.disjoint_left.mp hdis List.mem_cons_self (List.mem_cons_of_mem _ hx)
    · rintro rfl
      exact (List.nodup_cons.mp hb.nodup).1 hx
  · apply restart ha.walk (swapSucc_right _ _ _)
    intro x hx
    apply swapSucc_of_ne
    · rintro rfl
      exact (List.nodup_cons.mp ha.nodup).1 hx
    · rintro rfl
      exact hne (List.mem_cons_of_mem _ hx)

theorem Heap.IsRing.cut (ha : h.IsRing a (xs ++ b :: ys)) :
    (rlSplice h a b).IsRing a ys ∧ (rlSplice h a b).IsRing b xs := by
  have hwalk := walk_append_cons.mp ha.walk
  have hnd := List.nodup_cons.mp ha.nodup
  have hmid := List.nodup_cons.mp (List.nodup_middle.mp hnd.2)
  have hxs : ∀ x ∈ xs, x ≠ a ∧ x ≠ b := by
    intro x hx
    constructor
    · rintro rfl
      exact hnd.1 (List.mem_append_left _ hx)
    · rintro rfl
      exact hmid.1 (List.mem_append_left _ hx)
  have hys : ∀ x ∈ ys, x ≠ a ∧ x ≠ b := by
    intro x hx
    constructor
    · rintro rfl
      exact hnd.1 (List.mem_append_right _ (List.mem_cons_of_mem _ hx))
    · rintro rfl
      exact hmid.1 (List.mem_append_right _ hx)
  constructor
  · refine ⟨List.nodup_cons.mpr ⟨fun hm => (hys a hm).1 rfl, hmid.2.of_append_right⟩, ?_⟩
    rw [succ_rlSplice]
    apply restart hwalk.2 (swapSucc_left _ _ _)
    intro x hx
    exact swapSucc_of_ne (hys x hx).1 (hys x hx).2
  · refine ⟨List.nodup_cons.mpr ⟨fun hm => (hxs b hm).2 rfl, hmid.2.of_append_left⟩, ?_⟩
    rw [succ_rlSplice]
    apply restart hwalk.1 (swapSucc_right _ _ _)
    intro x hx
    exact swapSucc_of_ne (hxs x hx).1 (hxs x hx).2

theorem Heap.IsRing.keep (hc : h.IsRing c l) (ha : a ∉ c :: l) (hb : b ∉ c :: l) :
    (rlSplice h a b).IsRing c l := by
  refine ⟨hc.nodup, ?_⟩
  rw [succ_rlSplice]
  exact hc.walk.swapSucc_frame ha hb

/-- What `rl_splice(a, b)` does to a heap. -/
structure Spliced (h : Heap K N) (a b : N) (h' : Heap K N) : Prop where
  wellFormed : h'.WellFormed
  next_left : (h' a).next = (h b).next
  next_right : (h' b).next = (h a).next
  next_other : ∀ n, n ≠ a → n ≠ b → (h' n).next = (h n).next
  obj : ∀ n, (h' n).obj = (h n).obj
  join : ∀ xs ys, h.IsRing a xs → h.IsRing b ys → b ∉ a :: xs → h'.IsRing a (ys ++ b :: xs)
  cut : ∀ xs ys, h.IsRing a (xs ++ b :: ys) → h'.IsRing a ys ∧ h'.IsRing b xs
  keep : ∀ c l, h.IsRing c l → a ∉ c :: l → b ∉ c :: l → h'.IsRing c l

/-- `rl_splice` exchanges two successors in every well-formed heap, whatever the two nodes. -/
theorem rl_splice_exchanges (hw : h.WellFormed) (a b : N) :
    Spliced h a b (rlSplice h a b) ∧ rlSplice h b a = rlSplice h a b ∧
      rlSplice (rlSplice h a b) a b = h := by
  have hsucc := succ_rlSplice h a b
  refine ⟨⟨hw.rlSplice a b, ?_, ?_, fun n ha hb => ?_, rlSplice_obj h a b,
    fun _ _ hx hy hne => hx.join hy hne,
    fun _ _ hx => hx.cut, fun _ _ hc ha hb => hc.keep ha hb⟩, rlSplice_comm h a b,
      rlSplice_rlSplice h a b⟩
  · show (rlSplice h a b).succ a = h.succ b
    rw [hsucc, swapSucc_left]
  · show (rlSplice h a b).succ b = h.succ a
    rw [hsucc, swapSucc_right]
  · show (rlSplice h a b).succ n = h.succ n
    rw [hsucc, swapSucc_of_ne ha hb]

def threeRing : Heap Unit (Fin 3) := fun n => ⟨(), n - 1, n + 1⟩

theorem rl_splice_exchanges_adjacent :
    Spliced threeRing 0 1 (rlSplice threeRing 0 1) ∧ rlSplice threeRing 1 0 =
    rlSplice threeRing 0 1 ∧ rlSplice (rlSplice threeRing 0 1) 0 1 = threeRing :=
  rl_splice_exchanges ⟨by decide, by decide⟩ 0 1

end TinyOS
