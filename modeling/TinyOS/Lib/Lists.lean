import Mathlib.Logic.Function.Basic
import TinyOS.Lib.Walk

/-! A family of lists in one successor function, each hanging on its own head,
with every other node a singleton. Each operation names the lists it changes,
so that all the others are unchanged by construction. -/

namespace Ring

variable {N ι : Type*}

structure Lists (f : N → N) (head : ι → N) (L : ι → List N) : Prop where
  walk : ∀ i, Walk f (head i) (L i) (head i)
  head_injective : Function.Injective head
  head_notMem : ∀ i j, head i ∉ L j
  nodup : ∀ i, (L i).Nodup
  disjoint : ∀ i j x, x ∈ L i → x ∈ L j → i = j
  singleton : ∀ x, (∀ i, x ≠ head i) → (∀ i, x ∉ L i) → f x = x

variable {f : N → N} {head : ι → N} {L : ι → List N}

theorem Lists.ring_nodup (h : Lists f head L) (i : ι) : (head i :: L i).Nodup :=
  List.nodup_cons.mpr ⟨h.head_notMem i i, h.nodup i⟩

theorem Lists.ring_disjoint (h : Lists f head L) {i j : ι} {x : N}
    (hi : x ∈ head i :: L i) (hj : x ∈ head j :: L j) : i = j := by
  rcases List.mem_cons.mp hi with hi | hi <;> rcases List.mem_cons.mp hj with hj | hj
  · exact h.head_injective (hi.symm.trans hj)
  · exact absurd (hi ▸ hj) (h.head_notMem i j)
  · exact absurd (hj ▸ hi) (h.head_notMem j i)
  · exact h.disjoint i j x hi hj

theorem Lists.succ_head (h : Lists f head L) (i : ι) :
    f (head i) = (L i).headD (head i) := by
  have hw := h.walk i
  cases hl : L i with
  | nil => rw [hl] at hw; exact hw
  | cons x l => rw [hl] at hw; exact hw.1

theorem Lists.eq_nil_iff (h : Lists f head L) (i : ι) : head i = f (head i) ↔ L i = [] := by
  rw [h.succ_head]
  cases hl : L i with
  | nil => simp
  | cons x l =>
    have hne : head i ≠ x := fun he => h.head_notMem i i (by simp [hl, he])
    simpa using hne

/-- The lists are determined by the successor function and the heads. -/
theorem Lists.unique {M : ι → List N} (h : Lists f head L) (h' : Lists f head M) : L = M :=
  funext fun i => (h.walk i).unique (h'.walk i) (h.head_notMem i i) (h'.head_notMem i i)

variable [DecidableEq N] [DecidableEq ι]

theorem Lists.insert (h : Lists f head L) {i : ι} {l m : List N} {x : N} (hi : L i = l ++ m)
    (hx : ∀ j, x ≠ head j) (hxL : ∀ j, x ∉ L j) :
    Lists (swapSucc f (endOf (head i) l) x) head (Function.update L i (l ++ x :: m)) := by
  have hring : x ∉ head i :: (l ++ m) := by
    rw [← hi]
    exact fun hm => (List.mem_cons.mp hm).elim (hx i) (hxL i)
  have hend : endOf (head i) l ∈ head i :: L i := by
    rw [hi]
    exact ((List.sublist_append_left l m).cons_cons (head i)).subset (endOf_mem _ _)
  have hmem : ∀ j y, y ∈ Function.update L i (l ++ x :: m) j ↔ y ∈ L j ∨ (j = i ∧ y = x) := by
    intro j y
    by_cases hj : j = i
    · subst j
      simp [hi, or_left_comm, or_comm]
    · simp [hj]
  refine ⟨fun j => ?_, h.head_injective, fun j k hm => ?_, fun j => ?_, fun j k y hj hk => ?_,
    fun y hy hyL => ?_⟩
  · by_cases hj : j = i
    · subst j
      rw [Function.update_self]
      have hw := h.walk i
      have hnd := h.ring_nodup i
      rw [hi] at hw hnd
      exact hw.insert hnd hring (h.singleton x hx hxL)
    · rw [Function.update_of_ne hj]
      refine (h.walk j).swapSucc_frame (fun hm => hj (h.ring_disjoint hm hend)) (fun hm => ?_)
      rcases List.mem_cons.mp hm with hm | hm
      · exact hx j hm
      · exact hxL j hm
  · rcases (hmem k (head j)).mp hm with hm | ⟨_, hm⟩
    · exact h.head_notMem j k hm
    · exact hx j hm.symm
  · by_cases hj : j = i
    · subst j
      rw [Function.update_self]
      have hnd := h.nodup i
      rw [hi] at hnd
      exact List.nodup_middle.mpr
        (List.nodup_cons.mpr ⟨fun hm => hring (List.mem_cons_of_mem _ hm), hnd⟩)
    · rw [Function.update_of_ne hj]
      exact h.nodup j
  · rcases (hmem j y).mp hj with hj | ⟨hj, hjx⟩ <;> rcases (hmem k y).mp hk with hk | ⟨hk, hkx⟩
    · exact h.disjoint j k y hj hk
    · exact absurd (hkx ▸ hj) (hxL j)
    · exact absurd (hjx ▸ hk) (hxL k)
    · exact hj.trans hk.symm
  · have hyx : y ≠ x := fun he => hyL i ((hmem i y).mpr (.inr ⟨rfl, he⟩))
    have hyL' : ∀ j, y ∉ L j := fun j hm => hyL j ((hmem j y).mpr (.inl hm))
    have hye : y ≠ endOf (head i) l := by
      intro he
      rcases List.mem_cons.mp (he ▸ hend) with hm | hm
      · exact hy i hm
      · exact hyL' i hm
    rw [swapSucc_of_ne hye hyx]
    exact h.singleton y hy hyL'

theorem Lists.remove (h : Lists f head L) {i : ι} {l m : List N} {x : N}
    (hi : L i = l ++ x :: m) :
    Lists (swapSucc f (endOf (head i) l) x) head (Function.update L i (l ++ m)) := by
  have hw := h.walk i
  have hnd := h.ring_nodup i
  rw [hi] at hw hnd
  obtain ⟨hrem, hsing⟩ := hw.remove hnd
  have hxi : x ∈ L i := by simp [hi]
  have hend : endOf (head i) l ∈ head i :: L i := by
    rw [hi]
    exact ((List.sublist_append_left l (x :: m)).cons_cons (head i)).subset (endOf_mem _ _)
  have hsub : ∀ j, (Function.update L i (l ++ m) j).Sublist (L j) := by
    intro j
    by_cases hj : j = i
    · subst j
      rw [Function.update_self, hi]
      exact (List.sublist_cons_self x m).append_left l
    · rw [Function.update_of_ne hj]
  have hmem : ∀ j y, y ∈ L j → y ≠ x → y ∈ Function.update L i (l ++ m) j := by
    intro j y hy hyx
    by_cases hj : j = i
    · subst j
      rw [hi] at hy
      simpa [hyx] using hy
    · simpa [hj] using hy
  refine ⟨fun j => ?_, h.head_injective, fun j k hm => h.head_notMem j k ((hsub k).subset hm),
    fun j => (h.nodup j).sublist (hsub j),
    fun j k y hj hk => h.disjoint j k y ((hsub j).subset hj) ((hsub k).subset hk),
    fun y hy hyL => ?_⟩
  · by_cases hj : j = i
    · subst j
      rw [Function.update_self]
      exact hrem
    · rw [Function.update_of_ne hj]
      refine (h.walk j).swapSucc_frame (fun hm => hj (h.ring_disjoint hm hend)) (fun hm => hj ?_)
      exact h.ring_disjoint hm (List.mem_cons_of_mem _ hxi)
  · by_cases hyx : y = x
    · rw [hyx]
      exact hsing
    · have hyL' : ∀ j, y ∉ L j := fun j hm => hyL j (hmem j y hm hyx)
      have hye : y ≠ endOf (head i) l := by
        intro he
        rcases List.mem_cons.mp (he ▸ hend) with hm | hm
        · exact hy i hm
        · exact hyL' i hm
      rw [swapSucc_of_ne hye hyx]
      exact h.singleton y hy hyL'

/-- Move every member of list `j` behind those of list `i`: splice the ring of
`j` in, then cut its head out again. -/
theorem Lists.append (h : Lists f head L) {i j : ι} (hij : i ≠ j) :
    Lists (swapSucc (swapSucc f (endOf (head i) (L i)) (head j)) (head j)
        (endOf (endOf (head i) (L i)) (L j))) head
      (Function.update (Function.update L i (L i ++ L j)) j []) := by
  cases hj : L j with
  | nil =>
    have hL : Function.update (Function.update L i (L i ++ [])) j [] = L := by
      rw [List.append_nil, Function.update_eq_self, ← hj, Function.update_eq_self]
    rw [hL, endOf, swapSucc_comm _ (head j), swapSucc_swapSucc]
    exact h
  | cons a m =>
    have hwi := h.walk i
    have hwj := h.walk j
    rw [hj] at hwj
    have hx : endOf (head i) (L i) ∈ head i :: L i := endOf_mem _ _
    have hy : endOf a m ∈ L j := by
      rw [hj]
      exact endOf_mem a m
    generalize hxe : endOf (head i) (L i) = x at hx
    generalize hye : endOf a m = y at hy
    have hxj : x ∉ head j :: L j := fun hm => hij (h.ring_disjoint hx hm)
    have hyi : y ∉ head i :: L i :=
      fun hm => hij (h.ring_disjoint hm (List.mem_cons_of_mem _ hy))
    have hxhj : x ≠ head j := fun he => hxj (by simp [he])
    have hyhj : y ≠ head j := fun he => h.head_notMem j j (he ▸ hy)
    have hxy : x ≠ y := fun he => hyi (he ▸ hx)
    have hfx : f x = head i := by rw [← hxe]; exact hwi.succ_endOf
    have hfy : f y = head j := by rw [← hye]; exact hwj.2.succ_endOf
    simp only [endOf, hye]
    generalize hg : swapSucc (swapSucc f x (head j)) (head j) y = g
    have hgx : g x = a := by
      rw [← hg, swapSucc_of_ne hxhj hxy, swapSucc_left]
      exact hwj.1
    have hgy : g y = head i := by rw [← hg, swapSucc_right, swapSucc_right, hfx]
    have hgj : g (head j) = head j := by
      rw [← hg, swapSucc_left, swapSucc_of_ne hxy.symm hyhj, hfy]
    have hkeep : ∀ n, n ≠ x → n ≠ y → n ≠ head j → g n = f n := fun n hnx hny hnj => by
      rw [← hg, swapSucc_of_ne hnj hny, swapSucc_of_ne hnx hnj]
    have hmem : ∀ k n, n ∈ Function.update (Function.update L i (L i ++ a :: m)) j [] k →
        ∃ l, n ∈ L l ∧ (l = k ∨ (l = j ∧ k = i)) := by
      intro k n hn
      by_cases hkj : k = j
      · subst k
        simp at hn
      · rw [Function.update_of_ne hkj] at hn
        by_cases hki : k = i
        · subst k
          rw [Function.update_self] at hn
          rcases List.mem_append.mp hn with hn | hn
          · exact ⟨i, hn, .inl rfl⟩
          · exact ⟨j, hj ▸ hn, .inr ⟨rfl, rfl⟩⟩
        · rw [Function.update_of_ne hki] at hn
          exact ⟨k, hn, .inl rfl⟩
    refine ⟨fun k => ?_, h.head_injective, fun k l hm => ?_, fun k => ?_, fun k l n hk hl => ?_,
      fun n hn hnL => ?_⟩
    · by_cases hkj : k = j
      · subst k
        simpa [Walk] using hgj
      · rw [Function.update_of_ne hkj]
        by_cases hki : k = i
        · subst k
          rw [Function.update_self]
          have hdj := List.nodup_cons.mp (hj ▸ h.ring_nodup j)
          refine walk_append_cons.mpr ⟨hwi.redirect (h.ring_nodup i) (fun n hn hne => ?_)
            (by rw [hxe, hgx]), hwj.2.redirect hdj.2 (fun n hn hne => ?_) (by rw [hye, hgy])⟩
          · have hnj : n ∉ head j :: L j := fun hm => hij (h.ring_disjoint hn hm)
            exact hkeep n (hxe ▸ hne) (fun he => hnj (List.mem_cons_of_mem _ (he ▸ hy)))
              (fun he => hnj (by simp [he]))
          · exact hkeep n (fun he => hxj (List.mem_cons_of_mem _ (by rw [hj]; exact he ▸ hn)))
              (hye ▸ hne) (fun he => hdj.1 (he ▸ hn))
        · rw [Function.update_of_ne hki]
          refine (h.walk k).congr fun n hn => hkeep n ?_ ?_ ?_
          · exact fun he => hki (h.ring_disjoint hn (he ▸ hx))
          · exact fun he => hkj (h.ring_disjoint hn (List.mem_cons_of_mem _ (he ▸ hy)))
          · exact fun he => hkj (h.ring_disjoint hn (by simp [he]))
    · obtain ⟨l', hm, _⟩ := hmem l _ hm
      exact h.head_notMem k l' hm
    · by_cases hkj : k = j
      · subst k
        simp
      · rw [Function.update_of_ne hkj]
        by_cases hki : k = i
        · subst k
          rw [Function.update_self, ← hj]
          exact (h.nodup i).append (h.nodup j) fun n hn hm => hij (h.disjoint i j n hn hm)
        · rw [Function.update_of_ne hki]
          exact h.nodup k
    · obtain ⟨k', hk', hkk⟩ := hmem k n hk
      obtain ⟨l', hl', hll⟩ := hmem l n hl
      have he := h.disjoint k' l' n hk' hl'
      have hkj : k ≠ j := fun hkj => by subst k; simp at hk
      have hlj : l ≠ j := fun hlj => by subst l; simp at hl
      grind
    · have hnL' : ∀ k, n ∉ L k := by
        intro k hm
        by_cases hkj : k = j
        · subst k
          exact hnL i (by simp [hij, ← hj, hm])
        · by_cases hki : k = i
          · subst k
            exact hnL i (by simp [hij, hm])
          · exact hnL k (by simpa [hkj, hki] using hm)
      rw [hkeep n ?_ (fun he => hnL' j (he ▸ hy)) (hn j)]
      · exact h.singleton n hn hnL'
      · intro he
        rcases List.mem_cons.mp (he ▸ hx) with hm | hm
        · exact hn i hm
        · exact hnL' i hm

end Ring
