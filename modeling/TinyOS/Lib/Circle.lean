import TinyOS.Lib.Walk

/-! A circular list without a head node: one of its members is known as the first, and every
other node is a singleton. -/

namespace Ring

variable {N : Type*}

def Circle (f : N → N) : List N → Prop
  | [] => ∀ x, f x = x
  | a :: l => (a :: l).Nodup ∧ Walk f a l a ∧ ∀ x, x ∉ a :: l → f x = x

variable {f : N → N} {a x : N} {l m : List N}

theorem Circle.nodup (h : Circle f l) : l.Nodup := by
  cases l with
  | nil => exact List.nodup_nil
  | cons a l => exact h.1

theorem Circle.singleton (h : Circle f l) (hx : x ∉ l) : f x = x := by
  cases l with
  | nil => exact h x
  | cons a l => exact h.2.2 x hx

theorem Circle.succ_first (h : Circle f (a :: l)) : f a = l.headD a := by
  have hw := h.2.1
  cases l with
  | nil => exact hw
  | cons b l => exact hw.1

theorem Circle.succ_last (h : Circle f (a :: l)) : f (endOf a l) = a := h.2.1.succ_endOf

theorem Circle.start (h : Circle f []) (x : N) : Circle f [x] :=
  ⟨List.nodup_singleton x, h x, fun y _ => h y⟩

variable [DecidableEq N]

/-- A new last member. -/
theorem Circle.push (h : Circle f (a :: l)) (hx : x ∉ a :: l) :
    Circle (swapSucc f (endOf a l) x) (a :: (l ++ [x])) := by
  obtain ⟨hnd, hw, hsingle⟩ := h
  have hw' : Walk f a (l ++ []) a := by simpa using hw
  refine ⟨?_, ?_, fun y hy => ?_⟩
  · have hnd' : ((a :: l) ++ [x]).Nodup :=
      List.nodup_append.mpr
        ⟨hnd, by simp, fun y hy z hz hyz => hx (List.mem_singleton.mp hz ▸ hyz ▸ hy)⟩
    exact hnd'
  · exact hw'.insert (by simpa using hnd) (by simpa using hx) (hsingle x hx)
  · have hyx : y ≠ x := by
      rintro rfl
      simp at hy
    have hyl : y ∉ a :: l := fun hm => hy (by
      rcases List.mem_cons.mp hm with rfl | hm
      · exact List.mem_cons_self
      · exact List.mem_cons_of_mem _ (List.mem_append_left _ hm))
    have hye : y ≠ endOf a l := by
      rintro rfl
      exact hyl (endOf_mem a l)
    rw [swapSucc_of_ne hye hyx]
    exact hsingle y hyl

/-- The first member is cut out; the second takes its place. -/
theorem Circle.pop (h : Circle f (a :: l)) : Circle (swapSucc f a (endOf a l)) l := by
  obtain ⟨hnd, hw, hsingle⟩ := h
  cases l with
  | nil =>
    rw [endOf, swapSucc_self]
    intro x
    by_cases hx : x = a
    · rw [hx]
      exact hw
    · exact hsingle x (by simpa using hx)
  | cons b l =>
    have hndb := (List.nodup_cons.mp hnd).2
    have hab := (List.nodup_cons.mp hnd).1
    have hlast : f (endOf b l) = a := hw.2.succ_endOf
    have hend : endOf b l ∈ b :: l := endOf_mem b l
    refine ⟨hndb, hw.2.redirect hndb (fun x hx hne => ?_) ?_, fun x hx => ?_⟩
    · exact swapSucc_of_ne (fun he => hab (he ▸ hx)) hne
    · rw [endOf, swapSucc_right]
      exact hw.1
    · by_cases hxa : x = a
      · rw [hxa, swapSucc_left, endOf, hlast]
      · rw [endOf, swapSucc_of_ne hxa (fun he => hx (he ▸ hend))]
        exact hsingle x fun hm => (List.mem_cons.mp hm).elim hxa hx

/-- A member that is not the first is cut out. -/
theorem Circle.remove (h : Circle f (a :: (l ++ x :: m))) :
    Circle (swapSucc f x (endOf a l)) (a :: (l ++ m)) := by
  obtain ⟨hnd, hw, hsingle⟩ := h
  have hsub : (a :: (l ++ m)).Sublist (a :: (l ++ x :: m)) :=
    ((List.sublist_cons_self x m).append_left l).cons_cons a
  obtain ⟨hrem, hx⟩ := hw.remove hnd
  rw [swapSucc_comm]
  refine ⟨hnd.sublist hsub, hrem, fun y hy => ?_⟩
  by_cases hyx : y = x
  · rw [hyx]
    exact hx
  · have hyl : y ∉ a :: (l ++ x :: m) := by
      intro hm
      rcases List.mem_cons.mp hm with rfl | hm
      · exact hy List.mem_cons_self
      · rcases List.mem_append.mp hm with hm | hm
        · exact hy (List.mem_cons_of_mem _ (List.mem_append_left _ hm))
        · rcases List.mem_cons.mp hm with rfl | hm
          · exact hyx rfl
          · exact hy (List.mem_cons_of_mem _ (List.mem_append_right _ hm))
    have hye : y ≠ endOf a l := by
      rintro rfl
      exact hyl (((List.sublist_append_left l (x :: m)).cons_cons a).subset (endOf_mem a l))
    rw [swapSucc_of_ne hye hyx]
    exact hsingle y hyl

/-- Whichever member is cut out: its predecessor is the node that leads to it. -/
theorem Circle.erase (h : Circle f l) {p : N} (hx : x ∈ l) (hp : f p = x)
    (hinj : Function.Injective f) :
    Circle (swapSucc f x p) (l.erase x) := by
  obtain ⟨as, bs, rfl⟩ := List.append_of_mem hx
  have hnd := h.nodup
  have hnot : x ∉ as := fun hm =>
    List.disjoint_left.mp (List.disjoint_of_nodup_append hnd) hm List.mem_cons_self
  rw [List.erase_append_right _ hnot, List.erase_cons_head]
  cases as with
  | nil =>
    obtain rfl : p = endOf x bs := hinj (hp.trans h.succ_last.symm)
    exact h.pop
  | cons a as =>
    have hpred : f (endOf a as) = x := by
      have hw : Walk f a (as ++ x :: bs) a := h.2.1
      exact (walk_append_cons.mp hw).1.succ_endOf
    obtain rfl : p = endOf a as := hinj (hp.trans hpred.symm)
    exact h.remove

end Ring
