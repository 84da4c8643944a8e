import Mathlib.Logic.Function.Iterate
import Mathlib.Logic.Equiv.Basic
import Mathlib.Data.List.Nodup

/-! Reading a circular successor function as lists. A list hangs on a head
node: following successors from the head meets the members in order and comes
back to the head. -/

namespace Ring

variable {N : Type*}

def Walk (f : N → N) : N → List N → N → Prop
  | a, [], b => f a = b
  | a, x :: l, b => f a = x ∧ Walk f x l b

/-- The last node visited when walking from `a` through `l`. -/
def endOf : N → List N → N
  | a, [] => a
  | _, x :: l => endOf x l

@[simp] theorem endOf_append_cons (a x : N) (l m : List N) :
    endOf a (l ++ x :: m) = endOf x m := by
  induction l generalizing a with
  | nil => rfl
  | cons y l ih => exact ih y

theorem endOf_mem (a : N) (l : List N) : endOf a l ∈ a :: l := by
  induction l generalizing a with
  | nil => exact List.mem_cons_self
  | cons y l ih => exact List.mem_cons_of_mem _ (ih y)

theorem Walk.succ_endOf {f : N → N} {a b : N} {l : List N} (h : Walk f a l b) :
    f (endOf a l) = b := by
  induction l generalizing a with
  | nil => exact h
  | cons x l ih => exact ih h.2

@[simp] theorem walk_append_cons {f : N → N} {a x b : N} {l m : List N} :
    Walk f a (l ++ x :: m) b ↔ Walk f a l x ∧ Walk f x m b := by
  induction l generalizing a with
  | nil => rfl
  | cons y l ih => simp only [List.cons_append, Walk, ih, and_assoc]

theorem Walk.congr {f g : N → N} {a b : N} {l : List N} (h : Walk f a l b)
    (hfg : ∀ x ∈ a :: l, g x = f x) : Walk g a l b := by
  induction l generalizing a with
  | nil => exact (hfg a List.mem_cons_self).trans h
  | cons x l ih =>
    exact ⟨(hfg a List.mem_cons_self).trans h.1,
      ih h.2 fun y hy => hfg y (List.mem_cons_of_mem _ hy)⟩

/-- Changing only the successor of the last node changes only where the walk ends. -/
theorem Walk.redirect {f g : N → N} {a b c : N} {l : List N} (h : Walk f a l b)
    (hnd : (a :: l).Nodup) (hfg : ∀ x ∈ a :: l, x ≠ endOf a l → g x = f x)
    (hg : g (endOf a l) = c) : Walk g a l c := by
  induction l generalizing a with
  | nil => exact hg
  | cons x l ih =>
    have ha := (List.nodup_cons.mp hnd).1
    have hne : a ≠ endOf x l := fun he => ha (he ▸ endOf_mem x l)
    exact ⟨(hfg a List.mem_cons_self hne).trans h.1,
      ih h.2 (List.nodup_cons.mp hnd).2 (fun y hy => hfg y (List.mem_cons_of_mem _ hy)) hg⟩

theorem closed_of_walk {f : N → N} {a b : N} {l : List N} (hw : Walk f a l b) :
    ∀ x ∈ a :: l, f x ∈ b :: l := by
  induction l generalizing a with
  | nil =>
    intro x hx
    rw [List.mem_singleton.mp hx, show f a = b from hw]
    exact List.mem_cons_self
  | cons y l ih =>
    intro x hx
    rcases List.mem_cons.mp hx with rfl | hx
    · rw [hw.1]
      exact List.mem_cons_of_mem _ List.mem_cons_self
    · have hmem := ih hw.2 x hx
      rcases List.mem_cons.mp hmem with hb | hl
      · rw [hb]
        exact List.mem_cons_self
      · exact List.mem_cons_of_mem _ (List.mem_cons_of_mem _ hl)

theorem Walk.iterate_mem {f : N → N} {a : N} {l : List N} (hw : Walk f a l a)
    (n : Nat) : f^[n] a ∈ a :: l := by
  induction n with
  | zero => exact List.mem_cons_self
  | succ n ih =>
    rw [Function.iterate_succ_apply']
    exact closed_of_walk hw _ ih

theorem Walk.exists_iterate {f : N → N} {a b x : N} {l : List N} (hw : Walk f a l b) (hx : x ∈ l) :
    ∃ n, f^[n] a = x := by
  induction l generalizing a with
  | nil => cases hx
  | cons y l ih =>
    rcases List.mem_cons.mp hx with rfl | hx
    · exact ⟨1, hw.1⟩
    · obtain ⟨n, hn⟩ := ih hw.2 hx
      refine ⟨n + 1, ?_⟩
      rw [Function.iterate_succ_apply, hw.1]
      exact hn

/-- Reading is deterministic: two walks to a node that neither passes are equal. -/
theorem Walk.unique {f : N → N} {a b : N} {l m : List N} (h : Walk f a l b) (h' : Walk f a m b)
    (hl : b ∉ l) (hm : b ∉ m) : l = m := by
  induction l generalizing a m with
  | nil =>
    cases m with
    | nil => rfl
    | cons y m =>
      have he : y = b := h'.1.symm.trans h
      simp [he] at hm
  | cons x l ih =>
    cases m with
    | nil =>
      have he : x = b := h.1.symm.trans h'
      simp [he] at hl
    | cons y m =>
      obtain rfl : x = y := h.1.symm.trans h'.1
      rw [ih h.2 h'.2 (fun hb => hl (List.mem_cons_of_mem _ hb))
        (fun hb => hm (List.mem_cons_of_mem _ hb))]

variable [DecidableEq N]

/-- Exchange the successors of two nodes. -/
def swapSucc (f : N → N) (a b : N) : N → N := fun x => f (Equiv.swap a b x)

@[simp] theorem swapSucc_left (f : N → N) (a b : N) : swapSucc f a b a = f b := by
  simp [swapSucc]

@[simp] theorem swapSucc_right (f : N → N) (a b : N) : swapSucc f a b b = f a := by
  simp [swapSucc]

theorem swapSucc_of_ne {f : N → N} {a b x : N} (ha : x ≠ a) (hb : x ≠ b) :
    swapSucc f a b x = f x := by
  simp [swapSucc, Equiv.swap_apply_of_ne_of_ne ha hb]

theorem swapSucc_comm (f : N → N) (a b : N) : swapSucc f a b = swapSucc f b a := by
  unfold swapSucc
  rw [Equiv.swap_comm]

theorem swapSucc_self (f : N → N) (a : N) : swapSucc f a a = f := by
  unfold swapSucc
  simp

theorem swapSucc_swapSucc (f : N → N) (a b : N) : swapSucc (swapSucc f a b) a b = f := by
  unfold swapSucc
  simp

theorem Walk.swapSucc_frame {f : N → N} {a b p q : N} {l : List N} (h : Walk f a l b)
    (hp : p ∉ a :: l) (hq : q ∉ a :: l) : Walk (swapSucc f p q) a l b :=
  h.congr fun _ hx =>
    swapSucc_of_ne (fun he => hp (he ▸ hx)) (fun he => hq (he ▸ hx))

/-- Insert the singleton `x` after the last node of the first part. -/
theorem Walk.insert {f : N → N} {a b x : N} {l m : List N} (h : Walk f a (l ++ m) b)
    (hnd : (a :: (l ++ m)).Nodup) (hx : x ∉ a :: (l ++ m)) (hfx : f x = x) :
    Walk (swapSucc f (endOf a l) x) a (l ++ x :: m) b := by
  have hl : (a :: l).Sublist (a :: (l ++ m)) := (List.sublist_append_left l m).cons_cons a
  have hxl : ∀ y ∈ a :: l, y ≠ x := fun y hy he => hx (hl.subset (he ▸ hy))
  have hout : swapSucc f (endOf a l) x (endOf a l) = x := by simp [hfx]
  have hkeep : ∀ y ∈ a :: l, y ≠ endOf a l → swapSucc f (endOf a l) x y = f y :=
    fun y hy hne => swapSucc_of_ne hne (hxl y hy)
  refine walk_append_cons.mpr ?_
  cases m with
  | nil =>
    have hw : Walk f a l b := by simpa using h
    exact ⟨hw.redirect (hnd.sublist hl) hkeep hout, by simp [Walk, hw.succ_endOf]⟩
  | cons y m =>
    obtain ⟨hw, hr⟩ := walk_append_cons.mp h
    refine ⟨hw.redirect (hnd.sublist hl) hkeep hout, by simp [hw.succ_endOf], ?_⟩
    refine hr.swapSucc_frame (fun hy => ?_) (fun hy => hx ?_)
    · have hdis : (a :: l).Disjoint (y :: m) := List.disjoint_of_nodup_append hnd
      exact List.disjoint_left.mp hdis (endOf_mem a l) hy
    · exact List.mem_cons_of_mem _ (List.mem_append_right _ hy)

/-- Cut `x` out; it is left as a singleton. -/
theorem Walk.remove {f : N → N} {a b x : N} {l m : List N} (h : Walk f a (l ++ x :: m) b)
    (hnd : (a :: (l ++ x :: m)).Nodup) :
    Walk (swapSucc f (endOf a l) x) a (l ++ m) b ∧ swapSucc f (endOf a l) x x = x := by
  obtain ⟨hw, hr⟩ := walk_append_cons.mp h
  have hl : (a :: l).Sublist (a :: (l ++ x :: m)) :=
    (List.sublist_append_left l (x :: m)).cons_cons a
  have hdis : (a :: l).Disjoint (x :: m) := List.disjoint_of_nodup_append hnd
  have hxl : ∀ y ∈ a :: l, y ≠ x :=
    fun y hy he => List.disjoint_left.mp hdis hy (he ▸ List.mem_cons_self)
  have hkeep : ∀ y ∈ a :: l, y ≠ endOf a l → swapSucc f (endOf a l) x y = f y :=
    fun y hy hne => swapSucc_of_ne hne (hxl y hy)
  refine ⟨?_, by simp [hw.succ_endOf]⟩
  cases m with
  | nil =>
    have hg : swapSucc f (endOf a l) x (endOf a l) = b := by simpa [Walk] using hr
    simpa using hw.redirect (hnd.sublist hl) hkeep hg
  | cons y m =>
    have hg : swapSucc f (endOf a l) x (endOf a l) = y := by simpa using hr.1
    refine walk_append_cons.mpr ⟨hw.redirect (hnd.sublist hl) hkeep hg, ?_⟩
    have hnx :=
      (List.nodup_cons.mp (hnd.sublist (List.sublist_append_right (a :: l) (x :: y :: m)))).1
    refine hr.2.swapSucc_frame (fun hy => ?_) hnx
    exact List.disjoint_left.mp hdis (endOf_mem a l) (List.mem_cons_of_mem _ hy)

end Ring
