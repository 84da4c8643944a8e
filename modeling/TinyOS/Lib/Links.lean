import Mathlib.Logic.Relation
import Mathlib.Data.List.Nodup

/-! Optional links: lists threaded through a link field, and chains of links that
lead to a root. -/

namespace Links

variable {α : Type*}

/-- Following `next` from `start` meets exactly the members of the list. -/
def Threaded (next : α → Option α) : Option α → List α → Prop
  | start, [] => start = none
  | start, a :: l => start = some a ∧ Threaded next (next a) l

theorem Threaded.congr {f g : α → Option α} {start : Option α} {l : List α}
    (h : Threaded f start l) (hfg : ∀ a ∈ l, g a = f a) : Threaded g start l := by
  induction l generalizing start with
  | nil => exact h
  | cons a l ih =>
    refine ⟨h.1, ?_⟩
    rw [hfg a List.mem_cons_self]
    exact ih h.2 fun b hb => hfg b (List.mem_cons_of_mem _ hb)

theorem Threaded.none_iff {f : α → Option α} {start : Option α} {l : List α}
    (h : Threaded f start l) : start = none ↔ l = [] := by
  cases l with
  | nil => simpa [Threaded] using h
  | cons a l => simp [h.1]

/-- A chain of links leads from `a` to `root`. -/
abbrev Leads (next : α → Option α) (a root : α) : Prop :=
  Relation.ReflTransGen (fun x y => next x = some y) a root

/-- Links may be changed as long as a chain that is followed stays as it is or jumps
to the root. -/
theorem Leads.redirect {f g : α → Option α} {a root : α} {P : α → Prop} (h : Leads f a root)
    (ha : P a) (hfg : ∀ x y, P x → x ≠ root → f x = some y →
      P y ∧ (g x = some y ∨ g x = some root)) : Leads g a root := by
  induction h using Relation.ReflTransGen.head_induction_on with
  | refl => exact .refl
  | @head x y hxy _ ih =>
    by_cases hx : x = root
    · rw [hx]
    · obtain ⟨hy, hg⟩ := hfg x y ha hx hxy
      rcases hg with hg | hg
      · exact .head hg (ih hy)
      · exact .single hg

theorem Leads.ne_self {f : α → Option α} {a root : α} (h : Leads f a root) (ha : a ≠ root) :
    f a ≠ some a := by
  induction h using Relation.ReflTransGen.head_induction_on with
  | refl => exact absurd rfl ha
  | @head x y hxy _ ih =>
    intro hx
    obtain rfl : y = x := Option.some.inj (hxy.symm.trans hx)
    exact ih ha hx

end Links
