import Mathlib.Data.List.Basic
import Mathlib.Data.Finset.Card
import Mathlib.Data.Fintype.Defs

/-! Changing one entry of a list: which entries there are, and how many meet a
condition. -/

namespace Counting

variable {α : Type*}

theorem countP_modify {p : α → Bool} {l : List α} {i : Nat} {x : α} {f : α → α}
    (h : l[i]? = some x) :
    (l.modify i f).countP p + (if p x then 1 else 0) =
      l.countP p + if p (f x) then 1 else 0 := by
  induction l generalizing i with
  | nil => simp at h
  | cons y l ih =>
    cases i with
    | zero =>
      obtain rfl : y = x := by simpa using h
      simp only [List.modify_zero_cons, List.countP_cons]
      omega
    | succ i =>
      have hi := ih (i := i) (by simpa using h)
      simp only [List.modify_succ_cons, List.countP_cons]
      omega

theorem countP_modify_same {p : α → Bool} {l : List α} {i : Nat} {x : α} {f : α → α}
    (h : l[i]? = some x) (hp : p (f x) = p x) : (l.modify i f).countP p = l.countP p := by
  have hc := countP_modify (p := p) (f := f) h
  rw [hp] at hc
  omega

theorem countP_modify_gain {p : α → Bool} {l : List α} {i : Nat} {x : α} {f : α → α}
    (h : l[i]? = some x) (hx : p x = false) (hfx : p (f x) = true) :
    (l.modify i f).countP p = l.countP p + 1 := by
  have hc := countP_modify (p := p) (f := f) h
  simpa [hx, hfx] using hc

theorem countP_modify_lose {p : α → Bool} {l : List α} {i : Nat} {x : α} {f : α → α}
    (h : l[i]? = some x) (hx : p x = true) (hfx : p (f x) = false) :
    (l.modify i f).countP p + 1 = l.countP p := by
  have hc := countP_modify (p := p) (f := f) h
  simpa [hx, hfx] using hc

/-- An entry of the changed list is the changed one or an old one. -/
theorem getElem?_modify_cases {l : List α} {i j : Nat} {f : α → α} {y : α}
    (h : (l.modify i f)[j]? = some y) :
    (j = i ∧ ∃ x, l[i]? = some x ∧ y = f x) ∨ (j ≠ i ∧ l[j]? = some y) := by
  rw [List.getElem?_modify] at h
  by_cases hij : i = j
  · subst hij
    simp only [if_true, Option.map_eq_map, Option.map_eq_some_iff] at h
    obtain ⟨x, hx, hy⟩ := h
    exact .inl ⟨rfl, x, hx, hy.symm⟩
  · exact .inr ⟨Ne.symm hij, by simpa [hij] using h⟩

/-- An entry of a list grown by one is the new one or an old one. -/
theorem getElem?_concat_cases {l : List α} {j : Nat} {x y : α} (h : (l ++ [x])[j]? = some y) :
    (j = l.length ∧ y = x) ∨ (j ≠ l.length ∧ l[j]? = some y) := by
  rcases Nat.lt_trichotomy j l.length with hj | hj | hj
  · exact .inr ⟨Nat.ne_of_lt hj, by simpa [List.getElem?_append_left hj] using h⟩
  · subst hj
    exact .inl ⟨rfl, by simpa using h.symm⟩
  · rw [List.getElem?_eq_none (by simp; omega)] at h
    exact absurd h (by simp)

/-- The entry a list has been grown by is changed. -/
theorem modify_concat (l : List α) (x : α) (f : α → α) :
    (l ++ [x]).modify l.length f = l ++ [f x] := by
  induction l with
  | nil => rfl
  | cons y l ih => simpa using ih

theorem countP_pos_of_getElem? {p : α → Bool} {l : List α} {i : Nat} {x : α} (h : l[i]? = some x)
    (hp : p x = true) : 0 < l.countP p :=
  List.countP_pos_iff.mpr ⟨x, List.mem_of_getElem? h, hp⟩

/-- Two different entries that meet the condition. -/
theorem two_le_countP {p : α → Bool} {l : List α} {i j : Nat} {x y : α} (hij : i ≠ j)
    (hi : l[i]? = some x) (hj : l[j]? = some y) (hx : p x = true) (hy : p y = true) :
    2 ≤ l.countP p := by
  induction l generalizing i j with
  | nil => simp at hi
  | cons z l ih =>
    rw [List.countP_cons]
    cases i with
    | zero =>
      obtain rfl : z = x := by simpa using hi
      cases j with
      | zero => exact absurd rfl hij
      | succ j =>
        have hpos := countP_pos_of_getElem? (l := l) (i := j) (by simpa using hj) hy
        simp only [hx, if_true]
        omega
    | succ i =>
      cases j with
      | zero =>
        obtain rfl : z = y := by simpa using hj
        have hpos := countP_pos_of_getElem? (l := l) (i := i) (by simpa using hi) hx
        simp only [hy, if_true]
        omega
      | succ j =>
        have hle := ih (i := i) (j := j) (by omega) (by simpa using hi) (by simpa using hj)
        omega

def occurrences {ι : Type*} [Fintype ι] [DecidableEq α] (g : ι → α) (b : α) : Nat :=
  (Finset.univ.filter fun j => g j = b).card

theorem occurrences_update {ι : Type*} [Fintype ι] [DecidableEq ι] [DecidableEq α] (g : ι → α)
    (i : ι) (x b : α) :
    occurrences (Function.update g i x) b + (if g i = b then 1 else 0) =
      occurrences g b + if x = b then 1 else 0 := by
  have hsplit : ∀ h : ι → α, occurrences h b =
      ((Finset.univ.erase i).filter fun j => h j = b).card + if h i = b then 1 else 0 := by
    intro h
    rw [occurrences, ← Finset.insert_erase (Finset.mem_univ i), Finset.filter_insert]
    simp only [Finset.erase_insert_eq_erase, Finset.erase_idem]
    split
    · rw [Finset.card_insert_of_notMem (by simp)]
    · rfl
  have hsame : ((Finset.univ.erase i).filter fun j => Function.update g i x j = b) =
      (Finset.univ.erase i).filter fun j => g j = b :=
    Finset.filter_congr fun j hj => by rw [Function.update_of_ne (Finset.ne_of_mem_erase hj)]
  rw [hsplit (Function.update g i x), hsplit g, hsame, Function.update_self]
  omega

theorem occurrences_pos {ι : Type*} [Fintype ι] [DecidableEq α] {g : ι → α} {i : ι} {b : α}
    (h : g i = b) : 0 < occurrences g b :=
  Finset.card_pos.mpr ⟨i, by simp [h]⟩

theorem occurrences_eq_zero {ι : Type*} [Fintype ι] [DecidableEq α] {g : ι → α} {b : α}
    (h : ∀ i, g i ≠ b) : occurrences g b = 0 := by
  simp [occurrences, h]

end Counting
