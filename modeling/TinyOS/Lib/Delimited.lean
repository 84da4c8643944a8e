import Mathlib.Algebra.GroupWithZero.Nat
import Mathlib.Data.List.Basic

/-! Strings one after the other, each followed by a terminator that occurs in none of them. -/

namespace Delimited

variable {α : Type*}

def pack (z : α) : List (List α) → List α
  | [] => []
  | s :: ss => s ++ z :: pack z ss

/-- Where the strings start when the first one starts at `start`. -/
def starts : Nat → List (List α) → List Nat
  | _, [] => []
  | start, s :: ss => start :: starts (start + s.length + 1) ss

variable {z : α} {ss ts : List (List α)} {l : List α}

@[simp] theorem pack_nil (z : α) : pack z [] = [] := rfl

@[simp] theorem pack_cons (z : α) (s : List α) (ss : List (List α)) :
    pack z (s :: ss) = s ++ z :: pack z ss := rfl

@[simp] theorem pack_append (z : α) (ss ts : List (List α)) :
    pack z (ss ++ ts) = pack z ss ++ pack z ts := by
  induction ss with
  | nil => rfl
  | cons s ss ih => simp [ih]

@[simp] theorem starts_length (start : Nat) (ss : List (List α)) :
    (starts start ss).length = ss.length := by
  induction ss generalizing start with
  | nil => rfl
  | cons s ss ih => simp [starts, ih]

theorem pack_length (z : α) (ss : List (List α)) : (pack z ss).length =
    (ss.map List.length).sum + ss.length := by
  induction ss with
  | nil => rfl
  | cons s ss ih =>
    simp [ih]
    omega

variable [DecidableEq α]

/-- There are as many strings as terminators. -/
theorem count_pack (h : ∀ s ∈ ss, z ∉ s) : (pack z ss).count z = ss.length := by
  induction ss with
  | nil => rfl
  | cons s ss ih =>
    have hs : s.count z = 0 := List.count_eq_zero.mpr (h s List.mem_cons_self)
    simp [List.count_append, hs, ih fun t ht => h t (List.mem_cons_of_mem _ ht)]

/-- Every list is made of strings and a rest without terminator. -/
theorem exists_pack (z : α) (l : List α) : ∃ ss rest, (∀ s ∈ ss, z ∉ s) ∧
    z ∉ rest ∧ l = pack z ss ++ rest := by
  induction l with
  | nil => exact ⟨[], [], by simp, by simp, rfl⟩
  | cons b l ih =>
    obtain ⟨ss, rest, hss, hrest, rfl⟩ := ih
    by_cases hb : b = z
    · subst hb
      exact ⟨[] :: ss, rest, by simpa using hss, hrest, rfl⟩
    · cases ss with
      | nil => exact ⟨[], b :: rest, by simp, by simp [hrest, Ne.symm hb], rfl⟩
      | cons s ss =>
        refine ⟨(b :: s) :: ss, rest, fun t ht => ?_, hrest, rfl⟩
        rcases List.mem_cons.mp ht with rfl | ht
        · simp [Ne.symm hb, hss s List.mem_cons_self]
        · exact hss t (List.mem_cons_of_mem _ ht)

/-- One that ends in a terminator, or is empty, has no rest. -/
theorem exists_pack_of_last (h : l = [] ∨ l.getLast? = some z) : ∃ ss,
    (∀ s ∈ ss, z ∉ s) ∧ l = pack z ss := by
  obtain ⟨ss, rest, hss, hrest, rfl⟩ := exists_pack z l
  rcases List.eq_nil_or_concat' rest with rfl | ⟨m, b, rfl⟩
  · exact ⟨ss, hss, by simp⟩
  · exfalso
    rcases h with h | h
    · simp at h
    · rw [← List.append_assoc, List.getLast?_concat] at h
      obtain rfl := Option.some.inj h
      simp at hrest

end Delimited
