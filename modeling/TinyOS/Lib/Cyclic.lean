import Mathlib.Logic.Function.Basic
import Mathlib.Data.Nat.ModEq

/-! A bounded queue kept in a buffer whose indices wrap around. -/

namespace Cyclic

variable {α : Type*}

/-- The `n` entries from index `start` on, in a buffer of size `cap`. -/
def window (buf : Nat → α) (cap start n : Nat) : List α :=
  (List.range n).map fun i => buf ((start + i) % cap)

@[simp] theorem window_length (buf : Nat → α) (cap start n : Nat) :
    (window buf cap start n).length = n := by
  simp [window]

@[simp] theorem window_zero (buf : Nat → α) (cap start : Nat) : window buf cap start 0 = [] := rfl

theorem window_pop (buf : Nat → α) {cap start : Nat} (hs : start < cap) (n : Nat) :
    window buf cap start (n + 1) = buf start :: window buf cap ((start + 1) % cap) n := by
  simp only [window, List.range_succ_eq_map, List.map_cons, List.map_map, Nat.add_zero,
    Nat.mod_eq_of_lt hs]
  congr 1
  apply List.map_congr_left
  intro i _
  simp only [Function.comp_apply, Nat.succ_eq_add_one, Nat.mod_add_mod]
  congr 2
  omega

/-- Distinct offsets below the capacity fall on distinct indices. -/
theorem offset_injective {cap start i j : Nat} (hi : i < cap) (hj : j < cap)
    (h : (start + i) % cap = (start + j) % cap) : i = j := by
  have hmod : i ≡ j [MOD cap] := Nat.ModEq.add_left_cancel' start h
  exact hmod.eq_of_lt_of_lt hi hj

theorem window_push (buf : Nat → α) {cap start n : Nat} (hn : n < cap) (b : α) :
    window (Function.update buf ((start + n) % cap) b) cap start (n + 1) =
      window buf cap start n ++ [b] := by
  simp only [window, List.range_succ, List.map_append, List.map_cons, List.map_nil,
    Function.update_self]
  congr 1
  apply List.map_congr_left
  intro i hi
  have hin := List.mem_range.mp hi
  apply Function.update_of_ne
  intro he
  have := offset_injective (hin.trans hn) hn he
  omega

end Cyclic
