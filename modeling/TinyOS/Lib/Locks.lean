import Mathlib.Logic.Basic

/-! A lock with an owner, and the places in the code of a process at which it has the lock. -/

namespace Locks

variable {τ : Type*}

/-- How a step of process `t` changes the owner of a lock, between places of the code at which
it has the lock or not. -/
inductive Move (t : τ) : Option τ → Option τ → Bool → Bool → Prop
  | keep (o : Option τ) (b : Bool) : Move t o o b b
  | take : Move t none (some t) false true
  | give (o : Option τ) : Move t o none true false

variable {t : τ} {o o' : Option τ} {b b' : Bool}

/-- The process has the lock where its place says so. -/
theorem Move.mine (h : Move t o o' b b') (hb : o = some t ↔ b = true) : o' = some t ↔
    b' = true := by
  cases h with
  | keep => exact hb
  | take => simp
  | give => simp

theorem Move.other (h : Move t o o' b b') (hb : o = some t ↔ b = true) {t' : τ} (hne : t' ≠ t) :
    o' = some t' ↔ o = some t' := by
  cases h with
  | keep => exact .rfl
  | take => simp [Ne.symm hne]
  | give =>
    rw [hb.mpr rfl]
    simp [Ne.symm hne]

/-- Two processes are never both at places at which they have the lock. -/
theorem exclusive {t' : τ} (h : o = some t ↔ b = true) (h' : o = some t' ↔ b' = true)
    (hb : b = true) (hb' : b' = true) : t = t' :=
  Option.some.inj ((h.mpr hb).symm.trans (h'.mpr hb'))

end Locks
