import Mathlib.Data.Nat.Digits.Lemmas

/-! Numbers as bytes in memory, the lowest byte first, and numbers of fixed width. -/

namespace LittleEndian

def store : Nat → Nat → List UInt8
  | 0, _ => []
  | width + 1, n => UInt8.ofNat n :: store width (n / 256)

def load : List UInt8 → Nat
  | [] => 0
  | b :: bs => b.toNat + 256 * load bs

@[simp] theorem store_length (width n : Nat) : (store width n).length = width := by
  induction width generalizing n with
  | zero => rfl
  | succ width ih => simp [store, ih]

theorem load_store {width n : Nat} (hn : n < 256 ^ width) : load (store width n) = n := by
  induction width generalizing n with
  | zero =>
    rw [Nat.pow_zero] at hn
    obtain rfl : n = 0 := by omega
    rfl
  | succ width ih =>
    have hdiv : n / 256 < 256 ^ width := by
      rw [Nat.pow_succ] at hn
      exact Nat.div_lt_of_lt_mul (by omega)
    rw [store, load, ih hdiv, UInt8.toNat_ofNat']
    omega

/-- Conversion to a signed type of `w` bits. -/
def toSigned (w : Nat) (n : Int) : Int := (BitVec.ofInt w n).toInt

/-- Conversion to an unsigned type of `w` bits. -/
def toUnsigned (w : Nat) (n : Int) : Nat := (BitVec.ofInt w n).toNat

theorem toSigned_of_range {n : Int} (hlo : -2 ^ 31 ≤ n) (hhi : n < 2 ^ 31) : toSigned 32 n = n := by
  rw [toSigned, BitVec.toInt_ofInt]
  exact Int.bmod_eq_of_le (by omega) (by omega)

theorem toUnsigned_natCast {w n : Nat} (hn : n < 2 ^ w) : toUnsigned w n = n := by
  rw [toUnsigned, BitVec.ofInt_natCast, BitVec.toNat_ofNat, Nat.mod_eq_of_lt hn]

end LittleEndian
