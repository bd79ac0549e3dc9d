import Mathlib.Data.UInt

/-!
# Numbers in network order

A number is written with a fixed count of bytes, the most significant one first. What does not fit
into these bytes is cut off.
-/

namespace Codec

namespace BigEndian

/-- The lowest `width` bytes of a number. -/
def bytes : ℕ → ℕ → List UInt8
  | 0, _ => []
  | width + 1, n => bytes width (n / 256) ++ [UInt8.ofNat n]

def toNat (bs : List UInt8) : ℕ := bs.foldl (fun n b => 256 * n + b.toNat) 0

@[simp] theorem length_bytes (width n : ℕ) : (bytes width n).length = width := by
  induction width generalizing n with
  | zero => rfl
  | succ width ih => rw [bytes, List.length_append, ih, List.length_singleton]

theorem toNat_concat (bs : List UInt8) (b : UInt8) :
    toNat (bs ++ [b]) = 256 * toNat bs + b.toNat := by
  rw [toNat, List.foldl_append]
  rfl

/-- A number is read as it was written, up to what was cut off. -/
theorem toNat_bytes (width n : ℕ) : toNat (bytes width n) = n % 256 ^ width := by
  induction width generalizing n with
  | zero =>
    rw [Nat.pow_zero, Nat.mod_one]
    rfl
  | succ width ih =>
    have hpow : 256 ^ (width + 1) = 256 * 256 ^ width := by rw [Nat.pow_succ, Nat.mul_comm]
    rw [bytes, toNat_concat, ih, UInt8.toNat_ofNat', hpow, Nat.mod_mul]
    omega

theorem toNat_bytes_of_lt {width n : ℕ} (h : n < 256 ^ width) : toNat (bytes width n) = n := by
  rw [toNat_bytes, Nat.mod_eq_of_lt h]

end BigEndian

end Codec
