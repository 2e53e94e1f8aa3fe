import Mathlib.Algebra.Group.Nat.Defs
import Mathlib.Data.List.Induction

/-!
# Big-endian bytes

A natural number as its last base-256 digits, the highest first, and the number
that digits stand for. Writing `k` digits keeps the number modulo `256 ^ k`, and
reading digits loses nothing but their number.
-/

namespace Interaction

/-- The last `k` digits of `n`. -/
def bigEndian (k n : Nat) : List UInt8 :=
  (List.range k).map fun i => UInt8.ofNat (n / 256 ^ (k - 1 - i))

/-- The number with these digits. -/
def ofBigEndian (bs : List UInt8) : Nat := bs.foldl (fun acc b => 256 * acc + b.toNat) 0

@[simp] theorem length_bigEndian (k n : Nat) : (bigEndian k n).length = k := by
  simp [bigEndian]

@[simp] theorem ofBigEndian_append_singleton (bs : List UInt8) (b : UInt8) :
    ofBigEndian (bs ++ [b]) = 256 * ofBigEndian bs + b.toNat := by
  simp [ofBigEndian]

/-- The last digit is split off at the end. -/
theorem bigEndian_succ (k n : Nat) :
    bigEndian (k + 1) n = bigEndian k (n / 256) ++ [UInt8.ofNat n] := by
  simp only [bigEndian, List.range_succ, List.map_append, List.map_cons, List.map_nil]
  congr 1
  · apply List.map_congr_left
    intro i hi
    have hlt := List.mem_range.mp hi
    have hexp : k + 1 - 1 - i = (k - 1 - i) + 1 := by omega
    rw [hexp, Nat.pow_succ', Nat.div_div_eq_div_mul]
  · simp

theorem ofBigEndian_bigEndian (k n : Nat) : ofBigEndian (bigEndian k n) = n % 256 ^ k := by
  induction k generalizing n with
  | zero => simp [bigEndian, ofBigEndian, Nat.mod_one]
  | succ k ih =>
      have hdigit : (UInt8.ofNat n).toNat = n % 256 := by simp
      rw [bigEndian_succ, ofBigEndian_append_singleton, ih, hdigit, Nat.pow_succ', Nat.mod_mul]
      omega

theorem bigEndian_ofBigEndian (bs : List UInt8) :
    bigEndian bs.length (ofBigEndian bs) = bs := by
  induction bs using List.reverseRecOn with
  | nil => rfl
  | append_singleton bs b ih =>
      have hb : b.toNat < 256 := b.toNat_lt
      have hdiv : (256 * ofBigEndian bs + b.toNat) / 256 = ofBigEndian bs := by omega
      have hlast : UInt8.ofNat (256 * ofBigEndian bs + b.toNat) = b := by
        apply UInt8.toNat_inj.mp
        simp
      rw [List.length_append, List.length_singleton, bigEndian_succ,
        ofBigEndian_append_singleton, hdiv, ih, hlast]

/-- `k` digits stand for a number below `256 ^ k`. -/
theorem ofBigEndian_lt (bs : List UInt8) : ofBigEndian bs < 256 ^ bs.length := by
  rw [← bigEndian_ofBigEndian bs, ofBigEndian_bigEndian, length_bigEndian]
  exact Nat.mod_lt _ (Nat.pow_pos (by decide))

end Interaction
