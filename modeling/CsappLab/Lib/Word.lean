import Mathlib.Data.BitVec
import Mathlib.Data.Nat.Size
import Mathlib.Tactic

/-!
# Words of 32 bits

The truth values of C, the sign that an arithmetic shift by 31 spreads over a word, and the number
of bits of a natural number, found by halving.
-/

namespace Word

variable {p q : Prop} [Decidable p] [Decidable q]

def truth (p : Prop) [Decidable p] : BitVec 32 := if p then 1#32 else 0#32

def lnot (x : BitVec 32) : BitVec 32 := truth (x = 0#32)

theorem truth_congr (h : p ↔ q) : truth p = truth q := by
  unfold truth
  simp only [h]

theorem truth_eq_zero : truth p = 0#32 ↔ ¬ p := by
  unfold truth
  split_ifs with h <;> simp [h]

theorem lnot_truth : lnot (truth p) = truth (¬ p) := truth_congr truth_eq_zero

theorem neg_truth : ~~~truth p + 1#32 = if p then BitVec.allOnes 32 else 0#32 := by
  unfold truth
  split_ifs <;> rfl

/-! ### The sign -/

theorem toInt_neg_iff {x : BitVec 32} : x.toInt < 0 ↔ 2 ^ 31 ≤ x.toNat := by
  rw [BitVec.toInt_neg_iff]
  omega

theorem sshiftRight_sign (x : BitVec 32) :
    x.sshiftRight 31 = if x.toInt < 0 then BitVec.allOnes 32 else 0#32 := by
  apply BitVec.eq_of_toInt_eq
  have h1 := BitVec.le_toInt x
  have h2 := BitVec.toInt_lt (x := x)
  rw [BitVec.toInt_sshiftRight, Int.shiftRight_eq_div_pow]
  split_ifs
  · rw [BitVec.toInt_allOnes]
    omega
  · rw [BitVec.toInt_zero]
    omega

/-! ### The number of bits -/

theorem size_eq_add {n k : Nat} (h : k ≤ Nat.size n) : Nat.size n = k + Nat.size (n / 2 ^ k) := by
  apply Nat.le_antisymm
  · have hlt := Nat.lt_size_self (n / 2 ^ k)
    rw [Nat.size_le, pow_add, mul_comm]
    exact (Nat.div_lt_iff_lt_mul (by positivity)).1 hlt
  · have hle : Nat.size (n / 2 ^ k) ≤ Nat.size n - k := by
      rw [Nat.size_le, Nat.div_lt_iff_lt_mul (by positivity), ← pow_add, Nat.sub_add_cancel h]
      exact Nat.lt_size_self n
    omega

end Word
