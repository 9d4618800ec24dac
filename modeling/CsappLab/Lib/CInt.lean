import Mathlib.Tactic
import Mathlib.Data.Nat.Bitwise

/-!
# C integers on a 32-bit machine

`size_t` and pointers are naturals reduced by `u32`, `int` is an integer reduced by `i32`. The mask
and rounding lemmas turn the usual bit tricks (clear the low bits, keep one bit, pack two fields,
smear the top bit downwards) into arithmetic that `omega` understands.
-/

namespace CInt

/-- Reduce to a 32-bit unsigned word. -/
def u32 (n : Nat) : Nat := n % 2 ^ 32

/-- Reduce an integer to a 32-bit unsigned word. -/
def wrap32 (n : Int) : Nat := (n % 2 ^ 32).toNat

/-- Reduce to a 32-bit two's complement integer. -/
def i32 (n : Int) : Int := (BitVec.ofInt 32 n).toInt

theorem u32_eq {n : Nat} (h : n < 2 ^ 32) : u32 n = n := Nat.mod_eq_of_lt h

theorem wrap32_eq {n : Nat} (h : n < 2 ^ 32) : wrap32 n = n := by unfold wrap32; omega

theorem i32_eq {n : Int} (h1 : -2 ^ 31 ≤ n) (h2 : n < 2 ^ 31) : i32 n = n := by
  unfold i32; rw [BitVec.toInt_ofInt, Int.bmod_eq_of_le] <;> omega

theorem i32_natCast {n : Nat} (h : n < 2 ^ 31) : i32 (n : Int) = n := i32_eq (by omega) (by omega)

theorem i32_neg {n : Nat} (h1 : 2 ^ 31 ≤ n) (h2 : n < 2 ^ 32) : i32 (n : Int) < 0 := by
  unfold i32
  rw [BitVec.toInt_ofInt, Int.bmod_def]
  split_ifs <;> omega

theorem i32_emod (m : Int) : i32 m % 2 ^ 32 = m % 2 ^ 32 := by
  unfold i32
  rw [BitVec.toInt_ofInt]
  exact Int.bmod_emod

theorem i32_range (m : Int) : -2 ^ 31 ≤ i32 m ∧ i32 m < 2 ^ 31 := by
  unfold i32
  rw [BitVec.toInt_ofInt, Int.bmod_def]
  split_ifs <;> omega

theorem i32_natCast_iff {n : Nat} : i32 (n : Int) = n ↔ n < 2 ^ 31 := by
  have hlt := (i32_range n).2
  exact ⟨fun h => by omega, i32_natCast⟩

/-- A sum that overflows turns negative. -/
theorem i32_of_nonneg {n : Int} (h0 : 0 ≤ n) (h1 : n < 2 ^ 32) (h : 0 ≤ i32 n) : i32 n = n := by
  obtain ⟨m, rfl⟩ := Int.eq_ofNat_of_zero_le h0
  refine i32_natCast ?_
  by_contra hm
  have hneg := i32_neg (n := m) (by omega) (by omega)
  exact absurd h (not_le.2 hneg)

theorem i32_succ {x : Int} (h0 : 0 ≤ x) (h1 : x < 2 ^ 31) (h : 0 ≤ i32 (x + 1)) : i32 (x + 1) = x + 1 :=
  i32_of_nonneg (by omega) (by omega) h

theorem i32_add (a b : Int) : i32 (i32 a + b) = i32 (a + b) := by
  unfold i32
  simp only [BitVec.toInt_ofInt]
  exact Int.bmod_add_bmod

theorem and_clear_low (x n k : Nat) (h : x < 2 ^ (n + k)) :
    x &&& (2 ^ (n + k) - 2 ^ k) = x / 2 ^ k * 2 ^ k := by
  have e : 2 ^ (n + k) - 2 ^ k = (2 ^ n - 1) <<< k := by
    rw [Nat.shiftLeft_eq, Nat.sub_mul, Nat.one_mul, pow_add]
  apply Nat.eq_of_testBit_eq
  intro i
  rw [e, Nat.testBit_and, Nat.testBit_shiftLeft, ← Nat.shiftRight_eq_div_pow, ← Nat.shiftLeft_eq,
    Nat.testBit_shiftLeft, Nat.testBit_shiftRight, Nat.testBit_two_pow_sub_one]
  by_cases hk : k ≤ i
  · rw [show k + (i - k) = i by omega]
    by_cases hn : i - k < n
    · simp [hk, hn]
    · have : x.testBit i = false :=
        Nat.testBit_lt_two_pow (lt_of_lt_of_le h (Nat.pow_le_pow_right (by decide) (by omega)))
      simp [this]
  · simp [hk]

/-! ### Smearing the top bit -/

/-- The `k` bits of `x` below bit `n` are set. -/
def TopOnes (n k x : Nat) : Prop := x < 2 ^ n ∧ ∀ i, i < n → n ≤ i + k → x.testBit i = true

theorem topOnes_one {n x : Nat} (h1 : 2 ^ n ≤ x) (h2 : x < 2 ^ (n + 1)) : TopOnes (n + 1) 1 x := by
  refine ⟨h2, fun i hi hk => ?_⟩
  obtain rfl : i = n := by omega
  have hx : x = 2 ^ i + (x - 2 ^ i) := by omega
  rw [hx, Nat.testBit_two_pow_add_eq, Nat.testBit_lt_two_pow (by rw [pow_succ] at h2; omega)]
  rfl

/-- One step of the smear: `x |= x >> j` extends a run of at least `j` ones by `j`. -/
theorem TopOnes.step {n k j x : Nat} (h : TopOnes n k x) (hj : j ≤ k) :
    TopOnes n (k + j) (x ||| x >>> j) := by
  refine ⟨Nat.or_lt_two_pow h.1 (lt_of_le_of_lt (Nat.shiftRight_le _ _) h.1), fun i hi hk => ?_⟩
  rw [Nat.testBit_or, Nat.testBit_shiftRight, Bool.or_eq_true]
  by_cases hik : n ≤ i + k
  · exact .inl (h.2 i hi hik)
  · exact .inr (h.2 (j + i) (by omega) (by omega))

theorem TopOnes.eq {n k x : Nat} (h : TopOnes n k x) (hk : n ≤ k) : x = 2 ^ n - 1 := by
  apply Nat.eq_of_testBit_eq
  intro i
  rw [Nat.testBit_two_pow_sub_one]
  by_cases hi : i < n
  · rw [h.2 i hi (by omega)]; simp [hi]
  · rw [Nat.testBit_lt_two_pow (lt_of_lt_of_le h.1 (Nat.pow_le_pow_right (by decide) (by omega)))]
    simp [hi]

/-- The five-step smear of a 32-bit word. -/
def smear (x : Nat) : Nat :=
  let x := x ||| x >>> 1
  let x := x ||| x >>> 2
  let x := x ||| x >>> 4
  let x := x ||| x >>> 8
  x ||| x >>> 16

theorem smear_eq {n x : Nat} (h1 : 2 ^ n ≤ x) (h2 : x < 2 ^ (n + 1)) (hn : n < 32) :
    smear x = 2 ^ (n + 1) - 1 := by
  have t := topOnes_one h1 h2
  have t := t.step (j := 1) (by omega)
  have t := t.step (j := 2) (by omega)
  have t := t.step (j := 4) (by omega)
  have t := t.step (j := 8) (by omega)
  have t := t.step (j := 16) (by omega)
  exact t.eq (by omega)

end CInt
