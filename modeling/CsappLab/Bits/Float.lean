import CsappLab.Lib.Binary32

/-!
# Powers of two in `bits.c`

`floatPower2` writes the biased exponent `x + 127` into the exponent field. It has no branch for the
denormal powers, and the addition wraps for the last 127 values of `x`.
-/

namespace CsappLab.Bits

open Binary32

variable {x : BitVec 32}

def floatScale2 (uf : BitVec 32) : BitVec 32 :=
  let exp := (uf &&& 0x7f800000#32) >>> 23
  let sign := uf &&& (1#32 <<< 31)
  if exp = 0#32 then uf <<< 1 ||| sign
  else if exp = 255#32 then uf
  else
    let exp := exp + 1#32
    if exp = 255#32 then 0x7f800000#32 ||| sign
    else (exp <<< 23) ||| (uf &&& 0x807fffff#32)

def floatPower2 (x : BitVec 32) : BitVec 32 :=
  let INF := 0xff#32 <<< 23
  let exp := x + 127#32
  if exp.sle 0#32 then 0#32
  else if BitVec.sle 255#32 exp then INF
  else exp <<< 23

/-- `w` is the pattern of `2 ^ x`, 0 below the denormal numbers and infinity above the normal ones. -/
structure IsPower2 (w : BitVec 32) (x : Int) : Prop where
  number : Representable (2 ^ x) → Denotes w (2 ^ x)
  small : x < -149 → w = 0#32
  large : 127 < x → w = inf

/-- Doubling the power is the power of the next exponent, where both exist. -/
def Doubles (x : BitVec 32) : Prop :=
  x.toInt + 1 < 2 ^ 31 → Representable (2 ^ x.toInt) →
    floatScale2 (floatPower2 x) = floatPower2 (x + 1#32)

/-! ### The branches -/

theorem toInt_add_of_lt {c : Nat} (hc : c < 2 ^ 31) (h : x.toInt + c < 2 ^ 31) :
    (x + BitVec.ofNat 32 c).toInt = x.toInt + c := by
  have hx := BitVec.le_toInt x
  rw [BitVec.toInt_add, toInt_ofNat_lt hc, Int.bmod_eq_of_le]
  · omega
  · omega

theorem toInt_add_wrap (h : 2 ^ 31 ≤ x.toInt + 127) : (x + 127#32).toInt < 0 := by
  have hx := BitVec.toInt_lt (x := x)
  have h127 : (127#32).toInt = 127 := rfl
  rw [BitVec.toInt_add, h127, Int.bmod_def]
  split_ifs <;> omega

theorem floatPower2_zero (h : x.toInt ≤ -127 ∨ 2 ^ 31 ≤ x.toInt + 127) : floatPower2 x = 0#32 := by
  have hexp : (x + 127#32).toInt ≤ 0 := by
    rcases h with h | h
    · rw [toInt_add_of_lt (by norm_num) (by omega)]
      omega
    · exact (toInt_add_wrap h).le
  have h0 : (x + 127#32).sle 0#32 = true := by
    rw [BitVec.sle_eq_decide, decide_eq_true_eq]
    exact hexp
  simp only [floatPower2, if_pos h0]

theorem floatPower2_pos {n : Nat} (hx : x.toInt = n - 127) (h1 : 0 < n) (h2 : n < 2 ^ 31) :
    floatPower2 x = if 255 ≤ n then inf else BitVec.ofNat 32 n <<< 23 := by
  have hexp : x + 127#32 = BitVec.ofNat 32 n := by
    apply BitVec.eq_of_toInt_eq
    rw [toInt_add_of_lt (by norm_num) (by omega), toInt_ofNat_lt h2]
    omega
  have h0 : ¬ (BitVec.ofNat 32 n).sle 0#32 = true := by
    rw [BitVec.sle_eq_decide, decide_eq_true_eq, toInt_ofNat_lt h2, toInt_ofNat_lt (by norm_num)]
    omega
  have h255 : BitVec.sle 255#32 (BitVec.ofNat 32 n) = true ↔ 255 ≤ n := by
    rw [BitVec.sle_eq_decide, decide_eq_true_eq, toInt_ofNat_lt h2, toInt_ofNat_lt (by norm_num)]
    omega
  simp only [floatPower2, hexp, if_neg h0, h255]
  rfl

theorem ofNat_shiftLeft {n : Nat} (h : n < 256) : BitVec.ofNat 32 n <<< 23 = BitVec.ofNat 32 (n * 2 ^ 23) := by
  apply BitVec.eq_of_toNat_eq
  rw [BitVec.toNat_shiftLeft, toNat_ofNat_lt (by omega), Nat.shiftLeft_eq, BitVec.toNat_ofNat]

theorem exp_eq (uf : BitVec 32) : (uf &&& 0x7f800000#32) >>> 23 = BitVec.ofNat 32 (expo uf) := by
  have hmask : 0x7f800000#32 >>> 23 = 255#32 := rfl
  rw [BitVec.ushiftRight_and_distrib, hmask]
  apply BitVec.eq_of_toNat_eq
  have he := expo_lt uf
  rw [BitVec.toNat_and, BitVec.toNat_ushiftRight, toNat_ofNat_lt (by omega), toNat_ofNat_lt (by omega),
    Nat.shiftRight_eq_div_pow]
  exact Nat.and_two_pow_sub_one_eq_mod _ 8

theorem shiftLeft_and {n : Nat} {mask : BitVec 32} (h : n < 256)
    (hmask : ∀ i, 23 ≤ i → i < 31 → mask.getLsbD i = false) : BitVec.ofNat 32 n <<< 23 &&& mask = 0#32 := by
  apply BitVec.eq_of_getLsbD_eq
  intro i hi
  rw [BitVec.getLsbD_and, BitVec.getLsbD_shiftLeft, BitVec.getLsbD_ofNat, BitVec.getLsbD_zero]
  by_cases h1 : i < 23
  · simp [h1]
  · by_cases h2 : i < 31
    · simp [hmask i (by omega) h2]
    · have hbit : n.testBit (i - 23) = false := by
        apply Nat.testBit_lt_two_pow
        calc n < 2 ^ 8 := h
          _ ≤ 2 ^ (i - 23) := Nat.pow_le_pow_right (by norm_num) (by omega)
      simp [hbit]

theorem floatScale2_normal {n : Nat} (h1 : 0 < n) (h2 : n < 255) :
    floatScale2 (BitVec.ofNat 32 n <<< 23) = BitVec.ofNat 32 (n + 1) <<< 23 := by
  have he : expo (BitVec.ofNat 32 n <<< 23) = n := by
    unfold expo
    rw [ofNat_shiftLeft (by omega), toNat_ofNat_lt (by omega)]
    omega
  have hsign : BitVec.ofNat 32 n <<< 23 &&& 1#32 <<< 31 = 0#32 := by
    apply shiftLeft_and (by omega)
    intro i h1 h2
    interval_cases i <;> rfl
  have hfrac : BitVec.ofNat 32 n <<< 23 &&& 0x807fffff#32 = 0#32 := by
    apply shiftLeft_and (by omega)
    intro i h1 h2
    interval_cases i <;> rfl
  have hne : ∀ k, k < 2 ^ 32 → n ≠ k → BitVec.ofNat 32 n ≠ BitVec.ofNat 32 k := by
    intro k hk hnk h
    have h := congrArg BitVec.toNat h
    rw [BitVec.toNat_ofNat, BitVec.toNat_ofNat, Nat.mod_eq_of_lt (by omega), Nat.mod_eq_of_lt hk] at h
    exact hnk h
  have hadd : BitVec.ofNat 32 n + 1#32 = BitVec.ofNat 32 (n + 1) := (BitVec.ofNat_add n 1).symm
  simp only [floatScale2, exp_eq, he, hsign, hfrac, BitVec.or_zero, hadd]
  rw [if_neg (hne 0 (by norm_num) (by omega)), if_neg (hne 255 (by norm_num) (by omega))]
  split_ifs with h
  · rw [h]
    rfl
  · rfl

/-! ### The powers -/

theorem floatPower2_isPower2_iff (x : BitVec 32) :
    IsPower2 (floatPower2 x) x.toInt ↔ ¬ (-149 ≤ x.toInt ∧ x.toInt ≤ -127) ∧ x.toInt + 127 < 2 ^ 31 := by
  constructor
  · intro h
    constructor
    · intro hx
      have hrep := h.number (representable_two_zpow.2 (by omega))
      rw [floatPower2_zero (by omega)] at hrep
      have hpos : (0 : ℚ) < 2 ^ x.toInt := by positivity
      rw [← hrep.2, value_zero] at hpos
      exact lt_irrefl _ hpos
    · by_contra hx
      have hinf := h.large (by omega)
      rw [floatPower2_zero (by omega)] at hinf
      cases hinf
  · rintro ⟨h1, h2⟩
    constructor
    case number =>
      intro hrep
      have hx := representable_two_zpow.1 hrep
      obtain ⟨n, hn⟩ := Int.eq_ofNat_of_zero_le (show 0 ≤ x.toInt + 127 by omega)
      have hxn : x.toInt = n - 127 := by omega
      rw [floatPower2_pos hxn (by omega) (by omega), if_neg (by omega), ofNat_shiftLeft (by omega), hxn]
      exact denotes_normal (by omega) (by omega)
    case small => exact fun hx => floatPower2_zero (by omega)
    case large =>
      intro hx
      obtain ⟨n, hn⟩ := Int.eq_ofNat_of_zero_le (show 0 ≤ x.toInt + 127 by omega)
      rw [floatPower2_pos (n := n) (by omega) (by omega) (by omega), if_pos (by omega)]

theorem floatPower2_doubles_iff (x : BitVec 32) : Doubles x ↔ x.toInt ≠ -127 := by
  have hadd : x.toInt + 1 < 2 ^ 31 → (x + 1#32).toInt = x.toInt + 1 := fun h =>
    toInt_add_of_lt (c := 1) (by norm_num) h
  constructor
  · intro h hx
    have h := h (by omega) (representable_two_zpow.2 (by omega))
    rw [floatPower2_zero (by omega), floatPower2_pos (n := 1) (by rw [hadd (by omega)]; omega) (by omega)
      (by omega)] at h
    revert h
    decide
  · intro hx h1 hrep
    have hr := representable_two_zpow.1 hrep
    by_cases hlow : x.toInt < -127
    · rw [floatPower2_zero (by omega), floatPower2_zero (by rw [hadd h1]; omega)]
      rfl
    · obtain ⟨n, hn⟩ := Int.eq_ofNat_of_zero_le (show 0 ≤ x.toInt + 127 by omega)
      rw [floatPower2_pos (n := n) (by omega) (by omega) (by omega), if_neg (by omega),
        floatScale2_normal (by omega) (by omega),
        floatPower2_pos (n := n + 1) (by rw [hadd h1]; push_cast; omega) (by omega) (by omega)]
      split_ifs with h255
      · obtain rfl : n = 254 := by omega
        rfl
      · rfl

/-- **`floatPower2`** is right except for the denormal powers, which become 0, and for the exponents
whose bias wraps, which become 0 as well. -/
theorem floatPower2_exact (x : BitVec 32) :
    (IsPower2 (floatPower2 x) x.toInt ∧ Doubles x ↔
      ¬ (-149 ≤ x.toInt ∧ x.toInt ≤ -127) ∧ x.toInt + 127 < 2 ^ 31) ∧
    (Doubles x ↔ x.toInt ≠ -127) := by
  refine ⟨?_, floatPower2_doubles_iff x⟩
  rw [floatPower2_isPower2_iff, floatPower2_doubles_iff]
  omega

/-- `2 ^ -127` is a denormal number, and twice 0 is not `2 ^ -126`. -/
theorem floatPower2_denormal : ¬ IsPower2 (floatPower2 (-127#32)) (-127) ∧ ¬ Doubles (-127#32) := by
  constructor
  · exact fun h => ((floatPower2_isPower2_iff (-127#32)).1 h).1 (by decide)
  · exact fun h => (floatPower2_doubles_iff (-127#32)).1 h (by decide)

end CsappLab.Bits
