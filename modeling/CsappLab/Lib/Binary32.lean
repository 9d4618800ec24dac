import Mathlib.Data.BitVec
import Mathlib.Data.Rat.Defs
import Mathlib.Tactic

/-!
# Single-precision numbers

A word of 32 bits is a sign, a biased exponent of 8 bits and a fraction of 23 bits. `value` is the
number of a finite word. The exponent field 0 holds the denormal numbers, 255 the infinities and the
NaNs.
-/

namespace Binary32

variable {w : BitVec 32} {x : Int} {n : Nat}

def sign (w : BitVec 32) : Nat := w.toNat / 2 ^ 31

def expo (w : BitVec 32) : Nat := w.toNat / 2 ^ 23 % 2 ^ 8

def frac (w : BitVec 32) : Nat := w.toNat % 2 ^ 23

def Finite (w : BitVec 32) : Prop := expo w ≠ 255

def inf : BitVec 32 := 0x7f800000#32

/-- The number without its sign. -/
def magnitude (w : BitVec 32) : ℚ :=
  if expo w = 0 then frac w * 2 ^ (-149 : Int) else (2 ^ 23 + frac w) * 2 ^ ((expo w : Int) - 150)

def value (w : BitVec 32) : ℚ := (-1) ^ sign w * magnitude w

/-- `w` is the pattern of `v`. -/
def Denotes (w : BitVec 32) (v : ℚ) : Prop := Finite w ∧ value w = v

/-- `v` is a normal or a denormal number. -/
def Representable (v : ℚ) : Prop := ∃ w, Denotes w v

theorem expo_lt (w : BitVec 32) : expo w < 2 ^ 8 := Nat.mod_lt _ (by norm_num)

theorem frac_lt (w : BitVec 32) : frac w < 2 ^ 23 := Nat.mod_lt _ (by norm_num)

theorem magnitude_nonneg (w : BitVec 32) : 0 ≤ magnitude w := by
  unfold magnitude
  split_ifs <;> positivity

theorem value_le_magnitude (w : BitVec 32) : value w ≤ magnitude w := by
  unfold value
  rcases neg_one_pow_eq_or ℚ (sign w) with h | h
  · rw [h, one_mul]
  · rw [h]
    linarith [magnitude_nonneg w]

/-! ### The words of a power of two -/

theorem toNat_ofNat_lt (h : n < 2 ^ 31) : (BitVec.ofNat 32 n).toNat = n := by
  rw [BitVec.toNat_ofNat]
  exact Nat.mod_eq_of_lt (by omega)

theorem toInt_ofNat_lt (h : n < 2 ^ 31) : (BitVec.ofNat 32 n).toInt = n := by
  rw [BitVec.toInt_eq_toNat_of_lt, toNat_ofNat_lt h]
  rw [toNat_ofNat_lt h]
  omega

theorem value_ofNat (h : n < 2 ^ 31) : value (BitVec.ofNat 32 n) = magnitude (BitVec.ofNat 32 n) := by
  have hs : sign (BitVec.ofNat 32 n) = 0 := by
    unfold sign
    rw [toNat_ofNat_lt h]
    exact Nat.div_eq_of_lt h
  rw [value, hs, pow_zero, one_mul]

theorem denotes_normal (h1 : 0 < n) (h2 : n < 255) :
    Denotes (BitVec.ofNat 32 (n * 2 ^ 23)) (2 ^ ((n : Int) - 127)) := by
  have hn : n * 2 ^ 23 < 2 ^ 31 := by omega
  have he : expo (BitVec.ofNat 32 (n * 2 ^ 23)) = n := by
    unfold expo
    rw [toNat_ofNat_lt hn, Nat.mul_div_cancel _ (by norm_num)]
    exact Nat.mod_eq_of_lt (by omega)
  have hf : frac (BitVec.ofNat 32 (n * 2 ^ 23)) = 0 := by
    unfold frac
    rw [toNat_ofNat_lt hn, Nat.mul_mod_left]
  refine ⟨by unfold Finite; omega, ?_⟩
  have hsplit : (n : Int) - 127 = 23 + (n - 150) := by ring
  rw [value_ofNat hn, magnitude, he, if_neg h1.ne', hf, hsplit, zpow_add₀ (by norm_num)]
  norm_num

theorem denotes_denormal (h : n < 23) : Denotes (BitVec.ofNat 32 (2 ^ n)) (2 ^ ((n : Int) - 149)) := by
  have hp : 2 ^ n < 2 ^ 23 := Nat.pow_lt_pow_right (by norm_num) h
  have hn : 2 ^ n < 2 ^ 31 := by omega
  have he : expo (BitVec.ofNat 32 (2 ^ n)) = 0 := by
    unfold expo
    rw [toNat_ofNat_lt hn, Nat.div_eq_of_lt hp]
    rfl
  have hf : frac (BitVec.ofNat 32 (2 ^ n)) = 2 ^ n := by
    unfold frac
    rw [toNat_ofNat_lt hn]
    exact Nat.mod_eq_of_lt hp
  refine ⟨by unfold Finite; omega, ?_⟩
  rw [value_ofNat hn, magnitude, he, if_pos rfl, hf, sub_eq_add_neg, zpow_add₀ (by norm_num), zpow_natCast]
  norm_num

theorem value_zero : value 0#32 = 0 := by
  simp [value, magnitude, expo, frac]

/-! ### The range -/

theorem magnitude_lt (h : Finite w) : magnitude w < 2 ^ (128 : Int) := by
  have hf : ((frac w : Nat) : ℚ) + 1 ≤ 2 ^ 23 := by exact_mod_cast frac_lt w
  have he := expo_lt w
  have h255 : expo w ≤ 254 := by
    unfold Finite at h
    omega
  unfold magnitude
  split_ifs with h0
  · calc (frac w : ℚ) * 2 ^ (-149 : Int) ≤ 2 ^ 23 * 2 ^ (-149 : Int) := by gcongr; linarith
      _ < 2 ^ (128 : Int) := by norm_num
  · calc ((2 : ℚ) ^ 23 + frac w) * 2 ^ ((expo w : Int) - 150) < 2 ^ 24 * 2 ^ ((expo w : Int) - 150) := by
          gcongr
          linarith
      _ ≤ 2 ^ 24 * 2 ^ (104 : Int) := by
          gcongr
          · norm_num
          · omega
      _ = 2 ^ (128 : Int) := by norm_num

/-- The least positive number is `2 ^ -149`. -/
theorem le_magnitude (h : 0 < magnitude w) : (2 : ℚ) ^ (-149 : Int) ≤ magnitude w := by
  unfold magnitude at h ⊢
  split_ifs at h ⊢ with h0
  · have hf : (1 : ℚ) ≤ frac w := by
      have hf : (0 : ℚ) < frac w := pos_of_mul_pos_left h (by positivity)
      exact_mod_cast hf
    calc (2 : ℚ) ^ (-149 : Int) = 1 * 2 ^ (-149 : Int) := (one_mul _).symm
      _ ≤ frac w * 2 ^ (-149 : Int) := by gcongr
  · calc (2 : ℚ) ^ (-149 : Int) ≤ 2 ^ ((expo w : Int) - 150) := zpow_le_zpow_right₀ (by norm_num) (by omega)
      _ = 1 * 2 ^ ((expo w : Int) - 150) := (one_mul _).symm
      _ ≤ (2 ^ 23 + frac w) * 2 ^ ((expo w : Int) - 150) := by
          gcongr
          have hf : (0 : ℚ) ≤ frac w := by positivity
          linarith

theorem representable_two_zpow : Representable (2 ^ x) ↔ -149 ≤ x ∧ x ≤ 127 := by
  constructor
  · rintro ⟨w, hw, hv⟩
    have hpos : (0 : ℚ) < 2 ^ x := by positivity
    have hle : (2 : ℚ) ^ x ≤ magnitude w := hv ▸ value_le_magnitude w
    have hlt : (2 : ℚ) ^ x < 2 ^ (128 : Int) := hle.trans_lt (magnitude_lt hw)
    have hge : (2 : ℚ) ^ (-149 : Int) ≤ 2 ^ x := by
      rw [← hv, value] at hpos ⊢
      rcases neg_one_pow_eq_or ℚ (sign w) with h | h
      · rw [h, one_mul] at hpos ⊢
        exact le_magnitude hpos
      · rw [h] at hpos
        linarith [magnitude_nonneg w]
    rw [zpow_lt_zpow_iff_right₀ (by norm_num)] at hlt
    rw [zpow_le_zpow_iff_right₀ (by norm_num)] at hge
    omega
  · rintro ⟨h1, h2⟩
    by_cases hx : x < -126
    · obtain ⟨n, hn⟩ := Int.eq_ofNat_of_zero_le (show 0 ≤ x + 149 by omega)
      obtain rfl : x = n - 149 := by omega
      exact ⟨_, denotes_denormal (by omega)⟩
    · obtain ⟨n, hn⟩ := Int.eq_ofNat_of_zero_le (show 0 ≤ x + 127 by omega)
      obtain rfl : x = n - 127 := by omega
      exact ⟨_, denotes_normal (by omega) (by omega)⟩

/-! ### The fields -/

/-- No number is shown by these words. -/
def NaN (w : BitVec 32) : Prop := expo w = 255 ∧ frac w ≠ 0

def Infinite (w : BitVec 32) : Prop := expo w = 255 ∧ frac w = 0

def pack (s e f : Nat) : BitVec 32 :=
  (BitVec.ofNat 32 s <<< 31 ||| BitVec.ofNat 32 e <<< 23) ||| BitVec.ofNat 32 f

theorem toNat_pack {s e f : Nat} (hs : s < 2) (he : e < 2 ^ 8) (hf : f < 2 ^ 23) :
    (pack s e f).toNat = s * 2 ^ 31 + e * 2 ^ 23 + f := by
  have hshift : ∀ {n k : Nat}, n < 2 ^ 31 → n * 2 ^ k < 2 ^ 32 → (BitVec.ofNat 32 n <<< k).toNat = n <<< k := by
    intro n k hn hk
    rw [BitVec.toNat_shiftLeft, toNat_ofNat_lt hn, Nat.shiftLeft_eq, Nat.mod_eq_of_lt hk]
  have hlow : e <<< 23 + f < 2 ^ 31 := by
    rw [Nat.shiftLeft_eq]
    omega
  rw [pack, BitVec.toNat_or, BitVec.toNat_or, hshift (by omega) (by omega), hshift (by omega) (by omega),
    toNat_ofNat_lt (by omega), Nat.or_assoc, ← Nat.shiftLeft_add_eq_or_of_lt hf,
    ← Nat.shiftLeft_add_eq_or_of_lt hlow, Nat.shiftLeft_eq, Nat.shiftLeft_eq]
  omega

theorem sign_lt (w : BitVec 32) : sign w < 2 := by
  have h := w.isLt
  unfold sign
  omega

theorem toNat_eq (w : BitVec 32) : w.toNat = sign w * 2 ^ 31 + expo w * 2 ^ 23 + frac w := by
  unfold sign expo frac
  omega

theorem ext (hs : sign w = sign w') (he : expo w = expo w') (hf : frac w = frac w') : w = w' := by
  apply BitVec.eq_of_toNat_eq
  rw [toNat_eq w, toNat_eq w', hs, he, hf]

theorem sign_pack {s e f : Nat} (hs : s < 2) (he : e < 2 ^ 8) (hf : f < 2 ^ 23) : sign (pack s e f) = s := by
  rw [sign, toNat_pack hs he hf]
  omega

theorem expo_pack {s e f : Nat} (hs : s < 2) (he : e < 2 ^ 8) (hf : f < 2 ^ 23) : expo (pack s e f) = e := by
  rw [expo, toNat_pack hs he hf]
  omega

theorem frac_pack {s e f : Nat} (hs : s < 2) (he : e < 2 ^ 8) (hf : f < 2 ^ 23) : frac (pack s e f) = f := by
  rw [frac, toNat_pack hs he hf]
  omega

/-! ### The patterns of a number -/

/-- The magnitude in units of the least positive number. -/
def units (w : BitVec 32) : Nat := if expo w = 0 then frac w else (2 ^ 23 + frac w) * 2 ^ (expo w - 1)

theorem magnitude_eq (w : BitVec 32) : magnitude w = units w / 2 ^ 149 := by
  unfold magnitude units
  split_ifs with h
  · rw [zpow_neg, div_eq_mul_inv]
    rfl
  · obtain ⟨e, he⟩ := Nat.exists_eq_succ_of_ne_zero h
    have hexp : ((e + 1 : Nat) : Int) - 150 = e - 149 := by push_cast; ring
    rw [he, Nat.succ_eq_add_one, hexp, zpow_sub₀ (by norm_num), Nat.add_sub_cancel, zpow_natCast]
    push_cast
    rw [mul_div_assoc]
    rfl

theorem units_lt (w : BitVec 32) : units w < 2 ^ 23 * 2 ^ expo w := by
  have hf := frac_lt w
  unfold units
  split_ifs with h
  · rw [h]
    omega
  · obtain ⟨e, he⟩ := Nat.exists_eq_succ_of_ne_zero h
    calc (2 ^ 23 + frac w) * 2 ^ (expo w - 1) < 2 ^ 24 * 2 ^ (expo w - 1) :=
          Nat.mul_lt_mul_of_pos_right (by omega) (by positivity)
      _ = 2 ^ 23 * 2 ^ expo w := by
          rw [he, Nat.succ_sub_one, Nat.succ_eq_add_one, pow_succ]
          ring

theorem le_units (h : expo w ≠ 0) : 2 ^ 23 * 2 ^ (expo w - 1) ≤ units w := by
  rw [units, if_neg h]
  gcongr
  omega

theorem units_lt_units (h : expo w < expo w') : units w < units w' := by
  calc units w < 2 ^ 23 * 2 ^ expo w := units_lt w
    _ ≤ 2 ^ 23 * 2 ^ (expo w' - 1) := by
        gcongr
        · norm_num
        · omega
    _ ≤ units w' := le_units (by omega)

/-- A larger exponent is a larger number, so a number has one exponent and one fraction. -/
theorem eq_of_units (hs : sign w = sign w') (h : units w = units w') : w = w' := by
  have he : expo w = expo w' := by
    rcases Nat.lt_trichotomy (expo w) (expo w') with hlt | heq | hgt
    · exact absurd h (units_lt_units hlt).ne
    · exact heq
    · exact absurd h (units_lt_units hgt).ne'
  refine ext hs he ?_
  unfold units at h
  rw [he] at h
  split_ifs at h
  · exact h
  · have h := Nat.eq_of_mul_eq_mul_right (by positivity) h
    omega

theorem value_eq (w : BitVec 32) : value w = (-1) ^ sign w * (units w / 2 ^ 149) := by
  rw [value, magnitude_eq]

theorem neg_one_pow_ne_zero (n : Nat) : ((-1) ^ n : ℚ) ≠ 0 := pow_ne_zero _ (by norm_num)

theorem eq_of_value (hs : sign w = sign w') (h : value w = value w') : w = w' := by
  rw [value_eq, value_eq, hs] at h
  have h := mul_left_cancel₀ (neg_one_pow_ne_zero _) h
  rw [div_left_inj' (by positivity)] at h
  exact eq_of_units hs (by exact_mod_cast h)

theorem abs_value (w : BitVec 32) : |value w| = units w / 2 ^ 149 := by
  rw [value_eq, abs_mul, abs_pow, abs_neg, abs_one, one_pow, one_mul, abs_of_nonneg (by positivity)]

/-! ### Truncation -/

/-- The integer part, towards zero. -/
def trunc (q : ℚ) : Int := if 0 ≤ q then ⌊q⌋ else ⌈q⌉

theorem trunc_neg (q : ℚ) : trunc (-q) = -trunc q := by
  unfold trunc
  rcases lt_trichotomy q 0 with h | rfl | h
  · rw [if_pos (by linarith), if_neg (by linarith), Int.floor_neg]
  · simp
  · rw [if_neg (by linarith), if_pos h.le, Int.ceil_neg]

theorem trunc_natCast_div (n d : Nat) : trunc ((n : ℚ) / d) = (n / d : Nat) := by
  rw [trunc, if_pos (by positivity), Rat.floor_natCast_div_natCast]
  exact_mod_cast rfl

theorem trunc_value (w : BitVec 32) :
    trunc (value w) = if sign w = 0 then ((units w / 2 ^ 149 : Nat) : Int) else -(units w / 2 ^ 149 : Nat) := by
  have hdiv : trunc ((units w : ℚ) / 2 ^ 149) = (units w / 2 ^ 149 : Nat) := by
    rw [← trunc_natCast_div]
    push_cast
    rfl
  have hs := sign_lt w
  rw [value_eq]
  split_ifs with h
  · rw [h, pow_zero, one_mul, hdiv]
  · obtain h1 : sign w = 1 := by omega
    rw [h1, pow_one, neg_one_mul, trunc_neg, hdiv]

end Binary32
