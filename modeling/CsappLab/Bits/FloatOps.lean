import CsappLab.Bits.Float
import CsappLab.Lib.Word

/-!
# Doubling and truncation in `bits.c`

`floatScale2` doubles a number and `floatFloat2Int` truncates it. Both take the word apart, so both
are compared with the number: `IsTwice` and `IsTrunc` say which word is the right one.
-/

namespace CsappLab.Bits

open Binary32

variable {uf w : BitVec 32}

def floatFloat2Int (uf : BitVec 32) : BitVec 32 :=
  let s_ := uf >>> 31
  let exp_ := ((uf &&& 0x7f800000#32) >>> 23) - 127#32
  let frac_ := (uf &&& 0x007fffff#32) ||| 0x00800000#32
  if uf &&& 0x7fffffff#32 = 0#32 then 0#32
  else if BitVec.slt 31#32 exp_ then 0x80000000#32
  else if exp_.slt 0#32 then 0#32
  else
    let frac_ :=
      if BitVec.slt 23#32 exp_ then frac_ <<< (exp_ - 23#32) else frac_.sshiftRight' (23#32 - exp_)
    if frac_.sshiftRight 31 ^^^ s_ = 0#32 then frac_
    else if frac_.sshiftRight 31 ≠ 0#32 then 0x80000000#32
    else ~~~frac_ + 1#32

/-- `w` is the pattern of twice the number of `uf`. -/
structure IsTwice (w uf : BitVec 32) : Prop where
  nan : NaN uf → w = uf
  sign : sign w = sign uf
  infinite : Infinite uf → Infinite w
  number : Finite uf → |2 * value uf| < 2 ^ 128 → Denotes w (2 * value uf)
  overflow : Finite uf → 2 ^ 128 ≤ |2 * value uf| → Infinite w

/-- `w` is the number of `uf` without its fraction, and `Tmin` where there is no such integer. -/
structure IsTrunc (w uf : BitVec 32) : Prop where
  number : Finite uf → -2 ^ 31 ≤ trunc (value uf) → trunc (value uf) < 2 ^ 31 → w.toInt = trunc (value uf)
  range : Finite uf → ¬ (-2 ^ 31 ≤ trunc (value uf) ∧ trunc (value uf) < 2 ^ 31) → w = 0x80000000#32
  special : ¬ Finite uf → w = 0x80000000#32

/-! ### The fields of the word -/

theorem sign_eq (uf : BitVec 32) : uf >>> 31 = BitVec.ofNat 32 (sign uf) := by
  apply BitVec.eq_of_toNat_eq
  have hs := sign_lt uf
  rw [BitVec.toNat_ushiftRight, toNat_ofNat_lt (by omega), Nat.shiftRight_eq_div_pow]
  rfl

theorem sign_mask (uf : BitVec 32) : uf &&& (1#32 <<< 31) = BitVec.ofNat 32 (sign uf) <<< 31 := by
  have hmask : (1#32 <<< 31 : BitVec 32) = BitVec.allOnes 32 <<< 31 := rfl
  rw [hmask, ← BitVec.shiftLeft_ushiftRight, sign_eq]

theorem frac_mask (uf : BitVec 32) : uf &&& 0x007fffff#32 = BitVec.ofNat 32 (frac uf) := by
  apply BitVec.eq_of_toNat_eq
  have hf := frac_lt uf
  rw [BitVec.toNat_and, toNat_ofNat_lt (n := frac uf) (by omega)]
  exact Nat.and_two_pow_sub_one_eq_mod _ 23

theorem low_mask (uf : BitVec 32) : (uf &&& 0x7fffffff#32).toNat = expo uf * 2 ^ 23 + frac uf := by
  have hand : (uf &&& 0x7fffffff#32).toNat = uf.toNat % 2 ^ 31 := by
    rw [BitVec.toNat_and]
    exact Nat.and_two_pow_sub_one_eq_mod _ 31
  have he := expo_lt uf
  have hf := frac_lt uf
  rw [hand, toNat_eq uf]
  omega

theorem keep_mask (uf : BitVec 32) :
    uf &&& 0x807fffff#32 = BitVec.ofNat 32 (sign uf) <<< 31 ||| BitVec.ofNat 32 (frac uf) := by
  have hmask : 0x807fffff#32 = 1#32 <<< 31 ||| 0x007fffff#32 := rfl
  rw [hmask, BitVec.and_or_distrib_left, sign_mask, frac_mask]

theorem expo_eq_iff {k : Nat} (hk : k < 2 ^ 8) : BitVec.ofNat 32 (expo uf) = BitVec.ofNat 32 k ↔ expo uf = k := by
  have he := expo_lt uf
  rw [← BitVec.toNat_inj, toNat_ofNat_lt (by omega), toNat_ofNat_lt (by omega)]

/-! ### Doubling -/

/-- A denormal number is shifted, and its top bit may become the exponent 1. -/
theorem floatScale2_denormal (h : expo uf = 0) : (floatScale2 uf).toNat = sign uf * 2 ^ 31 + 2 * frac uf := by
  have hs := sign_lt uf
  have hf := frac_lt uf
  have hshift : (uf <<< 1).toNat = 2 * frac uf := by
    rw [BitVec.toNat_shiftLeft, Nat.shiftLeft_eq, toNat_eq uf, h]
    omega
  have hsign : (BitVec.ofNat 32 (sign uf) <<< 31).toNat = sign uf <<< 31 := by
    rw [BitVec.toNat_shiftLeft, toNat_ofNat_lt (by omega), Nat.shiftLeft_eq]
    omega
  have h0 : BitVec.ofNat 32 (expo uf) = 0#32 := (expo_eq_iff (by norm_num)).2 h
  simp only [floatScale2, exp_eq, if_pos h0]
  rw [sign_mask, BitVec.toNat_or, hshift, hsign, Nat.or_comm,
    ← Nat.shiftLeft_add_eq_or_of_lt (by omega), Nat.shiftLeft_eq]

theorem floatScale2_special (h : expo uf = 255) : floatScale2 uf = uf := by
  have h0 : BitVec.ofNat 32 (expo uf) ≠ 0#32 := by
    rw [Ne, expo_eq_iff (by norm_num)]
    omega
  have h255 : BitVec.ofNat 32 (expo uf) = 255#32 := (expo_eq_iff (by norm_num)).2 h
  simp only [floatScale2, exp_eq, if_neg h0, if_pos h255]

/-- A normal number has its exponent raised by one; 255 is infinity, without a fraction. -/
theorem floatScale2_pack (h0 : expo uf ≠ 0) (h255 : expo uf ≠ 255) :
    floatScale2 uf = pack (sign uf) (expo uf + 1) (if expo uf = 254 then 0 else frac uf) := by
  have he := expo_lt uf
  have hne0 : BitVec.ofNat 32 (expo uf) ≠ 0#32 := by rwa [Ne, expo_eq_iff (by norm_num)]
  have hne255 : BitVec.ofNat 32 (expo uf) ≠ 255#32 := by rwa [Ne, expo_eq_iff (by norm_num)]
  have hadd : BitVec.ofNat 32 (expo uf) + 1#32 = BitVec.ofNat 32 (expo uf + 1) := (BitVec.ofNat_add _ 1).symm
  have hlast : BitVec.ofNat 32 (expo uf + 1) = 255#32 ↔ expo uf = 254 := by
    rw [← BitVec.toNat_inj, toNat_ofNat_lt (by omega)]
    exact Nat.succ_inj
  simp only [floatScale2, exp_eq, if_neg hne0, if_neg hne255, hadd, hlast, sign_mask, keep_mask]
  split_ifs with h
  · have hinf : 0x7f800000#32 = BitVec.ofNat 32 (expo uf + 1) <<< 23 := by
      rw [h]
      rfl
    rw [pack, BitVec.or_zero, hinf, BitVec.or_comm]
  · rw [pack, ← BitVec.or_assoc, BitVec.or_comm (BitVec.ofNat 32 (expo uf + 1) <<< 23)]

theorem sign_floatScale2 (uf : BitVec 32) : sign (floatScale2 uf) = sign uf := by
  have hs := sign_lt uf
  have he := expo_lt uf
  have hf := frac_lt uf
  by_cases h0 : expo uf = 0
  · rw [sign, floatScale2_denormal h0]
    omega
  by_cases h255 : expo uf = 255
  · rw [floatScale2_special h255]
  rw [floatScale2_pack h0 h255, sign_pack hs (by omega)]
  split_ifs <;> omega

theorem floatScale2_units (h : expo uf < 254) :
    Finite (floatScale2 uf) ∧ units (floatScale2 uf) = 2 * units uf := by
  have hs := sign_lt uf
  have hf := frac_lt uf
  by_cases h0 : expo uf = 0
  · have hw := floatScale2_denormal h0
    have hu : units uf = frac uf := by rw [units, if_pos h0]
    have he : expo (floatScale2 uf) = 2 * frac uf / 2 ^ 23 := by
      rw [expo, hw]
      omega
    have hfr : frac (floatScale2 uf) = 2 * frac uf % 2 ^ 23 := by
      rw [frac, hw]
      omega
    refine ⟨by unfold Binary32.Finite; omega, ?_⟩
    rw [hu, units, he, hfr]
    split_ifs with hd
    · omega
    · have h1 : 2 * frac uf / 2 ^ 23 = 1 := by omega
      rw [h1]
      omega
  · have hw := floatScale2_pack h0 (by omega)
    rw [if_neg (by omega)] at hw
    have he : expo (floatScale2 uf) = expo uf + 1 := by rw [hw, expo_pack hs (by omega) hf]
    have hfr : frac (floatScale2 uf) = frac uf := by rw [hw, frac_pack hs (by omega) hf]
    refine ⟨by unfold Binary32.Finite; omega, ?_⟩
    obtain ⟨e, hsucc⟩ := Nat.exists_eq_succ_of_ne_zero h0
    rw [units, units, he, hfr, if_neg (by omega), if_neg h0, hsucc, Nat.succ_eq_add_one, Nat.add_sub_cancel,
      Nat.add_sub_cancel, pow_succ]
    ring

theorem lt_twice_iff (hfin : Finite uf) : |2 * value uf| < 2 ^ 128 ↔ expo uf < 254 := by
  have he := expo_lt uf
  unfold Binary32.Finite at hfin
  have habs : |2 * value uf| < 2 ^ 128 ↔ units uf < 2 ^ 276 := by
    have hbound : (2 : ℚ) ^ 128 * 2 ^ 149 = 2 * 2 ^ 276 := by rw [← pow_add, ← pow_succ']
    have hcast : ((2 ^ 276 : Nat) : ℚ) = 2 ^ 276 := Nat.cast_pow 2 276
    rw [abs_mul, abs_value, abs_of_pos (by norm_num), ← mul_div_assoc, div_lt_iff₀ (by positivity), hbound,
      mul_lt_mul_iff_right₀ (by norm_num), ← hcast, Nat.cast_lt]
  rw [habs]
  constructor
  · contrapose
    intro hlast
    have h254 : expo uf = 254 := by omega
    have hle := le_units (w := uf) (by omega)
    have hsum : 23 + (254 - 1) = 276 := rfl
    rw [h254, ← pow_add, hsum] at hle
    exact not_lt.2 hle
  · intro h
    calc units uf < 2 ^ 23 * 2 ^ expo uf := units_lt uf
      _ ≤ 2 ^ 23 * 2 ^ 253 := by
          gcongr
          · norm_num
          · omega
      _ = 2 ^ 276 := by rw [← pow_add]

theorem infinite_floatScale2 (h : expo uf = 254) : Infinite (floatScale2 uf) := by
  have hw := @floatScale2_pack uf (by omega) (by omega)
  rw [if_pos h] at hw
  have hs := sign_lt uf
  constructor
  · rw [hw, expo_pack hs (by omega) (by norm_num), h]
  · rw [hw, frac_pack hs (by omega) (by norm_num)]

theorem floatScale2_isTwice (uf : BitVec 32) : IsTwice (floatScale2 uf) uf := by
  constructor
  case nan => exact fun h => floatScale2_special h.1
  case sign => exact sign_floatScale2 uf
  case infinite =>
    intro h
    rwa [floatScale2_special h.1]
  case number =>
    intro hfin hlt
    obtain ⟨hfin', hu⟩ := floatScale2_units ((lt_twice_iff hfin).1 hlt)
    refine ⟨hfin', ?_⟩
    rw [value_eq, value_eq, sign_floatScale2, hu]
    push_cast
    ring
  case overflow =>
    intro hfin hle
    have h254 := mt (lt_twice_iff hfin).2 (not_lt.2 hle)
    have he := expo_lt uf
    unfold Binary32.Finite at hfin
    exact infinite_floatScale2 (by omega)

theorem IsTwice.unique {w' : BitVec 32} (h : IsTwice w uf) (h' : IsTwice w' uf) : w = w' := by
  have hs : Binary32.sign w = Binary32.sign w' := h.sign.trans h'.sign.symm
  have hinf : Infinite w → Infinite w' → w = w' := fun hw hw' =>
    ext hs (hw.1.trans hw'.1.symm) (hw.2.trans hw'.2.symm)
  by_cases hfin : Finite uf
  · rcases lt_or_ge |2 * value uf| (2 ^ 128) with hlt | hge
    · exact eq_of_value hs ((h.number hfin hlt).2.trans (h'.number hfin hlt).2.symm)
    · exact hinf (h.overflow hfin hge) (h'.overflow hfin hge)
  · have h255 : expo uf = 255 := not_not.1 hfin
    by_cases hf : frac uf = 0
    · exact hinf (h.infinite ⟨h255, hf⟩) (h'.infinite ⟨h255, hf⟩)
    · exact (h.nan ⟨h255, hf⟩).trans (h'.nan ⟨h255, hf⟩).symm

/-! ### Truncation -/

theorem toInt_exp (uf : BitVec 32) :
    (((uf &&& 0x7f800000#32) >>> 23) - 127#32).toInt = (expo uf : Int) - 127 := by
  have he := expo_lt uf
  have h127 : (127#32).toInt = 127 := rfl
  rw [exp_eq, BitVec.toInt_sub, toInt_ofNat_lt (by omega), h127, Int.bmod_eq_of_le]
  · omega
  · omega

theorem toNat_frac (uf : BitVec 32) :
    ((uf &&& 0x007fffff#32) ||| 0x00800000#32).toNat = 2 ^ 23 + frac uf := by
  have hf := frac_lt uf
  rw [frac_mask, BitVec.toNat_or, toNat_ofNat_lt (by omega), Nat.or_comm]
  exact (Nat.two_pow_add_eq_or_of_lt hf 1).symm

/-- The magnitude without its fraction. -/
def whole (uf : BitVec 32) : Nat := units uf / 2 ^ 149

theorem whole_small (h : expo uf < 127) : whole uf = 0 := by
  apply Nat.div_eq_of_lt
  calc units uf < 2 ^ 23 * 2 ^ expo uf := units_lt uf
    _ ≤ 2 ^ 23 * 2 ^ 126 := by
        gcongr
        · norm_num
        · omega
    _ = 2 ^ 149 := by norm_num

theorem whole_large (h : 158 < expo uf) : 2 ^ 32 ≤ whole uf := by
  rw [whole, Nat.le_div_iff_mul_le (by positivity)]
  calc 2 ^ 32 * 2 ^ 149 = 2 ^ 23 * 2 ^ 158 := by norm_num
    _ ≤ 2 ^ 23 * 2 ^ (expo uf - 1) := by
        gcongr
        · norm_num
        · omega
    _ ≤ units uf := le_units (by omega)

theorem whole_eq (h : 127 ≤ expo uf) :
    whole uf = if 150 < expo uf then (2 ^ 23 + frac uf) * 2 ^ (expo uf - 150)
      else (2 ^ 23 + frac uf) / 2 ^ (150 - expo uf) := by
  rw [whole, units, if_neg (by omega)]
  split_ifs with h150
  · have hsplit : expo uf - 1 = expo uf - 150 + 149 := by omega
    rw [hsplit, pow_add, ← mul_assoc, Nat.mul_div_cancel _ (by positivity)]
  · have hsplit : (2 : Nat) ^ 149 = 2 ^ (150 - expo uf) * 2 ^ (expo uf - 1) := by
      rw [← pow_add]
      congr 1
      omega
    rw [hsplit, Nat.mul_div_mul_right _ _ (by positivity)]

theorem whole_lt (h1 : 127 ≤ expo uf) (h2 : expo uf ≤ 158) : whole uf < 2 ^ 32 := by
  have hf := frac_lt uf
  rw [whole_eq h1]
  split_ifs with h150
  · calc (2 ^ 23 + frac uf) * 2 ^ (expo uf - 150) < 2 ^ 24 * 2 ^ (expo uf - 150) :=
          Nat.mul_lt_mul_of_pos_right (by omega) (by positivity)
      _ ≤ 2 ^ 24 * 2 ^ 8 := by
          gcongr
          · norm_num
          · omega
      _ = 2 ^ 32 := by norm_num
  · exact (Nat.div_le_self _ _).trans_lt (by omega)

/-- Both shifts are exact: the left one stays below 32 bits. -/
theorem toNat_shifted {exp_ frac_ : BitVec 32} (he : exp_.toInt = (expo uf : Int) - 127)
    (hf : frac_.toNat = 2 ^ 23 + frac uf) (h1 : 127 ≤ expo uf) (h2 : expo uf ≤ 158) :
    (if BitVec.slt 23#32 exp_ then frac_ <<< (exp_ - 23#32) else frac_.sshiftRight' (23#32 - exp_)).toNat =
      whole uf := by
  have hlt := whole_lt h1 h2
  have hfrac := frac_lt uf
  have hexp : exp_.toNat = expo uf - 127 := by
    have h := BitVec.toInt_eq_toNat_bmod exp_
    have hx := exp_.isLt
    rw [he, Int.bmod_def] at h
    split_ifs at h <;> omega
  have h23 : BitVec.slt 23#32 exp_ = true ↔ 150 < expo uf := by
    rw [BitVec.slt_eq_decide, decide_eq_true_eq, he, toInt_ofNat_lt (by norm_num)]
    omega
  have htoNat : (23#32).toNat = 23 := rfl
  rw [whole_eq h1] at hlt ⊢
  simp only [h23]
  split_ifs at hlt ⊢ with h150
  · have hle : 23#32 ≤ exp_ := by
      rw [BitVec.le_def, htoNat]
      omega
    have hk : (exp_ - 23#32).toNat = expo uf - 150 := by
      rw [BitVec.toNat_sub_of_le hle, hexp, htoNat]
      omega
    rw [BitVec.shiftLeft_eq', BitVec.toNat_shiftLeft, hk, hf, Nat.shiftLeft_eq, Nat.mod_eq_of_lt hlt]
  · have hle : exp_ ≤ 23#32 := by
      rw [BitVec.le_def, htoNat]
      omega
    have hk : (23#32 - exp_).toNat = 150 - expo uf := by
      rw [BitVec.toNat_sub_of_le hle, hexp, htoNat]
      omega
    have hmsb : frac_.msb = false := by
      rw [BitVec.msb_eq_false_iff_two_mul_lt, hf]
      omega
    rw [BitVec.toNat_sshiftRight'_of_msb_false hmsb, hk, hf, Nat.shiftRight_eq_div_pow]

theorem floatFloat2Int_small (h : expo uf < 127) : floatFloat2Int uf = 0#32 := by
  have he := toInt_exp uf
  have hlarge : ¬ BitVec.slt 31#32 (((uf &&& 0x7f800000#32) >>> 23) - 127#32) = true := by
    rw [BitVec.slt_eq_decide, decide_eq_true_eq, he, toInt_ofNat_lt (by norm_num)]
    omega
  have hsmall : BitVec.slt (((uf &&& 0x7f800000#32) >>> 23) - 127#32) 0#32 = true := by
    rw [BitVec.slt_eq_decide, decide_eq_true_eq, he, toInt_ofNat_lt (by norm_num)]
    omega
  simp only [floatFloat2Int, if_neg hlarge, if_pos hsmall, ite_self]

/-- Only the zeros pass the first test, and their exponent is small. -/
theorem low_mask_ne (h : expo uf ≠ 0) : uf &&& 0x7fffffff#32 ≠ 0#32 := by
  intro h0
  have hlow := low_mask uf
  rw [h0, BitVec.toNat_zero] at hlow
  omega

theorem floatFloat2Int_large (h : 158 < expo uf) : floatFloat2Int uf = 0x80000000#32 := by
  have hlarge : BitVec.slt 31#32 (((uf &&& 0x7f800000#32) >>> 23) - 127#32) = true := by
    rw [BitVec.slt_eq_decide, decide_eq_true_eq, toInt_exp, toInt_ofNat_lt (by norm_num)]
    omega
  simp only [floatFloat2Int, if_neg (@low_mask_ne uf (by omega)), if_pos hlarge]

theorem floatFloat2Int_mid (h1 : 127 ≤ expo uf) (h2 : expo uf ≤ 158) :
    floatFloat2Int uf =
      if whole uf < 2 ^ 31 then
        if sign uf = 0 then BitVec.ofNat 32 (whole uf) else -BitVec.ofNat 32 (whole uf)
      else 0x80000000#32 := by
  have he := toInt_exp uf
  have hshift := toNat_shifted he (toNat_frac uf) h1 h2
  have hlarge : ¬ BitVec.slt 31#32 (((uf &&& 0x7f800000#32) >>> 23) - 127#32) = true := by
    rw [BitVec.slt_eq_decide, decide_eq_true_eq, he, toInt_ofNat_lt (by norm_num)]
    omega
  have hsmall : ¬ BitVec.slt (((uf &&& 0x7f800000#32) >>> 23) - 127#32) 0#32 = true := by
    rw [BitVec.slt_eq_decide, decide_eq_true_eq, he, toInt_ofNat_lt (by norm_num)]
    omega
  have hwhole : (BitVec.ofNat 32 (whole uf)).toNat = whole uf := by
    rw [BitVec.toNat_ofNat, Nat.mod_eq_of_lt (whole_lt h1 h2)]
  have hshifted := BitVec.eq_of_toNat_eq (hshift.trans hwhole.symm)
  simp only [floatFloat2Int, if_neg (@low_mask_ne uf (by omega)), if_neg hlarge, if_neg hsmall, hshifted,
    Word.sshiftRight_sign, Word.toInt_neg_iff, hwhole, sign_eq, ← BitVec.neg_eq_not_add]
  have hs : sign uf = 0 ∨ sign uf = 1 := by
    have h := sign_lt uf
    omega
  by_cases hw : whole uf < 2 ^ 31
  · rcases hs with hs | hs
    · rw [if_neg (not_le.2 hw), if_pos hw, if_pos hs, hs, BitVec.xor_self, if_pos rfl]
    · rw [if_neg (not_le.2 hw), if_pos hw, hs, if_neg (by decide), if_neg (not_not.2 rfl), if_neg one_ne_zero]
  · rw [if_pos (not_lt.1 hw), if_neg hw]
    rcases hs with hs | hs
    · rw [hs, if_neg (by decide), if_pos (by decide)]
    · rw [hs, if_neg (by decide), if_pos (by decide)]

theorem trunc_eq (uf : BitVec 32) : trunc (value uf) = if sign uf = 0 then (whole uf : Int) else -whole uf :=
  trunc_value uf

theorem floatFloat2Int_isTrunc (uf : BitVec 32) : IsTrunc (floatFloat2Int uf) uf := by
  have htrunc := trunc_eq uf
  have hspecial : ¬ Binary32.Finite uf → 158 < expo uf := by
    unfold Binary32.Finite
    omega
  constructor
  case number =>
    intro _ hge hlt
    by_cases hsmall : expo uf < 127
    · rw [floatFloat2Int_small hsmall, htrunc, whole_small hsmall]
      split_ifs <;> rfl
    · have hlast : expo uf ≤ 158 := by
        by_contra hlast
        have hw := @whole_large uf (by omega)
        split_ifs at htrunc <;> omega
      rw [floatFloat2Int_mid (by omega) hlast]
      rcases lt_or_ge (whole uf) (2 ^ 31) with hw | hw
      · rw [if_pos hw, htrunc]
        split_ifs
        · exact toInt_ofNat_lt hw
        · rw [BitVec.toInt_neg, toInt_ofNat_lt hw, Int.bmod_eq_of_le] <;> omega
      -- Only `-2 ^ 31` is left, whose word is the one for the numbers out of range.
      · have hmin : trunc (value uf) = -2 ^ 31 := by split_ifs at htrunc <;> omega
        rw [if_neg (not_lt.2 hw), hmin]
        rfl
  case range =>
    intro _ hrange
    by_cases hsmall : expo uf < 127
    · have hw := whole_small hsmall
      split_ifs at htrunc <;> omega
    by_cases hlast : 158 < expo uf
    · exact floatFloat2Int_large hlast
    rw [floatFloat2Int_mid (by omega) (by omega), if_neg]
    split_ifs at htrunc <;> omega
  case special => exact fun h => floatFloat2Int_large (hspecial h)

theorem IsTrunc.unique {w' : BitVec 32} (h : IsTrunc w uf) (h' : IsTrunc w' uf) : w = w' := by
  by_cases hfin : Binary32.Finite uf
  · by_cases hrange : -2 ^ 31 ≤ trunc (value uf) ∧ trunc (value uf) < 2 ^ 31
    · exact BitVec.eq_of_toInt_eq
        ((h.number hfin hrange.1 hrange.2).trans (h'.number hfin hrange.1 hrange.2).symm)
    · exact (h.range hfin hrange).trans (h'.range hfin hrange).symm
  · exact (h.special hfin).trans (h'.special hfin).symm

/-- **`floatScale2` and `floatFloat2Int`** agree with the numbers on every word: `2 * v` with its sign,
infinity on overflow, and `v` truncated where it fits. -/
theorem float_ops_exact (uf : BitVec 32) :
    (∀ w, IsTwice w uf ↔ w = floatScale2 uf) ∧ (∀ w, IsTrunc w uf ↔ w = floatFloat2Int uf) := by
  constructor
  · intro w
    constructor
    · exact fun h => h.unique (floatScale2_isTwice uf)
    · rintro rfl
      exact floatScale2_isTwice uf
  · intro w
    constructor
    · exact fun h => h.unique (floatFloat2Int_isTrunc uf)
    · rintro rfl
      exact floatFloat2Int_isTrunc uf

end CsappLab.Bits
