import CsappLab.Lib.Word

/-!
# The integer puzzles of `bits.c`

Each puzzle is written without branches, and `tests.c` has a plain function for it. The two agree on
every word. `int` is a word of 32 bits: `+` wraps and `>>` copies the sign.
-/

namespace CsappLab.Bits

open Word

variable {x : BitVec 32}

def bitXor (x y : BitVec 32) : BitVec 32 := ~~~(~~~x &&& ~~~y) &&& ~~~(x &&& y)

def isTmax (x : BitVec 32) : BitVec 32 :=
  let i := x + 1#32
  let x := x + i
  let x := ~~~x
  let i := lnot i
  let x := x + i
  lnot x

def allOddBits (x : BitVec 32) : BitVec 32 :=
  let mask := 0xAA#32 + (0xAA#32 <<< 8)
  let mask := mask + (mask <<< 16)
  lnot ((mask &&& x) ^^^ mask)

def negate (x : BitVec 32) : BitVec 32 := ~~~x + 1#32

def isAsciiDigit (x : BitVec 32) : BitVec 32 :=
  let sign := 0x1#32 <<< 31
  let upper := ~~~(sign ||| 0x39#32)
  let lower := ~~~0x30#32
  let upper := sign &&& (upper + x).sshiftRight 31
  let lower := sign &&& (lower + x + 1#32).sshiftRight 31
  lnot (upper ||| lower)

def conditional (x y z : BitVec 32) : BitVec 32 :=
  let x := lnot (lnot x)
  let x := ~~~x + 1#32
  (x &&& y) ||| (~~~x &&& z)

def isLessOrEqual (x y : BitVec 32) : BitVec 32 :=
  let negX := ~~~x + 1#32
  let addX := negX + y
  let checkSign := addX.sshiftRight 31 &&& 1#32
  let leftBit := 1#32 <<< 31
  let xLeft := x &&& leftBit
  let yLeft := y &&& leftBit
  let bitXor := xLeft ^^^ yLeft
  let bitXor := bitXor.sshiftRight 31 &&& 1#32
  (lnot bitXor &&& lnot checkSign) ||| (bitXor &&& xLeft.sshiftRight 31)

def logicalNeg (x : BitVec 32) : BitVec 32 := (x ||| (~~~x + 1#32)).sshiftRight 31 + 1#32

def howManyBits (x : BitVec 32) : BitVec 32 :=
  let sign := x.sshiftRight 31
  let x := (sign &&& ~~~x) ||| (~~~sign &&& x)
  let b16 := lnot (lnot (x.sshiftRight 16)) <<< 4
  let x := x.sshiftRight' b16
  let b8 := lnot (lnot (x.sshiftRight 8)) <<< 3
  let x := x.sshiftRight' b8
  let b4 := lnot (lnot (x.sshiftRight 4)) <<< 2
  let x := x.sshiftRight' b4
  let b2 := lnot (lnot (x.sshiftRight 2)) <<< 1
  let x := x.sshiftRight' b2
  let b1 := lnot (lnot (x.sshiftRight 1))
  let x := x.sshiftRight' b1
  let b0 := x
  b16 + b8 + b4 + b2 + b1 + b0 + 1#32

/-! ### The functions of `tests.c` -/

def testBitXor (x y : BitVec 32) : BitVec 32 := x ^^^ y

def testIsTmax (x : BitVec 32) : BitVec 32 := truth (x = 0x7FFFFFFF#32)

def testAllOddBitsLoop (x : BitVec 32) (i : Nat) : BitVec 32 :=
  if i < 32 then
    if x &&& (1#32 <<< i) = 0#32 then 0#32 else testAllOddBitsLoop x (i + 2)
  else 1#32
termination_by 32 - i

def testAllOddBits (x : BitVec 32) : BitVec 32 := testAllOddBitsLoop x 1

def testNegate (x : BitVec 32) : BitVec 32 := -x

def testIsAsciiDigit (x : BitVec 32) : BitVec 32 := truth ((0x30#32).sle x ∧ x.sle 0x39#32)

def testConditional (x y z : BitVec 32) : BitVec 32 := if x ≠ 0#32 then y else z

def testIsLessOrEqual (x y : BitVec 32) : BitVec 32 := truth (x.sle y)

def testLogicalNeg (x : BitVec 32) : BitVec 32 := lnot x

def testHowManyBitsLoop (a cnt : BitVec 32) : BitVec 32 :=
  if a = 0#32 then cnt else testHowManyBitsLoop (a >>> 1) (cnt + 1#32)
termination_by a.toNat
decreasing_by
  rename_i h
  have ha : 0 < a.toNat := Nat.pos_of_ne_zero fun h0 => h (BitVec.eq_of_toNat_eq h0)
  rw [BitVec.toNat_ushiftRight, Nat.shiftRight_eq_div_pow]
  omega

def testHowManyBits (x : BitVec 32) : BitVec 32 :=
  let x := if x.slt 0#32 then -x - 1#32 else x
  testHowManyBitsLoop x 0#32 + 1#32

/-! ### The comparisons -/

theorem bitXor_eq (x y : BitVec 32) : bitXor x y = testBitXor x y := by
  apply BitVec.eq_of_getLsbD_eq
  intro i hi
  simp only [bitXor, testBitXor, BitVec.getLsbD_and, BitVec.getLsbD_not, BitVec.getLsbD_xor, hi,
    decide_true, Bool.true_and]
  cases x.getLsbD i <;> cases y.getLsbD i <;> rfl

/-- `2 * x + 1` is -1 for `Tmax` and for -1, and `x + 1` is 0 for -1 alone. -/
theorem isTmax_eq (x : BitVec 32) : isTmax x = testIsTmax x := by
  simp only [isTmax, testIsTmax, lnot]
  apply truth_congr
  unfold truth
  split_ifs with h
  · bv_omega
  · bv_omega

theorem negate_eq (x : BitVec 32) : negate x = testNegate x := (BitVec.neg_eq_not_add x).symm

theorem conditional_eq (x y z : BitVec 32) : conditional x y z = testConditional x y z := by
  have hx : lnot (lnot x) = truth (x ≠ 0#32) := lnot_truth
  simp only [conditional, testConditional, hx, neg_truth]
  split_ifs
  · rw [BitVec.allOnes_and, BitVec.not_allOnes, BitVec.zero_and, BitVec.or_zero]
  · rw [BitVec.zero_and, BitVec.not_zero, BitVec.allOnes_and, BitVec.zero_or]

/-- Of a word and its opposite one is negative, except for 0. -/
theorem logicalNeg_eq (x : BitVec 32) : logicalNeg x = testLogicalNeg x := by
  have hzero : x = 0#32 ↔ ¬ x.toInt < 0 ∧ ¬ (-x).toInt < 0 := by
    rw [toInt_neg_iff, toInt_neg_iff]
    constructor
    · rintro rfl
      exact ⟨by decide, by decide⟩
    · rintro ⟨h1, h2⟩
      bv_omega
  have hor : (x ||| -x).sshiftRight 31 = (if x.toInt < 0 then BitVec.allOnes 32 else 0#32) |||
      (if (-x).toInt < 0 then BitVec.allOnes 32 else 0#32) := by
    rw [BitVec.sshiftRight_or_distrib, sshiftRight_sign, sshiftRight_sign]
  simp only [logicalNeg, testLogicalNeg, lnot, hzero, ← BitVec.neg_eq_not_add, hor, truth]
  by_cases h1 : x.toInt < 0
  · have hne : ¬ (¬ x.toInt < 0 ∧ ¬ (-x).toInt < 0) := fun h => h.1 h1
    rw [if_pos h1, if_neg hne, BitVec.allOnes_or]
    rfl
  · rw [if_neg h1, BitVec.zero_or]
    by_cases h2 : (-x).toInt < 0
    · have hne : ¬ (¬ x.toInt < 0 ∧ ¬ (-x).toInt < 0) := fun h => h.2 h2
      rw [if_pos h2, if_neg hne]
      rfl
    · rw [if_neg h2, if_pos (And.intro h1 h2)]
      rfl

theorem sign_and (x : BitVec 32) :
    (1#32 <<< 31) &&& x.sshiftRight 31 = if x.toInt < 0 then 1#32 <<< 31 else 0#32 := by
  rw [sshiftRight_sign]
  split_ifs <;> rfl

theorem isAsciiDigit_eq (x : BitVec 32) : isAsciiDigit x = testIsAsciiDigit x := by
  have hupper : ~~~(0x1#32 <<< 31 ||| 0x39#32) = 0x7fffffc6#32 := rfl
  have hlower : ~~~0x30#32 = 0xffffffcf#32 := rfl
  -- `upper + x` and `lower + x + 1` are both positive for the ten digits alone, whatever wraps.
  have hdigit : (0x30#32).sle x ∧ x.sle 0x39#32 ↔
      ¬ (0x7fffffc6#32 + x).toInt < 0 ∧ ¬ (0xffffffcf#32 + x + 1#32).toInt < 0 := by
    have hx := x.isLt
    rw [toInt_neg_iff, toInt_neg_iff, BitVec.sle_eq_decide, BitVec.sle_eq_decide, decide_eq_true_eq,
      decide_eq_true_eq, BitVec.toInt_eq_toNat_cond x]
    have h48 : (0x30#32).toInt = 48 := rfl
    have h57 : (0x39#32).toInt = 57 := rfl
    rw [h48, h57]
    split_ifs <;> bv_omega
  simp only [isAsciiDigit, testIsAsciiDigit, hupper, hlower, sign_and, lnot]
  apply truth_congr
  rw [hdigit]
  by_cases h1 : (0x7fffffc6#32 + x).toInt < 0
  · rw [if_pos h1]
    split_ifs <;> exact iff_of_false (by decide) (fun h => h.1 h1)
  · rw [if_neg h1, BitVec.zero_or]
    split_ifs with h2
    · exact iff_of_false (by decide) (fun h => h.2 h2)
    · exact iff_of_true rfl ⟨h1, h2⟩

theorem and_sign (x : BitVec 32) : x &&& (1#32 <<< 31) = if x.toInt < 0 then 1#32 <<< 31 else 0#32 := by
  have hbit : x.getLsbD 31 = decide (x.toInt < 0) :=
    (BitVec.msb_eq_getLsbD_last x).symm.trans BitVec.msb_eq_toInt
  rw [← BitVec.twoPow_eq, BitVec.and_twoPow, hbit]
  simp only [decide_eq_true_eq]

theorem isLessOrEqual_eq (x y : BitVec 32) : isLessOrEqual x y = testIsLessOrEqual x y := by
  have hadd : ~~~x + 1#32 + y = y - x := by
    rw [← BitVec.neg_eq_not_add, BitVec.sub_eq_add_neg, BitVec.add_comm]
  -- With equal signs the difference does not overflow and its sign decides.
  have hle : x.sle y ↔ (x.toInt < 0 ↔ y.toInt < 0) ∧ ¬ (y - x).toInt < 0 ∨ x.toInt < 0 ∧ ¬ y.toInt < 0 := by
    have hx := x.isLt
    have hy := y.isLt
    rw [toInt_neg_iff, toInt_neg_iff, toInt_neg_iff, BitVec.sle_eq_decide, decide_eq_true_eq,
      BitVec.toInt_eq_toNat_cond, BitVec.toInt_eq_toNat_cond]
    split_ifs <;> bv_omega
  simp only [isLessOrEqual, testIsLessOrEqual, and_sign, hadd]
  rw [truth_congr hle, sshiftRight_sign (y - x)]
  by_cases hx : x.toInt < 0 <;> by_cases hy : y.toInt < 0 <;> by_cases hd : (y - x).toInt < 0 <;>
    simp only [hx, hy, hd, if_true, if_false] <;> rfl

/-! ### The odd bits -/

theorem and_bit_eq_zero {i : Nat} (hi : i < 32) : x &&& (1#32 <<< i) = 0#32 ↔ x.getLsbD i = false := by
  rw [← BitVec.twoPow_eq, BitVec.and_twoPow]
  cases hbit : x.getLsbD i
  · exact iff_of_true rfl rfl
  · rw [if_pos rfl]
    refine iff_of_false ?_ (by decide)
    intro h
    have h := congrArg (BitVec.getLsbD · i) h
    simp [hi] at h

theorem testAllOddBitsLoop_eq {p : Prop} [Decidable p] {i : Nat} (hi : i % 2 = 1)
    (hp : p ↔ ∀ k, i ≤ k → k < 32 → k % 2 = 1 → x.getLsbD k = true) :
    testAllOddBitsLoop x i = truth p := by
  fun_induction testAllOddBitsLoop x i with
  | case1 i hlt hzero =>
    have hfalse : ¬ p := by
      intro h
      have hbit := hp.1 h i le_rfl hlt hi
      rw [(and_bit_eq_zero hlt).1 hzero] at hbit
      cases hbit
    rw [truth, if_neg hfalse]
  | case2 i hlt hbit ih =>
    apply ih (by omega)
    rw [hp]
    constructor
    · exact fun h k hk => h k (by omega)
    · intro h k hk hlt hodd
      rcases eq_or_lt_of_le hk with rfl | hk
      · rw [and_bit_eq_zero hlt] at hbit
        simpa using hbit
      · exact h k (by omega) hlt hodd
  | case3 i hge =>
    have htrue : p := hp.2 fun k hk hlt => absurd (hk.trans_lt hlt) hge
    rw [truth, if_pos htrue]

theorem allOddBits_eq (x : BitVec 32) : allOddBits x = testAllOddBits x := by
  have hmask : 0xAA#32 + (0xAA#32 <<< 8) + (0xAA#32 + (0xAA#32 <<< 8)) <<< 16 = 0xAAAAAAAA#32 := rfl
  have hodd : ∀ k, k < 32 → (0xAAAAAAAA#32).getLsbD k = decide (k % 2 = 1) := by decide
  simp only [allOddBits, testAllOddBits, lnot, hmask]
  symm
  apply testAllOddBitsLoop_eq rfl
  rw [BitVec.xor_eq_zero_iff]
  constructor
  · intro h k _ hlt hk
    have hbit := congrArg (BitVec.getLsbD · k) h
    simpa [BitVec.getLsbD_and, hodd k hlt, hk] using hbit
  · intro h
    apply BitVec.eq_of_getLsbD_eq
    intro k hlt
    rw [BitVec.getLsbD_and, hodd k hlt]
    by_cases hk : k % 2 = 1
    · rw [h k (by omega) hlt hk, Bool.and_true]
    · simp [hk]

/-! ### The number of bits -/

/-- The word whose bits are counted: `x`, or the complement of a negative `x`. -/
def folded (x : BitVec 32) : BitVec 32 := if x.toInt < 0 then ~~~x else x

theorem folded_lt (x : BitVec 32) : (folded x).toNat < 2 ^ 31 := by
  have hx := x.isLt
  unfold folded
  split_ifs with h
  · rw [toInt_neg_iff] at h
    bv_omega
  · rw [toInt_neg_iff] at h
    omega

theorem fits_iff (x : BitVec 32) (k : Nat) :
    -2 ^ k ≤ x.toInt ∧ x.toInt < 2 ^ k ↔ (folded x).toNat < 2 ^ k := by
  have hx := x.isLt
  have hpow : (0 : Int) < 2 ^ k := by positivity
  have hcast : (folded x).toNat < 2 ^ k ↔ ((folded x).toNat : Int) < 2 ^ k := by exact_mod_cast Iff.rfl
  have hfold : ((folded x).toNat : Int) = if x.toInt < 0 then -x.toInt - 1 else x.toInt := by
    unfold folded
    split_ifs with h
    · rw [toInt_neg_iff] at h
      rw [BitVec.toInt_eq_toNat_cond, if_neg (by omega)]
      bv_omega
    · rw [toInt_neg_iff] at h
      rw [BitVec.toInt_eq_toNat_cond, if_pos (by omega)]
  rw [hcast, hfold]
  split_ifs <;> omega

theorem isLeast_size (x : BitVec 32) :
    IsLeast {n : Nat | 1 ≤ n ∧ -2 ^ (n - 1) ≤ x.toInt ∧ x.toInt < 2 ^ (n - 1)} (Nat.size (folded x).toNat + 1) := by
  constructor
  · refine ⟨by omega, (fits_iff x _).2 ?_⟩
    rw [Nat.add_sub_cancel]
    exact Nat.lt_size_self _
  · rintro n ⟨hn, hfit⟩
    have hsize := Nat.size_le.2 ((fits_iff x _).1 hfit)
    omega

/-- `2 ^ j` where `v` has more than `2 ^ j` bits. -/
def found (v : BitVec 32) (j : Nat) : BitVec 32 := lnot (lnot (v.sshiftRight (2 ^ j))) <<< j

/-- The steps of the binary search from the `j`-th downwards. -/
def search (v : BitVec 32) : Nat → BitVec 32
  | 0 => v
  | j + 1 => found v j + search (v.sshiftRight' (found v j)) j

theorem toNat_found {v : BitVec 32} {j : Nat} (hv : v.toNat < 2 ^ 31) (hj : j < 5) :
    (found v j).toNat = if 2 ^ 2 ^ j ≤ v.toNat then 2 ^ j else 0 := by
  have hmsb : v.msb = false := by
    rw [BitVec.msb_eq_false_iff_two_mul_lt]
    omega
  have hshift : v.sshiftRight (2 ^ j) ≠ 0#32 ↔ 2 ^ 2 ^ j ≤ v.toNat := by
    rw [Ne, ← BitVec.toNat_inj, BitVec.toNat_sshiftRight_of_msb_false hmsb, Nat.shiftRight_eq_div_pow,
      BitVec.toNat_zero, Nat.div_eq_zero_iff, not_or, not_lt]
    exact and_iff_right (by positivity)
  have hfound : lnot (lnot (v.sshiftRight (2 ^ j))) = truth (2 ^ 2 ^ j ≤ v.toNat) :=
    lnot_truth.trans (truth_congr hshift)
  have hpow : 2 ^ j < 2 ^ 5 := Nat.pow_lt_pow_right (by norm_num) hj
  rw [found, hfound, truth]
  split_ifs
  · have hone : (1#32).toNat = 1 := rfl
    rw [BitVec.toNat_shiftLeft, Nat.shiftLeft_eq, hone, one_mul, Nat.mod_eq_of_lt (by omega)]
  · rw [BitVec.zero_shiftLeft, BitVec.toNat_zero]

theorem size_found {v : BitVec 32} {j : Nat} (hv : v.toNat < 2 ^ 31) (hj : j < 5)
    (h : v.toNat < 2 ^ 2 ^ (j + 1)) :
    Nat.size v.toNat = (found v j).toNat + Nat.size (v.sshiftRight' (found v j)).toNat ∧
      (v.sshiftRight' (found v j)).toNat < 2 ^ 2 ^ j := by
  have hmsb : v.msb = false := by
    rw [BitVec.msb_eq_false_iff_two_mul_lt]
    omega
  rw [BitVec.toNat_sshiftRight'_of_msb_false hmsb, Nat.shiftRight_eq_div_pow, toNat_found hv hj]
  split_ifs with hk
  · refine ⟨size_eq_add (Nat.lt_size.2 hk).le, ?_⟩
    rwa [Nat.div_lt_iff_lt_mul (by positivity), ← pow_add, ← mul_two, ← pow_succ]
  · rw [pow_zero, Nat.div_one]
    exact ⟨(Nat.zero_add _).symm, not_le.1 hk⟩

theorem toNat_search {v : BitVec 32} {j : Nat} (hv : v.toNat < 2 ^ 31) (hj : j ≤ 5) (h : v.toNat < 2 ^ 2 ^ j) :
    (search v j).toNat = Nat.size v.toNat := by
  have hsize := Nat.size_le.2 hv
  induction j generalizing v with
  | zero =>
    rw [search]
    interval_cases v.toNat <;> simp
  | succ j ih =>
    obtain ⟨hadd, hrest⟩ := size_found hv (by omega) h
    have hpow : 2 ^ 2 ^ j ≤ 2 ^ 2 ^ 4 := by
      gcongr
      · norm_num
      · norm_num
      · omega
    have ih := ih (v := v.sshiftRight' (found v j)) (by omega) (by omega) hrest (by omega)
    rw [search, BitVec.toNat_add, ih, ← hadd, Nat.mod_eq_of_lt (by omega)]

theorem toNat_howManyBits (x : BitVec 32) : (howManyBits x).toNat = Nat.size (folded x).toNat + 1 := by
  have hfold : (x.sshiftRight 31 &&& ~~~x) ||| (~~~x.sshiftRight 31 &&& x) = folded x := by
    rw [sshiftRight_sign, folded]
    split_ifs
    · rw [BitVec.allOnes_and, BitVec.not_allOnes, BitVec.zero_and, BitVec.or_zero]
    · rw [BitVec.zero_and, BitVec.not_zero, BitVec.allOnes_and, BitVec.zero_or]
  have hsearch : howManyBits x = search (folded x) 5 + 1#32 := by
    simp only [howManyBits, hfold, search, found, BitVec.add_assoc, BitVec.shiftLeft_zero]
    rfl
  have hv := folded_lt x
  have hsize := Nat.size_le.2 hv
  have hone : (1#32).toNat = 1 := rfl
  rw [hsearch, BitVec.toNat_add, toNat_search hv le_rfl (by omega), hone, Nat.mod_eq_of_lt (by omega)]

theorem testHowManyBitsLoop_eq (a cnt : BitVec 32) :
    testHowManyBitsLoop a cnt = cnt + BitVec.ofNat 32 (Nat.size a.toNat) := by
  fun_induction testHowManyBitsLoop a cnt with
  | case1 cnt =>
    rw [BitVec.toNat_zero, Nat.size_zero]
    exact (BitVec.add_zero cnt).symm
  | case2 a cnt hne ih =>
    have ha : a.toNat ≠ 0 := fun h0 => hne (BitVec.eq_of_toNat_eq h0)
    have hsize := size_eq_add (n := a.toNat) (k := 1) (Nat.size_pos.2 (Nat.pos_of_ne_zero ha))
    rw [ih, hsize, BitVec.toNat_ushiftRight, Nat.shiftRight_eq_div_pow, BitVec.ofNat_add, BitVec.add_assoc]

theorem howManyBits_eq (x : BitVec 32) : howManyBits x = testHowManyBits x := by
  have hfold : (if x.slt 0#32 then -x - 1#32 else x) = folded x := by
    have hneg : -x - 1#32 = ~~~x := by bv_omega
    unfold folded
    rw [hneg]
    simp only [BitVec.slt_eq_decide, decide_eq_true_eq, BitVec.toInt_zero]
  have hsize := Nat.size_le.2 (folded_lt x)
  apply BitVec.eq_of_toNat_eq
  rw [toNat_howManyBits, testHowManyBits, hfold, testHowManyBitsLoop_eq]
  bv_omega

/-- **The puzzles** agree with `tests.c` on every word, and `howManyBits x` is the width of the smallest
two's complement word that holds `x`. -/
theorem puzzles_exact (x y z : BitVec 32) :
    bitXor x y = testBitXor x y ∧ isTmax x = testIsTmax x ∧ allOddBits x = testAllOddBits x ∧
    negate x = testNegate x ∧ isAsciiDigit x = testIsAsciiDigit x ∧
    conditional x y z = testConditional x y z ∧ isLessOrEqual x y = testIsLessOrEqual x y ∧
    logicalNeg x = testLogicalNeg x ∧
    IsLeast {n : Nat | 1 ≤ n ∧ -2 ^ (n - 1) ≤ x.toInt ∧ x.toInt < 2 ^ (n - 1)} (howManyBits x).toNat ∧
    howManyBits x = testHowManyBits x := by
  refine ⟨bitXor_eq x y, isTmax_eq x, allOddBits_eq x, negate_eq x, isAsciiDigit_eq x, conditional_eq x y z,
    isLessOrEqual_eq x y, logicalNeg_eq x, ?_, howManyBits_eq x⟩
  rw [toNat_howManyBits]
  exact isLeast_size x

end CsappLab.Bits
