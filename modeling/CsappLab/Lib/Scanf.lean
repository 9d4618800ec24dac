import CsappLab.Lib.CStr

/-!
# Scanning text

The conversions of `sscanf` that skip blanks first: one character, a word, a hexadecimal number. Each
returns what it has read and the rest, or nothing where the conversion fails. `numeral` is the number
that digits stand for.
-/

namespace Scanf

variable {c : UInt8} {s t ds ds' : List UInt8} {base : Nat}

def isSpace (c : UInt8) : Bool := c = 32 || (9 ≤ c && c ≤ 13)

def isDigit (c : UInt8) : Bool := 48 ≤ c && c ≤ 57

def isHex (c : UInt8) : Bool := isDigit c || (97 ≤ c && c ≤ 102) || (65 ≤ c && c ≤ 70)

def digitVal (c : UInt8) : Nat := if c < 65 then c.toNat - 48 else if c < 97 then c.toNat - 55 else c.toNat - 87

def numeral (base : Nat) (ds : List UInt8) : Nat := ds.foldl (fun n c => base * n + digitVal c) 0

def skipSpace (s : List UInt8) : List UInt8 := s.dropWhile isSpace

/-- A blank and `%c`. -/
def scanChar (s : List UInt8) : Option (UInt8 × List UInt8) :=
  match skipSpace s with
  | [] => none
  | c :: s => some (c, s)

def scanWord (s : List UInt8) : Option (List UInt8 × List UInt8) :=
  match skipSpace s with
  | [] => none
  | c :: s => some ((c :: s).takeWhile fun c => !isSpace c, (c :: s).dropWhile fun c => !isSpace c)

/-- The unsigned number of a conversion with the sign `neg`; a value out of range gives the largest one. -/
def strtoul (neg : Bool) (n : Nat) : BitVec 64 :=
  if 2 ^ 64 ≤ n then BitVec.allOnes 64 else if neg then -BitVec.ofNat 64 n else BitVec.ofNat 64 n

/-- `%lx` behind the sign: a prefix `0x` is skipped, with or without digits behind it. -/
def scanHexDigits (neg : Bool) : List UInt8 → Option (BitVec 64)
  | 48 :: 120 :: s => some (strtoul neg (numeral 16 (s.takeWhile isHex)))
  | 48 :: 88 :: s => some (strtoul neg (numeral 16 (s.takeWhile isHex)))
  | s => if s.takeWhile isHex = [] then none else some (strtoul neg (numeral 16 (s.takeWhile isHex)))

def scanHex (s : List UInt8) : Option (BitVec 64) :=
  match skipSpace s with
  | 45 :: s => scanHexDigits true s
  | 43 :: s => scanHexDigits false s
  | s => scanHexDigits false s

/-! ### Numerals -/

theorem numeral_nil : numeral base [] = 0 := rfl

theorem numeral_append_singleton : numeral base (ds ++ [c]) = base * numeral base ds + digitVal c := by
  unfold numeral
  rw [List.foldl_append]
  rfl

theorem numeral_append : numeral base (ds ++ ds') = numeral base ds * base ^ ds'.length + numeral base ds' := by
  induction ds' using List.reverseRecOn with
  | nil => simp [numeral_nil]
  | append_singleton ds' c ih =>
    rw [← List.append_assoc, numeral_append_singleton, numeral_append_singleton, ih, List.length_append]
    simp only [List.length_singleton, pow_succ]
    ring

theorem numeral_lt (h : ∀ c ∈ ds, digitVal c < base) : numeral base ds < base ^ ds.length := by
  induction ds using List.reverseRecOn with
  | nil => simp [numeral_nil]
  | append_singleton ds c ih =>
    have hc := h c (by simp)
    have hds := ih fun d hd => h d (by simp [hd])
    rw [numeral_append_singleton, List.length_append, List.length_singleton, pow_succ]
    calc base * numeral base ds + digitVal c < base * numeral base ds + base := by omega
      _ = base * (numeral base ds + 1) := by ring
      _ ≤ base * base ^ ds.length := Nat.mul_le_mul_left _ hds
      _ = base ^ ds.length * base := Nat.mul_comm ..

theorem isHex_iff : isHex c = true ↔
    48 ≤ c.toNat ∧ c.toNat ≤ 57 ∨ 97 ≤ c.toNat ∧ c.toNat ≤ 102 ∨ 65 ≤ c.toNat ∧ c.toNat ≤ 70 := by
  simp [isHex, isDigit, UInt8.le_iff_toNat_le, or_assoc]

theorem isSpace_iff : isSpace c = true ↔ c.toNat = 32 ∨ 9 ≤ c.toNat ∧ c.toNat ≤ 13 := by
  simp [isSpace, UInt8.le_iff_toNat_le, ← UInt8.toNat_inj]

theorem digitVal_lt (h : isHex c = true) : digitVal c < 16 := by
  rw [isHex_iff] at h
  have h65 : (65 : UInt8).toNat = 65 := rfl
  have h97 : (97 : UInt8).toNat = 97 := rfl
  simp only [digitVal, UInt8.lt_iff_toNat_lt]
  split_ifs <;> omega

/-! ### Conversions -/

theorem scanWord_eq {w : List UInt8} (h : scanWord s = some (w, t)) : ∃ sp, s = sp ++ (w ++ t) := by
  unfold scanWord at h
  have hs : s = s.takeWhile isSpace ++ skipSpace s := (List.takeWhile_append_dropWhile ..).symm
  cases hskip : skipSpace s with
  | nil =>
    rw [hskip] at h
    cases h
  | cons c s' =>
    rw [hskip] at h hs
    obtain ⟨rfl, rfl⟩ := Prod.mk.inj (Option.some.inj h)
    rw [List.takeWhile_append_dropWhile]
    exact ⟨_, hs⟩

theorem skipSpace_cons_space (h : isSpace c = true) : skipSpace (c :: s) = skipSpace s := by
  simp [skipSpace, h]

theorem skipSpace_cons (h : isSpace c = false) : skipSpace (c :: s) = c :: s := by
  simp [skipSpace, h]

theorem takeWhile_isHex (h : ∀ c ∈ ds, isHex c = true) (ht : ∀ c, t.head? = some c → isHex c = false) :
    (ds ++ t).takeWhile isHex = ds := by
  rw [List.takeWhile_append_of_pos h]
  cases t with
  | nil => simp
  | cons c t => simp [ht c rfl]

theorem scanHex_digits (hne : ds ≠ []) (h : ∀ c ∈ ds, isHex c = true)
    (ht : ∀ c, t.head? = some c → isHex c = false ∧ c ≠ 120 ∧ c ≠ 88) (hlt : numeral 16 ds < 2 ^ 64) :
    scanHex (32 :: (ds ++ t)) = some (BitVec.ofNat 64 (numeral 16 ds)) := by
  have htake := takeWhile_isHex h fun c hc => (ht c hc).1
  obtain ⟨c, ds', rfl⟩ := List.exists_cons_of_ne_nil hne
  have hc := isHex_iff.1 (h c (by simp))
  have hspace : isSpace c = false := by
    rw [← Bool.not_eq_true, isSpace_iff]
    omega
  have hsecond : ∀ d s, ds' ++ t = d :: s → d ≠ 120 ∧ d ≠ 88 := by
    intro d s hs
    cases ds' with
    | nil => exact (ht d (by rw [List.nil_append] at hs; simp [hs])).2
    | cons e ds' =>
      obtain rfl : e = d := (List.cons.inj hs).1
      have he := isHex_iff.1 (h e (by simp))
      constructor
      · rintro rfl
        simp at he
      · rintro rfl
        simp at he
  have h45 : c ≠ 45 := by
    rintro rfl
    simp at hc
  have h43 : c ≠ 43 := by
    rintro rfl
    simp at hc
  have hdigits : scanHexDigits false (c :: ds' ++ t) = some (strtoul false (numeral 16 (c :: ds'))) := by
    unfold scanHexDigits
    split
    · rename_i s heq
      exact absurd rfl (hsecond 120 s (List.cons.inj heq).2).1
    · rename_i s heq
      exact absurd rfl (hsecond 88 s (List.cons.inj heq).2).2
    · rw [htake, if_neg hne]
  unfold scanHex
  rw [skipSpace_cons_space rfl, List.cons_append, skipSpace_cons hspace]
  split
  · rename_i s heq
    exact absurd (List.cons.inj heq).1 h45
  · rename_i s heq
    exact absurd (List.cons.inj heq).1 h43
  · rw [← List.cons_append, hdigits, strtoul, if_neg (by omega)]
    rfl

end Scanf
