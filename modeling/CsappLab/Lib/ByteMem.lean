import Mathlib.Tactic

/-!
# Byte memory with 32-bit words

A flat memory is a function from byte addresses to bytes. `load32` and `store32` read and write the
little-endian word at an address. Words at addresses `a + 4 * i` never overlap partially, so seen
through a fixed base `a` the memory is an array of words (`wordAt`), and a store is a function
update of that array (`wordAt_store32`).
-/

namespace ByteMem

/-- Byte addresses to bytes. -/
abbrev Mem := Nat → UInt8

/-- The little-endian 32-bit word at byte address `a`. -/
def load32 (m : Mem) (a : Nat) : Nat :=
  (m a).toNat + 2 ^ 8 * (m (a + 1)).toNat + 2 ^ 16 * (m (a + 2)).toNat + 2 ^ 24 * (m (a + 3)).toNat

/-- Write `v` (taken modulo `2 ^ 32`) as a little-endian word at byte address `a`. -/
def store32 (m : Mem) (a v : Nat) : Mem := fun x =>
  if x = a then UInt8.ofNat v
  else if x = a + 1 then UInt8.ofNat (v / 2 ^ 8)
  else if x = a + 2 then UInt8.ofNat (v / 2 ^ 16)
  else if x = a + 3 then UInt8.ofNat (v / 2 ^ 24)
  else m x

def store8 (m : Mem) (a : Nat) (v : UInt8) : Mem := fun x => if x = a then v else m x

/-- Copy `n` bytes from `src` to `dst`, as if through a temporary array. -/
def memmove (m : Mem) (dst src n : Nat) : Mem := fun x =>
  if dst ≤ x ∧ x < dst + n then m (src + (x - dst)) else m x

/-- Set `n` bytes from `a` on. -/
def memset (m : Mem) (a : Nat) (v : UInt8) (n : Nat) : Mem := fun x => if a ≤ x ∧ x < a + n then v else m x

variable {m m' : Mem} {a b v n x : Nat}

theorem load32_lt (m : Mem) (a : Nat) : load32 m a < 2 ^ 32 := by
  have h0 := (m a).toNat_lt
  have h1 := (m (a + 1)).toNat_lt
  have h2 := (m (a + 2)).toNat_lt
  have h3 := (m (a + 3)).toNat_lt
  unfold load32; omega

theorem load32_congr (h : ∀ x, a ≤ x → x < a + 4 → m' x = m x) : load32 m' a = load32 m a := by
  unfold load32
  rw [h a (by omega) (by omega), h (a + 1) (by omega) (by omega), h (a + 2) (by omega) (by omega),
    h (a + 3) (by omega) (by omega)]

theorem store32_byte_ne (h : x < a ∨ a + 4 ≤ x) : store32 m a v x = m x := by
  have h0 : x ≠ a := by omega
  have h1 : x ≠ a + 1 := by omega
  have h2 : x ≠ a + 2 := by omega
  have h3 : x ≠ a + 3 := by omega
  simp [store32, h0, h1, h2, h3]

theorem load32_store32_same (m : Mem) (a v : Nat) : load32 (store32 m a v) a = v % 2 ^ 32 := by
  simp [load32, store32]
  omega

theorem load32_store32_ne (h : b + 4 ≤ a ∨ a + 4 ≤ b) :
    load32 (store32 m a v) b = load32 m b :=
  load32_congr fun x _ _ => store32_byte_ne (by omega)

theorem memmove_byte_in (h1 : a ≤ x) (h2 : x < a + n) : memmove m a b n x = m (b + (x - a)) := by
  simp [memmove, h1, h2]

theorem memmove_byte_out (h : x < a ∨ a + n ≤ x) : memmove m a b n x = m x := by
  have : ¬ (a ≤ x ∧ x < a + n) := by omega
  simp [memmove, this]

/-! ### The word array at a base address -/

/-- The `i`-th 32-bit word of the array at base address `a`. -/
def wordAt (m : Mem) (a i : Nat) : Nat := load32 m (a + 4 * i)

variable {i j : Nat}

theorem wordAt_lt (m : Mem) (a i : Nat) : wordAt m a i < 2 ^ 32 := load32_lt m _

theorem wordAt_store32 (m : Mem) (a i v j : Nat) :
    wordAt (store32 m (a + 4 * i) v) a j = if j = i then v % 2 ^ 32 else wordAt m a j := by
  unfold wordAt
  split_ifs with h
  · subst h; exact load32_store32_same _ _ _
  · exact load32_store32_ne (by omega)

theorem wordAt_congr (h : ∀ x, a + 4 * i ≤ x → x < a + 4 * i + 4 → m' x = m x) :
    wordAt m' a i = wordAt m a i := load32_congr h

theorem wordAt_memmove_in {d s k : Nat} (h1 : d ≤ j) (h2 : j < d + k) :
    wordAt (memmove m (a + 4 * d) (a + 4 * s) (4 * k)) a j = wordAt m a (s + (j - d)) := by
  unfold wordAt load32
  rw [memmove_byte_in (by omega) (by omega), memmove_byte_in (by omega) (by omega),
    memmove_byte_in (by omega) (by omega), memmove_byte_in (by omega) (by omega)]
  have h (c : Nat) : a + 4 * s + (a + 4 * j + c - (a + 4 * d)) = a + 4 * (s + (j - d)) + c := by
    omega
  have h0 := h 0
  simp only [Nat.add_zero] at h0
  rw [h0, h 1, h 2, h 3]

theorem wordAt_memmove_out {d s k : Nat} (h : j < d ∨ d + k ≤ j) :
    wordAt (memmove m (a + 4 * d) (a + 4 * s) (4 * k)) a j = wordAt m a j :=
  wordAt_congr fun _ _ _ => memmove_byte_out (by omega)

theorem byte_eq_of_load32_eq {c : Nat} (h : load32 m' b = load32 m a) (hc : c < 4) : m' (b + c) = m (a + c) := by
  have g (m : Mem) (x : Nat) := (m x).toNat_lt
  have g0 := g m a; have g1 := g m (a + 1); have g2 := g m (a + 2); have g3 := g m (a + 3)
  have k0 := g m' b; have k1 := g m' (b + 1); have k2 := g m' (b + 2); have k3 := g m' (b + 3)
  unfold load32 at h
  have hx : c = 0 ∨ c = 1 ∨ c = 2 ∨ c = 3 := by omega
  rcases hx with rfl | rfl | rfl | rfl
  · exact UInt8.toNat_inj.mp (by simp only [Nat.add_zero]; omega)
  all_goals exact UInt8.toNat_inj.mp (by omega)

theorem byte_eq_of_wordAt_eq (h : wordAt m' a i = wordAt m a i) (h1 : a + 4 * i ≤ x)
    (h2 : x < a + 4 * i + 4) : m' x = m x := by
  obtain ⟨c, rfl⟩ := Nat.exists_eq_add_of_le h1
  exact byte_eq_of_load32_eq h (by omega)

end ByteMem
