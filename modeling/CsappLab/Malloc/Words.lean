import CsappLab.Malloc.Mm

/-!
# The heap as an array of words

Every access of `mm.c` goes to an address `addr s i`, the `i`-th word behind the start `s` of the
arena. `Heap.word s i` is that word. The macros of `mm.c` are restated on word indices, so that later
modules see `PUT_WORD` as a function update and the pointer arithmetic as arithmetic on indices.
-/

namespace CsappLab.Malloc
open ByteMem CInt

def addr (s i : Nat) : Nat := s + 4 * i

theorem addr_inj {s i j : Nat} : addr s i = addr s j ↔ i = j := by unfold addr; omega

theorem addr_add (s i n : Nat) : addr s i + 4 * n = addr s (i + n) := by unfold addr; omega

theorem addr_sub {s i n : Nat} (h : n ≤ i) : addr s i - 4 * n = addr s (i - n) := by
  unfold addr; omega

theorem addr_pos {s i : Nat} (h : 0 < s) : addr s i ≠ 0 := by unfold addr; omega

/-! ### Packing -/

theorem pack_free {size : Nat} (h : size < 2 ^ 29) : pack size FREE = 8 * size := by
  unfold pack FREE
  rw [Nat.or_zero, Nat.shiftLeft_eq, u32_eq (by omega), Nat.mul_comm]

theorem pack_taken {size : Nat} (h : size < 2 ^ 29) : pack size TAKEN = 8 * size + 1 := by
  unfold pack TAKEN
  rw [Nat.shiftLeft_eq, u32_eq (by omega), ← Nat.shiftLeft_eq, ← Nat.shiftLeft_add_eq_or_of_lt (by decide),
    Nat.shiftLeft_eq, Nat.mul_comm]

theorem evenize_eq {x : Nat} (h : x + 1 < 2 ^ 32) : evenize x = (x + 1) / 2 * 2 := by
  unfold evenize
  rw [u32_eq h]; exact and_clear_low _ 31 1 h

theorem align_eq {x : Nat} (h : x + 7 < 2 ^ 32) : align x = (x + 7) / 8 * 8 := by
  unfold align
  rw [u32_eq h]; exact and_clear_low _ 29 3 h

namespace Heap

def word (h : Heap) (s i : Nat) : Nat := wordAt h.mem s i

variable {h : Heap} {s i j p v : Nat}

theorem word_lt : h.word s i < 2 ^ 32 := wordAt_lt _ _ _

@[simp] theorem memStartBrk_putWord : (h.putWord p v).memStartBrk = h.memStartBrk := rfl
@[simp] theorem memBrk_putWord : (h.putWord p v).memBrk = h.memBrk := rfl
@[simp] theorem memMaxAddr_putWord : (h.putWord p v).memMaxAddr = h.memMaxAddr := rfl
@[simp] theorem freeLists_putWord : (h.putWord p v).freeLists = h.freeLists := rfl
@[simp] theorem heapPtr_putWord : (h.putWord p v).heapPtr = h.heapPtr := rfl
@[simp] theorem previousSize_putWord : (h.putWord p v).previousSize = h.previousSize := rfl

theorem word_putWord : (h.putWord (addr s i) v).word s j = if j = i then v % 2 ^ 32 else h.word s j :=
  wordAt_store32 _ _ _ _ _

theorem word_put_same (hv : v < 2 ^ 32) : (h.putWord (addr s i) v).word s i = v := by
  rw [word_putWord, if_pos rfl, Nat.mod_eq_of_lt hv]

theorem word_put_ne (hj : j ≠ i) : (h.putWord (addr s i) v).word s j = h.word s j := by
  rw [word_putWord, if_neg hj]

theorem getWord_addr : h.getWord (addr s i) = h.word s i := rfl

theorem getSize_addr : h.getSize (addr s i) = h.word s i / 8 := by
  unfold getSize
  rw [getWord_addr, show (2 ^ 32 - 8 : Nat) = 2 ^ (29 + 3) - 2 ^ 3 by rfl,
    and_clear_low _ 29 3 word_lt, Nat.shiftRight_eq_div_pow]
  omega

theorem getStatus_addr : h.getStatus (addr s i) = h.word s i % 2 := by
  unfold getStatus; rw [getWord_addr, Nat.and_one_is_mod]

theorem ftrp_addr : h.ftrp (addr s i) = addr s (i + h.word s i / 8 + 1) := by
  unfold ftrp WORD_SIZE HDR_SIZE
  rw [getSize_addr, addr_add, Nat.add_assoc]

theorem getTotalSize_addr : h.getTotalSize (addr s i) = h.word s i / 8 + 2 := by
  have := word_lt (h := h) (s := s) (i := i)
  unfold getTotalSize HDR_FTR_SIZE
  rw [getSize_addr, u32_eq (by omega)]

theorem nextBlockInHeap_addr : h.nextBlockInHeap (addr s i) = addr s (i + h.word s i / 8 + 2) := by
  unfold nextBlockInHeap WORD_SIZE FTR_SIZE
  rw [ftrp_addr, addr_add]

theorem prevBlockInHeap_addr (hi : h.word s (i - 1) / 8 + 2 ≤ i) :
    h.prevBlockInHeap (addr s i) = addr s (i - (h.word s (i - 1) / 8 + 2)) := by
  unfold prevBlockInHeap WORD_SIZE FTR_SIZE
  have h1 : 1 ≤ i := by omega
  rw [addr_sub (n := 1) h1, getTotalSize_addr, addr_sub hi]

theorem ptrPredField_addr : ptrPredField (addr s i) = addr s (i + 1) := addr_add _ _ _

theorem ptrSuccField_addr : ptrSuccField (addr s i) = addr s (i + 2) := addr_add _ _ _

theorem getPred_addr : h.getPred (addr s i) = h.word s (i + 1) := by
  unfold getPred; rw [ptrPredField_addr, getWord_addr]

theorem getSucc_addr : h.getSucc (addr s i) = h.word s (i + 2) := by
  unfold getSucc; rw [ptrSuccField_addr, getWord_addr]

theorem getFreeListPtr_eq (hs : h.freeLists = s) : h.getFreeListPtr i = h.word s i := by
  subst hs; rfl

theorem setFreeListPtr_eq (hs : h.freeLists = s) : h.setFreeListPtr i v = h.putWord (addr s i) v := by
  subst hs; rfl

theorem memSbrk_neg {incr : Int} (hi : incr < 0) : h.memSbrk incr = (h, none) := if_pos (.inl hi)

theorem memSbrk_words {n : Nat} (hb : h.memBrk = addr s i) (hm : h.memMaxAddr = s + MAX_HEAP) :
    h.memSbrk ((4 * n : Nat) : Int) = if MAX_HEAP < 4 * (i + n) then (h, none)
      else ({ h with memBrk := addr s (i + n) }, some (addr s i)) := by
  have hsum : ((addr s i : Int) + (4 * n : Nat)).toNat = addr s (i + n) := by unfold addr; omega
  unfold memSbrk
  simp only [hb, hm, hsum]
  unfold addr
  by_cases hlim : MAX_HEAP < 4 * (i + n)
  · rw [if_pos hlim, if_pos (by omega)]
  · rw [if_neg hlim, if_neg (by omega)]

end Heap

/-- All globals agree; only the bytes may differ. -/
structure SameGlobals (h h' : Heap) : Prop where
  start : h'.memStartBrk = h.memStartBrk
  brk : h'.memBrk = h.memBrk
  max : h'.memMaxAddr = h.memMaxAddr
  lists : h'.freeLists = h.freeLists
  first : h'.heapPtr = h.heapPtr
  prev : h'.previousSize = h.previousSize

namespace SameGlobals
variable {h h' h'' : Heap}

theorem refl (h : Heap) : SameGlobals h h := ⟨rfl, rfl, rfl, rfl, rfl, rfl⟩

theorem putWord (g : SameGlobals h h') (p v : Nat) : SameGlobals h (h'.putWord p v) :=
  ⟨g.start, g.brk, g.max, g.lists, g.first, g.prev⟩

theorem trans (g : SameGlobals h h') (g' : SameGlobals h' h'') : SameGlobals h h'' :=
  ⟨g'.start.trans g.start, g'.brk.trans g.brk, g'.max.trans g.max, g'.lists.trans g.lists,
    g'.first.trans g.first, g'.prev.trans g.prev⟩

end SameGlobals

/-- `h'` is `h` after some writes to the words in `P`. -/
inductive Writes (s : Nat) (P : Nat → Prop) (h : Heap) : Heap → Prop
  | refl : Writes s P h h
  | put {h' : Heap} {i v : Nat} : Writes s P h h' → P i → Writes s P h (h'.putWord (addr s i) v)

namespace Writes
variable {s i x : Nat} {P Q : Nat → Prop} {h h' : Heap}

theorem globals (hw : Writes s P h h') : SameGlobals h h' := by
  induction hw with
  | refl => exact .refl h
  | put _ _ ih => exact ih.putWord _ _

theorem word (hw : Writes s P h h') (hi : ¬ P i) : h'.word s i = h.word s i := by
  induction hw with
  | refl => rfl
  | @put h' j v _ hj ih =>
    have hne : i ≠ j := fun he => hi (he.symm ▸ hj)
    rw [Heap.word_put_ne hne, ih]

theorem byte (hw : Writes s P h h') (hx : ∀ i, P i → x < addr s i ∨ addr s i + 4 ≤ x) : h'.mem x = h.mem x := by
  induction hw with
  | refl => rfl
  | @put h' j v _ hj ih => exact (store32_byte_ne (hx j hj)).trans ih

theorem imp (hw : Writes s P h h') (hPQ : ∀ i, P i → Q i) : Writes s Q h h' := by
  induction hw with
  | refl => exact .refl
  | put _ hj ih => exact ih.put (hPQ _ hj)

end Writes

/-! ### Size classes -/

theorem findFreeListIndexLoop_eq (n words index : Nat) (h : words < 2 ^ n) (hn : 0 < n) :
    findFreeListIndexLoop n words index = index + Nat.log2 words := by
  induction n generalizing words index with
  | zero => omega
  | succ n ih =>
    unfold findFreeListIndexLoop
    split_ifs with hw
    · rw [Nat.shiftRight_eq_div_pow, ih _ _ (by rw [pow_succ] at h; omega)
        (by rcases n with _ | n <;> [skip; omega]; simp at h; omega)]
      rw [Nat.log2_def words, if_pos (by omega)]
      simp only [pow_one]; omega
    · have : Nat.log2 words = 0 := by
        rw [Nat.log2_def, if_neg (by omega)]
      omega

theorem findFreeListIndex_eq {words : Nat} (h : words < 2 ^ 32) :
    findFreeListIndex words = Nat.log2 words := by
  unfold findFreeListIndex MAX_POWER
  rw [findFreeListIndexLoop_eq _ _ _ (by omega) (by omega), Nat.zero_add]

theorem log2_le_of_lt {words : Nat} (h : words < 2 ^ 32) : Nat.log2 words ≤ 31 := by
  by_cases h0 : words = 0
  · subst h0; decide
  · have := (Nat.log2_lt h0).2 h; omega

/-- `round_up_power_2` of a positive argument up to `2 ^ 30`: the power of two that is at least the
argument and less than twice of it. -/
theorem roundUpPower2_spec {x : Nat} (h0 : 0 < x) (h : x ≤ 2 ^ 30) :
    ∃ n, roundUpPower2 x = (2 ^ n : Nat) ∧ x ≤ 2 ^ n ∧ 2 ^ n < 2 * x := by
  have hx : ¬ ((x : Int) < 0) := by omega
  have hx' : ¬ ((x : Int) = 0) := by omega
  have e : ((x : Int) - 1).toNat = x - 1 := by omega
  unfold roundUpPower2
  rw [if_neg hx, if_neg hx', e]
  by_cases h1 : x = 1
  · subst h1; exact ⟨0, rfl, by decide, by decide⟩
  · have hne : x - 1 ≠ 0 := by omega
    have hlo := Nat.log2_self_le hne
    have hhi := Nat.lt_log2_self (n := x - 1)
    set n := Nat.log2 (x - 1)
    have hn : n < 30 := (Nat.log2_lt hne).2 (by omega)
    refine ⟨n + 1, ?_, by omega, by rw [pow_succ]; omega⟩
    rw [smear_eq hlo hhi (by omega)]
    have hp : 2 ^ (n + 1) ≤ 2 ^ 30 := Nat.pow_le_pow_right (by decide) (by omega)
    have hpos : 0 < 2 ^ (n + 1) := Nat.two_pow_pos _
    have : (((2 ^ (n + 1) - 1 : Nat) : Int) + 1) = ((2 ^ (n + 1) : Nat) : Int) := by omega
    rw [this, i32_natCast (by omega)]

end CsappLab.Malloc
