import CsappLab.Malloc.BestFit
import CsappLab.Malloc.History

/-!
# The boundary cases of `mm_realloc`

The comment of `mm_realloc_wrapped` says that `NULL` makes it `mm_malloc` and a size of 0 makes it
`mm_free`. With `NULL` it calls `mm_malloc` with the pointer instead of the size, which returns `NULL`,
so the two agree when `mm_malloc` cannot serve the size. A size of 0 meets the test for an unchanged size
first: a block of exactly `buffer_size` words is returned instead of freed.
-/

namespace CsappLab.Malloc
open ByteMem CInt Linked Fuel

/-- The call `mm_realloc(NULL, size)` that returned `r` has done what `mm_malloc(size)` does. -/
def AsMalloc (h : Heap) (size : Nat) (h' : Heap) (r : Nat) : Prop :=
  ∃ g, h.mmMalloc size = .ok (g, r) ∧ h' = { g with previousSize := h'.previousSize }

/-- The call `mm_realloc(p, 0)` that returned `r` has done what `mm_free(p)` does. -/
def AsFree (h : Heap) (p : Nat) (h' : Heap) (r : Nat) : Prop :=
  r = NULL ∧ ∃ g, h.mmFree p = .ok g ∧ h' = { g with previousSize := h'.previousSize }

/-- `words` is the buffer for a size of 0 after a call with size `prev`: the power of two above `prev`,
when that is below 4096 and not a power of two itself. -/
def Buffers (prev : Int) (words : Nat) : Prop :=
  ∃ j < 12, 2 ^ j < (i32 prev).natAbs ∧ (i32 prev).natAbs < 2 ^ (j + 1) ∧ words = 2 ^ (j + 1)

/-- The heap of the client, when the last call of `mm_realloc` had size `prev`. -/
def Client.after (c : Client) (prev : Int) : Heap := { c.heap with previousSize := prev }

variable {a : Arena} {c : Client} {h h' : Heap} {size p r words : Nat} {k prev : Int}

/-! ### `NULL` -/

theorem asMalloc_iff (h0 : 0 < size) (hok : h.mmRealloc NULL size = .ok (h', r)) :
    AsMalloc h size h' r ↔
      h.findFreeBlock (mallocWords size) = .ok NULL ∧ h.Refuses (growth (mallocWords size)) := by
  rw [mmRealloc_null] at hok
  obtain ⟨k, -, hok⟩ := bind_eq_ok.1 hok
  cases hok
  unfold AsMalloc
  constructor
  · rintro ⟨g, hm, -⟩
    obtain ⟨hf, href, -⟩ := (mmMalloc_null_iff h0).1 hm
    exact ⟨hf, href⟩
  · rintro ⟨hf, href⟩
    exact ⟨h, (mmMalloc_null_iff h0).2 ⟨hf, href, rfl⟩, rfl⟩

/-! ### Size 0 -/

theorem i32_neg_natAbs (m : Int) : (i32 (0 - m)).natAbs = (i32 m).natAbs := by
  unfold i32
  rw [BitVec.toInt_ofInt, BitVec.toInt_ofInt, Int.bmod_def, Int.bmod_def]
  split_ifs <;> omega

theorem not_between_pow {j n : Nat} (h1 : 2 ^ j < 2 ^ n) (h2 : 2 ^ n < 2 ^ (j + 1)) : False := by
  have h3 := (Nat.pow_lt_pow_iff_right one_lt_two).1 h1
  have h4 := (Nat.pow_lt_pow_iff_right one_lt_two).1 h2
  omega

theorem between_pow_iff {d n : Nat} (h1 : d < 2 ^ n) (h2 : 2 ^ n < 2 * d) (hd : d < 4096) :
    (∃ j < 12, 2 ^ j < d ∧ d < 2 ^ (j + 1) ∧ words = 2 ^ (j + 1)) ↔ words = 2 ^ n := by
  cases n with
  | zero => omega
  | succ i =>
    constructor
    · rintro ⟨j, -, h3, h4, rfl⟩
      have h5 := (Nat.pow_lt_pow_iff_right one_lt_two).1 (h3.trans h1)
      have h6 := (Nat.pow_lt_pow_iff_right one_lt_two).1 (show 2 ^ i < 2 ^ (j + 1) by omega)
      rw [show j = i by omega]
    · rintro rfl
      have h3 : i + 1 < 13 := (Nat.pow_lt_pow_iff_right one_lt_two).1 (by omega)
      exact ⟨i, by omega, by omega, h1, rfl⟩

theorem bufferSize_zero (hk : h.bufferSize 0 = .ok k) (h2 : 2 ≤ words) (hw : words < 2 ^ 31) :
    wrap32 k = words ↔ Buffers h.previousSize words := by
  have hd := i32_neg_natAbs h.previousSize
  obtain ⟨hlo, hhi⟩ := i32_range (0 - h.previousSize)
  have hround : roundToThousand 0 = 0 := by decide
  unfold Heap.bufferSize at hk
  simp only [show ((1 <<< 12 : Nat) : Int) = 4096 by rfl, hround, Nat.cast_zero] at hk
  unfold Buffers
  rw [← hd]
  generalize i32 (0 - h.previousSize) = m at hk hlo hhi
  rcases eq_or_ne m (-2 ^ 31) with rfl | hm
  · -- the absolute value is still negative
    have h1 : roundUpPower2 (absInt (-2 ^ 31)) = 0 := by decide
    rw [h1, if_pos (by decide), if_pos rfl] at hk
    cases hk
  rw [absInt_eq (by omega) hhi] at hk
  generalize m.natAbs = d at hk
  have hzero : wrap32 0 ≠ words := by
    unfold wrap32
    omega
  by_cases hlt : d < 4096
  · rw [if_pos (by omega)] at hk
    rcases Nat.eq_zero_or_pos d with rfl | hpos
    · rw [if_pos (by decide)] at hk
      cases hk
    obtain ⟨n, hn, h3, h4⟩ := roundUpPower2_spec hpos (by omega)
    rw [hn, if_neg (by positivity)] at hk
    rcases eq_or_ne d (2 ^ n) with rfl | hne
    · -- a power of two divides itself
      rw [if_neg (by rw [Int.tmod_self]; simp)] at hk
      cases hk
      exact iff_of_false hzero fun ⟨j, _, h5, h6, _⟩ => not_between_pow h5 h6
    · have hlt' : d < 2 ^ n := by omega
      rw [if_pos (by rw [Int.tmod_eq_of_lt (by omega) (by exact_mod_cast hlt')]; omega)] at hk
      cases hk
      rw [wrap32_eq (by omega), between_pow_iff hlt' h4 hlt, eq_comm]
  · rw [if_neg (by omega)] at hk
    cases hk
    refine iff_of_false hzero ?_
    rintro ⟨j, hj, -, h5, -⟩
    have := Nat.pow_le_pow_right (n := 2) two_pos (show j + 1 ≤ 12 by omega)
    omega

theorem asFree_iff (hp : p ≠ NULL) (h2 : 2 ≤ h.getSize (p - WORD_SIZE))
    (hlt : h.getSize (p - WORD_SIZE) < 2 ^ 31) (hok : h.mmRealloc p 0 = .ok (h', r)) :
    AsFree h p h' r ↔ ¬ Buffers h.previousSize (h.getSize (p - WORD_SIZE)) := by
  unfold Heap.mmRealloc at hok
  obtain ⟨k, hk, hok⟩ := bind_eq_ok.1 hok
  obtain ⟨⟨g, r'⟩, hw, hok⟩ := bind_eq_ok.1 hok
  cases hok
  rw [mmReallocWrapped_eq hp, show align 0 / WORD_SIZE = 0 by decide] at hw
  simp only [Nat.cast_zero, zero_add, Nat.zero_le, and_true, ↓reduceIte] at hw
  rw [← bufferSize_zero hk h2 hlt]
  unfold AsFree
  split_ifs at hw with heq
  · -- the block is returned
    cases hw
    refine iff_of_false ?_ (not_not.2 heq)
    rintro ⟨h0, -⟩
    unfold WORD_SIZE HDR_SIZE NULL at h0
    omega
  · obtain ⟨g', hf, hw⟩ := bind_eq_ok.1 hw
    cases hw
    exact iff_of_true ⟨rfl, g, hf, rfl⟩ heq

/-! ### Both -/

/-- **The boundary cases.** In every reachable state and after every size of the last call,
`mm_realloc(NULL, size)` acts like `mm_malloc(size)` exactly when no free block fits and `mem_sbrk` fails,
and `mm_realloc(p, 0)` acts like `mm_free(p)` exactly when the block does not have the size of the buffer. -/
theorem boundary_cases_iff (hr : (allocator a).Reach Client.Fits c) (prev : Int) :
    ∃ bps, (c.after prev).Blocks bps ∧
    (∀ size h' r, 0 < size → (c.after prev).mmRealloc NULL size = .ok (h', r) →
      (AsMalloc (c.after prev) size h' r ↔ NoFit (c.after prev) bps (mallocWords size) ∧
        (c.after prev).Refuses (growth (mallocWords size)))) ∧
    ∀ p ∈ c.live, ∀ h' r, (c.after prev).mmRealloc p 0 = .ok (h', r) →
      (AsFree (c.after prev) p h' r ↔ ¬ Buffers prev ((c.after prev).getSize (p - WORD_SIZE))) := by
  obtain ⟨e, bs, fl, hi⟩ := reach_inv hr
  have z : Closed a.start (c.after prev) e bs fl := hi.closed.setPrevious prev
  refine ⟨_, z.blocks, ?_, ?_⟩
  · intro size h' r h0 hok
    rw [asMalloc_iff h0 hok, z.findFreeBlock_null_iff (mallocWords_lt size)]
  · intro p hp h' r hok
    obtain ⟨b, hb, rfl⟩ := (hi.live p).1 hp
    have hsz : (c.after prev).getSize (addr a.start (b.hd + 1) - WORD_SIZE) = b.size := by
      rw [show addr a.start (b.hd + 1) - WORD_SIZE = ptr a.start b by unfold ptr addr WORD_SIZE; omega]
      exact (z.tagged hb.1).getSize
    have h2 := (z.regular b (.inl hb.1)).1
    have hlt : b.size < 2 ^ 29 := z.size_lt <| by
      have := z.mem_outside (.inl hb.1)
      have := z.bounds
      omega
    exact asFree_iff (a.addr_ne_null _) (by omega) (by omega) hok

theorem boundary_cases_iff_smallRun : ∃ (c : Client) (bps : List Nat), c.live = [8432] ∧
    (c.after 20).Blocks bps ∧ ∀ size h' r, 0 < size → (c.after 20).mmRealloc NULL size = .ok (h', r) →
      (AsMalloc (c.after 20) size h' r ↔ NoFit (c.after 20) bps (mallocWords size) ∧
        (c.after 20).Refuses (growth (mallocWords size))) := by
  obtain ⟨c, hr, hl⟩ := smallRun_reachable
  obtain ⟨bps, hbps, hnull, -⟩ := boundary_cases_iff hr.reach 20
  exact ⟨c, bps, hl, hbps, hnull⟩

/-- Both cases go wrong with two blocks of 32 words at the front of the heap: 100 bytes are there, but
`mm_realloc(NULL, 100)` returns `NULL`; and after `mm_realloc(p, 20)`, which leaves the block alone,
`mm_realloc(p, 0)` returns `p`. -/
theorem boundary_cases_fail :
    (¬ ∀ (c : Client) (size : Nat) (h' : Heap) (r : Nat), (allocator smallArena).Reach Client.Fits c →
      0 < size → c.heap.mmRealloc NULL size = .ok (h', r) → AsMalloc c.heap size h' r) ∧
    ¬ ∀ (c : Client) (p : Nat) (h' : Heap) (r : Nat), (allocator smallArena).Reach Client.Fits c →
      p ∈ c.live → c.heap.mmRealloc p 0 = .ok (h', r) → AsFree c.heap p h' r := by
  constructor
  · intro hall
    obtain ⟨c, -, hr, -, htest⟩ := neighbours_spec (m := 496)
      (f := fun h _ => if (h.mmRealloc NULL 100).toOption.map Prod.snd = some NULL then
        (h.mmMalloc 100).toOption.map Prod.snd else none) (by decide +kernel)
    split_ifs at htest with hnull
    obtain ⟨h', hok⟩ := returns_iff.1 hnull
    obtain ⟨g, hm, -⟩ := hall c 100 h' NULL hr (by decide) hok
    rw [hm] at htest
    cases htest
  · intro hall
    obtain ⟨c, p, hr, hlive, htest⟩ := neighbours_spec (m := 224)
      (f := fun h p => if p ≠ NULL ∧ (h.mmRealloc p 20).toOption.map Prod.snd = some p then
        (h.mmRealloc p 20).toOption.bind fun v => (v.1.mmRealloc p 0).toOption.map Prod.snd else none)
      (by decide +kernel)
    split_ifs at htest with h1
    obtain ⟨hp, hstay⟩ := h1
    obtain ⟨h₁, hok⟩ := returns_iff.1 hstay
    rw [hok] at htest
    obtain ⟨h₂, hok'⟩ := returns_iff.1 htest
    have hr' : (allocator smallArena).Reach Client.Fits ⟨h₁, addLive p (dropLive p c.live)⟩ := by
      refine hr.step (l := .realloc p 20) (reallocFits_of_le (by decide)) ⟨.inr (hlive hp), p, ?_⟩
      simp only [Client.exec, Heap.perform, hok, bind, Except.bind, Op.live]
    obtain ⟨h0, -⟩ := hall ⟨h₁, _⟩ p h₂ 224 hr' (by simp [hp]) hok'
    cases h0

end CsappLab.Malloc
