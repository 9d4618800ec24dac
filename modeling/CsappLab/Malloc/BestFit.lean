import CsappLab.Malloc.Capacity

/-!
# Best fit

Where `mm_malloc` takes a block from and when it grows the heap. The free lists hold all free blocks, so
the best fit among the listed blocks is the best fit in the heap; `mem_sbrk` is asked only when nothing
fits, and when it refuses nothing has changed.
-/

namespace CsappLab.Malloc
open ByteMem CInt Linked Fuel

/-- The words that `mm_malloc` looks for. -/
def mallocWords (size : Nat) : Nat :=
  align (if size ≤ 1 <<< 12 then (roundUpPower2 size).toNat else size) / WORD_SIZE

/-- The bytes that `mm_malloc` asks `mem_sbrk` for when no block has `words` words. -/
def growth (words : Nat) : Int :=
  i32 (u32 (u32 (evenize (if words > CHUNK then words else CHUNK) + HDR_FTR_SIZE) * WORD_SIZE))

/-- The blocks of the heap, from the first one to the epilog. -/
def Heap.Blocks (h : Heap) (bps : List Nat) : Prop :=
  Walk h h.heapPtr bps (h.memBrk - WORD_SIZE * EPILOG_SIZE)

/-- `bp` is a smallest free block with at least `words` words. -/
structure SmallestFit (h : Heap) (bps : List Nat) (words bp : Nat) : Prop where
  mem : bp ∈ bps
  free : h.getStatus bp = FREE
  fits : words ≤ h.getSize bp
  least : ∀ bq ∈ bps, h.getStatus bq = FREE → words ≤ h.getSize bq → h.getSize bp ≤ h.getSize bq

def NoFit (h : Heap) (bps : List Nat) (words : Nat) : Prop :=
  ∀ bp ∈ bps, h.getStatus bp = FREE → h.getSize bp < words

def Heap.Refuses (h : Heap) (incr : Int) : Prop := incr < 0 ∨ h.memBrk + incr > h.memMaxAddr

variable {a : Arena} {c : Client} {s e words size p : Nat} {h h' : Heap} {bs : List Blk}
  {fl : Nat → List Blk} {b : Blk} {incr : Int}

theorem mallocWords_lt (size : Nat) : mallocWords size < 2 ^ 32 := by
  unfold mallocWords align
  generalize (if size ≤ 1 <<< 12 then (roundUpPower2 size).toNat else size) = size'
  have h1 : u32 (size' + 7) &&& (2 ^ 32 - 8) ≤ 2 ^ 32 - 8 := Nat.and_le_right
  have h2 := Nat.div_le_self (u32 (size' + 7) &&& (2 ^ 32 - 8)) WORD_SIZE
  omega

theorem mallocWords_even (size : Nat) : mallocWords size % 2 = 0 := by
  unfold mallocWords align
  generalize (if size ≤ 1 <<< 12 then (roundUpPower2 size).toNat else size) = size'
  have h1 : u32 (size' + 7) < 2 ^ 32 := Nat.mod_lt _ (by decide)
  rw [show u32 (size' + 7) &&& (2 ^ 32 - 8) = u32 (size' + 7) / 8 * 8 from and_clear_low _ 29 3 h1,
    show WORD_SIZE = 4 by rfl]
  omega

theorem Heap.memSbrk_of_refuses (hr : h.Refuses incr) : h.memSbrk incr = (h, none) := if_pos hr

theorem Heap.memSbrk_none_iff : (h.memSbrk incr).2 = none ↔ h.Refuses incr := by
  unfold memSbrk Refuses
  split_ifs with hr
  · simp [hr]
  · simp [hr]

/-! ### The request -/

theorem extendHeap_none_iff : (h.extendHeap words).2 = none ↔
    h.Refuses (i32 (u32 (u32 (evenize words + HDR_FTR_SIZE) * WORD_SIZE))) := by
  rw [← Heap.memSbrk_none_iff]
  unfold Heap.extendHeap
  simp only []
  generalize h.memSbrk _ = res
  obtain ⟨g, _ | q⟩ := res <;> simp

theorem extendHeap_of_refuses
    (hr : h.Refuses (i32 (u32 (u32 (evenize words + HDR_FTR_SIZE) * WORD_SIZE)))) :
    h.extendHeap words = (h, none) := by
  unfold Heap.extendHeap
  simp only [Heap.memSbrk_of_refuses hr, ifPtr_none]

theorem rounded_ne_zero (h0 : 0 < size) :
    (if size ≤ 1 <<< 12 then (roundUpPower2 size).toNat else size) ≠ 0 := by
  split_ifs with h1
  · rw [show 1 <<< 12 = 4096 by rfl] at h1
    obtain ⟨n, h2, h3, -⟩ := roundUpPower2_spec h0 (by omega)
    rw [h2, Int.toNat_natCast]
    omega
  · omega

theorem mmMalloc_eq (h0 : 0 < size) : h.mmMalloc size = (do
    let words := mallocWords size
    let bp ← h.findFreeBlock words
    if bp = NULL then
      ifPtr (h.extendHeap (if words > CHUNK then words else CHUNK)) (fun h => .ok (h, NULL)) fun h bp => do
        let h ← h.allocFreeBlock bp words
        .ok (h, bp + WORD_SIZE * HDR_SIZE)
    else
      let h := h.removeBlockFromFreeList bp
      let h ← h.allocFreeBlock bp words
      .ok (h, bp + WORD_SIZE * HDR_SIZE)) := if_neg (rounded_ne_zero h0)

/-- **A refusal.** `mm_malloc` returns `NULL` for a positive size when no block is found and `mem_sbrk`
fails, on any heap, and then the heap is as it was. -/
theorem mmMalloc_null_iff (h0 : 0 < size) : h.mmMalloc size = .ok (h', NULL) ↔
    h.findFreeBlock (mallocWords size) = .ok NULL ∧ h.Refuses (growth (mallocWords size)) ∧ h' = h := by
  -- a header address plus 4 is not `NULL`
  have hret : ∀ bp, bp + WORD_SIZE * HDR_SIZE ≠ NULL := fun bp => by
    unfold WORD_SIZE HDR_SIZE NULL
    omega
  rw [mmMalloc_eq h0]
  unfold growth
  simp only []
  generalize mallocWords size = words
  rw [← extendHeap_none_iff]
  rcases hf : h.findFreeBlock words with f | bp
  · simp [bind, Except.bind]
  by_cases hbp : bp = NULL
  · subst hbp
    simp only [bind, Except.bind, ↓reduceIte, true_and]
    rcases hx : h.extendHeap (if words > CHUNK then words else CHUNK) with ⟨g, _ | q⟩
    · have hr := extendHeap_of_refuses (extendHeap_none_iff.1 (congrArg Prod.snd hx))
      rw [hx, Prod.mk.injEq] at hr
      obtain rfl := hr.1
      simp [eq_comm]
    · rw [ifPtr_some]
      refine iff_of_false (fun hok => ?_) (fun hn => by cases hn.1)
      obtain ⟨g', -, hq⟩ := bind_eq_ok.1 hok
      exact hret q (by simpa using congrArg Prod.snd (Except.ok.inj hq))
  · simp only [bind, Except.bind, if_neg hbp]
    refine iff_of_false (fun hok => ?_) (fun hn => hbp (Except.ok.inj hn.1))
    obtain ⟨g', -, hq⟩ := bind_eq_ok.1 hok
    exact hret bp (by simpa using congrArg Prod.snd (Except.ok.inj hq))

/-! ### The search -/

namespace Closed

theorem blocks (z : Closed s h e bs fl) : h.Blocks (bs.map (ptr s)) := z.heapInvariant.tiles

theorem free_iff (z : Closed s h e bs fl) (hb : b ∈ bs) :
    h.getStatus (ptr s b) = FREE ↔ b ∈ fl (Nat.log2 b.size) := by
  rw [(z.tagged hb).getStatus, FREE, z.mem]
  cases b.taken <;> simp [hb]

/-- **`find_free_block`** finds a best fit among all free blocks of the heap. -/
theorem findFreeBlock (z : Closed s h e bs fl) (hw : words < 2 ^ 32) :
    (NoFit h (bs.map (ptr s)) words ∧ h.findFreeBlock words = .ok NULL) ∨
      ∃ b ∈ bs, b.taken = false ∧ SmallestFit h (bs.map (ptr s)) words (ptr s b) ∧
        h.findFreeBlock words = .ok (ptr s b) := by
  rcases z.lists.findFreeBlock_spec hw with ⟨hno, hf⟩ | ⟨k, b, hb, hfit, hleast, hf⟩
  · refine .inl ⟨?_, hf h z.lists⟩
    intro bp hbp hfree
    obtain ⟨d, hd, rfl⟩ := List.mem_map.1 hbp
    rw [(z.tagged hd).getSize]
    exact hno _ d ((z.free_iff hd).1 hfree)
  · have hbm : b ∈ bs := by simpa using z.listed hb
    have hfree := z.lists.free k b hb
    refine .inr ⟨b, hbm, hfree, ⟨List.mem_map_of_mem hbm, ?_, ?_, ?_⟩, hf h z.lists⟩
    · rw [(z.tagged hbm).getStatus, hfree]
      rfl
    · rwa [(z.tagged hbm).getSize]
    · intro bq hbq hfq hwq
      obtain ⟨d, hd, rfl⟩ := List.mem_map.1 hbq
      rw [(z.tagged hd).getSize] at hwq ⊢
      rw [(z.tagged hbm).getSize]
      exact hleast _ d ((z.free_iff hd).1 hfq) hwq

theorem findFreeBlock_null_iff (z : Closed s h e bs fl) (hw : words < 2 ^ 32) :
    h.findFreeBlock words = .ok NULL ↔ NoFit h (bs.map (ptr s)) words := by
  rcases z.findFreeBlock hw with ⟨hno, hf⟩ | ⟨b, -, -, hfit, hf⟩
  · exact iff_of_true hf hno
  · refine iff_of_false ?_ fun hno => ?_
    · rw [hf, Except.ok.injEq]
      exact (addr_pos z.lists.start_pos : ptr s b ≠ NULL)
    · have := hno _ hfit.mem hfit.free
      have := hfit.fits
      omega

theorem mmMalloc_of_fit (z : Closed s h e bs fl) (h0 : 0 < size) (h2 : 2 ≤ mallocWords size)
    (hfit : ¬ NoFit h (bs.map (ptr s)) (mallocWords size)) :
    ∃ h' r, h.mmMalloc size = .ok (h', r) ∧ r ≠ NULL ∧ h'.memBrk = h.memBrk := by
  rcases z.findFreeBlock (mallocWords_lt size) with ⟨hno, -⟩ | ⟨b, hb, hfree, hbest, hf⟩
  · exact absurd hno hfit
  have hle := hbest.fits
  rw [(z.tagged hb).getSize] at hle
  have hr := z.regular b (.inl hb)
  obtain ⟨pre, post, rfl⟩ := List.append_of_mem hb
  obtain ⟨z1, hg, -, ht, -⟩ := z.openFree hfree
  obtain ⟨t, post', fl', hal⟩ :=
    allocFreeBlock_spec (s := s) e pre post (unlist fl b) hr h2 (mallocWords_even size) hle
  obtain ⟨h', hok, hA⟩ := hal _ z1 ht.1
  have hp0 : ptr s b ≠ NULL := addr_pos z.lists.start_pos
  refine ⟨h', ptr s b + WORD_SIZE * HDR_SIZE, ?_, ?_, hA.globals.brk.trans hg.brk⟩
  · rw [mmMalloc_eq h0]
    simp only [hf, bind, Except.bind, if_neg hp0, hok]
  · unfold NULL at *
    omega

end Closed

/-- **Best fit.** In every reachable state `find_free_block` returns a smallest free block that is large
enough, and `NULL` when there is none. So `mm_malloc` does not move the break when a free block fits, and
it returns `NULL` only when none does and `mem_sbrk` fails, with the heap as it was. -/
theorem best_fit (hr : (allocator a).Reach Client.Fits c) : ∃ bps, c.heap.Blocks bps ∧
    (∀ words < 2 ^ 32, (NoFit c.heap bps words ∧ c.heap.findFreeBlock words = .ok NULL) ∨
      ∃ bp, SmallestFit c.heap bps words bp ∧ c.heap.findFreeBlock words = .ok bp) ∧
    (∀ size, 0 < size → 2 ≤ mallocWords size → ¬ NoFit c.heap bps (mallocWords size) →
      ∃ h' r, c.heap.mmMalloc size = .ok (h', r) ∧ r ≠ NULL ∧ h'.memBrk = c.heap.memBrk) ∧
    ∀ size h', 0 < size → c.heap.mmMalloc size = .ok (h', NULL) →
      NoFit c.heap bps (mallocWords size) ∧ c.heap.Refuses (growth (mallocWords size)) ∧ h' = c.heap := by
  obtain ⟨e, bs, fl, hi⟩ := reach_inv hr
  have z := hi.closed
  refine ⟨_, z.blocks, ?_, ?_, ?_⟩
  · intro words hw
    rcases z.findFreeBlock hw with hno | ⟨b, -, -, hfit, hf⟩
    · exact .inl hno
    · exact .inr ⟨_, hfit, hf⟩
  · intro size h0 h2 hfit
    exact z.mmMalloc_of_fit h0 h2 hfit
  · intro size h' h0 hnull
    obtain ⟨hf, href, rfl⟩ := (mmMalloc_null_iff h0).1 hnull
    exact ⟨(z.findFreeBlock_null_iff (mallocWords_lt size)).1 hf, href, rfl⟩

theorem best_fit_smallRun : ∃ (c : Client) (bps : List Nat), c.live = [8432] ∧ c.heap.Blocks bps ∧
    ∀ size h', 0 < size → c.heap.mmMalloc size = .ok (h', NULL) →
      NoFit c.heap bps (mallocWords size) ∧ c.heap.Refuses (growth (mallocWords size)) ∧ h' = c.heap := by
  obtain ⟨c, hr, hl⟩ := smallRun_reachable
  obtain ⟨bps, hbps, -, -, hnull⟩ := best_fit hr.reach
  exact ⟨c, bps, hl, hbps, hnull⟩

end CsappLab.Malloc
