import CsappLab.Malloc.FreeList

/-!
# The search for a free block

`find_free_block` on represented lists returns a listed block of the smallest size that is large
enough, and `NULL` only if no listed block is. The first list is searched block by block; every block
of a later list is large enough, and its last block is its smallest.
-/

namespace CsappLab.Malloc
open ByteMem CInt Linked

/-- `b` is a smallest block of `l` with at least `words` words. -/
structure BestFit (words : Nat) (l : List Blk) (b : Blk) : Prop where
  mem : b ∈ l
  fits : words ≤ b.size
  best : ∀ c ∈ l, words ≤ c.size → b.size ≤ c.size

variable {s k words : Nat} {h : Heap} {fl : Nat → List Blk} {b c : Blk} {l : List Blk}

theorem BestFit.cons (hf : BestFit words l b) (hs : b.size ≤ c.size) : BestFit words (c :: l) b :=
  ⟨by simp [hf.mem], hf.fits, fun d hd hw => by
    rcases List.mem_cons.1 hd with rfl | hd
    · exact hs
    · exact hf.best d hd hw⟩

/-- The list from `b` on, as the search sees it: links and sizes. -/
def Searchable (s : Nat) (h : Heap) (p : Nat) (l : List Blk) : Prop :=
  Dll (ptr s) (pred s h) (succ s h) p l NULL ∧ ∀ c ∈ l, h.getSize (ptr s c) = c.size

theorem Searchable.tail {p : Nat} (hl : Searchable s h p (b :: c :: l)) :
    Searchable s h (ptr s b) (c :: l) ∧ succ s h b = ptr s c :=
  ⟨⟨(dll_cons.1 hl.1).2.2, fun d hd => hl.2 d (by simp [hd])⟩, (dll_cons.1 hl.1).2.1⟩

theorem findInList_spec (h0 : 0 < s) (hs : (b :: l).Pairwise Blk.Ge) (hw : words ≤ b.size) :
    ∃ c, BestFit words (b :: l) c ∧ ∀ h fuel p, Searchable s h p (b :: l) → l.length < fuel →
      h.findInList words fuel (ptr s b) = .ok (ptr s c) := by
  induction l generalizing b with
  | nil =>
    refine ⟨b, ⟨by simp, hw, by simp⟩, fun h fuel p hl hfuel => ?_⟩
    obtain ⟨n, rfl⟩ : ∃ n, fuel = n + 1 := ⟨fuel - 1, by simp at hfuel; omega⟩
    have h2 : succ s h b = NULL := hl.1.2.1
    unfold Heap.findInList
    simp only [getSucc_ptr, h2, true_or, ↓reduceIte, ite_self]
  | cons c l ih =>
    obtain ⟨hbc, hs'⟩ := List.pairwise_cons.1 hs
    have hc0 : ptr s c ≠ NULL := addr_pos h0
    by_cases he : b.size = words
    · refine ⟨b, ⟨by simp, hw, fun d _ hd => he ▸ hd⟩, fun h fuel p hl hfuel => ?_⟩
      obtain ⟨n, rfl⟩ : ∃ n, fuel = n + 1 := ⟨fuel - 1, by simp at hfuel; omega⟩
      unfold Heap.findInList
      rw [if_pos (by rw [hl.2 b (by simp), he])]
    by_cases hcw : c.size < words
    · refine ⟨b, ⟨by simp, hw, ?_⟩, ?_⟩
      · intro d hd hdw
        rcases List.mem_cons.1 hd with rfl | hd
        · exact le_rfl
        -- the list descends, so nothing behind `c` fits either
        · have hdc : d.size ≤ c.size := by
            rcases List.mem_cons.1 hd with rfl | hd
            · exact le_rfl
            · exact (List.pairwise_cons.1 hs').1 d hd
          omega
      · intro h fuel p hl hfuel
        obtain ⟨n, rfl⟩ : ∃ n, fuel = n + 1 := ⟨fuel - 1, by simp at hfuel; omega⟩
        unfold Heap.findInList
        rw [if_neg (by rw [hl.2 b (by simp)]; exact he), getSucc_ptr, hl.tail.2, hl.2 c (by simp),
          if_pos (.inr hcw)]
    · obtain ⟨d, hfit, hall⟩ := ih hs' (by omega)
      refine ⟨d, hfit.cons (hbc d hfit.mem), fun h fuel p hl hfuel => ?_⟩
      obtain ⟨n, rfl⟩ : ∃ n, fuel = n + 1 := ⟨fuel - 1, by simp at hfuel; omega⟩
      unfold Heap.findInList
      rw [if_neg (by rw [hl.2 b (by simp)]; exact he), getSucc_ptr, hl.tail.2, hl.2 c (by simp),
        if_neg (by simp only [hc0, hcw, or_self, not_false_eq_true])]
      exact hall h n _ hl.tail.1 (by simpa using hfuel)

theorem lastInList_spec (h0 : 0 < s) (hs : (b :: l).Pairwise Blk.Ge) (hw : ∀ c ∈ b :: l, words ≤ c.size) :
    ∃ c, BestFit words (b :: l) c ∧ ∀ h fuel p, Searchable s h p (b :: l) → l.length < fuel →
      h.lastInList fuel (ptr s b) = .ok (ptr s c) := by
  induction l generalizing b with
  | nil =>
    refine ⟨b, ⟨by simp, hw b (by simp), by simp⟩, fun h fuel p hl hfuel => ?_⟩
    obtain ⟨n, rfl⟩ : ∃ n, fuel = n + 1 := ⟨fuel - 1, by simp at hfuel; omega⟩
    have h2 : succ s h b = NULL := hl.1.2.1
    unfold Heap.lastInList
    rw [getSucc_ptr, h2, if_neg (by simp)]
  | cons c l ih =>
    obtain ⟨hbc, hs'⟩ := List.pairwise_cons.1 hs
    have hc0 : ptr s c ≠ NULL := addr_pos h0
    obtain ⟨d, hfit, hall⟩ := ih hs' (fun c hc => hw c (by simp [hc]))
    refine ⟨d, hfit.cons (hbc d hfit.mem), fun h fuel p hl hfuel => ?_⟩
    obtain ⟨n, rfl⟩ : ∃ n, fuel = n + 1 := ⟨fuel - 1, by simp at hfuel; omega⟩
    unfold Heap.lastInList
    rw [getSucc_ptr, hl.tail.2, if_pos hc0]
    exact hall h n _ hl.tail.1 (by simpa using hfuel)

namespace FreeLists

theorem getFreeListPtr (hf : FreeLists s h fl) (hk : k ≤ MAX_POWER) :
    h.getFreeListPtr k = headPtr (ptr s) NULL (fl k) := by
  rw [Heap.getFreeListPtr_eq hf.base]; exact hf.heads k hk

theorem getFreeListPtr_eq_null (hf : FreeLists s h fl) (hk : k ≤ MAX_POWER) :
    h.getFreeListPtr k = NULL ↔ fl k = [] := by
  rw [hf.getFreeListPtr hk]; exact headPtr_eq_iff fun b _ => hf.sortedLists.ptr_ne b

theorem searchable (hf : FreeLists s h fl) (hl : fl k = l) : Searchable s h NULL l :=
  ⟨hl ▸ hf.links k, fun _ hc => hf.sortedLists.getSize (k := k) (hl ▸ hc)⟩

theorem skipEmptyLists_spec (fl : Nat → List Blk) (n i : Nat) (hi : i ≤ MAX_POWER)
    (hn : MAX_POWER ≤ n + i) :
    ∃ j, i ≤ j ∧ j ≤ MAX_POWER ∧ (∀ m, i ≤ m → m < j → fl m = []) ∧ (fl j = [] → j = MAX_POWER) ∧
      ∀ h, FreeLists s h fl → h.skipEmptyLists n i = j := by
  induction n generalizing i with
  | zero => exact ⟨i, le_rfl, hi, fun m h1 h2 => by omega, fun _ => by omega, fun _ _ => rfl⟩
  | succ n ih =>
    by_cases hc : fl i = [] ∧ i < MAX_POWER
    · obtain ⟨j, h1, h2, h3, h4, h5⟩ := ih (i + 1) hc.2 (by omega)
      refine ⟨j, by omega, h2, ?_, h4, ?_⟩
      · intro m hm hm'
        rcases Nat.eq_or_lt_of_le hm with rfl | hm
        · exact hc.1
        · exact h3 m hm hm'
      · intro h hf
        unfold Heap.skipEmptyLists
        rw [if_pos ⟨(hf.getFreeListPtr_eq_null hi).2 hc.1, hc.2⟩]
        exact h5 h hf
    · refine ⟨i, le_rfl, hi, fun m h1 h2 => by omega, ?_, ?_⟩
      · intro he
        by_contra hne
        exact hc ⟨he, by omega⟩
      · intro h hf
        unfold Heap.skipEmptyLists
        rw [if_neg fun h1 => hc ⟨(hf.getFreeListPtr_eq_null hi).1 h1.1, h1.2⟩]

theorem size_lt_of_class_lt (hf : FreeLists s h fl) (hb : b ∈ fl k) (hk : k < Nat.log2 words) : b.size < words := by
  have h1 := Nat.lt_log2_self (n := b.size)
  rw [hf.cls k b hb] at h1
  have h0 : words ≠ 0 := fun h0 => by rw [h0, Nat.log2_zero] at hk; omega
  have h2 := Nat.log2_self_le h0
  have := Nat.pow_le_pow_right (n := 2) (by decide) (show k + 1 ≤ Nat.log2 words by omega)
  omega

theorem le_size_of_class_lt (hf : FreeLists s h fl) (hb : b ∈ fl k) (hk : Nat.log2 words < k) : words ≤ b.size := by
  have h1 := Nat.lt_log2_self (n := words)
  have h2 := Nat.log2_self_le (n := b.size) (by have := hf.two k b hb; omega)
  rw [hf.cls k b hb] at h2
  have := Nat.pow_le_pow_right (n := 2) (by decide) hk
  omega

theorem lt_of_class_lt (hf : FreeLists s h fl) {k' : Nat} (hb : b ∈ fl k) (hc : c ∈ fl k') (hk : k < k') :
    b.size < c.size := by
  rw [← hf.cls k' c hc] at hk
  exact hf.size_lt_of_class_lt hb hk

theorem size_lt_of_head (hf : FreeLists s h fl) (hno : ¬ ∃ b l, fl k = b :: l ∧ words ≤ b.size) (hb : b ∈ fl k) :
    b.size < words := by
  cases hbl : fl k with
  | nil => rw [hbl] at hb; cases hb
  | cons c l =>
    have hc : c.size < words := by
      by_contra hc
      exact hno ⟨c, l, hbl, by omega⟩
    have hso := hf.sorted k
    rw [hbl] at hso hb
    rcases List.mem_cons.1 hb with rfl | hb
    · exact hc
    · exact lt_of_le_of_lt ((List.pairwise_cons.1 hso).1 b hb) hc

/-- **The search is best fit**: a listed block of the smallest sufficient size, or `NULL` when no
listed block is large enough; which block it is depends on the lists alone. -/
theorem findFreeBlock_spec (hf : FreeLists s h fl) (hw : words < 2 ^ 32) :
    ((∀ k, ∀ b ∈ fl k, b.size < words) ∧
      ∀ g, FreeLists s g fl → g.findFreeBlock words = .ok NULL) ∨
      ∃ k, ∃ b ∈ fl k, words ≤ b.size ∧ (∀ k', ∀ c ∈ fl k', words ≤ c.size → b.size ≤ c.size) ∧
        ∀ g, FreeLists s g fl → g.findFreeBlock words = .ok (ptr s b) := by
  have hidx := findFreeListIndex_eq hw
  have hle := log2_le_of_lt hw
  set i := Nat.log2 words with hi
  have hi50 : i ≤ MAX_POWER := by unfold MAX_POWER; omega
  have hlow : ∀ k, k < i → ∀ b ∈ fl k, b.size < words := fun k hk b hb => hf.size_lt_of_class_lt hb hk
  unfold Heap.findFreeBlock
  simp only [hidx]
  by_cases hfirst : ∃ b l, fl i = b :: l ∧ words ≤ b.size
  · obtain ⟨b, l, hbl, hbw⟩ := hfirst
    have hbm : b ∈ fl i := by simp [hbl]
    have hlen := hf.sortedLists.length_lt i
    have hso := hf.sorted i
    rw [hbl] at hso hlen
    obtain ⟨c, hfit, hc⟩ := findInList_spec hf.start_pos hso hbw
    have hci : c ∈ fl i := by rw [hbl]; exact hfit.mem
    refine .inr ⟨i, c, hci, hfit.fits, ?_, ?_⟩
    · intro k' d hd hdw
      rcases lt_trichotomy k' i with hk' | rfl | hk'
      · have := hlow k' hk' d hd; omega
      · exact hfit.best d (hbl ▸ hd) hdw
      · exact (hf.lt_of_class_lt hci hd hk').le
    · intro g hg
      rw [hg.getFreeListPtr hi50, hbl, headPtr_cons,
        if_pos ⟨hg.sortedLists.ptr_ne b, by rw [hg.sortedLists.getSize hbm]; exact hbw⟩]
      exact hc g _ _ (hg.searchable hbl) (show _ < MAX_HEAP by simp at hlen; omega)
  · -- no block of the first list is large enough
    have hno : ∀ b ∈ fl i, b.size < words := fun b hb => hf.size_lt_of_head hfirst hb
    have hcond : ∀ g, FreeLists s g fl →
        ¬ (g.getFreeListPtr i ≠ NULL ∧ g.getSize (g.getFreeListPtr i) ≥ words) := by
      rintro g hg ⟨h1, h2⟩
      rw [Ne, hg.getFreeListPtr_eq_null hi50] at h1
      obtain ⟨b, l, hbl⟩ := List.exists_cons_of_ne_nil h1
      have hbm : b ∈ fl i := by simp [hbl]
      rw [hg.getFreeListPtr hi50, hbl, headPtr_cons, hg.sortedLists.getSize hbm] at h2
      have := hno b hbm; omega
    obtain ⟨j, h1, h2, h3, h4, h5⟩ := skipEmptyLists_spec (s := s) fl MAX_POWER (i + 1)
      (by unfold MAX_POWER; omega) (by omega)
    by_cases hj : fl j = []
    · refine .inl ⟨?_, ?_⟩
      · intro k b hb
        have hjm := h4 hj
        rcases lt_trichotomy k i with hk | rfl | hk
        · exact hlow k hk b hb
        · exact hno b hb
        · have hkj : k < j := by have := hf.sortedLists.class_le hb; unfold MAX_POWER at hjm; omega
          rw [h3 k hk hkj] at hb; cases hb
      · intro g hg
        rw [if_neg (hcond g hg), h5 g hg, if_neg (by simpa [hg.getFreeListPtr_eq_null h2] using hj)]
    · obtain ⟨b, l, hbl⟩ := List.exists_cons_of_ne_nil hj
      have hlen := hf.sortedLists.length_lt j
      have hso := hf.sorted j
      rw [hbl] at hso hlen
      have hhigh : ∀ c ∈ b :: l, words ≤ c.size := fun c hc =>
        hf.le_size_of_class_lt (hbl ▸ hc : c ∈ fl j) (by omega)
      obtain ⟨c, hfit, hc⟩ := lastInList_spec hf.start_pos hso hhigh
      have hcj : c ∈ fl j := by rw [hbl]; exact hfit.mem
      refine .inr ⟨j, c, hcj, hfit.fits, ?_, ?_⟩
      · intro k' d hd hdw
        rcases lt_trichotomy k' j with hk' | rfl | hk'
        · rcases lt_trichotomy k' i with hk | rfl | hk
          · have := hlow k' hk d hd; omega
          · have := hno d hd; omega
          · rw [h3 k' hk hk'] at hd; cases hd
        · exact hfit.best d (hbl ▸ hd) hdw
        · exact (hf.lt_of_class_lt hcj hd hk').le
      · intro g hg
        rw [if_neg (hcond g hg), h5 g hg, if_pos (by simpa [hg.getFreeListPtr_eq_null h2] using hj),
          hg.getFreeListPtr h2, hbl, headPtr_cons]
        exact hc g _ _ (hg.searchable hbl) (show _ < MAX_HEAP by simp at hlen; omega)

end FreeLists
end CsappLab.Malloc
