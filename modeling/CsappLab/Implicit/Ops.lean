import CsappLab.Implicit.Layout

/-!
# The operations on the layout

`place`, `extend_heap`, `mm_init`, `mm_malloc` and `mm_free` take a layout to a layout. What each of them does
to the blocks is said with the operations on lines of tiles: a block is cut, a free block takes up its free
neighbours.
-/

namespace CsappLab.Implicit
open ByteMem CInt Tiling

variable {nf : Bool} {s a k n m x y x₀ size : Nat} {h h' h'' : Heap} {p t u : Tile} {l r ts ts' : List Tile} {z : Place}

/-! ### Coalescing -/

theorem span_concat_prologue : 1 + span (l ++ [prologue]) = 3 + span l := by
  rw [span_append, span_cons, span_nil, show prologue.words = 2 from rfl]
  omega

/-- **`coalesce`** puts the layout in order. -/
theorem Blocks.coalesce (hB : Blocks nf s h z.line) (hl : Merged z.left) (hr : Merged z.right) :
    ∃ h', h.coalesce nf (blk s (3 + span z.left)) = (h', blk s (3 + span z.coalesce.left)) ∧
      Layout nf s h' z.coalesce.line ∧ Frame s (3 + span z.coalesce.left) z.coalesce.tile.words h h' := by
  obtain ⟨l, t, r⟩ := z
  obtain ⟨h', hc, hf, ht, hrov⟩ := coalesce_spec nf (z := ⟨l ++ [prologue], t, r⟩) (s := s) (h := h) (by simp)
    (by rw [Place.line_concat]; exact hB.sound) (by rw [Place.line_concat]; exact hB.tiled)
  rw [Place.line_concat] at hrov
  rw [Place.coalesce_concat rfl] at hc hf ht hrov
  rw [Place.line_concat] at ht hrov
  simp only [span_concat_prologue] at hc hf
  refine ⟨h', hc, ⟨⟨hf.heap.trans hB.start, hf.max.trans hB.max, hf.list.trans hB.list, ?_, ?_, ht, ?_, ?_,
    hrov hB.rover⟩, Place.merged_coalesce hl hr⟩, hf⟩
  · rw [Place.span_line_coalesce]
    exact hf.brk.trans hB.brk
  · rw [Place.span_line_coalesce]
    exact hB.room
  · exact Place.forall_coalesce (Q := fun n => n % 2 = 0) (fun m n hm hn => by omega) hB.even
  · exact Place.forall_coalesce (Q := fun n => minWords ≤ n) (fun m n hm hn => by omega) hB.least

/-! ### Placing -/

theorem place_spec (hk : Header s h k t) (hm : m ≤ t.words) (hm2 : 2 ≤ m) (heven : m % 2 = 0) :
    ∃ h', h.place (blk s k) (4 * m) = h' ∧ Frame s k t.words h h' ∧ h'.rover = h.rover ∧
      ∀ l r, 1 + span l = k → Tiled tag (h.word s) 1 (l.reverse ++ t :: r) →
        Tiled tag (h'.word s) 1 (l.reverse ++ t.cut minWords m ++ r) := by
  have hsmall := hk.small
  have hteven := hk.even
  have hrest : u64 (4 * t.words + 2 ^ 64 - 4 * m) = 4 * (t.words - m) := by
    unfold u64
    omega
  refine ⟨_, rfl, ?_⟩
  unfold Heap.place Tile.cut
  simp only [hk.getSize, hrest]
  by_cases hcut : minWords ≤ t.words - m
  · rw [if_pos (by unfold minWords DSIZE at *; omega), if_pos hcut, pack_taken heven, pack_free]
    have hw₁ := Written.putTags (s := s) (k := k) (t := ⟨m, true⟩) (h := h) hm2 heven (by simp only; omega)
    have hk₁ := (⟨hw₁.first, heven, by simp only; omega⟩ : Header s _ k ⟨m, true⟩)
    rw [hk₁.nextBlkp]
    have hw₂ := Written.putTags (s := s) (k := k + m) (t := ⟨t.words - m, false⟩)
      (h := (h.put (hdrp (blk s k)) (tag ⟨m, true⟩)).put
        ((h.put (hdrp (blk s k)) (tag ⟨m, true⟩)).ftrp (blk s k)) (tag ⟨m, true⟩))
      (by unfold minWords at hcut; simp only; omega) (by simp only; omega) (by simp only; omega)
    have hframe := (hw₁.toFrame.widen k t.words le_rfl (by simp only; omega)).trans
      (hw₂.toFrame.widen k t.words (by omega) (by simp only; omega))
    refine ⟨hframe, rfl, fun l r hl hline => ?_⟩
    rw [tiled_reverse_append] at hline
    obtain ⟨hback, h2, -, -, hr⟩ := hline
    rw [List.append_assoc, tiled_reverse_append, List.cons_append, List.cons_append, List.nil_append, tiled_cons,
      tiled_cons, hl]
    rw [hl] at hr
    have hkm : k + m + (t.words - m) = k + t.words := by omega
    refine ⟨hback.congr fun i _ hi => hframe.word (by omega), hm2,
      (hw₂.toFrame.word (by omega)).trans hw₁.first, (hw₂.toFrame.word (by simp only; omega)).trans hw₁.last,
      by unfold minWords at hcut; simp only; omega, hw₂.first, hw₂.last, ?_⟩
    rw [show k + (⟨m, true⟩ : Tile).words + (⟨t.words - m, false⟩ : Tile).words = k + t.words from hkm]
    exact hr.congr fun i hi _ => hframe.word (by omega)
  · rw [if_neg (by unfold minWords DSIZE at *; omega), if_neg hcut, pack_taken hteven]
    have hw := Written.putTags (s := s) (k := k) (t := ⟨t.words, true⟩) (h := h) (by simp only; omega) hteven hsmall
    refine ⟨hw.toFrame, rfl, fun l r hl hline => ?_⟩
    rw [List.append_assoc, List.singleton_append]
    subst hl
    exact hw.tiled [t] (by simp only; omega) (by simp) (by simpa using hline)

theorem Layout.setRover (hL : Layout nf s h ts) (hx : nf = true → ∃ x ∈ (cells 1 (prologue :: ts)).map Prod.fst, y = blk s x) :
    Layout nf s { h with rover := y } ts :=
  ⟨⟨hL.start, hL.max, hL.list, hL.brk, hL.room, hL.tiled, hL.even, hL.least, hx⟩, hL.merged⟩

/-- **`place`** on a free block. -/
theorem Layout.place (hL : Layout nf s h (l.reverse ++ t :: r)) (ht : t.Fits m) (hm : minWords ≤ m) (heven : m % 2 = 0) :
    Layout nf s (h.place (blk s (3 + span l)) (4 * m)) (l.reverse ++ t.cut minWords m ++ r) ∧
      Frame s (3 + span l) t.words h (h.place (blk s (3 + span l)) (4 * m)) := by
  have hwhole : prologue :: (l.reverse ++ t :: r) = (l ++ [prologue]).reverse ++ t :: r := by simp
  have hwhole' : prologue :: (l.reverse ++ t.cut minWords m ++ r) =
      (l ++ [prologue]).reverse ++ t.cut minWords m ++ r := by simp
  have hspan := Tile.span_cut minWords ht.2
  have hline := hL.tiled
  rw [hwhole, tiled_reverse_append, span_concat_prologue] at hline
  have hk : Header s h (3 + span l) t := hL.sound.header (by simp) hline.2.2.1
  obtain ⟨h', rfl, hf, hrov, htiled⟩ := place_spec hk ht.2 (by unfold minWords at hm; omega) heven
  have hall : span (l.reverse ++ t.cut minWords m ++ r) = span (l.reverse ++ t :: r) := by
    simp only [span_append, span_cons, span_reverse, hspan]
    omega
  have hcut : ∀ u ∈ t.cut minWords m, u.words % 2 = 0 ∧ minWords ≤ u.words := by
    have h1 := hL.even t (by simp)
    have h2 := hL.least t (by simp)
    unfold Tile.cut
    split_ifs with h3
    · simp only [List.mem_cons, List.not_mem_nil, or_false, forall_eq_or_imp, forall_eq]
      exact ⟨⟨heven, hm⟩, by omega, h3⟩
    · simpa using ⟨h1, h2⟩
  refine ⟨⟨⟨hf.heap.trans hL.start, hf.max.trans hL.max, hf.list.trans hL.list, by rw [hall]; exact hf.brk.trans hL.brk,
    by rw [hall]; exact hL.room, ?_, ?_, ?_, fun hnf => ?_⟩, merged_cut ht.2 ht.1 hL.merged⟩, hf⟩
  · rw [hwhole']
    exact htiled (l ++ [prologue]) r span_concat_prologue (hwhole ▸ hL.tiled)
  · intro u hu
    rw [List.mem_append, List.mem_append] at hu
    rcases hu with (hu | hu) | hu
    · exact hL.even u (by simp [List.mem_reverse.1 hu])
    · exact (hcut u hu).1
    · exact hL.even u (by simp [hu])
  · intro u hu
    rw [List.mem_append, List.mem_append] at hu
    rcases hu with (hu | hu) | hu
    · exact hL.least u (by simp [List.mem_reverse.1 hu])
    · exact (hcut u hu).2
    · exact hL.least u (by simp [hu])
  · obtain ⟨x, hx, hrx⟩ := hL.rover hnf
    rw [hwhole] at hx
    rw [hwhole', hrov]
    exact ⟨x, starts_cut ht.2 hx, hrx⟩

/-! ### Growing -/

theorem memSbrk_blk (hb : h.memBrk = blk s k) (hm : h.memMaxAddr = s + MAX_HEAP) (hn : 4 * n < 2 ^ 31) :
    h.memSbrk (i32 (4 * n : Nat)) = if MAX_HEAP < 4 * (k + 1 + n) then (h, none)
      else ({ h with memBrk := blk s (k + n) }, some (blk s k)) := by
  rw [i32_natCast hn]
  unfold Heap.memSbrk
  simp only [hb, hm]
  unfold blk
  refine if_congr (by omega) rfl ?_
  congr 2
  omega

def grown (ts : List Tile) (n : Nat) : Place := Place.coalesce ⟨ts.reverse, ⟨n, false⟩, []⟩

/-- **`extend_heap`.** -/
theorem Layout.extendHeap (hL : Layout nf s h ts) (hn : minWords ≤ n) (heven : n % 2 = 0) (hlt : 4 * n < 2 ^ 31) :
    (MAX_HEAP < 4 * (4 + span ts + n) ∧ h.extendHeap nf n = (h, NULL)) ∨
    4 * (4 + span ts + n) ≤ MAX_HEAP ∧ ∃ h', h.extendHeap nf n = (h', blk s (3 + span (grown ts n).left)) ∧
      Layout nf s h' (grown ts n).line ∧
      ∀ x, x < s + 4 * (3 + span (grown ts n).left) → h'.mem x = h.mem x := by
  have hsize : u64 (if n % 2 ≠ 0 then (n + 1) * WSIZE else n * WSIZE) = 4 * n := by
    rw [if_neg (by omega)]
    unfold u64 WSIZE
    omega
  unfold Heap.extendHeap
  simp only [hsize]
  rw [memSbrk_blk hL.brk hL.max hlt]
  by_cases hroom : MAX_HEAP < 4 * (4 + span ts + n)
  · rw [if_pos (by omega), ifPtr_none]
    exact .inl ⟨hroom, rfl⟩
  rw [if_neg (by omega), ifPtr_some, pack_free, show pack 0 1 = tag Tile.fin from rfl]
  refine .inr ⟨by omega, ?_⟩
  have h2 : 2 ≤ n := by
    unfold minWords at hn
    omega
  -- the old epilogue becomes the header of the new block
  have hw := Written.putTags (s := s) (k := 3 + span ts) (t := ⟨n, false⟩)
    (h := { h with memBrk := blk s (3 + span ts + n) }) h2 heven (by simp only; omega)
  obtain ⟨h₁, hh₁⟩ : ∃ h₁, h₁ = (({ h with memBrk := blk s (3 + span ts + n) } : Heap).put
      (hdrp (blk s (3 + span ts))) (tag ⟨n, false⟩)).put
      ((({ h with memBrk := blk s (3 + span ts + n) } : Heap).put
        (hdrp (blk s (3 + span ts))) (tag ⟨n, false⟩)).ftrp (blk s (3 + span ts))) (tag ⟨n, false⟩) := ⟨_, rfl⟩
  have hrov : h₁.rover = h.rover := by rw [hh₁]; rfl
  simp only [← hh₁] at hw ⊢
  have hk₁ : Header s h₁ (3 + span ts) ⟨n, false⟩ := ⟨hw.first, heven, by simp only; omega⟩
  rw [hk₁.nextBlkp, hdrp_blk]
  have hlow : ∀ i < 3 + span ts, (h₁.put (s + 4 * (3 + span ts + n)) (tag Tile.fin)).word s i = h.word s i :=
    fun i hi => (Heap.word_put_ne (by omega)).trans (hw.word (by omega))
  have hB : Blocks nf s (h₁.put (s + 4 * (3 + span ts + n)) (tag Tile.fin)) (Place.mk ts.reverse ⟨n, false⟩ []).line := by
    have hline : (Place.mk ts.reverse ⟨n, false⟩ []).line = ts ++ [⟨n, false⟩] := by simp [Place.line]
    rw [hline]
    refine ⟨hw.heap.trans hL.start, hw.max.trans hL.max, hw.list.trans hL.list, ?_, ?_, ?_, ?_, ?_, fun hnf => ?_⟩
    · rw [span_append, span_cons, span_nil, Nat.add_zero, ← Nat.add_assoc]
      exact hw.brk
    · rw [span_append, span_cons, span_nil]
      simp only
      omega
    · have hold := hL.tiled
      rw [← List.reverse_reverse (prologue :: ts), ← List.append_nil (List.reverse _), tiled_reverse_append,
        span_reverse, span_cons, show prologue.words = 2 from rfl] at hold
      rw [← List.cons_append, ← List.reverse_reverse (prologue :: ts), tiled_reverse_append, span_reverse, span_cons,
        show prologue.words = 2 from rfl, show 1 + (2 + span ts) = 3 + span ts by omega]
      refine ⟨hold.1.congr fun i _ hi => hlow i ?_, h2, (Heap.word_put_ne ?_).trans hw.first,
        (Heap.word_put_ne ?_).trans hw.last, Heap.word_put_same (by decide)⟩
      · rw [span_reverse, span_cons, show prologue.words = 2 from rfl] at hi
        omega
      · omega
      · simp only
        omega
    · simpa [or_imp, forall_and] using ⟨hL.even, heven⟩
    · simpa [or_imp, forall_and] using ⟨hL.least, hn⟩
    · obtain ⟨x, hx, hrx⟩ := hL.rover hnf
      refine ⟨x, ?_, hrov.trans hrx⟩
      rw [← List.cons_append, cells_append, List.map_append]
      exact List.mem_append_left _ hx
  obtain ⟨h', hc, hL', hf⟩ := hB.coalesce (merged_reverse.2 hL.merged) (by simp [Merged])
  rw [show span (Place.mk ts.reverse ⟨n, false⟩ []).left = span ts from span_reverse] at hc
  have hcov := (Place.coalesce_covers (z := ⟨ts.reverse, ⟨n, false⟩, []⟩)).1
  rw [show span (Place.mk ts.reverse ⟨n, false⟩ []).left = span ts from span_reverse] at hcov
  unfold grown
  refine ⟨h', hc, hL', fun x hx => (hf.bytes x (.inl hx)).trans ?_⟩
  exact (store32_byte_ne (by omega)).trans (hw.bytes x (by omega))

theorem memSbrk_prologue (hb : h.memBrk = s) (hm : h.memMaxAddr = s + MAX_HEAP) :
    h.memSbrk (4 * WSIZE : Nat) = ({ h with memBrk := s + 16 }, some s) := by
  have hneg : ¬ (((4 * WSIZE : Nat) : Int) < 0 ∨ (h.memBrk : Int) + (4 * WSIZE : Nat) > h.memMaxAddr) := by
    rw [hb, hm, MAX_HEAP_eq]
    unfold WSIZE
    omega
  unfold Heap.memSbrk
  simp only
  rw [if_neg hneg, hb]
  rfl

theorem putPrologue_layout (hs : h.memHeap = s) (hb : h.memBrk = s + 16) (hm : h.memMaxAddr = s + MAX_HEAP) :
    Layout nf s (h.putPrologue nf s) [] := by
  have hword : ∀ i, 1 ≤ i → i ≤ 3 → (h.putPrologue nf s).word s i = if i = 3 then 1 else 9 := by
    intro i h1 h3
    have hput : (h.putPrologue nf s).word s i = ((((h.put (s + 4 * 0) 0).put (s + 4 * 1) 9).put (s + 4 * 2) 9).put
        (s + 4 * 3) 1).word s i := by
      cases nf <;> rfl
    rw [hput]
    simp only [Heap.word_put]
    have hi : i = 1 ∨ i = 2 ∨ i = 3 := by omega
    rcases hi with rfl | rfl | rfl <;> rfl
  have hline : Tiled tag ((h.putPrologue nf s).word s) 1 [prologue] :=
    ⟨le_rfl, hword 1 le_rfl (by decide), hword 2 (by decide) (by decide), hword 3 (by decide) le_rfl⟩
  refine ⟨⟨?_, ?_, ?_, ?_, by decide, hline, by simp, by simp, ?_⟩, by simp [Merged]⟩
  · cases nf <;> exact hs
  · cases nf <;> exact hm
  · cases nf <;> rfl
  · cases nf <;> exact hb
  · rintro rfl
    exact ⟨1, by simp [cells], rfl⟩

/-- **`mm_init`** on an empty heap. -/
theorem mmInit_spec (nf : Bool) (hs : h.memHeap = s) (hb : h.memBrk = s) (hm : h.memMaxAddr = s + MAX_HEAP) :
    ∃ h', h.mmInit nf = (h', 0) ∧ Layout nf s h' [⟨1024, false⟩] := by
  have hL : Layout nf s (({ h with memBrk := s + 16 } : Heap).putPrologue nf s) [] := putPrologue_layout hs rfl hm
  rcases hL.extendHeap (n := CHUNKSIZE / WSIZE) (by decide) (by decide) (by decide) with
    ⟨hno, -⟩ | ⟨-, h', hext, hL', -⟩
  · exact absurd hno (by decide)
  · refine ⟨h', ?_, hL'⟩
    unfold Heap.mmInit
    rw [memSbrk_prologue hb hm, ifPtr_some, hext]
    exact if_neg blk_ne_null

/-! ### `mm_malloc` -/

def blockWords (size : Nat) : Nat := if size ≤ 8 then 4 else 2 * ((size + 15) / 8)

theorem adjust_eq (hs : size ≤ 2 ^ 31 - 16) : Heap.adjust size = 4 * blockWords size := by
  unfold Heap.adjust blockWords u64 DSIZE
  split_ifs <;> omega

theorem blockWords_spec (hs : size ≤ 2 ^ 31 - 16) : minWords ≤ blockWords size ∧ blockWords size % 2 = 0 ∧
    size + 8 ≤ 4 * blockWords size ∧ 4 * blockWords size < 2 ^ 31 := by
  unfold minWords blockWords
  split_ifs <;> omega

/-- The blocks after a request for `m` words has been served at word `x`: a block that was found, or the block
at the end of the heap that was extended. -/
inductive Handed (m x₀ : Nat) (ts : List Tile) : List Tile → Nat → Prop
  | found {l r : List Tile} {t : Tile} : Found m x₀ ts l t r →
      Handed m x₀ ts (l.reverse ++ t.cut minWords m ++ r) (3 + span l)
  | extended : (∀ t ∈ ts, ¬ t.Fits m) → 4 * (4 + span ts + max m 1024) ≤ MAX_HEAP →
      Handed m x₀ ts ((grown ts (max m 1024)).left.reverse ++ (grown ts (max m 1024)).tile.cut minWords m)
        (3 + span (grown ts (max m 1024)).left)

/-- The bytes of the taken blocks are the same, but for the block at word `x`. -/
def KeepsTaken (s : Nat) (ts : List Tile) (x : Nat) (h h' : Heap) : Prop :=
  ∀ c ∈ cells 3 ts, c.2.taken = true → c.1 ≠ x → ∀ y, s + 4 * c.1 ≤ y → y < s + 4 * (c.1 + c.2.words) → h'.mem y = h.mem y

theorem grown_right : (grown ts n).right = [] := rfl

theorem grown_free : (grown ts n).tile.taken = false := Place.coalesce_taken rfl

theorem grown_words : n ≤ (grown ts n).tile.words := by
  have h1 := Place.coalesce_covers (z := ⟨ts.reverse, ⟨n, false⟩, []⟩)
  unfold grown
  simp only at h1
  omega

theorem taken_grown (ht : t.taken = true) : (x, t) ∈ cells a (grown ts n).line ↔ (x, t) ∈ cells a ts := by
  unfold grown
  rw [Place.taken_coalesce rfl ht, Place.line, List.reverse_reverse, cells_append, List.mem_append]
  refine or_iff_left fun h1 => ?_
  simp only [cells, List.mem_singleton, Prod.mk.injEq] at h1
  rw [h1.2] at ht
  cases ht

theorem Blocks.pos (hB : Blocks nf s h ts) : ∀ t ∈ ts, 0 < t.words := fun t ht => by
  have := hB.least t ht
  unfold minWords at this
  omega

/-- **`mm_malloc`** of a positive size: it is refused when no block fits and the heap cannot grow, or served. -/
theorem Layout.mmMalloc (hL : Layout nf s h ts) (ho : Origin nf s h x₀) (h0 : 0 < size) (hs : size ≤ 2 ^ 31 - 16) :
    ((∀ t ∈ ts, ¬ t.Fits (blockWords size)) ∧ MAX_HEAP < 4 * (4 + span ts + max (blockWords size) 1024) ∧
      h.mmMalloc nf size = .ok (h, NULL)) ∨
    ∃ ts' x h', Handed (blockWords size) x₀ ts ts' x ∧ h.mmMalloc nf size = .ok (h', blk s x) ∧ Layout nf s h' ts' ∧
      KeepsTaken s ts 0 h h' := by
  obtain ⟨hmin, heven, -, hlt⟩ := blockWords_spec hs
  have hlist : h.heapListp ≠ 0 := by
    rw [hL.list]
    exact blk_ne_null
  unfold Heap.mmMalloc
  simp only [if_neg hlist, if_neg (show size ≠ 0 by omega), adjust_eq hs]
  rcases findFit_spec (m := blockWords size) hL ho with ⟨l, t, r, ρ, hf, hρ, hfind⟩ | ⟨hno, hfind⟩
  · -- a block fits
    simp only [hfind, bind, Except.bind, if_pos (show blk s (3 + span l) ≠ NULL from blk_ne_null)]
    obtain ⟨rfl, hfits, -⟩ := id hf
    have hmem : (3 + span l, t) ∈ cells 3 (l.reverse ++ t :: r) := Place.mem_cells_line (z := ⟨l, t, r⟩)
    have hL₁ : Layout nf s { h with rover := ρ } (l.reverse ++ t :: r) := hL.setRover fun hnf =>
      ⟨3 + span l, List.mem_map.2 ⟨(3 + span l, t), List.mem_cons_of_mem _ hmem, rfl⟩, hρ hnf⟩
    obtain ⟨hL₂, hframe⟩ := hL₁.place hfits hmin heven
    refine .inr ⟨_, _, _, .found hf, rfl, hL₂, ?_⟩
    rintro ⟨x, u⟩ hx hu - y h1 h2
    have hout := Place.taken_outside (z := ⟨l, t, r⟩) hL.pos hfits.1 hu hx
    exact hframe.bytes y (by simp only at h1 h2 hout; omega)
  · -- the heap grows
    simp only [hfind, bind, Except.bind, if_neg (show ¬ NULL ≠ NULL from fun h1 => h1 rfl)]
    have hext : max (4 * blockWords size) CHUNKSIZE / WSIZE = max (blockWords size) 1024 := by
      unfold CHUNKSIZE WSIZE
      omega
    rw [hext]
    rcases hL.extendHeap (n := max (blockWords size) 1024) (by unfold minWords at *; omega) (by omega) (by omega) with
      ⟨hroom, he⟩ | ⟨hroom, h', he, hL', hlow⟩
    · exact .inl ⟨hno, hroom, by rw [he]; rfl⟩
    · rw [he]
      have hfits : (grown ts (max (blockWords size) 1024)).tile.Fits (blockWords size) :=
        ⟨grown_free, le_trans (le_max_left _ _) grown_words⟩
      have hL'' : Layout nf s h' ((grown ts (max (blockWords size) 1024)).left.reverse ++
          (grown ts (max (blockWords size) 1024)).tile :: []) := hL'
      obtain ⟨hL₂, hframe⟩ := hL''.place hfits hmin heven
      rw [List.append_nil] at hL₂
      refine .inr ⟨_, _, _, .extended hno hroom, if_neg blk_ne_null, hL₂, ?_⟩
      rintro ⟨x, u⟩ hx hu - y h1 h2
      have hu : u.taken = true := hu
      have hout := Place.taken_outside (z := grown ts (max (blockWords size) 1024)) hL'.pos grown_free hu
        ((taken_grown hu).2 hx)
      have hb := cells_bounds ((taken_grown (n := max (blockWords size) 1024) hu).2 hx)
      have hend : span (grown ts (max (blockWords size) 1024)).line =
          span (grown ts (max (blockWords size) 1024)).left + (grown ts (max (blockWords size) 1024)).tile.words := by
        rw [Place.line, grown_right, span_append, span_reverse, span_cons, span_nil, Nat.add_zero]
      have hu2 := hL'.pos u (mem_of_mem_cells ((taken_grown hu).2 hx))
      simp only at h1 h2 hout
      exact (hframe.bytes y (by omega)).trans (hlow y (by omega))

theorem Handed.taken (hh : Handed m x₀ ts ts' x) (hpos : ∀ t ∈ ts, 0 < t.words) :
    ∃ n, m ≤ n ∧ (∀ u, u.taken = true → (x, u) ∉ cells 3 ts) ∧
      ∀ y u, u.taken = true → ((y, u) ∈ cells 3 ts' ↔ (y, u) ∈ cells 3 ts ∨ y = x ∧ u = ⟨n, true⟩) := by
  cases hh with
  | @found l r t hf =>
    obtain ⟨rfl, hfits, -⟩ := hf
    obtain ⟨n, hn, -, hcells⟩ := taken_cut (a := 3) (l := l) (r := r) minWords hfits.2 hfits.1
    refine ⟨n, hn, fun u hu hx => ?_, hcells⟩
    have he : u = t := cells_inj hpos hx (Place.mem_cells_line (z := ⟨l, t, r⟩))
    rw [he, hfits.1] at hu
    cases hu
  | extended hno hroom =>
    have hfree : (grown ts (max m 1024)).tile.taken = false := grown_free
    obtain ⟨n, hn, -, hcells⟩ := taken_cut (a := 3) (l := (grown ts (max m 1024)).left) (r := []) minWords
      (le_trans (le_max_left m 1024) grown_words) hfree
    have hpos' : ∀ t ∈ (grown ts (max m 1024)).line, 0 < t.words := by
      refine Place.forall_coalesce (Q := fun n => 0 < n) (fun a b _ _ => by omega) ?_
      simp only [Place.line, List.reverse_reverse, List.mem_append, List.mem_singleton]
      rintro t (ht | rfl)
      · exact hpos t ht
      · simp only
        omega
    rw [List.append_nil] at hcells
    refine ⟨n, hn, fun u hu hx => ?_, fun y u hu => (hcells y u hu).trans (or_congr ?_ Iff.rfl)⟩
    · have he := cells_inj hpos' ((taken_grown hu).2 hx) Place.mem_cells_line
      rw [he, hfree] at hu
      cases hu
    · exact taken_grown (n := max m 1024) hu

/-! ### `mm_free` -/

def freed (l : List Tile) (t : Tile) (r : List Tile) : Place := Place.coalesce ⟨l, ⟨t.words, false⟩, r⟩

theorem taken_marked (hpos : ∀ v ∈ l.reverse ++ t :: r, 0 < v.words) (hu : u.taken = true) :
    (y, u) ∈ cells a (Place.mk l ⟨t.words, false⟩ r).line ↔ (y, u) ∈ cells a (l.reverse ++ t :: r) ∧ y ≠ a + span l := by
  unfold Place.line
  rw [cells_append, cells_append, span_reverse]
  simp only [cells, List.mem_append, List.mem_cons, Prod.mk.injEq]
  have hpos0 := hpos t (by simp)
  constructor
  · rintro (hx | ⟨-, rfl⟩ | hx)
    · have hb := cells_bounds hx
      have hu0 := hpos u (by simp [List.mem_reverse.1 (mem_of_mem_cells hx)])
      rw [span_reverse] at hb
      exact ⟨.inl hx, by omega⟩
    · cases hu
    · have hb := cells_bounds hx
      exact ⟨.inr (.inr hx), by omega⟩
  · rintro ⟨hx | ⟨rfl, -⟩ | hx, hne⟩
    · exact .inl hx
    · exact absurd rfl hne
    · exact .inr (.inr hx)

theorem taken_freed (hpos : ∀ v ∈ l.reverse ++ t :: r, 0 < v.words) (hu : u.taken = true) :
    (y, u) ∈ cells a (freed l t r).line ↔ (y, u) ∈ cells a (l.reverse ++ t :: r) ∧ y ≠ a + span l := by
  unfold freed
  rw [Place.taken_coalesce rfl hu, taken_marked hpos hu]

/-- **`mm_free`** of a taken block. -/
theorem Layout.mmFree (hL : Layout nf s h (l.reverse ++ t :: r)) :
    Layout nf s (h.mmFree nf (blk s (3 + span l))) (freed l t r).line ∧
      KeepsTaken s (l.reverse ++ t :: r) (3 + span l) h (h.mmFree nf (blk s (3 + span l))) := by
  have hlist : h.heapListp ≠ 0 := by
    rw [hL.list]
    exact blk_ne_null
  have hwhole : ∀ v, prologue :: (l.reverse ++ v :: r) = (l ++ [prologue]).reverse ++ v :: r := by simp
  have hline := hL.tiled
  rw [hwhole, tiled_reverse_append, span_concat_prologue] at hline
  have hk : Header s h (3 + span l) t := hL.sound.header (by simp) hline.2.2.1
  have h2 := hline.2.1
  -- the block is marked free
  have hw := Written.putTags (s := s) (k := 3 + span l) (t := ⟨t.words, false⟩) (h := h) h2 hk.even hk.small
  unfold Heap.mmFree
  rw [if_neg (show blk s (3 + span l) ≠ 0 from blk_ne_null)]
  simp only [if_neg hlist, hk.getSize, pack_free]
  obtain ⟨h₁, hh₁⟩ : ∃ h₁, h₁ = (h.put (hdrp (blk s (3 + span l))) (tag ⟨t.words, false⟩)).put
      ((h.put (hdrp (blk s (3 + span l))) (tag ⟨t.words, false⟩)).ftrp (blk s (3 + span l))) (tag ⟨t.words, false⟩) :=
    ⟨_, rfl⟩
  have hrov : h₁.rover = h.rover := by rw [hh₁]; rfl
  rw [← hh₁] at hw ⊢
  have hspan : span (Place.mk l ⟨t.words, false⟩ r).line = span (l.reverse ++ t :: r) := by simp [Place.line]
  have hwords : ∀ v ∈ (Place.mk l ⟨t.words, false⟩ r).line, ∃ w ∈ l.reverse ++ t :: r, w.words = v.words := by
    intro v hv
    simp only [Place.line, List.mem_append, List.mem_cons] at hv
    rcases hv with hv | rfl | hv
    · exact ⟨v, by simp [List.mem_reverse.1 hv], rfl⟩
    · exact ⟨t, by simp, rfl⟩
    · exact ⟨v, by simp [hv], rfl⟩
  have hB : Blocks nf s h₁ (Place.mk l ⟨t.words, false⟩ r).line := by
    refine ⟨hw.heap.trans hL.start, hw.max.trans hL.max, hw.list.trans hL.list, ?_, ?_, ?_, fun v hv => ?_,
      fun v hv => ?_, fun hnf => ?_⟩
    · rw [hspan]
      exact hw.brk.trans hL.brk
    · rw [hspan]
      exact hL.room
    · rw [Place.line, hwhole]
      refine Written.tiled (h := h) (l := l ++ [prologue]) [t] ?_ h2 (by simp) ?_
      · rw [span_concat_prologue]
        exact hw
      · rw [List.append_assoc, List.singleton_append, ← hwhole]
        exact hL.tiled
    · obtain ⟨w, hw', he⟩ := hwords v hv
      exact he ▸ hL.even w hw'
    · obtain ⟨w, hw', he⟩ := hwords v hv
      exact he ▸ hL.least w hw'
    · obtain ⟨x, hx, hrx⟩ := hL.rover hnf
      refine ⟨x, ?_, hrov.trans hrx⟩
      rw [hwhole, cells_append] at hx
      rw [Place.line, hwhole, cells_append]
      simpa [cells] using hx
  have hmerged := merged_reverse_append_cons.1 hL.merged
  obtain ⟨h', hc, hL', hf⟩ := hB.coalesce (merged_cons.1 hmerged.1).2 (merged_cons.1 hmerged.2).2
  rw [hc]
  refine ⟨hL', ?_⟩
  rintro ⟨x, u⟩ hx hu hne y h1 h2
  have hu : u.taken = true := hu
  have hmem := (taken_marked (l := l) (t := t) (r := r) hL.pos hu).2 ⟨hx, hne⟩
  have hout := Place.taken_outside hB.pos rfl hu hmem
  have hout' := Place.taken_outside hL'.pos (Place.coalesce_taken rfl) hu ((Place.taken_coalesce rfl hu).2 hmem)
  simp only at h1 h2 hout hout'
  exact (hf.bytes y (by omega)).trans (hw.bytes y (by simp only; omega))

end CsappLab.Implicit
