import CsappLab.Lib.Tiling
import CsappLab.Implicit.Mm

/-!
# The heap as a line of tiles

Seen from the start `s` of the heap the memory is an array of words, and a block is a tile whose tag is its
size in bytes with the allocated bit. `blk s k` is the pointer of the block whose header is word `k`. The
macros of `mm.c` are restated for a block whose tags are known, and `Written` says what a function that writes
the tags of one tile leaves.
-/

namespace CsappLab.Implicit
open ByteMem CInt Tiling

def tag (t : Tile) : Nat := 4 * t.words + t.taken.toNat

def blk (s k : Nat) : Nat := s + 4 * (k + 1)

def Heap.word (h : Heap) (s i : Nat) : Nat := wordAt h.mem s i

variable {s i j k n v x : Nat} {h h' h'' : Heap} {p t u : Tile} {l r : List Tile}

theorem blk_inj : blk s i = blk s j ↔ i = j := by
  unfold blk
  omega

theorem hdrp_blk : hdrp (blk s k) = s + 4 * k := by
  unfold hdrp blk WSIZE
  omega

theorem blk_sub_wsize : blk s k - WSIZE = s + 4 * k := hdrp_blk

theorem blk_sub_dsize : blk s (k + 1) - DSIZE = s + 4 * k := by
  unfold blk DSIZE
  omega

theorem pack_free (n : Nat) : pack (4 * n) 0 = tag ⟨n, false⟩ := by
  simp [pack, tag]

theorem pack_taken (hn : n % 2 = 0) : pack (4 * n) 1 = tag ⟨n, true⟩ := by
  obtain ⟨m, rfl⟩ : ∃ m, n = 2 * m := ⟨n / 2, by omega⟩
  have h8 : 4 * (2 * m) = m <<< 3 := by
    rw [Nat.shiftLeft_eq]
    omega
  unfold pack tag
  rw [h8, ← Nat.shiftLeft_add_eq_or_of_lt (by decide)]
  simp [Nat.shiftLeft_eq]

namespace Heap

theorem get_eq : h.get (s + 4 * i) = h.word s i := rfl

theorem word_put : (h.put (s + 4 * i) v).word s j = if j = i then v % 2 ^ 32 else h.word s j :=
  wordAt_store32 _ _ _ _ _

theorem word_put_same (hv : v < 2 ^ 32) : (h.put (s + 4 * i) v).word s i = v := by
  rw [word_put, if_pos rfl, Nat.mod_eq_of_lt hv]

theorem word_put_ne (hj : j ≠ i) : (h.put (s + 4 * i) v).word s j = h.word s j := by
  rw [word_put, if_neg hj]

theorem getSize_of_tag {a : Nat} (hk : h.get a = tag t) (ht : t.words % 2 = 0) (hlt : t.words < 2 ^ 29) :
    h.getSize a = 4 * t.words := by
  have htk : t.taken.toNat < 2 := by cases t.taken <;> decide
  unfold getSize
  rw [hk, show (2 ^ 32 - 8 : Nat) = 2 ^ (29 + 3) - 2 ^ 3 by rfl,
    and_clear_low _ 29 3 (by unfold tag; omega)]
  unfold tag
  omega

theorem getAlloc_of_tag {a : Nat} (hk : h.get a = tag t) : h.getAlloc a = t.taken.toNat := by
  have htk : t.taken.toNat < 2 := by cases t.taken <;> decide
  unfold getAlloc
  rw [hk, Nat.and_one_is_mod]
  unfold tag
  omega

end Heap

/-- The header word `k` is that of the tile `t`, and its size is one that a tag can hold. -/
structure Header (s : Nat) (h : Heap) (k : Nat) (t : Tile) : Prop where
  tag : h.word s k = tag t
  even : t.words % 2 = 0
  small : t.words < 2 ^ 29

namespace Header

theorem getSize_word (hk : Header s h k t) : h.getSize (s + 4 * k) = 4 * t.words :=
  Heap.getSize_of_tag hk.tag hk.even hk.small

theorem getSize (hk : Header s h k t) : h.getSize (hdrp (blk s k)) = 4 * t.words := by
  rw [hdrp_blk, hk.getSize_word]

theorem getAlloc (hk : Header s h k t) : h.getAlloc (hdrp (blk s k)) = t.taken.toNat := by
  rw [hdrp_blk]
  exact Heap.getAlloc_of_tag hk.tag

theorem ftrp (hk : Header s h k t) : h.ftrp (blk s k) = s + 4 * (k + t.words) - 4 := by
  unfold Heap.ftrp
  rw [hk.getSize]
  unfold blk DSIZE
  omega

theorem ftrp' (hk : Header s h k t) (ht : 2 ≤ t.words) : h.ftrp (blk s k) = s + 4 * (k + t.words - 1) := by
  rw [hk.ftrp]
  omega

theorem nextBlkp (hk : Header s h k t) : h.nextBlkp (blk s k) = blk s (k + t.words) := by
  unfold Heap.nextBlkp
  rw [show blk s k - WSIZE = hdrp (blk s k) from rfl, hk.getSize]
  unfold blk
  omega

end Header

theorem prevBlkp_eq (hk : h.word s (k + p.words - 1) = tag p) (h2 : 2 ≤ p.words) (heven : p.words % 2 = 0)
    (hlt : p.words < 2 ^ 29) : h.prevBlkp (blk s (k + p.words)) = blk s k := by
  obtain ⟨n, hn⟩ : ∃ n, k + p.words = n + 1 := ⟨k + p.words - 1, by omega⟩
  unfold Heap.prevBlkp
  rw [hn, blk_sub_dsize, Heap.getSize_of_tag (t := p) (by rw [Heap.get_eq, ← hk, hn]; rfl) heven hlt]
  unfold blk
  omega

/-! ### What a function writes -/

/-- The globals are the same, but for the rover. -/
structure SameGlobals (h h' : Heap) : Prop where
  heap : h'.memHeap = h.memHeap
  brk : h'.memBrk = h.memBrk
  max : h'.memMaxAddr = h.memMaxAddr
  list : h'.heapListp = h.heapListp

/-- Only bytes of the `n` words from `k` on are written. -/
structure Frame (s k n : Nat) (h h' : Heap) : Prop extends SameGlobals h h' where
  bytes : ∀ x, x < s + 4 * k ∨ s + 4 * (k + n) ≤ x → h'.mem x = h.mem x

namespace Frame

theorem refl (h : Heap) : Frame s k n h h := ⟨⟨rfl, rfl, rfl, rfl⟩, fun _ _ => rfl⟩

theorem put (hj : k ≤ j) (hj' : j < k + n) : Frame s k n h (h.put (s + 4 * j) v) :=
  ⟨⟨rfl, rfl, rfl, rfl⟩, fun x hx => store32_byte_ne (by omega)⟩

theorem trans (f : Frame s k n h h') (g : Frame s k n h' h'') : Frame s k n h h'' :=
  ⟨⟨g.heap.trans f.heap, g.brk.trans f.brk, g.max.trans f.max, g.list.trans f.list⟩,
    fun x hx => (g.bytes x hx).trans (f.bytes x hx)⟩

theorem widen (k' n' : Nat) (f : Frame s k n h h') (h1 : k' ≤ k) (h2 : k + n ≤ k' + n') : Frame s k' n' h h' :=
  ⟨f.toSameGlobals, fun x hx => f.bytes x (by omega)⟩

theorem word (f : Frame s k n h h') (hi : i < k ∨ k + n ≤ i) : h'.word s i = h.word s i :=
  wordAt_congr fun x _ _ => f.bytes x (by omega)

theorem setRover (f : Frame s k n h h') (r : Nat) : Frame s k n h { h' with rover := r } :=
  ⟨⟨f.heap, f.brk, f.max, f.list⟩, f.bytes⟩

end Frame

/-- The tags of the tile `t` stand at word `k`, and only bytes of the tile are written. -/
structure Written (s k : Nat) (t : Tile) (h h' : Heap) : Prop extends Frame s k t.words h h' where
  first : h'.word s k = tag t
  last : h'.word s (k + t.words - 1) = tag t

theorem tag_lt (ht : t.words < 2 ^ 29) : tag t < 2 ^ 32 := by
  have htk : t.taken.toNat < 2 := by cases t.taken <;> decide
  unfold tag
  omega

theorem Written.put (h2 : 2 ≤ t.words) (ht : t.words < 2 ^ 29) :
    Written s k t h ((h.put (s + 4 * k) (tag t)).put (s + 4 * (k + t.words - 1)) (tag t)) where
  toFrame := (Frame.put le_rfl (by omega)).trans (Frame.put (by omega) (by omega))
  first := by rw [Heap.word_put_ne (by omega), Heap.word_put_same (tag_lt ht)]
  last := Heap.word_put_same (tag_lt ht)

theorem Written.putTags (h2 : 2 ≤ t.words) (heven : t.words % 2 = 0) (ht : t.words < 2 ^ 29) :
    Written s k t h ((h.put (hdrp (blk s k)) (tag t)).put
      ((h.put (hdrp (blk s k)) (tag t)).ftrp (blk s k)) (tag t)) := by
  have hk : Header s (h.put (hdrp (blk s k)) (tag t)) k t :=
    ⟨by rw [hdrp_blk, Heap.word_put_same (tag_lt ht)], heven, ht⟩
  rw [hk.ftrp' h2, hdrp_blk]
  exact .put h2 ht

theorem Written.put' (h2 : 2 ≤ t.words) (ht : t.words < 2 ^ 29) :
    Written s k t h ((h.put (s + 4 * (k + t.words - 1)) (tag t)).put (s + 4 * k) (tag t)) where
  toFrame := (Frame.put (by omega) (by omega)).trans (Frame.put le_rfl (by omega))
  first := Heap.word_put_same (tag_lt ht)
  last := by rw [Heap.word_put_ne (by omega), Heap.word_put_same (tag_lt ht)]

/-- **The line after a tile has been written** over the tiles `ts` of the same length. -/
theorem Written.tiled (ts : List Tile) (hw : Written s (1 + span l) t h h') (h2 : 2 ≤ t.words)
    (hspan : t.words = span ts) (hline : Tiled tag (h.word s) 1 (l.reverse ++ ts ++ r)) :
    Tiled tag (h'.word s) 1 (l.reverse ++ t :: r) := by
  rw [List.append_assoc, tiled_reverse_append] at hline
  obtain ⟨hl, hr⟩ := hline
  rw [← List.reverse_reverse ts, tiled_reverse_append, span_reverse] at hr
  rw [tiled_reverse_append, tiled_cons]
  refine ⟨hl.congr fun i _ hi => hw.word (by omega), h2, hw.first, hw.last, ?_⟩
  rw [hspan]
  exact hr.2.congr fun i hi _ => hw.word (by omega)

end CsappLab.Implicit
