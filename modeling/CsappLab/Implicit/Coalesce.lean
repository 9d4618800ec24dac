import CsappLab.Implicit.Words

/-!
# Coalescing

`coalesce` on a line of tiles is `Place.coalesce`: the tags of the joined tile are written, and nothing outside
of it. With `NEXT_FIT` the rover stays at the start of a tile.
-/

namespace CsappLab.Implicit
open ByteMem CInt Tiling

/-- The blocks are of even length, and the line is short enough for the sizes in the tags. -/
structure Sound (line : List Tile) : Prop where
  even : ∀ t ∈ line, t.words % 2 = 0
  short : span line < 2 ^ 29

/-- With `NEXT_FIT`, the rover points to a block. -/
def RoverOk (nextFit : Bool) (s : Nat) (h : Heap) (line : List Tile) : Prop :=
  nextFit = true → ∃ x ∈ (cells 1 line).map Prod.fst, h.rover = blk s x

variable {nf : Bool} {s k n x : Nat} {h h' : Heap} {p t u : Tile} {l r line : List Tile} {z : Place}

theorem words_le_span (ht : t ∈ line) : t.words ≤ span line := by
  obtain ⟨l, r, rfl⟩ := List.append_of_mem ht
  rw [span_append, span_cons]
  omega

theorem Sound.header (hs : Sound line) (ht : t ∈ line) (hk : h.word s k = tag t) : Header s h k t :=
  ⟨hk, hs.even t ht, by
    have := words_le_span ht
    have := hs.short
    omega⟩

theorem Sound.coalesce (hs : Sound z.line) : Sound z.coalesce.line :=
  ⟨Place.forall_coalesce (Q := fun n => n % 2 = 0) (fun m n hm hn => by omega) hs.even, by rw [Place.span_line_coalesce]; exact hs.short⟩

/-! ### The rover -/

theorem Header.settleRover (hk : Header s h k t) : h.settleRover nf (blk s k) =
    if nf = true ∧ blk s k < h.rover ∧ h.rover < blk s (k + t.words) then { h with rover := blk s k } else h := by
  unfold Heap.settleRover
  rw [hk.nextBlkp]

theorem Frame.settleRover {b : Nat} (f : Frame s k n h h') : Frame s k n h (h'.settleRover nf b) := by
  unfold Heap.settleRover
  split_ifs
  · exact f.setRover _
  · exact f

theorem word_settleRover {b i : Nat} : (h.settleRover nf b).word s i = h.word s i := by
  unfold Heap.settleRover
  split_ifs <;> rfl

theorem Written.settleRover {b : Nat} (hw : Written s k t h h') : Written s k t h (h'.settleRover nf b) :=
  ⟨hw.toFrame.settleRover, word_settleRover.trans hw.first, word_settleRover.trans hw.last⟩

/-- The rover after coalescing, when the new tags have been written. -/
theorem RoverOk.settle (hr : RoverOk nf s h z.line) (hpos : ∀ t ∈ z.line, 0 < t.words) (he : h'.rover = h.rover)
    (hk : Header s h' (1 + span z.coalesce.left) z.coalesce.tile) :
    RoverOk nf s (h'.settleRover nf (blk s (1 + span z.coalesce.left))) z.coalesce.line := by
  intro hnf
  obtain ⟨x, hx, hrx⟩ := hr hnf
  refine ⟨_, Place.start_coalesce hpos hx, ?_⟩
  rw [hk.settleRover, he, hrx]
  have hlt : ∀ i j, blk s i < blk s j ↔ i < j := by
    intro i j
    unfold blk
    omega
  simp only [hlt, hnf, true_and]
  split_ifs with h1
  · rfl
  · exact he.trans hrx

/-! ### The four cases -/

/-- The blocks `p` and `t` from word `k` on, and the header of the tile `u` behind them. -/
structure Around (s : Nat) (h : Heap) (k : Nat) (p t u : Tile) : Prop where
  prev : Header s h k p
  prevFooter : h.word s (k + p.words - 1) = tag p
  self : Header s h (k + p.words) t
  next : Header s h (k + p.words + t.words) u
  two_prev : 2 ≤ p.words
  two_self : 2 ≤ t.words
  short : p.words + t.words + u.words < 2 ^ 29

namespace Around

theorem prevBlkp (ha : Around s h k p t u) : h.prevBlkp (blk s (k + p.words)) = blk s k :=
  prevBlkp_eq ha.prevFooter ha.two_prev ha.prev.even ha.prev.small

theorem prevAlloc (ha : Around s h k p t u) :
    h.getAlloc (h.ftrp (h.prevBlkp (blk s (k + p.words)))) = p.taken.toNat := by
  rw [ha.prevBlkp, ha.prev.ftrp' ha.two_prev]
  exact Heap.getAlloc_of_tag ha.prevFooter

theorem nextAlloc (ha : Around s h k p t u) :
    h.getAlloc (hdrp (h.nextBlkp (blk s (k + p.words)))) = u.taken.toNat := by
  rw [ha.self.nextBlkp, ha.next.getAlloc]

theorem coalesce_none (ha : Around s h k p t u) (hp : p.taken = true) (hu : u.taken = true) :
    h.coalesce nf (blk s (k + p.words)) = (h, blk s (k + p.words)) := by
  unfold Heap.coalesce
  simp only [ha.prevAlloc, ha.nextAlloc, hp, hu]
  rfl

/-- Case 2. -/
theorem coalesce_next (nf : Bool) (ha : Around s h k p t u) (hp : p.taken = true) (hu : u.taken = false) :
    ∃ h', h.coalesce nf (blk s (k + p.words)) =
      (h'.settleRover nf (blk s (k + p.words)), blk s (k + p.words)) ∧
      Written s (k + p.words) ⟨t.words + u.words, false⟩ h h' ∧ h'.rover = h.rover := by
  have heven := ha.self.even
  have heven' := ha.next.even
  have hshort := ha.short
  have h2 := ha.two_self
  have hsize : pack (h.getSize (hdrp (blk s (k + p.words))) +
      h.getSize (hdrp (h.nextBlkp (blk s (k + p.words))))) 0 = tag ⟨t.words + u.words, false⟩ := by
    rw [ha.self.nextBlkp, ha.next.getSize, ha.self.getSize, ← Nat.mul_add, pack_free]
  unfold Heap.coalesce
  simp only [ha.prevAlloc, ha.nextAlloc, hp, hu, hsize]
  exact ⟨_, rfl, .putTags (by simp only; omega) (by simp only; omega) (by simp only; omega), rfl⟩

/-- Case 3. -/
theorem coalesce_prev (nf : Bool) (ha : Around s h k p t u) (hp : p.taken = false) (hu : u.taken = true) :
    ∃ h', h.coalesce nf (blk s (k + p.words)) = (h'.settleRover nf (blk s k), blk s k) ∧
      Written s k ⟨p.words + t.words, false⟩ h h' ∧ h'.rover = h.rover := by
  have heven := ha.prev.even
  have hshort := ha.short
  have h2 := ha.two_self
  have h2' := ha.two_prev
  have hsize : pack (4 * t.words + 4 * p.words) 0 = tag ⟨p.words + t.words, false⟩ := by
    rw [← Nat.mul_add, pack_free, Nat.add_comm]
  -- the footer before the block is still there after the two writes
  have hprev : ∀ v, (h.put (s + 4 * (k + p.words + t.words - 1)) v).prevBlkp (blk s (k + p.words)) = blk s k :=
    fun v => prevBlkp_eq (by rw [Heap.word_put_ne (by omega)]; exact ha.prevFooter) h2' heven ha.prev.small
  have hprev' : ∀ v v', ((h.put (s + 4 * (k + p.words + t.words - 1)) v).put (s + 4 * k) v').prevBlkp
      (blk s (k + p.words)) = blk s k := fun v v' =>
    prevBlkp_eq (by rw [Heap.word_put_ne (by omega), Heap.word_put_ne (by omega)]; exact ha.prevFooter) h2' heven
      ha.prev.small
  unfold Heap.coalesce
  simp only [ha.prevAlloc, ha.nextAlloc, hp, hu]
  rw [if_neg (by decide), if_neg (by decide), if_pos (by decide)]
  simp only [ha.prevBlkp, hdrp_blk, ha.self.getSize_word, ha.prev.getSize_word, hsize, ha.self.ftrp' h2, hprev, hprev']
  refine ⟨_, rfl, ?_, rfl⟩
  rw [Nat.add_assoc k]
  exact .put' (show 2 ≤ p.words + t.words by omega) (show p.words + t.words < 2 ^ 29 by omega)

/-- Case 4. -/
theorem coalesce_both (nf : Bool) (ha : Around s h k p t u) (hp : p.taken = false) (hu : u.taken = false) (h2u : 2 ≤ u.words)
    (hfooter : h.word s (k + p.words + t.words + u.words - 1) = tag u) :
    ∃ h', h.coalesce nf (blk s (k + p.words)) = (h'.settleRover nf (blk s k), blk s k) ∧
      Written s k ⟨p.words + t.words + u.words, false⟩ h h' ∧ h'.rover = h.rover := by
  have heven := ha.prev.even
  have hshort := ha.short
  have h2 := ha.two_self
  have h2' := ha.two_prev
  have hsize : pack (4 * t.words + u32 (4 * p.words + 4 * u.words)) 0 = tag ⟨p.words + t.words + u.words, false⟩ := by
    rw [u32_eq (by omega), ← Nat.mul_add, ← Nat.mul_add, pack_free]
    congr 2
    omega
  have hnext : h.getSize (s + 4 * (k + p.words + t.words + u.words - 1)) = 4 * u.words :=
    Heap.getSize_of_tag hfooter ha.next.even ha.next.small
  -- the header of the block and the one behind it are still there after the first write, the footer before it
  -- after both
  have hself : ∀ v, Header s (h.put (s + 4 * k) v) (k + p.words) t := fun v =>
    ⟨by rw [Heap.word_put_ne (by omega)]; exact ha.self.tag, ha.self.even, ha.self.small⟩
  have hnext' : ∀ v, Header s (h.put (s + 4 * k) v) (k + p.words + t.words) u := fun v =>
    ⟨by rw [Heap.word_put_ne (by omega)]; exact ha.next.tag, ha.next.even, ha.next.small⟩
  have hprev : ∀ v v', ((h.put (s + 4 * k) v).put (s + 4 * (k + p.words + t.words + u.words - 1)) v').prevBlkp
      (blk s (k + p.words)) = blk s k := fun v v' =>
    prevBlkp_eq (by rw [Heap.word_put_ne (by omega), Heap.word_put_ne (by omega)]; exact ha.prevFooter) h2' heven
      ha.prev.small
  unfold Heap.coalesce
  simp only [ha.prevAlloc, ha.nextAlloc, hp, hu]
  rw [if_neg (by decide), if_neg (by decide), if_neg (by decide)]
  simp only [ha.prevBlkp, hdrp_blk, ha.self.nextBlkp, ha.self.getSize_word, ha.prev.getSize_word, ha.next.ftrp' h2u,
    hnext, hsize, (hself _).nextBlkp, (hnext' _).ftrp' h2u, hprev]
  refine ⟨_, rfl, ?_, rfl⟩
  rw [show k + p.words + t.words + u.words - 1 = k + (p.words + t.words + u.words) - 1 by omega]
  exact .put (show 2 ≤ p.words + t.words + u.words by omega) (show p.words + t.words + u.words < 2 ^ 29 by omega)

end Around

theorem around_of_tiled (hs : Sound (l.reverse ++ p :: t :: r)) (hline : Tiled tag (h.word s) 1 (l.reverse ++ p :: t :: r)) :
    Around s h (1 + span l) p t (r.headD Tile.fin) := by
  have hshort := hs.short
  rw [span_append, span_reverse, span_cons, span_cons] at hshort
  obtain ⟨-, hp⟩ := tiled_reverse_append.1 hline
  obtain ⟨h1, h2, h3, ht⟩ := tiled_cons.1 hp
  obtain ⟨h4, h5, -, hr⟩ := tiled_cons.1 ht
  have hu : (r.headD Tile.fin).words ≤ span r := by cases r <;> simp [Tile.fin]
  have heven : (r.headD Tile.fin).words % 2 = 0 := by
    cases r with
    | nil => rfl
    | cons u r => exact hs.even u (by simp)
  exact ⟨hs.header (by simp) h2, h3, hs.header (by simp) h5, ⟨hr.head, heven, by omega⟩, h1, h4, by omega⟩

/-- What is left of `coalesce` when the tags of the joined tile have been written over the tiles `ts`. -/
theorem coalesce_finish {b : Nat} (ts : List Tile) (hs : Sound z.line) (hline : Tiled tag (h.word s) 1 z.line)
    (hc : h.coalesce nf b = (h'.settleRover nf (blk s (1 + span z.coalesce.left)), blk s (1 + span z.coalesce.left)))
    (hw : Written s (1 + span z.coalesce.left) z.coalesce.tile h h') (he : h'.rover = h.rover)
    (hts : z.line = z.coalesce.left.reverse ++ ts ++ z.coalesce.right) (hspan : z.coalesce.tile.words = span ts)
    (h2 : 2 ≤ z.coalesce.tile.words) : ∃ h', h.coalesce nf b = (h', blk s (1 + span z.coalesce.left)) ∧
      Frame s (1 + span z.coalesce.left) z.coalesce.tile.words h h' ∧
      Tiled tag (h'.word s) 1 z.coalesce.line ∧ (RoverOk nf s h z.line → RoverOk nf s h' z.coalesce.line) := by
  refine ⟨_, hc, hw.settleRover.toFrame, hw.settleRover.tiled ts h2 hspan (hts ▸ hline), fun hr => ?_⟩
  refine hr.settle (fun v hv => ?_) he (hs.coalesce.header (by simp [Place.line]) hw.first)
  have := hline.two_le hv
  omega

/-- **`coalesce`** of a free block that has a block before it. -/
theorem coalesce_spec (nf : Bool) (hl : z.left ≠ []) (hs : Sound z.line) (hline : Tiled tag (h.word s) 1 z.line) :
    ∃ h', h.coalesce nf (blk s (1 + span z.left)) = (h', blk s (1 + span z.coalesce.left)) ∧
      Frame s (1 + span z.coalesce.left) z.coalesce.tile.words h h' ∧ Tiled tag (h'.word s) 1 z.coalesce.line ∧
      (RoverOk nf s h z.line → RoverOk nf s h' z.coalesce.line) := by
  obtain ⟨_ | ⟨p, l⟩, t, r⟩ := z
  · exact absurd rfl hl
  have hlist : (Place.mk (p :: l) t r).line = l.reverse ++ p :: t :: r := by simp [Place.line]
  have ha : Around s h (1 + span l) p t (r.headD Tile.fin) := around_of_tiled (hlist ▸ hs) (hlist ▸ hline)
  have h2 := ha.two_prev
  have h2' := ha.two_self
  have hpt : 1 + span (p :: l) = 1 + span l + p.words := by
    rw [span_cons]
    omega
  rw [hpt]
  rcases Place.coalesce_cases (p :: l) t r with ⟨hp, hu, hz⟩ | ⟨u, r', rfl, hp, hu, hz⟩ | ⟨_, _, he, hp, hu, hz⟩ |
    ⟨_, _, u, r', he, rfl, hp, hu, hz⟩
  · rw [hz]
    refine ⟨h, ?_, Frame.refl h, hline, id⟩
    rw [ha.coalesce_none hp hu, hpt]
  · obtain ⟨h', hc, hw, hr⟩ := ha.coalesce_next nf hp hu
    refine coalesce_finish [t, u] hs hline ?_ ?_ hr ?_ ?_ ?_ <;> rw [hz]
    · rw [hpt]
      exact hc
    · rw [hpt]
      exact hw
    · simp [Place.line]
    · simp
    · exact Nat.le_add_right_of_le h2'
  · obtain ⟨rfl, rfl⟩ := List.cons.inj he
    obtain ⟨h', hc, hw, hr⟩ := ha.coalesce_prev nf hp hu
    refine coalesce_finish [p, t] hs hline ?_ ?_ hr ?_ ?_ ?_ <;> rw [hz]
    · exact hc
    · exact hw
    · simp [Place.line]
    · simp
    · exact Nat.le_add_right_of_le h2
  · obtain ⟨rfl, rfl⟩ := List.cons.inj he
    have hline' := hline
    rw [hlist, tiled_reverse_append] at hline'
    obtain ⟨-, -, -, -, -, -, -, h2u, -, hfooter, -⟩ := hline'
    obtain ⟨h', hc, hw, hr⟩ := ha.coalesce_both nf hp hu h2u hfooter
    refine coalesce_finish [p, t, u] hs hline ?_ ?_ hr ?_ ?_ ?_ <;> rw [hz]
    · exact hc
    · exact hw
    · simp [Place.line]
    · simp
      omega
    · exact Nat.le_add_right_of_le (Nat.le_add_right_of_le h2)

end CsappLab.Implicit
