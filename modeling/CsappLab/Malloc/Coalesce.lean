import CsappLab.Malloc.Hole

/-!
# `coalesce`

`coalesce` is called on the free block in the hole. It takes the free neighbours into the hole and
writes one pair of tags over all of it (`Coalesced`). Apart from these two tags only words of the free
lists change, so the payload of every block that was taken, and of the block itself, is kept.
-/

namespace CsappLab.Malloc
open ByteMem CInt Linked

variable {s e a m k : Nat} {h h' : Heap} {pre post bs : List Blk} {fl : Nat → List Blk} {b c p n : Blk}

/-! ### The macros on tagged blocks -/

namespace Tagged

theorem getSize (ht : Tagged s h b) : h.getSize (ptr s b) = b.size := by
  unfold ptr; rw [Heap.getSize_addr, ht.1, Blk.tag_div]

theorem getStatus (ht : Tagged s h b) : h.getStatus (ptr s b) = b.taken.toNat := by
  unfold ptr; rw [Heap.getStatus_addr, ht.1, Blk.tag_mod]

theorem getTotalSize (ht : Tagged s h b) : h.getTotalSize (ptr s b) = b.size + 2 := by
  unfold ptr; rw [Heap.getTotalSize_addr, ht.1, Blk.tag_div]

theorem ftrp (ht : Tagged s h b) : h.ftrp (ptr s b) = addr s (b.hd + b.size + 1) := by
  unfold ptr; rw [Heap.ftrp_addr, ht.1, Blk.tag_div]

theorem nextBlockInHeap (ht : Tagged s h b) : h.nextBlockInHeap (ptr s b) = addr s b.fin := by
  unfold ptr; rw [Heap.nextBlockInHeap_addr, ht.1, Blk.tag_div]; rfl

theorem prevBlockInHeap (ht : Tagged s h p) (hp : p.fin = b.hd) :
    h.prevBlockInHeap (ptr s b) = ptr s p := by
  have e1 : b.hd - 1 = p.hd + p.size + 1 := by unfold Blk.fin at hp; omega
  have e2 : h.word s (b.hd - 1) / 8 = p.size := by rw [e1, ht.2, Blk.tag_div]
  unfold ptr
  rw [Heap.prevBlockInHeap_addr (by rw [e2]; unfold Blk.fin at hp; omega), e2]
  congr 1; unfold Blk.fin at hp; omega

theorem congr (ht : Tagged s h b) (h1 : h'.word s b.hd = h.word s b.hd)
    (h2 : h'.word s (b.hd + b.size + 1) = h.word s (b.hd + b.size + 1)) : Tagged s h' b :=
  ⟨h1.trans ht.1, h2.trans ht.2⟩

theorem putWord {i v : Nat} (ht : Tagged s h b) (h1 : i ≠ b.hd) (h2 : i ≠ b.hd + b.size + 1) :
    Tagged s (h.putWord (addr s i) v) b :=
  ht.congr (Heap.word_put_ne h1.symm) (Heap.word_put_ne h2.symm)

end Tagged

def writeTags (s : Nat) (h : Heap) (b : Blk) : Heap :=
  (h.putWord (ptr s b) b.tag).putWord (addr s (b.hd + b.size + 1)) b.tag

theorem writeTags_globals : SameGlobals h (writeTags s h b) :=
  ((SameGlobals.refl h).putWord _ _).putWord _ _

theorem writeTags_word {i : Nat} (h1 : i ≠ b.hd) (h2 : i ≠ b.hd + b.size + 1) :
    (writeTags s h b).word s i = h.word s i := by
  unfold writeTags ptr; rw [Heap.word_put_ne h2, Heap.word_put_ne h1]

theorem writeTags_tagged (hb : b.size < 2 ^ 29) : Tagged s (writeTags s h b) b := by
  unfold writeTags ptr
  exact ⟨by rw [Heap.word_put_ne (by omega), Heap.word_put_same (Blk.tag_lt hb)],
    Heap.word_put_same (Blk.tag_lt hb)⟩

namespace Hole

theorem prevBlk_spec (z : Hole s h e pre a m post fl) :
    (prevBlk pre).fin = a ∧ Tagged s h (prevBlk pre) := by
  have hb := z.before
  rcases List.eq_nil_or_concat pre with rfl | ⟨l, p, rfl⟩
  · obtain ⟨-, h2, h3, h4⟩ := tiled_singleton.1 hb
    exact ⟨h4, h2, h3⟩
  · rw [List.concat_eq_append] at *
    rw [← List.cons_append] at hb
    obtain ⟨x, -, h1⟩ := tiled_append.1 hb
    obtain ⟨-, h2, h3, h4⟩ := tiled_singleton.1 h1
    rw [prevBlk_concat]
    exact ⟨h4, h2, h3⟩

theorem nextBlk_spec (z : Hole s h e pre a m post fl) :
    (nextBlk e post).hd = m ∧ Tagged s h (nextBlk e post) := by
  have hb := z.behind
  cases post with
  | nil => obtain ⟨h1, h2, h3, -⟩ := tiled_singleton.1 hb
           exact ⟨h1, h2, h3⟩
  | cons n l => obtain ⟨h1, h2, h3, -⟩ := tiled_cons.1 hb
                exact ⟨h1, h2, h3⟩

theorem retag (z : Hole s h e pre b.hd b.fin post fl) :
    Hole s (writeTags s h b) e pre b.hd b.fin post fl ∧ Tagged s (writeTags s h b) b := by
  refine ⟨z.congr writeTags_globals fun i hi => writeTags_word ?_ ?_,
    writeTags_tagged (z.size_lt z.bounds.2.1)⟩
  all_goals unfold Blk.fin at hi; omega

end Hole

/-- The result of `coalesce` on the block `b` in the hole: the block `c` in a hole that has grown over
the free neighbours. -/
structure Coalesced (s : Nat) (h h' : Heap) (e : Nat) (pre : List Blk) (b : Blk) (post : List Blk)
    (fl : Nat → List Blk) (pre' : List Blk) (c : Blk) (post' : List Blk) (fl' : Nat → List Blk) :
    Prop where
  hole : Hole s h' e pre' c.hd c.fin post' fl'
  globals : SameGlobals h h'
  tagged : Tagged s h' c
  free : c.taken = false
  regular : c.Regular
  left : (prevBlk pre).taken = true ∧ pre' = pre ∧ c.hd = b.hd ∨
    ∃ p, p.taken = false ∧ pre = pre' ++ [p] ∧ c.hd = p.hd ∧ p.fin = b.hd
  right : (nextBlk e post).taken = true ∧ post' = post ∧ c.fin = b.fin ∨
    ∃ n, n.taken = false ∧ post = n :: post' ∧ c.fin = n.fin ∧ n.hd = b.fin
  prevTaken : (prevBlk pre').taken = true
  nextTaken : (nextBlk e post').taken = true
  keep : ∀ i, ¬ ListWord fl i → i ≠ c.hd → i ≠ c.hd + c.size + 1 → h'.word s i = h.word s i

theorem prevBlk_cases (pre : List Blk) : (prevBlk pre).taken = true ∨
    ∃ l p, pre = l ++ [p] ∧ p.taken = false ∧ prevBlk pre = p := by
  rcases List.eq_nil_or_concat pre with rfl | ⟨l, p, rfl⟩
  · exact .inl rfl
  · rw [List.concat_eq_append, prevBlk_concat]
    cases hp : p.taken
    · exact .inr ⟨l, p, rfl, hp, rfl⟩
    · exact .inl rfl

theorem nextBlk_cases (e : Nat) (post : List Blk) : (nextBlk e post).taken = true ∨
    ∃ n l, post = n :: l ∧ n.taken = false ∧ nextBlk e post = n := by
  cases post with
  | nil => exact .inl rfl
  | cons n l =>
    cases hn : n.taken
    · exact .inr ⟨n, l, rfl, hn, rfl⟩
    · exact .inl hn

theorem Hole.mergeTags (z : Hole s h e pre c.hd c.fin post fl) (hc : c.taken = false)
    (ht : Tagged s h n) (hlt : c.hd < n.hd) (hf : n.fin = c.fin) :
    (h.putWord (ptr s c) (pack c.size FREE)).putWord
      ((h.putWord (ptr s c) (pack c.size FREE)).ftrp (ptr s n)) (pack c.size FREE) = writeTags s h c := by
  have hput : Tagged s (h.putWord (ptr s c) c.tag) n := ht.putWord (by omega) (by omega)
  have hft : n.hd + n.size + 1 = c.hd + c.size + 1 := by unfold Blk.fin at hf; omega
  rw [Blk.pack_tag_free (z.size_lt z.bounds.2.1) hc, hput.ftrp, hft]
  rfl

theorem Hole.neighbours (z : Hole s h e pre b.hd b.fin post fl) (ht : Tagged s h b) :
    h.prevBlockInHeap (ptr s b) = ptr s (prevBlk pre) ∧ h.nextBlockInHeap (ptr s b) = ptr s (nextBlk e post) ∧
      h.getStatus (ptr s (prevBlk pre)) = (prevBlk pre).taken.toNat ∧
      h.getStatus (ptr s (nextBlk e post)) = (nextBlk e post).taken.toNat := by
  obtain ⟨hpf, hpt⟩ := z.prevBlk_spec
  obtain ⟨hnh, hnt⟩ := z.nextBlk_spec
  refine ⟨hpt.prevBlockInHeap hpf, ?_, hpt.getStatus, hnt.getStatus⟩
  rw [ht.nextBlockInHeap]
  unfold ptr
  rw [hnh]

/-- **`coalesce`** merges the free block in the hole with its free neighbours. What comes out depends on
the layout alone: it is the same for every heap that has it. -/
theorem coalesce_spec (e : Nat) (pre post : List Blk) (fl : Nat → List Blk) (hb : b.taken = false)
    (hr : b.Regular) : ∃ pre' c post' fl', ∀ h, Hole s h e pre b.hd b.fin post fl → Tagged s h b →
      ∃ h', h.coalesce (ptr s b) = (h', ptr s c) ∧ Coalesced s h h' e pre b post fl pre' c post' fl' := by
  rcases prevBlk_cases pre with hp | ⟨pre', p, rfl, hp, hpe⟩ <;>
    rcases nextBlk_cases e post with hn | ⟨n, post', rfl, hn, hne⟩
  · -- both neighbours are taken
    refine ⟨pre, b, post, fl, fun h z ht => ⟨h, ?_, z, .refl h, ht, hb, hr, .inl ⟨hp, rfl, rfl⟩,
      .inl ⟨hn, rfl, rfl⟩, hp, hn, fun _ _ _ _ => rfl⟩⟩
    obtain ⟨n1, n2, n3, n4⟩ := z.neighbours ht
    unfold Heap.coalesce
    simp only [n1, n2, n3, n4, hp, hn]
    rfl
  · -- the block behind is free
    obtain ⟨c, hc1, hc2, hc3⟩ : ∃ c : Blk, c.hd = b.hd ∧ c.size = b.size + (n.size + 2) ∧
      c.taken = false := ⟨⟨_, _, false⟩, rfl, rfl, rfl⟩
    refine ⟨pre, c, post', unlist fl n, fun h z ht => ?_⟩
    obtain ⟨z1, hg, hw, ht1, h1⟩ := z.takeBehind hn
    have hbd := z1.bounds
    have hreg := z.regular n (.inr (by simp))
    have hcf : c.fin = n.fin := by unfold Blk.fin at *; omega
    rw [← hc1, ← hcf] at z1
    have hcs := z1.size_lt (b := c) (by omega)
    have hpc : ptr s b = ptr s c := by unfold ptr; rw [hc1]
    obtain ⟨z2, htc⟩ := z1.retag
    obtain ⟨n1, n2, n3, n4⟩ := z.neighbours ht
    unfold Heap.coalesce
    simp only [n1, n2, n3, n4, ht.getSize]
    rw [hne, if_neg (by rw [hp, hn]; decide), if_pos (by rw [hp, hn]; decide),
      ht1.getTotalSize, ← hc2, u32_eq (by omega), hpc,
      z1.mergeTags hc3 ht1 (by unfold Blk.fin at h1; omega) hcf.symm]
    refine ⟨_, rfl, z2, hg.trans writeTags_globals, htc, hc3, ?_,
      .inl ⟨hp, rfl, hc1⟩, .inr ⟨n, hn, rfl, hcf, h1⟩, hp,
      (Hole.taken_of_sep z.sepPost (List.nil_append _).symm hn).2, fun i hi h2 h3 => ?_⟩
    · unfold Blk.Regular at *; omega
    · rw [writeTags_word h2 h3, hw i hi]
  · -- the block before is free
    obtain ⟨c, hc1, hc2, hc3⟩ : ∃ c : Blk, c.hd = p.hd ∧ c.size = b.size + (p.size + 2) ∧
      c.taken = false := ⟨⟨_, _, false⟩, rfl, rfl, rfl⟩
    refine ⟨pre', c, post, unlist fl p, fun h z ht => ?_⟩
    obtain ⟨z1, hg, hw, ht1, h1⟩ := z.takeBefore hp
    have hbd := z1.bounds
    have hreg := z.regular p (.inl (by simp))
    have htb : Tagged s (h.removeBlockFromFreeList (ptr s p)) b :=
      ht.congr (hw _ (z.not_listWord le_rfl (by unfold Blk.fin; omega)))
        (hw _ (z.not_listWord (by omega) (by unfold Blk.fin; omega)))
    have hcf : c.fin = b.fin := by unfold Blk.fin at *; omega
    rw [← hc1, ← hcf] at z1
    have hcs := z1.size_lt (b := c) (by omega)
    have hpc : ptr s p = ptr s c := by unfold ptr; rw [hc1]
    obtain ⟨z2, htc⟩ := z1.retag
    obtain ⟨n1, n2, n3, n4⟩ := z.neighbours ht
    unfold Heap.coalesce
    simp only [n1, n2, n3, n4, ht.getSize]
    rw [hpe, if_neg (by rw [hp, hn]; decide), if_neg (by rw [hp, hn]; decide),
      if_pos (by rw [hp, hn]; decide), ht1.getTotalSize, ← hc2, u32_eq (by omega), hpc]
    rw [hpc] at htb z1 z2 htc hw hg
    rw [z1.mergeTags hc3 htb (by unfold Blk.fin at h1; omega) hcf.symm]
    refine ⟨_, rfl, z2, hg.trans writeTags_globals, htc, hc3, ?_,
      .inr ⟨p, hp, rfl, hc1, h1⟩, .inl ⟨hn, rfl, hcf⟩,
      (Hole.taken_of_sep (e := e) z.sepPre rfl hp).1, hn, ?_⟩
    · unfold Blk.Regular at *; omega
    · intro i hi h2 h3
      rw [writeTags_word h2 h3, hw i hi]
  · -- both neighbours are free
    obtain ⟨c, hc1, hc2, hc3⟩ : ∃ c : Blk, c.hd = p.hd ∧
      c.size = b.size + (p.size + 2 + (n.size + 2)) ∧ c.taken = false := ⟨⟨_, _, false⟩, rfl, rfl, rfl⟩
    refine ⟨pre', c, post', unlist (unlist fl p) n, fun h z ht => ?_⟩
    obtain ⟨z1, hg, hw, ht1, h1⟩ := z.takeBefore hp
    obtain ⟨z2, hg', hw', ht2, h2⟩ := z1.takeBehind hn
    have hbd := z2.bounds
    have hregp := z.regular p (.inl (by simp))
    have hregn := z.regular n (.inr (by simp))
    have ht1' := ht1.congr (hw' _ (z1.not_listWord le_rfl (by unfold Blk.fin at *; omega)))
      (hw' _ (z1.not_listWord (by omega) (by unfold Blk.fin at *; omega)))
    have hcf : c.fin = n.fin := by unfold Blk.fin at *; omega
    rw [← hc1, ← hcf] at z2
    have hcs := z2.size_lt (b := c) (by omega)
    have hpc : ptr s p = ptr s c := by unfold ptr; rw [hc1]
    obtain ⟨z3, htc⟩ := z2.retag
    have hlw : ∀ i, ¬ ListWord fl i → ¬ ListWord (unlist fl p) i := fun i hi h3 => hi (h3.imp id
      fun ⟨k, b, hb, h4⟩ => ⟨k, b, ((mem_unlist z.lists.sortedLists).1 hb).1, h4⟩)
    obtain ⟨n1, n2, n3, n4⟩ := z.neighbours ht
    unfold Heap.coalesce
    simp only [n1, n2, n3, n4, ht.getSize]
    rw [hpe, hne, if_neg (by rw [hp, hn]; decide), if_neg (by rw [hp, hn]; decide),
      if_neg (by rw [hp, hn]; decide), if_pos (by rw [hp, hn]; decide), ht1'.getTotalSize,
      ht2.getTotalSize, u32_eq (show p.size + 2 + (n.size + 2) < 2 ^ 32 by omega), ← hc2,
      u32_eq (by omega), hpc]
    rw [hpc] at z2 ht2 z3 htc hg hg' hw hw'
    rw [z2.mergeTags hc3 ht2 (by unfold Blk.fin at h1 h2; omega) hcf.symm]
    refine ⟨_, rfl, z3, (hg.trans hg').trans writeTags_globals,
      htc, hc3, ?_, .inr ⟨p, hp, rfl, hc1, h1⟩, .inr ⟨n, hn, rfl, hcf, h2⟩,
      (Hole.taken_of_sep (e := e) z.sepPre rfl hp).1,
      (Hole.taken_of_sep z.sepPost (List.nil_append _).symm hn).2, ?_⟩
    · unfold Blk.Regular at *; omega
    · intro i hi h2 h3
      rw [writeTags_word h2 h3, hw' i (hlw i hi), hw i hi]

end CsappLab.Malloc
