import CsappLab.Malloc.Ops

/-!
# `mm_realloc`

Five paths: the block stays, it is freed, it grows in place over the free neighbour behind it, it
moves to the front of the merged block, or a new block is allocated and the old one freed. In each of
them the client gets the old payload, up to the smaller size, at the new place (`Moved`).
-/

namespace CsappLab.Malloc
open ByteMem CInt Linked

variable {s e words size n : Nat} {h h₁ h₂ h₃ h' : Heap} {pre post bs bs' pre' post' : List Blk}
  {fl fl' : Nat → List Blk} {b c f t : Blk}

/-! ### The buffer -/

theorem roundToThousand_spec (hs : size ≤ MAX_HEAP) :
    ∃ n : Nat, roundToThousand size = n ∧ n % 2 = 0 ∧ n ≤ 2 ^ 25 := by
  rw [show MAX_HEAP = 20971520 by rfl] at hs
  unfold roundToThousand
  refine ⟨if size % 1000 ≥ 500 then size + 1000 - size % 1000 else size - size % 1000, ?_, ?_, ?_⟩
  · rw [u32_eq (by omega), i32_natCast (by split_ifs <;> omega)]
  all_goals split_ifs <;> omega

/-- `buffer_size` is even: the power of two is not 1, since 1 divides everything. -/
theorem bufferSize_spec (hs : size ≤ MAX_HEAP) : h.bufferSize size = .error .divideByZero ∨
    ∃ n : Nat, h.bufferSize size = .ok (n : Int) ∧ n % 2 = 0 ∧ n ≤ 2 ^ 25 := by
  obtain ⟨m, hm, hm2, hmle⟩ := roundToThousand_spec hs
  unfold Heap.bufferSize
  generalize absInt (i32 (size - h.previousSize)) = diff
  simp only [hm]
  rw [show ((1 <<< 12 : Nat) : Int) = 4096 by rfl]
  by_cases hd : diff < 4096
  · rw [if_pos hd]
    by_cases hz : roundUpPower2 diff = 0
    · exact .inl (by rw [if_pos hz])
    · rw [if_neg hz]
      by_cases ht : diff.tmod (roundUpPower2 diff) ≠ 0
      · rw [if_pos ht]
        have hpos : 0 < diff := by
          by_contra hle
          apply hz
          unfold roundUpPower2
          split_ifs <;> first | rfl | omega
        obtain ⟨k, hk, h1, h2⟩ := roundUpPower2_spec (x := diff.toNat) (by omega) (by omega)
        rw [Int.toNat_of_nonneg hpos.le] at hk
        rw [hk] at ht ⊢
        refine .inr ⟨2 ^ k, rfl, ?_, by omega⟩
        cases k with
        | zero => exact absurd (Int.tmod_one diff) ht
        | succ k => rw [pow_succ]; omega
      · exact .inr ⟨m, by rw [if_neg ht], hm2, hmle⟩
  · exact .inr ⟨m, by rw [if_neg hd], hm2, hmle⟩

theorem i32_even {m : Nat} (hm : m % 2 = 0) : i32 m % 2 = 0 := by
  unfold i32
  rw [BitVec.toInt_ofInt, Int.bmod_def]
  split_ifs <;> omega

theorem bufferSize_even {k : Int} (hk : h.bufferSize size = .ok k) : k % 2 = 0 := by
  have hround : roundToThousand size % 2 = 0 := by
    unfold roundToThousand u32
    exact i32_even (by split_ifs <;> omega)
  unfold Heap.bufferSize at hk
  generalize absInt (i32 (size - h.previousSize)) = diff at hk
  simp only [show ((1 <<< 12 : Nat) : Int) = 4096 by rfl] at hk
  split_ifs at hk with hd hz ht
  · cases hk
    have hpos : 0 < diff := by
      by_contra hle
      apply hz
      unfold roundUpPower2
      split_ifs <;> first | rfl | omega
    obtain ⟨j, hj, -, -⟩ := roundUpPower2_spec (x := diff.toNat) (by omega) (by omega)
    rw [Int.toNat_of_nonneg hpos.le] at hj
    rw [hj] at ht ⊢
    cases j with
    | zero => exact absurd (Int.tmod_one diff) ht
    | succ j => rw [pow_succ]; omega
  · cases hk; exact hround
  · cases hk; exact hround

theorem bufferSize_error {f : Fault} (hf : h.bufferSize size = .error f) : f = .divideByZero := by
  unfold Heap.bufferSize at hf
  simp only [] at hf
  split_ifs at hf
  cases hf
  rfl

theorem bufferSize_congr {g : Heap} (hg : g.previousSize = h.previousSize) :
    g.bufferSize size = h.bufferSize size := by
  unfold Heap.bufferSize
  rw [hg]

/-- No step of the size arithmetic of `mm_realloc` leaves its 32 bits, up to the rounding in
`mm_malloc` and `extend_heap`. -/
def Heap.ReallocFits (h : Heap) (size : Nat) : Prop :=
  ∀ k, h.bufferSize size = .ok k → 0 ≤ k ∧ 4 * (((size + 7) / 8 * 2 : Nat) + k) + 4 ≤ 2 ^ 32 - 16

theorem reallocFits_of_le (hs : size ≤ MAX_HEAP) : h.ReallocFits size := by
  intro k hk
  rw [show MAX_HEAP = 20971520 by rfl] at hs
  rcases bufferSize_spec (h := h) hs with hb | ⟨n, hb, -, hn⟩
  · rw [hb] at hk; cases hk
  · rw [hb] at hk
    cases hk
    omega

/-! ### The copy -/

theorem word_memmove {d c i : Nat} (hn : n * WORD_SIZE < 2 ^ 32)
    (hh : h' = { h with mem := memmove h.mem (addr s d) (addr s c) (u32 (n * WORD_SIZE)) }) :
    SameGlobals h h' ∧
      h'.word s i = if d ≤ i ∧ i < d + n then h.word s (c + (i - d)) else h.word s i := by
  subst hh
  refine ⟨⟨rfl, rfl, rfl, rfl, rfl, rfl⟩, ?_⟩
  unfold Heap.word addr
  rw [u32_eq hn, show n * WORD_SIZE = 4 * n from Nat.mul_comm _ _]
  split_ifs with hi
  · exact wordAt_memmove_in hi.1 hi.2
  · exact wordAt_memmove_out (by omega)

/-- The new block `t` holds the payload of `b`, up to the smaller size. -/
def Copied (s : Nat) (h h' : Heap) (b t : Blk) : Prop :=
  ∀ j, 1 ≤ j → j ≤ b.size → j ≤ t.size → h'.word s (t.hd + j) = h.word s (b.hd + j)

/-- What a reallocation that returns a block leaves. -/
structure Moved (s : Nat) (h h' : Heap) (bs : List Blk) (b : Blk) (size r : Nat) (t : Blk)
    (bs' : List Blk) : Prop where
  step : Step s h h' bs bs' (some b) (some t)
  ptr : r = addr s (t.hd + 1)
  fits : size ≤ 4 * t.size
  copied : Copied s h h' b t

theorem Moved.stay (hb : Live bs b) (hfit : size ≤ 4 * b.size) :
    Moved s h h bs b size (addr s (b.hd + 1)) b bs where
  step := by
    refine ⟨fun d => ?_, fun t ht _ => ht, fun d _ _ => .refl s h d⟩
    by_cases hd : d = b
    · subst hd; simp [hb]
    · simp [Ne.symm hd]
  ptr := rfl
  fits := hfit
  copied := fun _ _ _ _ => rfl

/-! ### Growing over the neighbours -/

theorem Coalesced.size_eq (hc : Coalesced s h h' e pre b post fl pre' c post' fl')
    (z : Hole s h e pre b.hd b.fin post fl) :
    ((prevBlk pre).taken = true → c.hd = b.hd) ∧
    c.size = b.size + (if (prevBlk pre).taken then 0 else (prevBlk pre).size + 2) +
      (if (nextBlk e post).taken then 0 else (nextBlk e post).size + 2) := by
  have hfin : c.hd + c.size + 2 = c.fin := rfl
  have hbf : b.hd + b.size + 2 = b.fin := rfl
  rcases hc.left with ⟨h1, -, h2⟩ | ⟨p, h1, rfl, h2, h3⟩ <;>
    rcases hc.right with ⟨h4, -, h5⟩ | ⟨m, h4, rfl, h5, h6⟩
  all_goals simp only [prevBlk_concat, nextBlk_cons, h1, h4, if_true, Bool.false_eq_true, if_false,
    IsEmpty.forall_iff, true_and, forall_true_left]
  all_goals unfold Blk.fin at *; omega

/-- **The in-place paths**: the freed block has been merged to `c`, the payload is at its front, and
`alloc_free_block` cuts off what is needed. -/
theorem Freed.realloc {post'' : List Blk} {fl'' : Nat → List Blk}
    (hfr : Freed s h h₁ h₂ e pre b f post fl pre' c post' fl')
    (z : Closed s h e (pre ++ b :: post) fl) (hb : b.taken = true) (hg : SameGlobals h₂ h₃)
    (hout : ∀ i, i ≤ c.hd ∨ c.hd + c.size < i → h₃.word s i = h₂.word s i)
    (hin : ∀ j, 1 ≤ j → j ≤ b.size → h₃.word s (c.hd + j) = h₂.word s (b.hd + j))
    (hbw : b.size ≤ words) (hfit : size ≤ 4 * words)
    (hall : ∀ g, Hole s g e pre' c.hd c.fin post' fl' → g.word s c.hd = c.tag →
      ∃ g', g.allocFreeBlock (ptr s c) words = .ok g' ∧ Allocated s g g' e pre' c words post' t post'' fl'') :
    ∃ h', h₃.allocFreeBlock (ptr s c) words = .ok h' ∧ Closed s h' e (pre' ++ t :: post'') fl'' ∧
      Moved s h h' (pre ++ b :: post) b size (addr s (c.hd + 1)) t (pre' ++ t :: post'') ∧
      h'.previousSize = h.previousSize := by
  have hc := hfr.merged
  have z3 : Hole s h₃ e pre' c.hd c.fin post' fl' := hc.hole.congr hg fun i hi => hout i <| by
    unfold Blk.fin at hi; omega
  obtain ⟨h', hal, hA⟩ := hall h₃ z3 ((hout _ (.inl le_rfl)).trans hc.tagged.1)
  obtain ⟨hl, hno⟩ := hfr.live z hb
  refine ⟨h', hal, hA.closed,
    ⟨hA.step z3 hl (fun d hd => by cases hd; exact hno) ?_, ?_, ?_, ?_⟩, ?_⟩
  · intro d hd hm
    refine (hfr.samePayload z hb hd hm).trans fun i h1 h2 => hout i ?_
    have := hc.hole.mem_outside hm
    unfold Blk.fin at this; omega
  · rw [hA.hd]
  · have := hA.size; omega
  · intro j h1 h2 h3
    rw [hA.hd, hA.front _ (by omega) (by omega), hin j h1 h2]
    exact hfr.samePayload_self _ (by omega) (by omega)
  · rw [hA.globals.prev, hg.prev, hc.globals.prev, hfr.written, writeTags_globals.prev]

/-! ### Allocating anew -/

theorem Closed.writePayload (z : Closed s h e bs fl) (ht : Live bs t) (hg : SameGlobals h h')
    (hw : ∀ i, i ≤ t.hd ∨ t.hd + t.size < i → h'.word s i = h.word s i) :
    Closed s h' e bs fl ∧ ∀ d, Live bs d → d ≠ t → SamePayload s h h' d := by
  obtain ⟨hmem, htk⟩ := ht
  have hr := z.regular t (.inl hmem)
  constructor
  · obtain ⟨pre, post, rfl⟩ := List.append_of_mem hmem
    have htag := (z.tagged hmem).congr (hw _ (.inl le_rfl)) (hw _ (.inr (by omega)))
    exact ((z.openTaken htk).congr hg fun i hi => hw i (by unfold Blk.fin at hi; omega)).closeTaken htag htk hr
  · intro d hd hne i h1 h2
    have := z.before.apart (by simp [hd.1]) (by simp [hmem]) hne
    unfold Blk.Apart Blk.fin at this
    exact hw i (by omega)

/-- **The last path** of `mm_realloc_wrapped`, when `mm_malloc` has served the request. -/
theorem Closed.moveTo {r : Nat} {bs₂ : List Blk} {fl₂ : Nat → List Blk} (z : Closed s h' e bs' fl')
    (hm : Handed s h h' bs size r t bs')
    (hb : Live bs b) (hle : b.size ≤ t.size) (hbs : b.size * WORD_SIZE < 2 ^ 32)
    (hh : h₁ = { h' with mem := memmove h'.mem r (addr s (b.hd + 1)) (u32 (b.size * WORD_SIZE)) })
    (hfree : ∀ g, Closed s g e bs' fl' → ∃ g', g.mmFree (addr s (b.hd + 1)) = .ok g' ∧
      Closed s g' e bs₂ fl₂ ∧ Step s g g' bs' bs₂ (some b) none ∧ g'.previousSize = g.previousSize) :
    ∃ h₂, h₁.mmFree (addr s (b.hd + 1)) = .ok h₂ ∧ Closed s h₂ e bs₂ fl₂ ∧
      Moved s h h₂ bs b size r t bs₂ ∧ h₂.previousSize = h'.previousSize := by
  have hlt : Live bs' t := (hm.step.live t).2 (.inr rfl)
  have hne : b ≠ t := fun h1 => by have := hm.step.fresh t rfl (h1 ▸ hb); cases this
  have hcopy := fun i => word_memmove (d := t.hd + 1) (c := b.hd + 1) (i := i) hbs (hm.ptr ▸ hh)
  obtain ⟨z1, hs1⟩ := z.writePayload hlt (hcopy 0).1 fun i hi => by
    rw [(hcopy i).2, if_neg (by omega)]
  obtain ⟨h₂, hf, z2, hs2, hp⟩ := hfree _ z1
  refine ⟨h₂, hf, z2, ⟨⟨?_, ?_, ?_⟩, hm.ptr, hm.fits,
    ?_⟩, hp.trans (hcopy 0).1.prev⟩
  · intro d
    rw [hs2.live d, hm.step.live d]
    by_cases hdt : t = d
    · subst hdt; simp [hne]
    · simp [hdt]
  · intro d hd hl
    have := hm.step.fresh d hd hl; cases this
  · intro d hd hdb
    have hd' : Live bs' d := (hm.step.live d).2 (.inl ⟨hd, by simp⟩)
    have hdt : d ≠ t := fun h1 => by have := hm.step.fresh t rfl (h1 ▸ hd); cases this
    exact ((hm.step.same d hd (by simp)).trans (hs1 d hd' hdt)).trans (hs2.same d hd' hdb)
  · intro j h1 h2 h3
    rw [hs2.same t hlt (by simp [hne]) _ (by omega) (by omega), (hcopy _).2, if_pos (by omega),
      show b.hd + 1 + (t.hd + j - (t.hd + 1)) = b.hd + j by omega]
    exact hm.step.same b hb (by simp) _ (by omega) (by omega)

/-- What `mm_realloc` of the taken block `b` can do when it completes. -/
inductive Reallocated (s : Nat) (h h' : Heap) (bs : List Blk) (b : Blk) (size : Nat) :
    Nat → List Blk → Prop
  | freed {bs' : List Blk} : size = 0 → Step s h h' bs bs' (some b) none → Reallocated s h h' bs b size NULL bs'
  | moved {r : Nat} {t : Blk} {bs' : List Blk} : Moved s h h' bs b size r t bs' → Reallocated s h h' bs b size r bs'

theorem headerOf_payload {r : Nat} (hfit : addr s (t.hd + 1) < 2 ^ 32) (hr : r = addr s (t.hd + 1)) :
    wrap32 (r - (WORD_SIZE : Nat)) = ptr s t ∧ ptr s t + WORD_SIZE = r ∧
      ptr s t + WORD_SIZE * HDR_SIZE = r ∧ u32 r = r := by
  unfold wrap32 u32 ptr addr WORD_SIZE HDR_SIZE at *
  omega

/-! ### The paths -/

/-- The in-place paths of `mm_realloc_wrapped`; when the block before is taken in, the payload moves. -/
def Heap.regrow (h : Heap) (bp oldSize words : Nat) (move : Bool) : Except Fault (Heap × Nat) := do
  let h := h.putWord bp (pack oldSize FREE)
  let h := h.putWord (h.ftrp bp) (pack oldSize FREE)
  let (h, c) := h.coalesce bp
  let h := if move then
      { h with mem := memmove h.mem (c + WORD_SIZE) (bp + WORD_SIZE) (u32 (oldSize * WORD_SIZE)) }
    else h
  let h ← h.allocFreeBlock c words
  .ok (h, c + WORD_SIZE * HDR_SIZE)

/-- The last path of `mm_realloc_wrapped`, for a request of `request` bytes. -/
def Heap.moveFresh (h : Heap) (old oldSize request : Nat) : Except Fault (Heap × Nat) := do
  let (h, r) ← h.mmMalloc request
  let bp := wrap32 (r - WORD_SIZE)
  if bp = NULL then .ok (h, NULL)
  else if u32 (bp + WORD_SIZE) = NULL then .error .copyToNull
  else
    let h := { h with mem := memmove h.mem (bp + WORD_SIZE) (old + WORD_SIZE) (u32 (oldSize * WORD_SIZE)) }
    let h ← h.mmFree (old + WORD_SIZE)
    .ok (h, bp + WORD_SIZE * HDR_SIZE)

theorem mmReallocWrapped_eq {p : Nat} {k : Int} (hp : p ≠ NULL) : h.mmReallocWrapped p size k =
    let bp := p - WORD_SIZE
    let newSize := align size / WORD_SIZE
    let words := wrap32 (newSize + k)
    let oldSize := h.getSize bp
    let prev := h.prevBlockInHeap bp
    let next := h.nextBlockInHeap bp
    if words = oldSize ∧ newSize ≤ words then .ok (h, bp + WORD_SIZE * HDR_SIZE)
    else if newSize = 0 then do
      let h ← h.mmFree p
      .ok (h, NULL)
    else if newSize > oldSize then
      if u32 (h.getSize next + oldSize + 2) ≥ words ∧ h.getStatus prev = TAKEN ∧ h.getStatus next = FREE then
        h.regrow bp oldSize words false
      else if u32 (h.getSize prev + oldSize + 2) ≥ words ∧ h.getStatus prev = FREE ∧
          h.getStatus next = TAKEN then h.regrow bp oldSize words true
      else if u32 (h.getSize prev + h.getSize next + oldSize + 4) ≥ words ∧ h.getStatus prev = FREE ∧
          h.getStatus next = FREE then h.regrow bp oldSize words true
      else h.moveFresh bp oldSize (u32 (u32 (words * WORD_SIZE) + WORD_SIZE))
    else .ok (h, bp + WORD_SIZE * HDR_SIZE) := by
  unfold Heap.mmReallocWrapped
  rw [if_neg hp]
  rfl

/-- **The in-place paths** of a taken block. -/
theorem Closed.regrow {move : Bool} (z : Closed s h e (pre ++ b :: post) fl) (hb : b.taken = true)
    (hw2 : 2 ≤ words) (hev : words % 2 = 0) (hbw : b.size ≤ words) (hfit : size ≤ 4 * words)
    (hle : words ≤ b.size + (if (prevBlk pre).taken then 0 else (prevBlk pre).size + 2) +
      (if (nextBlk e post).taken then 0 else (nextBlk e post).size + 2))
    (hmove : move = false → (prevBlk pre).taken = true) :
    ∃ r t bs' fl', ∀ g, Closed s g e (pre ++ b :: post) fl →
      ∃ g', g.regrow (ptr s b) b.size words move = .ok (g', r) ∧ Closed s g' e bs' fl' ∧
        Moved s g g' (pre ++ b :: post) b size r t bs' ∧ g'.previousSize = g.previousSize := by
  obtain ⟨f, pre', c, post', fl', hfree⟩ := z.freeBlock hb
  -- the sizes, from any heap with the layout
  obtain ⟨h₁, h₂, -, -, hfr⟩ := hfree h z
  obtain ⟨hchd, hcsz⟩ := hfr.merged.size_eq hfr.hole
  have hcov := hfr.merged.covers
  have e1 : f.hd = b.hd := by rw [hfr.free]
  have e2 : f.size = b.size := by rw [hfr.free]
  have e3 : f.fin = b.fin := by unfold Blk.fin; omega
  have hbd := hfr.merged.hole.bounds
  have hroom := z.room
  have hMAX : MAX_HEAP = 20971520 := rfl
  rw [e2] at hcsz
  obtain ⟨t, post'', fl'', hal⟩ := allocFreeBlock_spec (s := s) e pre' post' fl' hfr.merged.regular hw2 hev
    (show words ≤ c.size by omega)
  refine ⟨addr s (c.hd + 1), t, pre' ++ t :: post'', fl'', fun g zg => ?_⟩
  obtain ⟨g₁, g₂, hput, hco, hfr⟩ := hfree g zg
  have hbs : b.size * WORD_SIZE < 2 ^ 32 := by unfold WORD_SIZE; unfold Blk.fin at hbd; omega
  unfold Heap.regrow
  simp only [hput, hco]
  cases move with
  | false =>
    have hhd := (hchd (hmove rfl)).trans e1
    obtain ⟨g', hok, z', hm, hprev⟩ := hfr.realloc zg hb (.refl g₂) (fun _ _ => rfl)
      (fun j _ _ => by rw [hhd]) hbw hfit hal
    refine ⟨g', ?_, z', hm, hprev⟩
    simp only [Bool.false_eq_true, if_false, hok, bind, Except.bind]
    rw [← addr_add]
    rfl
  | true =>
    obtain ⟨g₃, hg₃⟩ : ∃ g₃, g₃ = { g₂ with
        mem := memmove g₂.mem (ptr s c + WORD_SIZE) (ptr s b + WORD_SIZE) (u32 (b.size * WORD_SIZE)) } :=
      ⟨_, rfl⟩
    have hcopy := fun i => word_memmove (d := c.hd + 1) (c := b.hd + 1) (i := i) hbs hg₃
    obtain ⟨g', hok, z', hm, hprev⟩ := hfr.realloc zg hb (hcopy 0).1
      (fun i hi => by rw [(hcopy i).2, if_neg (by omega)])
      (fun j h1 h2 => by
        rw [(hcopy _).2, if_pos (by omega), show b.hd + 1 + (c.hd + j - (c.hd + 1)) = b.hd + j by omega])
      hbw hfit hal
    refine ⟨g', ?_, z', hm, hprev⟩
    simp only [if_true, ← hg₃, hok, bind, Except.bind]
    rw [← addr_add]
    rfl

/-- Without a new block the copy goes to `NULL`, since `NULL - 1` passes the check. -/
theorem moveFresh_refused {h' : Heap} {bp n request : Nat} (hm : h.mmMalloc request = .ok (h', NULL)) :
    h.moveFresh bp n request = .error .copyToNull := by
  have hnull : wrap32 ((NULL : Nat) - (WORD_SIZE : Nat)) = 2 ^ 32 - 4 ∧ u32 (2 ^ 32 - 4 + WORD_SIZE) = NULL := by
    decide
  unfold Heap.moveFresh
  simp only [hm, bind, Except.bind, hnull.1]
  rw [if_neg (by decide), if_pos hnull.2]

/-- **The last path** of a taken block. -/
theorem Closed.moveFresh {request : Nat} (size : Nat) (z : Closed s h e bs fl) (hb : Live bs b) (h0 : 0 < request)
    (hreq : request ≤ 2 ^ 32 - 16) (hbr : 4 * b.size ≤ request) (hfit : size ≤ request) :
    (∀ g, Closed s g e bs fl → g.moveFresh (ptr s b) b.size request = .error .copyToNull) ∨
      ∃ r t e' bs' fl', ∀ g, Closed s g e bs fl →
        ∃ g', g.moveFresh (ptr s b) b.size request = .ok (g', r) ∧ Closed s g' e' bs' fl' ∧
          Moved s g g' bs b size r t bs' ∧ g'.previousSize = g.previousSize := by
  rcases z.mmMalloc h0 hreq with hmal | ⟨r, e', t, bs', fl', hmal⟩
  · exact .inl fun g zg => moveFresh_refused (hmal g zg)
  obtain ⟨h', -, z', hH, -⟩ := hmal h z
  have hlb : Live bs' b := (hH.step.live b).2 (.inl ⟨hb, by simp⟩)
  obtain ⟨bs₂, fl₂, hfree⟩ := z'.mmFree hlb
  refine .inr ⟨r, t, e', bs₂, fl₂, fun g zg => ?_⟩
  obtain ⟨g₁, hok, z₁, hH, hprev⟩ := hmal g zg
  have hlt : Live bs' t := (hH.step.live t).2 (.inr rfl)
  have htf := (z₁.mem_outside (.inl hlt.1)).elim (·.2) (·.2)
  have hbf := (zg.mem_outside (.inl hb.1)).elim (·.2) (·.2)
  have hbd := zg.bounds
  have hroom := z₁.room
  have hroom' := zg.room
  have hMAX : MAX_HEAP = 20971520 := rfl
  have hpos := zg.lists.start_pos
  have hft := zg.lists.fits
  have htr : addr s (t.hd + 1) < 2 ^ 32 := by unfold addr; unfold Blk.fin at htf; omega
  have hbs : b.size * WORD_SIZE < 2 ^ 32 := by unfold WORD_SIZE; unfold Blk.fin at hbf; omega
  obtain ⟨hrb, hrb', hret, hur⟩ := headerOf_payload htr hH.ptr
  have hr0 : r ≠ NULL := by rw [hH.ptr]; exact addr_pos hpos
  have hold : ptr s b + WORD_SIZE = addr s (b.hd + 1) := by unfold ptr addr WORD_SIZE; omega
  obtain ⟨g₂, hg₂⟩ : ∃ g₂, g₂ =
    { g₁ with mem := memmove g₁.mem r (addr s (b.hd + 1)) (u32 (b.size * WORD_SIZE)) } := ⟨_, rfl⟩
  obtain ⟨g', hf, z', hm, hprev'⟩ :=
    z₁.moveTo hH hb (by have := hH.fits; omega) hbs hg₂ hfree
  refine ⟨g', ?_, z', ⟨hm.step, hm.ptr, hfit.trans hm.fits, hm.copied⟩, hprev'.trans hprev⟩
  unfold Heap.moveFresh
  simp only [hok, bind, Except.bind, hrb, hrb', hur, hold, ← hg₂, hf, hret]
  rw [if_neg (show ptr s t ≠ NULL from addr_pos hpos), if_neg hr0]

/-! ### The choice of the path -/

/-- `mm_realloc_wrapped` of a taken block with its macros evaluated, when the size arithmetic does not
wrap. -/
theorem Closed.mmReallocWrapped_eq {w : Nat} (z : Closed s h e (pre ++ b :: post) fl) (hb : b.taken = true)
    (hw : w = (size + 7) / 8 * 2) (hfit : 4 * (w + n) + 4 ≤ 2 ^ 32 - 16) :
    h.mmReallocWrapped (addr s (b.hd + 1)) size n =
      if w + n = b.size ∧ w ≤ w + n then .ok (h, addr s (b.hd + 1))
      else if w = 0 then do
        let h ← h.mmFree (addr s (b.hd + 1))
        .ok (h, NULL)
      else if w > b.size then
        if (nextBlk e post).size + b.size + 2 ≥ w + n ∧ (prevBlk pre).taken.toNat = TAKEN ∧
            (nextBlk e post).taken.toNat = FREE then h.regrow (ptr s b) b.size (w + n) false
        else if (prevBlk pre).size + b.size + 2 ≥ w + n ∧ (prevBlk pre).taken.toNat = FREE ∧
            (nextBlk e post).taken.toNat = TAKEN then h.regrow (ptr s b) b.size (w + n) true
        else if (prevBlk pre).size + (nextBlk e post).size + b.size + 4 ≥ w + n ∧
            (prevBlk pre).taken.toNat = FREE ∧ (nextBlk e post).taken.toNat = FREE then
          h.regrow (ptr s b) b.size (w + n) true
        else h.moveFresh (ptr s b) b.size (4 * (w + n) + 4)
      else .ok (h, addr s (b.hd + 1)) := by
  have z0 := z.openTaken hb
  have hbt := z.tagged (b := b) (by simp)
  obtain ⟨hpf, hpt⟩ := z0.prevBlk_spec
  obtain ⟨hnh, hnt⟩ := z0.nextBlk_spec
  obtain ⟨n1, n2, n3, n4⟩ := z0.neighbours hbt
  have hMAX : MAX_HEAP = 20971520 := rfl
  have hroom := z.room
  have hbd := z0.bounds
  have hN : (nextBlk e post).fin ≤ e + 2 :=
    (z0.behind.mem (b := nextBlk e post) (by cases post <;> simp [nextBlk])).2.1
  unfold Blk.fin at hpf hN hbd
  have hp : addr s (b.hd + 1) - WORD_SIZE = ptr s b := by unfold ptr addr WORD_SIZE; omega
  have hp' : ptr s b + WORD_SIZE * HDR_SIZE = addr s (b.hd + 1) := addr_add _ _ _
  have hal : align size / WORD_SIZE = w := by
    rw [align_eq (by omega), show WORD_SIZE = 4 by rfl]; omega
  have hsum : wrap32 ((w : Nat) + (n : Int)) = w + n := wrap32_eq (n := w + n) (by omega)
  have hreq : u32 (u32 ((w + n) * WORD_SIZE) + WORD_SIZE) = 4 * (w + n) + 4 := by
    rw [show WORD_SIZE = 4 by rfl, u32_eq (show (w + n) * 4 < 2 ^ 32 by omega), u32_eq (by omega), Nat.mul_comm]
  rw [CsappLab.Malloc.mmReallocWrapped_eq (addr_pos z.lists.start_pos)]
  simp only [hp, hp', hal, hsum, hbt.getSize, n1, n2, n3, n4, hpt.getSize, hnt.getSize, hreq]
  rw [u32_eq (show (nextBlk e post).size + b.size + 2 < 2 ^ 32 by omega),
    u32_eq (show (prevBlk pre).size + b.size + 2 < 2 ^ 32 by omega),
    u32_eq (show (prevBlk pre).size + (nextBlk e post).size + b.size + 4 < 2 ^ 32 by omega)]

/-- **`mm_realloc_wrapped`** of a taken block. The only fault is the copy to `NULL`, and what happens
depends on the layout alone. -/
theorem Closed.mmReallocWrapped (size n : Nat) (z : Closed s h e bs fl) (hb : Live bs b) (hn : n % 2 = 0)
    (hfit : 4 * ((size + 7) / 8 * 2 + n) + 4 ≤ 2 ^ 32 - 16) :
    (∀ g, Closed s g e bs fl → g.mmReallocWrapped (addr s (b.hd + 1)) size n = .error .copyToNull) ∨
      ∃ r e' bs' fl', ∀ g, Closed s g e bs fl →
        ∃ g', g.mmReallocWrapped (addr s (b.hd + 1)) size n = .ok (g', r) ∧
        Closed s g' e' bs' fl' ∧ Reallocated s g g' bs b size r bs' ∧ g'.previousSize = g.previousSize := by
  obtain ⟨hmem, htk⟩ := hb
  obtain ⟨pre, post, rfl⟩ := List.append_of_mem hmem
  obtain ⟨w, hw⟩ : ∃ w, w = (size + 7) / 8 * 2 := ⟨_, rfl⟩
  rw [← hw] at hfit
  have heq := fun g (zg : Closed s g e (pre ++ b :: post) fl) => zg.mmReallocWrapped_eq htk hw hfit
  by_cases h1 : w + n = b.size ∧ w ≤ w + n
  · refine .inr ⟨addr s (b.hd + 1), e, _, fl, fun g zg => ⟨g, ?_, zg, .moved (.stay ⟨hmem, htk⟩ (by omega)), rfl⟩⟩
    rw [heq g zg, if_pos h1]
  by_cases h2 : w = 0
  · obtain ⟨bs', fl', hfree⟩ := z.mmFree ⟨hmem, htk⟩
    refine .inr ⟨NULL, e, bs', fl', fun g zg => ?_⟩
    obtain ⟨g', hf, z', hst, hprev⟩ := hfree g zg
    refine ⟨g', ?_, z', .freed (by omega) hst, hprev⟩
    rw [heq g zg, if_neg h1, if_pos h2, hf]
    rfl
  by_cases h3 : w > b.size
  swap
  · refine .inr ⟨addr s (b.hd + 1), e, _, fl, fun g zg => ⟨g, ?_, zg, .moved (.stay ⟨hmem, htk⟩ (by omega)), rfl⟩⟩
    rw [heq g zg, if_neg h1, if_neg h2, if_neg h3]
  -- a path that grows in place is chosen only when the merged block is large enough
  have hgrow : ∀ move : Bool, (∀ g, Closed s g e (pre ++ b :: post) fl →
      g.mmReallocWrapped (addr s (b.hd + 1)) size n = g.regrow (ptr s b) b.size (w + n) move) →
      w + n ≤ b.size + (if (prevBlk pre).taken then 0 else (prevBlk pre).size + 2) +
        (if (nextBlk e post).taken then 0 else (nextBlk e post).size + 2) →
      (move = false → (prevBlk pre).taken = true) →
      ∃ r e' bs' fl', ∀ g, Closed s g e (pre ++ b :: post) fl →
        ∃ g', g.mmReallocWrapped (addr s (b.hd + 1)) size n = .ok (g', r) ∧ Closed s g' e' bs' fl' ∧
          Reallocated s g g' (pre ++ b :: post) b size r bs' ∧ g'.previousSize = g.previousSize :=
    fun move hpath hle hmove => by
      obtain ⟨r, t, bs', fl', hre⟩ := z.regrow htk (show 2 ≤ w + n by omega) (by omega) (by omega)
        (show size ≤ 4 * (w + n) by omega) hle hmove
      refine ⟨r, e, bs', fl', fun g zg => ?_⟩
      obtain ⟨g', hok, z', hm, hprev⟩ := hre g zg
      exact ⟨g', (hpath g zg).trans hok, z', .moved hm, hprev⟩
  by_cases h4 : (nextBlk e post).size + b.size + 2 ≥ w + n ∧ (prevBlk pre).taken.toNat = TAKEN ∧
      (nextBlk e post).taken.toNat = FREE
  · -- over the block behind: the payload stays where it is
    have h5 : (prevBlk pre).taken = true := by simpa [TAKEN] using h4.2.1
    have h6 : (nextBlk e post).taken = false := by simpa [FREE] using h4.2.2
    refine .inr (hgrow false ?_ ?_ fun _ => h5)
    · intro g zg
      rw [heq g zg, if_neg h1, if_neg h2, if_pos h3, if_pos h4]
    · simp only [h5, h6, if_true, Bool.false_eq_true, if_false]; omega
  by_cases h5 : (prevBlk pre).size + b.size + 2 ≥ w + n ∧ (prevBlk pre).taken.toNat = FREE ∧
      (nextBlk e post).taken.toNat = TAKEN
  · -- over the block before
    have h6 : (prevBlk pre).taken = false := by simpa [FREE] using h5.2.1
    refine .inr (hgrow true (fun g zg => ?_) ?_ (by simp))
    · rw [heq g zg, if_neg h1, if_neg h2, if_pos h3, if_neg h4, if_pos h5]
    · simp only [h6, Bool.false_eq_true, if_false]; omega
  by_cases h6 : (prevBlk pre).size + (nextBlk e post).size + b.size + 4 ≥ w + n ∧
      (prevBlk pre).taken.toNat = FREE ∧ (nextBlk e post).taken.toNat = FREE
  · -- over both
    have h7 : (prevBlk pre).taken = false := by simpa [FREE] using h6.2.1
    have h8 : (nextBlk e post).taken = false := by simpa [FREE] using h6.2.2
    refine .inr (hgrow true ?_ ?_ (by simp))
    · intro g zg
      rw [heq g zg, if_neg h1, if_neg h2, if_pos h3, if_neg h4, if_neg h5, if_pos h6]
    · simp only [h7, h8, Bool.false_eq_true, if_false]; omega
  -- a new block
  have heq' : ∀ g, Closed s g e (pre ++ b :: post) fl → g.mmReallocWrapped (addr s (b.hd + 1)) size n =
      g.moveFresh (ptr s b) b.size (4 * (w + n) + 4) := by
    intro g zg
    rw [heq g zg, if_neg h1, if_neg h2, if_pos h3, if_neg h4, if_neg h5, if_neg h6]
  rcases z.moveFresh size ⟨hmem, htk⟩ (show 0 < 4 * (w + n) + 4 by omega) hfit (by omega) (by omega) with
    hno | ⟨r, t, e', bs', fl', hok⟩
  · exact .inl fun g zg => (heq' g zg).trans (hno g zg)
  · refine .inr ⟨r, e', bs', fl', fun g zg => ?_⟩
    obtain ⟨g', h7, z', hm, hprev⟩ := hok g zg
    exact ⟨g', (heq' g zg).trans h7, z', .moved hm, hprev⟩

theorem Closed.setPrevious (z : Closed s h e bs fl) (x : Int) :
    Closed s { h with previousSize := x } e bs fl :=
  ⟨z.lists.congr rfl (fun _ _ => rfl) fun _ _ _ => rfl, z.start, z.brk, z.max, z.room, z.first, z.before,
    z.width, z.behind, z.mem, z.regular, z.sepPre, z.sepPost⟩

theorem Reallocated.setPrevious {r : Nat} (hr : Reallocated s h h' bs b size r bs') (x : Int) :
    Reallocated s h { h' with previousSize := x } bs b size r bs' := by
  cases hr with
  | freed h0 hst => exact .freed h0 ⟨hst.live, hst.fresh, hst.same⟩
  | moved hm => exact .moved ⟨⟨hm.step.live, hm.step.fresh, hm.step.same⟩, hm.ptr, hm.fits, hm.copied⟩

/-- **`mm_realloc`** of a taken block, when no size wraps. The only faults are the division by zero and
the copy to `NULL`; what happens depends on the layout and on `previous_size` alone. -/
theorem Closed.mmRealloc (z : Closed s h e bs fl) (hb : Live bs b) (hs : h.ReallocFits size) :
    (∃ f, f ≠ .endlessLoop ∧ ∀ g, Closed s g e bs fl → g.previousSize = h.previousSize →
      g.mmRealloc (addr s (b.hd + 1)) size = .error f) ∨
    ∃ r e' bs' fl', ∀ g, Closed s g e bs fl → g.previousSize = h.previousSize →
      ∃ g', g.mmRealloc (addr s (b.hd + 1)) size = .ok (g', r) ∧ Closed s g' e' bs' fl' ∧
        Reallocated s g g' bs b size r bs' ∧ g'.previousSize = i32 size := by
  unfold Heap.mmRealloc
  rcases hbuf : h.bufferSize size with f | k
  · refine .inl ⟨f, ?_, fun g zg hg => by rw [bufferSize_congr hg, hbuf]; rfl⟩
    rw [bufferSize_error hbuf]
    decide
  obtain ⟨h0, hfit⟩ := hs k hbuf
  obtain ⟨n, rfl⟩ : ∃ n : Nat, k = n := ⟨k.toNat, by omega⟩
  have hev := bufferSize_even hbuf
  rcases z.mmReallocWrapped size n hb (by omega) (by omega) with hr | ⟨r, e', bs', fl', hr⟩
  · refine .inl ⟨.copyToNull, by decide, fun g zg hg => ?_⟩
    rw [bufferSize_congr hg, hbuf]
    simp only [bind, Except.bind, hr g zg]
  · refine .inr ⟨r, e', bs', fl', fun g zg hg => ?_⟩
    obtain ⟨g', hok, z', hre, -⟩ := hr g zg
    refine ⟨{ g' with previousSize := i32 size }, ?_, z'.setPrevious _, hre.setPrevious _, rfl⟩
    rw [bufferSize_congr hg, hbuf]
    simp only [bind, Except.bind, hok]

end CsappLab.Malloc
