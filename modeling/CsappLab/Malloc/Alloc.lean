import CsappLab.Malloc.Coalesce

/-!
# `alloc_free_block` and `extend_heap`

`alloc_free_block` cuts the allocated block off the front of the block in the hole; what is left is
coalesced with the block behind it and placed. `extend_heap` turns the old epilog into the header of
a new free block at the end of the heap. `KeepsPayload` is the frame condition of all operations.
-/

namespace CsappLab.Malloc
open ByteMem CInt Linked

variable {s e a m k words : Nat} {h h' h'' : Heap} {pre post bs : List Blk} {fl : Nat → List Blk}
  {b c d t : Blk}

def SamePayload (s : Nat) (h h' : Heap) (d : Blk) : Prop :=
  ∀ i, d.hd < i → i ≤ d.hd + d.size → h'.word s i = h.word s i

theorem SamePayload.refl (s : Nat) (h : Heap) (d : Blk) : SamePayload s h h d := fun _ _ _ => rfl

theorem SamePayload.trans (h1 : SamePayload s h h' d) (h2 : SamePayload s h' h'' d) :
    SamePayload s h h'' d := fun i hi hi' => (h2 i hi hi').trans (h1 i hi hi')

/-- The status write of `mm.c`: the tag goes to the header and from there to the footer. -/
theorem putTags_eq (hb : b.size < 2 ^ 29) :
    (h.putWord (ptr s b) b.tag).putWord ((h.putWord (ptr s b) b.tag).ftrp (ptr s b)) b.tag =
      writeTags s h b := by
  have hft : (h.putWord (ptr s b) b.tag).ftrp (ptr s b) = addr s (b.hd + b.size + 1) := by
    unfold ptr
    rw [Heap.ftrp_addr, Heap.word_put_same (Blk.tag_lt hb), Blk.tag_div]
  rw [hft]; rfl

namespace Coalesced

variable {pre' post' : List Blk} {fl' : Nat → List Blk}

theorem covers (hc : Coalesced s h h' e pre b post fl pre' c post' fl') : c.hd ≤ b.hd ∧ b.fin ≤ c.fin := by
  constructor
  · rcases hc.left with ⟨-, -, h1⟩ | ⟨p, -, -, h1, h2⟩
    · exact h1.le
    · unfold Blk.fin at h2; omega
  · rcases hc.right with ⟨-, -, h1⟩ | ⟨n, -, -, h1, h2⟩
    · exact h1.ge
    · unfold Blk.fin at *; omega

theorem mem_taken (hc : Coalesced s h h' e pre b post fl pre' c post' fl') (hd : d.taken = true) :
    (d ∈ pre' ↔ d ∈ pre) ∧ (d ∈ post' ↔ d ∈ post) := by
  constructor
  · rcases hc.left with ⟨-, h1, -⟩ | ⟨p, hp, h1, -⟩
    · rw [h1]
    · have : d ≠ p := fun h2 => by rw [h2, hp] at hd; cases hd
      simp [h1, this]
  · rcases hc.right with ⟨-, h1, -⟩ | ⟨n, hn, h1, -⟩
    · rw [h1]
    · have : d ≠ n := fun h2 => by rw [h2, hn] at hd; cases hd
      simp [h1, this]

theorem samePayload (z : Hole s h e pre b.hd b.fin post fl)
    (hc : Coalesced s h h' e pre b post fl pre' c post' fl') (hd : d.taken = true)
    (hmem : d ∈ pre ∨ d ∈ post) : SamePayload s h h' d := by
  intro i h1 h2
  have ho := hc.hole.mem_outside (b := d)
    (hmem.imp (hc.mem_taken hd).1.2 (hc.mem_taken hd).2.2)
  refine hc.keep i (z.not_listWord_payload hmem hd h1 h2) ?_ ?_
  all_goals unfold Blk.fin at ho; omega

theorem samePayload_self (z : Hole s h e pre b.hd b.fin post fl)
    (hc : Coalesced s h h' e pre b post fl pre' c post' fl') : SamePayload s h h' b := by
  intro i h1 h2
  have := hc.covers
  unfold Blk.fin at this
  exact hc.keep i (z.not_listWord (by omega) (by unfold Blk.fin; omega)) (by omega) (by omega)

end Coalesced

namespace Hole

theorem pushTaken (z : Hole s h e pre t.hd m post fl) (ht : Tagged s h t) (htk : t.taken = true)
    (hr : t.Regular) (hm : t.fin ≤ m) : Hole s h e (pre ++ [t]) t.fin m post fl := by
  refine { z with before := ?_, width := hm, mem := ?_, regular := ?_, sepPre := ?_ }
  · rw [← List.cons_append]
    exact tiled_append.2 ⟨t.hd, z.before, rfl, ht.1, ht.2, rfl⟩
  · intro k c
    rw [z.mem k c]
    by_cases hc : c = t
    · subst hc; simp [htk]
    · simp [hc]
  · intro c hc
    simp only [List.mem_append, List.mem_singleton] at hc
    rcases hc with (hc | rfl) | hc
    · exact z.regular c (.inl hc)
    · exact hr
    · exact z.regular c (.inr hc)
  · refine z.sepPre.append (List.isChain_singleton _) fun p _ c hc => ?_
    obtain rfl : t = c := by simpa using hc
    exact .inr htk

theorem samePayload_of_frame (z : Hole s h e pre a m post fl) (hd : d.taken = true)
    (hmem : d ∈ pre ∨ d ∈ post)
    (hw : ∀ i, ¬ ListWord fl i → i < a ∨ m ≤ i → h'.word s i = h.word s i) : SamePayload s h h' d :=
  fun i h1 h2 => hw i (z.not_listWord_payload hmem hd h1 h2) <| by
    have := z.mem_outside hmem
    unfold Blk.fin at this; omega

end Hole

/-- What `alloc_free_block` does with the block `c` in the hole: a taken block `t` of at least
`words` words stands at its front, and the words that go to the client are as before. -/
structure Allocated (s : Nat) (h h' : Heap) (e : Nat) (pre : List Blk) (c : Blk) (words : Nat)
    (post : List Blk) (t : Blk) (post' : List Blk) (fl' : Nat → List Blk) : Prop where
  closed : Closed s h' e (pre ++ t :: post') fl'
  globals : SameGlobals h h'
  hd : t.hd = c.hd
  size : words ≤ t.size
  taken : t.taken = true
  rest : ∀ d, d.taken = true → (d ∈ post' ↔ d ∈ post)
  others : ∀ d, d.taken = true → d ∈ pre ∨ d ∈ post → SamePayload s h h' d
  front : ∀ i, c.hd < i → i ≤ c.hd + words → h'.word s i = h.word s i

theorem Hole.allocWhole (z : Hole s h e pre c.hd c.fin post fl) (hr : c.Regular) (hw : words ≤ c.size)
    (ht : t = ⟨c.hd, c.size, true⟩) :
    Allocated s h (writeTags s h t) e pre c words post t post fl := by
  have e1 : t.hd = c.hd := by rw [ht]
  have e2 : t.size = c.size := by rw [ht]
  have e3 : t.fin = c.fin := by rw [ht]; rfl
  rw [← e1, ← e3] at z
  obtain ⟨z', ht'⟩ := z.retag
  refine ⟨z'.closeTaken ht' (by rw [ht]) (by unfold Blk.Regular at *; omega), writeTags_globals, e1,
    by omega, by rw [ht], fun _ _ => Iff.rfl, fun d hd hmem => z.samePayload_of_frame hd hmem
      fun i _ h1 => ?_, fun i h1 h2 => ?_⟩
  all_goals
    refine writeTags_word ?_ ?_
    all_goals unfold Blk.fin at *; omega

/-- Cutting the allocated block `t` off the front; the rest `r` is coalesced and placed. -/
theorem allocFront_spec {r : Blk} (e : Nat) (pre post : List Blk) (fl : Nat → List Blk)
    (ht : t = ⟨c.hd, words, true⟩) (hr : r = ⟨c.hd + words + 2, c.size - words - 2, false⟩)
    (hw : t.Regular) (hrr : r.Regular) :
    ∃ p post' fl', ∀ h, Hole s h e pre c.hd c.fin post fl → ∃ h₁ h',
      (writeTags s (writeTags s h r) t).coalesce (ptr s r) = (h₁, p) ∧
      h₁.placeBlockIntoFreeList p = .ok h' ∧ Allocated s h h' e pre c words post t post' fl' := by
  have e1 : t.hd = c.hd := by rw [ht]
  have e2 : t.size = words := by rw [ht]
  have e3 : t.taken = true := by rw [ht]
  have e5 : r.taken = false := by rw [hr]
  have e7 : r.hd = c.hd + words + 2 := by rw [hr]
  have e8 : r.size = c.size - words - 2 := by rw [hr]
  obtain ⟨pre', c', post', fl', hcoal⟩ := coalesce_spec (s := s) e (pre ++ [t]) post fl e5 hrr
  refine ⟨ptr s c', c' :: post', enlist fl' c', fun h z => ?_⟩
  have hbd := z.bounds
  have h2 := hrr.1
  have e4 : r.hd = t.fin := by unfold Blk.fin; omega
  have e6 : r.fin = c.fin := by unfold Blk.fin; omega
  have hlo : t.fin ≤ r.hd ∧ t.hd < r.hd := by unfold Blk.fin at *; omega
  have hrs : r.size < 2 ^ 29 := z.size_lt (by omega)
  have hts : t.size < 2 ^ 29 := z.size_lt (by unfold Blk.fin at *; omega)
  -- the words of the hole are free for the two pairs of tags
  have hword : ∀ i, i ≠ r.hd → i ≠ r.hd + r.size + 1 → i ≠ t.hd → i ≠ t.hd + t.size + 1 →
      (writeTags s (writeTags s h r) t).word s i = h.word s i := by
    intro i h1 h2 h3 h4
    rw [writeTags_word h3 h4, writeTags_word h1 h2]
  have z1 : Hole s (writeTags s (writeTags s h r) t) e pre c.hd c.fin post fl :=
    z.congr (writeTags_globals.trans writeTags_globals) fun i hi => by
      refine hword i ?_ ?_ ?_ ?_ <;> unfold Blk.fin at * <;> omega
  have ht1 : Tagged s (writeTags s (writeTags s h r) t) t := writeTags_tagged hts
  have hr1 : Tagged s (writeTags s (writeTags s h r) t) r := by
    refine (writeTags_tagged hrs).congr (writeTags_word ?_ ?_) (writeTags_word ?_ ?_) <;>
      unfold Blk.fin at * <;> omega
  rw [← e1] at z1
  have z2 := z1.pushTaken ht1 e3 hw (by unfold Blk.fin at *; omega)
  rw [← e4, ← e6] at z2
  obtain ⟨h3, hco, hc⟩ := hcoal _ z2 hr1
  have hpre : pre' = pre ++ [t] := by
    rcases hc.left with ⟨-, h4, -⟩ | ⟨p, hp, h4, -⟩
    · exact h4
    · obtain rfl : t = p := by simpa using (List.append_inj' h4 rfl).2
      rw [e3] at hp; cases hp
  subst hpre
  obtain ⟨h4, hp, hg, hcl, hkeep⟩ := hc.hole.place hc.tagged hc.free hc.regular hc.prevTaken hc.nextTaken
  have hout : ∀ d, d.taken = true → d ∈ pre ++ [t] ∨ d ∈ post →
      SamePayload s (writeTags s (writeTags s h r) t) h4 d := fun d hd hmem =>
    (hc.samePayload z2 hd hmem).trans fun i h5 h6 => by
      have hmem' := hmem.imp (hc.mem_taken hd).1.2 (hc.mem_taken hd).2.2
      have ho := hc.hole.mem_outside hmem'
      have := hc.regular.1
      refine hkeep i (hc.hole.not_listWord_payload hmem' hd h5 h6) ?_ ?_ <;> unfold Blk.fin at ho <;> omega
  refine ⟨h3, h4, hco, hp, ?_⟩
  refine ⟨by simpa using hcl, ((writeTags_globals.trans writeTags_globals).trans hc.globals).trans hg, e1,
    e2.ge, e3, ?_, ?_, ?_⟩
  · intro d hd
    have : d ≠ c' := fun h5 => by rw [h5, hc.free] at hd; cases hd
    simp [this, (hc.mem_taken hd).2]
  · intro d hd hmem
    refine SamePayload.trans (fun i h5 h6 => ?_) (hout d hd (hmem.imp (by simp +contextual) id))
    have ho := z.mem_outside hmem
    refine hword i ?_ ?_ ?_ ?_ <;> unfold Blk.fin at * <;> omega
  · intro i h5 h6
    rw [hout t e3 (.inl (by simp)) i (by omega) (by omega)]
    refine hword i ?_ ?_ ?_ ?_ <;> unfold Blk.fin at * <;> omega

theorem Hole.allocSizes (z : Hole s h e pre c.hd c.fin post fl) (ht : h.word s c.hd = c.tag)
    (hw : words ≤ c.size) : c.size < 2 ^ 29 ∧ h.getSize (ptr s c) = c.size ∧
      u32 (c.size + 2) = c.size + 2 ∧ u32 (words + 2) = words + 2 ∧
      i32 (i32 ((c.size + 2 : Nat) - (words + 2 : Nat)) - (2 : Nat)) = (c.size : Int) - words - 2 := by
  have hcs := z.size_lt z.bounds.2.1
  refine ⟨hcs, ?_, u32_eq (by omega), u32_eq (by omega), ?_⟩
  · unfold ptr
    rw [Heap.getSize_addr, ht, Blk.tag_div]
  · rw [i32_eq (n := ((c.size + 2 : Nat) : Int) - (words + 2 : Nat)) (by omega) (by omega),
      i32_eq (by omega) (by omega)]
    omega

/-- **`alloc_free_block`** on the block in the hole. Its result depends on the layout alone. -/
theorem allocFreeBlock_spec (e : Nat) (pre post : List Blk) (fl : Nat → List Blk) (hr : c.Regular)
    (h2 : 2 ≤ words) (hev : words % 2 = 0) (hw : words ≤ c.size) :
    ∃ t post' fl', ∀ h, Hole s h e pre c.hd c.fin post fl → h.word s c.hd = c.tag →
      ∃ h', h.allocFreeBlock (ptr s c) words = .ok h' ∧
        Allocated s h h' e pre c words post t post' fl' := by
  have hreg := hr.2
  rcases Nat.lt_or_ge (words + 2) c.size with hlt | hge
  · -- the rest is a block of its own
    obtain ⟨r, hr'⟩ : ∃ r : Blk, r = ⟨c.hd + words + 2, c.size - words - 2, false⟩ := ⟨_, rfl⟩
    obtain ⟨t, ht'⟩ : ∃ t : Blk, t = ⟨c.hd, words, true⟩ := ⟨_, rfl⟩
    have e1 : r.hd = c.hd + words + 2 := by rw [hr']
    have e2 : r.size = c.size - words - 2 := by rw [hr']
    have e3 : t.hd = c.hd := by rw [ht']
    have e4 : t.size = words := by rw [ht']
    obtain ⟨p, post', fl', hfront⟩ := allocFront_spec (s := s) e pre post fl ht' hr'
      (by unfold Blk.Regular; omega) (by unfold Blk.Regular; omega)
    refine ⟨t, post', fl', fun h z ht => ?_⟩
    obtain ⟨h₁, h', hco, hp, hal⟩ := hfront h z
    obtain ⟨hcs, hsz, hbp, hnt, hdiff⟩ := z.allocSizes ht hw
    have hn : ((c.size : Int) - words - 2).toNat = r.size := by omega
    have hpr : ptr s c + WORD_SIZE * (words + 2) = ptr s r := by
      unfold ptr WORD_SIZE; rw [addr_add, e1, Nat.add_assoc]
    have hpt : ptr s c = ptr s t := by unfold ptr; rw [e3]
    refine ⟨h', ?_, hal⟩
    unfold Heap.allocFreeBlock
    simp only [hsz, HDR_FTR_SIZE, hbp, hnt, hdiff]
    rw [if_pos (by omega), hn, hpr, hpt, ← e4, Blk.pack_tag_free (by omega) (by rw [hr']),
      Blk.pack_tag_taken (by omega) (by rw [ht']), putTags_eq (by omega), putTags_eq (by omega), hco]
    exact hp
  · -- the whole block is allocated, two spare words included
    obtain ⟨t, ht'⟩ : ∃ t : Blk, t = ⟨c.hd, c.size, true⟩ := ⟨_, rfl⟩
    have e4 : t.size = c.size := by rw [ht']
    have hpt : ptr s c = ptr s t := by unfold ptr; rw [ht']
    refine ⟨t, post, fl, fun h z ht => ⟨_, ?_, z.allocWhole hr hw ht'⟩⟩
    obtain ⟨hcs, hsz, hbp, hnt, hdiff⟩ := z.allocSizes ht hw
    unfold Heap.allocFreeBlock
    simp only [hsz, HDR_FTR_SIZE, hbp, hnt, hdiff]
    rw [if_neg (by omega), ← putTags_eq (by omega), ← Blk.pack_tag_taken (by omega) (by rw [ht']), e4,
      hpt]
    split_ifs with h0
    · rw [show words + 2 = c.size by omega]
    · rw [show words = c.size by omega]

/-! ### Growing the heap -/

/-- What a successful `extend_heap` leaves: the free block `c` in a hole between the blocks and the new
epilog. -/
structure Extended (s : Nat) (h h' : Heap) (e words : Nat) (bs : List Blk) (fl : Nat → List Blk)
    (c : Blk) : Prop where
  hole : Hole s h' c.fin bs c.hd c.fin [] fl
  tagged : Tagged s h' c
  free : c.taken = false
  hd : c.hd = e
  size : c.size = (words + 1) / 2 * 2
  prev : h'.previousSize = h.previousSize
  others : ∀ d ∈ bs, SamePayload s h h' d

/-- **`extend_heap`** either leaves the heap alone or turns the old epilog into a new free block. A
request from `2 ^ 31` bytes on reaches `mem_sbrk` as a negative number. -/
theorem extendHeap_spec (e words : Nat) (bs : List Blk) (fl : Nat → List Blk) (hw : words ≤ 2 ^ 30 - 4) :
    (MAX_HEAP < 4 * (e + (words + 1) / 2 * 2 + 4) ∧
      ∀ h, Closed s h e bs fl → h.extendHeap words = (h, none)) ∨
    ∃ c, ∀ h, Closed s h e bs fl →
      ∃ h', h.extendHeap words = (h', some (ptr s c)) ∧ Extended s h h' e words bs fl c := by
  have hMAX : MAX_HEAP = 20971520 := rfl
  have hev : evenize words = (words + 1) / 2 * 2 := evenize_eq (by omega)
  obtain ⟨c, hc1, hc2, hc3⟩ : ∃ c : Blk, c.hd = e ∧ c.size = (words + 1) / 2 * 2 ∧ c.taken = false :=
    ⟨⟨_, _, false⟩, rfl, rfl, rfl⟩
  have htot : u32 (c.size + 2) = c.size + 2 := u32_eq (by omega)
  have hprod : u32 ((c.size + 2) * 4) = 4 * (c.size + 2) := by rw [u32_eq (by omega), Nat.mul_comm]
  have hf : c.fin = e + c.size + 2 := by unfold Blk.fin; omega
  have hsbrk : ∀ h, Closed s h e bs fl → 4 * (c.size + 2) < 2 ^ 31 →
      h.memSbrk (i32 (4 * (c.size + 2) : Nat)) = if MAX_HEAP < 4 * (c.fin + 2) then (h, none)
        else ({ h with memBrk := addr s (c.fin + 2) }, some (addr s (e + 2))) := by
    intro h z hlt
    have := Heap.memSbrk_words (n := c.size + 2) z.brk z.max
    rwa [← i32_natCast hlt, show e + 2 + (c.size + 2) = c.fin + 2 by omega] at this
  unfold Heap.extendHeap
  simp only [hev, ← hc2, HDR_FTR_SIZE, WORD_SIZE, htot, hprod]
  by_cases hlim : MAX_HEAP < 4 * (c.fin + 2)
  · refine .inl ⟨by omega, fun h z => ?_⟩
    by_cases hlt : 4 * (c.size + 2) < 2 ^ 31
    · rw [hsbrk h z hlt, if_pos hlim, ifPtr_none]
    · rw [Heap.memSbrk_neg (i32_neg (by omega) (by omega)), ifPtr_none]
  refine .inr ⟨c, fun h z => ?_⟩
  have hroom := z.room
  have hfit := z.lists.fits
  have hbd := z.bounds
  rw [hsbrk h z (by omega)]
  have hcs : c.size < 2 ^ 29 := by omega
  have hbp : addr s (e + 2) - 4 * EPILOG_SIZE = ptr s c := by unfold ptr EPILOG_SIZE addr; omega
  have hend : ptr s c + 4 * (c.size + 2) = ptr s (epilog c.fin) := by
    unfold ptr epilog addr; simp only; omega
  have hpe : pack 0 TAKEN = (epilog c.fin).tag := Blk.pack_tag_taken (b := epilog c.fin)
    (show 0 < 2 ^ 29 by decide) rfl
  rw [if_neg hlim]
  simp only [ifPtr_some, hbp, hend]
  rw [hpe, Blk.pack_tag_free hcs hc3, putTags_eq hcs,
    putTags_eq (show 0 < 2 ^ 29 by decide)]
  set h₁ : Heap := { h with memBrk := addr s (c.fin + 2) }
  set h₂ := writeTags s (writeTags s h₁ c) (epilog c.fin)
  have hword : ∀ i, i ≠ c.hd → i ≠ c.hd + c.size + 1 → i ≠ c.fin → i ≠ c.fin + 1 →
      h₂.word s i = h.word s i := by
    intro i h1 h2 h3 h4
    rw [writeTags_word h3 h4, writeTags_word h1 h2]; rfl
  have hg : SameGlobals h₁ h₂ := writeTags_globals.trans writeTags_globals
  refine ⟨h₂, rfl, ?_, ?_, hc3, hc1, hc2, hg.prev, ?_⟩
  · refine
      { lists := z.lists.congr hg.lists (fun i hi => ?_) (fun k b hb => ?_),
        start := hg.start.trans z.start, brk := hg.brk, max := hg.max.trans z.max,
        room := ?_, first := hg.first.trans z.first,
        before := ?_, width := ?_, behind := ?_, mem := z.mem, regular := z.regular, sepPre := z.sepPre,
        sepPost := .nil }
    · by_contra hne
      have : c.hd ≤ i := by
        by_contra hlt
        exact hne (hword i (by omega) (by omega) (by omega) (by omega))
      rcases hi with hi | ⟨k, d, hd, hi⟩
      · unfold MAX_POWER at hi; unfold FIRST at hbd; omega
      · have := z.mem_outside (z.listed hd)
        have := z.lists.two k d hd
        unfold Blk.fin at *; omega
    · have := z.mem_outside (z.listed hb)
      refine hword _ ?_ ?_ ?_ ?_ <;> unfold Blk.fin at * <;> omega
    · omega
    · rw [hc1]
      refine z.before.congr fun i _ hi => hword i ?_ ?_ ?_ ?_ <;> omega
    · unfold Blk.fin; omega
    · have ht : Tagged s h₂ (epilog c.fin) := writeTags_tagged (show 0 < 2 ^ 29 by decide)
      exact tiled_singleton.2 ⟨rfl, ht.1, ht.2, rfl⟩
  · refine (writeTags_tagged hcs).congr (writeTags_word ?_ ?_) (writeTags_word ?_ ?_) <;>
      unfold epilog <;> simp only <;> omega
  · intro d hd i h1 h2
    have := (z.mem_outside (.inl hd))
    refine hword i ?_ ?_ ?_ ?_ <;> unfold Blk.fin at * <;> omega

end CsappLab.Malloc
