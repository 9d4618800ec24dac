import CsappLab.Malloc.Alloc

/-!
# `mm_init`, `mm_malloc` and `mm_free`

`Step s h h' bs bs' out inn` is the contract of an operation: the taken blocks after it are those
before it, without `out` and with `inn`, and the payload of every other taken block is kept. The
specifications say that the operations keep `Closed` and satisfy this contract.
-/

namespace CsappLab.Malloc
open ByteMem CInt Linked

def Live (bs : List Blk) (d : Blk) : Prop := d ∈ bs ∧ d.taken = true

/-- An operation that returns the block `out` and hands out the block `inn`. -/
structure Step (s : Nat) (h h' : Heap) (bs bs' : List Blk) (out inn : Option Blk) : Prop where
  live : ∀ d, Live bs' d ↔ Live bs d ∧ out ≠ some d ∨ inn = some d
  fresh : ∀ t, inn = some t → Live bs t → out = some t
  same : ∀ d, Live bs d → out ≠ some d → SamePayload s h h' d

variable {s e words size : Nat} {h h' : Heap} {pre post bs : List Blk} {fl : Nat → List Blk} {b c t : Blk}

/-- `alloc_free_block` on the block `c`, when the taken blocks are those on the two sides and the
blocks of `out`. -/
theorem Allocated.step {h₀ : Heap} {post' : List Blk} {fl' : Nat → List Blk} {out : Option Blk}
    (hal : Allocated s h h' e pre c words post t post' fl') (z : Hole s h e pre c.hd c.fin post fl)
    (hlive : ∀ d, Live bs d ↔ (d ∈ pre ∨ d ∈ post) ∧ d.taken = true ∨ out = some d)
    (hout : ∀ d, out = some d → d ∉ pre ∧ d ∉ post)
    (hsame : ∀ d, d.taken = true → d ∈ pre ∨ d ∈ post → SamePayload s h₀ h d) :
    Step s h₀ h' bs (pre ++ t :: post') out (some t) := by
  have hrest : ∀ d, d.taken = true → (d ∈ post' ↔ d ∈ post) := hal.rest
  refine ⟨?_, ?_, ?_⟩
  · intro d
    rw [hlive d]
    unfold Live
    simp only [List.mem_append, List.mem_cons, Option.some.injEq]
    constructor
    · rintro ⟨hd | rfl | hd, htk⟩
      · exact .inl ⟨.inl ⟨.inl hd, htk⟩, fun h1 => (hout d h1).1 hd⟩
      · exact .inr rfl
      · rw [hrest d htk] at hd
        exact .inl ⟨.inl ⟨.inr hd, htk⟩, fun h1 => (hout d h1).2 hd⟩
    · rintro (⟨⟨hd, htk⟩ | hd, hne⟩ | rfl)
      · exact ⟨hd.imp id fun hd => .inr ((hrest d htk).2 hd), htk⟩
      · exact absurd hd hne
      · exact ⟨.inr (.inl rfl), hal.taken⟩
  · intro d hd hl
    obtain rfl : t = d := by simpa using hd
    rcases (hlive t).1 hl with ⟨hm, -⟩ | hm
    · -- a block on the sides does not start where the hole starts
      have := z.mem_outside hm
      have := hal.hd
      unfold Blk.fin at *; omega
    · exact hm
  · intro d hl hne
    rcases (hlive d).1 hl with ⟨hm, htk⟩ | hm
    · exact (hsame d htk hm).trans (hal.others d htk hm)
    · exact absurd hm hne

/-! ### `mm_free` -/

/-- Rewriting the tags of a taken block as free and merging it: the start of `mm_free` and of the
in-place paths of `mm_realloc`. -/
structure Freed (s : Nat) (h h₁ h' : Heap) (e : Nat) (pre : List Blk) (b f : Blk) (post : List Blk)
    (fl : Nat → List Blk) (pre' : List Blk) (c : Blk) (post' : List Blk) (fl' : Nat → List Blk) :
    Prop where
  free : f = ⟨b.hd, b.size, false⟩
  written : h₁ = writeTags s h f
  hole : Hole s h₁ e pre f.hd f.fin post fl
  merged : Coalesced s h₁ h' e pre f post fl pre' c post' fl'

theorem Closed.freeBlock (z : Closed s h e (pre ++ b :: post) fl) (hb : b.taken = true) :
    ∃ f pre' c post' fl', ∀ g, Closed s g e (pre ++ b :: post) fl →
      ∃ g₁ g', (g.putWord (ptr s b) (pack b.size FREE)).putWord
        ((g.putWord (ptr s b) (pack b.size FREE)).ftrp (ptr s b)) (pack b.size FREE) = g₁ ∧
      g₁.coalesce (ptr s b) = (g', ptr s c) ∧ Freed s g g₁ g' e pre b f post fl pre' c post' fl' := by
  obtain ⟨f, hf⟩ : ∃ f : Blk, f = ⟨b.hd, b.size, false⟩ := ⟨_, rfl⟩
  have e1 : b.hd = f.hd := by rw [hf]
  have e2 : b.size = f.size := by rw [hf]
  have e3 : b.fin = f.fin := by rw [hf]; rfl
  have e4 : ptr s b = ptr s f := by unfold ptr; rw [e1]
  have hr : f.Regular := by
    have := z.regular b (.inl (by simp))
    unfold Blk.Regular at *; omega
  have hbs : b.size < 2 ^ 29 := by
    have z' := z.openTaken hb
    exact z'.size_lt z'.bounds.2.1
  obtain ⟨pre', c, post', fl', hcoal⟩ := coalesce_spec (s := s) e pre post fl (by rw [hf]) hr
  refine ⟨f, pre', c, post', fl', fun g zg => ?_⟩
  have z' := zg.openTaken hb
  rw [e1, e3] at z'
  obtain ⟨z1, ht⟩ := z'.retag
  obtain ⟨g', hco, hc⟩ := hcoal _ z1 ht
  refine ⟨_, g', ?_, by rw [e4]; exact hco, hf, rfl, z1, hc⟩
  rw [e2, Blk.pack_tag_free (by omega) (by rw [hf]), e4, putTags_eq (by omega)]

namespace Freed

variable {h₁ : Heap} {f : Blk} {pre' post' : List Blk} {fl' : Nat → List Blk}

theorem live (hfr : Freed s h h₁ h' e pre b f post fl pre' c post' fl')
    (z : Closed s h e (pre ++ b :: post) fl) (hb : b.taken = true) :
    (∀ d, Live (pre ++ b :: post) d ↔ (d ∈ pre' ∨ d ∈ post') ∧ d.taken = true ∨ some b = some d) ∧
      b ∉ pre' ∧ b ∉ post' := by
  have hnd := (tiled_cons.1 z.before).2.2.2.nodup
  obtain ⟨hn1, hn2, hn3⟩ := List.nodup_append.1 hnd
  have hb1 : b ∉ pre := fun hm => hn3 b hm b (by simp) rfl
  have hb2 : b ∉ post := (List.nodup_cons.1 hn2).1
  have hmem := fun (d : Blk) (hd : d.taken = true) => hfr.merged.mem_taken hd
  refine ⟨fun d => ?_, fun hm => hb1 ((hmem b hb).1.1 hm), fun hm => hb2 ((hmem b hb).2.1 hm)⟩
  unfold Live
  simp only [List.mem_append, List.mem_cons, Option.some.injEq]
  constructor
  · rintro ⟨hd | rfl | hd, htk⟩
    · exact .inl ⟨.inl ((hmem d htk).1.2 hd), htk⟩
    · exact .inr rfl
    · exact .inl ⟨.inr ((hmem d htk).2.2 hd), htk⟩
  · rintro (⟨hd | hd, htk⟩ | rfl)
    · exact ⟨.inl ((hmem d htk).1.1 hd), htk⟩
    · exact ⟨.inr (.inr ((hmem d htk).2.1 hd)), htk⟩
    · exact ⟨.inr (.inl rfl), hb⟩

theorem samePayload (hfr : Freed s h h₁ h' e pre b f post fl pre' c post' fl')
    (z : Closed s h e (pre ++ b :: post) fl) (hb : b.taken = true) {d : Blk}
    (hd : d.taken = true) (hm : d ∈ pre' ∨ d ∈ post') : SamePayload s h h' d := by
  have hm' := hm.imp (hfr.merged.mem_taken hd).1.1 (hfr.merged.mem_taken hd).2.1
  have hf := hfr.free
  refine SamePayload.trans ?_ (hfr.merged.samePayload hfr.hole hd hm')
  rw [hfr.written]
  refine (z.openTaken hb).samePayload_of_frame hd hm' fun i _ h1 => writeTags_word ?_ ?_
  all_goals rw [hf]; unfold Blk.fin at h1; simp only; omega

theorem samePayload_self (hfr : Freed s h h₁ h' e pre b f post fl pre' c post' fl') :
    SamePayload s h h' b := by
  intro i h1 h2
  have e1 : b.hd = f.hd := by rw [hfr.free]
  have e2 : b.size = f.size := by rw [hfr.free]
  rw [hfr.merged.samePayload_self hfr.hole i (by omega) (by omega), hfr.written,
    writeTags_word (by omega) (by omega)]

end Freed

/-- **`mm_free`** of a taken block. The layout it leaves depends on the layout before alone. -/
theorem Closed.mmFree (z : Closed s h e bs fl) (hb : Live bs b) :
    ∃ bs' fl', ∀ g, Closed s g e bs fl → ∃ g', g.mmFree (addr s (b.hd + 1)) = .ok g' ∧
      Closed s g' e bs' fl' ∧ Step s g g' bs bs' (some b) none ∧ g'.previousSize = g.previousSize := by
  obtain ⟨hmem, htk⟩ := hb
  obtain ⟨pre, post, rfl⟩ := List.append_of_mem hmem
  have hp : addr s (b.hd + 1) - WORD_SIZE = ptr s b := by unfold ptr addr WORD_SIZE; omega
  obtain ⟨f, pre', c, post', fl', hfree⟩ := z.freeBlock htk
  refine ⟨pre' ++ c :: post', enlist fl' c, fun g zg => ?_⟩
  have hsz := (zg.tagged hmem).getSize
  obtain ⟨g₁, g₂, hput, hco, hfr⟩ := hfree g zg
  have hc := hfr.merged
  obtain ⟨g', hpl, hg, hcl, hkeep⟩ := hc.hole.place hc.tagged hc.free hc.regular hc.prevTaken hc.nextTaken
  have hcnot : ∀ d : Blk, d.taken = true → d ≠ c := fun d hd h1 => by rw [h1, hc.free] at hd; cases hd
  have hl := (hfr.live zg htk).1
  have hno := (hfr.live zg htk).2
  refine ⟨g', ?_, hcl, ⟨?_, by simp, ?_⟩, ?_⟩
  · unfold Heap.mmFree
    simp only [hp, hsz, hput, hco]
    exact hpl
  · intro d
    rw [hl d]
    unfold Live
    simp only [List.mem_append, List.mem_cons, reduceCtorEq, or_false, ne_eq, Option.some.injEq]
    constructor
    · rintro ⟨hd, hdt⟩
      have hd' : d ∈ pre' ∨ d ∈ post' := by
        rcases hd with hd | hd | hd
        · exact .inl hd
        · exact absurd hd (hcnot d hdt)
        · exact .inr hd
      exact ⟨.inl ⟨hd', hdt⟩, fun h1 => h1 ▸ hd' |>.elim hno.1 hno.2⟩
    · rintro ⟨⟨hd, hdt⟩ | rfl, hne⟩
      · exact ⟨hd.imp id .inr, hdt⟩
      · exact absurd rfl hne
  · intro d hd hne
    rcases (hl d).1 hd with ⟨hm, hdt⟩ | h1
    · refine (hfr.samePayload zg htk hdt hm).trans fun i h1 h2 => ?_
      have ho := hc.hole.mem_outside hm
      have := hc.regular.1
      refine hkeep i (hc.hole.not_listWord_payload hm hdt h1 h2) ?_ ?_ <;> unfold Blk.fin at ho <;> omega
    · exact absurd h1 hne
  · rw [hg.prev, hc.globals.prev, hfr.written, writeTags_globals.prev]

/-! ### `mm_malloc` -/

theorem mallocWords_spec (h0 : 0 < size) (hs : size ≤ 2 ^ 32 - 16) {size' : Nat}
    (he : size' = if size ≤ 1 <<< 12 then (roundUpPower2 size).toNat else size) :
    size' ≠ 0 ∧ size ≤ 4 * (align size' / WORD_SIZE) ∧ 2 ≤ align size' / WORD_SIZE ∧
      align size' / WORD_SIZE % 2 = 0 ∧ align size' / WORD_SIZE ≤ 2 ^ 30 - 4 := by
  have hb : size ≤ size' ∧ size' ≤ 2 ^ 32 - 16 := by
    split_ifs at he with h1
    · rw [show 1 <<< 12 = 4096 by rfl] at h1
      obtain ⟨n, h2, h3, h4⟩ := roundUpPower2_spec h0 (by omega)
      rw [h2, Int.toNat_natCast] at he
      omega
    · omega
  rw [align_eq (by omega), show WORD_SIZE = 4 by rfl]
  omega

/-- What a successful allocation returns: the payload address of a new taken block. -/
structure Handed (s : Nat) (h h' : Heap) (bs : List Blk) (size r : Nat) (t : Blk) (bs' : List Blk) : Prop where
  step : Step s h h' bs bs' none (some t)
  ptr : r = addr s (t.hd + 1)
  fits : size ≤ 4 * t.size

/-- **`mm_malloc`** of a positive size: `NULL` and an unchanged heap, or a new taken block. Which of
them and where depends on the layout alone. -/
theorem Closed.mmMalloc (z : Closed s h e bs fl) (h0 : 0 < size) (hs : size ≤ 2 ^ 32 - 16) :
    (∀ g, Closed s g e bs fl → g.mmMalloc size = .ok (g, NULL)) ∨
      ∃ r e' t bs' fl', ∀ g, Closed s g e bs fl → ∃ g', g.mmMalloc size = .ok (g', r) ∧
        Closed s g' e' bs' fl' ∧ Handed s g g' bs size r t bs' ∧ g'.previousSize = g.previousSize := by
  unfold Heap.mmMalloc
  simp only []
  generalize hsz : (if size ≤ 1 <<< 12 then (roundUpPower2 size).toNat else size) = size'
  obtain ⟨h1, h2, h3, h4, h5⟩ := mallocWords_spec h0 hs hsz.symm
  simp only [h1, ↓reduceIte]
  set words := align size' / WORD_SIZE
  have hret : ∀ {c t : Blk}, t.hd = c.hd → ptr s c + WORD_SIZE * HDR_SIZE = addr s (t.hd + 1) :=
    fun h6 => by unfold ptr addr WORD_SIZE HDR_SIZE; omega
  rcases z.lists.findFreeBlock_spec (show words < 2 ^ 32 by omega) with ⟨-, hf⟩ | ⟨k, b, hb, hfit, -, hf⟩
  · -- no listed block fits: the heap grows
    have hext : words ≤ (if words > CHUNK then words else CHUNK) ∧
        (if words > CHUNK then words else CHUNK) ≤ 2 ^ 30 - 4 := by
      have : CHUNK = 1024 := rfl
      split_ifs <;> omega
    rcases extendHeap_spec e _ bs fl hext.2 with ⟨-, hex⟩ | ⟨c, hex⟩
    · exact .inl fun g zg => by simp only [hf g zg.lists, bind, Except.bind, hex g zg, if_pos, ifPtr_none]
    obtain ⟨h₁, -, hE⟩ := hex h z
    have hcs := hE.size
    obtain ⟨t, post', fl', hal⟩ := allocFreeBlock_spec (s := s) c.fin bs [] fl
      (show c.Regular by unfold Blk.Regular; omega) h3 h4 (by omega)
    refine .inr ⟨ptr s c + WORD_SIZE * HDR_SIZE, c.fin, t, bs ++ t :: post', fl', fun g zg => ?_⟩
    obtain ⟨g₁, hex', hE⟩ := hex g zg
    obtain ⟨g', hal', hA⟩ := hal g₁ hE.hole hE.tagged.1
    refine ⟨g', ?_, hA.closed,
      ⟨hA.step hE.hole (fun d => ?_) (by simp) fun d hd hm => ?_, hret hA.hd, ?_⟩, ?_⟩
    · simp only [hf g zg.lists, bind, Except.bind, hex', hal', if_pos, ifPtr_some]
    · simp [Live]
    · exact hE.others d (by simpa using hm)
    · have := hA.size; omega
    · rw [hA.globals.prev, hE.prev]
  · -- the best fit is unlinked
    have hbm : b ∈ bs := by simpa using z.listed hb
    have hbf := z.lists.free k b hb
    have hr := z.regular b (.inl hbm)
    obtain ⟨pre, post, rfl⟩ := List.append_of_mem hbm
    obtain ⟨t, post', fl', hal⟩ := allocFreeBlock_spec (s := s) e pre post (unlist fl b) hr h3 h4 hfit
    have hp0 : ptr s b ≠ NULL := addr_pos z.lists.start_pos
    refine .inr ⟨ptr s b + WORD_SIZE * HDR_SIZE, e, t, pre ++ t :: post', fl', fun g zg => ?_⟩
    obtain ⟨z1, hg, hw, ht, -, -⟩ := zg.openFree hbf
    obtain ⟨g', hal', hA⟩ := hal _ z1 ht.1
    refine ⟨g', ?_, hA.closed,
      ⟨hA.step z1 ?_ (by simp) ?_, hret hA.hd, ?_⟩, ?_⟩
    · simp only [hf g zg.lists, bind, Except.bind, if_neg hp0, hal']
    · intro d
      have hne : d.taken = true → d ≠ b := fun h6 h7 => by rw [h7, hbf] at h6; cases h6
      unfold Live
      simp only [List.mem_append, List.mem_cons, reduceCtorEq, or_false]
      tauto
    · intro d hd hm i h6 h7
      exact hw i (zg.not_listWord_payload (.inl (by simp; tauto)) hd h6 h7)
    · have := hA.size; omega
    · rw [hA.globals.prev, hg.prev]

/-! ### `mm_init` -/

theorem clearLists_spec (hs : h.freeLists = s) (n : Nat) :
    SameGlobals h ((List.range n).foldl (fun h i => h.setFreeListPtr i NULL) h) ∧
      ∀ i, ((List.range n).foldl (fun h i => h.setFreeListPtr i NULL) h).word s i =
        if i < n then NULL else h.word s i := by
  induction n with
  | zero => exact ⟨.refl h, fun i => by simp⟩
  | succ n ih =>
    obtain ⟨hg, hw⟩ := ih
    rw [List.range_succ, List.foldl_append, List.foldl_cons, List.foldl_nil,
      Heap.setFreeListPtr_eq (hg.lists.trans hs)]
    refine ⟨hg.putWord _ _, fun i => ?_⟩
    rw [Heap.word_putWord, hw i]
    split_ifs <;> first | rfl | omega

/-- The heap when `mm_init` calls `extend_heap`: the heads, a padding word, prolog and epilog. -/
theorem closed_nil (h0 : 0 < s) (hfit : s + MAX_HEAP < 2 ^ 32) (hl : h.freeLists = s)
    (hst : h.memStartBrk = s) (hb : h.memBrk = addr s 55) (hm : h.memMaxAddr = s + MAX_HEAP)
    (hp : h.heapPtr = addr s FIRST) (hheads : ∀ i ≤ MAX_POWER, h.word s i = NULL)
    (hpro : Tagged s h prolog) (hepi : Tagged s h (epilog FIRST)) :
    Closed s h FIRST [] fun _ => [] where
  lists :=
    { start_pos := h0, fits := hfit, base := hl, heads := hheads, links := fun _ => dll_nil,
      sorted := fun _ => .nil, cls := by simp, nodup := by simp, tags := by simp, free := by simp,
      two := by simp, lo := by simp, hi := by simp, apart := by simp }
  start := hst
  brk := hb
  max := hm
  room := by decide
  first := hp
  before := tiled_singleton.2 ⟨rfl, hpro.1, hpro.2, rfl⟩
  width := le_rfl
  behind := tiled_singleton.2 ⟨rfl, hepi.1, hepi.2, rfl⟩
  mem := by simp
  regular := by simp
  sepPre := .nil
  sepPost := .nil

/-- The part of `mm_init` that writes prolog and epilog, from the pointer of its last `mem_sbrk` on. -/
def writeProlog (h : Heap) (p : Nat) : Heap :=
  let h := { h with heapPtr := p }
  let h := h.putWord h.heapPtr (pack 0 TAKEN)
  let h := h.putWord (h.ftrp h.heapPtr) (pack 0 TAKEN)
  let epilog := h.nextBlockInHeap h.heapPtr
  let h := h.putWord epilog (pack 0 TAKEN)
  let h := h.putWord (h.ftrp epilog) (pack 0 TAKEN)
  { h with heapPtr := h.heapPtr + WORD_SIZE * HDR_FTR_SIZE }

theorem mmInit_eq {h₁ h₂ h₃ h₄ h₅ : Heap} {p q r : Nat}
    (e1 : h.memSbrk (i32 (u32 (evenize MAX_POWER * WORD_SIZE) : Nat)) = (h₁, some p))
    (e2 : (((List.range (MAX_POWER + 1)).foldl (fun (h : Heap) i => h.setFreeListPtr i NULL)
      { h₁ with freeLists := p }).memSbrk WORD_SIZE).1 = h₂)
    (e3 : h₂.memSbrk (4 * WORD_SIZE) = (h₃, some q))
    (e4 : (writeProlog h₃ q).extendHeap CHUNK = (h₄, some r))
    (e5 : h₄.placeBlockIntoFreeList r = .ok h₅) : h.mmInit = .ok (h₅, 0) := by
  unfold Heap.mmInit
  rw [e1, ifPtr_some]
  extract_lets g₁ g₂ g₃
  rw [show g₃ = h₂ from e2, e3, ifPtr_some]
  extract_lets g₄ g₅ g₆ epilog g₇ g₈ g₉
  rw [show g₉.extendHeap CHUNK = (h₄, some r) from e4, ifPtr_some, e5]
  rfl

theorem writeProlog_spec : ∃ h', writeProlog h (ptr s prolog) = h' ∧ Tagged s h' prolog ∧
    Tagged s h' (epilog FIRST) ∧ h'.memStartBrk = h.memStartBrk ∧ h'.memBrk = h.memBrk ∧
    h'.memMaxAddr = h.memMaxAddr ∧ h'.freeLists = h.freeLists ∧ h'.heapPtr = addr s FIRST ∧
    h'.previousSize = h.previousSize ∧ ∀ i ≤ MAX_POWER, h'.word s i = h.word s i := by
  have hpro : pack 0 TAKEN = prolog.tag := Blk.pack_tag_taken (b := prolog) (by decide) rfl
  have hepi : pack 0 TAKEN = (epilog FIRST).tag := Blk.pack_tag_taken (b := epilog FIRST) (by decide) rfl
  refine ⟨_, rfl, ?_⟩
  obtain ⟨h₁, hh₁⟩ : ∃ h₁ : Heap, h₁ = { h with heapPtr := ptr s prolog } := ⟨_, rfl⟩
  have hp : h₁.heapPtr = ptr s prolog := by rw [hh₁]
  have ht : Tagged s (writeTags s h₁ prolog) prolog := writeTags_tagged (by decide)
  have hnext : (writeTags s h₁ prolog).nextBlockInHeap (ptr s prolog) = ptr s (epilog FIRST) :=
    ht.nextBlockInHeap
  have hp' : (writeTags s h₁ prolog).heapPtr = ptr s prolog := writeTags_globals.first.trans hp
  have hg : SameGlobals h₁ (writeTags s (writeTags s h₁ prolog) (epilog FIRST)) :=
    writeTags_globals.trans writeTags_globals
  have he : writeProlog h (ptr s prolog) =
      { writeTags s (writeTags s h₁ prolog) (epilog FIRST) with heapPtr := addr s FIRST } := by
    have hout : ptr s prolog + WORD_SIZE * HDR_FTR_SIZE = addr s FIRST := addr_add _ _ _
    unfold writeProlog
    simp only [← hh₁, hpro, Heap.heapPtr_putWord, hp, putTags_eq (b := prolog) (show 0 < 2 ^ 29 by decide),
      hp', hnext, hout]
    rw [← hpro, hepi, putTags_eq (show 0 < 2 ^ 29 by decide)]
  rw [he]
  refine ⟨?_, ?_, ?_, ?_, ?_, ?_, rfl, ?_, ?_⟩
  · exact ht.congr (writeTags_word (by decide) (by decide)) (writeTags_word (by decide) (by decide))
  · exact writeTags_tagged (by decide)
  · exact hg.start.trans (by rw [hh₁])
  · exact hg.brk.trans (by rw [hh₁])
  · exact hg.max.trans (by rw [hh₁])
  · exact hg.lists.trans (by rw [hh₁])
  · exact hg.prev.trans (by rw [hh₁])
  · intro i hi
    have : MAX_POWER < prolog.hd ∧ MAX_POWER < (epilog FIRST).hd := by decide
    have h1 : (writeTags s (writeTags s h₁ prolog) (epilog FIRST)).word s i = h₁.word s i := by
      rw [writeTags_word, writeTags_word] <;> omega
    exact h1.trans (by rw [hh₁]; rfl)

/-- **`mm_init`** on a reset heap, whatever the bytes were: it succeeds and leaves one free block. -/
theorem mmInit_spec (h0 : 0 < s) (hfit : s + MAX_HEAP < 2 ^ 32) :
    ∃ e bs fl, ∀ h : Heap, h.memStartBrk = s → h.memBrk = s → h.memMaxAddr = s + MAX_HEAP →
      ∃ h', h.mmInit = .ok (h', 0) ∧ Closed s h' e bs fl ∧ (∀ d, ¬ Live bs d) ∧
        h'.previousSize = h.previousSize := by
  have hroom : ¬ MAX_HEAP < 4 * (FIRST + (CHUNK + 1) / 2 * 2 + 4) := by decide
  rcases extendHeap_spec (s := s) FIRST CHUNK [] (fun _ => []) (by decide) with
    ⟨hno, -⟩ | ⟨c, hext⟩
  · exact absurd hno hroom
  refine ⟨c.fin, [c], enlist (fun _ => []) c, fun h hst hb hm => ?_⟩
  have hMAX : MAX_HEAP = 20971520 := rfl
  have hincr : i32 (u32 (evenize MAX_POWER * WORD_SIZE) : Nat) = (4 * 50 : Nat) := by decide
  have hs0 : addr s 0 = s := rfl
  have e1 := Heap.memSbrk_words (n := 50) (hb.trans hs0.symm) hm
  rw [if_neg (by omega), ← hincr, hs0, Nat.zero_add] at e1
  -- the heads
  obtain ⟨h₁, hh₁⟩ : ∃ h₁ : Heap, h₁ = { h with memBrk := addr s 50, freeLists := s } := ⟨_, rfl⟩
  obtain ⟨hg, hw⟩ := clearLists_spec (s := s) (h := h₁) (by rw [hh₁]) (MAX_POWER + 1)
  generalize hF : (List.range (MAX_POWER + 1)).foldl (fun h i => h.setFreeListPtr i NULL) h₁ = h₂ at hg hw
  -- the padding word
  have e2 := Heap.memSbrk_words (n := 1) (i := 50) (s := s) (h := h₂) (hg.brk.trans (by rw [hh₁]))
    (hg.max.trans (by rw [hh₁, hm]))
  rw [if_neg (by omega)] at e2
  obtain ⟨h₃, hh₃⟩ : ∃ h₃ : Heap, h₃ = { h₂ with memBrk := addr s (50 + 1) } := ⟨_, rfl⟩
  -- prolog and epilog
  have e3 := Heap.memSbrk_words (n := 4) (i := 51) (s := s) (h := h₃) (by rw [hh₃])
    (by rw [hh₃, hg.max, hh₁, hm])
  rw [if_neg (by omega)] at e3
  obtain ⟨h₄, hh₄⟩ : ∃ h₄ : Heap, h₄ = { h₃ with memBrk := addr s (51 + 4) } := ⟨_, rfl⟩
  obtain ⟨h₅, hh₅, hpro, hepi, g1, g2, g3, g4, g5, g6, g7⟩ := writeProlog_spec (s := s) (h := h₄)
  have z : Closed s h₅ FIRST [] fun _ => [] := by
    refine closed_nil h0 hfit ?_ ?_ ?_ ?_ g5 ?_ hpro hepi
    · rw [g4, hh₄, hh₃, hg.lists, hh₁]
    · rw [g1, hh₄, hh₃, hg.start, hh₁, hst]
    · rw [g2, hh₄]
    · rw [g3, hh₄, hh₃, hg.max, hh₁, hm]
    · intro i hi
      rw [g7 i hi, hh₄, hh₃]
      exact (hw i).trans (if_pos (by omega))
  -- the first block
  obtain ⟨h₆, e4, hE⟩ := hext h₅ z
  have hr : c.Regular := by
    have := hE.size
    have : CHUNK = 1024 := rfl
    unfold Blk.Regular; omega
  obtain ⟨h', e5, hg', hcl, -⟩ := hE.hole.place hE.tagged hE.free hr rfl rfl
  have e3' : h₃.memSbrk (4 * WORD_SIZE) = (h₄, some (ptr s prolog)) := e3.trans (by rw [← hh₄]; rfl)
  refine ⟨h', mmInit_eq e1 ?_ e3' (hh₅ ▸ e4) e5, hcl, ?_, ?_⟩
  · rw [← hh₁, hF]
    exact (congrArg Prod.fst e2).trans hh₃.symm
  · rintro d ⟨hd, htk⟩
    obtain rfl : d = c := by simpa using hd
    rw [hE.free] at htk; cases htk
  · rw [hg'.prev, hE.prev, g6, hh₄, hh₃, hg.prev, hh₁]

end CsappLab.Malloc
