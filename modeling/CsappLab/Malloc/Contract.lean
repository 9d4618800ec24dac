import CsappLab.Malloc.Run

/-!
# What runs of the allocator guarantee

The two contracts, stated with the pointers and macros of `mm.c` alone: the layout of the heap after
every call (`HeapInvariant`), and what a client may rely on (`Served`, `SameBytes`).
-/

namespace CsappLab.Malloc
open ByteMem CInt Linked

/-! ### The layout -/

/-- Following `NEXT_BLOCK_IN_HEAP` from `p` visits `bps` and arrives at `q`. -/
def Walk (h : Heap) : Nat → List Nat → Nat → Prop
  | p, [], q => p = q
  | p, bp :: bps, q => bp = p ∧ Walk h (h.nextBlockInHeap bp) bps q

/-- Following `GET_SUCC` from `p` visits `bps` and ends with `NULL`; every `GET_PRED` leads back, the
first one to `prev`. -/
def Chain (h : Heap) : Nat → Nat → List Nat → Prop
  | _, p, [] => p = NULL
  | prev, p, bp :: bps => p = bp ∧ bp ≠ NULL ∧ h.getPred bp = prev ∧ Chain h bp (h.getSucc bp) bps

/-- The layout of a heap with the blocks `bps` and the free lists `lists`. -/
structure HeapInvariant (h : Heap) (bps : List Nat) (lists : Nat → List Nat) : Prop where
  /-- The blocks tile the heap from the first block to the epilog. -/
  tiles : Walk h h.heapPtr bps (h.memBrk - WORD_SIZE * EPILOG_SIZE)
  epilog : h.getWord (h.memBrk - WORD_SIZE * EPILOG_SIZE) = pack 0 TAKEN
  footers : ∀ bp ∈ bps, h.getWord (h.ftrp bp) = h.getWord bp
  sizes : ∀ bp ∈ bps, 2 ≤ h.getSize bp ∧ h.getSize bp % 2 = 0
  coalesced : bps.IsChain fun bp bq => ¬ (h.getStatus bp = FREE ∧ h.getStatus bq = FREE)
  linked : ∀ i ≤ MAX_POWER, Chain h NULL (h.getFreeListPtr i) (lists i)
  descending : ∀ i ≤ MAX_POWER, (lists i).Pairwise fun bp bq => h.getSize bq ≤ h.getSize bp
  once : ∀ i ≤ MAX_POWER, (lists i).Nodup
  listed : ∀ i ≤ MAX_POWER, ∀ bp, bp ∈ lists i ↔
    bp ∈ bps ∧ h.getStatus bp = FREE ∧ Nat.log2 (h.getSize bp) = i
  classes : ∀ bp ∈ bps, Nat.log2 (h.getSize bp) ≤ MAX_POWER
  /-- The list heads end before every block. -/
  heads : ∀ i ≤ MAX_POWER, ∀ bp ∈ bps, h.freeLists + WORD_SIZE * i + WORD_SIZE ≤ bp

variable {a : Arena} {c c' : Client} {s e m size p q r x : Nat} {h h' : Heap} {bs bs' l : List Blk}
  {fl fl' : Nat → List Blk} {b d t : Blk}

theorem Tiled.walk (ht : Tiled (h.word s) m bs e) : Walk h (addr s m) (bs.map (ptr s)) (addr s e) := by
  induction bs generalizing m with
  | nil => exact congrArg _ (tiled_nil.1 ht)
  | cons b bs ih =>
    obtain ⟨rfl, h1, h2, h3⟩ := tiled_cons.1 ht
    refine ⟨rfl, ?_⟩
    rw [Tagged.nextBlockInHeap ⟨h1, h2⟩]
    exact ih h3

theorem chain_of_dll (h0 : 0 < s) (hl : Dll (ptr s) (pred s h) (succ s h) p l NULL) :
    Chain h p (headPtr (ptr s) NULL l) (l.map (ptr s)) := by
  induction l generalizing p with
  | nil => rfl
  | cons b l ih =>
    obtain ⟨h1, h2, h3⟩ := dll_cons.1 hl
    refine ⟨rfl, addr_pos h0, getPred_ptr.trans h1, ?_⟩
    rw [getSucc_ptr, h2]
    exact ih h3

theorem ptr_inj : ptr s b = ptr s d ↔ b.hd = d.hd := addr_inj

theorem Closed.heapInvariant (z : Closed s h e bs fl) :
    HeapInvariant h (bs.map (ptr s)) fun i => (fl i).map (ptr s) := by
  have hbrk : h.memBrk - WORD_SIZE * EPILOG_SIZE = addr s e := by
    rw [z.brk]; unfold addr WORD_SIZE EPILOG_SIZE; omega
  have htag : ∀ b ∈ bs, Tagged s h b := fun b hb => z.tagged hb
  have hmem : ∀ k, ∀ b ∈ fl k, b ∈ bs := fun k b hb => by simpa using z.listed hb
  have hinj : ∀ b ∈ bs, ∀ d ∈ bs, ptr s b = ptr s d → b = d := fun b hb d hd he =>
    z.before.eq_of_hd (by simp [hb]) (by simp [hd]) (ptr_inj.1 he)
  have hsize : ∀ b ∈ bs, b.size < 2 ^ 29 := fun b hb => z.size_lt <| by
    have := z.mem_outside (.inl hb)
    have := z.bounds
    omega
  have hfree : ∀ b ∈ bs, h.getStatus (ptr s b) = FREE ↔ b.taken = false := by
    intro b hb
    rw [(htag b hb).getStatus, FREE]; cases b.taken <;> simp
  constructor
  · rw [z.first, hbrk]
    exact (tiled_cons.1 z.before).2.2.2.walk
  · rw [hbrk, Heap.getWord_addr]
    exact (tiled_singleton.1 z.behind).2.1.trans
      (Blk.pack_tag_taken (b := CsappLab.Malloc.epilog e) (show 0 < 2 ^ 29 by decide) rfl).symm
  · intro bp hbp
    obtain ⟨b, hb, rfl⟩ := List.mem_map.1 hbp
    rw [(htag b hb).ftrp]
    exact (htag b hb).2.trans (htag b hb).1.symm
  · intro bp hbp
    obtain ⟨b, hb, rfl⟩ := List.mem_map.1 hbp
    rw [(htag b hb).getSize]
    exact z.regular b (.inl hb)
  · rw [List.isChain_map]
    refine z.sepPre.imp_of_mem_imp fun b d hb hd hno => ?_
    rw [hfree b hb, hfree d hd]
    rintro ⟨h1, h2⟩
    rcases hno with h3 | h3
    · rw [h1] at h3; cases h3
    · rw [h2] at h3; cases h3
  · intro i hi
    rw [z.lists.getFreeListPtr hi]
    exact chain_of_dll z.lists.start_pos (z.lists.links i)
  · intro i _
    rw [List.pairwise_map]
    refine (z.lists.sorted i).imp_of_mem fun hb hd hge => ?_
    rw [z.lists.sortedLists.getSize hb, z.lists.sortedLists.getSize hd]
    exact hge
  · intro i _
    refine (z.lists.nodup i).map_on fun b hb d hd he => hinj b (hmem i b hb) d (hmem i d hd) he
  · intro i _ bp
    simp only [List.mem_map]
    constructor
    · rintro ⟨b, hb, rfl⟩
      have hb' := hmem i b hb
      exact ⟨⟨b, hb', rfl⟩, (hfree b hb').2 (z.lists.free i b hb), by
        rw [(htag b hb').getSize]; exact z.lists.cls i b hb⟩
    · rintro ⟨⟨b, hb, rfl⟩, h1, h2⟩
      rw [(htag b hb).getSize] at h2
      exact ⟨b, (z.mem i b).2 ⟨.inl hb, (hfree b hb).1 h1, h2⟩, rfl⟩
  · intro bp hbp
    obtain ⟨b, hb, rfl⟩ := List.mem_map.1 hbp
    rw [(htag b hb).getSize]
    have hb32 : b.size < 2 ^ 32 := by have := hsize b hb; omega
    have := log2_le_of_lt hb32
    unfold MAX_POWER; omega
  · intro i hi bp hbp
    obtain ⟨b, hb, rfl⟩ := List.mem_map.1 hbp
    have := z.mem_outside (.inl hb)
    have := z.bounds
    rw [z.lists.base]
    unfold ptr addr WORD_SIZE FIRST MAX_POWER at *; omega

/-- **The heap invariant**: after every call of every run the heap has the layout of
`HeapInvariant`, the live pointers are its taken blocks, and every further call returns or divides by
zero or copies to `NULL`. -/
theorem heap_invariant (hr : Reachable a c) :
    (∃ bps lists, HeapInvariant c.heap bps lists ∧
      ∀ p, p ∈ c.live ↔ ∃ bp ∈ bps, c.heap.getStatus bp = TAKEN ∧ p = bp + WORD_SIZE * HDR_SIZE) ∧
    (∀ size ≤ MAX_HEAP, ∃ h' r, c.heap.mmMalloc size = .ok (h', r)) ∧
    (∀ p ∈ c.live, ∃ h', c.heap.mmFree p = .ok h') ∧
    ∀ p ∈ c.live, ∀ size ≤ MAX_HEAP, c.heap.mmRealloc p size ≠ .error .endlessLoop := by
  obtain ⟨e, bs, fl, hi⟩ := hr.inv
  have z := hi.closed
  refine ⟨⟨_, _, z.heapInvariant, ?_⟩, ?_, ?_, ?_⟩
  · intro p
    rw [hi.live p]
    have htk : ∀ b ∈ bs, c.heap.getStatus (ptr a.start b) = TAKEN ↔ b.taken = true := by
      intro b hb
      rw [(z.tagged hb).getStatus, TAKEN]; cases b.taken <;> simp
    constructor
    · rintro ⟨d, hd, rfl⟩
      exact ⟨_, List.mem_map.2 ⟨d, hd.1, rfl⟩, (htk d hd.1).2 hd.2, (addr_add _ _ _).symm⟩
    · rintro ⟨bp, hbp, h1, rfl⟩
      obtain ⟨d, hd, rfl⟩ := List.mem_map.1 hbp
      exact ⟨d, ⟨hd, (htk d hd).1 h1⟩, addr_add _ _ _⟩
  · intro size hs
    rcases Nat.eq_zero_or_pos size with rfl | h0
    · exact ⟨_, _, mmMalloc_zero _⟩
    · have hMAX : MAX_HEAP = 20971520 := rfl
      rcases z.mmMalloc h0 (by omega) with hn | ⟨r, _, _, _, _, hspec⟩
      · exact ⟨_, _, hn _ z⟩
      · obtain ⟨h', hok, -⟩ := hspec _ z
        exact ⟨h', r, hok⟩
  · intro p hp
    obtain ⟨b, hb, rfl⟩ := hi.block hp
    obtain ⟨_, _, hspec⟩ := z.mmFree hb
    obtain ⟨h', hok, -⟩ := hspec _ z
    exact ⟨h', hok⟩
  · intro p hp size hs
    obtain ⟨b, hb, rfl⟩ := hi.block hp
    rcases z.mmRealloc hb (reallocFits_of_le hs) with ⟨f, hne, hf⟩ | ⟨r, _, _, _, hspec⟩
    · rw [hf _ z rfl]; exact fun h1 => hne (by simpa using h1)
    · obtain ⟨h', hok, -⟩ := hspec _ z rfl
      rw [hok]; exact fun h1 => by cases h1

theorem heap_invariant_smallRun : ∃ c : Client, c.live = [8432] ∧ ∃ bps lists, HeapInvariant c.heap bps lists ∧
    ∃ bp ∈ bps, c.heap.getStatus bp = TAKEN ∧ 8432 = bp + WORD_SIZE * HDR_SIZE := by
  obtain ⟨c, hr, hl⟩ := smallRun_reachable
  obtain ⟨⟨bps, lists, hi, hlive⟩, -⟩ := heap_invariant hr
  exact ⟨c, hl, bps, lists, hi, (hlive 8432).1 (by simp [hl])⟩

/-! ### The client's view -/

/-- A request of `size` bytes has been served with `r`, while the pointers `live` were live. -/
structure Served (h : Heap) (live : List Nat) (r size : Nat) : Prop where
  aligned : 8 ∣ r
  fits : ∀ x, r ≤ x → x < r + size → h.Payload r x
  inside : h.memHeapLo ≤ r ∧ r + size ≤ h.memHeapHi + 1
  disjoint : ∀ q ∈ live, ∀ x, h.Payload q x → ¬ (r ≤ x ∧ x < r + size)

/-- The payload of `q` is the same range with the same bytes. -/
def SameBytes (h h' : Heap) (q : Nat) : Prop :=
  ∀ x, (h'.Payload q x ↔ h.Payload q x) ∧ (h.Payload q x → h'.mem x = h.mem x)

theorem Tiled.odd {w : Nat → Nat} (ht : Tiled w m bs e) (hm : m % 2 = 1) (hr : ∀ b ∈ bs, b.Regular) :
    ∀ b ∈ bs, b.hd % 2 = 1 := by
  induction bs generalizing m with
  | nil => simp
  | cons b bs ih =>
    obtain ⟨rfl, -, -, h3⟩ := tiled_cons.1 ht
    have hb := (hr b (by simp)).2
    intro d hd
    rcases List.mem_cons.1 hd with rfl | hd
    · exact hm
    · exact ih h3 (by unfold Blk.fin; omega) (fun d hd => hr d (by simp [hd])) d hd

namespace Inv

variable {live : List Nat}

theorem aligned (hi : Inv a ⟨h, live⟩ e bs fl) (ha : 8 ∣ a.start) (hp : p ∈ live) : 8 ∣ p := by
  obtain ⟨b, hb, rfl⟩ := hi.block hp
  have hodd := (tiled_cons.1 hi.closed.before).2.2.2.odd (by decide)
    (fun d hd => hi.closed.regular d (.inl hd)) b hb.1
  unfold addr; omega

theorem disjoint (hi : Inv a ⟨h, live⟩ e bs fl) (hp : p ∈ live) (hq : q ∈ live) (hne : p ≠ q)
    (h1 : h.Payload p x) (h2 : h.Payload q x) : False := by
  obtain ⟨b, hb, rfl⟩ := hi.block hp
  obtain ⟨d, hd, rfl⟩ := hi.block hq
  rw [hi.payload_iff hb] at h1
  rw [hi.payload_iff hd] at h2
  have := hi.closed.before.apart (by simp [hb.1]) (by simp [hd.1]) fun h3 : b = d => hne (by rw [h3])
  unfold Blk.Apart Blk.fin at this
  unfold addr at h1 h2; omega

theorem served {live' : List Nat} (hi : Inv a ⟨h, live⟩ e bs fl) (ha : 8 ∣ a.start) (ht : Live bs t)
    (hsize : size ≤ 4 * t.size) (hsub : ∀ q ∈ live', q ∈ live ∧ q ≠ addr a.start (t.hd + 1)) :
    Served h live' (addr a.start (t.hd + 1)) size := by
  have hr : addr a.start (t.hd + 1) ∈ live := (hi.live _).2 ⟨t, ht, rfl⟩
  have hfit : ∀ x, addr a.start (t.hd + 1) ≤ x → x < addr a.start (t.hd + 1) + size →
      h.Payload (addr a.start (t.hd + 1)) x := fun x h1 h2 => (hi.payload_iff ht).2 ⟨h1, by omega⟩
  refine ⟨hi.aligned ha hr, hfit, ?_, ?_⟩
  · have := hi.closed.mem_outside (.inl ht.1)
    have := hi.closed.bounds
    unfold Heap.memHeapLo Heap.memHeapHi
    rw [hi.closed.start, hi.closed.brk]
    unfold addr Blk.fin at *; omega
  · intro q hq x h1 h2
    exact hi.disjoint (hsub q hq).1 hr (hsub q hq).2 h1 (hfit x h2.1 h2.2)

theorem sameBytes {live' : List Nat} {out inn : Option Blk} (hi : Inv a ⟨h, live⟩ e bs fl)
    (hi' : Inv a ⟨h', live'⟩ s bs' fl') (hst : Step a.start h h' bs bs' out inn) (hd : Live bs d)
    (hne : out ≠ some d) : SameBytes h h' (addr a.start (d.hd + 1)) := by
  intro x
  have hd' : Live bs' d := (hst.live d).2 (.inl ⟨hd, hne⟩)
  rw [hi'.payload_iff hd', hi.payload_iff hd]
  refine ⟨Iff.rfl, fun hx => ?_⟩
  have hw := hst.same d hd hne ((x - a.start) / 4) (by unfold addr at hx; omega) (by unfold addr at hx; omega)
  exact byte_eq_of_wordAt_eq hw (by unfold addr at hx; omega) (by unfold addr at hx; omega)

/-- A new block serves the request: the pointers in `old` are live before and after the operation. -/
theorem servedNew {live' old : List Nat} {out : Option Blk} (hi : Inv a ⟨h, live⟩ e bs fl)
    (hi' : Inv a ⟨h', live'⟩ s bs' fl') (ha : 8 ∣ a.start) (hst : Step a.start h h' bs bs' out (some t))
    (hsize : size ≤ 4 * t.size)
    (hold : ∀ q ∈ old, q ∈ live ∧ q ∈ live' ∧ ∀ d, q = addr a.start (d.hd + 1) → out ≠ some d) :
    Served h' old (addr a.start (t.hd + 1)) size := by
  have ht : Live bs' t := (hst.live t).2 (.inr rfl)
  refine hi'.served ha ht hsize fun q hq => ⟨(hold q hq).2.1, fun he => ?_⟩
  obtain ⟨d, hd, rfl⟩ := hi.block (hold q hq).1
  have hout := (hold _ hq).2.2 d rfl
  have hdt : Live bs' d := (hst.live d).2 (.inl ⟨hd, hout⟩)
  obtain rfl := hi'.closed.live_inj hdt ht he
  exact hout (hst.fresh d rfl hd)

theorem malloc_guarantee (hi : Inv a ⟨h, live⟩ e bs fl) (ha : 8 ∣ a.start) (hs : size ≤ MAX_HEAP)
    (hok : h.mmMalloc size = .ok (h', r)) :
    (0 < size → r ≠ NULL → Served h' live r size) ∧ ∀ q ∈ live, SameBytes h h' q := by
  have hsame : h.mmMalloc size = .ok (h, NULL) →
      (0 < size → r ≠ NULL → Served h' live r size) ∧ ∀ q ∈ live, SameBytes h h' q := by
    intro h1
    rw [h1] at hok
    cases hok
    exact ⟨fun _ h2 => absurd rfl h2, fun q _ x => ⟨Iff.rfl, fun _ => rfl⟩⟩
  rcases Nat.eq_zero_or_pos size with rfl | h0
  · exact hsame (mmMalloc_zero _)
  have hMAX : MAX_HEAP = 20971520 := rfl
  rcases hi.closed.mmMalloc h0 (by omega) with hn | ⟨r₁, e', t, bs', fl', hspec⟩
  · exact hsame (hn _ hi.closed)
  obtain ⟨h₁, h1, z', hH, -⟩ := hspec _ hi.closed
  rw [h1] at hok
  cases hok
  have hi' : Inv a ⟨h', addLive r live⟩ e' bs' fl' :=
    hi.step z' hH.step (by simp) fun q => by simp [hH.ptr, a.addr_ne_null]
  refine ⟨fun _ _ => ?_, ?_⟩
  · rw [hH.ptr]
    exact hi.servedNew hi' ha hH.step hH.fits fun q hq => ⟨hq, by simp [hq], by simp⟩
  · intro q hq
    obtain ⟨d, hd, rfl⟩ := hi.block hq
    exact hi.sameBytes hi' hH.step hd (by simp)

theorem free_guarantee (hi : Inv a ⟨h, live⟩ e bs fl) (hp : p ∈ live) (hok : h.mmFree p = .ok h') (hq : q ∈ live)
    (hne : q ≠ p) : SameBytes h h' q := by
  obtain ⟨b, hb, rfl⟩ := hi.block hp
  obtain ⟨d, hd, rfl⟩ := hi.block hq
  obtain ⟨bs', fl', hspec⟩ := hi.closed.mmFree hb
  obtain ⟨h₁, h1, z', hst, -⟩ := hspec _ hi.closed
  rw [h1] at hok
  cases hok
  have hi' : Inv a ⟨h', dropLive (addr a.start (b.hd + 1)) live⟩ e bs' fl' :=
    hi.step z' hst (by simp [hb]) fun q => by simp
  exact hi.sameBytes hi' hst hd fun h2 => hne (by cases h2; rfl)

theorem realloc_guarantee (hi : Inv a ⟨h, live⟩ e bs fl) (ha : 8 ∣ a.start) (hp : p ∈ live) (hs : size ≤ MAX_HEAP)
    (hok : h.mmRealloc p size = .ok (h', r)) :
    (0 < size → r ≠ NULL → Served h' (dropLive p live) r size) ∧ ∀ q ∈ live, q ≠ p → SameBytes h h' q := by
  obtain ⟨b, hb, rfl⟩ := hi.block hp
  rcases hi.closed.mmRealloc hb (reallocFits_of_le hs) with ⟨f, -, hf⟩ | ⟨r₁, e', bs', fl', hspec⟩
  · rw [hf _ hi.closed rfl] at hok
    cases hok
  obtain ⟨h₁, h1, z', hre, -⟩ := hspec _ hi.closed rfl
  rw [h1] at hok
  cases hok
  have hne : ∀ d, addr a.start (d.hd + 1) ≠ addr a.start (b.hd + 1) → some b ≠ some d := fun d h2 h3 =>
    h2 (by cases h3; rfl)
  cases hre with
  | freed h0 hst =>
    have hi' : Inv a ⟨h', dropLive (addr a.start (b.hd + 1)) live⟩ e' bs' fl' :=
      hi.step z' hst (by simp [hb]) fun q => by simp
    refine ⟨fun _ h2 => absurd rfl h2, fun q hq hqp => ?_⟩
    obtain ⟨d, hd, rfl⟩ := hi.block hq
    exact hi.sameBytes hi' hst hd (hne d hqp)
  | @moved _ t _ hM =>
    have hi' : Inv a ⟨h', addLive r (dropLive (addr a.start (b.hd + 1)) live)⟩ e' bs' fl' :=
      hi.step z' hM.step (by simp [hb]) fun q => by simp [hM.ptr, a.addr_ne_null]
    refine ⟨fun _ _ => ?_, ?_⟩
    · rw [hM.ptr]
      refine hi.servedNew hi' ha hM.step hM.fits fun q hq => ?_
      obtain ⟨hq', hqp⟩ := mem_dropLive.1 hq
      exact ⟨hq', by simp [hq', hqp], fun d hd => hne d (hd ▸ hqp)⟩
    · intro q hq hqp
      obtain ⟨d, hd, rfl⟩ := hi.block hq
      exact hi.sameBytes hi' hM.step hd (hne d hqp)

end Inv

/-- **The client guarantee**: live payloads are aligned and pairwise disjoint, a pointer that is
returned has room for the request, and no operation touches the payload of a live block other than the
one it frees or moves. -/
theorem client_guarantee (ha : 8 ∣ a.start) (hr : Reachable a c) :
    (∀ p ∈ c.live, 8 ∣ p ∧ ∀ q ∈ c.live, p ≠ q → ∀ x, ¬ (c.heap.Payload p x ∧ c.heap.Payload q x)) ∧
    (∀ size ≤ MAX_HEAP, ∀ h' r, c.heap.mmMalloc size = .ok (h', r) →
      (0 < size → r ≠ NULL → Served h' c.live r size) ∧ ∀ q ∈ c.live, SameBytes c.heap h' q) ∧
    (∀ p ∈ c.live, ∀ h', c.heap.mmFree p = .ok h' → ∀ q ∈ c.live, q ≠ p → SameBytes c.heap h' q) ∧
    ∀ p ∈ c.live, ∀ size ≤ MAX_HEAP, ∀ h' r, c.heap.mmRealloc p size = .ok (h', r) →
      (0 < size → r ≠ NULL → Served h' (dropLive p c.live) r size) ∧
        ∀ q ∈ c.live, q ≠ p → SameBytes c.heap h' q := by
  obtain ⟨e, bs, fl, hi⟩ := hr.inv
  refine ⟨fun p hp => ⟨hi.aligned ha hp, fun q hq hne x hx => hi.disjoint hp hq hne hx.1 hx.2⟩, ?_, ?_, ?_⟩
  · exact fun size hs h' r hok => hi.malloc_guarantee ha hs hok
  · exact fun p hp h' hok q hq hne => hi.free_guarantee hp hok hq hne
  · exact fun p hp size hs h' r hok => hi.realloc_guarantee ha hp hs hok

theorem client_guarantee_smallRun : ∃ c : Client, c.live = [8432] ∧ ∀ size ≤ MAX_HEAP, ∀ h' r,
    c.heap.mmMalloc size = .ok (h', r) → 0 < size → r ≠ NULL → Served h' [8432] r size := by
  obtain ⟨c, hr, hl⟩ := smallRun_reachable
  have hg := (client_guarantee (by decide) hr).2.1
  exact ⟨c, hl, fun size hs h' r hok h0 hr0 => hl ▸ (hg size hs h' r hok).1 h0 hr0⟩

end CsappLab.Malloc
