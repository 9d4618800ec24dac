import CsappLab.Implicit.Contract
import CsappLab.Lib.Arrays

/-!
# Runs of the implicit-list allocator

What holds after every call of every run of a client, stated with the macros of `mm.c` alone: the blocks that
`NEXT_BLKP` visits fill the heap from `heap_listp` to the break (`HeapInvariant`), and `mm_malloc` hands out
the first block that fits in the order of the search and extends the heap only when there is none.
-/

namespace CsappLab.Implicit
open ByteMem CInt Alloc Tiling Fuel

/-- `mem_init` has been called; the bytes and the globals of `mm.c` are anything. -/
def Started (s : Nat) (h : Heap) : Prop := h.memHeap = s ∧ h.memMaxAddr = s + MAX_HEAP

/-- The allocator and its client in a heap that starts at `s`. -/
abbrev Runs (nf : Bool) (s : Nat) : Client Heap → Prop := (clients (mmPackage nf) MAX_REQUEST (Started s)).Reachable

/-- Following `NEXT_BLKP` from `p` visits `bps` and arrives at `q`. -/
def Walk (h : Heap) : Nat → List Nat → Nat → Prop
  | p, [], q => p = q
  | p, bp :: bps, q => bp = p ∧ Walk h (h.nextBlkp bp) bps q

/-- The layout of a heap with the blocks `bps`, the prologue first. -/
structure HeapInvariant (nf : Bool) (h : Heap) (bps : List Nat) : Prop where
  /-- The blocks fill the heap up to the epilogue, whose header ends at the break. -/
  tiles : Walk h h.heapListp bps h.memBrk
  prologue : h.getSize (hdrp h.heapListp) = DSIZE ∧ h.getAlloc (hdrp h.heapListp) = 1
  epilogue : h.getSize (hdrp h.memBrk) = 0 ∧ h.getAlloc (hdrp h.memBrk) = 1
  footers : ∀ bp ∈ bps, h.get (h.ftrp bp) = h.get (hdrp bp)
  sizes : ∀ bp ∈ bps.tail, 2 * DSIZE ≤ h.getSize (hdrp bp) ∧ DSIZE ∣ h.getSize (hdrp bp)
  coalesced : bps.IsChain fun bp bq => ¬ (h.getAlloc (hdrp bp) = 0 ∧ h.getAlloc (hdrp bq) = 0)
  /-- The rover points to a block. -/
  rover : nf = true → h.rover ∈ bps

variable {nf : Bool} {s a m x x₀ y size : Nat} {h h' : Heap} {c : Client Heap} {t : Tile} {ts : List Tile}

def pointers (s a : Nat) (ts : List Tile) : List Nat := (cells a ts).map fun c => blk s c.1

theorem owns_of_init (hc : (clients (mmPackage nf) MAX_REQUEST (Started s)).init c) : Owns nf s c.heap c.live := by
  obtain ⟨h, live⟩ := c
  obtain ⟨rfl, h₀, hst, hok⟩ := hc
  obtain ⟨h₁, hok₁, ho⟩ := mmPackage_init nf hst.1 hst.2
  rw [hok₁] at hok
  cases hok
  exact ho

theorem owns_of_runs (hs : 8 ∣ s) (hr : Runs nf s c) : Owns nf s c.heap c.live := by
  exact (implicit_contract hs).run (fun h h₁ hst hok => owns_of_init (c := ⟨h₁, []⟩) ⟨rfl, h, hst, hok⟩) hr

/-- Two blocks, of which the first is freed and the second grows and moves. -/
def someRequests : List Request := [.malloc 100, .malloc 200, .free ⟨24, 100⟩, .realloc ⟨136, 200⟩ 300]

theorem exists_someRequests (nf : Bool) : ∃ c₀ c, (clients (mmPackage nf) MAX_REQUEST (Started 8)).init c₀ ∧
    (clients (mmPackage nf) MAX_REQUEST (Started 8)).Steps c₀ someRequests c ∧ c.live = [⟨344, 300⟩] := by
  obtain ⟨h, hst, hrun⟩ : ∃ h, Started 8 h ∧ (((mmPackage nf).init h).toOption.bind fun r =>
      (someRequests.foldlM (Client.request (mmPackage nf) MAX_REQUEST) ⟨r.1, []⟩).map Client.live) =
        some [⟨344, 300⟩] :=
    ⟨⟨fun _ => 0, 8, 8, 8 + MAX_HEAP, 0, 0⟩, ⟨rfl, rfl⟩, by cases nf <;> decide +kernel⟩
  obtain ⟨h₁, hok, -⟩ := mmPackage_init nf hst.1 hst.2
  rw [hok] at hrun
  exact exists_requests hst hok someRequests hrun

theorem Blocks.cell (hB : Blocks nf s h ts) (hc : (x, t) ∈ cells 1 (prologue :: ts)) :
    Header s h x t ∧ 2 ≤ t.words ∧ h.word s (x + t.words - 1) = tag t := by
  obtain ⟨h1, h2, h3⟩ := hB.tiled.cell hc
  exact ⟨hB.sound.header (mem_of_mem_cells hc) h2, h1, h3⟩

theorem walk_of_tiled (hline : Tiled tag (h.word s) a ts) (hs : Sound ts) :
    Walk h (blk s a) (pointers s a ts) (blk s (a + span ts)) := by
  induction ts generalizing a with
  | nil => rfl
  | cons t ts ih =>
    obtain ⟨-, htag, -, hrest⟩ := hline
    have hk : Header s h a t := hs.header (by simp) htag
    refine ⟨rfl, ?_⟩
    rw [hk.nextBlkp, span_cons, ← Nat.add_assoc]
    exact ih hrest (Sound.of_append (A := [t]) hs).2

theorem Blocks.walk (hB : Blocks nf s h ts) : Walk h h.heapListp (pointers s 1 (prologue :: ts)) h.memBrk := by
  have hw := walk_of_tiled hB.tiled hB.sound
  rwa [← hB.list, span_cons, show prologue.words = 2 from rfl, ← Nat.add_assoc, ← hB.brk] at hw

theorem Layout.heapInvariant (hL : Layout nf s h ts) : HeapInvariant nf h (pointers s 1 (prologue :: ts)) := by
  have hcell : ∀ c ∈ cells 1 (prologue :: ts), Header s h c.1 c.2 ∧ 2 ≤ c.2.words ∧
      h.word s (c.1 + c.2.words - 1) = tag c.2 := fun c hc => hL.cell hc
  have hepi : Header s h (3 + span ts) Tile.fin := by
    have hline := hL.tiled
    rw [← List.reverse_reverse (prologue :: ts), ← List.append_nil (List.reverse _), tiled_reverse_append,
      span_reverse, span_cons, show prologue.words = 2 from rfl, show 1 + (2 + span ts) = 3 + span ts by omega] at hline
    exact ⟨hline.2, rfl, by decide⟩
  have hpro := (hcell (1, prologue) List.mem_cons_self).1
  refine ⟨hL.walk, ?_, ?_, fun bp hbp => ?_, fun bp hbp => ?_, ?_, fun hnf => ?_⟩
  · rw [hL.list]
    exact ⟨hpro.getSize, hpro.getAlloc⟩
  · rw [hL.brk]
    exact ⟨hepi.getSize, hepi.getAlloc⟩
  · obtain ⟨c, hc, rfl⟩ := List.mem_map.1 hbp
    obtain ⟨hk, h2, hfooter⟩ := hcell c hc
    rw [hk.ftrp' h2, hdrp_blk]
    exact hfooter.trans hk.tag.symm
  · obtain ⟨c, hc, rfl⟩ := List.mem_map.1 hbp
    obtain ⟨hk, -⟩ := hcell c (List.mem_cons_of_mem _ hc)
    have h1 := hL.even c.2 (mem_of_mem_cells hc)
    have h2 := hL.least c.2 (mem_of_mem_cells hc)
    rw [hk.getSize]
    unfold minWords at h2
    unfold DSIZE
    omega
  · have hm : Merged (prologue :: ts) := merged_cons.2 ⟨.inl rfl, hL.merged⟩
    unfold Merged at hm
    rw [← cells_map_snd 1 (prologue :: ts), List.isChain_map] at hm
    unfold pointers
    rw [List.isChain_map]
    refine hm.imp_of_mem_imp fun c d hc hd hno => ?_
    rw [(hcell c hc).1.getAlloc, (hcell d hd).1.getAlloc]
    rcases hno with h1 | h1 <;> simp [h1]
  · obtain ⟨x, hx, hrx⟩ := hL.rover hnf
    obtain ⟨c, hc, rfl⟩ := List.mem_map.1 hx
    exact hrx ▸ List.mem_map.2 ⟨c, hc, rfl⟩

theorem Owned.getAlloc_iff {live : List Block} {bp : Nat} (hown : Owned s ts live) (hL : Layout nf s h ts)
    (hbp : bp ∈ (pointers s 1 (prologue :: ts)).tail) : h.getAlloc (hdrp bp) = 1 ↔ bp ∈ live.map Block.ptr := by
  obtain ⟨⟨x, t⟩, hx, rfl⟩ := List.mem_map.1 hbp
  obtain ⟨hk, -⟩ := hL.cell (List.mem_cons_of_mem _ hx)
  rw [hk.getAlloc]
  constructor
  · intro h1
    obtain ⟨b, hb, he⟩ := hown.all x t hx (by cases ht : t.taken <;> simp_all)
    exact List.mem_map.2 ⟨b, hb, he⟩
  · intro hmem
    obtain ⟨b, hb, he⟩ := List.mem_map.1 hmem
    obtain ⟨y, n, hh⟩ := hown.housed b hb
    obtain rfl : x = y := blk_inj.1 (he.symm.trans hh.ptr)
    rw [cells_inj hL.pos hx hh.cell]
    rfl

/-- **The heap invariant of every run**, with first fit and with next fit: the heap has the layout of
`HeapInvariant`, every live block has room between the tags of an allocated block of its own, and every
allocated block is live. -/
theorem runs_heapInvariant (hs : 8 ∣ s) (hr : Runs nf s c) : ∃ bps, HeapInvariant nf c.heap bps ∧
    (∀ b ∈ c.live, b.ptr ∈ bps.tail ∧ c.heap.getAlloc (hdrp b.ptr) = 1 ∧
      b.size + DSIZE ≤ c.heap.getSize (hdrp b.ptr)) ∧
    (c.live.map Block.ptr).Nodup ∧
    ∀ bp ∈ bps.tail, c.heap.getAlloc (hdrp bp) = 1 → bp ∈ c.live.map Block.ptr := by
  obtain ⟨ts, hL, hown⟩ := owns_of_runs hs hr
  refine ⟨_, hL.heapInvariant, fun b hb => ?_, hown.once, fun bp hbp h1 => ?_⟩
  · obtain ⟨x, n, hh⟩ := hown.housed b hb
    obtain ⟨hk, -⟩ := hL.cell (List.mem_cons_of_mem _ hh.cell)
    rw [hh.ptr, hk.getAlloc, hk.getSize]
    exact ⟨List.mem_map.2 ⟨_, hh.cell, rfl⟩, rfl, hh.fits⟩
  · exact (hown.getAlloc_iff hL hbp).1 h1

theorem runs_heapInvariant_some : ∃ c bps, Runs true 8 c ∧ c.live = [⟨344, 300⟩] ∧
    HeapInvariant true c.heap bps ∧ 344 ∈ bps.tail := by
  obtain ⟨c₀, c, h0, hsteps, hlive⟩ := exists_someRequests true
  have hr : Runs true 8 c := hsteps.reachable (.init h0)
  obtain ⟨bps, hinv, hown, -⟩ := runs_heapInvariant (by decide) hr
  exact ⟨c, bps, hr, hlive, hinv, (hown ⟨344, 300⟩ (by simp [hlive])).1⟩

/-- **What the allocator is for**: every run of a client is a run of separate byte arrays with the same requests,
the blocks are aligned, lie in the heap and do not overlap, and every further request returns. -/
theorem implicit_refines {c₀ : Client Heap} {qs : List Request} (hs : 8 ∣ s)
    (h0 : (clients (mmPackage nf) MAX_REQUEST (Started s)).init c₀)
    (hr : (clients (mmPackage nf) MAX_REQUEST (Started s)).Steps c₀ qs c) :
    arrays.Steps [] qs (contents (mmPackage nf) c) ∧ c.live.Pairwise Block.Apart ∧
    (∀ b ∈ c.live, 8 ∣ b.ptr ∧ c.heap.memHeapLo ≤ b.ptr ∧ b.ptr + b.size ≤ c.heap.memHeapHi + 1) ∧
    ∀ q, Asks (mmPackage nf) MAX_REQUEST c q → ∃ c', Serves (mmPackage nf) MAX_REQUEST c q c' := by
  have hc : Contract (mmPackage nf) 8 MAX_REQUEST (Owns nf s) := implicit_contract hs
  obtain ⟨hsteps, hi⟩ := hc.refines (owns_of_init h0) hr
  have hnil : contents (mmPackage nf) c₀ = [] := by
    unfold contents
    rw [h0.1, List.map_nil]
  rw [hnil] at hsteps
  refine ⟨hsteps, hc.apart hi, fun b hb => ⟨hc.aligned hi hb, hc.inside hi hb⟩, fun q hq => hc.answers hi hq ?_⟩
  rintro b n f rfl hf
  obtain ⟨h', p, hok, -⟩ := Owns.realloc hi hq.1 hq.2.1 hq.2.2
  exact absurd (hf.symm.trans hok) nofun

theorem implicit_refines_some : ∃ c as, Runs false 8 c ∧ arrays.Steps [] someRequests as ∧
    as.map Arr.ptr = [344] ∧ c.live = [⟨344, 300⟩] := by
  obtain ⟨c₀, c, h0, hsteps, hlive⟩ := exists_someRequests false
  obtain ⟨has, -⟩ := implicit_refines (by decide) h0 hsteps
  exact ⟨c, _, hsteps.reachable (.init h0), has, by rw [contents_ptr, hlive]; rfl, hlive⟩

/-! ### Placement -/

def fits (h : Heap) (asize bp : Nat) : Bool := h.getAlloc (hdrp bp) = 0 ∧ asize ≤ h.getSize (hdrp bp)

/-- The blocks in the order of the search: from the start of the list, or around from the rover. -/
def searchOrder (nf : Bool) (h : Heap) (bps : List Nat) : List Nat :=
  if nf then bps.dropWhile (· ≠ h.rover) ++ bps.takeWhile (· ≠ h.rover) else bps

theorem Header.fits_iff {k : Nat} (hk : Header s h k t) : fits h (4 * m) (blk s k) = true ↔ t.Fits m := by
  unfold fits Tile.Fits
  rw [hk.getAlloc, hk.getSize]
  cases t.taken <;> simp

theorem mem_searchOrder {bps : List Nat} {bp : Nat} (hbp : bp ∈ searchOrder nf h bps) : bp ∈ bps := by
  unfold searchOrder at hbp
  split_ifs at hbp
  · rcases List.mem_append.1 hbp with h1 | h1
    · exact (List.dropWhile_sublist _).subset h1
    · exact (List.takeWhile_sublist _).subset h1
  · exact hbp

theorem Layout.order_split (hL : Layout nf s h ts) (ho : Origin nf s h x₀) (hx : (x, t) ∈ cells 1 (prologue :: ts)) :
    ∃ as bs, searchOrder nf h (pointers s 1 (prologue :: ts)) = (as ++ (x, t) :: bs).map (fun c => blk s c.1) ∧
      ∀ c ∈ as, c ∈ cells 1 (prologue :: ts) ∧ Before x₀ x c.1 := by
  have hpos : ∀ c ∈ cells 1 (prologue :: ts), 0 < c.2.words := fun c hc => by
    have := (hL.cell hc).2.1
    omega
  unfold searchOrder Origin pointers at *
  cases nf with
  | false =>
    obtain rfl : x₀ = 1 := by simpa using ho
    obtain ⟨l, r, hsplit, rfl⟩ := exists_of_mem_cells hx
    have hcells : cells 1 (prologue :: ts) = cells 1 l.reverse ++ (1 + span l, t) :: cells (1 + span l + t.words) r := by
      rw [hsplit, cells_append, span_reverse, cells]
    refine ⟨_, _, by rw [if_neg (by simp), hcells], fun c hc => ?_⟩
    have hmem : c ∈ cells 1 (prologue :: ts) := by
      rw [hcells]
      exact List.mem_append_left _ hc
    have hb := cells_bounds hc
    have hc0 := hpos c hmem
    rw [span_reverse] at hb
    exact ⟨hmem, .inl (by omega)⟩
  | true =>
    have ho : h.rover = blk s x₀ := by simpa using ho
    obtain ⟨x₁, hx₁, hrx⟩ := hL.rover rfl
    obtain rfl : x₁ = x₀ := blk_inj.1 (hrx.symm.trans ho)
    obtain ⟨⟨_, t₀⟩, hc₀, rfl⟩ := List.mem_map.1 hx₁
    obtain ⟨L, R, hsplit, hpos₀⟩ := exists_of_mem_cells hc₀
    have hcells : cells 1 (prologue :: ts) = cells 1 L.reverse ++ cells (1 + span L) (t₀ :: R) := by
      rw [hsplit, cells_append, span_reverse]
    have hleft : ∀ c ∈ cells 1 L.reverse, c.1 < 1 + span L := fun c hc => by
      have hb := cells_bounds hc
      have hc0 := hpos c (by rw [hcells]; exact List.mem_append_left _ hc)
      rw [span_reverse] at hb
      omega
    have hne : ∀ bp ∈ (cells 1 L.reverse).map (fun c => blk s c.1), (decide (bp ≠ h.rover) : Bool) = true := by
      intro bp hbp
      obtain ⟨c, hc, rfl⟩ := List.mem_map.1 hbp
      have := hleft c hc
      rw [ho]
      simp only [ne_eq, blk_inj, decide_eq_true_eq]
      omega
    have horder : (pointers s 1 (prologue :: ts)).dropWhile (· ≠ h.rover) ++
        (pointers s 1 (prologue :: ts)).takeWhile (· ≠ h.rover) =
        (cells (1 + span L) (t₀ :: R) ++ cells 1 L.reverse).map fun c => blk s c.1 := by
      unfold pointers
      rw [hcells, List.map_append, List.dropWhile_append_of_pos hne, List.takeWhile_append_of_pos hne, List.map_append]
      simp only [cells, List.map_cons]
      rw [List.dropWhile_cons_of_neg (by simpa [ho] using congrArg (blk s) hpos₀.symm),
        List.takeWhile_cons_of_neg (by simpa [ho] using congrArg (blk s) hpos₀.symm), List.append_nil]
    rw [if_pos rfl]
    subst hpos₀
    rw [hcells] at hx
    rcases List.mem_append.1 hx with hx | hx
    · -- the block stands before the rover
      have hlt := hleft _ hx
      obtain ⟨l, r, hL', rfl⟩ := exists_of_mem_cells hx
      refine ⟨cells (1 + span L) (t₀ :: R) ++ cells 1 l.reverse, cells (1 + span l + t.words) r, ?_, fun c hc => ?_⟩
      · refine horder.trans (congrArg _ ?_)
        rw [hL', cells_append, span_reverse, List.append_assoc]
        rfl
      · rcases List.mem_append.1 hc with hc | hc
        · exact ⟨by rw [hcells]; exact List.mem_append_right _ hc, .inr ⟨hlt, .inl (cells_bounds hc).1⟩⟩
        · have hmem : c ∈ cells 1 L.reverse := by
            rw [hL', cells_append]
            exact List.mem_append_left _ hc
          have hb := cells_bounds hc
          have hc0 := hpos c (by rw [hcells]; exact List.mem_append_left _ hmem)
          rw [span_reverse] at hb
          exact ⟨by rw [hcells]; exact List.mem_append_left _ hmem, .inr ⟨hlt, .inr (by omega)⟩⟩
    · obtain ⟨l, r, hR, rfl⟩ := exists_of_mem_cells hx
      refine ⟨cells (1 + span L) l.reverse, cells (1 + span L + span l + t.words) r ++ cells 1 L.reverse, ?_, fun c hc => ?_⟩
      · refine horder.trans (congrArg _ ?_)
        rw [hR, cells_append, span_reverse, List.append_assoc]
        rfl
      · have hmem : c ∈ cells (1 + span L) (t₀ :: R) := by
          rw [hR, cells_append]
          exact List.mem_append_left _ hc
        have hb := cells_bounds hc
        have hc0 := hpos c (by rw [hcells]; exact List.mem_append_right _ hmem)
        rw [span_reverse] at hb
        exact ⟨by rw [hcells]; exact List.mem_append_right _ hmem, .inl (by omega)⟩

/-- The search of the source order finds what `find_fit` finds. -/
theorem Layout.find_found {l r : List Tile} (hL : Layout nf s h ts) (ho : Origin nf s h x₀) (hf : Found m x₀ ts l t r) :
    (searchOrder nf h (pointers s 1 (prologue :: ts))).find? (fits h (4 * m)) = some (blk s (3 + span l)) := by
  have hmem : (3 + span l, t) ∈ cells 3 ts := by
    rw [hf.split]
    exact Place.mem_cells_line (z := ⟨l, t, r⟩)
  obtain ⟨as, bs, horder, has⟩ := hL.order_split ho (List.mem_cons_of_mem _ hmem)
  rw [horder, List.find?_map, List.find?_eq_some_iff_append.2 ⟨?_, as, bs, rfl, fun c hc => ?_⟩]
  · rfl
  · exact (hL.cell (List.mem_cons_of_mem _ hmem)).1.fits_iff.2 hf.fits
  · obtain ⟨hc1, hbefore⟩ := has c hc
    have hno : ¬ c.2.Fits m := by
      rcases List.mem_cons.1 hc1 with rfl | hc3
      · exact fun h1 => by cases h1.1
      · exact hf.first c hc3 hbefore
    have := mt (hL.cell hc1).1.fits_iff.1 hno
    simpa using this

theorem Layout.find_none (hL : Layout nf s h ts) (hno : ∀ t ∈ ts, ¬ t.Fits m) :
    (searchOrder nf h (pointers s 1 (prologue :: ts))).find? (fits h (4 * m)) = none := by
  rw [List.find?_eq_none]
  intro bp hbp
  obtain ⟨c, hc, rfl⟩ := List.mem_map.1 (mem_searchOrder hbp)
  refine mt (hL.cell hc).1.fits_iff.1 ?_
  rcases List.mem_cons.1 hc with rfl | hc3
  · exact fun h1 => by cases h1.1
  · exact hno _ (mem_of_mem_cells hc3)

theorem Handed.span_eq {ts' : List Tile} (hh : Handed m x₀ ts ts' x) :
    (∃ l t r, Found m x₀ ts l t r ∧ x = 3 + span l ∧ span ts' = span ts) ∨
    (∀ t ∈ ts, ¬ t.Fits m) ∧ span ts' = span ts + max m 1024 := by
  cases hh with
  | @found l r t hf =>
    refine .inl ⟨l, t, r, hf, rfl, ?_⟩
    rw [span_append, span_append, Tile.span_cut _ hf.fits.2, hf.split, span_append, span_cons, Nat.add_assoc]
  | extended hno hroom =>
    refine .inr ⟨hno, ?_⟩
    have hline : span (grown ts (max m 1024)).line = span ts + max m 1024 := by
      unfold grown
      rw [Place.span_line_coalesce]
      simp [Place.line]
    rw [span_append, Tile.span_cut _ (le_trans (le_max_left m 1024) grown_words), ← hline, Place.line, grown_right]
    simp

/-- **Placement**: in every run `mm_malloc` hands out the first block that fits in the order of the search and
leaves the break where it is. Only when no block fits does it extend the heap, by the block size or by
`CHUNKSIZE`, and it returns `NULL` only when there is no room for that. -/
theorem placement (hs : 8 ∣ s) (hr : Runs nf s c) (h0 : 0 < size) (hn : size ≤ MAX_REQUEST) : ∃ bps h' r,
    Walk c.heap c.heap.heapListp bps c.heap.memBrk ∧ c.heap.mmMalloc nf size = .ok (h', r) ∧
    match (searchOrder nf c.heap bps).find? (fits c.heap (Heap.adjust size)) with
    | some bp => r = bp ∧ h'.memBrk = c.heap.memBrk
    | none => if c.heap.memBrk + max (Heap.adjust size) CHUNKSIZE ≤ c.heap.memMaxAddr
        then r ≠ NULL ∧ h'.memBrk = c.heap.memBrk + max (Heap.adjust size) CHUNKSIZE
        else r = NULL ∧ h' = c.heap := by
  obtain ⟨ts, hL, -⟩ := owns_of_runs hs hr
  obtain ⟨x₀, ho⟩ := hL.exists_origin
  have hadj := adjust_eq hn
  have hchunk : max (4 * blockWords size) CHUNKSIZE = 4 * max (blockWords size) 1024 := by
    unfold CHUNKSIZE
    omega
  have hroom : c.heap.memBrk + max (Heap.adjust size) CHUNKSIZE ≤ c.heap.memMaxAddr ↔
      4 * (4 + span ts + max (blockWords size) 1024) ≤ MAX_HEAP := by
    rw [hadj, hchunk, hL.brk, hL.max]
    unfold blk
    omega
  rcases hL.mmMalloc ho h0 hn with ⟨hno, hfull, hok⟩ | ⟨ts', x, h', hh, hok, hL', -⟩
  · refine ⟨_, c.heap, NULL, hL.walk, hok, ?_⟩
    rw [hadj, hL.find_none hno, ← hadj, if_neg (by omega)]
    exact ⟨rfl, rfl⟩
  · refine ⟨_, h', blk s x, hL.walk, hok, ?_⟩
    rcases hh.span_eq with ⟨l, t, r, hf, rfl, hspan⟩ | ⟨hno, hspan⟩
    · rw [hadj, hL.find_found ho hf]
      exact ⟨rfl, by rw [hL'.brk, hL.brk, hspan]⟩
    · have hfits : 4 * (4 + span ts + max (blockWords size) 1024) ≤ MAX_HEAP := by
        have := hL'.room
        omega
      rw [hadj, hL.find_none hno]
      simp only
      rw [← hadj, if_pos (hroom.2 hfits), hadj, hchunk, hL'.brk, hL.brk, hspan]
      refine ⟨blk_ne_null, ?_⟩
      unfold blk
      omega

theorem placement_some : ∃ c bps, Runs true 8 c ∧ c.live = [⟨344, 300⟩] ∧
    Walk c.heap c.heap.heapListp bps c.heap.memBrk ∧ ∃ h' r, c.heap.mmMalloc true 5000 = .ok (h', r) := by
  obtain ⟨c₀, c, h0, hsteps, hlive⟩ := exists_someRequests true
  have hr : Runs true 8 c := hsteps.reachable (.init h0)
  obtain ⟨bps, h', r, hw, hok, -⟩ := placement (by decide) hr (by decide : 0 < 5000) (by decide)
  exact ⟨c, bps, hr, hlive, hw, h', r, hok⟩

end CsappLab.Implicit
