import CsappLab.Implicit.Coalesce

/-!
# The layout of the heap

`Layout` holds between calls: prologue, blocks and epilogue fill the heap, no two free blocks touch, and with
`NEXT_FIT` the rover points to a block. The functions below `mm_malloc` and `mm_free` are stated on it:
`find_fit` finds the first block that fits, from the start of the list or around from the rover, `place` cuts
it, and `extend_heap` adds a block at the end.
-/

namespace CsappLab.Implicit
open ByteMem CInt Tiling

def prologue : Tile := ⟨2, true⟩

def minWords : Nat := 4

/-- The heap that starts at `s` holds the blocks `ts`, the first one at word 3. -/
structure Blocks (nf : Bool) (s : Nat) (h : Heap) (ts : List Tile) : Prop where
  start : h.memHeap = s
  max : h.memMaxAddr = s + MAX_HEAP
  list : h.heapListp = blk s 1
  brk : h.memBrk = blk s (3 + span ts)
  room : 4 * (4 + span ts) ≤ MAX_HEAP
  tiled : Tiled tag (h.word s) 1 (prologue :: ts)
  even : ∀ t ∈ ts, t.words % 2 = 0
  least : ∀ t ∈ ts, minWords ≤ t.words
  rover : RoverOk nf s h (prologue :: ts)

/-- No two free blocks touch. -/
structure Layout (nf : Bool) (s : Nat) (h : Heap) (ts : List Tile) : Prop extends Blocks nf s h ts where
  merged : Merged ts

variable {nf : Bool} {s a k n m x y : Nat} {h h' : Heap} {p t u : Tile} {l r ts ts' : List Tile} {cond : Nat → Bool}

theorem MAX_HEAP_eq : MAX_HEAP = 20971520 := rfl

theorem Blocks.sound (hL : Blocks nf s h ts) : Sound (prologue :: ts) where
  even := by
    simp only [List.mem_cons, forall_eq_or_imp]
    exact ⟨rfl, hL.even⟩
  short := by
    have := hL.room
    rw [MAX_HEAP_eq] at this
    rw [span_cons, show prologue.words = 2 from rfl]
    omega

/-! ### The search -/

theorem Header.search_cons {fuel : Nat} (hk : Header s h k t) (hc : cond (blk s k) = true) :
    h.search (4 * m) cond (fuel + 1) (blk s k) =
      if t.Fits m then .ok (blk s k, true) else h.search (4 * m) cond fuel (blk s (k + t.words)) := by
  rw [Heap.search, if_neg (by simp [hc]), hk.getAlloc, hk.getSize, hk.nextBlkp]
  refine if_congr ?_ rfl rfl
  unfold Tile.Fits
  cases t.taken <;> simp

/-- **A search** over the blocks `ts` from word `a` on. -/
theorem search_spec {fuel : Nat} (cond : Nat → Bool) (hline : Tiled tag (h.word s) a (ts ++ r)) (hs : Sound ts)
    (hcond : ∀ c ∈ cells a ts, cond (blk s c.1) = true) (hstop : cond (blk s (a + span ts)) = false)
    (hfuel : ts.length < fuel) :
    (∃ l t r, ts = l.reverse ++ t :: r ∧ t.Fits m ∧ (∀ u ∈ l, ¬ u.Fits m) ∧
      h.search (4 * m) cond fuel (blk s a) = .ok (blk s (a + span l), true)) ∨
    (∀ t ∈ ts, ¬ t.Fits m) ∧ h.search (4 * m) cond fuel (blk s a) = .ok (blk s (a + span ts), false) := by
  induction ts generalizing a fuel with
  | nil =>
    obtain ⟨fuel, rfl⟩ : ∃ n, fuel = n + 1 := ⟨fuel - 1, by simp at hfuel; omega⟩
    refine .inr ⟨by simp, ?_⟩
    rw [Heap.search, if_pos (by simpa using hstop)]
    rfl
  | cons t ts ih =>
    obtain ⟨fuel, rfl⟩ : ∃ n, fuel = n + 1 := ⟨fuel - 1, by simp at hfuel; omega⟩
    obtain ⟨-, htag, -, hrest⟩ := hline
    have hk : Header s h a t := hs.header (by simp) htag
    rw [hk.search_cons (hcond (a, t) (by simp [cells]))]
    by_cases hf : t.Fits m
    · exact .inl ⟨[], t, ts, rfl, hf, by simp, by rw [if_pos hf]; rfl⟩
    rw [if_neg hf]
    have hs' : Sound ts := ⟨fun u hu => hs.even u (by simp [hu]), by
      have := hs.short
      rw [span_cons] at this
      omega⟩
    rw [span_cons] at hstop ⊢
    rw [← Nat.add_assoc] at hstop ⊢
    rcases ih hrest hs' (fun c hc => hcond c (by simp [cells, hc])) hstop (by simpa using hfuel) with
      ⟨l, u, r', rfl, hu, hl, hsearch⟩ | ⟨hno, hsearch⟩
    · refine .inl ⟨l ++ [t], u, r', by simp, hu, ?_, ?_⟩
      · simp only [List.mem_append, List.mem_singleton]
        rintro v (hv | rfl)
        · exact hl v hv
        · exact hf
      · rw [hsearch, span_append, span_cons, span_nil]
        congr 3
        omega
    · refine .inr ⟨?_, hsearch⟩
      simp only [List.mem_cons, forall_eq_or_imp]
      exact ⟨hf, hno⟩

theorem Tiled.notEpilogue (hline : Tiled tag (h.word s) a ts) (hs : Sound ts) :
    (∀ c ∈ cells a ts, h.notEpilogue (blk s c.1) = true) ∧ h.notEpilogue (blk s (a + span ts)) = false := by
  induction ts generalizing a with
  | nil =>
    have hk : Header s h a Tile.fin := ⟨hline, rfl, by decide⟩
    refine ⟨by simp [cells], ?_⟩
    rw [span_nil, Nat.add_zero, Heap.notEpilogue, hk.getSize]
    rfl
  | cons t ts ih =>
    obtain ⟨h2, htag, -, hrest⟩ := hline
    have hk : Header s h a t := hs.header (by simp) htag
    obtain ⟨h1, h3⟩ := ih hrest ⟨fun u hu => hs.even u (by simp [hu]), by
      have := hs.short
      rw [span_cons] at this
      omega⟩
    rw [span_cons, ← Nat.add_assoc]
    refine ⟨?_, h3⟩
    rw [cells, List.forall_mem_cons]
    refine ⟨?_, h1⟩
    simp only [Heap.notEpilogue, hk.getSize, decide_eq_true_eq]
    omega

/-- On the way around from word `x₀`, word `y` comes before word `x`. -/
def Before (x₀ x y : Nat) : Prop := x₀ ≤ y ∧ y < x ∨ x < x₀ ∧ (x₀ ≤ y ∨ y < x)

/-- The word where the search starts. -/
def Origin (nf : Bool) (s : Nat) (h : Heap) (x₀ : Nat) : Prop := if nf then h.rover = blk s x₀ else x₀ = 1

theorem prologue_split {l : List Tile} (he : prologue :: ts = l.reverse ++ t :: r) (ht : t.taken = false) :
    ∃ l', l = l' ++ [prologue] ∧ ts = l'.reverse ++ t :: r := by
  rcases List.eq_nil_or_concat l with rfl | ⟨l', p, rfl⟩
  · rw [List.reverse_nil, List.nil_append, List.cons.injEq] at he
    rw [← he.1] at ht
    cases ht
  · rw [List.concat_eq_append, List.reverse_append, List.reverse_singleton, List.append_assoc, List.singleton_append,
      List.cons.injEq] at he
    exact ⟨l', by rw [List.concat_eq_append, he.1], he.2⟩

theorem blk_ne_null : blk s k ≠ NULL := by
  unfold blk NULL
  omega

/-- The block that `find_fit` has found, and the blocks that it has passed. -/
structure Found (m x₀ : Nat) (ts l : List Tile) (t : Tile) (r : List Tile) : Prop where
  split : ts = l.reverse ++ t :: r
  fits : t.Fits m
  first : ∀ c ∈ cells 3 ts, Before x₀ (3 + span l) c.1 → ¬ c.2.Fits m

theorem Found.of_search {L A R l₁ r₁ : List Tile} (x₀ : Nat) (hline : Tiled tag (h.word s) 1 (prologue :: ts))
    (he : prologue :: ts = L.reverse ++ A ++ R) (hA : A = l₁.reverse ++ t :: r₁) (ht : t.Fits m)
    (hl : ∀ u ∈ l₁, ¬ u.Fits m)
    (hx : ∀ y, Before x₀ (1 + span L + span l₁) y → y < 1 + span L → ∀ u, (y, u) ∈ cells 1 L.reverse → ¬ u.Fits m)
    (hx' : ∀ y, Before x₀ (1 + span L + span l₁) y → 1 + span L + span l₁ < y →
      ∀ u, (y, u) ∈ cells 1 (prologue :: ts) → ¬ u.Fits m) :
    ∃ l, 1 + span L + span l₁ = 3 + span l ∧ Found m x₀ ts l t (r₁ ++ R) := by
  subst hA
  have hwhole : prologue :: ts = (l₁ ++ L).reverse ++ t :: (r₁ ++ R) := by rw [he]; simp
  obtain ⟨l, hl', hts⟩ := prologue_split hwhole ht.1
  have hpos : 1 + span L + span l₁ = 3 + span l := by
    have := congrArg span hl'
    simp only [span_append, span_cons, span_nil, show prologue.words = 2 from rfl] at this
    omega
  refine ⟨l, hpos, hts, ht, ?_⟩
  rw [← hpos]
  rintro ⟨y, u⟩ hc hbefore
  have hc' : (y, u) ∈ cells 1 (prologue :: ts) := List.mem_cons_of_mem _ hc
  have hmem := hc'
  rw [hwhole, List.reverse_append, List.append_assoc, cells_append, cells_append, span_reverse, span_reverse] at hmem
  have hu := hline.two_le (mem_of_mem_cells hc')
  rcases List.mem_append.1 hmem with h1 | h1
  · have hb := cells_bounds h1
    rw [span_reverse] at hb
    exact hx y hbefore (by omega) u h1
  rcases List.mem_append.1 h1 with h1 | h1
  · exact hl u (List.mem_reverse.1 (mem_of_mem_cells h1))
  rcases List.mem_cons.1 h1 with h1 | h1
  · obtain ⟨rfl, rfl⟩ := Prod.mk.inj h1
    unfold Before at hbefore
    simp only at hbefore
    omega
  · have hb := cells_bounds h1
    have ht2 := hline.two_le (t := t) (by rw [hwhole]; simp)
    exact hx' y hbefore (by omega) u hc'

theorem Sound.of_append {A B : List Tile} (hs : Sound (A ++ B)) : Sound A ∧ Sound B := by
  have hshort := hs.short
  rw [span_append] at hshort
  exact ⟨⟨fun t ht => hs.even t (by simp [ht]), by omega⟩, ⟨fun t ht => hs.even t (by simp [ht]), by omega⟩⟩

/-- **`find_fit`.** -/
theorem findFit_spec {x₀ : Nat} (hL : Layout nf s h ts) (ho : Origin nf s h x₀) :
    (∃ l t r ρ, Found m x₀ ts l t r ∧ (nf = true → ρ = blk s (3 + span l)) ∧
      h.findFit nf (4 * m) = .ok ({ h with rover := ρ }, blk s (3 + span l))) ∨
    (∀ t ∈ ts, ¬ t.Fits m) ∧ h.findFit nf (4 * m) = .ok (h, NULL) := by
  have hlen : (prologue :: ts).length < MAX_HEAP := by
    have h1 := hL.tiled.length_le
    have h2 := hL.room
    rw [span_cons, show prologue.words = 2 from rfl] at h1
    rw [MAX_HEAP_eq] at *
    omega
  unfold Heap.findFit Origin at *
  cases nf with
  | false =>
    -- one search over the whole list
    obtain rfl : x₀ = 1 := by simpa using ho
    have hwhole : prologue :: ts = ([] : List Tile).reverse ++ (prologue :: ts) ++ [] := by simp
    obtain ⟨hcond, hstop⟩ := Tiled.notEpilogue hL.tiled hL.toBlocks.sound
    rw [if_neg (by simp)]
    rcases search_spec (m := m) _ (by rw [List.append_nil]; exact hL.tiled) hL.toBlocks.sound hcond hstop hlen with
      ⟨l₁, t, r₁, hA, ht, hl, hsearch⟩ | ⟨hno, hsearch⟩
    · obtain ⟨l, hpos, hf⟩ := Found.of_search 1 hL.tiled hwhole hA ht hl (by simp [cells])
        fun y hb hy => by
          unfold Before at hb
          simp only [span_nil] at hb hy
          omega
      rw [span_nil, Nat.add_zero] at hpos
      refine .inl ⟨l, t, _, h.rover, hf, fun h1 => absurd h1 Bool.false_ne_true, ?_⟩
      rw [← hL.list, hpos] at hsearch
      rw [hsearch]
      rfl
    · refine .inr ⟨fun t ht => hno t (by simp [ht]), ?_⟩
      rw [← hL.list] at hsearch
      rw [hsearch]
      rfl
  | true =>
    obtain ⟨x, hx, hrx⟩ := hL.rover rfl
    obtain ⟨⟨x', t₀⟩, hc, hxx⟩ := List.mem_map.1 hx
    obtain rfl : x' = x := hxx
    obtain ⟨L, R, hsplit, rfl⟩ := exists_of_mem_cells hc
    have ho : h.rover = blk s x₀ := by simpa using ho
    obtain rfl : x₀ = 1 + span L := blk_inj.1 (ho.symm.trans hrx)
    have hline := hL.tiled
    rw [hsplit, tiled_reverse_append] at hline
    have hsound := hL.toBlocks.sound
    rw [hsplit] at hsound hlen
    obtain ⟨hs₁, hs₂⟩ := hsound.of_append
    obtain ⟨hcond, hstop⟩ := Tiled.notEpilogue hline.2 hs₂
    rw [if_pos rfl]
    -- from the rover to the end of the list
    rcases search_spec (m := m) _ (by rw [List.append_nil]; exact hline.2) hs₂ hcond hstop
      (lt_of_le_of_lt (by simp) hlen) with ⟨l₁, t, r₁, hA, ht, hl, hsearch⟩ | ⟨hno, hsearch⟩
    · obtain ⟨l, hpos, hf⟩ := Found.of_search (R := []) (1 + span L) hL.tiled (by simpa using hsplit) hA ht hl
        (fun y hb hy => by unfold Before at hb; omega) fun y hb hy => by unfold Before at hb; omega
      refine .inl ⟨l, t, _, blk s (3 + span l), hf, fun _ => rfl, ?_⟩
      rw [← ho, hpos] at hsearch
      simp only [hsearch, bind, Except.bind]
      rfl
    -- from the start of the list to the rover
    rw [← ho] at hsearch
    simp only [hsearch, bind, Except.bind]
    have hbefore : ∀ c ∈ cells 1 L.reverse, (decide (blk s c.1 < blk s (1 + span L)) : Bool) = true := by
      rintro ⟨y, u⟩ hc
      have hb := cells_bounds hc
      have h2 := hL.tiled.two_le (t := u) (by rw [hsplit]; simp [List.mem_reverse.1 (mem_of_mem_cells hc)])
      rw [span_reverse] at hb
      refine decide_eq_true ?_
      unfold blk
      omega
    have hline' : Tiled tag (h.word s) 1 (L.reverse ++ t₀ :: R) := hsplit ▸ hL.tiled
    rcases search_spec (m := m) (fun rover => decide (rover < blk s (1 + span L))) hline' hs₁ hbefore (by simp)
      (lt_of_le_of_lt (by simp) hlen) with ⟨l₁, t, r₁, hA, ht, hl, hsearch'⟩ | ⟨hno', hsearch'⟩
    · have hlt : span l₁ < span L := by
        have h1 := congrArg span hA
        have h2 := hL.tiled.two_le (t := t) (by rw [hsplit, hA]; simp)
        rw [span_reverse, span_append, span_reverse, span_cons] at h1
        omega
      obtain ⟨l, hpos, hf⟩ := Found.of_search (L := []) (1 + span L) hL.tiled (by simpa using hsplit) hA ht hl
        (by simp [cells]) fun y hb hy u hc => by
          rw [hsplit, cells_append, span_reverse] at hc
          rcases List.mem_append.1 hc with hc | hc
          · have hb' := cells_bounds hc
            have h2 := hL.tiled.two_le (t := u) (by rw [hsplit]; simp [List.mem_reverse.1 (mem_of_mem_cells hc)])
            rw [span_reverse] at hb'
            unfold Before at hb
            rw [span_nil] at hb hy
            omega
          · exact hno u (mem_of_mem_cells hc)
      rw [span_nil, Nat.add_zero] at hpos
      refine .inl ⟨l, t, _, blk s (3 + span l), hf, fun _ => rfl, ?_⟩
      rw [← ho, ← hL.list, hpos] at hsearch'
      rw [hsearch']
      rfl
    · refine .inr ⟨fun t ht => ?_, ?_⟩
      · have hmem : t ∈ L.reverse ++ t₀ :: R := hsplit ▸ List.mem_cons_of_mem _ ht
        rcases List.mem_append.1 hmem with h1 | h1
        · exact hno' t h1
        · exact hno t h1
      · rw [span_reverse, ← ho, ← hL.list] at hsearch'
        rw [hsearch']
        rfl

end CsappLab.Implicit
