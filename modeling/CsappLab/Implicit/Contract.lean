import CsappLab.Lib.Allocator
import CsappLab.Lib.Fuel
import CsappLab.Implicit.Ops

/-!
# The contract of the implicit-list allocator

The allocator meets the contract of an allocator for requests of less than `2 ^ 31 - 15` bytes, with first fit
and with next fit. `mm_realloc` always allocates, copies and frees, so its part of the contract follows from the
other parts; the copy takes the tags of the old block along, into the new payload.
-/

namespace CsappLab.Implicit
open ByteMem CInt Alloc Tiling Fuel

/-- The functions of `mm.c` under a driver that resets the break before `mm_init`. -/
def mmPackage (nf : Bool) : Package Heap Fault where
  init h := .ok (h.memResetBrk.mmInit nf)
  malloc := Heap.mmMalloc nf
  free h p := .ok (h.mmFree nf p)
  realloc := Heap.mmRealloc nf
  mem h := h.mem
  setMem h m := { h with mem := m }
  heapLo := Heap.memHeapLo
  heapHi := Heap.memHeapHi

/-- The largest request whose block size is an `int`. -/
def MAX_REQUEST : Nat := 2 ^ 31 - 16

/-- The block `b` of a client lies in the payload of the taken tile at word `x`. -/
structure Houses (s : Nat) (ts : List Tile) (b : Block) (x n : Nat) : Prop where
  cell : (x, ⟨n, true⟩) ∈ cells 3 ts
  ptr : b.ptr = blk s x
  fits : b.size + 8 ≤ 4 * n

/-- The client owns the taken blocks, and no others. -/
structure Owned (s : Nat) (ts : List Tile) (live : List Block) : Prop where
  once : (live.map Block.ptr).Nodup
  nonempty : ∀ b ∈ live, 0 < b.size
  housed : ∀ b ∈ live, ∃ x n, Houses s ts b x n
  all : ∀ x t, (x, t) ∈ cells 3 ts → t.taken = true → ∃ b ∈ live, b.ptr = blk s x

/-- The heap is in order and the client owns its taken blocks. -/
def Owns (nf : Bool) (s : Nat) (h : Heap) (live : List Block) : Prop := ∃ ts, Layout nf s h ts ∧ Owned s ts live

variable {nf : Bool} {s n p x x₀ y size : Nat} {h h' : Heap} {t u : Tile} {l r ts ts' : List Tile} {live : List Block}
  {b d : Block} {m : Mem}

theorem Layout.exists_origin (hL : Layout nf s h ts) : ∃ x₀, Origin nf s h x₀ := by
  unfold Origin
  cases nf with
  | false => exact ⟨1, rfl⟩
  | true =>
    obtain ⟨x, -, hx⟩ := hL.rover rfl
    exact ⟨x, hx⟩

theorem Layout.write (hL : Layout nf s h ts) (hc : (x, t) ∈ cells 3 ts)
    (hm : ∀ y, y < blk s x ∨ s + 4 * (x + t.words - 1) ≤ y → m y = h.mem y) : Layout nf s { h with mem := m } ts := by
  have hpos : ∀ u ∈ prologue :: ts, 0 < u.words := fun u hu => by
    have := hL.tiled.two_le hu
    omega
  have hc' : (x, t) ∈ cells 1 (prologue :: ts) := List.mem_cons_of_mem _ hc
  have ht := hL.tiled.two_le (mem_of_mem_cells hc')
  have hword : ∀ i, i ≤ x ∨ x + t.words - 1 ≤ i → wordAt m s i = wordAt h.mem s i := fun i hi =>
    wordAt_congr fun y h1 h2 => hm y (by unfold blk; omega)
  refine ⟨⟨hL.start, hL.max, hL.list, hL.brk, hL.room, ?_, hL.even, hL.least, hL.rover⟩, hL.merged⟩
  refine hL.tiled.congr_tags (hword _ (.inr ?_)) ?_
  · have := cells_bounds hc'
    omega
  · rintro ⟨y, u⟩ hy
    have hu := hL.tiled.two_le (mem_of_mem_cells hy)
    simp only
    rcases cells_apart hpos hy hc' with ⟨rfl, rfl⟩ | h1 | h1
    · exact ⟨hword _ (.inl le_rfl), hword _ (.inr le_rfl)⟩
    · exact ⟨hword _ (.inl (by omega)), hword _ (.inl (by omega))⟩
    · exact ⟨hword _ (.inr (by omega)), hword _ (.inr (by omega))⟩

namespace Houses

theorem has_cell (hh : Houses s ts b x n) (hy : b.Has y) : s + 4 * x ≤ y ∧ y < s + 4 * (x + n) := by
  have h1 := hh.ptr
  have h2 := hh.fits
  unfold Block.Has at hy
  unfold blk at h1
  omega

theorem has_payload (hh : Houses s ts b x n) (hy : b.Has y) : blk s x ≤ y ∧ y < s + 4 * (x + n - 1) := by
  have h1 := hh.ptr
  have h2 := hh.fits
  unfold Block.Has at hy
  unfold blk at *
  omega

theorem congr (hh : Houses s ts b x n) (hc : (x, ⟨n, true⟩) ∈ cells 3 ts') : Houses s ts' b x n := ⟨hc, hh.ptr, hh.fits⟩

end Houses

namespace Owned

theorem keeps (ho : Owned s ts live) (hk : KeepsTaken s ts x h h') (hx : ∀ b ∈ live, b.ptr ≠ blk s x) :
    Keeps (mmPackage nf) h h' live := by
  intro b hb y hy
  obtain ⟨z, n, hh⟩ := ho.housed b hb
  have hcell := hh.has_cell hy
  refine hk (z, ⟨n, true⟩) hh.cell rfl (fun he => hx b hb ?_) y hcell.1 hcell.2
  rw [hh.ptr, show z = x from he]

theorem apart (ho : Owned s ts live) (hpos : ∀ t ∈ ts, 0 < t.words) : live.Pairwise Block.Apart := by
  refine (List.pairwise_map.1 ho.once).imp_of_mem fun {b d} hb hd hne => ?_
  obtain ⟨x, n, hx⟩ := ho.housed b hb
  obtain ⟨y, k, hy⟩ := ho.housed d hd
  have h1 := hx.ptr
  have h2 := hx.fits
  have h3 := hy.ptr
  have h4 := hy.fits
  unfold Block.Apart
  rcases cells_apart hpos hx.cell hy.cell with ⟨rfl, -⟩ | h5 | h5
  · exact absurd (h1.trans h3.symm) hne
  · unfold blk at h1 h3
    simp only at h5
    omega
  · unfold blk at h1 h3
    simp only at h5
    omega

end Owned

theorem Owned.cons (ho : Owned s ts live) (hx : ∀ u, u.taken = true → (x, u) ∉ cells 3 ts) (h0 : 0 < size)
    (hn : size + 8 ≤ 4 * n)
    (hcells : ∀ y u, u.taken = true → ((y, u) ∈ cells 3 ts' ↔ (y, u) ∈ cells 3 ts ∨ y = x ∧ u = ⟨n, true⟩)) :
    Owned s ts' (⟨blk s x, size⟩ :: live) := by
  have hnew : ∀ b ∈ live, b.ptr ≠ blk s x := fun b hb he => by
    obtain ⟨z, k, hh⟩ := ho.housed b hb
    rw [hh.ptr, blk_inj] at he
    exact hx ⟨k, true⟩ rfl (he ▸ hh.cell)
  refine ⟨List.nodup_cons.2 ⟨fun hmem => ?_, ho.once⟩, ?_, ?_, fun y u hy hu => ?_⟩
  · obtain ⟨b, hb, he⟩ := List.mem_map.1 hmem
    exact hnew b hb he
  · simp only [List.mem_cons, forall_eq_or_imp]
    exact ⟨h0, ho.nonempty⟩
  · simp only [List.mem_cons, forall_eq_or_imp]
    refine ⟨⟨x, n, (hcells x _ rfl).2 (.inr ⟨rfl, rfl⟩), rfl, hn⟩, fun b hb => ?_⟩
    obtain ⟨z, k, hh⟩ := ho.housed b hb
    exact ⟨z, k, hh.congr ((hcells z _ rfl).2 (.inl hh.cell))⟩
  · rcases (hcells y u hu).1 hy with hy | ⟨rfl, -⟩
    · obtain ⟨b, hb, he⟩ := ho.all y u hy hu
      exact ⟨b, by simp [hb], he⟩
    · exact ⟨_, List.mem_cons_self, rfl⟩

theorem Owned.drop (ho : Owned s ts live)
    (hcells : ∀ y u, u.taken = true → ((y, u) ∈ cells 3 ts' ↔ (y, u) ∈ cells 3 ts ∧ y ≠ x)) :
    Owned s ts' (dropPtr (blk s x) live) := by
  have hne : ∀ b ∈ dropPtr (blk s x) live, b ∈ live ∧ b.ptr ≠ blk s x := fun b hb => mem_dropPtr.1 hb
  refine ⟨ho.once.sublist (List.filter_sublist.map _), fun b hb => ho.nonempty b (hne b hb).1, fun b hb => ?_,
    fun y u hy hu => ?_⟩
  · obtain ⟨z, k, hh⟩ := ho.housed b (hne b hb).1
    refine ⟨z, k, hh.congr ((hcells z _ rfl).2 ⟨hh.cell, fun he => (hne b hb).2 ?_⟩)⟩
    rw [hh.ptr, he]
  · obtain ⟨hy, hyx⟩ := (hcells y u hu).1 hy
    obtain ⟨b, hb, he⟩ := ho.all y u hy hu
    exact ⟨b, mem_dropPtr.2 ⟨hb, by rw [he]; exact fun h1 => hyx (blk_inj.1 h1)⟩, he⟩

/-! ### The operations -/

theorem MAX_REQUEST_eq : MAX_REQUEST = 2 ^ 31 - 16 := rfl

namespace Owns

theorem malloc (ho : Owns nf s h live) (h0 : 0 < size) (hs : size ≤ MAX_REQUEST) : ∃ h' p,
    h.mmMalloc nf size = .ok (h', p) ∧ Keeps (mmPackage nf) h h' live ∧ (p = 0 → h' = h) ∧
      (p ≠ 0 → Owns nf s h' (⟨p, size⟩ :: live)) := by
  obtain ⟨ts, hL, hown⟩ := ho
  obtain ⟨x₀, hx₀⟩ := hL.exists_origin
  have hb := blockWords_spec hs
  rcases hL.mmMalloc hx₀ h0 hs with ⟨-, -, hok⟩ | ⟨ts', x, h', hh, hok, hL', hk⟩
  · exact ⟨h, NULL, hok, fun _ _ _ _ => rfl, fun _ => rfl, fun h1 => absurd rfl h1⟩
  · obtain ⟨n, hn, hfresh, hcells⟩ := hh.taken hL.pos
    refine ⟨h', blk s x, hok, hown.keeps hk fun b hb he => ?_, fun h1 => absurd h1 blk_ne_null,
      fun _ => ⟨ts', hL', hown.cons hfresh h0 (by omega) hcells⟩⟩
    -- no block stands at word 0
    obtain ⟨z, k, hz⟩ := hown.housed b hb
    have := cells_bounds hz.cell
    rw [hz.ptr, blk_inj] at he
    omega

theorem free (ho : Owns nf s h live) (hb : b ∈ live) : Keeps (mmPackage nf) h (h.mmFree nf b.ptr) (dropPtr b.ptr live) ∧
    Owns nf s (h.mmFree nf b.ptr) (dropPtr b.ptr live) := by
  obtain ⟨ts, hL, hown⟩ := ho
  obtain ⟨x, n, hh⟩ := hown.housed b hb
  obtain ⟨l, r, rfl, rfl⟩ := exists_of_mem_cells hh.cell
  obtain ⟨hL', hk⟩ := hL.mmFree
  have hown' := hown.drop (x := 3 + span l) fun y u hu => taken_freed hL.pos hu
  rw [hh.ptr]
  refine ⟨fun d hd y hy => ?_, _, hL', hown'⟩
  obtain ⟨hd, hne⟩ := mem_dropPtr.1 hd
  obtain ⟨z, k, hz⟩ := hown.housed d hd
  have hcell := hz.has_cell hy
  refine hk (z, ⟨k, true⟩) hz.cell rfl (fun he => hne ?_) y hcell.1 hcell.2
  rw [hz.ptr, show z = 3 + span l from he]

theorem write (ho : Owns nf s h live) (hb : b ∈ live) (hm : ∀ y, ¬ b.Has y → m y = h.mem y) :
    Owns nf s { h with mem := m } live := by
  obtain ⟨ts, hL, hown⟩ := ho
  obtain ⟨x, n, hh⟩ := hown.housed b hb
  refine ⟨ts, hL.write hh.cell fun y hy => hm y fun hhas => ?_, hown⟩
  have := hh.has_payload hhas
  simp only at hy
  omega

theorem size_le (ho : Owns nf s h live) (hb : b ∈ live) : b.size ≤ h.getSize (hdrp b.ptr) := by
  obtain ⟨ts, hL, hown⟩ := ho
  obtain ⟨x, n, hh⟩ := hown.housed b hb
  obtain ⟨l, r, hts, rfl⟩ := exists_of_mem_cells hh.cell
  have hline := hL.tiled
  rw [hts, show prologue :: (l.reverse ++ (⟨n, true⟩ : Tile) :: r) = (l ++ [prologue]).reverse ++ ⟨n, true⟩ :: r by simp,
    tiled_reverse_append, span_concat_prologue] at hline
  have hk : Header s h (3 + span l) ⟨n, true⟩ := hL.sound.header (by simp [hts]) hline.2.2.1
  rw [hh.ptr, hk.getSize]
  have := hh.fits
  simp only
  omega

/-- **`mm_realloc`**: allocate, copy, free. -/
theorem realloc (ho : Owns nf s h live) (hb : b ∈ live) (h0 : 0 < size) (hs : size ≤ MAX_REQUEST) : ∃ h' p,
    h.mmRealloc nf b.ptr size = .ok (h', p) ∧ Keeps (mmPackage nf) h h' (dropPtr b.ptr live) ∧ (p = 0 → h' = h) ∧
      (p ≠ 0 → Owns nf s h' (⟨p, size⟩ :: dropPtr b.ptr live) ∧
        ∀ i < b.size, i < size → h'.mem (p + i) = h.mem (b.ptr + i)) := by
  have hb0 : b.ptr ≠ NULL := by
    obtain ⟨ts, -, hown⟩ := ho
    obtain ⟨x, n, hh⟩ := hown.housed b hb
    rw [hh.ptr]
    exact blk_ne_null
  obtain ⟨h₁, p, hok, hkeep₁, hnull, hown₁⟩ := ho.malloc h0 hs
  unfold Heap.mmRealloc
  simp only [if_neg (show size ≠ 0 by omega), if_neg hb0, hok, bind, Except.bind]
  by_cases hp : p = NULL
  · rw [if_pos hp]
    refine ⟨h₁, NULL, rfl, fun d hd => hkeep₁ d (mem_dropPtr.1 hd).1, fun _ => hnull hp, fun h1 => absurd rfl h1⟩
  rw [if_neg hp]
  have ho₁ := hown₁ hp
  obtain ⟨k, hk⟩ : ∃ k, k = if size < h₁.getSize (hdrp b.ptr) then size else h₁.getSize (hdrp b.ptr) := ⟨_, rfl⟩
  have hksize : k ≤ size ∧ (∀ i < b.size, i < size → i < k) := by
    have hle := ho₁.size_le (List.mem_cons_of_mem _ hb)
    rw [hk]
    split_ifs <;> exact ⟨by omega, fun i _ _ => by omega⟩
  rw [← hk]
  -- the copy goes into the new block only
  have ho₂ : Owns nf s { h₁ with mem := memmove h₁.mem p b.ptr k } (⟨p, size⟩ :: live) :=
    ho₁.write List.mem_cons_self fun y hy => memmove_byte_out (by unfold Block.Has at hy; simp only at hy; omega)
  obtain ⟨hkeep₃, ho₃⟩ := ho₂.free (List.mem_cons_of_mem _ hb)
  have hnew : p ≠ b.ptr := by
    obtain ⟨ts, -, hown⟩ := ho₁
    exact fun he => (List.nodup_cons.1 hown.once).1 (List.mem_map.2 ⟨b, hb, he.symm⟩)
  have hdrop : dropPtr b.ptr (⟨p, size⟩ :: live) = ⟨p, size⟩ :: dropPtr b.ptr live := by
    simp [dropPtr, hnew]
  rw [hdrop] at hkeep₃ ho₃
  have hapart : ∀ d ∈ live, Block.Apart ⟨p, size⟩ d := by
    obtain ⟨ts, hL, hown⟩ := ho₁
    exact (List.pairwise_cons.1 (hown.apart hL.pos)).1
  refine ⟨_, p, rfl, fun d hd y hy => ?_, fun h1 => absurd h1 hp, fun _ => ⟨ho₃, fun i hi hi' => ?_⟩⟩
  · have hd' := (mem_dropPtr.1 hd).1
    have hout := (hapart d hd').symm.not_has hy
    refine (hkeep₃ d (List.mem_cons_of_mem _ hd) y hy).trans (Eq.trans ?_ (hkeep₁ d hd' y hy))
    exact memmove_byte_out (by unfold Block.Has at hout; simp only at hout; omega)
  · have hik := hksize.2 i hi hi'
    refine (hkeep₃ ⟨p, size⟩ List.mem_cons_self (p + i) ⟨by simp, by simp [hi']⟩).trans ?_
    refine Eq.trans (memmove_byte_in (by omega) (by omega)) ?_
    rw [show b.ptr + (p + i - p) = b.ptr + i by omega]
    exact hkeep₁ b hb (b.ptr + i) ⟨by omega, by omega⟩

end Owns

/-- **The contract**, with first fit and with next fit. -/
theorem implicit_contract (hs : 8 ∣ s) : Contract (mmPackage nf) 8 MAX_REQUEST (Owns nf s) where
  nonempty := by
    rintro h live b ⟨ts, hL, hown⟩ hb
    obtain ⟨x, n, hh⟩ := hown.housed b hb
    exact ⟨hown.nonempty b hb, by rw [hh.ptr]; exact blk_ne_null⟩
  aligned := by
    rintro h live b ⟨ts, hL, hown⟩ hb
    obtain ⟨x, n, hh⟩ := hown.housed b hb
    have := cells_even hL.even hh.cell
    rw [hh.ptr]
    unfold blk
    omega
  inside := by
    rintro h live b ⟨ts, hL, hown⟩ hb
    obtain ⟨x, n, hh⟩ := hown.housed b hb
    have h1 := cells_bounds hh.cell
    have h2 := hh.fits
    show h.memHeap ≤ b.ptr ∧ b.ptr + b.size ≤ h.memBrk - 1 + 1
    rw [hL.start, hL.brk, hh.ptr]
    unfold blk
    simp only at h1
    omega
  apart := by
    rintro h live ⟨ts, hL, hown⟩
    exact hown.apart hL.pos
  malloc := by
    intro h live n ho h0 hn
    obtain ⟨h', p, hok, hkeep, hnull, hown⟩ := ho.malloc h0 hn
    exact ⟨h', p, hok, hkeep, fun hp => hnull hp ▸ ho, hown⟩
  free := by
    intro h live b ho hb
    exact ⟨_, rfl, ho.free hb⟩
  realloc := by
    intro h live b n ho hb h0 hn
    obtain ⟨h', p, hok, hkeep, hnull, hown⟩ := ho.realloc hb h0 hn
    refine .inr ⟨h', p, hok, hkeep, fun hp => ?_, hown⟩
    rw [hnull hp]
    exact ⟨ho, fun _ _ _ _ => rfl⟩
  write ho hb hm := ho.write hb hm
  mem_setMem _ _ := rfl

theorem mmPackage_init (nf : Bool) (hs : h.memHeap = s) (hm : h.memMaxAddr = s + MAX_HEAP) :
    ∃ h₁, (mmPackage nf).init h = .ok (h₁, 0) ∧ Owns nf s h₁ [] := by
  obtain ⟨h₁, hok, hL⟩ := mmInit_spec nf (h := h.memResetBrk) hs hs hm
  refine ⟨h₁, congrArg Except.ok hok, _, hL, by simp, by simp, by simp, fun x t hx ht => ?_⟩
  simp only [cells, List.mem_singleton, Prod.mk.injEq] at hx
  rw [hx.2] at ht
  cases ht

end CsappLab.Implicit
