import CsappLab.Malloc.BestFit

/-!
# `mm_free` undoes `mm_malloc`

Two layouts of the same words with the same taken blocks are equal, since what lies between two taken
blocks is one free block or nothing. So it is enough to follow the taken blocks: `mm_malloc` adds one,
and `mm_free` takes it away.
-/

namespace CsappLab.Malloc
open ByteMem CInt Linked

variable {a : Arena} {c : Client} {s e e' m size p : Nat} {h h' h'' : Heap} {w w' : Nat → Nat}
  {bs bs' : List Blk} {fl fl' : Nat → List Blk} {b d : Blk}

/-! ### A layout is determined by its taken blocks -/

theorem live_cons : Live (b :: bs) d ↔ d = b ∧ b.taken = true ∨ Live bs d := by
  unfold Live
  rw [List.mem_cons]
  constructor
  · rintro ⟨rfl | hd, ht⟩
    · exact .inl ⟨rfl, ht⟩
    · exact .inr ⟨hd, ht⟩
  · rintro (⟨rfl, ht⟩ | ⟨hd, ht⟩)
    · exact ⟨.inl rfl, ht⟩
    · exact ⟨.inr hd, ht⟩

theorem Tiled.fin_le_of_free (ht : Tiled w m (b :: bs) e) (ht' : Tiled w' m (d :: bs') e)
    (hs : (b :: bs).IsChain NoAdj) (hb : b.taken = false) (hd : d.taken = false)
    (hl : ∀ x, Live (b :: bs) x → Live (d :: bs') x) : d.fin ≤ b.fin := by
  obtain ⟨-, -, -, h1⟩ := tiled_cons.1 ht
  cases bs with
  | nil =>
    have := (ht'.mem (b := d) (by simp)).2.1
    rw [tiled_nil] at h1
    omega
  | cons x bs =>
    have hx : x.taken = true := by
      have := (List.isChain_cons.1 hs).1 x (by simp)
      exact this.resolve_left (by simp [hb])
    have hxl : Live (d :: bs') x := hl x ⟨by simp, hx⟩
    rcases live_cons.1 hxl with ⟨rfl, h2⟩ | ⟨h2, -⟩
    · rw [hd] at h2
      cases h2
    · have h3 := ((tiled_cons.1 ht').2.2.2.mem h2).1
      have h4 : x.hd = b.fin := (tiled_cons.1 h1).1
      omega

theorem Tiled.head_eq (ht : Tiled w m (b :: bs) e) (ht' : Tiled w' m (d :: bs') e)
    (hl : Live (d :: bs') b) : b = d := by
  refine ht'.eq_of_hd hl.1 (by simp) ?_
  rw [(tiled_cons.1 ht).1, (tiled_cons.1 ht').1]

/-- **Two layouts with the same taken blocks** are equal. -/
theorem Tiled.eq_of_live (ht : Tiled w m bs e) (ht' : Tiled w' m bs' e) (hs : bs.IsChain NoAdj)
    (hs' : bs'.IsChain NoAdj) (hl : ∀ x, Live bs x ↔ Live bs' x) : bs = bs' := by
  induction bs generalizing m bs' with
  | nil =>
    rw [tiled_nil] at ht
    have := ht'.le
    exact (List.eq_nil_of_length_eq_zero (by omega)).symm
  | cons b bs ih =>
    cases bs' with
    | nil =>
      rw [tiled_nil] at ht'
      have := ht.le
      simp only [List.length_cons] at this
      omega
    | cons d bs' =>
      have hbd : b = d := by
        cases hb : b.taken
        · cases hd : d.taken
          · -- both free: each ends before the other
            have h1 := ht.fin_le_of_free ht' hs hb hd fun x => (hl x).1
            have h2 := ht'.fin_le_of_free ht hs' hd hb fun x => (hl x).2
            have h3 := (tiled_cons.1 ht).1
            have h4 := (tiled_cons.1 ht').1
            unfold Blk.fin at h1 h2
            rcases b with ⟨i, n, tb⟩
            rcases d with ⟨j, k, td⟩
            simp only [Blk.mk.injEq] at *
            exact ⟨by omega, by omega, by rw [hb, hd]⟩
          · exact (ht'.head_eq ht ((hl d).2 ⟨by simp, hd⟩)).symm
        · exact ht.head_eq ht' ((hl b).1 ⟨by simp, hb⟩)
      subst hbd
      have hnot : ∀ {w l}, Tiled w m (b :: l) e → ¬ Live l b := fun h1 h2 => by
        have h3 := ((tiled_cons.1 h1).2.2.2.mem h2.1).1
        unfold Blk.fin at h3
        omega
      refine congrArg _ (ih (tiled_cons.1 ht).2.2.2 (tiled_cons.1 ht').2.2.2 hs.tail hs'.tail fun x => ?_)
      have hx := hl x
      rw [live_cons, live_cons] at hx
      constructor
      · intro h1
        rcases hx.1 (.inr h1) with ⟨rfl, -⟩ | h2
        · exact absurd h1 (hnot ht)
        · exact h2
      · intro h1
        rcases hx.2 (.inr h1) with ⟨rfl, -⟩ | h2
        · exact absurd h1 (hnot ht')
        · exact h2

theorem Closed.eq_of_live (z : Closed s h e bs fl) (z' : Closed s h' e bs' fl')
    (hl : ∀ x, Live bs x ↔ Live bs' x) : bs = bs' :=
  (tiled_cons.1 z.before).2.2.2.eq_of_live (tiled_cons.1 z'.before).2.2.2 z.sepPre z'.sepPre hl

/-! ### Allocating and freeing -/

/-- The heap has the same blocks as before, and each free list holds the same ones. -/
structure SameLayout (h h' : Heap) (bps : List Nat) (lists lists' : Nat → List Nat) : Prop where
  before : HeapInvariant h bps lists
  after : HeapInvariant h' bps lists'
  sizes : ∀ bp ∈ bps, h'.getSize bp = h.getSize bp ∧ h'.getStatus bp = h.getStatus bp
  listed : ∀ i ≤ MAX_POWER, ∀ bp, bp ∈ lists' i ↔ bp ∈ lists i

theorem Closed.sameLayout (z : Closed s h e bs fl) (z' : Closed s h' e bs fl') :
    SameLayout h h' (bs.map (ptr s)) (fun i => (fl i).map (ptr s)) fun i => (fl' i).map (ptr s) where
  before := z.heapInvariant
  after := z'.heapInvariant
  sizes := by
    intro bp hbp
    obtain ⟨b, hb, rfl⟩ := List.mem_map.1 hbp
    exact ⟨(z'.tagged hb).getSize.trans (z.tagged hb).getSize.symm,
      (z'.tagged hb).getStatus.trans (z.tagged hb).getStatus.symm⟩
  listed := by
    intro i _ bp
    have hmem : ∀ d, d ∈ fl' i ↔ d ∈ fl i := fun d => by rw [z.mem, z'.mem]
    simp only [List.mem_map, hmem]

/-- **`mm_free` undoes `mm_malloc`.** When `mm_malloc` returns a block and the break has not moved,
`mm_free` of this block leaves the blocks and the contents of the free lists as they were. -/
theorem free_undoes_malloc (hr : (allocator a).Reach Client.Fits c) (h0 : 0 < size) (hs : size ≤ MAX_HEAP)
    (hm : c.heap.mmMalloc size = .ok (h', p)) (hp : p ≠ NULL) (hbrk : h'.memBrk = c.heap.memBrk) :
    ∃ h'' bps lists lists', h'.mmFree p = .ok h'' ∧ SameLayout c.heap h'' bps lists lists' := by
  obtain ⟨e, bs, fl, hi⟩ := reach_inv hr
  have z := hi.closed
  have hMAX : MAX_HEAP = 20971520 := rfl
  rcases z.mmMalloc h0 (show size ≤ 2 ^ 32 - 16 by omega) with hn | ⟨r, e', t, bs₁, fl₁, hspec⟩
  · rw [hn _ z] at hm
    cases hm
    exact absurd rfl hp
  obtain ⟨g, hok, z₁, hH, -⟩ := hspec _ z
  rw [hok] at hm
  cases hm
  obtain rfl : e' = e := by
    have := addr_inj.1 (z₁.brk.symm.trans (hbrk.trans z.brk))
    omega
  have ht : Live bs₁ t := (hH.step.live t).2 (.inr rfl)
  obtain ⟨bs₂, fl₂, hfree⟩ := z₁.mmFree ht
  obtain ⟨h'', hok', z₂, hst, -⟩ := hfree _ z₁
  have hfresh : ¬ Live bs t := fun hl => by cases hH.step.fresh t rfl hl
  obtain rfl : bs = bs₂ := by
    refine z.eq_of_live z₂ fun x => ?_
    rw [hst.live, hH.step.live]
    simp only [reduceCtorEq, ne_eq, not_false_eq_true, and_true, Option.some.injEq, or_false]
    constructor
    · exact fun hx => ⟨.inl hx, fun htx => hfresh (htx ▸ hx)⟩
    · rintro ⟨hx | rfl, hne⟩
      · exact hx
      · exact absurd rfl hne
  exact ⟨h'', _, _, _, by rw [hH.ptr]; exact hok', z.sameLayout z₂⟩

/-- A block cut off from a larger one. -/
theorem free_undoes_malloc_split : ∃ (c : Client) (h' h'' : Heap) (bps : List Nat) (lists lists' : Nat → List Nat),
    c.heap.mmMalloc 100 = .ok (h', 496) ∧ h'.mmFree 496 = .ok h'' ∧ SameLayout c.heap h'' bps lists lists' := by
  obtain ⟨c, _, hr, -, htest⟩ := neighbours_spec (m := 496)
    (f := fun h _ => (h.mmMalloc 100).toOption.bind fun v => if v.1.memBrk = h.memBrk then some v.2 else none)
    (by decide +kernel)
  rcases hok : c.heap.mmMalloc 100 with fault | ⟨h', p⟩
  · rw [hok] at htest; cases htest
  rw [hok] at htest
  simp only [Except.toOption, Option.bind_some, Option.ite_none_right_eq_some, Option.some.injEq] at htest
  obtain ⟨hbrk, rfl⟩ := htest
  obtain ⟨h'', bps, lists, lists', hfree, hsame⟩ :=
    free_undoes_malloc hr (by decide) (by decide) hok (by decide) hbrk
  exact ⟨c, h', h'', bps, lists, lists', hok, hfree, hsame⟩

end CsappLab.Malloc
