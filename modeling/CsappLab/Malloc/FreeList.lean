import CsappLab.Lib.Dll
import CsappLab.Malloc.Layout
import Mathlib.Data.List.Sort

/-!
# The segregated free lists

`SortedLists s h fl`: the list heads at the start of the arena and the link words of the listed blocks
represent the lists `fl`. `remove_block_from_free_list` and `place_block_into_free_list` are the two
edits. For each the words it changes are stated first (`Unlinked`, `LinkedIn`), and the lists it
represents afterwards follow from `Dll.erase` and `Dll.insert`.
-/

namespace CsappLab.Malloc
open ByteMem CInt Linked

def ptr (s : Nat) (b : Blk) : Nat := addr s b.hd

def pred (s : Nat) (h : Heap) (b : Blk) : Nat := h.word s (b.hd + 1)

def succ (s : Nat) (h : Heap) (b : Blk) : Nat := h.word s (b.hd + 2)

theorem getPred_ptr {s : Nat} {h : Heap} {b : Blk} : h.getPred (ptr s b) = pred s h b :=
  Heap.getPred_addr

theorem getSucc_ptr {s : Nat} {h : Heap} {b : Blk} : h.getSucc (ptr s b) = succ s h b :=
  Heap.getSucc_addr

theorem predField_ptr {s : Nat} {b : Blk} : ptrPredField (ptr s b) = addr s (b.hd + 1) :=
  Heap.ptrPredField_addr

theorem succField_ptr {s : Nat} {b : Blk} : ptrSuccField (ptr s b) = addr s (b.hd + 2) :=
  Heap.ptrSuccField_addr

/-- The order of a free list: descending size. -/
def Blk.Ge (b c : Blk) : Prop := c.size ≤ b.size

instance : DecidableRel Blk.Ge := fun b c => inferInstanceAs (Decidable (c.size ≤ b.size))
instance : Std.Total Blk.Ge := ⟨fun b c => Nat.le_total c.size b.size⟩
instance : IsTrans Blk Blk.Ge := ⟨fun _ _ _ h h' => Nat.le_trans h' h⟩

/-- The lists `fl`, one for each size class, are what the heap stores: doubly linked and sorted. -/
structure SortedLists (s : Nat) (h : Heap) (fl : Nat → List Blk) : Prop where
  start_pos : 0 < s
  fits : s + MAX_HEAP < 2 ^ 32
  base : h.freeLists = s
  heads : ∀ k ≤ MAX_POWER, h.word s k = headPtr (ptr s) NULL (fl k)
  links : ∀ k, Dll (ptr s) (pred s h) (succ s h) NULL (fl k) NULL
  sorted : ∀ k, (fl k).Pairwise Blk.Ge
  cls : ∀ k, ∀ b ∈ fl k, Nat.log2 b.size = k
  nodup : ∀ k, (fl k).Nodup
  tags : ∀ k, ∀ b ∈ fl k, h.word s b.hd = b.tag
  two : ∀ k, ∀ b ∈ fl k, 2 ≤ b.size
  lo : ∀ k, ∀ b ∈ fl k, MAX_POWER < b.hd
  hi : ∀ k, ∀ b ∈ fl k, 4 * b.fin ≤ MAX_HEAP
  apart : ∀ k k' b c, b ∈ fl k → c ∈ fl k' → b ≠ c → b.Apart c

/-- The words the free lists own: the heads and the link words of the listed blocks. -/
def ListWord (fl : Nat → List Blk) (i : Nat) : Prop :=
  i ≤ MAX_POWER ∨ ∃ k, ∃ b ∈ fl k, i = b.hd + 1 ∨ i = b.hd + 2

variable {s k : Nat} {h h' : Heap} {fl : Nat → List Blk} {b c : Blk} {l₁ l₂ : List Blk}

namespace SortedLists

theorem size_lt (hf : SortedLists s h fl) (hb : b ∈ fl k) : b.size < 2 ^ 29 := by
  have := hf.hi k b hb
  have : MAX_HEAP = 20971520 := rfl
  unfold Blk.fin at *; omega

theorem class_le (hf : SortedLists s h fl) (hb : b ∈ fl k) : k ≤ 31 := by
  have := hf.size_lt hb
  rw [← hf.cls k b hb]; exact log2_le_of_lt (by omega)

theorem ptr_lt (hf : SortedLists s h fl) (hb : b ∈ fl k) : ptr s b < 2 ^ 32 := by
  have := hf.hi k b hb
  have := hf.fits
  unfold ptr addr; unfold Blk.fin at *; omega

theorem ptr_ne (hf : SortedLists s h fl) (b : Blk) : ptr s b ≠ NULL := addr_pos hf.start_pos

theorem headPtr_lt (hf : SortedLists s h fl) (hl : ∀ b ∈ l₁, b ∈ fl k) :
    headPtr (ptr s) NULL l₁ < 2 ^ 32 := by
  cases l₁ with
  | nil => simp [NULL]
  | cons b l => exact hf.ptr_lt (hl b (by simp))

theorem lastPtr_lt (hf : SortedLists s h fl) (hl : ∀ b ∈ l₁, b ∈ fl k) :
    lastPtr (ptr s) NULL l₁ < 2 ^ 32 := by
  rcases List.eq_nil_or_concat l₁ with rfl | ⟨l, b, rfl⟩
  · simp [NULL]
  · rw [List.concat_eq_append] at *
    rw [lastPtr_concat]; exact hf.ptr_lt (hl b (by simp))

theorem getSize (hf : SortedLists s h fl) (hb : b ∈ fl k) : h.getSize (ptr s b) = b.size := by
  unfold ptr; rw [Heap.getSize_addr, hf.tags k b hb, Blk.tag_div]

theorem congr (hf : SortedLists s h fl) (hg : h'.freeLists = h.freeLists)
    (hw : ∀ i, ListWord fl i → h'.word s i = h.word s i)
    (ht : ∀ k, ∀ b ∈ fl k, h'.word s b.hd = h.word s b.hd) : SortedLists s h' fl where
  start_pos := hf.start_pos
  fits := hf.fits
  base := hg.trans hf.base
  heads := fun k hk => (hw k (.inl hk)).trans (hf.heads k hk)
  links := fun k => (hf.links k).congr (fun b hb => hw _ (.inr ⟨k, b, hb, .inl rfl⟩))
    (fun b hb => hw _ (.inr ⟨k, b, hb, .inr rfl⟩))
  sorted := hf.sorted
  cls := hf.cls
  nodup := hf.nodup
  tags := fun k b hb => (ht k b hb).trans (hf.tags k b hb)
  two := hf.two
  lo := hf.lo
  hi := hf.hi
  apart := hf.apart

end SortedLists

/-- The words that an edit of list `k` writes when `b` comes between `l₁` and `l₂`: its links, those that lead
to it from its neighbours, and the head if it is the first one. -/
inductive EditWord (k : Nat) (l₁ : List Blk) (b : Blk) (l₂ : List Blk) : Nat → Prop
  | pred : EditWord k l₁ b l₂ (b.hd + 1)
  | succ : EditWord k l₁ b l₂ (b.hd + 2)
  | next {n : Blk} : n ∈ l₂.head? → EditWord k l₁ b l₂ (n.hd + 1)
  | prev {p : Blk} : p ∈ l₁.getLast? → EditWord k l₁ b l₂ (p.hd + 2)
  | head : l₁ = [] → EditWord k l₁ b l₂ k

theorem Writes.other {i : Nat} (hw : Writes s (EditWord k l₁ b l₂) h h') (h1 : i ≠ b.hd + 1) (h2 : i ≠ b.hd + 2)
    (h3 : ∀ n ∈ l₂.head?, i ≠ n.hd + 1) (h4 : ∀ p ∈ l₁.getLast?, i ≠ p.hd + 2) (h5 : l₁ = [] → i ≠ k) :
    h'.word s i = h.word s i := by
  refine hw.word fun hi => ?_
  cases hi with
  | pred => exact h1 rfl
  | succ => exact h2 rfl
  | next hn => exact h3 _ hn rfl
  | prev hp => exact h4 _ hp rfl
  | head h0 => exact h5 h0 rfl

/-! ### Unlinking a block -/

/-- What `remove_block_from_free_list` does to the words when it takes `b` out from between `l₁` and
`l₂` in list `k`. -/
structure Unlinked (s : Nat) (h h' : Heap) (k : Nat) (l₁ : List Blk) (b : Blk) (l₂ : List Blk) :
    Prop where
  globals : SameGlobals h h'
  next : ∀ n ∈ l₂.head?, h'.word s (n.hd + 1) = lastPtr (ptr s) NULL l₁
  prev : ∀ p ∈ l₁.getLast?, h'.word s (p.hd + 2) = headPtr (ptr s) NULL l₂
  head : l₁ = [] → h'.word s k = headPtr (ptr s) NULL l₂
  other : ∀ i, i ≠ b.hd + 1 → i ≠ b.hd + 2 → (∀ n ∈ l₂.head?, i ≠ n.hd + 1) →
    (∀ p ∈ l₁.getLast?, i ≠ p.hd + 2) → (l₁ = [] → i ≠ k) → h'.word s i = h.word s i

theorem Unlinked.of_writes (hw : Writes s (EditWord k l₁ b l₂) h h')
    (next : ∀ n ∈ l₂.head?, h'.word s (n.hd + 1) = lastPtr (ptr s) NULL l₁)
    (prev : ∀ p ∈ l₁.getLast?, h'.word s (p.hd + 2) = headPtr (ptr s) NULL l₂)
    (head : l₁ = [] → h'.word s k = headPtr (ptr s) NULL l₂) :
    Writes s (EditWord k l₁ b l₂) h h' ∧ Unlinked s h h' k l₁ b l₂ :=
  ⟨hw, hw.globals, next, prev, head, fun _ => hw.other⟩

theorem SortedLists.unlinked (hf : SortedLists s h fl) (hk : fl k = l₁ ++ b :: l₂) :
    Writes s (EditWord k l₁ b l₂) h (h.removeBlockFromFreeList (ptr s b)) ∧
      Unlinked s h (h.removeBlockFromFreeList (ptr s b)) k l₁ b l₂ := by
  have hb : b ∈ fl k := by simp [hk]
  have hl := hf.links k
  rw [hk] at hl
  obtain ⟨hpred, hsucc⟩ := hl.mid
  have hmem₁ : ∀ c ∈ l₁, c ∈ fl k := fun c hc => by simp [hk, hc]
  have hmem₂ : ∀ c ∈ l₂, c ∈ fl k := fun c hc => by simp [hk, hc]
  have hnd := hf.nodup k
  rw [hk] at hnd
  obtain ⟨-, hnd₂, hne₁⟩ := List.nodup_append.1 hnd
  have hap₁ : ∀ c ∈ l₁, c.Apart b := fun c hc => hf.apart k k c b (hmem₁ c hc) hb (hne₁ c hc b (by simp))
  have hap₂ : ∀ c ∈ l₂, c.Apart b := fun c hc =>
    hf.apart k k c b (hmem₂ c hc) hb fun he => (List.nodup_cons.1 hnd₂).1 (he ▸ hc)
  have hap : ∀ c ∈ l₁, ∀ d ∈ l₂, c.Apart d := fun c hc d hd =>
    hf.apart k k c d (hmem₁ c hc) (hmem₂ d hd) (hne₁ c hc d (by simp [hd]))
  have hlo := hf.lo k
  have htwo := hf.two k
  have hsz := htwo b hb
  have hkle := hf.class_le hb
  have hidx : findFreeListIndex (h.getSize (ptr s b)) = k := by
    rw [hf.getSize hb, findFreeListIndex_eq, hf.cls k b hb]
    have := hf.size_lt hb; omega
  have hsize : h.getSize (ptr s b) ≠ 0 := by rw [hf.getSize hb]; omega
  have hP : lastPtr (ptr s) NULL l₁ < 2 ^ 32 := hf.lastPtr_lt hmem₁
  have hN : headPtr (ptr s) NULL l₂ < 2 ^ 32 := hf.headPtr_lt hmem₂
  have hbl := hlo b hb
  unfold Heap.removeBlockFromFreeList
  simp only [getPred_ptr, getSucc_ptr, hpred, hsucc, hsize, ↓reduceIte, hidx, predField_ptr,
    succField_ptr, Heap.setFreeListPtr_eq hf.base]
  have hsep : ∀ c : Blk, c ∈ l₁ ∨ c ∈ l₂ → c.hd + 4 ≤ b.hd ∨ b.hd + 4 ≤ c.hd := by
    rintro c (hc | hc)
    · have := hap₁ c hc; have := htwo c (hmem₁ c hc); unfold Blk.Apart Blk.fin at *; omega
    · have := hap₂ c hc; have := htwo c (hmem₂ c hc); unfold Blk.Apart Blk.fin at *; omega
  unfold MAX_POWER at hlo hbl
  have hN0 : NULL < 2 ^ 32 := by decide
  rcases List.eq_nil_or_concat l₁ with rfl | ⟨l, p, rfl⟩
  · rcases l₂ with _ | ⟨n, l₂⟩
    · simp only [lastPtr_nil, headPtr_nil, ↓reduceIte, ne_eq, not_true_eq_false]
      refine Unlinked.of_writes (((Writes.refl.put (.head rfl)).put .pred).put .succ) (by simp) (by simp) fun _ => ?_
      rw [Heap.word_put_ne (by omega), Heap.word_put_ne (by omega), Heap.word_put_same hN0]; rfl
    · have hn := hsep n (by simp)
      have hnlo := hlo n (hmem₂ n (by simp))
      simp only [headPtr_cons, lastPtr_nil] at hN ⊢
      simp only [↓reduceIte, ne_eq, hf.ptr_ne, not_false_eq_true, predField_ptr]
      refine Unlinked.of_writes ((((Writes.refl.put (.head rfl)).put (.next rfl)).put .pred).put .succ) ?_
        (by simp) fun _ => ?_
      · rintro _ ⟨⟩
        rw [Heap.word_put_ne (by omega), Heap.word_put_ne (by omega), Heap.word_put_same hN0]; rfl
      · rw [Heap.word_put_ne (by omega), Heap.word_put_ne (by omega), Heap.word_put_ne (by omega),
          Heap.word_put_same hN]; rfl
  · rw [List.concat_eq_append] at *
    have hp := hsep p (by simp)
    have hplo := hlo p (hmem₁ p (by simp))
    simp only [lastPtr_concat] at hP ⊢
    simp only [↓reduceIte, hf.ptr_ne, succField_ptr]
    rcases l₂ with _ | ⟨n, l₂⟩
    · simp only [headPtr_nil, ↓reduceIte, ne_eq, not_true_eq_false]
      refine Unlinked.of_writes (((Writes.refl.put (.prev (by simp))).put .pred).put .succ) (by simp) ?_ (by simp)
      intro p' hp'
      obtain rfl : p = p' := by simpa using hp'
      rw [Heap.word_put_ne (by omega), Heap.word_put_ne (by omega), Heap.word_put_same hN0]; rfl
    · have hn := hsep n (by simp)
      have hpn := hap p (by simp) n (by simp)
      have hp2 := htwo p (hmem₁ p (by simp))
      have hn2 := htwo n (hmem₂ n (by simp))
      unfold Blk.Apart Blk.fin at hpn
      simp only [headPtr_cons] at hN ⊢
      simp only [↓reduceIte, ne_eq, hf.ptr_ne, not_false_eq_true, predField_ptr]
      refine Unlinked.of_writes ((((Writes.refl.put (.prev (by simp))).put (.next rfl)).put .pred).put .succ)
        ?_ ?_ (by simp)
      · rintro _ ⟨⟩
        rw [Heap.word_put_ne (by omega), Heap.word_put_ne (by omega), Heap.word_put_same hP,
          lastPtr_concat]
      · intro p' hp'
        obtain rfl : p = p' := by simpa using hp'
        rw [Heap.word_put_ne (by omega), Heap.word_put_ne (by omega), Heap.word_put_ne (by omega),
          Heap.word_put_same hN]; rfl

def unlist (fl : Nat → List Blk) (b : Blk) : Nat → List Blk := fun k => (fl k).erase b

theorem mem_unlist (hf : SortedLists s h fl) : c ∈ unlist fl b k ↔ c ∈ fl k ∧ c ≠ b := by
  unfold unlist; rw [(hf.nodup k).mem_erase_iff, and_comm]

theorem SortedLists.sep (hf : SortedLists s h fl) {k j : Nat} (hb : b ∈ fl k) (hc : c ∈ fl j)
    (hne : b ≠ c) : b.hd + 4 ≤ c.hd ∨ c.hd + 4 ≤ b.hd := by
  have h1 := hf.two k b hb
  have h2 := hf.two j c hc
  have := hf.apart k j b c hb hc hne
  unfold Blk.Apart Blk.fin at this; omega

theorem mem_of_head? {l : List Blk} (h : b ∈ l.head?) : b ∈ l := by
  cases l with
  | nil => cases h
  | cons c l => obtain rfl : c = b := by simpa using h
                simp

theorem mem_of_getLast? {l : List Blk} (h : b ∈ l.getLast?) : b ∈ l := List.mem_of_getLast? h

section Unlink
variable (hf : SortedLists s h fl) (hk : fl k = l₁ ++ b :: l₂) (hu : Unlinked s h h' k l₁ b l₂)
include hf hk hu

theorem Unlinked.pred_eq {k' : Nat} (hc : c ∈ fl k') (hcb : c ≠ b) (hn : c ∉ l₂.head?) :
    pred s h' c = pred s h c := by
  have hkle := hf.class_le (k := k) (b := b) (by simp [hk])
  have hlo := hf.lo k' c hc
  unfold MAX_POWER at hlo
  have hb := hf.sep (j := k) hc (by simp [hk]) hcb
  refine hu.other _ (by omega) (by omega) (fun n hn' => ?_) (fun p hp => ?_) (by omega)
  · have := hf.sep (j := k) (c := n) hc (by simp [hk, mem_of_head? hn']) (fun he => hn (he ▸ hn'))
    omega
  · by_cases he : c = p
    · subst he; omega
    · have := hf.sep (j := k) (c := p) hc (by simp [hk, mem_of_getLast? hp]) he
      omega

theorem Unlinked.succ_eq {k' : Nat} (hc : c ∈ fl k') (hcb : c ≠ b) (hp : c ∉ l₁.getLast?) :
    succ s h' c = succ s h c := by
  have hkle := hf.class_le (k := k) (b := b) (by simp [hk])
  have hlo := hf.lo k' c hc
  unfold MAX_POWER at hlo
  have hb := hf.sep (j := k) hc (by simp [hk]) hcb
  refine hu.other _ (by omega) (by omega) (fun n hn => ?_) (fun p hp' => ?_) (by omega)
  · by_cases he : c = n
    · subst he; omega
    · have := hf.sep (j := k) (c := n) hc (by simp [hk, mem_of_head? hn]) he
      omega
  · have := hf.sep (j := k) (c := p) hc (by simp [hk, mem_of_getLast? hp']) (fun he => hp (he ▸ hp'))
    omega

theorem Unlinked.frame {i : Nat} (hi : ¬ ListWord fl i) : h'.word s i = h.word s i := by
  have hkle := hf.class_le (k := k) (b := b) (by simp [hk])
  simp only [ListWord, not_or, not_exists, not_and] at hi
  unfold MAX_POWER at hi
  have hno := hi.2 k
  refine hu.other _ (hno b (by simp [hk])).1 (hno b (by simp [hk])).2
    (fun n hn => (hno n (by simp [hk, mem_of_head? hn])).1)
    (fun p hp => (hno p (by simp [hk, mem_of_getLast? hp])).2) (by omega)

/-- **Unlinking** removes exactly `b` from the represented lists. -/
theorem Unlinked.sortedLists : SortedLists s h' (unlist fl b) := by
  have hb : b ∈ fl k := by simp [hk]
  have hnd := hf.nodup k
  rw [hk] at hnd
  obtain ⟨hnd₁, hnd₂, hne₁⟩ := List.nodup_append.1 hnd
  obtain ⟨hb₂, hnd₂⟩ := List.nodup_cons.1 hnd₂
  have hb₁ : b ∉ l₁ := fun hb => hne₁ b hb b (by simp) rfl
  have hmem₁ : ∀ c ∈ l₁, c ∈ fl k := fun c hc => by simp [hk, hc]
  have hmem₂ : ∀ c ∈ l₂, c ∈ fl k := fun c hc => by simp [hk, hc]
  have hke : unlist fl b k = l₁ ++ l₂ := by
    unfold unlist; rw [hk, List.erase_append_right _ hb₁, List.erase_cons_head]
  have hother : ∀ k', k' ≠ k → b ∉ fl k' := fun k' hne hb' =>
    hne ((hf.cls k' b hb').symm.trans (hf.cls k b hb))
  have hoe : ∀ k', k' ≠ k → unlist fl b k' = fl k' := fun k' hne => List.erase_of_not_mem (hother k' hne)
  have hsub : ∀ k', ∀ c ∈ unlist fl b k', c ∈ fl k' := fun k' c hc => ((mem_unlist hf).1 hc).1
  have hlast : ∀ c ∈ l₁, c ∉ l₂.head? := fun c hc hc' => hne₁ c hc c (by simp [mem_of_head? hc']) rfl
  have hhead : ∀ c ∈ l₂, c ∉ l₁.getLast? := fun c hc hc' =>
    hne₁ c (mem_of_getLast? hc') c (by simp [hc]) rfl
  refine ⟨hf.start_pos, hf.fits, hu.globals.lists.trans hf.base, ?_, ?_, ?_, ?_, ?_,
    ?_, ?_, ?_, ?_, ?_⟩
  · intro k' hk'
    -- the heads
    have hlo := hf.lo k
    have hne : ∀ c, c ∈ fl k → ∀ d, k' ≠ c.hd + d := fun c hc d => by have := hlo c hc; omega
    have hkeep : (l₁ = [] → k' ≠ k) → h'.word s k' = h.word s k' := hu.other k' (hne b hb 1) (hne b hb 2)
      (fun n hn => hne n (hmem₂ n (mem_of_head? hn)) 1)
      (fun p hp => hne p (hmem₁ p (mem_of_getLast? hp)) 2)
    by_cases hkk : k' = k
    · subst hkk
      rw [hke, headPtr_append]
      cases l₁ with
      | nil => exact hu.head rfl
      | cons c l => rw [hkeep (by simp), hf.heads k' hk', hk]; rfl
    · rw [hoe k' hkk, hkeep (fun _ => hkk), hf.heads k' hk']
  · intro k'
    -- the links
    by_cases hkk : k' = k
    · subst hkk
      have hl := hf.links k'
      rw [hk] at hl
      rw [hke]
      refine hl.erase ?_ ?_ (fun y hy => hu.prev y hy) ?_
        ?_ (fun y hy => hu.next y hy)
      · intro y hy
        exact hu.pred_eq hf hk (hmem₁ y hy) (fun he => hb₁ (he ▸ hy)) (hlast y hy)
      · intro y hy
        have hy' := List.mem_of_mem_dropLast hy
        refine hu.succ_eq hf hk (hmem₁ y hy') (fun he => hb₁ (he ▸ hy')) fun hl => ?_
        rcases List.eq_nil_or_concat l₁ with rfl | ⟨l, p, rfl⟩
        · cases hl
        · rw [List.concat_eq_append] at *
          obtain rfl : p = y := by simpa using hl
          rw [List.dropLast_concat] at hy
          exact (List.nodup_append.1 hnd₁).2.2 p hy p (by simp) rfl
      · intro y hy
        exact hu.succ_eq hf hk (hmem₂ y hy) (fun he => hb₂ (he ▸ hy)) (hhead y hy)
      · intro y hy
        cases l₂ with
        | nil => cases hy
        | cons n l =>
          refine hu.pred_eq hf hk (hmem₂ y (by simp [List.mem_of_mem_tail hy]))
            (fun he => hb₂ (he ▸ List.mem_of_mem_tail hy)) fun hn => ?_
          obtain rfl : n = y := by simpa using hn
          exact (List.nodup_cons.1 hnd₂).1 hy
    · rw [hoe k' hkk]
      refine (hf.links k').congr (fun y hy => ?_) (fun y hy => ?_)
      · exact hu.pred_eq hf hk hy (fun he => hother k' hkk (he ▸ hy)) fun hn =>
          hkk ((hf.cls k' y hy).symm.trans (hf.cls k y (hmem₂ y (mem_of_head? hn))))
      · exact hu.succ_eq hf hk hy (fun he => hother k' hkk (he ▸ hy)) fun hn =>
          hkk ((hf.cls k' y hy).symm.trans (hf.cls k y (hmem₁ y (mem_of_getLast? hn))))
  · exact fun k' => (hf.sorted k').sublist List.erase_sublist
  · exact fun k' c hc => hf.cls k' c (hsub k' c hc)
  · exact fun k' => (hf.nodup k').erase b
  · intro k' c hc
    have hc' := hsub k' c hc
    rw [hu.frame hf hk, hf.tags k' c hc']
    rintro (h1 | ⟨k'', d, hd, h1⟩)
    · have := hf.lo k' c hc'; omega
    · by_cases he : c = d
      · subst he; omega
      · have := hf.sep hc' hd he; omega
  · exact fun k' c hc => hf.two k' c (hsub k' c hc)
  · exact fun k' c hc => hf.lo k' c (hsub k' c hc)
  · exact fun k' c hc => hf.hi k' c (hsub k' c hc)
  · exact fun k' k'' c d hc hd => hf.apart k' k'' c d (hsub k' c hc) (hsub k'' d hd)

end Unlink

theorem SortedLists.remove (hf : SortedLists s h fl) (hb : b ∈ fl k) :
    SortedLists s (h.removeBlockFromFreeList (ptr s b)) (unlist fl b) ∧
      SameGlobals h (h.removeBlockFromFreeList (ptr s b)) ∧
      ∀ i, ¬ ListWord fl i → (h.removeBlockFromFreeList (ptr s b)).word s i = h.word s i := by
  obtain ⟨l₁, l₂, hk⟩ := List.append_of_mem hb
  obtain ⟨-, hu⟩ := hf.unlinked hk
  exact ⟨hu.sortedLists hf hk, hu.globals, fun _ => hu.frame hf hk⟩

/-! ### Linking in a block -/

/-- A block that can be placed: tagged, large enough for the two links, and apart from the listed blocks. -/
structure Insertable (s : Nat) (h : Heap) (fl : Nat → List Blk) (b : Blk) : Prop where
  tag : h.word s b.hd = b.tag
  two : 2 ≤ b.size
  lo : MAX_POWER < b.hd
  hi : 4 * b.fin ≤ MAX_HEAP
  apart : ∀ k, ∀ c ∈ fl k, c.Apart b

def enlist (fl : Nat → List Blk) (b : Blk) : Nat → List Blk := fun k =>
  if k = Nat.log2 b.size then (fl k).orderedInsert Blk.Ge b else fl k

theorem mem_enlist : c ∈ enlist fl b k ↔ c ∈ fl k ∨ (c = b ∧ k = Nat.log2 b.size) := by
  unfold enlist
  split_ifs with hk
  · rw [List.mem_orderedInsert]; simp [hk, or_comm]
  · simp [hk]

/-- What `place_block_into_free_list` does to the words when it puts `b` between `l₁` and `l₂` in
list `k`. -/
structure LinkedIn (s : Nat) (h h' : Heap) (k : Nat) (l₁ : List Blk) (b : Blk) (l₂ : List Blk) :
    Prop where
  globals : SameGlobals h h'
  back : h'.word s (b.hd + 1) = lastPtr (ptr s) NULL l₁
  forth : h'.word s (b.hd + 2) = headPtr (ptr s) NULL l₂
  next : ∀ n ∈ l₂.head?, h'.word s (n.hd + 1) = ptr s b
  prev : ∀ p ∈ l₁.getLast?, h'.word s (p.hd + 2) = ptr s b
  head : l₁ = [] → h'.word s k = ptr s b
  other : ∀ i, i ≠ b.hd + 1 → i ≠ b.hd + 2 → (∀ n ∈ l₂.head?, i ≠ n.hd + 1) →
    (∀ p ∈ l₁.getLast?, i ≠ p.hd + 2) → (l₁ = [] → i ≠ k) → h'.word s i = h.word s i

theorem LinkedIn.of_writes (hw : Writes s (EditWord k l₁ b l₂) h h')
    (back : h'.word s (b.hd + 1) = lastPtr (ptr s) NULL l₁) (forth : h'.word s (b.hd + 2) = headPtr (ptr s) NULL l₂)
    (next : ∀ n ∈ l₂.head?, h'.word s (n.hd + 1) = ptr s b)
    (prev : ∀ p ∈ l₁.getLast?, h'.word s (p.hd + 2) = ptr s b) (head : l₁ = [] → h'.word s k = ptr s b) :
    Writes s (EditWord k l₁ b l₂) h h' ∧ LinkedIn s h h' k l₁ b l₂ :=
  ⟨hw, hw.globals, back, forth, next, prev, head, fun _ => hw.other⟩

theorem placeLoop_eq (size back : Nat) {fuel p : Nat} {l : List Blk} (h0 : 0 < s)
    (hl : Dll (ptr s) (pred s h) (succ s h) p l NULL) (ht : ∀ c ∈ l, h.getSize (ptr s c) = c.size)
    (hfuel : l.length < fuel) :
    h.placeLoop size fuel (headPtr (ptr s) NULL l) back =
      .ok (headPtr (ptr s) NULL (l.dropWhile fun c => c.size > size),
        lastPtr (ptr s) back (l.takeWhile fun c => c.size > size)) := by
  induction l generalizing fuel back p with
  | nil =>
    obtain ⟨n, rfl⟩ : ∃ n, fuel = n + 1 := ⟨fuel - 1, by simp at hfuel; omega⟩
    simp [Heap.placeLoop]
  | cons c l ih =>
    obtain ⟨n, rfl⟩ : ∃ n, fuel = n + 1 := ⟨fuel - 1, by simp at hfuel; omega⟩
    obtain ⟨-, h2, h3⟩ := dll_cons.1 hl
    have hc : ptr s c ≠ NULL := addr_pos h0
    simp only [Heap.placeLoop, headPtr_cons, ht c (by simp), hc, ne_eq, not_false_eq_true, true_and]
    by_cases hs : c.size > size
    · rw [if_pos hs, getSucc_ptr, h2, ih _ h3 (fun d hd => ht d (by simp [hd])) (by simpa using hfuel)]
      simp [hs]
    · rw [if_neg hs]
      simp [hs]

namespace SortedLists

/-- A free list is shorter than the fuel of the loops. -/
theorem length_lt (hf : SortedLists s h fl) (k : Nat) : (fl k).length < MAX_HEAP := by
  have hinj : ((fl k).map Blk.hd).Nodup := by
    refine (hf.nodup k).map_on fun b hb c hc heq => ?_
    by_contra hne
    have := hf.sep hb hc hne; omega
  have hsub : (fl k).map Blk.hd ⊆ List.range (MAX_HEAP / 4) := by
    intro i hi
    obtain ⟨b, hb, rfl⟩ := List.mem_map.1 hi
    have := hf.hi k b hb
    rw [List.mem_range]; unfold Blk.fin at this; omega
  have := (hinj.subperm hsub).length_le
  rw [List.length_map, List.length_range] at this
  have : MAX_HEAP = 20971520 := rfl
  omega

theorem orderedInsert_split (b : Blk) (l : List Blk) :
    l.orderedInsert Blk.Ge b =
      (l.takeWhile fun c => c.size > b.size) ++ b :: l.dropWhile fun c => c.size > b.size := by
  rw [List.orderedInsert_eq_take_drop]
  simp only [Blk.Ge, not_le, gt_iff_lt]

theorem linkedIn (hf : SortedLists s h fl) (hb : Insertable s h fl b) (hk : k = Nat.log2 b.size)
    (h₁ : l₁ = (fl k).takeWhile fun c => c.size > b.size)
    (h₂ : l₂ = (fl k).dropWhile fun c => c.size > b.size) :
    ∃ h', h.placeBlockIntoFreeList (ptr s b) = .ok h' ∧ Writes s (EditWord k l₁ b l₂) h h' ∧
      LinkedIn s h h' k l₁ b l₂ := by
  have hsplit : fl k = l₁ ++ l₂ := by rw [h₁, h₂, List.takeWhile_append_dropWhile]
  have hmem₁ : ∀ c ∈ l₁, c ∈ fl k := fun c hc => by simp [hsplit, hc]
  have hmem₂ : ∀ c ∈ l₂, c ∈ fl k := fun c hc => by simp [hsplit, hc]
  have hbs : b.size < 2 ^ 29 := by
    have := hb.hi
    have : MAX_HEAP = 20971520 := rfl
    unfold Blk.fin at *; omega
  have hkle : k ≤ 31 := by rw [hk]; exact log2_le_of_lt (by omega)
  have hsz : h.getSize (ptr s b) = b.size := by
    unfold ptr; rw [Heap.getSize_addr, hb.tag, Blk.tag_div]
  have hidx : findFreeListIndex b.size = k := by rw [findFreeListIndex_eq (by omega), hk]
  have h0 : b.size ≠ 0 := by have := hb.two; omega
  have hsep : ∀ c ∈ fl k, c.hd + 4 ≤ b.hd ∨ b.hd + 4 ≤ c.hd := by
    intro c hc
    have := hb.apart k c hc
    have := hf.two k c hc
    have := hb.two
    unfold Blk.Apart Blk.fin at *; omega
  have hlo : ∀ c ∈ fl k, 50 < c.hd := hf.lo k
  have hbl : 50 < b.hd := hb.lo
  have hB : ptr s b < 2 ^ 32 := by
    have := hb.hi; have := hf.fits
    unfold ptr addr; unfold Blk.fin at *; omega
  have hN0 : NULL < 2 ^ 32 := by decide
  have hN : headPtr (ptr s) NULL l₂ < 2 ^ 32 := hf.headPtr_lt hmem₂
  have hhead : h.getFreeListPtr k = headPtr (ptr s) NULL (fl k) := by
    rw [Heap.getFreeListPtr_eq hf.base]; exact hf.heads k (by unfold MAX_POWER; omega)
  unfold Heap.placeBlockIntoFreeList
  simp only [hsz, hidx, h0, ↓reduceIte, hhead, predField_ptr, succField_ptr]
  rcases hfl : fl k with _ | ⟨n, l⟩
  · -- the list is empty
    obtain ⟨rfl, rfl⟩ : l₁ = [] ∧ l₂ = [] := by simpa [hfl] using hsplit.symm
    have hset (g : Heap) (hg : SameGlobals h g) : g.setFreeListPtr k (ptr s b) =
        g.putWord (addr s k) (ptr s b) := Heap.setFreeListPtr_eq (hg.lists.trans hf.base)
    simp only [headPtr_nil, ↓reduceIte]
    rw [hset _ (((SameGlobals.refl h).putWord _ _).putWord _ _)]
    refine ⟨_, rfl, LinkedIn.of_writes (((Writes.refl.put .succ).put .pred).put (.head rfl)) ?_ ?_ (by simp) (by simp)
      fun _ => ?_⟩
    · rw [Heap.word_put_ne (by omega), Heap.word_put_same hN0]; rfl
    · rw [Heap.word_put_ne (by omega), Heap.word_put_ne (by omega), Heap.word_put_same hN0]; rfl
    · exact Heap.word_put_same hB
  have hnm : n ∈ fl k := by simp [hfl]
  have hn := hsep n hnm
  have hnl := hlo n hnm
  simp only [headPtr_cons, hf.ptr_ne, hf.getSize hnm, ↓reduceIte]
  by_cases hge : b.size ≥ n.size
  · -- the new block is the largest of its list
    obtain ⟨rfl, rfl⟩ : l₁ = [] ∧ l₂ = n :: l := by
      rw [h₁, h₂, hfl]; simp [hge]
    rw [if_pos hge, Heap.setFreeListPtr_eq hf.base]
    simp only [headPtr_cons] at hN
    simp only [predField_ptr]
    refine ⟨_, rfl, LinkedIn.of_writes ((((Writes.refl.put (.head rfl)).put .succ).put (.next rfl)).put .pred) ?_ ?_ ?_
      (by simp) fun _ => ?_⟩
    · exact Heap.word_put_same hN0
    · rw [Heap.word_put_ne (by omega), Heap.word_put_ne (by omega), Heap.word_put_same hN]; rfl
    · rintro _ ⟨⟩
      rw [Heap.word_put_ne (by omega), Heap.word_put_same hB]
    · rw [Heap.word_put_ne (by omega), Heap.word_put_ne (by omega), Heap.word_put_ne (by omega),
        Heap.word_put_same hB]
  · -- the loop looks for the place
    have hloop := placeLoop_eq b.size NULL hf.start_pos (hf.links k)
      (fun c hc => hf.getSize hc) (hf.length_lt k)
    rw [← h₁, ← h₂, hfl, headPtr_cons] at hloop
    rw [if_neg hge, hloop]
    simp only [bind, Except.bind]
    rcases List.eq_nil_or_concat l₁ with rfl | ⟨l', p, rfl⟩
    · rw [hfl, List.takeWhile_cons_of_pos (by simpa using hge)] at h₁; cases h₁
    rw [List.concat_eq_append] at *
    have hpm := hmem₁ p (by simp)
    have hp := hsep p hpm
    have hpl := hlo p hpm
    simp only [lastPtr_concat, succField_ptr]
    have hP := hf.ptr_lt hpm
    rcases l₂ with _ | ⟨m, l₂⟩
    · simp only [headPtr_nil, ↓reduceIte]
      refine ⟨_, rfl, LinkedIn.of_writes (((Writes.refl.put (.prev (by simp))).put .pred).put .succ) ?_ ?_ (by simp) ?_
        (by simp)⟩
      · rw [Heap.word_put_ne (by omega), Heap.word_put_same hP, lastPtr_concat]
      · rw [Heap.word_put_same hN0]; rfl
      · intro p' hp'
        obtain rfl : p = p' := by simpa using hp'
        rw [Heap.word_put_ne (by omega), Heap.word_put_ne (by omega), Heap.word_put_same hB]
    · have hmm := hmem₂ m (by simp)
      have hm := hsep m hmm
      have hml := hlo m hmm
      have hnd := hf.nodup k
      rw [hsplit] at hnd
      have hpm' : p ≠ m := (List.nodup_append.1 hnd).2.2 p (by simp) m (by simp)
      have hpm'' := hf.sep hpm hmm hpm'
      simp only [headPtr_cons, hf.ptr_ne, ↓reduceIte, predField_ptr] at hN ⊢
      refine ⟨_, rfl, LinkedIn.of_writes ((((Writes.refl.put (.prev (by simp))).put .pred).put .succ).put (.next rfl))
        ?_ ?_ ?_ ?_ (by simp)⟩
      · rw [Heap.word_put_ne (by omega), Heap.word_put_ne (by omega), Heap.word_put_same hP,
          lastPtr_concat]
      · rw [Heap.word_put_ne (by omega), Heap.word_put_same hN]; rfl
      · rintro _ ⟨⟩
        rw [Heap.word_put_same hB]
      · intro p' hp'
        obtain rfl : p = p' := by simpa using hp'
        rw [Heap.word_put_ne (by omega), Heap.word_put_ne (by omega), Heap.word_put_ne (by omega),
          Heap.word_put_same hB]

end SortedLists

section LinkIn
variable (hf : SortedLists s h fl) (hb : Insertable s h fl b) (hkc : k = Nat.log2 b.size)
  (hk : fl k = l₁ ++ l₂) (hu : LinkedIn s h h' k l₁ b l₂)

theorem Insertable.sep (hf : SortedLists s h fl) (hb : Insertable s h fl b) {k : Nat} (hc : c ∈ fl k) :
    c.hd + 4 ≤ b.hd ∨ b.hd + 4 ≤ c.hd := by
  have := hb.apart k c hc
  have := hf.two k c hc
  have := hb.two
  unfold Blk.Apart Blk.fin at *; omega

theorem Insertable.class_le (hb : Insertable s h fl b) : Nat.log2 b.size ≤ 31 := by
  have := hb.hi
  have : MAX_HEAP = 20971520 := rfl
  exact log2_le_of_lt (by unfold Blk.fin at *; omega)

include hf hb hkc hk hu

theorem LinkedIn.pred_eq {k' : Nat} (hc : c ∈ fl k') (hn : c ∉ l₂.head?) :
    pred s h' c = pred s h c := by
  have hkle := hb.class_le
  have hlo := hf.lo k' c hc
  unfold MAX_POWER at hlo
  have hbc := hb.sep hf hc
  refine hu.other _ (by omega) (by omega) ?_ ?_ (by omega)
  · intro n hn'
    have := hf.sep (j := k) (c := n) hc (by simp [hk, mem_of_head? hn']) (fun he => hn (he ▸ hn'))
    omega
  · intro p hp
    by_cases he : c = p
    · subst he; omega
    · have := hf.sep (j := k) (c := p) hc (by simp [hk, mem_of_getLast? hp]) he
      omega

theorem LinkedIn.succ_eq {k' : Nat} (hc : c ∈ fl k') (hp : c ∉ l₁.getLast?) :
    succ s h' c = succ s h c := by
  have hkle := hb.class_le
  have hlo := hf.lo k' c hc
  unfold MAX_POWER at hlo
  have hbc := hb.sep hf hc
  refine hu.other _ (by omega) (by omega) ?_ ?_ (by omega)
  · intro n hn
    by_cases he : c = n
    · subst he; omega
    · have := hf.sep (j := k) (c := n) hc (by simp [hk, mem_of_head? hn]) he
      omega
  · intro p hp'
    have := hf.sep (j := k) (c := p) hc (by simp [hk, mem_of_getLast? hp']) (fun he => hp (he ▸ hp'))
    omega

omit hf in
theorem LinkedIn.frame {i : Nat} (hi : ¬ ListWord fl i) (h1 : i ≠ b.hd + 1) (h2 : i ≠ b.hd + 2) :
    h'.word s i = h.word s i := by
  have hkle := hb.class_le
  simp only [ListWord, not_or, not_exists, not_and] at hi
  unfold MAX_POWER at hi
  have hno := hi.2 k
  exact hu.other _ h1 h2
    (fun n hn => (hno n (by simp [hk, mem_of_head? hn])).1)
    (fun p hp => (hno p (by simp [hk, mem_of_getLast? hp])).2) (by omega)

/-- **Linking in** adds exactly `b` to the represented lists. -/
theorem LinkedIn.sortedLists (hins : (fl k).orderedInsert Blk.Ge b = l₁ ++ b :: l₂) :
    SortedLists s h' (enlist fl b) := by
  have hnb : ∀ k', b ∉ fl k' := fun k' hb' => by have := hb.sep hf hb'; omega
  have hnd := hf.nodup k
  rw [hk] at hnd
  obtain ⟨hnd₁, hnd₂, hne₁⟩ := List.nodup_append.1 hnd
  have hmem₁ : ∀ c ∈ l₁, c ∈ fl k := fun c hc => by simp [hk, hc]
  have hmem₂ : ∀ c ∈ l₂, c ∈ fl k := fun c hc => by simp [hk, hc]
  have hke : enlist fl b k = l₁ ++ b :: l₂ := by unfold enlist; rw [if_pos hkc, hins]
  have hoe : ∀ k', k' ≠ k → enlist fl b k' = fl k' := by
    intro k' hne
    unfold enlist; rw [if_neg (by omega)]
  have hcases : ∀ {k' c}, c ∈ enlist fl b k' → c ∈ fl k' ∨ c = b := fun hc =>
    (mem_enlist.1 hc).imp id And.left
  have hlast : ∀ c ∈ l₁, c ∉ l₂.head? := fun c hc hc' => hne₁ c hc c (mem_of_head? hc') rfl
  have hhead : ∀ c ∈ l₂, c ∉ l₁.getLast? := fun c hc hc' => hne₁ c (mem_of_getLast? hc') c hc rfl
  have hkle := hb.class_le
  have hfr := fun i => hu.frame hb hkc hk (i := i)
  refine ⟨hf.start_pos, hf.fits, hu.globals.lists.trans hf.base, ?_, ?_,
    ?_, ?_, ?_, ?_, ?_, ?_, ?_, ?_⟩
  · intro k' hk'
    -- the heads
    have hlo := hf.lo k
    have hbl := hb.lo
    have hne : ∀ c, c ∈ fl k → ∀ d, k' ≠ c.hd + d := fun c hc d => by have := hlo c hc; omega
    have hkeep : (l₁ = [] → k' ≠ k) → h'.word s k' = h.word s k' := hu.other k' (by omega) (by omega)
      (fun n hn => hne n (hmem₂ n (mem_of_head? hn)) 1)
      (fun p hp => hne p (hmem₁ p (mem_of_getLast? hp)) 2)
    by_cases hkk : k' = k
    · subst hkk
      rw [hke, headPtr_append]
      cases l₁ with
      | nil => exact hu.head rfl
      | cons c l => rw [hkeep (by simp), hf.heads k' hk', hk]; rfl
    · rw [hoe k' hkk, hkeep (fun _ => hkk), hf.heads k' hk']
  · intro k'
    -- the links
    by_cases hkk : k' = k
    · subst hkk
      have hl := hf.links k'
      rw [hk] at hl
      rw [hke]
      refine hl.insert ?_ ?_ (fun y hy => hu.prev y hy) ?_
        ?_ (fun y hy => hu.next y hy) hu.back hu.forth
      · intro y hy
        exact hu.pred_eq hf hb hkc hk (hmem₁ y hy) (hlast y hy)
      · intro y hy
        have hy' := List.mem_of_mem_dropLast hy
        refine hu.succ_eq hf hb hkc hk (hmem₁ y hy') fun hl => ?_
        rcases List.eq_nil_or_concat l₁ with rfl | ⟨l, p, rfl⟩
        · cases hl
        · rw [List.concat_eq_append] at *
          obtain rfl : p = y := by simpa using hl
          rw [List.dropLast_concat] at hy
          exact (List.nodup_append.1 hnd₁).2.2 p hy p (by simp) rfl
      · intro y hy
        exact hu.succ_eq hf hb hkc hk (hmem₂ y hy) (hhead y hy)
      · intro y hy
        cases l₂ with
        | nil => cases hy
        | cons n l =>
          refine hu.pred_eq hf hb hkc hk (hmem₂ y (by simp [List.mem_of_mem_tail hy])) fun hn => ?_
          obtain rfl : n = y := by simpa using hn
          exact (List.nodup_cons.1 hnd₂).1 hy
    · rw [hoe k' hkk]
      refine (hf.links k').congr ?_ ?_
      · intro y hy
        exact hu.pred_eq hf hb hkc hk hy fun hn =>
          hkk ((hf.cls k' y hy).symm.trans (hf.cls k y (hmem₂ y (mem_of_head? hn))))
      · intro y hy
        exact hu.succ_eq hf hb hkc hk hy fun hn =>
          hkk ((hf.cls k' y hy).symm.trans (hf.cls k y (hmem₁ y (mem_of_getLast? hn))))
  · intro k'
    by_cases hkk : k' = k
    · subst hkk; rw [hke, ← hins]; exact (hf.sorted k').orderedInsert b _
    · rw [hoe k' hkk]; exact hf.sorted k'
  · rintro k' c hc
    rcases mem_enlist.1 hc with hc | ⟨rfl, rfl⟩
    · exact hf.cls k' c hc
    · rfl
  · intro k'
    by_cases hkk : k' = k
    · subst hkk
      rw [hke, ← hins]
      exact (List.perm_orderedInsert _ b _).nodup_iff.2 (List.nodup_cons.2 ⟨hnb k', hf.nodup k'⟩)
    · rw [hoe k' hkk]; exact hf.nodup k'
  · intro k' c hc
    have hlw : ∀ {i}, MAX_POWER < i → (∀ k'' d, d ∈ fl k'' → i ≠ d.hd + 1 ∧ i ≠ d.hd + 2) →
        ¬ ListWord fl i := by
      rintro i hi hd (h1 | ⟨k'', d, hd', h1⟩)
      · omega
      · have := hd k'' d hd'; omega
    rcases hcases hc with hc | rfl
    · have hs := hb.sep hf hc
      rw [hfr _ (hlw (hf.lo k' c hc) fun k'' d hd => ?_) (by omega) (by omega), hf.tags k' c hc]
      by_cases he : c = d
      · subst he; omega
      · have := hf.sep hc hd he; omega
    · rw [hfr _ (hlw hb.lo fun k'' d hd => ?_) (by omega) (by omega), hb.tag]
      have := hb.sep hf hd; omega
  · exact fun k' c hc => (hcases hc).elim (hf.two k' c) fun he => he ▸ hb.two
  · exact fun k' c hc => (hcases hc).elim (hf.lo k' c) fun he => he ▸ hb.lo
  · exact fun k' c hc => (hcases hc).elim (hf.hi k' c) fun he => he ▸ hb.hi
  · intro k' k'' c d hc hd hne
    rcases hcases hc with hc' | hc' <;> rcases hcases hd with hd' | hd'
    · exact hf.apart k' k'' c d hc' hd' hne
    · exact hd' ▸ hb.apart k' c hc'
    · exact hc' ▸ (hb.apart k'' d hd').symm
    · exact absurd (hc'.trans hd'.symm) hne

end LinkIn

theorem SortedLists.place (hf : SortedLists s h fl) (hb : Insertable s h fl b) :
    ∃ h', h.placeBlockIntoFreeList (ptr s b) = .ok h' ∧ SortedLists s h' (enlist fl b) ∧
      SameGlobals h h' ∧
      ∀ i, ¬ ListWord fl i → i ≠ b.hd + 1 → i ≠ b.hd + 2 → h'.word s i = h.word s i := by
  obtain ⟨h', he, -, hu⟩ := hf.linkedIn hb rfl rfl rfl
  have hk := List.takeWhile_append_dropWhile (p := fun c => c.size > b.size) (l := fl (Nat.log2 b.size))
  exact ⟨h', he, hu.sortedLists hf hb rfl hk.symm (SortedLists.orderedInsert_split b _), hu.globals,
    fun _ => hu.frame hb rfl hk.symm⟩

/-! ### Free blocks -/

/-- The free lists `fl` (one for each size class) are what the heap stores. -/
structure FreeLists (s : Nat) (h : Heap) (fl : Nat → List Blk) : Prop where
  start_pos : 0 < s
  fits : s + MAX_HEAP < 2 ^ 32
  base : h.freeLists = s
  heads : ∀ k ≤ MAX_POWER, h.word s k = headPtr (ptr s) NULL (fl k)
  links : ∀ k, Dll (ptr s) (pred s h) (succ s h) NULL (fl k) NULL
  sorted : ∀ k, (fl k).Pairwise Blk.Ge
  cls : ∀ k, ∀ b ∈ fl k, Nat.log2 b.size = k
  nodup : ∀ k, (fl k).Nodup
  tags : ∀ k, ∀ b ∈ fl k, h.word s b.hd = b.tag
  free : ∀ k, ∀ b ∈ fl k, b.taken = false
  two : ∀ k, ∀ b ∈ fl k, 2 ≤ b.size
  lo : ∀ k, ∀ b ∈ fl k, MAX_POWER < b.hd
  hi : ∀ k, ∀ b ∈ fl k, 4 * b.fin ≤ MAX_HEAP
  apart : ∀ k k' b c, b ∈ fl k → c ∈ fl k' → b ≠ c → b.Apart c

/-- A block that can be placed: free, tagged, large enough for the two links, and apart from the
listed blocks. -/
structure Placeable (s : Nat) (h : Heap) (fl : Nat → List Blk) (b : Blk) : Prop where
  tag : h.word s b.hd = b.tag
  free : b.taken = false
  two : 2 ≤ b.size
  lo : MAX_POWER < b.hd
  hi : 4 * b.fin ≤ MAX_HEAP
  apart : ∀ k, ∀ c ∈ fl k, c.Apart b

theorem FreeLists.sortedLists (hf : FreeLists s h fl) : SortedLists s h fl :=
  ⟨hf.start_pos, hf.fits, hf.base, hf.heads, hf.links, hf.sorted, hf.cls, hf.nodup, hf.tags, hf.two, hf.lo, hf.hi,
    hf.apart⟩

theorem SortedLists.freeLists (hl : SortedLists s h fl) (hfree : ∀ k, ∀ b ∈ fl k, b.taken = false) :
    FreeLists s h fl :=
  ⟨hl.start_pos, hl.fits, hl.base, hl.heads, hl.links, hl.sorted, hl.cls, hl.nodup, hl.tags, hfree, hl.two, hl.lo,
    hl.hi, hl.apart⟩

theorem Placeable.insertable (hb : Placeable s h fl b) : Insertable s h fl b :=
  ⟨hb.tag, hb.two, hb.lo, hb.hi, hb.apart⟩

theorem FreeLists.congr (hf : FreeLists s h fl) (hg : h'.freeLists = h.freeLists)
    (hw : ∀ i, ListWord fl i → h'.word s i = h.word s i)
    (ht : ∀ k, ∀ b ∈ fl k, h'.word s b.hd = h.word s b.hd) : FreeLists s h' fl :=
  (hf.sortedLists.congr hg hw ht).freeLists hf.free

theorem FreeLists.remove (hf : FreeLists s h fl) (hb : b ∈ fl k) :
    FreeLists s (h.removeBlockFromFreeList (ptr s b)) (unlist fl b) ∧
      SameGlobals h (h.removeBlockFromFreeList (ptr s b)) ∧
      ∀ i, ¬ ListWord fl i → (h.removeBlockFromFreeList (ptr s b)).word s i = h.word s i := by
  obtain ⟨hl, hg, hw⟩ := hf.sortedLists.remove hb
  exact ⟨hl.freeLists fun k c hc => hf.free k c ((mem_unlist hf.sortedLists).1 hc).1, hg, hw⟩

theorem FreeLists.place (hf : FreeLists s h fl) (hb : Placeable s h fl b) :
    ∃ h', h.placeBlockIntoFreeList (ptr s b) = .ok h' ∧ FreeLists s h' (enlist fl b) ∧
      SameGlobals h h' ∧
      ∀ i, ¬ ListWord fl i → i ≠ b.hd + 1 → i ≠ b.hd + 2 → h'.word s i = h.word s i := by
  obtain ⟨h', he, hl, hg, hw⟩ := hf.sortedLists.place hb.insertable
  refine ⟨h', he, hl.freeLists fun k c hc => ?_, hg, hw⟩
  rcases mem_enlist.1 hc with hc | ⟨rfl, -⟩
  · exact hf.free k c hc
  · exact hb.free

end CsappLab.Malloc
