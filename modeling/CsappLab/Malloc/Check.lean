import CsappLab.Malloc.BestFit
import CsappLab.Lib.Fuel
import Mathlib.Data.List.TakeWhile

/-!
# The heap checker

`mm_check` and the functions that it calls, in the order of the file. The loops over the blocks go on
while `GET_STATUS(bp) != TAKEN && GET_SIZE(bp) != 0`, which the comment calls "haven't hit epilog"; they
end at the first taken block. So `mm_check` looks at the free lists and at the free blocks at the front of
the heap.
-/

namespace CsappLab.Malloc
open ByteMem CInt

/-- The assertions of `mm_check` with what they print, and a loop that does not end. -/
inductive Alarm
  | markedTaken
  | shouldCoalesce (bp nextBlock : Nat)
  | differentSizes (bp : Nat)
  | takenInHeader (bp : Nat)
  | takenInFooter (bp : Nat)
  | notInFreeList (bp : Nat)
  | notInHeapRange (bp : Nat)
  | endlessLoop
deriving DecidableEq, Repr

namespace Heap

def checkFreeBlocksInOneFreeListMarkedFree (h : Heap) : Nat → Nat → Except Alarm Unit
  | _, 0 => .error .endlessLoop
  | bp, fuel + 1 =>
    if bp ≠ NULL then
      if h.getStatus bp = TAKEN then .error .markedTaken
      else checkFreeBlocksInOneFreeListMarkedFree h (h.getSucc bp) fuel
    else .ok ()

def checkFreeBlocksMarkedFree (h : Heap) (fuel : Nat) : Except Alarm Unit :=
  (List.range (MAX_POWER + 1)).forM fun i =>
    if h.getFreeListPtr i ≠ NULL then h.checkFreeBlocksInOneFreeListMarkedFree (h.getFreeListPtr i) fuel
    else .ok ()

def shouldCoalesceWithNextBlock (h : Heap) (bp : Nat) : Except Alarm Unit :=
  let nextBlock := h.nextBlockInHeap bp
  if h.getStatus bp = FREE ∧ h.getStatus nextBlock = FREE then .error (.shouldCoalesce bp nextBlock) else .ok ()

/-- The loop of the functions below: `check` on every block until a taken or an empty one. -/
def walkBlocks (h : Heap) (check : Nat → Except Alarm Unit) : Nat → Nat → Except Alarm Unit
  | _, 0 => .error .endlessLoop
  | bp, fuel + 1 =>
    if h.getStatus bp ≠ TAKEN ∧ h.getSize bp ≠ 0 then do
      check bp
      walkBlocks h check (h.nextBlockInHeap bp) fuel
    else .ok ()

def checkContiguousFreeBlockCoalesced (h : Heap) (fuel : Nat) : Except Alarm Unit :=
  h.walkBlocks h.shouldCoalesceWithNextBlock h.heapPtr fuel

def isValidFreeBlock (h : Heap) (bp : Nat) : Except Alarm Unit :=
  let sizeInHdr := h.getSize bp
  let sizeInFtr := h.getSize (h.ftrp bp)
  if sizeInHdr ≠ sizeInFtr then .error (.differentSizes bp)
  else if h.getStatus bp = TAKEN then .error (.takenInHeader bp)
  else if h.getStatus (h.ftrp bp) = TAKEN then .error (.takenInFooter bp)
  else .ok ()

def shouldBeInFreeList (h : Heap) (bp : Nat) : Except Alarm Unit :=
  let index := findFreeListIndex (h.getSize bp)
  if h.getFreeListPtr index = bp then .ok ()
  else if h.getPred bp = NULL ∧ h.getSucc bp = NULL then .error (.notInFreeList bp)
  else .ok ()

def checkAllFreeBlocksInFreeList (h : Heap) (fuel : Nat) : Except Alarm Unit :=
  h.walkBlocks (fun bp => if h.getStatus bp = FREE then h.shouldBeInFreeList bp else .ok ()) h.heapPtr fuel

def checkAllFreeBlocksValidFtrHdr (h : Heap) (fuel : Nat) : Except Alarm Unit :=
  h.walkBlocks (fun bp => if h.getStatus bp = FREE then h.isValidFreeBlock bp else .ok ()) h.heapPtr fuel

/-- `!(heap_lo <= bp <= heap_hi)`: the result of the first comparison, 0 or 1, is compared with `heap_hi`. -/
def isValidHeapAddress (bp heapLo heapHi : Nat) : Except Alarm Unit :=
  if ¬ (if heapLo ≤ bp then 1 else 0) ≤ heapHi then .error (.notInHeapRange bp) else .ok ()

/-- The loop tests behind its body. -/
def checkPtrsValidHeapAddress (h : Heap) (fuel : Nat) : Except Alarm Unit := do
  let check bp := isValidHeapAddress bp h.memHeapLo h.memHeapHi
  check h.heapPtr
  h.walkBlocks check (h.nextBlockInHeap h.heapPtr) fuel

def mmCheck (h : Heap) (fuel : Nat) : Except Alarm Unit := do
  h.checkFreeBlocksMarkedFree fuel
  h.checkContiguousFreeBlockCoalesced fuel
  h.checkAllFreeBlocksInFreeList fuel
  h.checkAllFreeBlocksValidFtrHdr fuel
  h.checkPtrsValidHeapAddress fuel

/-- `mm_check` comes to its end. -/
def Passes (h : Heap) : Prop := Fuel.Halts h.mmCheck ()

end Heap

/-- The blocks `bps` follow each other from `heap_ptr` to the epilog, which ends at the break. -/
structure Tiling (h : Heap) (bps : List Nat) : Prop where
  walk : h.Blocks bps
  epilog : h.getWord (h.memBrk - WORD_SIZE * EPILOG_SIZE) = pack 0 TAKEN
  brk : WORD_SIZE * EPILOG_SIZE ≤ h.memBrk

def SameTags (h : Heap) (bp : Nat) : Prop :=
  h.getSize bp = h.getSize (h.ftrp bp) ∧ h.getStatus (h.ftrp bp) = FREE

/-- The block is the head of its list or has a neighbour in a list. -/
def Listed (h : Heap) (bp : Nat) : Prop :=
  h.getFreeListPtr (findFreeListIndex (h.getSize bp)) = bp ∨ h.getPred bp ≠ NULL ∨ h.getSucc bp ≠ NULL

/-- What `mm_check` is there for. -/
structure InOrder (h : Heap) (bps : List Nat) : Prop where
  coalesced : bps.IsChain fun bp bq => ¬ (h.getStatus bp = FREE ∧ h.getStatus bq = FREE)
  tags : ∀ bp ∈ bps, h.getStatus bp = FREE → SameTags h bp
  listed : ∀ bp ∈ bps, h.getStatus bp = FREE → Listed h bp

/-- Nothing is wrong with the block and the one behind it. -/
structure BlockOk (h : Heap) (bp : Nat) : Prop where
  coalesced : ¬ (h.getStatus bp = FREE ∧ h.getStatus (h.nextBlockInHeap bp) = FREE)
  tags : h.getStatus bp = FREE → SameTags h bp
  listed : h.getStatus bp = FREE → Listed h bp

/-- The list from `bp` on ends and holds blocks that are marked `FREE` only. -/
inductive FreeToEnd (h : Heap) : Nat → Prop
  | null : FreeToEnd h NULL
  | next {bp : Nat} : bp ≠ NULL → h.getStatus bp = FREE → FreeToEnd h (h.getSucc bp) → FreeToEnd h bp

def MarkedFree (h : Heap) : Prop := ∀ i ≤ MAX_POWER, FreeToEnd h (h.getFreeListPtr i)

def Heap.goesOn (h : Heap) (bp : Nat) : Bool := h.getStatus bp ≠ TAKEN ∧ h.getSize bp ≠ 0

variable {h : Heap} {bp p q : Nat} {bps : List Nat} {check : Nat → Except Alarm Unit}

theorem status_ne_taken_iff : h.getStatus bp ≠ TAKEN ↔ h.getStatus bp = FREE := by
  have := Nat.and_le_right (n := h.getWord bp) (m := 1)
  unfold Heap.getStatus TAKEN FREE
  omega

open Fuel

/-! ### The loops -/

theorem mono_freeList (bp : Nat) : Mono (h.checkFreeBlocksInOneFreeListMarkedFree bp) := by
  refine Mono.of_succ fun n => ?_
  induction n generalizing bp with
  | zero => intro _ hn; cases hn
  | succ n ih =>
    intro _ hn
    unfold Heap.checkFreeBlocksInOneFreeListMarkedFree at hn ⊢
    split_ifs at hn ⊢
    · exact ih _ _ hn
    · exact hn

theorem halts_freeList : Halts (h.checkFreeBlocksInOneFreeListMarkedFree bp) () ↔ FreeToEnd h bp := by
  constructor
  · rintro ⟨n, hn⟩
    induction n generalizing bp with
    | zero => cases hn
    | succ n ih =>
      unfold Heap.checkFreeBlocksInOneFreeListMarkedFree at hn
      split_ifs at hn with h1 h2
      · exact .next h1 (status_ne_taken_iff.1 h2) (ih hn)
      · rw [not_not.1 h1]
        exact .null
  · intro hf
    induction hf with
    | null => exact ⟨1, rfl⟩
    | next h1 h2 _ ih =>
      obtain ⟨n, hn⟩ := ih
      refine ⟨n + 1, ?_⟩
      unfold Heap.checkFreeBlocksInOneFreeListMarkedFree
      rwa [if_pos h1, if_neg (status_ne_taken_iff.2 h2)]

theorem mono_freeLists : Mono h.checkFreeBlocksMarkedFree := by
  refine Mono.forM (fun i => ?_) _
  split_ifs
  · exact mono_freeList _
  · exact .const _

theorem halts_freeLists : Halts h.checkFreeBlocksMarkedFree () ↔ MarkedFree h := by
  refine (halts_forM fun i => ?_).trans ?_
  · split_ifs
    · exact mono_freeList _
    · exact .const _
  · simp only [List.mem_range, Nat.lt_succ_iff]
    refine forall₂_congr fun i _ => ?_
    split_ifs with h0
    · exact halts_freeList
    · rw [not_not.1 h0]
      exact iff_of_true ⟨0, rfl⟩ .null

theorem mono_walk (p : Nat) : Mono (h.walkBlocks check p) := by
  refine Mono.of_succ fun n => ?_
  induction n generalizing p with
  | zero => intro _ hn; cases hn
  | succ n ih =>
    intro _ hn
    unfold Heap.walkBlocks at hn ⊢
    split_ifs at hn ⊢
    · rcases hc : check p with f | u
      · rw [hc] at hn
        cases hn
      · rw [hc] at hn
        exact ih _ _ hn
    · exact hn

/-- **A loop over the blocks** checks those in front of the first taken or empty one. -/
theorem halts_walk (hw : Walk h p bps q) (hq : h.getStatus q = TAKEN) :
    Halts (h.walkBlocks check p) () ↔ ∀ bp ∈ bps.takeWhile h.goesOn, check bp = .ok () := by
  induction bps generalizing p with
  | nil =>
    obtain rfl : p = q := hw
    refine iff_of_true ⟨1, ?_⟩ (by simp)
    exact if_neg fun hg => hg.1 hq
  | cons b bps ih =>
    obtain ⟨rfl, hw⟩ := hw
    rw [halts_succ (f := h.walkBlocks check b) (e := .endlessLoop) rfl]
    by_cases hg : h.getStatus b ≠ TAKEN ∧ h.getSize b ≠ 0
    · have hstep : (fun n => h.walkBlocks check b (n + 1)) =
          fun n => check b >>= fun _ => h.walkBlocks check (h.nextBlockInHeap b) n :=
        funext fun n => if_pos hg
      rw [hstep, List.takeWhile_cons_of_pos (show h.goesOn b = true from decide_eq_true hg), List.forall_mem_cons,
        ← ih hw]
      exact (halts_seq (Mono.const _) (mono_walk _)).trans (and_congr_left' halts_const)
    · rw [List.takeWhile_cons_of_neg (by simpa [Heap.goesOn] using hg)]
      refine iff_of_true ⟨0, if_neg hg⟩ (by simp)

/-! ### The checks -/

theorem goesOn_iff : h.goesOn bp = true ↔ h.getStatus bp = FREE ∧ h.getSize bp ≠ 0 := by
  unfold Heap.goesOn
  rw [decide_eq_true_iff, status_ne_taken_iff]

theorem shouldCoalesce_ok_iff : h.shouldCoalesceWithNextBlock bp = .ok () ↔
    ¬ (h.getStatus bp = FREE ∧ h.getStatus (h.nextBlockInHeap bp) = FREE) := by
  unfold Heap.shouldCoalesceWithNextBlock
  simp only []
  split_ifs with hc <;> simp [hc]

theorem shouldBeInFreeList_ok_iff : h.shouldBeInFreeList bp = .ok () ↔ Listed h bp := by
  unfold Heap.shouldBeInFreeList Listed
  simp only []
  split_ifs with h1 h2
  · simp [h1]
  · simp [h1, h2]
  · refine iff_of_true rfl (.inr ?_)
    tauto

theorem isValidFreeBlock_ok_iff (hf : h.getStatus bp = FREE) :
    h.isValidFreeBlock bp = .ok () ↔ SameTags h bp := by
  unfold Heap.isValidFreeBlock SameTags
  rw [← @status_ne_taken_iff _ (h.ftrp bp)]
  simp only [if_neg (status_ne_taken_iff.2 hf)]
  split_ifs with h1 h2
  · simp [h1]
  · simp [h2]
  · simp [not_not.1 h1, h2]

theorem isValidHeapAddress_ok (ht : Tiling h bps) (bp : Nat) :
    Heap.isValidHeapAddress bp h.memHeapLo h.memHeapHi = .ok () := by
  have hb := ht.brk
  unfold Heap.isValidHeapAddress Heap.memHeapHi
  rw [show WORD_SIZE * EPILOG_SIZE = 8 by rfl] at hb
  refine if_neg (not_not.2 ?_)
  split_ifs <;> omega

theorem Tiling.epilog_taken (ht : Tiling h bps) :
    h.getStatus (h.memBrk - WORD_SIZE * EPILOG_SIZE) = TAKEN := by
  unfold Heap.getStatus
  rw [ht.epilog]
  rfl

theorem passes_iff_each : h.Passes ↔ Halts h.checkFreeBlocksMarkedFree () ∧
    Halts h.checkContiguousFreeBlockCoalesced () ∧ Halts h.checkAllFreeBlocksInFreeList () ∧
    Halts h.checkAllFreeBlocksValidFtrHdr () ∧ Halts h.checkPtrsValidHeapAddress () := by
  have m2 : Mono h.checkContiguousFreeBlockCoalesced := mono_walk _
  have m3 : Mono h.checkAllFreeBlocksInFreeList := mono_walk _
  have m4 : Mono h.checkAllFreeBlocksValidFtrHdr := mono_walk _
  have m5 : Mono h.checkPtrsValidHeapAddress := Mono.bind (.const _) fun _ => mono_walk _
  have m45 := Mono.bind m4 fun _ => m5
  have m345 := Mono.bind m3 fun _ => m45
  refine (halts_seq mono_freeLists (Mono.bind m2 fun _ => m345)).trans (and_congr_right' ?_)
  refine (halts_seq m2 m345).trans (and_congr_right' ?_)
  refine (halts_seq m3 m45).trans (and_congr_right' ?_)
  exact halts_seq m4 m5

/-- **What `mm_check` asserts**: something about the free lists and the free blocks at the front. -/
theorem passes_iff (ht : Tiling h bps) (h0 : bps ≠ []) :
    h.Passes ↔ MarkedFree h ∧ ∀ bp ∈ bps.takeWhile h.goesOn, BlockOk h bp := by
  have hq := ht.epilog_taken
  have hw : Walk h h.heapPtr bps _ := ht.walk
  have hfree : ∀ bp ∈ bps.takeWhile h.goesOn, h.getStatus bp = FREE := fun bp hbp =>
    (goesOn_iff.1 (List.mem_takeWhile_imp hbp)).1
  have hptrs : Halts h.checkPtrsValidHeapAddress () := by
    obtain ⟨b, bps, rfl⟩ := List.exists_cons_of_ne_nil h0
    obtain ⟨rfl, hw'⟩ := hw
    refine (halts_seq (Mono.const _) (mono_walk _)).2 ⟨⟨0, isValidHeapAddress_ok ht _⟩, ?_⟩
    exact (halts_walk hw' hq).2 fun bp _ => isValidHeapAddress_ok ht bp
  rw [passes_iff_each, halts_freeLists]
  refine and_congr_right' ?_
  have h2 : Halts h.checkContiguousFreeBlockCoalesced () ↔ _ := halts_walk hw hq
  have h3 : Halts h.checkAllFreeBlocksInFreeList () ↔ _ := halts_walk hw hq
  have h4 : Halts h.checkAllFreeBlocksValidFtrHdr () ↔ _ := halts_walk hw hq
  rw [h2, h3, h4]
  constructor
  · rintro ⟨hc, hl, ht, -⟩ bp hbp
    have hbl := hl bp hbp
    have hbt := ht bp hbp
    rw [if_pos (hfree bp hbp)] at hbl hbt
    exact ⟨shouldCoalesce_ok_iff.1 (hc bp hbp), fun _ => (isValidFreeBlock_ok_iff (hfree bp hbp)).1 hbt,
      fun _ => shouldBeInFreeList_ok_iff.1 hbl⟩
  · intro hok
    refine ⟨fun bp hbp => ?_, fun bp hbp => ?_, fun bp hbp => ?_, hptrs⟩
    · exact shouldCoalesce_ok_iff.2 (hok bp hbp).coalesced
    · rw [if_pos (hfree bp hbp)]
      exact shouldBeInFreeList_ok_iff.2 ((hok bp hbp).listed (hfree bp hbp))
    · rw [if_pos (hfree bp hbp)]
      exact (isValidFreeBlock_ok_iff (hfree bp hbp)).2 ((hok bp hbp).tags (hfree bp hbp))

/-! ### The whole heap -/

theorem chain_iff (hw : Walk h p bps q) (hq : h.getStatus q = TAKEN) :
    (bps.IsChain fun bp bq => ¬ (h.getStatus bp = FREE ∧ h.getStatus bq = FREE)) ↔
      ∀ bp ∈ bps, ¬ (h.getStatus bp = FREE ∧ h.getStatus (h.nextBlockInHeap bp) = FREE) := by
  induction bps generalizing p with
  | nil => simp
  | cons b bps ih =>
    obtain ⟨rfl, hw⟩ := hw
    rw [List.isChain_cons, List.forall_mem_cons, ih hw]
    refine and_congr_left' ?_
    cases bps with
    | nil =>
      have hn : h.nextBlockInHeap b = q := hw
      simp [hn, hq, TAKEN, FREE]
    | cons b' bps =>
      obtain ⟨rfl, -⟩ := hw
      simp

theorem inOrder_iff (ht : Tiling h bps) : InOrder h bps ↔ ∀ bp ∈ bps, BlockOk h bp := by
  have hchain := chain_iff ht.walk ht.epilog_taken
  constructor
  · intro ho bp hbp
    exact ⟨hchain.1 ho.coalesced bp hbp, ho.tags bp hbp, ho.listed bp hbp⟩
  · intro ho
    exact ⟨hchain.2 fun bp hbp => (ho bp hbp).coalesced, fun bp hbp => (ho bp hbp).tags,
      fun bp hbp => (ho bp hbp).listed⟩

/-- **The checker and the heap.** That `mm_check` passes says that the heap is in order exactly when it
does not happen that the free lists and the free blocks at the front are in order and a block behind the
first taken (or empty) one is not. -/
theorem checker_sees_iff (ht : Tiling h bps) : (h.Passes → InOrder h bps) ↔
    (MarkedFree h → (∀ bp ∈ bps.takeWhile h.goesOn, BlockOk h bp) →
      ∀ bp ∈ bps.dropWhile h.goesOn, BlockOk h bp) := by
  rw [inOrder_iff ht]
  by_cases h0 : bps = []
  · subst h0
    simp
  rw [passes_iff ht h0]
  have hsplit : ∀ bp, bp ∈ bps ↔ bp ∈ bps.takeWhile h.goesOn ∨ bp ∈ bps.dropWhile h.goesOn := fun bp => by
    rw [← List.mem_append, List.takeWhile_append_dropWhile]
  constructor
  · intro hp hm hf bp hbp
    exact hp ⟨hm, hf⟩ bp ((hsplit bp).2 (.inr hbp))
  · rintro hp ⟨hm, hf⟩ bp hbp
    exact ((hsplit bp).1 hbp).elim (hf bp) (hp hm hf bp)

def Heap.putTags (h : Heap) (bp size status : Nat) : Heap :=
  (h.putWord bp (pack size status)).putWord (bp + WORD_SIZE * (size + HDR_SIZE)) (pack size status)

/-- A taken block and two free ones of two words each, on no list. -/
def twoFree : Heap :=
  let h : Heap := ⟨fun _ => 0, 8, 64, 8 + MAX_HEAP, 1024, 8, 0⟩
  (((h.putTags 8 2 TAKEN).putTags 24 2 FREE).putTags 40 2 FREE).putTags 56 0 TAKEN

theorem twoFree_tiling : Tiling twoFree [8, 24, 40] where
  walk := ⟨rfl, by decide +kernel, by decide +kernel,
    show twoFree.nextBlockInHeap 40 = twoFree.memBrk - WORD_SIZE * EPILOG_SIZE by decide +kernel⟩
  epilog := by decide +kernel
  brk := by decide

theorem checker_sees_iff_twoFree : (twoFree.Passes → InOrder twoFree [8, 24, 40]) ↔
    (MarkedFree twoFree → (∀ bp ∈ [8, 24, 40].takeWhile twoFree.goesOn, BlockOk twoFree bp) →
      ∀ bp ∈ [8, 24, 40].dropWhile twoFree.goesOn, BlockOk twoFree bp) := checker_sees_iff twoFree_tiling

/-- `mm_check` passes with two free neighbours behind a taken block. -/
theorem checker_is_blind : ¬ ∀ (h : Heap) (bps : List Nat), Tiling h bps → h.Passes → InOrder h bps := by
  intro hall
  have hempty : ∀ i ≤ MAX_POWER, twoFree.getFreeListPtr i = NULL := by decide +kernel
  have hfront : [8, 24, 40].takeWhile twoFree.goesOn = [] := by decide +kernel
  have hpass : twoFree.Passes := by
    refine (passes_iff twoFree_tiling (by simp)).2 ⟨fun i hi => ?_, by simp [hfront]⟩
    rw [hempty i hi]
    exact .null
  have hchain := (hall _ _ twoFree_tiling hpass).coalesced
  rw [List.isChain_cons_cons, List.isChain_cons_cons] at hchain
  exact hchain.2.1 ⟨by decide +kernel, by decide +kernel⟩

end CsappLab.Malloc
