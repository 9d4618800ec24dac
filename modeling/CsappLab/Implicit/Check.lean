import CsappLab.Implicit.Run

/-!
# The heap checker of the implicit-list allocator

`mm_checkheap` and what it prints. It is silent exactly on the heaps that are `Intact`: it follows the sizes in
the headers to the epilogue and compares the tags, but it does not look for free blocks side by side and does
not know where the heap ends. After every run of a client it is silent, and the verbose dump lists the blocks
in order, with an `a` for the blocks of the client.
-/

namespace CsappLab.Implicit
open ByteMem CInt Alloc Tiling Fuel

/-- What `checkheap`, `checkblock` and `printblock` print. -/
inductive Line
  | heap (listp : Nat)
  | badPrologue
  | notAligned (bp : Nat)
  | mismatch
  | endOfList (bp : Nat)
  | block (bp hsize halloc fsize falloc : Nat)
  | badEpilogue
deriving DecidableEq, Repr

namespace Heap

def checkblock (h : Heap) (bp : Nat) : List Line :=
  (if bp % 8 ≠ 0 then [.notAligned bp] else []) ++
    if h.get (hdrp bp) ≠ h.get (h.ftrp bp) then [.mismatch] else []

/-- The loop of `checkheap` from `bp` on: where it stops, and what it prints. -/
def checkLoop (h : Heap) (print : Nat → Except Fault (List Line)) : Nat → Nat → Except Fault (Nat × List Line)
  | 0, _ => .error .endlessSearch
  | fuel + 1, bp =>
    if h.getSize (hdrp bp) > 0 then do
      let line ← print bp
      let (last, out) ← checkLoop h print fuel (h.nextBlkp bp)
      .ok (last, line ++ h.checkblock bp ++ out)
    else .ok (bp, [])

/-- `checkheap`, as far as `verbose` does not matter. -/
def checkheapWith (h : Heap) (print : Nat → Except Fault (List Line)) (fuel : Nat) : Except Fault (List Line) := do
  let prologue := if h.getSize (hdrp h.heapListp) ≠ DSIZE ∨ h.getAlloc (hdrp h.heapListp) = 0 then [.badPrologue] else []
  let first := h.checkblock h.heapListp
  let (bp, out) ← h.checkLoop print fuel h.heapListp
  let line ← print bp
  let epilogue := if h.getSize (hdrp bp) ≠ 0 ∨ h.getAlloc (hdrp bp) = 0 then [.badEpilogue] else []
  .ok (prologue ++ first ++ out ++ line ++ epilogue)

/-- `printblock`, which begins with `checkheap(0)`. -/
def printblock (h : Heap) (fuel bp : Nat) : Except Fault (List Line) := do
  let out ← h.checkheapWith (fun _ => .ok []) fuel
  let hsize := h.getSize (hdrp bp)
  let halloc := h.getAlloc (hdrp bp)
  let fsize := h.getSize (h.ftrp bp)
  let falloc := h.getAlloc (h.ftrp bp)
  if hsize = 0 then .ok (out ++ [.endOfList bp]) else .ok (out ++ [.block bp hsize halloc fsize falloc])

/-- `mm_checkheap` and `checkheap`. -/
def checkheap (h : Heap) (verbose : Bool) (fuel : Nat) : Except Fault (List Line) :=
  if verbose then do
    let out ← h.checkheapWith (h.printblock fuel) fuel
    .ok (.heap h.heapListp :: out)
  else h.checkheapWith (fun _ => .ok []) fuel

end Heap

/-- What `mm_checkheap` looks at: the blocks `bps` up to the header before `q`. -/
structure Intact (h : Heap) (bps : List Nat) (q : Nat) : Prop where
  walk : Walk h h.heapListp bps q
  nonempty : ∀ bp ∈ bps, 0 < h.getSize (hdrp bp)
  aligned : 8 ∣ h.heapListp
  prologue : h.getSize (hdrp h.heapListp) = DSIZE ∧ h.getAlloc (hdrp h.heapListp) ≠ 0
  footers : ∀ bp ∈ bps, h.get (hdrp bp) = h.get (h.ftrp bp)
  epilogue : h.getSize (hdrp q) = 0 ∧ h.getAlloc (hdrp q) ≠ 0

variable {nf : Bool} {s p q fuel : Nat} {h : Heap} {c : Client Heap} {bps : List Nat} {out : List Line}
  {print : Nat → Except Fault (List Line)} {f : Nat → List Line}

theorem eight_dvd_getSize : 8 ∣ h.getSize p := by
  have hlt := load32_lt h.mem p
  unfold Heap.getSize Heap.get
  rw [show (2 ^ 32 - 8 : Nat) = 2 ^ (29 + 3) - 2 ^ 3 by rfl, and_clear_low _ 29 3 hlt]
  omega

theorem Walk.aligned (hw : Walk h p bps q) (hp : 8 ∣ p) : ∀ bp ∈ bps, 8 ∣ bp := by
  induction bps generalizing p with
  | nil => simp
  | cons bp bps ih =>
    obtain ⟨rfl, hw⟩ := hw
    rw [List.forall_mem_cons]
    exact ⟨hp, ih hw (dvd_add hp eight_dvd_getSize)⟩

theorem checkblock_eq_nil {bp : Nat} : h.checkblock bp = [] ↔ 8 ∣ bp ∧ h.get (hdrp bp) = h.get (h.ftrp bp) := by
  unfold Heap.checkblock
  rw [List.append_eq_nil_iff]
  split_ifs <;> simp_all <;> omega

theorem checkLoop_walk (hw : Walk h p bps q) (hpos : ∀ bp ∈ bps, 0 < h.getSize (hdrp bp)) (hq : h.getSize (hdrp q) = 0)
    (hprint : ∀ bp ∈ bps, print bp = .ok (f bp)) (hfuel : bps.length < fuel) :
    h.checkLoop print fuel p = .ok (q, bps.flatMap fun bp => f bp ++ h.checkblock bp) := by
  induction bps generalizing p fuel with
  | nil =>
    obtain rfl : p = q := hw
    obtain ⟨fuel, rfl⟩ := Nat.exists_eq_succ_of_ne_zero (Nat.ne_of_gt hfuel)
    rw [Nat.succ_eq_add_one, Heap.checkLoop, if_neg (by omega)]
    rfl
  | cons bp bps ih =>
    obtain ⟨rfl, hw⟩ := hw
    obtain ⟨fuel, rfl⟩ := Nat.exists_eq_succ_of_ne_zero (Nat.ne_of_gt (Nat.zero_lt_of_lt hfuel))
    rw [List.forall_mem_cons] at hpos hprint
    rw [Nat.succ_eq_add_one, Heap.checkLoop, if_pos hpos.1, hprint.1,
      ih hw hpos.2 hprint.2 (by simpa using hfuel)]
    rfl

theorem checkLoop_quiet (hok : h.checkLoop (fun _ => .ok []) fuel p = .ok (q, out)) : ∃ bps, Walk h p bps q ∧
    (∀ bp ∈ bps, 0 < h.getSize (hdrp bp)) ∧ h.getSize (hdrp q) = 0 ∧ out = bps.flatMap h.checkblock := by
  induction fuel generalizing p out with
  | zero => cases hok
  | succ fuel ih =>
    rw [Heap.checkLoop] at hok
    split_ifs at hok with hpos
    · obtain ⟨line, hline, hok⟩ := bind_eq_ok.1 hok
      cases hline
      obtain ⟨⟨last, rest⟩, hrest, hok⟩ := bind_eq_ok.1 hok
      cases hok
      obtain ⟨bps, hw, hsize, hq, rfl⟩ := ih hrest
      exact ⟨p :: bps, ⟨rfl, hw⟩, List.forall_mem_cons.2 ⟨hpos, hsize⟩, hq, rfl⟩
    · cases hok
      exact ⟨[], rfl, by simp, by omega, rfl⟩

theorem Intact.checkheapWith {line : List Line} (hi : Intact h bps q) (hprint : ∀ bp ∈ bps, print bp = .ok (f bp))
    (hlast : print q = .ok line) (hfuel : bps.length < fuel) :
    h.checkheapWith print fuel = .ok (bps.flatMap f ++ line) := by
  have hquiet : ∀ bp ∈ bps, h.checkblock bp = [] := fun bp hbp =>
    checkblock_eq_nil.2 ⟨hi.walk.aligned hi.aligned bp hbp, hi.footers bp hbp⟩
  have hfirst : h.checkblock h.heapListp = [] := by
    cases bps with
    | nil =>
      have h1 := hi.epilogue.1
      rw [← (show h.heapListp = q from hi.walk), hi.prologue.1] at h1
      cases h1
    | cons bp bps => exact hi.walk.1 ▸ hquiet bp (by simp)
  have hmap : (bps.flatMap fun bp => f bp ++ h.checkblock bp) = bps.flatMap f :=
    List.flatMap_congr fun bp hbp => by rw [hquiet bp hbp, List.append_nil]
  unfold Heap.checkheapWith
  rw [checkLoop_walk hi.walk hi.nonempty hi.epilogue.1 hprint hfuel, hfirst, hmap,
    if_neg (by simp [hi.prologue.1, hi.prologue.2])]
  show (print q >>= fun line => _) = _
  rw [hlast]
  show Except.ok _ = _
  rw [if_neg (by simp [hi.epilogue.1, hi.epilogue.2])]
  simp

theorem Intact.quiet (hi : Intact h bps q) (hfuel : bps.length < fuel) :
    h.checkheapWith (fun _ => .ok []) fuel = .ok [] := by
  have hok := hi.checkheapWith (f := fun _ => []) (fun _ _ => rfl) (rfl : (fun _ => Except.ok []) q = Except.ok []) hfuel
  rw [List.append_nil, List.flatMap_eq_nil_iff.2 fun _ _ => rfl] at hok
  exact hok

theorem Intact.silent (hi : Intact h bps q) : Halts (h.checkheap false) [] :=
  ⟨bps.length + 1, hi.quiet (Nat.lt_succ_self _)⟩

/-- **What `mm_checkheap` finds**, in any heap: it ends without a complaint exactly when the heap is intact. -/
theorem checkheap_silent_iff (h : Heap) :
    Halts (h.checkheap false) [] ↔ ∃ bps q, Intact h bps q := by
  constructor
  · rintro ⟨fuel, hok⟩
    unfold Heap.checkheap Heap.checkheapWith at hok
    rw [if_neg (by simp)] at hok
    obtain ⟨⟨q, out⟩, hloop, hok⟩ := bind_eq_ok.1 hok
    obtain ⟨bps, hw, hpos, hq, rfl⟩ := checkLoop_quiet hloop
    obtain ⟨line, hline, hok⟩ := bind_eq_ok.1 hok
    cases hline
    have hnil := Except.ok.inj hok
    simp only [List.append_eq_nil_iff, List.flatMap_eq_nil_iff, ite_eq_right_iff] at hnil
    obtain ⟨⟨⟨⟨hpro, hfirst⟩, hout⟩, -⟩, hepi⟩ := hnil
    have hquiet : ∀ bp ∈ bps, 8 ∣ bp ∧ h.get (hdrp bp) = h.get (h.ftrp bp) := fun bp hbp =>
      checkblock_eq_nil.1 (hout bp hbp)
    refine ⟨bps, q, hw, hpos, (checkblock_eq_nil.1 hfirst).1, ?_, fun bp hbp => (hquiet bp hbp).2, hq, ?_⟩
    · by_contra hno
      exact absurd (hpro (by tauto)) (List.cons_ne_nil _ _)
    · exact fun hno => absurd (hepi (.inr hno)) (List.cons_ne_nil _ _)
  · rintro ⟨bps, q, hi⟩
    exact hi.silent

theorem Intact.printblock (hi : Intact h bps q) (hfuel : bps.length < fuel) :
    (∀ bp ∈ bps, h.printblock fuel bp =
      .ok [.block bp (h.getSize (hdrp bp)) (h.getAlloc (hdrp bp)) (h.getSize (hdrp bp)) (h.getAlloc (hdrp bp))]) ∧
    h.printblock fuel q = .ok [.endOfList q] := by
  have hok := hi.quiet hfuel
  refine ⟨fun bp hbp => ?_, ?_⟩
  · have hpos := hi.nonempty bp hbp
    have hsize : h.getSize (h.ftrp bp) = h.getSize (hdrp bp) := by
      unfold Heap.getSize
      rw [hi.footers bp hbp]
    have halloc : h.getAlloc (h.ftrp bp) = h.getAlloc (hdrp bp) := by
      unfold Heap.getAlloc
      rw [hi.footers bp hbp]
    unfold Heap.printblock
    rw [hok, hsize, halloc]
    exact if_neg (by omega)
  · unfold Heap.printblock
    rw [hok]
    exact if_pos hi.epilogue.1

theorem Intact.checkheap (hi : Intact h bps q) : Halts (h.checkheap true) (.heap h.heapListp ::
    bps.map (fun bp => .block bp (h.getSize (hdrp bp)) (h.getAlloc (hdrp bp)) (h.getSize (hdrp bp))
      (h.getAlloc (hdrp bp))) ++ [.endOfList q]) := by
  refine ⟨bps.length + 1, ?_⟩
  obtain ⟨hprint, hlast⟩ := hi.printblock (Nat.lt_succ_self _)
  unfold Heap.checkheap
  rw [if_pos rfl, hi.checkheapWith hprint hlast (Nat.lt_succ_self _), ← List.map_eq_flatMap]
  rfl

theorem HeapInvariant.intact (hi : HeapInvariant nf h bps) (h8 : 8 ∣ h.heapListp) : Intact h bps h.memBrk where
  walk := hi.tiles
  nonempty := by
    cases bps with
    | nil => simp
    | cons bp bps =>
      have hbp : bp = h.heapListp := hi.tiles.1
      rw [List.forall_mem_cons, hbp, hi.prologue.1]
      exact ⟨by decide, fun bp hbp => lt_of_lt_of_le (by decide) (hi.sizes bp hbp).1⟩
  aligned := h8
  prologue := ⟨hi.prologue.1, by rw [hi.prologue.2]; decide⟩
  footers bp hbp := (hi.footers bp hbp).symm
  epilogue := ⟨hi.epilogue.1, by rw [hi.epilogue.2]; decide⟩

/-- **The checker in every run**: `mm_checkheap(0)` is silent, and `mm_checkheap(1)` lists the blocks of the heap up to the
break, of which behind the prologue those of the client are marked as allocated. -/
theorem runs_checkheap (hs : 8 ∣ s) (hr : Runs nf s c) : Halts (c.heap.checkheap false) [] ∧
    ∃ bps, Walk c.heap c.heap.heapListp bps c.heap.memBrk ∧
      Halts (c.heap.checkheap true) (.heap c.heap.heapListp ::
        bps.map (fun bp => .block bp (c.heap.getSize (hdrp bp)) (c.heap.getAlloc (hdrp bp)) (c.heap.getSize (hdrp bp))
          (c.heap.getAlloc (hdrp bp))) ++ [.endOfList c.heap.memBrk]) ∧
      ∀ bp ∈ bps.tail, c.heap.getAlloc (hdrp bp) = 1 ↔ bp ∈ c.live.map Block.ptr := by
  obtain ⟨ts, hL, hown⟩ := owns_of_runs hs hr
  have h8 : 8 ∣ c.heap.heapListp := by
    rw [hL.list]
    unfold blk
    omega
  have hi := hL.heapInvariant.intact h8
  exact ⟨hi.silent, _, hi.walk, hi.checkheap, fun bp hbp => hown.getAlloc_iff hL hbp⟩

theorem runs_checkheap_some : ∃ c bps, Runs false 8 c ∧ c.live = [⟨344, 300⟩] ∧
    Halts (c.heap.checkheap false) [] ∧ Walk c.heap c.heap.heapListp bps c.heap.memBrk ∧
    ∀ bp ∈ bps.tail, c.heap.getAlloc (hdrp bp) = 1 ↔ bp = 344 := by
  obtain ⟨c₀, c, h0, hsteps, hlive⟩ := exists_someRequests false
  have hr : Runs false 8 c := hsteps.reachable (.init h0)
  obtain ⟨hsilent, bps, hw, -, hown⟩ := runs_checkheap (by decide) hr
  exact ⟨c, bps, hr, hlive, hsilent, hw, fun bp hbp => (hown bp hbp).trans (by simp [hlive])⟩

end CsappLab.Implicit
