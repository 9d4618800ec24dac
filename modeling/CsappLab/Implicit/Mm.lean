import CsappLab.Lib.ByteMem
import CsappLab.Lib.CInt

/-!
# The allocator with an implicit free list

The memory system and the functions of the second `mm.c`, for a 64-bit machine. `nextFit` says whether the
file is compiled with `NEXT_FIT` defined. Block sizes are in bytes and count the two tags. The searches walk
over the blocks in memory, so they take fuel; running out of it is the fault `endlessSearch`.
-/

namespace CsappLab.Implicit
open ByteMem CInt

def MAX_HEAP : Nat := 20 * (1 <<< 20)
def WSIZE : Nat := 4
def DSIZE : Nat := 8
def CHUNKSIZE : Nat := 1 <<< 12
def NULL : Nat := 0

def u64 (n : Nat) : Nat := n % 2 ^ 64

/-- The globals of `memlib.c` and `mm.c` and the bytes they point to. -/
structure Heap where
  mem : Mem
  memHeap : Nat
  memBrk : Nat
  memMaxAddr : Nat
  heapListp : Nat
  rover : Nat

/-- Branch on the result of `mem_sbrk`. -/
def ifPtr {β : Type} (r : Heap × Option Nat) (onError : Heap → β) (onPtr : Heap → Nat → β) : β :=
  match r with
  | (h, none) => onError h
  | (h, some p) => onPtr h p

@[simp] theorem ifPtr_none {β : Type} (h : Heap) (f : Heap → β) (g : Heap → Nat → β) :
    ifPtr (h, none) f g = f h := rfl

@[simp] theorem ifPtr_some {β : Type} (h : Heap) (p : Nat) (f : Heap → β) (g : Heap → Nat → β) :
    ifPtr (h, some p) f g = g h p := rfl

inductive Fault
  | endlessSearch
deriving DecidableEq, Repr

def pack (size alloc : Nat) : Nat := size ||| alloc

def hdrp (bp : Nat) : Nat := bp - WSIZE

namespace Heap

def memResetBrk (h : Heap) : Heap := { h with memBrk := h.memHeap }

/-- `mem_sbrk`; `none` is `(void *)-1`. -/
def memSbrk (h : Heap) (incr : Int) : Heap × Option Nat :=
  let oldBrk := h.memBrk
  if incr < 0 ∨ h.memBrk + incr > h.memMaxAddr then (h, none)
  else ({ h with memBrk := (h.memBrk + incr).toNat }, some oldBrk)

def memHeapLo (h : Heap) : Nat := h.memHeap
def memHeapHi (h : Heap) : Nat := h.memBrk - 1
def get (h : Heap) (p : Nat) : Nat := load32 h.mem p

/-- `PUT`; the value becomes an `unsigned int`. -/
def put (h : Heap) (p val : Nat) : Heap := { h with mem := store32 h.mem p val }

def getSize (h : Heap) (p : Nat) : Nat := h.get p &&& (2 ^ 32 - 8)
def getAlloc (h : Heap) (p : Nat) : Nat := h.get p &&& 1
def ftrp (h : Heap) (bp : Nat) : Nat := bp + h.getSize (hdrp bp) - DSIZE
def nextBlkp (h : Heap) (bp : Nat) : Nat := bp + h.getSize (bp - WSIZE)
def prevBlkp (h : Heap) (bp : Nat) : Nat := bp - h.getSize (bp - DSIZE)

/-- The end of `coalesce`: the rover does not point into the block `bp`. -/
def settleRover (nextFit : Bool) (h : Heap) (bp : Nat) : Heap :=
  if nextFit ∧ h.rover > bp ∧ h.rover < h.nextBlkp bp then { h with rover := bp } else h

def coalesce (nextFit : Bool) (h : Heap) (bp : Nat) : Heap × Nat :=
  let prevAlloc := h.getAlloc (h.ftrp (h.prevBlkp bp))
  let nextAlloc := h.getAlloc (hdrp (h.nextBlkp bp))
  let size := h.getSize (hdrp bp)
  if prevAlloc ≠ 0 ∧ nextAlloc ≠ 0 then (h, bp)
  else if prevAlloc ≠ 0 ∧ nextAlloc = 0 then
    let size := size + h.getSize (hdrp (h.nextBlkp bp))
    let h := h.put (hdrp bp) (pack size 0)
    let h := h.put (h.ftrp bp) (pack size 0)
    (h.settleRover nextFit bp, bp)
  else if prevAlloc = 0 ∧ nextAlloc ≠ 0 then
    let size := size + h.getSize (hdrp (h.prevBlkp bp))
    let h := h.put (h.ftrp bp) (pack size 0)
    let h := h.put (hdrp (h.prevBlkp bp)) (pack size 0)
    let bp := h.prevBlkp bp
    (h.settleRover nextFit bp, bp)
  else
    let size := size + u32 (h.getSize (hdrp (h.prevBlkp bp)) + h.getSize (h.ftrp (h.nextBlkp bp)))
    let h := h.put (hdrp (h.prevBlkp bp)) (pack size 0)
    let h := h.put (h.ftrp (h.nextBlkp bp)) (pack size 0)
    let bp := h.prevBlkp bp
    (h.settleRover nextFit bp, bp)

/-- `extend_heap`; the size is cut to the `int` of `mem_sbrk`. -/
def extendHeap (nextFit : Bool) (h : Heap) (words : Nat) : Heap × Nat :=
  let size := u64 (if words % 2 ≠ 0 then (words + 1) * WSIZE else words * WSIZE)
  ifPtr (h.memSbrk (i32 size)) (fun h => (h, NULL)) fun h bp =>
    let h := h.put (hdrp bp) (pack size 0)
    let h := h.put (h.ftrp bp) (pack size 0)
    let h := h.put (hdrp (h.nextBlkp bp)) (pack 0 1)
    h.coalesce nextFit bp

/-- The middle of `mm_init`: the prologue and the epilogue of the empty list. -/
def putPrologue (nextFit : Bool) (h : Heap) (p : Nat) : Heap :=
  let h := h.put p 0
  let h := h.put (p + 1 * WSIZE) (pack DSIZE 1)
  let h := h.put (p + 2 * WSIZE) (pack DSIZE 1)
  let h := h.put (p + 3 * WSIZE) (pack 0 1)
  let h := { h with heapListp := p + 2 * WSIZE }
  if nextFit then { h with rover := h.heapListp } else h

/-- `mm_init`, with its return value. -/
def mmInit (nextFit : Bool) (h : Heap) : Heap × Int :=
  ifPtr (h.memSbrk (4 * WSIZE : Nat)) (fun h => ({ h with heapListp := 2 ^ 64 - 1 }, -1)) fun h p =>
    let (h, bp) := (h.putPrologue nextFit p).extendHeap nextFit (CHUNKSIZE / WSIZE)
    if bp = NULL then (h, -1) else (h, 0)

/-- `place`; the difference of the sizes is a `size_t`. -/
def place (h : Heap) (bp asize : Nat) : Heap :=
  let csize := h.getSize (hdrp bp)
  if u64 (csize + 2 ^ 64 - asize) ≥ 2 * DSIZE then
    let h := h.put (hdrp bp) (pack asize 1)
    let h := h.put (h.ftrp bp) (pack asize 1)
    let bp := h.nextBlkp bp
    let h := h.put (hdrp bp) (pack (u64 (csize + 2 ^ 64 - asize)) 0)
    h.put (h.ftrp bp) (pack (u64 (csize + 2 ^ 64 - asize)) 0)
  else
    let h := h.put (hdrp bp) (pack csize 1)
    h.put (h.ftrp bp) (pack csize 1)

/-- A loop over the blocks from `bp` on while `cond` holds: the block where it stops, and whether it fits. -/
def search (h : Heap) (asize : Nat) (cond : Nat → Bool) : Nat → Nat → Except Fault (Nat × Bool)
  | 0, _ => .error .endlessSearch
  | fuel + 1, bp =>
    if ¬ cond bp then .ok (bp, false)
    else if h.getAlloc (hdrp bp) = 0 ∧ asize ≤ h.getSize (hdrp bp) then .ok (bp, true)
    else search h asize cond fuel (h.nextBlkp bp)

def notEpilogue (h : Heap) (bp : Nat) : Bool := h.getSize (hdrp bp) > 0

/-- `find_fit`; only the next-fit search changes the state. -/
def findFit (nextFit : Bool) (h : Heap) (asize : Nat) : Except Fault (Heap × Nat) :=
  if nextFit then do
    let oldrover := h.rover
    let (rover, found) ← h.search asize h.notEpilogue MAX_HEAP h.rover
    if found then .ok ({ h with rover := rover }, rover)
    else do
      let (rover, found) ← h.search asize (fun rover => rover < oldrover) MAX_HEAP h.heapListp
      .ok ({ h with rover := rover }, if found then rover else NULL)
  else do
    let (bp, found) ← h.search asize h.notEpilogue MAX_HEAP h.heapListp
    .ok (h, if found then bp else NULL)

/-- The block size for a request: overhead, alignment, and the minimum block. -/
def adjust (size : Nat) : Nat :=
  if size ≤ DSIZE then 2 * DSIZE else u64 (DSIZE * (u64 (size + DSIZE + (DSIZE - 1)) / DSIZE))

/-- `mm_malloc`: the new state and the returned pointer. -/
def mmMalloc (nextFit : Bool) (h : Heap) (size : Nat) : Except Fault (Heap × Nat) := do
  let h := if h.heapListp = 0 then (h.mmInit nextFit).1 else h
  if size = 0 then .ok (h, NULL)
  else do
    let asize := adjust size
    let (h, bp) ← h.findFit nextFit asize
    if bp ≠ NULL then .ok (h.place bp asize, bp)
    else
      let extendsize := max asize CHUNKSIZE
      let (h, bp) := h.extendHeap nextFit (extendsize / WSIZE)
      if bp = NULL then .ok (h, NULL) else .ok (h.place bp asize, bp)

def mmFree (nextFit : Bool) (h : Heap) (bp : Nat) : Heap :=
  if bp = 0 then h
  else
    let size := h.getSize (hdrp bp)
    let h := if h.heapListp = 0 then (h.mmInit nextFit).1 else h
    let h := h.put (hdrp bp) (pack size 0)
    let h := h.put (h.ftrp bp) (pack size 0)
    (h.coalesce nextFit bp).1

/-- `mm_realloc`: always a new block; the copy takes the tags of the old block along. -/
def mmRealloc (nextFit : Bool) (h : Heap) (ptr size : Nat) : Except Fault (Heap × Nat) :=
  if size = 0 then .ok (h.mmFree nextFit ptr, NULL)
  else if ptr = NULL then h.mmMalloc nextFit size
  else do
    let (h, newptr) ← h.mmMalloc nextFit size
    if newptr = NULL then .ok (h, NULL)
    else
      let oldsize := h.getSize (hdrp ptr)
      let oldsize := if size < oldsize then size else oldsize
      let h := { h with mem := memmove h.mem newptr ptr oldsize }
      .ok (h.mmFree nextFit ptr, newptr)

end Heap
end CsappLab.Implicit
