import CsappLab.Malloc.Memlib

/-!
# The allocator of `mm.c`

The functions of `mm.c`, in the order of the file. A loop over a free list takes fuel, since a list
in memory may be circular; running out of it is the fault `endlessLoop`. The other faults are the
division by zero in `mm_realloc` and the `memcpy` to `NULL` after a failed fallback allocation.
-/

namespace CsappLab.Malloc
open ByteMem CInt

def MAX_POWER : Nat := 50
def TAKEN : Nat := 1
def FREE : Nat := 0
def WORD_SIZE : Nat := 4
/-- Extend the heap by this amount (words). -/
def CHUNK : Nat := (1 <<< 12) / WORD_SIZE
def HDR_FTR_SIZE : Nat := 2
def HDR_SIZE : Nat := 1
def FTR_SIZE : Nat := 1
def PRED_FIELD_SIZE : Nat := 1
def EPILOG_SIZE : Nat := 2
def NULL : Nat := 0

/-- Branch on a pointer result: `none` is the error value the C code compares with. -/
def ifPtr {β : Type} (r : Heap × Option Nat) (onError : Heap → β) (onPtr : Heap → Nat → β) : β :=
  match r with
  | (h, none) => onError h
  | (h, some p) => onPtr h p

@[simp] theorem ifPtr_none {β : Type} (h : Heap) (f : Heap → β) (g : Heap → Nat → β) :
    ifPtr (h, none) f g = f h := rfl

@[simp] theorem ifPtr_some {β : Type} (h : Heap) (p : Nat) (f : Heap → β) (g : Heap → Nat → β) :
    ifPtr (h, some p) f g = g h p := rfl

inductive Fault
  | endlessLoop
  | divideByZero
  | copyToNull
deriving DecidableEq, Repr

def pack (size status : Nat) : Nat := u32 (size <<< 3) ||| status

def evenize (x : Nat) : Nat := u32 (x + 1) &&& (2 ^ 32 - 2)

def align (size : Nat) : Nat := u32 (size + 7) &&& (2 ^ 32 - 8)

namespace Heap

def getWord (h : Heap) (p : Nat) : Nat := load32 h.mem p

/-- `PUT_WORD`, `SET_PTR`: write the word at address `p`. -/
def putWord (h : Heap) (p v : Nat) : Heap := { h with mem := store32 h.mem p v }

def getSize (h : Heap) (p : Nat) : Nat := (h.getWord p &&& (2 ^ 32 - 8)) >>> 3

def getStatus (h : Heap) (p : Nat) : Nat := h.getWord p &&& 1

def ftrp (h : Heap) (p : Nat) : Nat := p + WORD_SIZE * (h.getSize p + HDR_SIZE)

def getTotalSize (h : Heap) (p : Nat) : Nat := u32 (h.getSize p + HDR_FTR_SIZE)

def getFreeListPtr (h : Heap) (i : Nat) : Nat := h.getWord (h.freeLists + WORD_SIZE * i)

def setFreeListPtr (h : Heap) (i ptr : Nat) : Heap := h.putWord (h.freeLists + WORD_SIZE * i) ptr

end Heap

def ptrPredField (bp : Nat) : Nat := bp + WORD_SIZE * HDR_SIZE

def ptrSuccField (bp : Nat) : Nat := bp + WORD_SIZE * (HDR_SIZE + PRED_FIELD_SIZE)

namespace Heap

def getPred (h : Heap) (bp : Nat) : Nat := h.getWord (ptrPredField bp)

def getSucc (h : Heap) (bp : Nat) : Nat := h.getWord (ptrSuccField bp)

def prevBlockInHeap (h : Heap) (p : Nat) : Nat :=
  p - WORD_SIZE * h.getTotalSize (p - WORD_SIZE * FTR_SIZE)

def nextBlockInHeap (h : Heap) (p : Nat) : Nat := h.ftrp p + WORD_SIZE * FTR_SIZE

end Heap

/-- `round_up_power_2`. A positive argument stays below `2 ^ 31`, where the arithmetic shifts of the
source are logical ones; for `0` every step keeps `-1`. -/
def roundUpPower2 (x : Int) : Int :=
  if x < 0 then 0
  else if x = 0 then 0
  else i32 (smear (x - 1).toNat + 1)

/-- The loop of `find_free_list_index`, with the iterations left until `index > MAX_POWER`. -/
def findFreeListIndexLoop : Nat → Nat → Nat → Nat
  | 0, _, index => index
  | n + 1, words, index =>
    if words > 1 then findFreeListIndexLoop n (words >>> 1) (index + 1) else index

def findFreeListIndex (words : Nat) : Nat := findFreeListIndexLoop (MAX_POWER + 1) words 0

namespace Heap

def removeBlockFromFreeList (h : Heap) (bp : Nat) : Heap :=
  let prevBlock := h.getPred bp
  let nextBlock := h.getSucc bp
  if h.getSize bp = 0 then h
  else
    -- the largest block of its list is unlinked from the list head
    let h := if prevBlock = NULL then h.setFreeListPtr (findFreeListIndex (h.getSize bp)) nextBlock
      else h.putWord (ptrSuccField prevBlock) nextBlock
    let h := if nextBlock ≠ NULL then h.putWord (ptrPredField nextBlock) prevBlock else h
    let h := h.putWord (ptrPredField bp) NULL
    h.putWord (ptrSuccField bp) NULL

/-- The loop of `place_block_into_free_list`: the first block not larger than `size` and the block
before it. -/
def placeLoop (h : Heap) (size : Nat) : Nat → Nat → Nat → Except Fault (Nat × Nat)
  | 0, _, _ => .error .endlessLoop
  | fuel + 1, frontPtr, backPtr =>
    if frontPtr ≠ NULL ∧ h.getSize frontPtr > size then
      placeLoop h size fuel (h.getSucc frontPtr) frontPtr
    else .ok (frontPtr, backPtr)

def placeBlockIntoFreeList (h : Heap) (bp : Nat) : Except Fault Heap :=
  let size := h.getSize bp
  let index := findFreeListIndex size
  let frontPtr := h.getFreeListPtr index
  if size = 0 then .ok h
  else if frontPtr = NULL then
    let h := h.putWord (ptrSuccField bp) NULL
    let h := h.putWord (ptrPredField bp) NULL
    .ok (h.setFreeListPtr index bp)
  else if size ≥ h.getSize frontPtr then
    let h := h.setFreeListPtr index bp
    let h := h.putWord (ptrSuccField bp) frontPtr
    let h := h.putWord (ptrPredField frontPtr) bp
    .ok (h.putWord (ptrPredField bp) NULL)
  else do
    let (frontPtr, backPtr) ← h.placeLoop size MAX_HEAP frontPtr NULL
    if frontPtr = NULL then
      let h := h.putWord (ptrSuccField backPtr) bp
      let h := h.putWord (ptrPredField bp) backPtr
      .ok (h.putWord (ptrSuccField bp) NULL)
    else
      let h := h.putWord (ptrSuccField backPtr) bp
      let h := h.putWord (ptrPredField bp) backPtr
      let h := h.putWord (ptrSuccField bp) frontPtr
      .ok (h.putWord (ptrPredField frontPtr) bp)

/-- `coalesce`: the new state and the header of the combined block. -/
def coalesce (h : Heap) (bp : Nat) : Heap × Nat :=
  let prevBlock := h.prevBlockInHeap bp
  let nextBlock := h.nextBlockInHeap bp
  let prevStatus := h.getStatus prevBlock
  let nextStatus := h.getStatus nextBlock
  let newSize := h.getSize bp
  if prevStatus = TAKEN ∧ nextStatus = TAKEN then (h, bp)
  else if prevStatus = TAKEN ∧ nextStatus = FREE then
    let h := h.removeBlockFromFreeList nextBlock
    let newSize := u32 (newSize + h.getTotalSize nextBlock)
    let h := h.putWord bp (pack newSize FREE)
    let h := h.putWord (h.ftrp nextBlock) (pack newSize FREE)
    (h, bp)
  else if prevStatus = FREE ∧ nextStatus = TAKEN then
    let h := h.removeBlockFromFreeList prevBlock
    let newSize := u32 (newSize + h.getTotalSize prevBlock)
    let h := h.putWord prevBlock (pack newSize FREE)
    let h := h.putWord (h.ftrp bp) (pack newSize FREE)
    (h, prevBlock)
  else if prevStatus = FREE ∧ nextStatus = FREE then
    let h := h.removeBlockFromFreeList prevBlock
    let h := h.removeBlockFromFreeList nextBlock
    let newSize := u32 (newSize + u32 (h.getTotalSize prevBlock + h.getTotalSize nextBlock))
    let h := h.putWord prevBlock (pack newSize FREE)
    let h := h.putWord (h.ftrp nextBlock) (pack newSize FREE)
    (h, prevBlock)
  else (h, bp)

/-- `extend_heap`; `none` is `NULL`. -/
def extendHeap (h : Heap) (words : Nat) : Heap × Option Nat :=
  let wordsExtend := evenize words
  let wordsExtendTot := u32 (wordsExtend + HDR_FTR_SIZE)
  ifPtr (h.memSbrk (i32 (u32 (wordsExtendTot * WORD_SIZE)))) (fun h => (h, none)) fun h bp =>
    -- the old epilog becomes the header
    let bp := bp - WORD_SIZE * EPILOG_SIZE
    let h := h.putWord bp (pack wordsExtend FREE)
    let h := h.putWord (h.ftrp bp) (pack wordsExtend FREE)
    let endPointer := bp + WORD_SIZE * wordsExtendTot
    let h := h.putWord endPointer (pack 0 TAKEN)
    let h := h.putWord (h.ftrp endPointer) (pack 0 TAKEN)
    (h, some bp)

/-- The search inside the first list of `find_free_block`. -/
def findInList (h : Heap) (words : Nat) : Nat → Nat → Except Fault Nat
  | 0, _ => .error .endlessLoop
  | fuel + 1, bp =>
    if h.getSize bp = words then .ok bp
    else if h.getSucc bp = NULL ∨ h.getSize (h.getSucc bp) < words then .ok bp
    else findInList h words fuel (h.getSucc bp)

/-- `while (GET_FREE_LIST_PTR(index) == NULL && index < MAX_POWER) index++`. -/
def skipEmptyLists (h : Heap) : Nat → Nat → Nat
  | 0, index => index
  | n + 1, index =>
    if h.getFreeListPtr index = NULL ∧ index < MAX_POWER then skipEmptyLists h n (index + 1)
    else index

/-- Walk to the last block of a list. -/
def lastInList (h : Heap) : Nat → Nat → Except Fault Nat
  | 0, _ => .error .endlessLoop
  | fuel + 1, bp =>
    if h.getSucc bp ≠ NULL then lastInList h fuel (h.getSucc bp) else .ok bp

def findFreeBlock (h : Heap) (words : Nat) : Except Fault Nat :=
  let index := findFreeListIndex words
  let bp := h.getFreeListPtr index
  if bp ≠ NULL ∧ h.getSize bp ≥ words then h.findInList words MAX_HEAP bp
  else
    let index := h.skipEmptyLists MAX_POWER (index + 1)
    let bp := h.getFreeListPtr index
    if bp ≠ NULL then h.lastInList MAX_HEAP bp else .ok NULL

def allocFreeBlock (h : Heap) (bp words : Nat) : Except Fault Heap :=
  let bpSize := h.getSize bp
  let bpTotSize := u32 (bpSize + HDR_FTR_SIZE)
  let neededSize := words
  let neededTotSize := u32 (words + HDR_FTR_SIZE)
  let newBlockTotSize : Int := i32 (bpTotSize - neededTotSize)
  let newBlockSize : Int := i32 (newBlockTotSize - HDR_FTR_SIZE)
  if newBlockSize > 0 then
    let newBlock := bp + WORD_SIZE * neededTotSize
    let h := h.putWord newBlock (pack newBlockSize.toNat FREE)
    let h := h.putWord (h.ftrp newBlock) (pack newBlockSize.toNat FREE)
    let h := h.putWord bp (pack neededSize TAKEN)
    let h := h.putWord (h.ftrp bp) (pack neededSize TAKEN)
    let (h, newBlock) := h.coalesce newBlock
    h.placeBlockIntoFreeList newBlock
  else if newBlockSize = 0 then
    -- two spare words do not make a block: they stay with the allocated one
    let neededSize := u32 (neededSize + HDR_FTR_SIZE)
    let h := h.putWord bp (pack neededSize TAKEN)
    .ok (h.putWord (h.ftrp bp) (pack neededSize TAKEN))
  else
    let h := h.putWord bp (pack neededSize TAKEN)
    .ok (h.putWord (h.ftrp bp) (pack neededSize TAKEN))

/-- `mm_init`, with its return value. -/
def mmInit (h : Heap) : Except Fault (Heap × Int) :=
  ifPtr (h.memSbrk (i32 (u32 (evenize MAX_POWER * WORD_SIZE))))
      (fun h => .ok ({ h with freeLists := 2 ^ 32 - 1 }, -1)) fun h p =>
    let h := { h with freeLists := p }
    let h := (List.range (MAX_POWER + 1)).foldl (fun h i => h.setFreeListPtr i NULL) h
    let h := (h.memSbrk WORD_SIZE).1
    ifPtr (h.memSbrk (4 * WORD_SIZE)) (fun h => .ok ({ h with heapPtr := 2 ^ 32 - 1 }, -1)) fun h p =>
      let h := { h with heapPtr := p }
      let h := h.putWord h.heapPtr (pack 0 TAKEN)
      let h := h.putWord (h.ftrp h.heapPtr) (pack 0 TAKEN)
      let epilog := h.nextBlockInHeap h.heapPtr
      let h := h.putWord epilog (pack 0 TAKEN)
      let h := h.putWord (h.ftrp epilog) (pack 0 TAKEN)
      let h := { h with heapPtr := h.heapPtr + WORD_SIZE * HDR_FTR_SIZE }
      ifPtr (h.extendHeap CHUNK) (fun h => .ok (h, -1)) fun h newBlock => do
        let h ← h.placeBlockIntoFreeList newBlock
        .ok (h, 0)

/-- `mm_malloc`: the new state and the returned pointer. -/
def mmMalloc (h : Heap) (size : Nat) : Except Fault (Heap × Nat) := do
  let size := if size ≤ 1 <<< 12 then (roundUpPower2 size).toNat else size
  let words := align size / WORD_SIZE
  if size = 0 then .ok (h, NULL)
  else
    let bp ← h.findFreeBlock words
    if bp = NULL then
      let extendSize := if words > CHUNK then words else CHUNK
      ifPtr (h.extendHeap extendSize) (fun h => .ok (h, NULL)) fun h bp => do
        let h ← h.allocFreeBlock bp words
        .ok (h, bp + WORD_SIZE * HDR_SIZE)
    else
      let h := h.removeBlockFromFreeList bp
      let h ← h.allocFreeBlock bp words
      .ok (h, bp + WORD_SIZE * HDR_SIZE)

def mmFree (h : Heap) (ptr : Nat) : Except Fault Heap :=
  let ptr := ptr - WORD_SIZE
  let size := h.getSize ptr
  let h := h.putWord ptr (pack size FREE)
  let h := h.putWord (h.ftrp ptr) (pack size FREE)
  let (h, ptr) := h.coalesce ptr
  h.placeBlockIntoFreeList ptr

end Heap

def roundToThousand (x : Nat) : Int :=
  i32 (if x % 1000 ≥ 500 then u32 (x + 1000 - x % 1000) else x - x % 1000 : Nat)

/-- libc's `abs` on `int`; the most negative value stays as it is. -/
def absInt (n : Int) : Int := i32 |n|

namespace Heap

def mmReallocWrapped (h : Heap) (ptr size : Nat) (bufferSize : Int) : Except Fault (Heap × Nat) :=
  if ptr = NULL then h.mmMalloc ptr
  else
    let old := ptr - WORD_SIZE
    let bp := ptr - WORD_SIZE
    let newSize := align size / WORD_SIZE
    let sizeWithBuffer := wrap32 (newSize + bufferSize)
    let oldSize := h.getSize bp
    let prev := h.prevBlockInHeap bp
    let next := h.nextBlockInHeap bp
    if sizeWithBuffer = oldSize ∧ newSize ≤ sizeWithBuffer then .ok (h, bp + WORD_SIZE * HDR_SIZE)
    else if newSize = 0 then do
      let h ← h.mmFree ptr
      .ok (h, NULL)
    else if newSize > oldSize then
      if u32 (h.getSize next + oldSize + 2) ≥ sizeWithBuffer ∧
          h.getStatus prev = TAKEN ∧ h.getStatus next = FREE then do
        let h := h.putWord bp (pack oldSize FREE)
        let h := h.putWord (h.ftrp bp) (pack oldSize FREE)
        let (h, bp) := h.coalesce bp
        let h ← h.allocFreeBlock bp sizeWithBuffer
        .ok (h, bp + WORD_SIZE * HDR_SIZE)
      else if u32 (h.getSize prev + oldSize + 2) ≥ sizeWithBuffer ∧
          h.getStatus prev = FREE ∧ h.getStatus next = TAKEN then do
        let h := h.putWord bp (pack oldSize FREE)
        let h := h.putWord (h.ftrp bp) (pack oldSize FREE)
        let (h, bp) := h.coalesce bp
        let h := { h with mem := memmove h.mem (bp + WORD_SIZE) (old + WORD_SIZE) (u32 (oldSize * WORD_SIZE)) }
        let h ← h.allocFreeBlock bp sizeWithBuffer
        .ok (h, bp + WORD_SIZE * HDR_SIZE)
      else if u32 (h.getSize prev + h.getSize next + oldSize + 4) ≥ sizeWithBuffer ∧
          h.getStatus prev = FREE ∧ h.getStatus next = FREE then do
        let h := h.putWord bp (pack oldSize FREE)
        let h := h.putWord (h.ftrp bp) (pack oldSize FREE)
        let (h, bp) := h.coalesce bp
        let h := { h with mem := memmove h.mem (bp + WORD_SIZE) (old + WORD_SIZE) (u32 (oldSize * WORD_SIZE)) }
        let h ← h.allocFreeBlock bp sizeWithBuffer
        .ok (h, bp + WORD_SIZE * HDR_SIZE)
      else do
        let (h, r) ← h.mmMalloc (u32 (u32 (sizeWithBuffer * WORD_SIZE) + WORD_SIZE))
        -- pointer arithmetic on the result: `NULL - 1` is not `NULL`
        let bp := wrap32 (r - WORD_SIZE)
        if bp = NULL then .ok (h, NULL)
        else if u32 (bp + WORD_SIZE) = NULL then .error .copyToNull
        else
          let h := { h with mem := memmove h.mem (bp + WORD_SIZE) (old + WORD_SIZE) (u32 (oldSize * WORD_SIZE)) }
          let h ← h.mmFree (old + WORD_SIZE)
          .ok (h, bp + WORD_SIZE * HDR_SIZE)
    else .ok (h, bp + WORD_SIZE * HDR_SIZE)

/-- `buffer_size` in `mm_realloc`. -/
def bufferSize (h : Heap) (size : Nat) : Except Fault Int :=
  let diff := absInt (i32 (size - h.previousSize))
  if diff < 1 <<< 12 then
    if roundUpPower2 diff = 0 then .error .divideByZero
    else if diff.tmod (roundUpPower2 diff) ≠ 0 then .ok (roundUpPower2 diff)
    else .ok (roundToThousand size)
  else .ok (roundToThousand size)

def mmRealloc (h : Heap) (ptr size : Nat) : Except Fault (Heap × Nat) := do
  let bufferSize ← h.bufferSize size
  let (h, returnValue) ← h.mmReallocWrapped ptr size bufferSize
  .ok ({ h with previousSize := i32 size }, returnValue)

end Heap
end CsappLab.Malloc
