import CsappLab.Lib.ByteMem
import CsappLab.Lib.CInt

/-!
# The memory system of `memlib.c`

One state record holds the globals of `memlib.c` and of `mm.c`, and the bytes of the simulated
memory. Pointers are byte addresses; `NULL` is `0`.
-/

namespace CsappLab.Malloc
open ByteMem CInt

def MAX_HEAP : Nat := 20 * (1 <<< 20)

/-- The storage `mem_init` obtains from `malloc(MAX_HEAP)`: a non-null address with `MAX_HEAP` bytes
behind it in the 32-bit address space. -/
structure Arena where
  start : Nat
  start_pos : 0 < start
  fits : start + MAX_HEAP < 2 ^ 32

/-- The globals of `memlib.c` and `mm.c` and the bytes they point to. `previous_size` is the `static`
local of `mm_realloc`. -/
structure Heap where
  mem : Mem
  memStartBrk : Nat
  memBrk : Nat
  memMaxAddr : Nat
  freeLists : Nat
  heapPtr : Nat
  previousSize : Int

namespace Heap

/-- `mem_init`, on whatever the bytes and the globals of `mm.c` held before. -/
def memInit (a : Arena) (h : Heap) : Heap :=
  { h with memStartBrk := a.start, memMaxAddr := a.start + MAX_HEAP, memBrk := a.start }

def memResetBrk (h : Heap) : Heap := { h with memBrk := h.memStartBrk }

/-- `mem_sbrk`; `none` is the `(void *)-1` of the error path. Addresses are compared as numbers: C
gives no meaning to a pointer sum that leaves the arena and wraps. -/
def memSbrk (h : Heap) (incr : Int) : Heap × Option Nat :=
  let oldBrk := h.memBrk
  if incr < 0 ∨ h.memBrk + incr > h.memMaxAddr then (h, none)
  else ({ h with memBrk := (h.memBrk + incr).toNat }, some oldBrk)

def memHeapLo (h : Heap) : Nat := h.memStartBrk

def memHeapHi (h : Heap) : Nat := h.memBrk - 1

end Heap
end CsappLab.Malloc
