import CsappLab.Implicit.Check
import CsappLab.Implicit.Replay
import CsappLab.Lib.Fuel

/-!
# The malloc driver with random data

`eval_mm_valid` of the second `mdriver.c`. It fills every block with a piece of `random_data` and compares it
before the block is freed or reallocated and after a reallocation, with `-D` before every request. A block that
is garbled is reported, but the trace goes on. A package that meets the contract is blamed for nothing but
a lack of memory.
-/

namespace CsappLab.Implicit
open ByteMem CInt Alloc Fuel Function

def ALIGNMENT : Nat := 8
def RANDOM_DATA_LEN : Nat := 1 <<< 16

/-- `range_t`; the list follows `next`. -/
structure Range where
  lo : Nat
  hi : Nat
  index : Nat
deriving DecidableEq

inductive DebugMode
  | none
  | cheap
  | expensive
deriving DecidableEq

/-- What does not change while a trace is replayed: `debug_mode`, `trace->ignore_ranges`, `random_data`, and the
values that `random` is going to return. -/
structure Setup where
  debug : DebugMode
  ignoreRanges : Bool
  data : Nat → UInt8
  random : Nat → Nat

/-- The calls of `malloc_error`, with the values that go into their messages. -/
inductive MallocError
  | initFailed
  | mallocFailed
  | reallocFailed
  | reallocNotNull
  | notAligned (lo : Nat)
  | outsideHeap (lo hi heapLo heapHi : Nat)
  | overlaps (lo hi : Nat) (old : Range)
  | garbled (index ngarbled firstgarbled : Nat)
deriving DecidableEq

/-- What ends the driver itself: a fault of the package, or a failed assertion. -/
inductive Stop (ε : Type)
  | fault (f : ε)
  | assertion
deriving DecidableEq

/-- The arrays of the trace, the range list, the calls of `random`, and the errors with their request numbers. -/
structure Driver (σ : Type) where
  heap : σ
  ranges : List Range
  blocks : Nat → Nat
  blockSizes : Nat → Nat
  randBase : Nat → Nat
  randoms : Nat
  errors : List (Nat × MallocError)

/-- `remove_range`: the first record with this low address. -/
def removeRange (ranges : List Range) (lo : Nat) : List Range := ranges.eraseP (·.lo = lo)

namespace Driver

section Model
variable {σ ε : Type} (P : Package σ ε) (E : Setup)

/-- `malloc_error`. -/
def report (c : Driver σ) (opnum : Nat) (e : MallocError) : Driver σ := { c with errors := c.errors ++ [(opnum, e)] }

/-- `add_range`, with its return value. -/
def addRange (c : Driver σ) (lo : Nat) (size : Int) (opnum index : Nat) : Except (Stop ε) (Driver σ × Bool) :=
  let hi := lo + size.toNat - 1
  let heapLo := P.heapLo c.heap
  let heapHi := P.heapHi c.heap
  if size ≤ 0 then .error .assertion
  else if lo % ALIGNMENT ≠ 0 then .ok (c.report opnum (.notAligned lo), false)
  else if lo < heapLo ∨ lo > heapHi ∨ hi < heapLo ∨ hi > heapHi then
    .ok (c.report opnum (.outsideHeap lo hi heapLo heapHi), false)
  else if E.ignoreRanges ∨ E.debug = .none then .ok (c, true)
  else
    match c.ranges.find? fun p => decide (lo ≥ p.lo ∧ lo ≤ p.hi ∨ hi ≥ p.lo ∧ hi ≤ p.hi) with
    | some p => .ok (c.report opnum (.overlaps lo hi p), false)
    | none => .ok ({ c with ranges := ⟨lo, hi, index⟩ :: c.ranges }, true)

/-- The byte of `random_data` that belongs at offset `i` of a block. -/
def expected (base i : Nat) : UInt8 := E.data ((base + i) % RANDOM_DATA_LEN)

/-- `randomize_block`. -/
def randomizeBlock (c : Driver σ) (index : Nat) : Driver σ :=
  if E.debug = .none then c
  else
    let base := E.random c.randoms
    let block := c.blocks index
    let size := c.blockSizes index
    { c with
      randBase := update c.randBase index base
      randoms := c.randoms + 1
      heap := P.setMem c.heap fun x =>
        if block ≤ x ∧ x < block + size then expected E base (x - block) else P.mem c.heap x }

/-- `check_index`; the index `-1` is `none`. -/
def checkIndex (c : Driver σ) (opnum : Nat) : Option Nat → Driver σ
  | none => c
  | some index =>
    if E.debug = .none then c
    else
      let block := c.blocks index
      let base := c.randBase index
      match (List.range (c.blockSizes index)).filter fun i => P.mem c.heap (block + i) ≠ expected E base i with
      | [] => c
      | first :: bad => c.report opnum (.garbled index (bad.length + 1) first)

/-- The end of a reallocation: move the region, and check up to the smaller size for correct copying. -/
def moveRegion (c : Driver σ) (opnum index newp size : Nat) : Driver σ :=
  let c := { c with
    blocks := update c.blocks index newp
    blockSizes := update c.blockSizes index (min size (c.blockSizes index)) }
  let c := c.checkIndex P E opnum (some index)
  let c := { c with blockSizes := update c.blockSizes index size }
  c.randomizeBlock P E index

/-- One request of the trace, and whether to go on. -/
def evalOp (c : Driver σ) (i : Nat) (t : Op) : Except (Stop ε) (Driver σ × Bool) :=
  let c := if E.debug = .expensive then c.ranges.foldl (fun c r => c.checkIndex P E i (some r.index)) c else c
  match t with
  | .alloc index size => do
    let (h, p) ← (P.malloc c.heap size).mapError .fault
    let c := { c with heap := h }
    if p = 0 then .ok (c.report i .mallocFailed, false)
    else do
      let (c, ok) ← c.addRange P E p (i32 size) i index
      if ¬ ok then .ok (c, false)
      else
        let c := { c with blocks := update c.blocks index p, blockSizes := update c.blockSizes index size }
        .ok (c.randomizeBlock P E index, true)
  | .realloc index size => do
    let c := c.checkIndex P E i (some index)
    let oldp := c.blocks index
    let (h, newp) ← (P.realloc c.heap oldp size).mapError .fault
    let c := { c with heap := h }
    if newp = 0 ∧ size ≠ 0 then .ok (c.report i .reallocFailed, false)
    else if newp ≠ 0 ∧ size = 0 then .ok (c.report i .reallocNotNull, false)
    else do
      let c := { c with ranges := removeRange c.ranges oldp }
      let (c, ok) ← if size > 0 then c.addRange P E newp (i32 size) i index else .ok (c, true)
      if ¬ ok then .ok (c, false) else .ok (c.moveRegion P E i index newp size, true)
  | .free index => do
    let c := c.checkIndex P E i index
    match index with
    | none => do
      let h ← (P.free c.heap 0).mapError .fault
      .ok ({ c with heap := h }, true)
    | some index => do
      let p := c.blocks index
      let h ← (P.free c.heap p).mapError .fault
      .ok ({ c with heap := h, ranges := removeRange c.ranges p }, true)

/-- The loop over the trace, and the return value of `eval_mm_valid`. -/
def evalOps : Nat → Driver σ → List Op → Except (Stop ε) (Driver σ × Bool)
  | _, c, [] => .ok (c, true)
  | i, c, t :: ts => do
    let (c, ok) ← c.evalOp P E i t
    if ok then evalOps (i + 1) c ts else .ok (c, false)

/-- `eval_mm_valid`, with `reinit_trace` and `clear_ranges`; `P.init` resets the break. -/
def evalMmValid (c : Driver σ) (ts : List Op) : Except (Stop ε) (Driver σ × Bool) := do
  let (h, status) ← (P.init c.heap).mapError .fault
  let c := { c with heap := h, ranges := [], blocks := fun _ => 0, blockSizes := fun _ => 0 }
  if status < 0 then .ok (c.report 0 .initFailed, false) else evalOps P E 0 c ts

end Model

def block {σ : Type} (c : Driver σ) (i : Nat) : Block := ⟨c.blocks i, c.blockSizes i⟩

def range {σ : Type} (c : Driver σ) (i : Nat) : Range := ⟨c.blocks i, c.blocks i + c.blockSizes i - 1, i⟩

end Driver

end CsappLab.Implicit
