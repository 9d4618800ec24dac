import CsappLab.Lib.CInt
import Mathlib.Data.Fintype.Basic
import Mathlib.Data.BitVec

/-!
# The cache simulator `csim.c`

A cache is an array of `2 ^ s` sets of `E` lines. `visitCache` scans the set of an address and returns
from the middle of the scan on a hit, so it ages only the lines in front of the hit. `visitCache2`
differs in the comparison with which the scan looks for the line to evict. All counters are `int`s.
-/

namespace CsappLab.Csim

open CInt

structure CacheLine where
  valid : Bool
  lru : Int
  tag : BitVec 64
deriving DecidableEq

/-- The options `s`, `E` and `b`, in the range in which the shifts are defined. -/
structure Geometry where
  s : Nat
  E : Nat
  b : Nat
  posE : 0 < E
  bits : s + b < 64
  sets : s ≤ 30

abbrev CacheSet (g : Geometry) := Fin g.E → CacheLine

abbrev Cache (g : Geometry) := Fin (2 ^ g.s) → CacheSet g

/-- The static variables of the program. -/
structure State (g : Geometry) where
  cache : Cache g
  hits : Int
  misses : Int
  evictions : Int

/-- The comparison `cacheset[evict].lru < cacheset[i].lru` of the scan, or the same with `<=`. -/
structure Older where
  older : Int → Int → Bool
  trans : ∀ x y z, older x y → older y z → older x z
  weaken : ∀ x y z, ¬ older x y → older x z → older y z

def Older.lt : Older where
  older x y := x < y
  trans x y z h h' := by simp only [decide_eq_true_eq] at *; omega
  weaken x y z h h' := by simp only [decide_eq_true_eq] at *; omega

def Older.le : Older where
  older x y := x ≤ y
  trans x y z h h' := by simp only [decide_eq_true_eq] at *; omega
  weaken x y z h h' := by simp only [decide_eq_true_eq] at *; omega

variable {g : Geometry}

/-- `address >> (s+b)`. -/
def tagOf (g : Geometry) (address : BitVec 64) : BitVec 64 := address >>> (g.s + g.b)

/-- `address >> b & ((1 << s) - 1)`, as an `unsigned int`. -/
def setIndex (g : Geometry) (address : BitVec 64) : BitVec 32 :=
  (address >>> g.b &&& ((1#32 <<< g.s) - 1).signExtend 64).setWidth 32

/-- How the scan of a set ends. -/
inductive Scan (g : Geometry)
  | hit (cacheset : CacheSet g)
  | miss (cacheset : CacheSet g) (evict : Fin g.E) (empty : Option (Fin g.E))

/-- The loop over the lines `is`; `empty` is `none` for -1. -/
def scan (o : Older) (tag : BitVec 64) (cacheset : CacheSet g) (evict : Fin g.E)
    (empty : Option (Fin g.E)) : List (Fin g.E) → Scan g
  | [] => .miss cacheset evict empty
  | i :: is =>
    if (cacheset i).valid then
      if (cacheset i).tag = tag then .hit (Function.update cacheset i { cacheset i with lru := 1 })
      else
        let cacheset := Function.update cacheset i { cacheset i with lru := i32 ((cacheset i).lru + 1) }
        scan o tag cacheset (if o.older (cacheset evict).lru (cacheset i).lru then i else evict) empty is
    else scan o tag cacheset evict (some i) is

theorem mask_eq {s : Nat} (hs : s ≤ 30) :
    ((1#32 <<< s) - 1).signExtend 64 = BitVec.ofNat 64 (2 ^ s - 1) := by
  interval_cases s <;> rfl

theorem setIndex_toNat (g : Geometry) (address : BitVec 64) :
    (setIndex g address).toNat = address.toNat / 2 ^ g.b % 2 ^ g.s := by
  have hp : 2 ^ g.s ≤ 2 ^ 30 := Nat.pow_le_pow_right (by decide) g.sets
  have hlt : address.toNat / 2 ^ g.b % 2 ^ g.s < 2 ^ g.s := Nat.mod_lt _ (Nat.two_pow_pos _)
  have hmask : (BitVec.ofNat 64 (2 ^ g.s - 1)).toNat = 2 ^ g.s - 1 := by
    rw [BitVec.toNat_ofNat]
    exact Nat.mod_eq_of_lt (by omega)
  unfold setIndex
  rw [mask_eq g.sets, BitVec.toNat_setWidth, BitVec.toNat_and, BitVec.toNat_ushiftRight, hmask,
    Nat.and_two_pow_sub_one_eq_mod, Nat.shiftRight_eq_div_pow]
  exact Nat.mod_eq_of_lt (by omega)

/-- The set of an address; the array access is in bounds. -/
def setOf (g : Geometry) (address : BitVec 64) : Fin (2 ^ g.s) :=
  ⟨(setIndex g address).toNat, setIndex_toNat g address ▸ Nat.mod_lt _ (Nat.two_pow_pos _)⟩

/-- `visitCache` and `visitCache2`, with the return value. -/
def visit (o : Older) (st : State g) (address : BitVec 64) : State g × Int :=
  let tag := tagOf g address
  let i := setOf g address
  match scan o tag (st.cache i) ⟨0, g.posE⟩ none (List.finRange g.E) with
  | .hit cacheset => ({ st with cache := Function.update st.cache i cacheset, hits := i32 (st.hits + 1) }, 0)
  | .miss cacheset _ (some empty) =>
    ({ st with
        cache := Function.update st.cache i (Function.update cacheset empty ⟨true, 1, tag⟩)
        misses := i32 (st.misses + 1) }, 1)
  | .miss cacheset evict none =>
    ({ st with
        cache := Function.update st.cache i
          (Function.update cacheset evict { cacheset evict with tag := tag, lru := 1 })
        misses := i32 (st.misses + 1)
        evictions := i32 (st.evictions + 1) }, 2)

def visitCache (st : State g) (address : BitVec 64) : State g × Int := visit .lt st address

def visitCache2 (st : State g) (address : BitVec 64) : State g × Int := visit .le st address

/-- The empty cache, as `calloc` leaves it. -/
def empty (g : Geometry) : State g := ⟨fun _ _ => ⟨false, 0, 0⟩, 0, 0, 0⟩

/-- The operation of a trace line: `I`, `L`, `S` or `M`. -/
inductive Operation
  | instr
  | load
  | store
  | modify
deriving DecidableEq

structure TraceLine where
  operation : Operation
  address : BitVec 64

/-- The body of the loop of `simulate`, with `ret`; an instruction line is skipped. -/
def simulateLine (st : State g) (line : TraceLine) : State g × Option Int :=
  match line.operation with
  | .instr => (st, none)
  | .store =>
    let (st, ret) := visitCache st line.address
    (st, some ret)
  | .load =>
    let (st, ret) := visitCache st line.address
    (st, some ret)
  | .modify =>
    let (st, ret) := visitCache st line.address
    ({ st with hits := i32 (st.hits + 1) }, some ret)

/-- `simulate` on the lines of the trace, with all values of `ret`. -/
def simulate (st : State g) : List TraceLine → State g × List (Option Int)
  | [] => (st, [])
  | line :: trace =>
    let (st, ret) := simulateLine st line
    let (st, rets) := simulate st trace
    (st, ret :: rets)

end CsappLab.Csim
