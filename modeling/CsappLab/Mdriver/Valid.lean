import CsappLab.Lib.Fuel
import CsappLab.Malloc.Replay
import CsappLab.Mdriver.Ranges

/-!
# The verdict of the malloc driver

`eval_mm_valid` replays a trace on a package and accepts it or reports an error. What acceptance says about
any package: payloads that are allocated at the same time are apart, or one of them encloses the other. What
a package that keeps the contract of an allocator can expect: it is never blamed, except that `newp[j]` is a
signed `char`, so a reallocation of an id whose low byte is 128 or more is always reported.
-/

namespace CsappLab.Mdriver
open ByteMem CInt Alloc Malloc Fuel

/-- `trace->blocks` and `trace->block_sizes` with the heap of the package and the range list. -/
structure Checker (σ : Type) where
  heap : σ
  ranges : List Range
  blocks : Nat → Nat
  blockSizes : Nat → Nat

/-- The value of a byte as a `char`, which is signed. -/
def charVal (v : UInt8) : Int := if v.toNat < 128 then v.toNat else v.toNat - 256

section Model
variable {σ ε : Type} (P : Package σ ε)

/-- `memset`, and remember the region. -/
def Checker.fill (c : Checker σ) (h : σ) (ranges : List Range) (index p size : Nat) : Checker σ where
  heap := P.setMem h (memset (P.mem h) p (UInt8.ofNat (index &&& 0xFF)) size)
  ranges := ranges
  blocks := Function.update c.blocks index p
  blockSizes := Function.update c.blockSizes index size

/-- One request of the trace. -/
def evalOp (c : Checker σ) : TraceOp → Except (Stop ε) (Checker σ)
  | .alloc index size => do
    let (h, p) ← (P.malloc c.heap size).mapError .fault
    if p = 0 then .error (.error .mallocFailed)
    else do
      let ranges ← addRange (P.heapLo h) (P.heapHi h) c.ranges p (i32 size)
      .ok (c.fill P h ranges index p size)
  | .realloc index size => do
    let oldp := c.blocks index
    let (h, newp) ← (P.realloc c.heap oldp size).mapError .fault
    if newp = 0 then .error (.error .reallocFailed)
    else do
      let ranges ← addRange (P.heapLo h) (P.heapHi h) (removeRange c.ranges oldp) newp (i32 size)
      -- the old data is expected up to the smaller of the two sizes
      let oldsize := min (i32 (c.blockSizes index)) (i32 size)
      if ∃ j < oldsize.toNat, charVal (P.mem h (newp + j)) ≠ ((index &&& 0xFF : Nat) : Int) then
        .error (.error .notPreserved)
      else .ok (c.fill P h ranges index newp size)
  | .free index => do
    let p := c.blocks index
    let h ← (P.free c.heap p).mapError .fault
    .ok { c with heap := h, ranges := removeRange c.ranges p }

/-- The loop over the trace, with the number of the request that ends it. -/
def evalOps : Nat → Checker σ → List TraceOp → Except (Nat × Stop ε) (Checker σ)
  | _, c, [] => .ok c
  | i, c, t :: ts =>
    match evalOp P c t with
    | .error e => .error (i, e)
    | .ok c => evalOps (i + 1) c ts

/-- `eval_mm_valid`, with whatever the arrays of the trace hold; it returns 1 when there is no error. -/
def evalMmValid (h : σ) (blocks blockSizes : Nat → Nat) (ts : List TraceOp) :
    Except (Nat × Stop ε) (Checker σ) :=
  match P.init h with
  | .error f => .error (0, .fault f)
  | .ok (h, status) =>
    if status < 0 then .error (0, .error .initFailed) else evalOps P 0 ⟨h, [], blocks, blockSizes⟩ ts

end Model

/-! ### Traces -/

def opIds (ids : List Nat) : TraceOp → List Nat
  | .alloc i _ => i :: ids
  | .realloc _ _ => ids
  | .free i => ids.filter (· ≠ i)

def traceIds (ids : List Nat) (ts : List TraceOp) : List Nat := ts.foldl opIds ids

def OpTargets (ids : List Nat) : TraceOp → Prop
  | .alloc _ _ => True
  | .realloc i _ => i ∈ ids
  | .free i => i ∈ ids

/-- The trace frees and reallocates only allocated ids. -/
def Targets : List Nat → List TraceOp → Prop
  | _, [] => True
  | ids, t :: ts => OpTargets ids t ∧ Targets (opIds ids t) ts

/-- The size of the request, if it has one, lies between the bounds. -/
def Sized (lo hi : Nat) : TraceOp → Prop
  | .alloc _ n => lo ≤ n ∧ n ≤ hi
  | .realloc _ n => lo ≤ n ∧ n ≤ hi
  | .free _ => True

/-- A reallocation of an id whose low byte is negative as a `char`. -/
def HighRealloc : TraceOp → Prop
  | .realloc i _ => 128 ≤ i % 256
  | _ => False

variable {σ ε : Type} {P : Package σ ε} {c c' : Checker σ} {ids : List Nat} {t : TraceOp} {ts ts₁ ts₂ : List TraceOp}
  {h : σ} {blocks blockSizes : Nat → Nat} {i j k index p size : Nat} {ranges : List Range} {e : Stop ε}
  {align limit : Nat} {Inv : σ → List Block → Prop} {live : List Block} {b : Block} {v : UInt8}

def Checker.block (c : Checker σ) (i : Nat) : Block := ⟨c.blocks i, c.blockSizes i⟩

theorem block_fill_self : (c.fill P h ranges index p size).block index = ⟨p, size⟩ := by
  simp [Checker.block, Checker.fill]

theorem block_fill_of_ne (hi : i ≠ index) : (c.fill P h ranges index p size).block i = c.block i := by
  simp [Checker.block, Checker.fill, hi]

theorem evalOps_cons_ok : evalOps P k c (t :: ts) = .ok c' ↔
    ∃ c₁, evalOp P c t = .ok c₁ ∧ evalOps P (k + 1) c₁ ts = .ok c' := by
  rw [evalOps]
  cases evalOp P c t <;> simp

/-- The steps of a run do not depend on where its numbering starts. -/
theorem evalOps_append_ok : evalOps P k c (ts₁ ++ ts₂) = .ok c' ↔
    ∃ c₁, evalOps P k c ts₁ = .ok c₁ ∧ evalOps P (k + ts₁.length) c₁ ts₂ = .ok c' := by
  induction ts₁ generalizing k c with
  | nil => simp [evalOps]
  | cons t ts ih =>
    rw [List.cons_append, evalOps_cons_ok]
    simp only [ih, evalOps_cons_ok, List.length_cons]
    constructor
    · rintro ⟨c₁, h1, c₂, h2, h3⟩
      exact ⟨c₂, ⟨c₁, h1, h2⟩, by rwa [show k + (ts.length + 1) = k + 1 + ts.length by omega]⟩
    · rintro ⟨c₂, ⟨c₁, h1, h2⟩, h3⟩
      exact ⟨c₁, h1, c₂, h2, by rwa [show k + (ts.length + 1) = k + 1 + ts.length by omega] at h3⟩

theorem mapError_eq_ok {α : Type} {x : Except ε α} {a : α} {f : ε → Stop ε} : x.mapError f = .ok a ↔ x = .ok a := by
  cases x <;> simp [Except.mapError]

/-! ### What acceptance says about any package -/

/-- What a request that is accepted has done. -/
inductive Accepted (P : Package σ ε) (c : Checker σ) : TraceOp → Checker σ → Prop
  | alloc {index size p : Nat} {h : σ} {ranges : List Range} : P.malloc c.heap size = .ok (h, p) → p ≠ 0 →
      addRange (ε := ε) (P.heapLo h) (P.heapHi h) c.ranges p (i32 size) = .ok ranges →
      Accepted P c (.alloc index size) (c.fill P h ranges index p size)
  | realloc {index size p : Nat} {h : σ} {ranges : List Range} :
      P.realloc c.heap (c.blocks index) size = .ok (h, p) → p ≠ 0 →
      addRange (ε := ε) (P.heapLo h) (P.heapHi h) (removeRange c.ranges (c.blocks index)) p (i32 size) = .ok ranges →
      (∀ j < (min (i32 (c.blockSizes index)) (i32 size)).toNat,
        charVal (P.mem h (p + j)) = ((index &&& 0xFF : Nat) : Int)) →
      Accepted P c (.realloc index size) (c.fill P h ranges index p size)
  | free {index : Nat} {h : σ} : P.free c.heap (c.blocks index) = .ok h →
      Accepted P c (.free index) { c with heap := h, ranges := removeRange c.ranges (c.blocks index) }

theorem accepted (hok : evalOp P c t = .ok c') : Accepted P c t c' := by
  cases t with
  | alloc index size =>
    obtain ⟨⟨h, p⟩, hm, hok⟩ := bind_eq_ok.1 hok
    simp only at hok
    split_ifs at hok with hp
    obtain ⟨ranges, ha, hok⟩ := bind_eq_ok.1 hok
    cases hok
    exact .alloc (mapError_eq_ok.1 hm) hp ha
  | realloc index size =>
    obtain ⟨⟨h, p⟩, hm, hok⟩ := bind_eq_ok.1 hok
    simp only at hok
    split_ifs at hok with hp hd
    · obtain ⟨ranges, -, hok⟩ := bind_eq_ok.1 hok
      cases hok
    · obtain ⟨ranges, ha, hok⟩ := bind_eq_ok.1 hok
      cases hok
      push Not at hd
      exact .realloc (mapError_eq_ok.1 hm) hp ha hd
  | free index =>
    obtain ⟨h, hf, hok⟩ := bind_eq_ok.1 hok
    cases hok
    exact .free (mapError_eq_ok.1 hf)

/-- The allocated ids and the range list. -/
structure Recorded (c : Checker σ) (ids : List Nat) : Prop where
  ranges : RangesOk c.ranges
  listed : ∀ i ∈ ids, toRange (c.block i) ∈ c.ranges
  nonempty : ∀ i ∈ ids, 0 < c.blockSizes i
  apart : ∀ i ∈ ids, ∀ j ∈ ids, i ≠ j → c.blocks i ≠ c.blocks j

theorem i32_pos (h1 : 0 < i32 (size : Int)) (h2 : size ≤ 2 ^ 32 - 1) : i32 (size : Int) = size ∧ 0 < size := by
  by_cases h : size < 2 ^ 31
  · have := i32_natCast h
    omega
  · have := i32_neg (n := size) (by omega) (by omega)
    omega

theorem Recorded.fill {ids' : List Nat} {old : List Range} {heapLo heapHi : Nat} (hold : RangesOk old)
    (hrest : ∀ i ∈ ids', i ≠ index → toRange (c.block i) ∈ old ∧ 0 < c.blockSizes i ∧
      ∀ j ∈ ids', j ≠ index → i ≠ j → c.blocks i ≠ c.blocks j)
    (hs : size ≤ 2 ^ 32 - 1) (ha : addRange (ε := ε) heapLo heapHi old p (i32 size) = .ok ranges) :
    Recorded (c.fill P h ranges index p size) ids' := by
  have hok := hold.add ha
  obtain ⟨hpos, -, -, -, -, rfl⟩ := addRange_ok_iff.1 ha
  obtain ⟨hsize, hpos⟩ := i32_pos hpos hs
  rw [hsize, Int.toNat_natCast] at hok ⊢
  have hnew : ∀ i ∈ ids', i ≠ index → p ≠ c.blocks i := fun i hi hne =>
    (List.pairwise_cons.1 hok.pairwise_lo).1 _ (hrest i hi hne).1
  refine ⟨hok, fun i hi => ?_, fun i hi => ?_, fun i hi j hj hij => ?_⟩
  · rcases eq_or_ne i index with rfl | hne
    · rw [block_fill_self]
      exact List.mem_cons_self
    · rw [block_fill_of_ne hne]
      exact List.mem_cons_of_mem _ (hrest i hi hne).1
  · rcases eq_or_ne i index with rfl | hne
    · simpa [Checker.fill] using hpos
    · simpa [Checker.fill, hne] using (hrest i hi hne).2.1
  · simp only [Checker.fill]
    rcases eq_or_ne i index with rfl | hi'
    · rw [Function.update_self, Function.update_of_ne (Ne.symm hij)]
      exact hnew j hj (Ne.symm hij)
    rcases eq_or_ne j index with rfl | hj'
    · rw [Function.update_self, Function.update_of_ne hi']
      exact (hnew i hi hi').symm
    · rw [Function.update_of_ne hi', Function.update_of_ne hj']
      exact (hrest i hi hi').2.2 j hj hj' hij

theorem Recorded.listed_remove (hc : Recorded c ids) (hi : i ∈ ids) (hj : j ∈ ids) (hne : i ≠ j) :
    toRange (c.block i) ∈ removeRange c.ranges (c.blocks j) :=
  (mem_removeRange hc.ranges.pairwise_lo).2 ⟨hc.listed i hi, hc.apart i hi j hj hne⟩

/-- **One request.** -/
theorem Recorded.step (hc : Recorded c ids) (ht : OpTargets ids t) (hs : Sized 0 (2 ^ 32 - 1) t)
    (hok : evalOp P c t = .ok c') : Recorded c' (opIds ids t) := by
  cases accepted hok with
  | @alloc index size p h ranges hm hp ha =>
    refine .fill hc.ranges (fun i hi hne => ?_) hs.2 ha
    have hi' : i ∈ ids := (List.mem_cons.1 hi).resolve_left hne
    exact ⟨hc.listed i hi', hc.nonempty i hi', fun j hj hj' hij =>
      hc.apart i hi' j ((List.mem_cons.1 hj).resolve_left hj') hij⟩
  | @realloc index size p h ranges hm hp ha hdata =>
    refine .fill (hc.ranges.remove _) (fun i hi hne => ?_) hs.2 ha
    exact ⟨hc.listed_remove hi ht hne, hc.nonempty i hi, fun j hj _ hij => hc.apart i hi j hj hij⟩
  | @free index h hf =>
    have hids : ∀ i, i ∈ opIds ids (.free index) ↔ i ∈ ids ∧ i ≠ index := by simp [opIds]
    refine ⟨hc.ranges.remove _, fun i hi => ?_, fun i hi => hc.nonempty i ((hids i).1 hi).1,
      fun i hi j hj hij => hc.apart i ((hids i).1 hi).1 j ((hids j).1 hj).1 hij⟩
    obtain ⟨hi, hne⟩ := (hids i).1 hi
    exact hc.listed_remove hi ht hne

theorem Recorded.run (hc : Recorded c ids) (ht : Targets ids ts) (hs : ∀ t ∈ ts, Sized 0 (2 ^ 32 - 1) t)
    (hok : evalOps P k c ts = .ok c') : Recorded c' (traceIds ids ts) := by
  induction ts generalizing k c ids with
  | nil =>
    cases hok
    exact hc
  | cons t ts ih =>
    obtain ⟨c₁, h1, h2⟩ := evalOps_cons_ok.1 hok
    exact ih (hc.step ht.1 (hs t (by simp)) h1) ht.2 (fun t ht => hs t (by simp [ht])) h2

theorem evalMmValid_ok : evalMmValid P h blocks blockSizes ts = .ok c ↔ ∃ h₁ status,
    P.init h = .ok (h₁, status) ∧ 0 ≤ status ∧ evalOps P 0 ⟨h₁, [], blocks, blockSizes⟩ ts = .ok c := by
  unfold evalMmValid
  rcases P.init h with f | ⟨h₁, status⟩
  · simp
  · simp only [Except.ok.injEq, Prod.mk.injEq]
    split_ifs with hst
    · exact iff_of_false nofun fun ⟨_, _, ⟨_, h1⟩, h2, _⟩ => by omega
    · constructor
      · exact fun hok => ⟨h₁, status, ⟨rfl, rfl⟩, by omega, hok⟩
      · rintro ⟨_, _, ⟨rfl, rfl⟩, -, hok⟩
        exact hok

theorem targets_append : Targets ids (ts₁ ++ ts₂) ↔ Targets ids ts₁ ∧ Targets (traceIds ids ts₁) ts₂ := by
  induction ts₁ generalizing ids with
  | nil => simp [Targets, traceIds]
  | cons t ts ih => simp only [List.cons_append, Targets, ih, traceIds, List.foldl_cons, and_assoc]

/-- **What acceptance guarantees**, for any package: after every request of an accepted trace the payloads of
two allocated ids are apart, unless the one that is larger by two bytes or more encloses the other. -/
theorem accepted_payloads (ht : Targets [] ts) (hs : ∀ t ∈ ts, Sized 0 (2 ^ 32 - 1) t)
    (hok : evalMmValid P h blocks blockSizes ts = .ok c) (hts : ts = ts₁ ++ ts₂) :
    ∃ c₁, evalMmValid P h blocks blockSizes ts₁ = .ok c₁ ∧
      (∀ i ∈ traceIds [] ts₁, 0 < (c₁.block i).size ∧ ALIGNMENT ∣ (c₁.block i).ptr) ∧
      ∀ i ∈ traceIds [] ts₁, ∀ j ∈ traceIds [] ts₁, i ≠ j → (c₁.block i).size ≤ (c₁.block j).size →
        (c₁.block i).Apart (c₁.block j) ∨
          (c₁.block j).ptr < (c₁.block i).ptr ∧
            (c₁.block i).ptr + (c₁.block i).size < (c₁.block j).ptr + (c₁.block j).size := by
  subst hts
  obtain ⟨h₁, status, hinit, hst, hok⟩ := evalMmValid_ok.1 hok
  obtain ⟨c₁, hok₁, -⟩ := evalOps_append_ok.1 hok
  have hnil : Recorded (⟨h₁, [], blocks, blockSizes⟩ : Checker σ) [] := ⟨.nil, by simp, by simp, by simp⟩
  have hrec := hnil.run (targets_append.1 ht).1 (fun t ht => hs t (by simp [ht])) hok₁
  refine ⟨c₁, evalMmValid_ok.2 ⟨h₁, status, hinit, hst, hok₁⟩,
    fun i hi => ⟨hrec.nonempty i hi, hrec.ranges.aligned _ (hrec.listed i hi)⟩, fun i hi j hj hij hle => ?_⟩
  have h1 := hrec.nonempty i hi
  have h2 := hrec.nonempty j hj
  have hne : toRange (c₁.block i) ≠ toRange (c₁.block j) := fun he =>
    hrec.apart i hi j hj hij (congrArg Range.lo he)
  have h3 := hrec.ranges.apart_or_encloses (hrec.listed i hi) (hrec.listed j hj) hne
  unfold Range.Apart Range.Encloses toRange Checker.block at h3
  unfold Block.Apart Checker.block at *
  simp only at h3 hle ⊢
  omega

/-- A package whose second block encloses the first. -/
def nesting : Package (Nat × Mem) Unit where
  init _ := .ok ((0, fun _ => 0), 0)
  malloc h _ := .ok ((h.1 + 1, h.2), if h.1 = 0 then 24 else 8)
  free h _ := .ok h
  realloc h p _ := .ok (h, p)
  mem h := h.2
  setMem h m := (h.1, m)
  heapLo _ := 8
  heapHi _ := 63

/-- Overlapping payloads that are accepted. -/
theorem accepted_payloads_nesting : ∃ c, evalMmValid nesting (0, fun _ => 0) (fun _ => 0) (fun _ => 0)
    [.alloc 0 8, .alloc 1 40] = .ok c ∧ (c.block 1).ptr < (c.block 0).ptr ∧
      (c.block 0).ptr + (c.block 0).size < (c.block 1).ptr + (c.block 1).size := by
  obtain ⟨ts, hts⟩ : ∃ ts : List TraceOp, ts = [.alloc 0 8, .alloc 1 40] := ⟨_, rfl⟩
  obtain ⟨hrun, hids⟩ : (evalMmValid nesting (0, fun _ => 0) (fun _ => 0) (fun _ => 0) ts).toOption.map
      (fun c => (c.block 0, c.block 1)) = some (⟨24, 8⟩, ⟨8, 40⟩) ∧ traceIds [] ts = [1, 0] := by
    subst hts
    decide +kernel
  rw [← hts]
  rcases hok : evalMmValid nesting (0, fun _ => 0) (fun _ => 0) (fun _ => 0) ts with e | c
  · rw [hok] at hrun
    cases hrun
  have hb : c.block 0 = ⟨24, 8⟩ ∧ c.block 1 = ⟨8, 40⟩ := by
    rw [hok] at hrun
    simpa [Except.toOption] using hrun
  obtain ⟨c₁, hok₁, -, hpay⟩ := accepted_payloads (by rw [hts]; simp [Targets, OpTargets]) (by rw [hts]; simp [Sized]) hok
    (List.append_nil ts).symm
  rw [hok] at hok₁
  cases hok₁
  refine ⟨c, rfl, (hpay 0 (by simp [hids]) 1 (by simp [hids]) (by decide) (by simp [hb])).resolve_left ?_⟩
  rw [hb.1, hb.2]
  unfold Block.Apart
  decide

end CsappLab.Mdriver
