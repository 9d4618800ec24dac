import CsappLab.Implicit.Verdict

/-!
# Space utilization

`eval_mm_util` of the second `mdriver.c` replays a trace and remembers the greatest total of the allocated
payloads. It has the sizes in `int`s; they do not overflow as long as the heap is shorter than `2 ^ 31`, for
the payloads lie apart in the heap, and so the greatest total is no more than the final size of the heap.
-/

namespace CsappLab.Implicit
open ByteMem CInt Alloc Fuel Function

def sizeT (n : Int) : Nat := (n % 2 ^ 64).toNat

structure Meter (σ : Type) where
  heap : σ
  blocks : Nat → Nat
  blockSizes : Nat → Nat
  totalSize : Int
  maxTotalSize : Int

/-- What ends `eval_mm_util`: a fault of the package, or `app_error`. -/
inductive AppError (ε : Type)
  | fault (f : ε)
  | initFailed
  | mallocFailed
  | reallocFailed
deriving DecidableEq

section Model
variable {σ ε : Type} (P : Package σ ε)

/-- The `switch` of `eval_mm_util`. -/
def utilRequest (c : Meter σ) : Op → Except (AppError ε) (Meter σ)
  | .alloc index n => do
    let size := i32 n
    let (h, p) ← (P.malloc c.heap (sizeT size)).mapError .fault
    if p = 0 then .error .mallocFailed
    else
      .ok { c with
        heap := h
        blocks := update c.blocks index p
        blockSizes := update c.blockSizes index (sizeT size)
        totalSize := i32 (c.totalSize + size) }
  | .realloc index n => do
    let newsize := i32 n
    let oldsize := i32 (c.blockSizes index)
    let oldp := c.blocks index
    let (h, newp) ← (P.realloc c.heap oldp (sizeT newsize)).mapError .fault
    if newp = 0 ∧ newsize ≠ 0 then .error .reallocFailed
    else
      .ok { c with
        heap := h
        blocks := update c.blocks index newp
        blockSizes := update c.blockSizes index (sizeT newsize)
        totalSize := i32 (c.totalSize + i32 (newsize - oldsize)) }
  | .free index => do
    let (size, p) : Int × Nat := match index with
      | none => (0, 0)
      | some index => (i32 (c.blockSizes index), c.blocks index)
    let h ← (P.free c.heap p).mapError .fault
    .ok { c with heap := h, totalSize := i32 (c.totalSize - size) }

/-- One request and the update of the high-water mark. -/
def utilOp (c : Meter σ) (t : Op) : Except (AppError ε) (Meter σ) := do
  let c ← utilRequest P c t
  .ok { c with maxTotalSize := if c.totalSize > c.maxTotalSize then c.totalSize else c.maxTotalSize }

end Model

/-! ### What a trace asks for -/

/-- The allocated ids with the sizes of their payloads. -/
def Op.serve (l : List (Nat × Nat)) : Op → List (Nat × Nat)
  | .alloc i n => (i, n) :: l
  | .realloc i n => if n = 0 then l.filter (·.1 ≠ i) else (i, n) :: l.filter (·.1 ≠ i)
  | .free (some i) => l.filter (·.1 ≠ i)
  | .free none => l

/-- The total of the payloads after a trace. -/
def payload (ts : List Op) : Nat := ((ts.foldl Op.serve []).map Prod.snd).sum

def payloads (ts : List Op) : Set Nat := payload '' {ts' | ts' <+: ts}

/-- A package whose heap stays where it is and only grows, to less than `2 ^ 31` bytes. -/
structure Grows {σ ε : Type} (P : Package σ ε) (Inv : σ → List Block → Prop) (limit : Nat) : Prop where
  malloc : ∀ {s live n s' p}, Inv s live → 0 < n → n ≤ limit → P.malloc s n = .ok (s', p) →
    P.heapLo s' = P.heapLo s ∧ P.heapHi s ≤ P.heapHi s'
  free : ∀ {s live b s'}, Inv s live → b ∈ live → P.free s b.ptr = .ok s' →
    P.heapLo s' = P.heapLo s ∧ P.heapHi s ≤ P.heapHi s'
  realloc : ∀ {s live b n s' p}, Inv s live → b ∈ live → 0 < n → n ≤ limit → P.realloc s b.ptr n = .ok (s', p) →
    P.heapLo s' = P.heapLo s ∧ P.heapHi s ≤ P.heapHi s'
  short : ∀ {s live}, Inv s live → P.heapHi s + 1 - P.heapLo s < 2 ^ 31

def Meter.block {σ : Type} (c : Meter σ) (i : Nat) : Block := ⟨c.blocks i, c.blockSizes i⟩

variable {σ ε : Type} {P : Package σ ε} {Inv : σ → List Block → Prop} {align limit i n p : Nat} {h h' : σ}
  {block : Nat → Block} {st st' : Nat → IdState} {ids ids' : List Nat} {c c' : Meter σ} {t : Op} {ts ts' : List Op}

theorem payload_concat : payload (ts ++ [t]) = ((t.serve (ts.foldl Op.serve [])).map Prod.snd).sum := by
  rw [payload, List.foldl_append]
  rfl

theorem payloads_concat : payloads (ts ++ [t]) = insert (payload (ts ++ [t])) (payloads ts) := by
  unfold payloads
  rw [← Set.image_insert_eq]
  refine congrArg _ (Set.ext fun l => ?_)
  exact List.prefix_concat_iff

namespace Held

theorem sum_le (hc : Contract P align limit Inv) (hh : Held P Inv limit h block st ids) :
    (ids.map fun i => (block i).size).sum ≤ P.heapHi h + 1 - P.heapLo h := by
  have hsum := sum_size_le (hc.apart hh.inv) fun b hb => hc.inside hh.inv hb
  rwa [List.map_map] at hsum

theorem sum_without (hh : Held P Inv limit h block st ids) (hi : st i ≠ .freed) :
    (block i).size + ((without i ids).map fun i => (block i).size).sum = (ids.map fun i => (block i).size).sum := by
  rcases hst : st i with _ | _ | _
  · rw [hh.nulls i hst, hh.without_eq_self (by simp [hst])]
    exact Nat.zero_add _
  · have herase : without i ids = ids.erase i := by
      rw [hh.once.erase_eq_filter]
      exact List.filter_congr fun j _ => by rcases eq_or_ne j i with h1 | h1 <;> simp [h1]
    rw [herase]
    exact List.sum_map_erase (fun i => (block i).size) ((hh.live i).2 hst)
  · exact absurd hst hi

theorem grows_free (hc : FullContract P align limit Inv) (hg : Grows P Inv limit) (hh : Held P Inv limit h block st ids)
    (hi : st i ≠ .freed) (hok : P.free h (block i).ptr = .ok h') : P.heapLo h' = P.heapLo h ∧ P.heapHi h ≤ P.heapHi h' := by
  rcases hst : st i with _ | _ | _
  · rw [hh.nulls i hst, hc.free_null] at hok
    cases hok
    exact ⟨rfl, le_rfl⟩
  · exact hg.free hh.inv (hh.mem hst) hok
  · exact absurd hst hi

theorem grows_realloc (hc : FullContract P align limit Inv) (hg : Grows P Inv limit) (hh : Held P Inv limit h block st ids)
    (hi : st i ≠ .freed) (hn : n ≤ limit) (hok : P.realloc h (block i).ptr n = .ok (h', p)) :
    P.heapLo h' = P.heapLo h ∧ P.heapHi h ≤ P.heapHi h' := by
  rcases Nat.eq_zero_or_pos n with rfl | h0
  · rw [hc.realloc_zero] at hok
    rcases hf : P.free h (block i).ptr with f | h₁
    · rw [hf] at hok
      cases hok
    · rw [hf] at hok
      cases hok
      exact hh.grows_free hc hg hi hf
  rcases hst : st i with _ | _ | _
  · rw [hh.nulls i hst, hc.realloc_null h n h0] at hok
    exact hg.malloc hh.inv h0 hn hok
  · exact hg.realloc hh.inv (hh.mem hst) h0 hn hok
  · exact absurd hst hi

end Held

theorem serve_realloc {l : List (Nat × Nat)} : (Op.realloc i n).serve l =
    if n = 0 then l.filter (·.1 ≠ i) else (i, n) :: l.filter (·.1 ≠ i) := rfl

theorem filter_served {f : Nat → Nat} : (ids.map fun i => (i, f i)).filter (·.1 ≠ i) = (without i ids).map fun i => (i, f i) := by
  unfold without
  rw [List.filter_map]
  rfl

theorem map_served (hi : i ∉ ids) : (ids.map fun j => (j, (update block i ⟨p, n⟩ j).size)) =
    ids.map fun j => (j, (block j).size) :=
  List.map_congr_left fun j hj => by rw [update_of_ne (show j ≠ i from fun he => hi (he ▸ hj))]

/-! ### The meter -/

/-- The meter after the requests `ts`. -/
structure Metered (P : Package σ ε) (Inv : σ → List Block → Prop) (limit : Nat) (c : Meter σ) (ts : List Op)
    (st : Nat → IdState) (ids : List Nat) : Prop where
  held : Held P Inv limit c.heap c.block st ids
  served : ts.foldl Op.serve [] = ids.map fun i => (i, (c.block i).size)
  total : c.totalSize = payload ts
  peak : ∃ k : Nat, c.maxTotalSize = k ∧ IsGreatest (payloads ts) k ∧ k ≤ P.heapHi c.heap + 1 - P.heapLo c.heap

namespace Metered

theorem sum_eq (hm : Metered P Inv limit c ts st ids) : (ids.map fun i => (c.block i).size).sum = payload ts := by
  rw [payload, hm.served, List.map_map]
  rfl

theorem next (hc : Contract P align limit Inv) (hm : Metered P Inv limit c ts st ids)
    (hh : Held P Inv limit c'.heap c'.block st' ids')
    (hgrow : P.heapLo c'.heap = P.heapLo c.heap ∧ P.heapHi c.heap ≤ P.heapHi c'.heap)
    (hserve : t.serve (ts.foldl Op.serve []) = ids'.map fun i => (i, (c'.block i).size))
    (htotal : c'.totalSize = payload (ts ++ [t])) (hmax : c'.maxTotalSize = c.maxTotalSize) :
    Metered P Inv limit
      { c' with maxTotalSize := if c'.totalSize > c'.maxTotalSize then c'.totalSize else c'.maxTotalSize }
      (ts ++ [t]) st' ids' := by
  have hserved : (ts ++ [t]).foldl Op.serve [] = ids'.map fun i => (i, (c'.block i).size) := by
    rw [List.foldl_append]
    exact hserve
  obtain ⟨k, hk, hpeak, hle⟩ := hm.peak
  have hroom : payload (ts ++ [t]) ≤ P.heapHi c'.heap + 1 - P.heapLo c'.heap := by
    refine le_trans (le_of_eq ?_) (hh.sum_le hc)
    rw [payload, hserved, List.map_map]
    rfl
  refine ⟨hh, hserved, htotal, max (payload (ts ++ [t])) k, ?_, ?_, ?_⟩
  · simp only
    rw [htotal, hmax, hk]
    split_ifs <;> omega
  · rw [payloads_concat]
    exact hpeak.insert _
  · simp only
    omega

end Metered

theorem utilOp_ok (hok : utilRequest P c t = .ok c') : utilOp P c t = .ok
    { c' with maxTotalSize := if c'.totalSize > c'.maxTotalSize then c'.totalSize else c'.maxTotalSize } := by
  unfold utilOp
  rw [hok]
  rfl

theorem utilOp_error {e : AppError ε} (hf : utilRequest P c t = .error e) : utilOp P c t = .error e := by
  unfold utilOp
  rw [hf]
  rfl

/-- The meter behind a request that has moved the block of `i`. -/
def Meter.moved (c : Meter σ) (h : σ) (i p n : Nat) (total : Int) : Meter σ :=
  { c with heap := h, blocks := update c.blocks i p, blockSizes := update c.blockSizes i n, totalSize := total }

@[simp] theorem moved_block {total : Int} : (c.moved h i p n total).block = update c.block i ⟨p, n⟩ := by
  funext j
  rcases eq_or_ne j i with rfl | hij
  · simp [Meter.block, Meter.moved]
  · simp [Meter.block, Meter.moved, hij]

theorem sizeT_natCast (hn : n < 2 ^ 31) : sizeT n = n := by
  unfold sizeT
  omega

namespace Metered

theorem payload_lt (hc : Contract P align limit Inv) (hg : Grows P Inv limit) (hh : Held P Inv limit h block st ids)
    (hserve : t.serve (ts.foldl Op.serve []) = ids.map fun i => (i, (block i).size)) : payload (ts ++ [t]) < 2 ^ 31 := by
  have hsum := hh.sum_le hc
  have hshort := hg.short hh.inv
  rw [payload_concat, hserve, List.map_map]
  exact lt_of_le_of_lt hsum hshort

theorem alloc (hc : FullContract P align limit Inv) (hg : Grows P Inv limit) (hlim : limit < 2 ^ 31)
    (hm : Metered P Inv limit c ts st ids) (ht : (Op.alloc i n).Ok limit st) :
    (∃ c' ids', utilOp P c (.alloc i n) = .ok c' ∧ Metered P Inv limit c' (ts ++ [.alloc i n]) (update st i .live) ids') ∨
    utilOp P c (.alloc i n) = .error .mallocFailed := by
  obtain ⟨hst, h0, hn⟩ := ht
  obtain ⟨h', p, hok, -, hnew⟩ := hm.held.malloc hc.toContract hst h0 hn
  have hreq : utilRequest P c (.alloc i n) =
      if p = 0 then .error .mallocFailed else .ok (c.moved h' i p n (i32 (c.totalSize + n))) := by
    unfold utilRequest
    simp only [i32_natCast (show n < 2 ^ 31 by omega), sizeT_natCast (show n < 2 ^ 31 by omega), hok, Except.mapError, bind,
      Except.bind]
    rfl
  by_cases hp : p = 0
  · exact .inr (utilOp_error (hreq.trans (if_pos hp)))
  have hh := hnew hp
  have hout : i ∉ without i ids := fun hmem => (mem_without.1 hmem).2 rfl
  have hserve : (Op.alloc i n).serve (ts.foldl Op.serve []) =
      (i :: without i ids).map fun j => (j, (update c.block i ⟨p, n⟩ j).size) := by
    rw [List.map_cons, map_served hout, update_self, hm.held.without_eq_self hst, ← hm.served]
    rfl
  have hpay : payload (ts ++ [.alloc i n]) = n + payload ts := by
    rw [payload_concat]
    exact List.sum_cons
  have hlt := payload_lt hc.toContract hg hh hserve
  refine .inl ⟨_, i :: without i ids, utilOp_ok (hreq.trans (if_neg hp)),
    hm.next hc.toContract (by rwa [moved_block]) (hg.malloc hm.held.inv h0 hn hok) (by rwa [moved_block]) ?_ rfl⟩
  show i32 (c.totalSize + n) = _
  rw [hm.total, i32_eq (by omega) (by omega), hpay]
  omega

theorem realloc (hc : FullContract P align limit Inv) (hg : Grows P Inv limit) (hlim : limit < 2 ^ 31)
    (hm : Metered P Inv limit c ts st ids) (ht : (Op.realloc i n).Ok limit st) :
    (∃ c' ids', utilOp P c (.realloc i n) = .ok c' ∧
      Metered P Inv limit c' (ts ++ [.realloc i n]) ((Op.realloc i n).next st) ids') ∨
    utilOp P c (.realloc i n) = .error .reallocFailed := by
  obtain ⟨hst, hn⟩ := ht
  obtain ⟨h', p, hok, hz, hnew⟩ := hm.held.realloc hc hst hn
  have hold : (c.block i).size ≤ limit := by
    rcases hlive : st i with _ | _ | _
    · rw [hm.held.nulls i hlive]
      exact Nat.zero_le _
    · exact hm.held.sizes i ((hm.held.live i).2 hlive)
    · exact absurd hlive hst
  have hok' : P.realloc c.heap (c.blocks i) n = .ok (h', p) := hok
  have hreq : utilRequest P c (.realloc i n) = if p = 0 ∧ n ≠ 0 then .error .reallocFailed
      else .ok (c.moved h' i p n (i32 (c.totalSize + (n - (c.block i).size)))) := by
    unfold utilRequest
    have hdiff : i32 ((n : Int) - c.blockSizes i) = n - (c.block i).size := by
      unfold Meter.block at *
      exact i32_eq (by simp only at hold; omega) (by omega)
    simp only [i32_natCast (show n < 2 ^ 31 by omega), sizeT_natCast (show n < 2 ^ 31 by omega),
      i32_natCast (show c.blockSizes i < 2 ^ 31 from lt_of_le_of_lt hold hlim), hdiff, hok', Except.mapError, bind, Except.bind,
      Int.natCast_ne_zero]
    rfl
  by_cases hfail : p = 0 ∧ n ≠ 0
  · exact .inr (utilOp_error (hreq.trans (if_pos hfail)))
  obtain ⟨-, -, hh⟩ := hnew (by tauto)
  have hout : i ∉ without i ids := fun hmem => (mem_without.1 hmem).2 rfl
  have hrest : (ts.foldl Op.serve []).filter (·.1 ≠ i) = (without i ids).map fun j => (j, (update c.block i ⟨p, n⟩ j).size) := by
    rw [hm.served, filter_served, map_served hout]
  have hserve : (Op.realloc i n).serve (ts.foldl Op.serve []) =
      (if n = 0 then without i ids else i :: without i ids).map fun j => (j, (update c.block i ⟨p, n⟩ j).size) := by
    rw [serve_realloc, hrest]
    split_ifs
    · rfl
    · rw [List.map_cons, update_self]
  have hpay : payload (ts ++ [.realloc i n]) + (c.block i).size = n + payload ts := by
    have hsum := hm.held.sum_without hst
    rw [hm.sum_eq] at hsum
    rw [payload_concat, serve_realloc, hm.served, filter_served]
    split_ifs with h0
    · rw [List.map_map]
      show ((without i ids).map fun i => (c.block i).size).sum + _ = _
      omega
    · rw [List.map_cons, List.sum_cons, List.map_map]
      show n + ((without i ids).map fun i => (c.block i).size).sum + _ = _
      omega
  have hlt := payload_lt hc.toContract hg hh hserve
  refine .inl ⟨_, _, utilOp_ok (hreq.trans (if_neg hfail)),
    hm.next hc.toContract (by rw [moved_block]; exact hh) (hm.held.grows_realloc hc hg hst hn hok) (by rwa [moved_block]) ?_ rfl⟩
  · show i32 (c.totalSize + (n - (c.block i).size)) = _
    rw [hm.total, i32_eq (by omega) (by omega)]
    omega

theorem free {index : Option Nat} (hc : FullContract P align limit Inv) (hg : Grows P Inv limit) (hlim : limit < 2 ^ 31)
    (hm : Metered P Inv limit c ts st ids) (ht : (Op.free index).Ok limit st) : ∃ c' ids', utilOp P c (.free index) = .ok c' ∧
      Metered P Inv limit c' (ts ++ [.free index]) ((Op.free index).next st) ids' := by
  cases index with
  | none =>
    have hreq : utilRequest P c (.free none) = .ok { c with totalSize := i32 (c.totalSize - 0) } := by
      unfold utilRequest
      simp only [hc.free_null, Except.mapError, bind, Except.bind]
    have hserve : (Op.free none).serve (ts.foldl Op.serve []) = ids.map fun j => (j, (c.block j).size) := hm.served
    have hlt := payload_lt hc.toContract hg hm.held hserve
    have hpay : payload (ts ++ [.free none]) = payload ts := payload_concat
    refine ⟨_, ids, utilOp_ok hreq, hm.next hc.toContract hm.held ⟨rfl, le_rfl⟩ hserve ?_ rfl⟩
    show i32 (c.totalSize - 0) = _
    rw [hm.total, i32_eq (by omega) (by omega), hpay]
    omega
  | some i =>
    have hst : st i ≠ .freed := ht
    obtain ⟨h', hok, -, -, hh⟩ := hm.held.free hc hst
    have hok' : P.free c.heap (c.blocks i) = .ok h' := hok
    have hold : c.blockSizes i ≤ limit := by
      rcases hlive : st i with _ | _ | _
      · exact le_of_eq_of_le (congrArg Block.size (hm.held.nulls i hlive)) (Nat.zero_le _)
      · exact hm.held.sizes i ((hm.held.live i).2 hlive)
      · exact absurd hlive hst
    have hreq : utilRequest P c (.free (some i)) =
        .ok { c with heap := h', totalSize := i32 (c.totalSize - (c.block i).size) } := by
      unfold utilRequest
      simp only [i32_natCast (show c.blockSizes i < 2 ^ 31 by omega), hok', Except.mapError, bind, Except.bind]
      rfl
    have hserve : (Op.free (some i)).serve (ts.foldl Op.serve []) = (without i ids).map fun j => (j, (c.block j).size) := by
      rw [hm.served, ← filter_served]
      rfl
    have hlt := payload_lt hc.toContract hg hh hserve
    have hpay : payload (ts ++ [.free (some i)]) + (c.block i).size = payload ts := by
      have hsum := hm.held.sum_without hst
      rw [hm.sum_eq] at hsum
      rw [payload_concat, hserve, List.map_map]
      show ((without i ids).map fun i => (c.block i).size).sum + _ = _
      omega
    refine ⟨_, without i ids, utilOp_ok hreq, hm.next hc.toContract hh (hm.held.grows_free hc hg hst hok) hserve ?_ rfl⟩
    show i32 (c.totalSize - (c.block i).size) = _
    rw [hm.total, i32_eq (by omega) (by omega)]
    omega

/-- **The whole trace.** -/
theorem run (hc : FullContract P align limit Inv) (hg : Grows P Inv limit) (hlim : limit < 2 ^ 31)
    (hm : Metered P Inv limit c ts st ids) (hv : Valid limit st ts') :
    (∃ c' st' ids', ts'.foldlM (utilOp P) c = .ok c' ∧ Metered P Inv limit c' (ts ++ ts') st' ids') ∨
    ts'.foldlM (utilOp P) c = .error .mallocFailed ∨ ts'.foldlM (utilOp P) c = .error .reallocFailed := by
  induction ts' generalizing c ts st ids with
  | nil => exact .inl ⟨c, st, ids, rfl, by rwa [List.append_nil]⟩
  | cons t ts' ih =>
    have hstep : (∃ c' ids', utilOp P c t = .ok c' ∧ Metered P Inv limit c' (ts ++ [t]) (t.next st) ids') ∨
        utilOp P c t = .error .mallocFailed ∨ utilOp P c t = .error .reallocFailed := by
      cases t with
      | alloc i n => exact (hm.alloc hc hg hlim hv.1).imp_right .inl
      | realloc i n => exact (hm.realloc hc hg hlim hv.1).imp_right .inr
      | free index => exact .inl (hm.free hc hg hlim hv.1)
    rw [List.foldlM_cons]
    rcases hstep with ⟨c₁, ids₁, h1, hm₁⟩ | h1 | h1
    · rw [h1]
      have hih := ih hm₁ hv.2
      rw [List.append_assoc] at hih
      exact hih
    · exact .inr (.inl (by rw [h1]; rfl))
    · exact .inr (.inr (by rw [h1]; rfl))

end Metered

/-! ### The package of the repository -/

end CsappLab.Implicit
