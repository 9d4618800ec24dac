import CsappLab.Implicit.Driver

/-!
# The verdict of the driver with random data

`Tracked` relates the driver to the blocks of the package: it holds a block for every allocated id, has one
range for each of them unless it ignores ranges, and finds the bytes of `random_data` in them unless it runs
without debugging. Every request of a valid trace keeps it, or ends the trace because the package has no memory.
-/

namespace CsappLab.Implicit
open ByteMem CInt Alloc Fuel Function

structure Tracked {σ ε : Type} (P : Package σ ε) (E : Setup) (Inv : σ → List Block → Prop) (limit : Nat) (c : Driver σ)
    (st : Nat → IdState) (ids : List Nat) : Prop where
  held : Held P Inv limit c.heap c.block st ids
  ranges : c.ranges = if E.ignoreRanges ∨ E.debug = .none then [] else ids.map c.range
  filled : E.debug ≠ .none → ∀ i ∈ ids, ∀ k < (c.block i).size,
    P.mem c.heap ((c.block i).ptr + k) = Driver.expected E (c.randBase i) k

variable {σ ε : Type} {P : Package σ ε} {E : Setup} {Inv : σ → List Block → Prop} {limit n i j k opnum p size base : Nat}
  {h : σ} {c c' : Driver σ} {st : Nat → IdState} {ids rest : List Nat} {t : Op} {ts : List Op}

/-! ### The checks -/

@[simp] theorem checkIndex_none : c.checkIndex P E opnum none = c := rfl

theorem checkIndex_eq (hd : E.debug ≠ .none → ∀ k < c.blockSizes i,
    P.mem c.heap (c.blocks i + k) = Driver.expected E (c.randBase i) k) :
    c.checkIndex P E opnum (some i) = c := by
  unfold Driver.checkIndex
  split_ifs with hnone
  · rfl
  · have hnil : ((List.range (c.blockSizes i)).filter fun k =>
        P.mem c.heap (c.blocks i + k) ≠ Driver.expected E (c.randBase i) k) = [] :=
      List.filter_eq_nil_iff.2 fun k hk => by simpa using hd hnone k (List.mem_range.1 hk)
    simp only
    rw [hnil]

theorem Tracked.checkIndex (hd : Tracked P E Inv limit c st ids) (hi : st i ≠ .freed) :
    c.checkIndex P E opnum (some i) = c := by
  refine checkIndex_eq fun hnone k hk => ?_
  rcases hst : st i with _ | _ | _
  · have hz : c.blockSizes i = 0 := congrArg Block.size (hd.held.nulls i hst)
    omega
  · exact hd.filled hnone i ((hd.held.live i).2 hst) k hk
  · exact absurd hst hi

theorem Tracked.checkRanges (hd : Tracked P E Inv limit c st ids) :
    c.ranges.foldl (fun c r => c.checkIndex P E opnum (some r.index)) c = c := by
  have hids : ∀ r ∈ c.ranges, st r.index ≠ .freed := by
    intro r hr
    rw [hd.ranges] at hr
    split_ifs at hr
    · cases hr
    · obtain ⟨i, hi, rfl⟩ := List.mem_map.1 hr
      rw [show (c.range i).index = i from rfl, (hd.held.live i).1 hi]
      exact nofun
  generalize c.ranges = rs at hids
  induction rs with
  | nil => rfl
  | cons r rs ih =>
    rw [List.foldl_cons, hd.checkIndex (hids r (by simp))]
    exact ih fun r hr => hids r (by simp [hr])

theorem Tracked.checks (hd : Tracked P E Inv limit c st ids) :
    (if E.debug = .expensive then c.ranges.foldl (fun c r => c.checkIndex P E opnum (some r.index)) c else c) = c := by
  rw [hd.checkRanges, ite_self]

/-! ### The range list -/

theorem removeRange_map (hc : Contract P ALIGNMENT limit Inv) (hh : Held P Inv limit h c.block st ids)
    (hi : st i ≠ .freed) : removeRange (ids.map c.range) (c.blocks i) = (without i ids).map c.range := by
  have hne : ∀ j ∈ ids, j ≠ i → c.blocks j ≠ c.blocks i := by
    intro j hj hij
    rcases hst : st i with _ | _ | _
    · have hz : c.blocks i = 0 := congrArg Block.ptr (hh.nulls i hst)
      rw [hz]
      exact (hc.nonempty hh.inv (List.mem_map_of_mem hj)).2
    · exact hh.ptr_ne hc hj ((hh.live i).2 hst) hij
    · exact absurd hst hi
  have honce := hh.once
  unfold removeRange without
  clear hh
  induction ids with
  | nil => rfl
  | cons j ids ih =>
    rw [List.forall_mem_cons] at hne
    obtain ⟨hj, honce⟩ := List.nodup_cons.1 honce
    rw [List.map_cons]
    by_cases hij : j = i
    · subst hij
      have hrest : ids.filter (· ≠ j) = ids := List.filter_eq_self.2 fun k hk => decide_eq_true fun he => hj (he ▸ hk)
      rw [List.eraseP_cons_of_pos (by simp [Driver.range]), List.filter_cons_of_neg (by simp), hrest]
    · rw [List.eraseP_cons_of_neg (by simp [Driver.range, hne.1 hij]), List.filter_cons_of_pos (by simpa using hij),
        List.map_cons, ih hne.2 honce]

/-- **A block of a correct package is accepted.** -/
theorem addRange_new (hc : Contract P ALIGNMENT limit Inv) (hlim : limit < 2 ^ 31)
    (hh : Held P Inv limit c.heap (update c.block i ⟨p, n⟩) st (i :: rest)) (h0 : 0 < n) (hn : n ≤ limit)
    (hr : c.ranges = if E.ignoreRanges ∨ E.debug = .none then [] else rest.map c.range) :
    c.addRange (ε := ε) P E p (i32 n) opnum i = .ok ({ c with
      ranges := if E.ignoreRanges ∨ E.debug = .none then [] else ⟨p, p + n - 1, i⟩ :: rest.map c.range }, true) := by
  have hout : i ∉ rest := (List.nodup_cons.1 hh.once).1
  have hinv := hh.inv
  rw [List.map_cons, update_self, map_update hout] at hinv
  have hin := hc.inside hinv List.mem_cons_self
  have hal := hc.aligned hinv List.mem_cons_self
  simp only at hin hal
  unfold Driver.addRange
  rw [i32_natCast (by omega), Int.toNat_natCast]
  simp only
  rw [if_neg (by omega), if_neg (by unfold ALIGNMENT at *; omega), if_neg (by omega)]
  split_ifs with hig
  · rw [if_pos hig] at hr
    rw [← hr]
  · rw [if_neg hig] at hr
    have hfind : c.ranges.find? (fun r => decide (p ≥ r.lo ∧ p ≤ r.hi ∨ p + n - 1 ≥ r.lo ∧ p + n - 1 ≤ r.hi)) = none := by
      rw [List.find?_eq_none, hr]
      intro r hmem
      obtain ⟨j, hj, rfl⟩ := List.mem_map.1 hmem
      have hap := List.rel_of_pairwise_cons (hc.apart hinv) (List.mem_map_of_mem (f := c.block) hj)
      have hpos := (hc.nonempty hinv (List.mem_cons_of_mem _ (List.mem_map_of_mem (f := c.block) hj))).1
      unfold Block.Apart Driver.block at hap
      unfold Driver.block at hpos
      unfold Driver.range
      simp only [decide_eq_true_eq] at *
      omega
    rw [hfind, hr]

/-! ### One request -/

/-- The driver behind a request that has moved the block of `i`. -/
def Driver.renewed (c : Driver σ) (h : σ) (ranges : List Range) (i p n : Nat) : Driver σ :=
  { c with heap := h, ranges := ranges, blocks := update c.blocks i p, blockSizes := update c.blockSizes i n }

@[simp] theorem renewed_block {ranges : List Range} :
    (c.renewed h ranges i p n).block = update c.block i ⟨p, n⟩ := by
  funext j
  rcases eq_or_ne j i with rfl | hij
  · simp [Driver.block, Driver.renewed]
  · simp [Driver.block, Driver.renewed, hij]

theorem map_range_renewed {ranges : List Range} (hi : i ∉ rest) :
    rest.map (c.renewed h ranges i p n).range = rest.map c.range := by
  refine List.map_congr_left fun j hj => ?_
  have hij : j ≠ i := fun he => hi (he ▸ hj)
  simp [Driver.range, Driver.renewed, hij]

theorem Tracked.randomizeBlock (hc : FullContract P ALIGNMENT limit Inv) (hh : Held P Inv limit c.heap c.block st ids)
    (hi : i ∈ ids ∨ c.blockSizes i = 0)
    (hr : c.ranges = if E.ignoreRanges ∨ E.debug = .none then [] else ids.map c.range)
    (hf : E.debug ≠ .none → ∀ j ∈ ids, j ≠ i → ∀ k < (c.block j).size,
      P.mem c.heap ((c.block j).ptr + k) = Driver.expected E (c.randBase j) k) :
    Tracked P E Inv limit (c.randomizeBlock P E i) st ids := by
  unfold Driver.randomizeBlock
  split_ifs with hnone
  · exact ⟨hh, hr, fun h1 => absurd hnone h1⟩
  have hout : ∀ j ∈ ids, j ≠ i → ∀ k < (c.block j).size,
      ¬ (c.blocks i ≤ (c.block j).ptr + k ∧ (c.block j).ptr + k < c.blocks i + c.blockSizes i) := by
    intro j hj hij k hk hin
    have hi : i ∈ ids := hi.resolve_right (by omega)
    have hap := hh.apart hc.toContract hi hj hij.symm
    exact hap.not_has (x := (c.block j).ptr + k) hin ⟨by omega, by omega⟩
  refine ⟨{ hh with inv := ?_ }, hr, fun _ j hj k hk => ?_⟩
  · rcases hi with hi | hz
    · exact hc.write hh.inv (List.mem_map_of_mem (f := c.block) hi) fun x hx => if_neg hx
    · have hsame : (fun x => if c.blocks i ≤ x ∧ x < c.blocks i + c.blockSizes i then
          Driver.expected E (E.random c.randoms) (x - c.blocks i) else P.mem c.heap x) = P.mem c.heap :=
        funext fun x => if_neg (by omega)
      simp only
      rw [hsame, hc.setMem_mem]
      exact hh.inv
  · change k < (c.block j).size at hk
    show P.mem (P.setMem c.heap _) ((c.block j).ptr + k) = Driver.expected E (update c.randBase i _ j) k
    rw [hc.mem_setMem]
    rcases eq_or_ne j i with rfl | hij
    · rw [update_self, if_pos (by unfold Driver.block at *; simp only at *; omega)]
      exact congrArg _ (Nat.add_sub_cancel_left _ k)
    · rw [update_of_ne hij, if_neg (hout j hj hij k hk)]
      exact hf hnone j hj hij k hk

theorem Tracked.renew {st' : Nat → IdState} {ids' : List Nat} (hc : FullContract P ALIGNMENT limit Inv)
    (hd : Tracked P E Inv limit c st ids) (hkeep : Keeps P c.heap h ((without i ids).map c.block))
    (hh : Held P Inv limit h (update c.block i ⟨p, n⟩) st' ids') (hi : i ∈ ids' ∨ n = 0)
    (hids : ∀ j ∈ ids', j ≠ i → j ∈ ids) {ranges : List Range}
    (hr : ranges = if E.ignoreRanges ∨ E.debug = .none then [] else ids'.map (c.renewed h ranges i p n).range) :
    Tracked P E Inv limit ((c.renewed h ranges i p n).randomizeBlock P E i) st' ids' := by
  refine .randomizeBlock hc (by rwa [renewed_block]) (hi.imp_right fun hz => ?_) hr fun hnone j hj hij k hk => ?_
  · simpa [Driver.renewed] using hz
  · have hmem := hids j hj hij
    rw [renewed_block, update_of_ne hij] at hk ⊢
    rw [show (c.renewed h ranges i p n).heap = h from rfl,
      hkeep (c.block j) (List.mem_map_of_mem (mem_without.2 ⟨hmem, hij⟩)) _ ⟨by omega, by omega⟩]
    exact hd.filled hnone j hmem k hk

/-- The package has returned `NULL`. -/
inductive Unserved : Op → MallocError → Prop
  | malloc {i n : Nat} : Unserved (.alloc i n) .mallocFailed
  | realloc {i n : Nat} : Unserved (.realloc i n) .reallocFailed

theorem errors_randomizeBlock : (c.randomizeBlock P E i).errors = c.errors := by
  unfold Driver.randomizeBlock
  split_ifs <;> rfl

theorem moveRegion_eq (hdata : E.debug ≠ .none → ∀ k < c.blockSizes i, k < n →
      P.mem c.heap (p + k) = Driver.expected E (c.randBase i) k) :
    c.moveRegion P E opnum i p n = (c.renewed c.heap c.ranges i p n).randomizeBlock P E i := by
  unfold Driver.moveRegion
  simp only
  rw [checkIndex_eq fun hnone k hk => ?_]
  · unfold Driver.renewed
    rw [update_idem]
  · simp only [update_self] at hk ⊢
    exact hdata hnone k (by omega) (by omega)

theorem Tracked.alloc (opnum : Nat) (hc : FullContract P ALIGNMENT limit Inv) (hlim : limit < 2 ^ 31)
    (hd : Tracked P E Inv limit c st ids) (ht : (Op.alloc i n).Ok limit st) :
    (∃ c', c.evalOp P E opnum (.alloc i n) = .ok (c', true) ∧
      Tracked P E Inv limit c' (update st i .live) (i :: without i ids) ∧ c'.errors = c.errors) ∨
    ∃ c', c.evalOp P E opnum (.alloc i n) = .ok (c', false) ∧ c'.errors = c.errors ++ [(opnum, .mallocFailed)] := by
  obtain ⟨hst, h0, hn⟩ := ht
  obtain ⟨h', p, hok, hkeep, hnew⟩ := hd.held.malloc hc.toContract hst h0 hn
  unfold Driver.evalOp
  simp only [hd.checks, hok, Except.mapError, bind, Except.bind]
  by_cases hp : p = 0
  · exact .inr ⟨_, if_pos hp, rfl⟩
  have hh := hnew hp
  have hout : i ∉ without i ids := fun hmem => (mem_without.1 hmem).2 rfl
  rw [if_neg hp, addRange_new (c := { c with heap := h' }) hc.toContract hlim hh h0 hn
    (by rw [hd.held.without_eq_self hst]; exact hd.ranges)]
  refine .inl ⟨_, rfl, hd.renew hc hkeep hh (.inl (by simp)) (fun j hj hij => ?_) ?_, ?_⟩
  · exact (mem_without.1 ((List.mem_cons.1 hj).resolve_left hij)).1
  · refine if_congr Iff.rfl rfl ?_
    rw [List.map_cons, map_range_renewed hout]
    simp [Driver.range, Driver.renewed]
  · exact errors_randomizeBlock

theorem Tracked.realloc (opnum : Nat) (hc : FullContract P ALIGNMENT limit Inv) (hlim : limit < 2 ^ 31)
    (hd : Tracked P E Inv limit c st ids) (ht : (Op.realloc i n).Ok limit st) :
    (∃ c' ids', c.evalOp P E opnum (.realloc i n) = .ok (c', true) ∧
      Tracked P E Inv limit c' ((Op.realloc i n).next st) ids' ∧ c'.errors = c.errors) ∨
    ∃ c', c.evalOp P E opnum (.realloc i n) = .ok (c', false) ∧ c'.errors = c.errors ++ [(opnum, .reallocFailed)] := by
  obtain ⟨hst, hn⟩ := ht
  obtain ⟨h', p, hok, hz, hnew⟩ := hd.held.realloc hc hst hn
  have hok : P.realloc c.heap (c.blocks i) n = .ok (h', p) := hok
  unfold Driver.evalOp
  simp only [hd.checks, hd.checkIndex hst, hok, Except.mapError, bind, Except.bind]
  by_cases hfail : p = 0 ∧ n ≠ 0
  · exact .inr ⟨_, if_pos hfail, rfl⟩
  have hnp : n = 0 ∨ p ≠ 0 := by tauto
  rw [if_neg hfail, if_neg (by tauto)]
  obtain ⟨hkeep, hdata, hh⟩ := hnew hnp
  have hranges : removeRange c.ranges (c.blocks i) =
      if E.ignoreRanges ∨ E.debug = .none then [] else (without i ids).map c.range := by
    rw [hd.ranges]
    split_ifs
    · rfl
    · exact removeRange_map hc.toContract hd.held hst
  have hout : i ∉ without i ids := fun hmem => (mem_without.1 hmem).2 rfl
  have hcopy : E.debug ≠ .none → ∀ k < c.blockSizes i, k < n →
      P.mem h' (p + k) = Driver.expected E (c.randBase i) k := by
    intro hnone k hk hkn
    rw [hdata k hk hkn]
    rcases hlive : st i with _ | _ | _
    · have hz : c.blockSizes i = 0 := congrArg Block.size (hd.held.nulls i hlive)
      omega
    · exact hd.filled hnone i ((hd.held.live i).2 hlive) k hk
    · exact absurd hlive hst
  rcases Nat.eq_zero_or_pos n with rfl | h0
  · rw [if_pos rfl, if_pos rfl] at hh
    rw [if_neg (by simp)]
    refine .inl ⟨_, without i ids, rfl, ?_, ?_⟩
    · rw [moveRegion_eq hcopy]
      refine hd.renew hc hkeep hh (.inr rfl) (fun j hj _ => (mem_without.1 hj).1) ?_
      rw [map_range_renewed hout]
      exact hranges
    · rw [moveRegion_eq hcopy]
      exact errors_randomizeBlock
  · rw [if_neg (by omega), if_neg (by omega)] at hh
    have hnext : (Op.realloc i n).next st = update st i .live := congrArg (update st i) (if_neg (by omega : ¬ n = 0))
    rw [hnext, if_pos h0, addRange_new (c := { c with heap := h', ranges := removeRange c.ranges (c.blocks i) }) hc.toContract hlim
      hh h0 hn hranges]
    refine .inl ⟨_, i :: without i ids, rfl, ?_, ?_⟩
    · rw [moveRegion_eq hcopy]
      refine hd.renew hc hkeep hh (.inl (by simp)) (fun j hj hij => ?_) ?_
      · exact (mem_without.1 ((List.mem_cons.1 hj).resolve_left hij)).1
      · refine if_congr Iff.rfl rfl ?_
        rw [List.map_cons, map_range_renewed hout]
        simp [Driver.range, Driver.renewed]
    · rw [moveRegion_eq hcopy]
      exact errors_randomizeBlock

theorem Tracked.free {index : Option Nat} (opnum : Nat) (hc : FullContract P ALIGNMENT limit Inv) (hd : Tracked P E Inv limit c st ids)
    (ht : (Op.free index).Ok limit st) : ∃ c' ids', c.evalOp P E opnum (.free index) = .ok (c', true) ∧
      Tracked P E Inv limit c' ((Op.free index).next st) ids' ∧ c'.errors = c.errors := by
  unfold Driver.evalOp
  cases index with
  | none =>
    simp only [hd.checks, checkIndex_none, hc.free_null, Except.mapError, bind, Except.bind]
    exact ⟨_, ids, rfl, hd, rfl⟩
  | some i =>
    have ht : st i ≠ .freed := ht
    obtain ⟨h', hok, hkeep, -, hh⟩ := hd.held.free hc ht
    have hok : P.free c.heap (c.blocks i) = .ok h' := hok
    simp only [hd.checks, hd.checkIndex ht, hok, Except.mapError, bind, Except.bind]
    refine ⟨_, without i ids, rfl, ⟨hh, ?_, fun hnone j hj k hk => ?_⟩, rfl⟩
    · simp only
      rw [hd.ranges]
      split_ifs
      · rfl
      · exact removeRange_map hc.toContract hd.held ht
    · have hmem := (mem_without.1 hj).1
      exact (hkeep _ (List.mem_map_of_mem (f := c.block) hj) _ ⟨by simp [Driver.block], by simpa [Driver.block] using hk⟩).trans
        (hd.filled hnone j hmem k hk)

/-- **One request** of a valid trace. -/
theorem Tracked.step (opnum : Nat) (hc : FullContract P ALIGNMENT limit Inv) (hlim : limit < 2 ^ 31)
    (hd : Tracked P E Inv limit c st ids) (ht : t.Ok limit st) :
    (∃ c' ids', c.evalOp P E opnum t = .ok (c', true) ∧ Tracked P E Inv limit c' (t.next st) ids' ∧
      c'.errors = c.errors) ∨
    ∃ c' e, c.evalOp P E opnum t = .ok (c', false) ∧ c'.errors = c.errors ++ [(opnum, e)] ∧ Unserved t e := by
  cases t with
  | alloc i n =>
    rcases hd.alloc opnum hc hlim ht with ⟨c', h1, h2, h3⟩ | ⟨c', h1, h2⟩
    · exact .inl ⟨c', _, h1, h2, h3⟩
    · exact .inr ⟨c', _, h1, h2, .malloc⟩
  | realloc i n =>
    rcases hd.realloc opnum hc hlim ht with h1 | ⟨c', h1, h2⟩
    · exact .inl h1
    · exact .inr ⟨c', _, h1, h2, .realloc⟩
  | free index => exact .inl (hd.free opnum hc ht)

/-- **The whole trace**, from request `k` on. -/
theorem Tracked.run (hc : FullContract P ALIGNMENT limit Inv) (hlim : limit < 2 ^ 31)
    (hd : Tracked P E Inv limit c st ids) (hv : Valid limit st ts) :
    (∃ c' ids', Driver.evalOps P E k c ts = .ok (c', true) ∧ Tracked P E Inv limit c' (ts.foldl Op.next st) ids' ∧
      c'.errors = c.errors) ∨
    ∃ c' j t e, Driver.evalOps P E k c ts = .ok (c', false) ∧ ts[j]? = some t ∧
      c'.errors = c.errors ++ [(k + j, e)] ∧ Unserved t e := by
  induction ts generalizing k c st ids with
  | nil => exact .inl ⟨c, ids, rfl, hd, rfl⟩
  | cons t ts ih =>
    rw [Driver.evalOps]
    rcases hd.step k hc hlim hv.1 with ⟨c₁, ids₁, h1, hd₁, he⟩ | ⟨c₁, e, h1, he, hun⟩
    · rw [h1]
      rcases ih hd₁ hv.2 (k := k + 1) with ⟨c', ids', h2, hd', he'⟩ | ⟨c', j, u, e, h2, hu, he', hun⟩
      · exact .inl ⟨c', ids', h2, hd', he'.trans he⟩
      · refine .inr ⟨c', j + 1, u, e, h2, by simpa using hu, ?_, hun⟩
        rw [he', he, Nat.add_assoc, Nat.add_comm 1 j]
    · rw [h1]
      exact .inr ⟨c₁, 0, t, e, rfl, rfl, he, hun⟩

end CsappLab.Implicit
