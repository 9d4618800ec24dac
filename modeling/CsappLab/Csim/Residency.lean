import CsappLab.Csim.Scan
import CsappLab.Lib.Sums

/-!
# Residency and accounting

The valid lines of a set always have different tags, so a call finds a block if and only if one line
holds it; as long as they do not overflow, the counters then count the calls and the valid lines.
-/

namespace CsappLab.Csim

open CInt

variable {g : Geometry} {o : Older} {tag t : BitVec 64} {set set' : CacheSet g} {ret : Int}
  {i j k : Fin g.E} {st : State g} {address address' : BitVec 64}

def Distinct (set : CacheSet g) : Prop :=
  ∀ i j, (set i).valid = true → (set j).valid = true → (set i).tag = (set j).tag → i = j

def validCount (set : CacheSet g) : Nat := (Finset.univ.filter fun i => (set i).valid = true).card

def totalValid (cache : Cache g) : Nat := ∑ i, validCount (cache i)

def Resident (cache : Cache g) (address : BitVec 64) : Prop :=
  Holds (cache (setOf g address)) (tagOf g address)

/-! ### One set -/

theorem Distinct.congr (h : SameTags set set') (hd : Distinct set) : Distinct set' := by
  intro i j hi hj hij
  rw [(h i).1] at hi
  rw [(h j).1] at hj
  rw [(h i).2, (h j).2] at hij
  exact hd i j hi hj hij

theorem Distinct.replace (hd : Distinct set) (hno : ¬ Holds set tag) :
    Distinct (Function.update set k ⟨true, 1, tag⟩) := by
  intro i j hi hj hij
  by_cases hik : i = k <;> by_cases hjk : j = k
  · rw [hik, hjk]
  · rw [hik, Function.update_self, Function.update_of_ne hjk] at hij
    rw [Function.update_of_ne hjk] at hj
    exact absurd ⟨j, hj, hij.symm⟩ hno
  · rw [hjk, Function.update_self, Function.update_of_ne hik] at hij
    rw [Function.update_of_ne hik] at hi
    exact absurd ⟨i, hi, hij⟩ hno
  · rw [Function.update_of_ne hik] at hi hij
    rw [Function.update_of_ne hjk] at hj hij
    exact hd i j hi hj hij

theorem holds_replace : Holds (Function.update set k ⟨true, 1, tag⟩) tag :=
  ⟨k, by rw [Function.update_self], by rw [Function.update_self]⟩

theorem Holds.of_replace (h : Holds (Function.update set k ⟨true, 1, tag⟩) t) : t = tag ∨ Holds set t := by
  obtain ⟨i, hi, ht⟩ := h
  by_cases hik : i = k
  · rw [hik, Function.update_self] at ht
    exact .inl ht.symm
  · rw [Function.update_of_ne hik] at hi ht
    exact .inr ⟨i, hi, ht⟩

theorem Holds.replace (h : Holds set t) (hk : (set k).valid = true → t ≠ (set k).tag) :
    Holds (Function.update set k ⟨true, 1, tag⟩) t := by
  obtain ⟨i, hi, ht⟩ := h
  have hik : i ≠ k := by
    rintro rfl
    exact hk hi ht.symm
  exact ⟨i, by rwa [Function.update_of_ne hik], by rwa [Function.update_of_ne hik]⟩

theorem holds_replace_iff (hd : Distinct set) : Holds (Function.update set k ⟨true, 1, tag⟩) t ↔
    t = tag ∨ Holds set t ∧ ((set k).valid = true → t ≠ (set k).tag) := by
  constructor
  · rintro ⟨m, hm, ht⟩
    by_cases hmk : m = k
    · rw [hmk, Function.update_self] at ht
      exact .inl ht.symm
    · rw [Function.update_of_ne hmk] at hm ht
      refine .inr ⟨⟨m, hm, ht⟩, fun hk hkt => hmk ?_⟩
      exact hd m k hm hk (ht.trans hkt)
  · rintro (rfl | ⟨h, hk⟩)
    · exact holds_replace
    · exact h.replace hk

theorem validCount_congr (h : SameTags set set') : validCount set' = validCount set := by
  unfold validCount
  simp only [(h _).1]

theorem validCount_replace : validCount (Function.update set k ⟨true, 1, tag⟩) =
    validCount set + if (set k).valid then 0 else 1 := by
  unfold validCount
  have hfilter : (Finset.univ.filter fun i => (Function.update set k ⟨true, 1, tag⟩ i).valid = true) =
      insert k (Finset.univ.filter fun i => (set i).valid = true) := by
    ext i
    by_cases hik : i = k
    · simp [hik]
    · simp [hik]
  rw [hfilter]
  by_cases hk : (set k).valid = true
  · rw [Finset.insert_eq_of_mem (by simp [hk]), if_pos hk, Nat.add_zero]
  · rw [Finset.card_insert_of_notMem (by simp [hk]), if_neg hk]

namespace SetStep

theorem distinct (h : SetStep o set tag set' ret) (hd : Distinct set) : Distinct set' := by
  cases h with
  | hit _ hs => exact hd.congr hs
  | fill hno _ hs => exact (hd.congr hs).replace (by rwa [Holds.congr hs])
  | evict hno _ hs _ => exact (hd.congr hs).replace (by rwa [Holds.congr hs])

theorem holds (h : SetStep o set tag set' ret) : Holds set' tag := by
  cases h with
  | hit hh hs => rwa [Holds.congr hs]
  | fill => exact holds_replace
  | evict => exact holds_replace

theorem enters (h : SetStep o set tag set' ret) (ht : Holds set' t) : t = tag ∨ Holds set t := by
  cases h with
  | hit _ hs => exact .inr ((Holds.congr hs).1 ht)
  | fill _ _ hs => exact ht.of_replace.imp_right (Holds.congr hs).1
  | evict _ _ hs _ => exact ht.of_replace.imp_right (Holds.congr hs).1

theorem leaves (h : SetStep o set tag set' ret) : ∃ t₀, ∀ t, t ≠ t₀ → Holds set t → Holds set' t := by
  cases h with
  | hit _ hs => exact ⟨tag, fun t _ ht => (Holds.congr hs).2 ht⟩
  | @fill set₁ k _ hk hs =>
    refine ⟨tag, fun t _ ht => ((Holds.congr hs).2 ht).replace fun hv => ?_⟩
    rw [(hs k).1, hk] at hv
    cases hv
  | @evict set₁ k _ _ hs _ => exact ⟨(set₁ k).tag, fun t hne ht => ((Holds.congr hs).2 ht).replace fun _ => hne⟩

theorem ret_eq (h : SetStep o set tag set' ret) :
    (ret = 0 ↔ Holds set tag) ∧ (ret = 1 ↔ ¬ Holds set tag ∧ ∃ i, (set i).valid = false) ∧
      (ret = 2 ↔ ¬ Holds set tag ∧ ∀ i, (set i).valid = true) := by
  cases h with
  | hit hh _ => simp [hh]
  | @fill _ k hno hk _ =>
    have hn : ¬ ∀ i, (set i).valid = true := by
      intro h
      rw [h k] at hk
      cases hk
    have he : ∃ i, (set i).valid = false := ⟨k, hk⟩
    simp [hno, he, hn]
  | evict hno hall _ _ => simp [hno, hall]

theorem count (h : SetStep o set tag set' ret) :
    validCount set' = validCount set + if ret = 1 then 1 else 0 := by
  cases h with
  | hit _ hs => simp [validCount_congr hs]
  | @fill _ k _ hk hs =>
    rw [validCount_replace, validCount_congr hs, (hs k).1, hk]
    rfl
  | @evict _ k _ hall hs _ =>
    rw [validCount_replace, validCount_congr hs, (hs k).1, hall k]
    rfl

end SetStep

/-! ### Addresses -/

theorem tagOf_toNat (g : Geometry) (address : BitVec 64) :
    (tagOf g address).toNat = address.toNat / 2 ^ g.b / 2 ^ g.s := by
  unfold tagOf
  rw [BitVec.toNat_ushiftRight, Nat.shiftRight_eq_div_pow, Nat.div_div_eq_div_mul, ← Nat.pow_add,
    Nat.add_comm]

theorem sameBlock_iff : setOf g address = setOf g address' ∧ tagOf g address = tagOf g address' ↔
    address >>> g.b = address' >>> g.b := by
  rw [Fin.ext_iff, ← BitVec.toNat_inj, ← BitVec.toNat_inj, tagOf_toNat, tagOf_toNat,
    BitVec.toNat_ushiftRight, BitVec.toNat_ushiftRight, Nat.shiftRight_eq_div_pow, Nat.shiftRight_eq_div_pow]
  simp only [setOf, setIndex_toNat]
  constructor
  · rintro ⟨h1, h2⟩
    rw [← Nat.div_add_mod (address.toNat / 2 ^ g.b) (2 ^ g.s), h1, h2, Nat.div_add_mod]
  · intro h
    rw [h]
    exact ⟨rfl, rfl⟩

/-! ### One call -/

/-- What a call on `address` returns and does. -/
structure CallOk (st : State g) (address : BitVec 64) (st' : State g) (ret : Int) : Prop where
  hit : ret = 0 ↔ Resident st.cache address
  fill : ret = 1 ↔ ¬ Resident st.cache address ∧ ∃ i, (st.cache (setOf g address) i).valid = false
  evict : ret = 2 ↔ ¬ Resident st.cache address ∧ ∀ i, (st.cache (setOf g address) i).valid = true
  resident : Resident st'.cache address
  enters : ∀ t, Holds (st'.cache (setOf g address)) t →
    t = tagOf g address ∨ Holds (st.cache (setOf g address)) t
  -- at most one block leaves the set
  leaves : ∃ t₀, ∀ t, t ≠ t₀ → Holds (st.cache (setOf g address)) t → Holds (st'.cache (setOf g address)) t
  others : ∀ i, i ≠ setOf g address → st'.cache i = st.cache i

def Inv (st : State g) : Prop := ∀ i, Distinct (st.cache i)

/-- No counter is negative, which it becomes when it overflows. -/
structure Counting (st : State g) : Prop where
  hits : 0 ≤ st.hits
  misses : 0 ≤ st.misses
  evictions : 0 ≤ st.evictions

/-- The counters after `n` accesses. -/
structure Accounted (n : Nat) (st : State g) : Prop where
  fits : st.hits < 2 ^ 31 ∧ st.misses < 2 ^ 31 ∧ st.evictions < 2 ^ 31
  calls : st.hits + st.misses = n
  valid : st.evictions = st.misses - totalValid st.cache

theorem visit_ok (o : Older) (st : State g) (address : BitVec 64) :
    CallOk st address (visit o st address).1 (visit o st address).2 := by
  obtain ⟨set', ret, hstep, hv⟩ := visit_step o st address
  obtain ⟨h0, h1, h2⟩ := hstep.ret_eq
  rw [hv]
  refine ⟨h0, h1, h2, ?_, ?_, ?_, fun i hi => Function.update_of_ne hi ..⟩
  · simp only [Resident, Function.update_self]
    exact hstep.holds
  · intro t ht
    simp only [Function.update_self] at ht
    exact hstep.enters ht
  · simp only [Function.update_self]
    exact hstep.leaves

theorem Inv.visit (h : Inv st) (o : Older) (address : BitVec 64) : Inv (visit o st address).1 := by
  obtain ⟨set', ret, hstep, hv⟩ := visit_step o st address
  rw [hv]
  intro i
  by_cases hi : i = setOf g address
  · subst hi
    simp only [Function.update_self]
    exact hstep.distinct (h _)
  · simp only [Function.update_of_ne hi]
    exact h i

/-- **One call** is counted, unless a counter overflows. -/
theorem Accounted.visit {n : Nat} (h : Accounted n st) (hc : Counting st) (address : BitVec 64)
    (hc' : Counting (visitCache st address).1) : Accounted (n + 1) (visitCache st address).1 := by
  obtain ⟨set', ret, hstep, hv⟩ := visit_step .lt st address
  have htotal : totalValid (Function.update st.cache (setOf g address) set') +
      validCount (st.cache (setOf g address)) = totalValid st.cache + validCount set' :=
    sum_update validCount _ _ _
  rw [hstep.count] at htotal
  obtain ⟨⟨hh, hm, he⟩, hcalls, hvalid⟩ := h
  obtain ⟨h1, h2, h3⟩ := hc
  have hst : (visitCache st address).1 = _ := congrArg Prod.fst hv
  rw [hst] at hc' ⊢
  obtain ⟨h1', h2', h3'⟩ := hc'
  cases hstep with
  | hit =>
    simp only [↓reduceIte, zero_ne_one, add_zero, Nat.add_right_cancel_iff, OfNat.zero_ne_ofNat] at h1' htotal ⊢
    have e1 := i32_succ h1 hh h1'
    have r1 := (i32_range (st.hits + 1)).2
    refine ⟨⟨r1, hm, he⟩, ?_, ?_⟩
    · simp only; omega
    · simp only; omega
  | fill =>
    simp only [one_ne_zero, ↓reduceIte, OfNat.one_ne_ofNat] at h2' htotal ⊢
    have e2 := i32_succ h2 hm h2'
    have r2 := (i32_range (st.misses + 1)).2
    refine ⟨⟨hh, r2, he⟩, ?_, ?_⟩
    · simp only; omega
    · simp only; omega
  | evict =>
    simp only [OfNat.ofNat_ne_zero, ↓reduceIte, OfNat.ofNat_ne_one, add_zero,
      Nat.add_right_cancel_iff] at h2' h3' htotal ⊢
    have e2 := i32_succ h2 hm h2'
    have e3 := i32_succ h3 he h3'
    have r2 := (i32_range (st.misses + 1)).2
    have r3 := (i32_range (st.evictions + 1)).2
    refine ⟨⟨hh, r2, r3⟩, ?_, ?_⟩
    · simp only; omega
    · simp only; omega

/-- Below `2 ^ 31` calls no counter overflows. -/
theorem Counting.visit {n : Nat} (hc : Counting st) (h : Accounted n st) (hn : n + 1 < 2 ^ 31) (address : BitVec 64) :
    Counting (visitCache st address).1 := by
  obtain ⟨set', ret, -, hv⟩ := visit_step .lt st address
  obtain ⟨-, hcalls, hvalid⟩ := h
  obtain ⟨h1, h2, h3⟩ := hc
  have hinc (x : Int) (h0 : 0 ≤ x) (hx : x ≤ n) : 0 ≤ i32 (x + 1) := by
    rw [i32_eq (by omega) (by omega)]
    omega
  have hst : (visitCache st address).1 = _ := congrArg Prod.fst hv
  rw [hst]
  refine ⟨?_, ?_, ?_⟩
  · simp only
    split_ifs
    · exact hinc _ h1 (by omega)
    · exact h1
  · simp only
    split_ifs
    · exact h2
    · exact hinc _ h2 (by omega)
  · simp only
    split_ifs
    · exact hinc _ h3 (by omega)
    · exact h3

theorem Accounted.hit {n : Nat} (h : Accounted n st) (hc : 0 ≤ st.hits) (hc' : 0 ≤ i32 (st.hits + 1)) :
    Accounted (n + 1) { st with hits := i32 (st.hits + 1) } := by
  obtain ⟨⟨hh, hm, he⟩, hcalls, hvalid⟩ := h
  have e1 := i32_succ hc hh hc'
  have r1 := (i32_range (st.hits + 1)).2
  refine ⟨⟨r1, hm, he⟩, ?_, hvalid⟩
  simp only
  omega

theorem Counting.of_hit {n : Nat} (h : Accounted n st) (hc : Counting st)
    (hc' : Counting { (visitCache st address).1 with hits := i32 ((visitCache st address).1.hits + 1) }) :
    Counting (visitCache st address).1 := by
  obtain ⟨set', ret, -, hv⟩ := visit_step .lt st address
  have hst : (visitCache st address).1 = _ := congrArg Prod.fst hv
  refine ⟨?_, hc'.misses, hc'.evictions⟩
  have hfinal := hc'.hits
  rw [hst] at hfinal ⊢
  simp only at hfinal ⊢
  have h0 := hc.hits
  have h1 := h.fits.1
  split_ifs at hfinal ⊢
  · rw [i32_add] at hfinal
    have hsum := i32_of_nonneg (by omega) (by omega) hfinal
    have hlt := (i32_range (st.hits + 1 + 1)).2
    rw [i32_eq (by omega) (by omega)]
    omega
  · exact h0

/-! ### Runs -/

def visits (st : State g) (addresses : List (BitVec 64)) : State g :=
  addresses.foldl (fun st address => (visitCache st address).1) st

theorem Inv.visits (h : Inv st) (addresses : List (BitVec 64)) : Inv (visits st addresses) := by
  induction addresses generalizing st with
  | nil => exact h
  | cons address addresses ih => exact ih (h.visit .lt address)

theorem Accounted.visits {n : Nat} {addresses : List (BitVec 64)} (h : Accounted n st)
    (hc : ∀ m, Counting (Csim.visits st (addresses.take m))) :
    Accounted (n + addresses.length) (Csim.visits st addresses) := by
  induction addresses generalizing st n with
  | nil => exact h
  | cons address addresses ih =>
    have hrest := ih (h.visit (hc 0) address (hc 1)) fun m => hc (m + 1)
    rwa [List.length_cons, Nat.add_comm addresses.length, ← Nat.add_assoc]

theorem Counting.visits {n : Nat} {addresses : List (BitVec 64)} (hc : Counting st) (h : Accounted n st)
    (hn : n + addresses.length < 2 ^ 31) (m : Nat) : Counting (Csim.visits st (addresses.take m)) := by
  induction addresses generalizing st n m with
  | nil => rwa [List.take_nil]
  | cons address addresses ih =>
    cases m with
    | zero => exact hc
    | succ m =>
      rw [List.length_cons] at hn
      have hc' := hc.visit h (by omega) address
      exact ih hc' (h.visit hc address hc') (by omega) m

theorem inv_empty (g : Geometry) : Inv (empty g) := by
  intro i j k hj
  cases hj

theorem accounted_empty (g : Geometry) : Accounted 0 (empty g) := by
  have hzero : (0 : Int) < 2 ^ 31 := by decide
  refine ⟨⟨hzero, hzero, hzero⟩, rfl, ?_⟩
  simp [empty, totalValid, validCount]

theorem counting_empty (g : Geometry) : Counting (empty g) := ⟨le_rfl, le_rfl, le_rfl⟩

/-- The accesses of a trace line: a modify is a load followed by a store. -/
def Operation.accesses : Operation → Nat
  | .instr => 0
  | .load | .store => 1
  | .modify => 2

theorem Accounted.simulateLine {n : Nat} {line : TraceLine} (h : Accounted n st) (hc : Counting st)
    (hc' : Counting (simulateLine st line).1) :
    Accounted (n + line.operation.accesses) (simulateLine st line).1 := by
  unfold Csim.simulateLine at hc' ⊢
  cases hop : line.operation with
  | instr => exact h
  | load =>
    rw [hop] at hc'
    exact h.visit hc _ hc'
  | store =>
    rw [hop] at hc'
    exact h.visit hc _ hc'
  | modify =>
    rw [hop] at hc'
    have hmid := Counting.of_hit h hc hc'
    exact (h.visit hc _ hmid).hit hmid.hits hc'.hits

def countOp (op : Operation) (trace : List TraceLine) : Nat := trace.countP fun line => line.operation = op

theorem countOp_cons (line : TraceLine) (trace : List TraceLine) :
    countOp .load (line :: trace) + countOp .store (line :: trace) + 2 * countOp .modify (line :: trace) =
      line.operation.accesses + (countOp .load trace + countOp .store trace + 2 * countOp .modify trace) := by
  unfold countOp Operation.accesses
  cases hop : line.operation <;> simp [hop] <;> omega

theorem Accounted.simulate {n : Nat} {trace : List TraceLine} (h : Accounted n st)
    (hc : ∀ m, Counting (Csim.simulate st (trace.take m)).1) :
    Accounted (n + (countOp .load trace + countOp .store trace + 2 * countOp .modify trace))
      (Csim.simulate st trace).1 := by
  induction trace generalizing st n with
  | nil => exact h
  | cons line trace ih =>
    have hrest := ih (h.simulateLine (hc 0) (hc 1)) fun m => hc (m + 1)
    rwa [countOp_cons, ← Nat.add_assoc]

theorem Counting.simulateLine {n : Nat} {line : TraceLine} (hc : Counting st) (h : Accounted n st)
    (hn : n + line.operation.accesses < 2 ^ 31) : Counting (simulateLine st line).1 := by
  unfold Csim.simulateLine
  cases hop : line.operation with
  | instr => exact hc
  | load =>
    rw [hop, Operation.accesses] at hn
    exact hc.visit h hn _
  | store =>
    rw [hop, Operation.accesses] at hn
    exact hc.visit h hn _
  | modify =>
    rw [hop, Operation.accesses] at hn
    have hmid := hc.visit h (by omega) line.address
    have hcalls := (h.visit hc _ hmid).calls
    have hhits := hmid.hits
    have hmisses := hmid.misses
    refine ⟨?_, hmisses, hmid.evictions⟩
    simp only
    rw [i32_eq (by omega) (by omega)]
    omega

theorem Counting.simulate {n : Nat} {trace : List TraceLine} (hc : Counting st) (h : Accounted n st)
    (hn : n + (countOp .load trace + countOp .store trace + 2 * countOp .modify trace) < 2 ^ 31) (m : Nat) :
    Counting (Csim.simulate st (trace.take m)).1 := by
  induction trace generalizing st n m with
  | nil => rwa [List.take_nil]
  | cons line trace ih =>
    cases m with
    | zero => exact hc
    | succ m =>
      rw [countOp_cons] at hn
      have hc' : Counting (Csim.simulateLine st line).1 := hc.simulateLine h (by omega)
      exact ih hc' (h.simulateLine hc hc') (by omega) m

/-- **Residency and accounting**, where the counters do not overflow. -/
theorem residency (g : Geometry) (addresses : List (BitVec 64)) (trace : List TraceLine) :
    let st := visits (empty g) addresses
    (∀ i, Distinct (st.cache i) ∧ validCount (st.cache i) ≤ g.E) ∧
    (∀ address address', setOf g address = setOf g address' ∧ tagOf g address = tagOf g address' ↔
      address >>> g.b = address' >>> g.b) ∧
    (∀ address, CallOk st address (visitCache st address).1 (visitCache st address).2) ∧
    ((∀ n, Counting (visits (empty g) (addresses.take n))) →
      st.hits + st.misses = addresses.length ∧ st.evictions = st.misses - totalValid st.cache) ∧
    ((∀ n, Counting (simulate (empty g) (trace.take n)).1) →
      (simulate (empty g) trace).1.hits + (simulate (empty g) trace).1.misses =
        countOp .load trace + countOp .store trace + 2 * countOp .modify trace) := by
  intro st
  have hinv : Inv st := (inv_empty g).visits addresses
  refine ⟨fun i => ⟨hinv i, ?_⟩, fun _ _ => sameBlock_iff, visit_ok .lt st, fun hc => ?_, fun hc => ?_⟩
  · exact (Finset.card_le_univ _).trans (by simp)
  · have h := (accounted_empty g).visits hc
    rw [Nat.zero_add] at h
    exact ⟨h.calls, h.valid⟩
  · have h := (accounted_empty g).simulate hc
    rw [Nat.zero_add] at h
    exact_mod_cast h.calls

theorem residency_evicted : ∃ g : Geometry, (visits (empty g) [1, 2, 1, 3]).evictions = 1 ∧
    (visits (empty g) [1, 2, 1, 3]).misses - totalValid (visits (empty g) [1, 2, 1, 3]).cache = 1 ∧
    (simulate (empty g) [⟨.modify, 1⟩, ⟨.load, 2⟩]).1.hits + (simulate (empty g) [⟨.modify, 1⟩, ⟨.load, 2⟩]).1.misses =
      3 := by
  let g : Geometry := ⟨0, 2, 0, by decide, by decide, by decide⟩
  obtain ⟨-, -, -, hvisits, hsimulate⟩ := residency g [1, 2, 1, 3] [⟨.modify, 1⟩, ⟨.load, 2⟩]
  have hev : (visits (empty g) [1, 2, 1, 3]).evictions = 1 := by decide +kernel
  refine ⟨g, hev, ?_, hsimulate ?_⟩
  · rw [← hev]
    exact (hvisits ((counting_empty g).visits (accounted_empty g) (by decide))).2.symm
  · exact (counting_empty g).simulate (accounted_empty g) (by decide)

end CsappLab.Csim
