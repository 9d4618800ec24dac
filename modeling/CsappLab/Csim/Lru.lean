import CsappLab.Lib.Lru
import CsappLab.Csim.Residency

/-!
# The simulator and least recently used replacement

The reference cache keeps for each set the list of its blocks, the most recently accessed one first, and
replaces the last one. `visitCache` follows it as long as the first line with the largest counter holds
the last block of the list whenever a set is full (`VictimOldest`).
-/

namespace CsappLab.Csim

open CInt

def block (g : Geometry) (address : BitVec 64) : Nat := address.toNat / 2 ^ g.b

/-- The reference cache: the block `n` is in the set `n % 2 ^ s`. -/
structure Ref where
  sets : Nat → List Nat
  hits : Nat
  misses : Nat
  evictions : Nat

namespace Ref

def empty : Ref := ⟨fun _ => [], 0, 0, 0⟩

def visit (g : Geometry) (r : Ref) (address : BitVec 64) : Ref × Int :=
  let n := block g address
  let i := n % 2 ^ g.s
  let sets := Function.update r.sets i (Lru.access g.E (r.sets i) n)
  if n ∈ r.sets i then ({ r with sets := sets, hits := r.hits + 1 }, 0)
  else if (r.sets i).length < g.E then ({ r with sets := sets, misses := r.misses + 1 }, 1)
  else ({ r with sets := sets, misses := r.misses + 1, evictions := r.evictions + 1 }, 2)

def simulateLine (g : Geometry) (r : Ref) (line : TraceLine) : Ref × Option Int :=
  match line.operation with
  | .instr => (r, none)
  | .store | .load => ((r.visit g line.address).1, some (r.visit g line.address).2)
  -- a modify is a load followed by a store, which hits
  | .modify =>
    let r' := (r.visit g line.address).1
    ({ r' with hits := r'.hits + 1 }, some (r.visit g line.address).2)

def simulate (g : Geometry) (r : Ref) : List TraceLine → Ref × List (Option Int)
  | [] => (r, [])
  | line :: trace =>
    let r' := (r.simulateLine g line).1
    ((r'.simulate g trace).1, (r.simulateLine g line).2 :: (r'.simulate g trace).2)

end Ref

/-- The block of set `i` with this tag. -/
def blockAt (g : Geometry) (i : Fin (2 ^ g.s)) (tag : BitVec 64) : Nat := tag.toNat * 2 ^ g.s + i

variable {g : Geometry} {st : State g} {r : Ref} {i : Fin (2 ^ g.s)} {k : Fin g.E} {t tag : BitVec 64}
  {set : CacheSet g} {address : BitVec 64} {line : TraceLine} {trace : List TraceLine} {l : List Nat}

/-- If the access misses in a full set, the first line with the largest counter, aged once more, holds the
block of the set whose last access is the oldest. -/
def VictimOldest (st : State g) (r : Ref) (address : BitVec 64) : Prop :=
  let i := setOf g address
  ¬ Resident st.cache address → (∀ k, (st.cache i k).valid = true) →
    ∀ k, Victim .lt (st.cache i) k → (r.sets i).getLast? = some (blockAt g i (st.cache i k).tag)

/-- The condition holds at every access of the trace. -/
def AlongOldest (st : State g) (r : Ref) : List TraceLine → Prop
  | [] => True
  | line :: trace => (line.operation ≠ .instr → VictimOldest st r line.address) ∧
    AlongOldest (simulateLine st line).1 (r.simulateLine g line).1 trace

/-! ### Blocks -/

theorem blockAt_inj : blockAt g i t = blockAt g i tag ↔ t = tag := by
  unfold blockAt
  rw [Nat.add_right_cancel_iff, Nat.mul_left_inj (Nat.two_pow_pos _).ne', BitVec.toNat_inj]

theorem setOf_eq (g : Geometry) (address : BitVec 64) :
    (setOf g address : Nat) = block g address % 2 ^ g.s := setIndex_toNat g address

theorem blockAt_tagOf (g : Geometry) (address : BitVec 64) :
    blockAt g (setOf g address) (tagOf g address) = block g address := by
  unfold blockAt
  rw [tagOf_toNat, setOf_eq]
  unfold block
  rw [Nat.mul_comm]
  exact Nat.div_add_mod ..

/-! ### The simulation -/

/-- The lines of a set hold the blocks of the list. -/
structure SetSim (g : Geometry) (i : Fin (2 ^ g.s)) (set : CacheSet g) (l : List Nat) : Prop where
  distinct : Distinct set
  nodup : l.Nodup
  holds : ∀ tag, blockAt g i tag ∈ l ↔ Holds set tag
  addresses : ∀ n ∈ l, ∃ address, setOf g address = i ∧ block g address = n

/-- The counters are those of the reference, as far as an `int` can hold them. -/
structure Sim (st : State g) (r : Ref) : Prop where
  sets : ∀ i, SetSim g i (st.cache i) (r.sets i)
  hits : st.hits = i32 r.hits
  misses : st.misses = i32 r.misses
  evictions : st.evictions = i32 r.evictions

theorem SetSim.mem_iff (h : SetSim g (setOf g address) set l) :
    block g address ∈ l ↔ Holds set (tagOf g address) := by
  rw [← blockAt_tagOf, h.holds]

theorem SetSim.length (h : SetSim g i set l) : l.length = validCount set := by
  have himage : l.toFinset = (Finset.univ.filter fun k => (set k).valid = true).image
      fun k => blockAt g i (set k).tag := by
    ext n
    rw [List.mem_toFinset, Finset.mem_image]
    constructor
    · intro hn
      obtain ⟨address, hset, rfl⟩ := h.addresses n hn
      rw [← blockAt_tagOf, hset, h.holds] at hn
      obtain ⟨k, hk, ht⟩ := hn
      exact ⟨k, by simpa using hk, by rw [ht, ← blockAt_tagOf, hset]⟩
    · rintro ⟨k, hk, rfl⟩
      exact (h.holds _).2 ⟨k, by simpa using hk, rfl⟩
  rw [← List.toFinset_card_of_nodup h.nodup, himage, Finset.card_image_of_injOn]
  · rfl
  · intro k hk k' hk' hkk
    refine h.distinct k k' (by simpa using hk) (by simpa using hk') ?_
    exact blockAt_inj.1 hkk

theorem SetSim.full_iff (h : SetSim g i set l) : l.length < g.E ↔ ∃ k, (set k).valid = false := by
  rw [h.length]
  unfold validCount
  constructor
  · intro hlt
    by_contra hall
    have hc : (Finset.univ.filter fun k => (set k).valid = true) = Finset.univ := by
      refine Finset.filter_true_of_mem fun k _ => ?_
      by_contra hk
      exact hall ⟨k, Bool.eq_false_iff.2 hk⟩
    rw [hc, Finset.card_univ, Fintype.card_fin] at hlt
    exact lt_irrefl _ hlt
  · rintro ⟨k, hk⟩
    have hss : (Finset.univ.filter fun k => (set k).valid = true) ⊂ Finset.univ := by
      refine Finset.filter_ssubset.2 ⟨k, Finset.mem_univ k, ?_⟩
      rw [hk]
      decide
    have := Finset.card_lt_card hss
    rwa [Finset.card_univ, Fintype.card_fin] at this

theorem Victim.unique {o : Older} {k k' : Fin g.E} (h : Victim o set k) (h' : Victim o set k') : k = k' := by
  rcases lt_trichotomy k k' with hlt | heq | hgt
  · have h1 := h.2 k' hlt
    have h2 := h'.1 k hlt
    rw [h1] at h2
    cases h2
  · exact heq
  · have h1 := h'.2 k hgt
    have h2 := h.1 k' hgt
    rw [h1] at h2
    cases h2

/-! ### One access -/

/-- **One access** of a set, if the victim is the oldest block. -/
theorem SetSim.step {set' : CacheSet g} {ret : Int} (h : SetSim g (setOf g address) set l)
    (hst : SetStep .lt set (tagOf g address) set' ret)
    (hv : ¬ Holds set (tagOf g address) → (∀ k, (set k).valid = true) → ∀ k, Victim .lt set k →
      l.getLast? = some (blockAt g (setOf g address) (set k).tag)) :
    SetSim g (setOf g address) set' (Lru.access g.E l (block g address)) := by
  have hmem : block g address ∈ l ↔ Holds set (tagOf g address) := h.mem_iff
  have hnew : ∀ t, blockAt g (setOf g address) t = block g address ↔ t = tagOf g address := by
    intro t
    rw [← blockAt_tagOf, blockAt_inj]
  refine ⟨hst.distinct h.distinct, Lru.nodup_access h.nodup, ?_, ?_⟩
  · intro t
    cases hst with
    | hit hh hs => rw [Lru.mem_access_hit (hmem.2 hh), h.holds, Holds.congr hs]
    | @fill set₁ k hno hk hs =>
      have hk' : (set₁ k).valid = false := (hs k).1.trans hk
      have hl := h.full_iff.2 ⟨k, hk⟩
      rw [Lru.mem_access_fill (fun hm => hno (hmem.1 hm)) hl, hnew, h.holds,
        holds_replace_iff (h.distinct.congr hs), Holds.congr hs, hk']
      simp
    | @evict set₁ k hno hall hs hvic =>
      have hl : ¬ l.length < g.E := by
        rw [h.full_iff]
        rintro ⟨m, hm⟩
        rw [hall m] at hm
        cases hm
      rw [Lru.mem_access_full h.nodup (fun hm => hno (hmem.1 hm)) hl, hnew, h.holds, hv hno hall k hvic,
        holds_replace_iff (h.distinct.congr hs), Holds.congr hs, (hs k).1, (hs k).2, hall k]
      simp only [Option.some.injEq, blockAt_inj, forall_const, ne_eq, eq_comm]
  · intro n hn
    have hn' : n = block g address ∨ n ∈ l := by
      unfold Lru.access at hn
      rcases List.mem_cons.1 hn with hn | hn
      · exact .inl hn
      · split_ifs at hn
        · exact .inr (List.mem_of_mem_erase hn)
        · exact .inr hn
        · exact .inr (List.mem_of_mem_dropLast hn)
    rcases hn' with rfl | hn'
    · exact ⟨address, rfl, rfl⟩
    · exact h.addresses n hn'

theorem Ref.visit_ret (r : Ref) : (r.visit g address).2 = 0 ↔
    block g address ∈ r.sets (setOf g address) := by
  unfold Ref.visit
  rw [setOf_eq]
  simp only
  split_ifs with h1 h2 <;> simp [h1]

theorem Ref.visit_sets (r : Ref) : (r.visit g address).1.sets =
    Function.update r.sets (setOf g address) (Lru.access g.E (r.sets (setOf g address)) (block g address)) := by
  unfold Ref.visit
  rw [setOf_eq]
  simp only
  split_ifs <;> rfl

/-- **One access** of the cache returns the same, and follows the reference if the victim is the oldest
block. -/
theorem Sim.visit (h : Sim st r) (address : BitVec 64) :
    (visitCache st address).2 = (r.visit g address).2 ∧
      (VictimOldest st r address → Sim (visitCache st address).1 (r.visit g address).1) := by
  obtain ⟨set', ret, hst, hvis⟩ := visit_step .lt st address
  have hset := h.sets (setOf g address)
  have hmem : block g address ∈ r.sets (setOf g address) ↔ Resident st.cache address := hset.mem_iff
  have hfull := hset.full_iff
  have hret : (r.visit g address).2 = ret ∧
      (r.visit g address).1.hits = r.hits + (if ret = 0 then 1 else 0) ∧
      (r.visit g address).1.misses = r.misses + (if ret = 0 then 0 else 1) ∧
      (r.visit g address).1.evictions = r.evictions + (if ret = 2 then 1 else 0) := by
    obtain ⟨h0, h1, h2⟩ := hst.ret_eq
    unfold Ref.visit
    simp only [← setOf_eq]
    by_cases hin : block g address ∈ r.sets (setOf g address)
    · rw [if_pos hin, h0.2 (hmem.1 hin)]
      simp
    · have hno : ¬ Holds _ _ := fun hh => hin (hmem.2 hh)
      by_cases hlen : (r.sets (setOf g address)).length < g.E
      · rw [if_neg hin, if_pos hlen, h1.2 ⟨hno, hfull.1 hlen⟩]
        simp
      · have hall : ∀ k, (st.cache (setOf g address) k).valid = true := by
          intro k
          by_contra hk
          exact hlen (hfull.2 ⟨k, Bool.eq_false_iff.2 hk⟩)
        rw [if_neg hin, if_neg hlen, h2.2 ⟨hno, hall⟩]
        simp
  obtain ⟨hr, hh, hm, he⟩ := hret
  unfold visitCache
  rw [hvis]
  refine ⟨hr.symm, fun hv => ⟨?_, ?_, ?_, ?_⟩⟩
  · intro i
    rw [Ref.visit_sets]
    by_cases hi : i = setOf g address
    · subst hi
      simp only [Function.update_self]
      exact hset.step hst hv
    · have hi' : (i : Nat) ≠ setOf g address := fun h => hi (Fin.ext h)
      rw [Function.update_of_ne hi']
      simp only [Function.update_of_ne hi]
      exact h.sets i
  · rw [hh]
    simp only
    split_ifs
    · rw [h.hits, i32_add, Nat.cast_add, Nat.cast_one]
    · exact h.hits
  · rw [hm]
    simp only
    split_ifs
    · exact h.misses
    · rw [h.misses, i32_add, Nat.cast_add, Nat.cast_one]
  · rw [he]
    simp only
    split_ifs
    · rw [h.evictions, i32_add, Nat.cast_add, Nat.cast_one]
    · exact h.evictions

/-- **A wrong victim** shows up at an access of the oldest block. -/
theorem Sim.wrong_victim (h : Sim st r) (hv : ¬ VictimOldest st r address) :
    ∃ address', Resident (visitCache st address).1.cache address' ∧
      block g address' ∉ (r.visit g address).1.sets (setOf g address') := by
  obtain ⟨set', ret, hst, hvis⟩ := visit_step .lt st address
  have hset := h.sets (setOf g address)
  simp only [VictimOldest, not_forall] at hv
  obtain ⟨hno, hall, k, hk, hlast⟩ := hv
  have hno' : block g address ∉ r.sets (setOf g address) := fun hm => hno (hset.mem_iff.1 hm)
  have hl : ¬ (r.sets (setOf g address)).length < g.E := by
    rw [hset.full_iff]
    rintro ⟨m, hm⟩
    rw [hall m] at hm
    cases hm
  obtain ⟨n, hn⟩ : ∃ n, (r.sets (setOf g address)).getLast? = some n := by
    have hnil : r.sets (setOf g address) ≠ [] := by
      intro hnil
      rw [hnil] at hl
      exact hl g.posE
    exact ⟨_, List.getLast?_eq_some_getLast hnil⟩
  have hnl : n ∈ r.sets (setOf g address) := List.mem_of_getLast? hn
  obtain ⟨address', haddr, rfl⟩ := hset.addresses n hnl
  refine ⟨address', ?_, ?_⟩
  · unfold Resident visitCache
    rw [hvis, haddr]
    simp only [Function.update_self]
    have hheld : Holds (st.cache (setOf g address)) (tagOf g address') := by
      rw [← hset.holds, ← haddr, blockAt_tagOf, haddr]
      exact hnl
    cases hst with
    | hit hh _ => exact absurd hh hno
    | @fill _ m _ hm _ =>
      rw [hall m] at hm
      cases hm
    | @evict set₁ k' _ _ hs hk' =>
      refine Holds.replace ((Holds.congr hs).2 hheld) fun _ ht => hlast ?_
      rw [hk.unique hk', ← (hs k').2, ← ht, ← haddr, blockAt_tagOf, haddr, hn]
  · rw [Ref.visit_sets, haddr, Function.update_self, Lru.mem_access_full hset.nodup hno' hl]
    rintro (heq | ⟨-, hne⟩)
    · exact hno' (heq ▸ hnl)
    · exact hne hn

/-! ### Whole traces -/

theorem Sim.simulateLine (h : Sim st r) (line : TraceLine) :
    (Csim.simulateLine st line).2 = (r.simulateLine g line).2 ∧
      ((line.operation ≠ .instr → VictimOldest st r line.address) →
        Sim (Csim.simulateLine st line).1 (r.simulateLine g line).1) := by
  obtain ⟨hret, hsim⟩ := h.visit line.address
  unfold Csim.simulateLine Ref.simulateLine
  cases line.operation with
  | instr => exact ⟨rfl, fun _ => h⟩
  | load => exact ⟨congrArg some hret, fun hv => hsim (hv (by decide))⟩
  | store => exact ⟨congrArg some hret, fun hv => hsim (hv (by decide))⟩
  | modify =>
    refine ⟨congrArg some hret, fun hv => ?_⟩
    obtain ⟨h1, h2, h3, h4⟩ := hsim (hv (by decide))
    refine ⟨h1, ?_, h3, h4⟩
    simp only
    rw [h2, i32_add, Nat.cast_add, Nat.cast_one]

theorem Sim.simulate (h : Sim st r) (ha : AlongOldest st r trace) :
    (Csim.simulate st trace).2 = (r.simulate g trace).2 ∧ Sim (Csim.simulate st trace).1 (r.simulate g trace).1 := by
  induction trace generalizing st r with
  | nil => exact ⟨rfl, h⟩
  | cons line trace ih =>
    obtain ⟨hret, hsim⟩ := h.simulateLine line
    obtain ⟨h1, h2⟩ := ih (hsim ha.1) ha.2
    exact ⟨congrArg₂ List.cons hret h1, h2⟩

theorem simulateLine_cache (st : State g) (hop : line.operation ≠ .instr) :
    (simulateLine st line).1.cache = (visitCache st line.address).1.cache := by
  unfold simulateLine
  cases hl : line.operation with
  | instr => exact absurd hl hop
  | load => rfl
  | store => rfl
  | modify => rfl

theorem Ref.simulateLine_sets (r : Ref) (hop : line.operation ≠ .instr) :
    (r.simulateLine g line).1.sets = (r.visit g line.address).1.sets := by
  unfold Ref.simulateLine
  cases hl : line.operation with
  | instr => exact absurd hl hop
  | load => rfl
  | store => rfl
  | modify => rfl

theorem Sim.differ (h : Sim st r) (ha : ¬ AlongOldest st r trace) : ∃ n address,
    (Csim.simulate st (trace.take n ++ [⟨.load, address⟩])).2 ≠
      (r.simulate g (trace.take n ++ [⟨.load, address⟩])).2 := by
  induction trace generalizing st r with
  | nil => exact absurd trivial ha
  | cons line trace ih =>
    by_cases hv : line.operation ≠ .instr → VictimOldest st r line.address
    · obtain ⟨n, address, hne⟩ := ih ((h.simulateLine line).2 hv) fun h1 => ha ⟨hv, h1⟩
      refine ⟨n + 1, address, fun heq => hne ?_⟩
      exact (List.cons.inj heq).2
    · push Not at hv
      obtain ⟨hop, hv⟩ := hv
      obtain ⟨address, hin, hout⟩ := h.wrong_victim hv
      refine ⟨1, address, fun heq => hout ?_⟩
      rw [← Ref.simulateLine_sets r hop] at hout ⊢
      rw [← simulateLine_cache st hop] at hin
      have heq' : some (visitCache (Csim.simulateLine st line).1 address).2 =
          some (((r.simulateLine g line).1).visit g address).2 := (List.cons.inj (List.cons.inj heq).2).1
      rw [← Ref.visit_ret, ← Option.some.inj heq']
      exact (visit_ok .lt _ address).hit.2 hin

theorem sim_empty (g : Geometry) : Sim (empty g) Ref.empty := by
  refine ⟨fun i => ⟨?_, List.nodup_nil, ?_, ?_⟩, rfl, rfl, rfl⟩
  · intro j k hj
    cases hj
  · intro t
    refine iff_of_false (by simp [Ref.empty]) ?_
    rintro ⟨k, hk, -⟩
    cases hk
  · intro n hn
    cases hn

def Ref.Fits (r : Ref) : Prop := r.hits < 2 ^ 31 ∧ r.misses < 2 ^ 31 ∧ r.evictions < 2 ^ 31

/-- **Least recently used.** Along a trace on which every victim is the oldest block of its set the
simulator gives the results of the reference, and its totals exactly if they fit; on any other trace some
prefix followed by one load gives different results. -/
theorem csim_lru (g : Geometry) (trace : List TraceLine) :
    (AlongOldest (empty g) Ref.empty trace →
      (simulate (empty g) trace).2 = (Ref.empty.simulate g trace).2 ∧
      ((simulate (empty g) trace).1.hits = (Ref.empty.simulate g trace).1.hits ∧
        (simulate (empty g) trace).1.misses = (Ref.empty.simulate g trace).1.misses ∧
        (simulate (empty g) trace).1.evictions = (Ref.empty.simulate g trace).1.evictions ↔
          (Ref.empty.simulate g trace).1.Fits)) ∧
    (¬ AlongOldest (empty g) Ref.empty trace → ∃ n address,
      (simulate (empty g) (trace.take n ++ [⟨.load, address⟩])).2 ≠
        (Ref.empty.simulate g (trace.take n ++ [⟨.load, address⟩])).2) := by
  refine ⟨fun ha => ?_, (sim_empty g).differ⟩
  obtain ⟨hret, hsim⟩ := (sim_empty g).simulate ha
  refine ⟨hret, ?_⟩
  unfold Ref.Fits
  rw [hsim.hits, hsim.misses, hsim.evictions, i32_natCast_iff, i32_natCast_iff, i32_natCast_iff]

/-- Two lines: the blocks 1 and 2, both accessed once more, then 3 and again 2. The hits have left both
counters at 1, so the 3 evicts the block in line 0, the more recent 2. -/
theorem hit_stops_aging : ∃ (g : Geometry) (trace : List TraceLine),
    (simulate (empty g) trace).2 ≠ (Ref.empty.simulate g trace).2 ∧
      (simulate (empty g) trace).1.misses ≠ (Ref.empty.simulate g trace).1.misses := by
  refine ⟨⟨0, 2, 0, by decide, by decide, by decide⟩, [1, 2, 1, 2, 3, 2].map fun n => ⟨.load, n⟩, ?_, ?_⟩
  · decide +kernel
  · decide +kernel

end CsappLab.Csim
