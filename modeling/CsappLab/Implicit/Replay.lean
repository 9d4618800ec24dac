import CsappLab.Lib.Arrays

/-!
# Replaying a trace

The requests of a trace name their blocks by ids, and the driver keeps a pointer and a size for every id. At
first an id stands for `NULL`; a freed id is left alone until it is allocated again (`Valid`). `Held` relates
the arrays of the driver to the blocks that the package has handed out.
-/

namespace CsappLab.Implicit
open Alloc Function

/-- `traceop_t`; the index `-1` of a free is `none`. -/
inductive Op
  | alloc (index size : Nat)
  | realloc (index size : Nat)
  | free (index : Option Nat)
deriving DecidableEq

inductive IdState
  | null
  | live
  | freed
deriving DecidableEq

def Op.next (st : Nat → IdState) : Op → Nat → IdState
  | .alloc i _ => update st i .live
  | .realloc i n => update st i (if n = 0 then .null else .live)
  | .free (some i) => update st i (if st i = .null then .null else .freed)
  | .free none => st

def Op.Ok (limit : Nat) (st : Nat → IdState) : Op → Prop
  | .alloc i n => st i ≠ .live ∧ 0 < n ∧ n ≤ limit
  | .realloc i n => st i ≠ .freed ∧ n ≤ limit
  | .free (some i) => st i ≠ .freed
  | .free none => True

def Valid (limit : Nat) : (Nat → IdState) → List Op → Prop
  | _, [] => True
  | st, t :: ts => t.Ok limit st ∧ Valid limit (t.next st) ts

def without (i : Nat) (ids : List Nat) : List Nat := ids.filter (· ≠ i)

/-- The blocks of the ids are the live blocks of the package. -/
structure Held {σ ε : Type} (P : Package σ ε) (Inv : σ → List Block → Prop) (limit : Nat) (h : σ) (block : Nat → Block)
    (st : Nat → IdState) (ids : List Nat) : Prop where
  inv : Inv h (ids.map block)
  live : ∀ i, i ∈ ids ↔ st i = .live
  once : ids.Nodup
  nulls : ∀ i, st i = .null → block i = ⟨0, 0⟩
  sizes : ∀ i ∈ ids, (block i).size ≤ limit

variable {σ ε : Type} {P : Package σ ε} {Inv : σ → List Block → Prop} {align limit n i j p : Nat} {h h' : σ}
  {block : Nat → Block} {st : Nat → IdState} {ids : List Nat} {b : Block}

theorem mem_without : j ∈ without i ids ↔ j ∈ ids ∧ j ≠ i := by
  simp [without]

theorem map_update (hi : i ∉ ids) : ids.map (update block i b) = ids.map block :=
  List.map_congr_left fun j hj => update_of_ne (show j ≠ i from fun he => hi (he ▸ hj)) _ _

namespace Held

theorem start (hi : Inv h []) : Held P Inv limit h (fun _ => ⟨0, 0⟩) (fun _ => .null) [] :=
  ⟨hi, by simp, .nil, fun _ _ => rfl, by simp⟩

theorem mem (hh : Held P Inv limit h block st ids) (hi : st i = .live) : block i ∈ ids.map block :=
  List.mem_map_of_mem ((hh.live i).2 hi)

theorem apart (hc : Contract P align limit Inv) (hh : Held P Inv limit h block st ids) (hi : i ∈ ids) (hj : j ∈ ids)
    (hij : i ≠ j) : (block i).Apart (block j) := by
  have hp : ids.Pairwise fun i j => (block i).Apart (block j) := List.pairwise_map.1 (hc.apart hh.inv)
  have hsymm : Std.Symm fun i j => (block i).Apart (block j) := ⟨fun _ _ => Block.Apart.symm⟩
  exact hp.forall hi hj hij

theorem ptr_ne (hc : Contract P align limit Inv) (hh : Held P Inv limit h block st ids) (hi : i ∈ ids) (hj : j ∈ ids)
    (hij : i ≠ j) : (block i).ptr ≠ (block j).ptr := by
  intro he
  have hap := hh.apart hc hi hj hij
  have h1 := (hc.nonempty hh.inv (List.mem_map_of_mem hi)).1
  have h2 := (hc.nonempty hh.inv (List.mem_map_of_mem hj)).1
  unfold Block.Apart at hap
  omega

theorem dropPtr_eq (hc : Contract P align limit Inv) (hh : Held P Inv limit h block st ids) (hi : i ∈ ids) :
    dropPtr (block i).ptr (ids.map block) = (without i ids).map block := by
  unfold dropPtr without
  rw [List.filter_map]
  refine congrArg _ (List.filter_congr fun j hj => ?_)
  rcases eq_or_ne j i with rfl | hij
  · simp
  · simpa [hij] using hh.ptr_ne hc hj hi hij

theorem renew (hh : Held P Inv limit h block st ids) (hi : Inv h' (⟨p, n⟩ :: (without i ids).map block)) (hn : n ≤ limit) :
    Held P Inv limit h' (update block i ⟨p, n⟩) (update st i .live) (i :: without i ids) := by
  have hfresh : i ∉ without i ids := fun hmem => (mem_without.1 hmem).2 rfl
  refine ⟨?_, fun j => ?_, List.nodup_cons.2 ⟨hfresh, hh.once.filter _⟩, fun j hj => ?_, fun j hj => ?_⟩
  · rw [List.map_cons, map_update hfresh, update_self]
    exact hi
  · rw [List.mem_cons, mem_without, hh.live]
    rcases eq_or_ne j i with rfl | hij
    · simp
    · rw [update_of_ne hij]
      simp [hij]
  · rcases eq_or_ne j i with rfl | hij
    · rw [update_self] at hj
      cases hj
    · rw [update_of_ne hij] at hj ⊢
      exact hh.nulls j hj
  · rcases List.mem_cons.1 hj with rfl | hj
    · rw [update_self]
      exact hn
    · rw [update_of_ne (mem_without.1 hj).2]
      exact hh.sizes j (mem_without.1 hj).1

theorem lose {z : IdState} (hh : Held P Inv limit h block st ids) (hi : Inv h' ((without i ids).map block)) (hz : z ≠ .live)
    (hnull : z = .null → b = ⟨0, 0⟩) : Held P Inv limit h' (update block i b) (update st i z) (without i ids) := by
  have hout : i ∉ without i ids := fun hmem => (mem_without.1 hmem).2 rfl
  refine ⟨by rwa [map_update hout], fun j => ?_, hh.once.filter _, fun j hj => ?_, fun j hj => ?_⟩
  · rw [mem_without, hh.live]
    rcases eq_or_ne j i with rfl | hij
    · simp [hz]
    · rw [update_of_ne hij]
      simp [hij]
  · rcases eq_or_ne j i with rfl | hij
    · rw [update_self] at hj ⊢
      exact hnull hj
    · rw [update_of_ne hij] at hj ⊢
      exact hh.nulls j hj
  · rw [update_of_ne (mem_without.1 hj).2]
    exact hh.sizes j (mem_without.1 hj).1

theorem without_eq_self (hh : Held P Inv limit h block st ids) (hi : st i ≠ .live) : without i ids = ids :=
  List.filter_eq_self.2 fun _ hj => decide_eq_true fun he => hi ((hh.live i).1 (he ▸ hj))

/-- **`malloc` for an id** that is not allocated. -/
theorem malloc (hc : Contract P align limit Inv) (hh : Held P Inv limit h block st ids) (hi : st i ≠ .live) (h0 : 0 < n)
    (hn : n ≤ limit) : ∃ h' p, P.malloc h n = .ok (h', p) ∧ Keeps P h h' ((without i ids).map block) ∧
      (p ≠ 0 → Held P Inv limit h' (update block i ⟨p, n⟩) (update st i .live) (i :: without i ids)) := by
  obtain ⟨h', p, hok, hkeep, -, hnew⟩ := hc.malloc hh.inv h0 hn
  refine ⟨h', p, hok, by rwa [hh.without_eq_self hi], fun hp => hh.renew ?_ hn⟩
  rw [hh.without_eq_self hi]
  exact hnew hp

/-- **`free` of an id** that is not freed. -/
theorem free (hc : FullContract P align limit Inv) (hh : Held P Inv limit h block st ids) (hi : st i ≠ .freed) :
    ∃ h', P.free h (block i).ptr = .ok h' ∧ Keeps P h h' ((without i ids).map block) ∧
      Inv h' ((without i ids).map block) ∧
      Held P Inv limit h' block (update st i (if st i = .null then .null else .freed)) (without i ids) := by
  rcases hst : st i with _ | _ | _
  · -- a null pointer
    have hout : without i ids = ids := hh.without_eq_self (by simp [hst])
    rw [hh.nulls i hst, if_pos rfl, hout, update_eq_self_iff.2 hst.symm]
    exact ⟨h, hc.free_null h, fun _ _ _ _ => rfl, hh.inv, hh⟩
  · have hmem := (hh.live i).2 hst
    obtain ⟨h', hok, hkeep, hinv⟩ := hc.free hh.inv (hh.mem hst)
    rw [hh.dropPtr_eq hc.toContract hmem] at hkeep hinv
    rw [if_neg (by simp)]
    have hlose := hh.lose (b := block i) (z := .freed) hinv (by simp) nofun
    rw [update_eq_self] at hlose
    exact ⟨h', hok, hkeep, hinv, hlose⟩
  · exact absurd hst hi

/-- **`realloc` of an id** that is not freed. -/
theorem realloc (hc : FullContract P align limit Inv) (hh : Held P Inv limit h block st ids) (hi : st i ≠ .freed)
    (hn : n ≤ limit) : ∃ h' p, P.realloc h (block i).ptr n = .ok (h', p) ∧ (n = 0 → p = 0) ∧
      (n = 0 ∨ p ≠ 0 → Keeps P h h' ((without i ids).map block) ∧
        (∀ k < (block i).size, k < n → P.mem h' (p + k) = P.mem h ((block i).ptr + k)) ∧
        Held P Inv limit h' (update block i ⟨p, n⟩) (update st i (if n = 0 then .null else .live))
          (if n = 0 then without i ids else i :: without i ids)) := by
  rcases Nat.eq_zero_or_pos n with rfl | h0
  · -- a size of zero frees the block
    obtain ⟨h', hok, hkeep, hinv, -⟩ := hh.free hc hi
    refine ⟨h', 0, ?_, fun _ => rfl, fun _ => ⟨hkeep, fun _ _ hk => absurd hk (Nat.not_lt_zero _), ?_⟩⟩
    · rw [hc.realloc_zero, hok]
      rfl
    · rw [if_pos rfl, if_pos rfl]
      exact hh.lose hinv (by simp) fun _ => rfl
  rw [if_neg (by omega), if_neg (by omega)]
  rcases hst : st i with _ | _ | _
  · -- a null pointer
    obtain ⟨h', p, hok, hkeep, hnew⟩ := hh.malloc hc.toContract (i := i) (by simp [hst]) h0 hn
    rw [hh.nulls i hst]
    refine ⟨h', p, (hc.realloc_null h n h0).trans hok, fun hn0 => by omega, fun hp => ?_⟩
    exact ⟨hkeep, fun k hk => absurd hk (Nat.not_lt_zero _), hnew (hp.resolve_left (by omega))⟩
  · have hmem := (hh.live i).2 hst
    rcases hc.realloc hh.inv (hh.mem hst) h0 hn with ⟨f, hf⟩ | ⟨h', p, hok, hkeep, -, hnew⟩
    · exact absurd hf (hc.realloc_ok hh.inv (hh.mem hst) h0 hn f)
    rw [hh.dropPtr_eq hc.toContract hmem] at hkeep hnew
    refine ⟨h', p, hok, fun hn0 => by omega, fun hp => ?_⟩
    obtain ⟨hinv, hdata⟩ := hnew (hp.resolve_left (by omega))
    exact ⟨hkeep, hdata, hh.renew hinv hn⟩
  · exact absurd hst hi

end Held

end CsappLab.Implicit
