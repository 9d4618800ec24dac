import CsappLab.Lib.Allocator
import CsappLab.Lib.CInt

/-!
# The range list of the malloc driver

`mdriver.c` remembers the payload of every allocated block as a range of addresses, newest first, and tests
a new payload against them. The test looks only at the two ends of the new payload: it accepts one that
goes beyond an old payload on both sides.
-/

namespace CsappLab.Mdriver
open Alloc

def ALIGNMENT : Nat := 8

/-- `range_t`; the list follows `next`. -/
structure Range where
  lo : Nat
  hi : Nat
deriving DecidableEq

/-- The errors that are reported about the package. -/
inductive MallocError
  | initFailed
  | mallocFailed
  | reallocFailed
  | notAligned (lo : Nat)
  | outsideHeap (lo hi heapLo heapHi : Nat)
  | overlaps (lo hi : Nat) (old : Range)
  | notPreserved
deriving DecidableEq

/-- What ends the interpretation of a trace: a fault of the package, a failed assertion, or an error. -/
inductive Stop (ε : Type)
  | fault (f : ε)
  | assertion
  | error (e : MallocError)
deriving DecidableEq

variable {ε : Type}

/-- `add_range` between `mem_heap_lo()` and `mem_heap_hi()`. -/
def addRange (heapLo heapHi : Nat) (ranges : List Range) (lo : Nat) (size : Int) : Except (Stop ε) (List Range) :=
  let hi := lo + size.toNat - 1
  if size ≤ 0 then .error .assertion
  else if lo % ALIGNMENT ≠ 0 then .error (.error (.notAligned lo))
  else if lo < heapLo ∨ lo > heapHi ∨ hi < heapLo ∨ hi > heapHi then
    .error (.error (.outsideHeap lo hi heapLo heapHi))
  else
    match ranges.find? fun p => decide (lo ≥ p.lo ∧ lo ≤ p.hi ∨ hi ≥ p.lo ∧ hi ≤ p.hi) with
    | some p => .error (.error (.overlaps lo hi p))
    | none => .ok (⟨lo, hi⟩ :: ranges)

/-- `remove_range`: the first record with this low address. -/
def removeRange (ranges : List Range) (lo : Nat) : List Range := ranges.eraseP (·.lo = lo)

def toRange (b : Block) : Range := ⟨b.ptr, b.ptr + b.size - 1⟩

def Range.Apart (p q : Range) : Prop := p.hi < q.lo ∨ q.hi < p.lo

def Range.Encloses (p q : Range) : Prop := p.lo < q.lo ∧ q.hi < p.hi

/-- The ranges of a list, newest first, as far as `add_range` tests them. -/
structure RangesOk (ranges : List Range) : Prop where
  aligned : ∀ p ∈ ranges, ALIGNMENT ∣ p.lo
  ordered : ∀ p ∈ ranges, p.lo ≤ p.hi
  tested : ranges.Pairwise fun new old => new.Apart old ∨ new.Encloses old

variable {heapLo heapHi lo n : Nat} {size : Int} {ranges ranges' : List Range} {p q : Range} {b d : Block}
  {live : List Block}

/-- **What `add_range` accepts.** -/
theorem addRange_ok_iff : (addRange heapLo heapHi ranges lo size : Except (Stop ε) (List Range)) = .ok ranges' ↔
    0 < size ∧ ALIGNMENT ∣ lo ∧ heapLo ≤ lo ∧ lo + size.toNat - 1 ≤ heapHi ∧
      (∀ p ∈ ranges, ¬ (p.lo ≤ lo ∧ lo ≤ p.hi) ∧ ¬ (p.lo ≤ lo + size.toNat - 1 ∧ lo + size.toNat - 1 ≤ p.hi)) ∧
      ranges' = ⟨lo, lo + size.toNat - 1⟩ :: ranges := by
  unfold addRange
  simp only []
  split_ifs with h1 h2 h3
  · exact iff_of_false nofun fun h => by omega
  · exact iff_of_false nofun fun h => h2 (Nat.mod_eq_zero_of_dvd h.2.1)
  · exact iff_of_false nofun fun h => by omega
  · have hfind : (∀ p ∈ ranges, ¬ (p.lo ≤ lo ∧ lo ≤ p.hi) ∧
        ¬ (p.lo ≤ lo + size.toNat - 1 ∧ lo + size.toNat - 1 ≤ p.hi)) ↔
        ranges.find? (fun p => decide (lo ≥ p.lo ∧ lo ≤ p.hi ∨
          lo + size.toNat - 1 ≥ p.lo ∧ lo + size.toNat - 1 ≤ p.hi)) = none := by
      rw [List.find?_eq_none]
      simp only [decide_eq_true_eq, not_or, ge_iff_le]
    rw [hfind]
    have hal : ALIGNMENT ∣ lo := Nat.dvd_of_mod_eq_zero (by simpa using h2)
    split
    · rename_i p hp
      exact iff_of_false nofun fun h => by rw [hp] at h; simp at h
    · rename_i hp
      simp only [Except.ok.injEq, hp, true_and]
      constructor
      · rintro rfl
        exact ⟨by omega, hal, by omega, by omega, rfl⟩
      · rintro ⟨-, -, -, -, rfl⟩
        rfl

namespace RangesOk

theorem nil : RangesOk [] := ⟨by simp, by simp, .nil⟩

/-- **`add_range` keeps the list in order**, up to ranges that enclose older ones. -/
theorem add (h : RangesOk ranges)
    (ha : (addRange heapLo heapHi ranges lo size : Except (Stop ε) (List Range)) = .ok ranges') :
    RangesOk ranges' := by
  obtain ⟨hsize, hal, -, -, hends, rfl⟩ := addRange_ok_iff.1 ha
  refine ⟨?_, ?_, List.pairwise_cons.2 ⟨fun p hp => ?_, h.tested⟩⟩
  · simp only [List.mem_cons, forall_eq_or_imp]
    exact ⟨hal, h.aligned⟩
  · simp only [List.mem_cons, forall_eq_or_imp]
    exact ⟨by omega, h.ordered⟩
  · have h1 := hends p hp
    have h2 := h.ordered p hp
    unfold Range.Apart Range.Encloses
    simp only
    omega

theorem remove (h : RangesOk ranges) (lo : Nat) : RangesOk (removeRange ranges lo) := by
  have hsub : (removeRange ranges lo).Sublist ranges := List.eraseP_sublist
  exact ⟨fun p hp => h.aligned p (hsub.subset hp), fun p hp => h.ordered p (hsub.subset hp), h.tested.sublist hsub⟩

theorem pairwise_lo (h : RangesOk ranges) : ranges.Pairwise fun p q => p.lo ≠ q.lo := by
  refine h.tested.imp_of_mem fun {p q} hp hq hpq => ?_
  have h1 := h.ordered p hp
  have h2 := h.ordered q hq
  unfold Range.Apart Range.Encloses at hpq
  omega

theorem apart_or_encloses (h : RangesOk ranges) (hp : p ∈ ranges) (hq : q ∈ ranges) (hne : p ≠ q) :
    p.Apart q ∨ p.Encloses q ∨ q.Encloses p := by
  have hsymm : Std.Symm fun p q : Range => p.Apart q ∨ p.Encloses q ∨ q.Encloses p :=
    ⟨fun p q h => by unfold Range.Apart at *; tauto⟩
  exact (h.tested.imp fun {p q} hpq => show p.Apart q ∨ p.Encloses q ∨ q.Encloses p by tauto).forall hp hq hne

end RangesOk

/-- `remove_range` removes one record when no two start at the same address. -/
theorem mem_removeRange (h : ranges.Pairwise fun p q => p.lo ≠ q.lo) :
    p ∈ removeRange ranges lo ↔ p ∈ ranges ∧ p.lo ≠ lo := by
  induction ranges with
  | nil => simp [removeRange]
  | cons q l ih =>
    obtain ⟨hq, hl⟩ := List.pairwise_cons.1 h
    unfold removeRange at ih ⊢
    by_cases hlo : q.lo = lo
    · rw [List.eraseP_cons_of_pos (by simpa using hlo)]
      constructor
      · exact fun hp => ⟨by simp [hp], fun he => hq p hp (hlo.trans he.symm)⟩
      · rintro ⟨hp, hne⟩
        rcases List.mem_cons.1 hp with rfl | hp
        · exact absurd hlo hne
        · exact hp
    · rw [List.eraseP_cons_of_neg (by simpa using hlo), List.mem_cons, ih hl, List.mem_cons]
      constructor
      · rintro (rfl | ⟨hp, hne⟩)
        · exact ⟨.inl rfl, hlo⟩
        · exact ⟨.inr hp, hne⟩
      · rintro ⟨rfl | hp, hne⟩
        · exact .inl rfl
        · exact .inr ⟨hp, hne⟩

end CsappLab.Mdriver
