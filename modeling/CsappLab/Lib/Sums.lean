import Mathlib.Algebra.BigOperators.Group.Finset.Basic
import Mathlib.Algebra.Order.BigOperators.Group.Finset
import Mathlib.Tactic

/-!
# Sums over a family of states

A measure of the states of all members of a family, summed up, when one member changes its state.
-/

variable {T L : Type*} [DecidableEq T] [Fintype T] {f f' : L → Nat} {loc : T → L} {t j : T}

theorem sum_update {M : Type*} [AddCommMonoid M] (f : L → M) (loc : T → L) (t : T) (l : L) :
    ∑ j, f (Function.update loc t l j) + f (loc t) = ∑ j, f (loc j) + f l := by
  rw [← Finset.add_sum_erase _ _ (Finset.mem_univ t),
    ← Finset.add_sum_erase Finset.univ (fun j => f (loc j)) (Finset.mem_univ t)]
  have hrest : ∑ j ∈ Finset.univ.erase t, f (Function.update loc t l j) =
      ∑ j ∈ Finset.univ.erase t, f (loc j) := by
    refine Finset.sum_congr rfl fun j hj => ?_
    rw [Function.update_of_ne (Finset.ne_of_mem_erase hj)]
  rw [hrest, Function.update_self]
  abel

omit [DecidableEq T] in
theorem le_sum (f : L → Nat) (loc : T → L) (t : T) : f (loc t) ≤ ∑ j, f (loc j) :=
  Finset.single_le_sum (f := fun j => f (loc j)) (fun _ _ => Nat.zero_le _) (Finset.mem_univ t)

theorem add_le_sum (f : L → Nat) (loc : T → L) (h : j ≠ t) : f (loc j) + f (loc t) ≤ ∑ j, f (loc j) := by
  rw [← Finset.add_sum_erase _ _ (Finset.mem_univ t)]
  have := Finset.single_le_sum (f := fun j => f (loc j)) (fun _ _ => Nat.zero_le _)
    (Finset.mem_erase.2 ⟨h, Finset.mem_univ j⟩)
  omega

/-- What can be held only once is held by nobody else. -/
theorem eq_zero_of_sum_le_one (h : ∑ j, f (loc j) ≤ 1) (ht : 0 < f (loc t)) (hj : j ≠ t) :
    f (loc j) = 0 := by
  have := add_le_sum f loc hj
  omega

theorem sum_add_eq (h : ∀ j, j ≠ t → f (loc j) = f' (loc j)) :
    ∑ j, f (loc j) + f' (loc t) = ∑ j, f' (loc j) + f (loc t) := by
  rw [← Finset.add_sum_erase _ _ (Finset.mem_univ t),
    ← Finset.add_sum_erase Finset.univ (fun j => f' (loc j)) (Finset.mem_univ t)]
  have hrest : ∑ j ∈ Finset.univ.erase t, f (loc j) = ∑ j ∈ Finset.univ.erase t, f' (loc j) :=
    Finset.sum_congr rfl fun j hj => h j (Finset.ne_of_mem_erase hj)
  rw [hrest]
  omega

omit [DecidableEq T] in
theorem sum_eq_zero (h : ∀ j, f (loc j) = 0) : ∑ j, f (loc j) = 0 := Finset.sum_eq_zero fun j _ => h j
