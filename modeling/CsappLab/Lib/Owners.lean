import Mathlib.Tactic

/-!
# Cells with one owner each

A heap of cells (`none` for a cell that is not allocated) and the cell that each of some owners holds, if any.
`Owned`: what is allocated is what is held, and no two owners hold the same cell. Taking a free cell, writing into a
cell, passing a cell on and giving it back keep this.
-/

structure Owned {O A V : Type*} (heap : A → Option V) (holds : O → Option A) : Prop where
  allocated : ∀ a, heap a ≠ none ↔ ∃ o, holds o = some a
  distinct : ∀ o o' a, holds o = some a → holds o' = some a → o = o'

namespace Owned

variable {O A V : Type*} {heap : A → Option V} {holds : O → Option A} {o o' : O} {a : A}

theorem nothing : Owned (fun _ : A => (none : Option V)) (fun _ : O => none) :=
  ⟨fun a => by simp, fun o o' a h => by cases h⟩

theorem exists_free [Fintype O] [Infinite A] [DecidableEq A] (h : Owned heap holds) : ∃ a, heap a = none := by
  obtain ⟨a, ha⟩ := Infinite.exists_notMem_finset (Finset.univ.biUnion fun o => (holds o).toFinset)
  refine ⟨a, ?_⟩
  by_contra hne
  obtain ⟨o, ho⟩ := (h.allocated a).1 hne
  exact ha (Finset.mem_biUnion.2 ⟨o, Finset.mem_univ o, by simp [ho]⟩)

theorem ne_of_free (h : Owned heap holds) (hfree : heap a = none) (o : O) : holds o ≠ some a :=
  fun ho => (h.allocated a).2 ⟨o, ho⟩ hfree

theorem write [DecidableEq A] (h : Owned heap holds) (ho : holds o = some a) (v : V) :
    Owned (Function.update heap a (some v)) holds := by
  refine ⟨fun b => ?_, h.distinct⟩
  by_cases hb : b = a
  · subst hb
    simp only [Function.update_self]
    exact iff_of_true (by simp) ⟨o, ho⟩
  · rw [Function.update_of_ne hb, h.allocated]

variable [DecidableEq O]

theorem update_eq_some {x : Option A} {u : O} {b : A} :
    Function.update holds o x u = some b ↔ u = o ∧ x = some b ∨ u ≠ o ∧ holds u = some b := by
  by_cases hu : u = o
  · rw [hu, Function.update_self]
    simp
  · rw [Function.update_of_ne hu]
    simp [hu]

/-- The owner `o` hands its cell to `o'`. -/
theorem pass (h : Owned heap holds) (ho : holds o = some a) (ho' : holds o' = none) :
    Owned heap (Function.update (Function.update holds o none) o' (some a)) := by
  have hne : o ≠ o' := fun he => by rw [he, ho'] at ho; cases ho
  -- who holds what after the step
  have hmem (u : O) (b : A) : Function.update (Function.update holds o none) o' (some a) u = some b ↔
      u = o' ∧ some a = some b ∨ u ≠ o' ∧ u ≠ o ∧ holds u = some b := by
    simp only [update_eq_some, reduceCtorEq, and_false, false_or]
  constructor
  · intro b
    simp only [h.allocated, hmem]
    constructor
    · rintro ⟨u, hu⟩
      by_cases huo : u = o
      · exact ⟨o', .inl ⟨rfl, by rw [← ho, ← huo, hu]⟩⟩
      · have huo' : u ≠ o' := fun he => by rw [he, ho'] at hu; cases hu
        exact ⟨u, .inr ⟨huo', huo, hu⟩⟩
    · rintro ⟨u, ⟨-, hab⟩ | ⟨-, -, hu⟩⟩
      · exact ⟨o, ho.trans hab⟩
      · exact ⟨u, hu⟩
  · intro u u' b hu hu'
    rcases (hmem u b).1 hu with ⟨rfl, hab⟩ | ⟨-, huo, hold⟩ <;>
      rcases (hmem u' b).1 hu' with ⟨rfl, hab'⟩ | ⟨-, huo', hold'⟩
    · rfl
    · exact absurd (h.distinct u' o b hold' (ho.trans hab)) huo'
    · exact absurd (h.distinct u o b hold (ho.trans hab')) huo
    · exact h.distinct u u' b hold hold'

variable [DecidableEq A]

theorem take (h : Owned heap holds) (hfree : heap a = none) (ho : holds o = none) (v : V) :
    Owned (Function.update heap a (some v)) (Function.update holds o (some a)) := by
  have hnew := h.ne_of_free hfree
  constructor
  · intro b
    by_cases hb : b = a
    · rw [hb, Function.update_self]
      exact iff_of_true (Option.some_ne_none v) ⟨o, Function.update_self ..⟩
    · rw [Function.update_of_ne hb, h.allocated]
      simp only [update_eq_some]
      constructor
      · rintro ⟨u, hu⟩
        have huo : u ≠ o := fun he => by rw [he, ho] at hu; cases hu
        exact ⟨u, .inr ⟨huo, hu⟩⟩
      · rintro ⟨u, ⟨-, hab⟩ | ⟨-, hu⟩⟩
        · exact absurd (Option.some.inj hab).symm hb
        · exact ⟨u, hu⟩
  · intro u u' b hu hu'
    rcases update_eq_some.1 hu with ⟨rfl, hab⟩ | ⟨-, hold⟩ <;>
      rcases update_eq_some.1 hu' with ⟨rfl, hab'⟩ | ⟨-, hold'⟩
    · rfl
    · exact absurd (hab ▸ hold') (hnew u')
    · exact absurd (hab' ▸ hold) (hnew u)
    · exact h.distinct u u' b hold hold'

theorem giveBack (h : Owned heap holds) (ho : holds o = some a) :
    Owned (Function.update heap a none) (Function.update holds o none) := by
  have hmem (u : O) (b : A) : Function.update holds o none u = some b ↔ u ≠ o ∧ holds u = some b := by
    simp only [update_eq_some, reduceCtorEq, and_false, false_or]
  constructor
  · intro b
    simp only [hmem]
    by_cases hb : b = a
    · rw [hb, Function.update_self]
      refine iff_of_false (not_not.2 rfl) ?_
      rintro ⟨u, huo, hu⟩
      exact huo (h.distinct u o a hu ho)
    · rw [Function.update_of_ne hb, h.allocated]
      constructor
      · rintro ⟨u, hu⟩
        have huo : u ≠ o := fun he => hb (Option.some.inj (by rw [← hu, he, ho]))
        exact ⟨u, huo, hu⟩
      · rintro ⟨u, -, hu⟩
        exact ⟨u, hu⟩
  · intro u u' b hu hu'
    exact h.distinct u u' b ((hmem u b).1 hu).2 ((hmem u' b).1 hu').2

end Owned
