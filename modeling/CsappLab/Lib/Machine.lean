import Mathlib.Tactic

/-!
# Labelled machines

A machine has initial states and labelled steps. `Reach M ok` are the states of the runs all of whose
steps satisfy the condition `ok`, which may look at the state before the step and at the label.
-/

structure Machine (S L : Type*) where
  init : S → Prop
  step : S → L → S → Prop

namespace Machine

variable {S L : Type*} {M : Machine S L} {ok ok' : S → L → Prop} {I : S → Prop} {s s' : S} {l : L}

inductive Reach (M : Machine S L) (ok : S → L → Prop) : S → Prop
  | init {s : S} : M.init s → Reach M ok s
  | step {s s' : S} {l : L} : Reach M ok s → ok s l → M.step s l s' → Reach M ok s'

/-- The states of all runs. -/
abbrev Reachable (M : Machine S L) : S → Prop := M.Reach fun _ _ => True

/-- **The invariant rule.** -/
theorem Reach.invariant (h : M.Reach ok s) (h0 : ∀ s, M.init s → I s)
    (h1 : ∀ s l s', I s → ok s l → M.step s l s' → I s') : I s := by
  induction h with
  | init hi => exact h0 _ hi
  | step _ hok hst ih => exact h1 _ _ _ ih hok hst

theorem Reach.mono (h : M.Reach ok s) (himp : ∀ s l, ok s l → ok' s l) : M.Reach ok' s := by
  induction h with
  | init hi => exact .init hi
  | step _ hok hst ih => exact .step ih (himp _ _ hok) hst

theorem Reach.reachable (h : M.Reach ok s) : M.Reachable s := h.mono fun _ _ _ => trivial

theorem Reachable.next (h : M.Reachable s) (hst : M.step s l s') : M.Reachable s' := .step h trivial hst

/-- **The simulation rule**, where a step may leave the abstract state as it is. -/
theorem Reachable.simulates {T K : Type*} {N : Machine T K} {f : S → T} (h : M.Reachable s)
    (h0 : ∀ s, M.init s → N.init (f s))
    (h1 : ∀ s l s', M.Reachable s → M.step s l s' → f s' = f s ∨ ∃ k, N.step (f s) k (f s')) : N.Reachable (f s) := by
  induction h with
  | init hi => exact .init (h0 _ hi)
  | step hr _ hst ih =>
    rcases h1 _ _ _ hr hst with heq | ⟨k, hk⟩
    · exact heq ▸ ih
    · exact ih.next hk

/-- A run with the labels of its steps. -/
inductive Steps (M : Machine S L) : S → List L → S → Prop
  | nil {s : S} : Steps M s [] s
  | cons {s s' s'' : S} {l : L} {ls : List L} : M.step s l s' → Steps M s' ls s'' → Steps M s (l :: ls) s''

theorem Steps.reachable {ls : List L} (hs : M.Steps s ls s') (h : M.Reachable s) : M.Reachable s' := by
  induction hs with
  | nil => exact h
  | cons hst _ ih => exact ih (h.next hst)

/-- A function that follows the machine makes a run. -/
theorem Steps.of_foldlM {f : S → L → Option S} (hf : ∀ s l s', f s l = some s' → M.step s l s') {ls : List L}
    (hs : ls.foldlM f s = some s') : M.Steps s ls s' := by
  induction ls generalizing s with
  | nil =>
    cases hs
    exact .nil
  | cons l ls ih =>
    rw [List.foldlM_cons] at hs
    obtain ⟨s₁, h1, h2⟩ := Option.bind_eq_some_iff.1 hs
    exact .cons (hf _ _ _ h1) (ih h2)

theorem Reachable.exists_run {f : S → L → Option S} {p : S → Prop} [DecidablePred p] (h : M.Reachable s)
    (hf : ∀ s l s', f s l = some s' → M.step s l s') (ls : List L)
    (hrun : ((ls.foldlM f s).map fun s => decide (p s)) = some true) : ∃ s', M.Reachable s' ∧ p s' := by
  obtain ⟨s', hs, hp⟩ := Option.map_eq_some_iff.1 hrun
  exact ⟨s', (Steps.of_foldlM hf hs).reachable h, of_decide_eq_true hp⟩

/-- **The refinement rule**: when every step from related states is matched by a step with the same label, every
run is. -/
theorem Steps.refine {T : Type*} {N : Machine T L} {R : S → T → Prop} {ls : List L} {t : T} (hs : M.Steps s ls s')
    (hr : R s t) (h1 : ∀ s l s' t, R s t → M.step s l s' → ∃ t', N.step t l t' ∧ R s' t') :
    ∃ t', N.Steps t ls t' ∧ R s' t' := by
  induction hs generalizing t with
  | nil => exact ⟨t, .nil, hr⟩
  | cons hst _ ih =>
    obtain ⟨t₁, ht₁, hr₁⟩ := h1 _ _ _ _ hr hst
    obtain ⟨t', ht', hr'⟩ := ih hr₁
    exact ⟨t', .cons ht₁ ht', hr'⟩

end Machine
