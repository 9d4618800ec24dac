import Mathlib.Tactic

/-!
# Counting loops

`for (i = start; i < stop; i += step) body`, with a body that can fail, and its rule for an
invariant. The step divides the range, so the loop ends with the counter at `stop`.
-/

namespace Loop

variable {σ : Type} {stop step i : Nat} [NeZero step] {body : Nat → σ → Option σ} {s : σ}

def forUp (stop step : Nat) [NeZero step] (body : Nat → σ → Option σ) (i : Nat) (s : σ) : Option σ :=
  if i < stop then
    match body i s with
    | some s' => forUp stop step body (i + step) s'
    | none => none
  else some s
termination_by stop - i
decreasing_by
  have := NeZero.pos step
  omega

theorem forUp_done (h : stop ≤ i) : forUp stop step body i s = some s := by
  rw [forUp, if_neg (by omega)]

theorem forUp_step {s' : σ} (h : i < stop) (hb : body i s = some s') :
    forUp stop step body i s = forUp stop step body (i + step) s' := by
  rw [forUp, if_pos h, hb]

theorem forUp_rule (P : Nat → σ → Prop)
    (hbody : ∀ n s, i + n * step < stop → P (i + n * step) s →
      ∃ s', body (i + n * step) s = some s' ∧ P (i + n * step + step) s')
    {n : Nat} (hn : i + n * step = stop) (hP : P i s) :
    ∃ s', forUp stop step body i s = some s' ∧ P stop s' := by
  have hpos := NeZero.pos step
  induction n generalizing i s with
  | zero =>
    obtain rfl : i = stop := by omega
    exact ⟨s, forUp_done le_rfl, hP⟩
  | succ n ih =>
    have hs : i + step + n * step = stop := by
      rw [← hn]
      ring
    have hlt : i < stop := by omega
    obtain ⟨s', hs', hP'⟩ := hbody 0 s (by omega) (by simpa using hP)
    simp only [Nat.zero_mul, Nat.add_zero] at hs' hP'
    rw [forUp_step hlt hs']
    refine ih ?_ hs hP'
    intro m t hm ht
    have e : i + (m + 1) * step = i + step + m * step := by ring
    simpa only [e] using hbody (m + 1) t (by omega) (by rw [e]; exact ht)

end Loop
