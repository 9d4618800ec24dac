import CsappLab.Lib.Machine
import CsappLab.Lib.Sums

/-!
# Threads over a shared state

A machine of threads `T`: in each step one thread moves, with a choice of its environment as part of the
label. What all threads together hold is a sum over their local states (`Lib.Sums`).
-/

/-- The shared state and the local state of every thread. -/
structure Conf (T S L : Type*) where
  shared : S
  loc : T → L

namespace Conf

variable {T S L C : Type*} [DecidableEq T]

def move (step : C → S → L → Option (S × L)) (c : Conf T S L) (t : T) (ch : C) : Option (Conf T S L) :=
  (step ch c.shared (c.loc t)).map fun sl => ⟨sl.1, Function.update c.loc t sl.2⟩

/-- The machine in which in each step some thread moves. -/
def threads (init : Conf T S L → Prop) (step : C → S → L → Option (S × L)) :
    Machine (Conf T S L) (T × C) where
  init := init
  step c l c' := c.move step l.1 l.2 = some c'

/-- The threads move as scheduled, as long as every step passes the check. -/
def runSched (check : Conf T S L → T × C → Bool) (step : C → S → L → Option (S × L)) (c : Conf T S L) :
    List (T × C) → Option (Conf T S L)
  | [] => some c
  | l :: sched =>
    if check c l then (c.move step l.1 l.2).bind fun c' => c'.runSched check step sched else none

variable {init : Conf T S L → Prop} {step : C → S → L → Option (S × L)} {c c' : Conf T S L} {t j : T}
  {ch : C} {sched : List (T × C)}

theorem move_eq_some : c.move step t ch = some c' ↔
    ∃ s l, step ch c.shared (c.loc t) = some (s, l) ∧ c' = ⟨s, Function.update c.loc t l⟩ := by
  unfold move
  rw [Option.map_eq_some_iff]
  constructor
  · rintro ⟨⟨s, l⟩, h, rfl⟩
    exact ⟨s, l, h, rfl⟩
  · rintro ⟨s, l, h, rfl⟩
    exact ⟨(s, l), h, rfl⟩

theorem step_eq_none (h : ¬ ∃ t c', c.move step t ch = some c') (t : T) : step ch c.shared (c.loc t) = none := by
  by_contra hsome
  obtain ⟨sl, hsl⟩ := Option.ne_none_iff_exists'.1 hsome
  exact h ⟨t, _, move_eq_some.2 ⟨sl.1, sl.2, hsl, rfl⟩⟩

theorem runSched_reach {check : Conf T S L → T × C → Bool} {ok : Conf T S L → T × C → Prop}
    (h : (threads init step).Reach ok c) (hok : ∀ l ∈ sched, ∀ c, check c l = true → ok c l)
    (hr : c.runSched check step sched = some c') : (threads init step).Reach ok c' := by
  induction sched generalizing c with
  | nil => exact Option.some.inj hr ▸ h
  | cons l sched ih =>
    unfold runSched at hr
    split_ifs at hr with hcheck
    obtain ⟨c₁, h1, h2⟩ := Option.bind_eq_some_iff.1 hr
    exact ih (.step h (hok l (by simp) c hcheck) h1) (fun l hl => hok l (by simp [hl])) h2

theorem exists_reach {ok : Conf T S L → T × C → Prop} {p : Conf T S L → Prop} [DecidablePred p]
    (check : Conf T S L → T × C → Bool) (sched : List (T × C)) (h : (threads init step).Reach ok c)
    (hok : ∀ l ∈ sched, ∀ c, check c l = true → ok c l)
    (hrun : ((c.runSched check step sched).map fun c => decide (p c)) = some true) :
    ∃ c', (threads init step).Reach ok c' ∧ p c' := by
  obtain ⟨c', hc, hp⟩ := Option.map_eq_some_iff.1 hrun
  exact ⟨c', runSched_reach h hok hc, of_decide_eq_true hp⟩

/-- **Runs end** if every step brings a measure of the thread that moves down. -/
theorem length_le [Fintype T] {I : Conf T S L → Prop} (f : L → Nat)
    (hI : ∀ c t ch c', I c → c.move step t ch = some c' → I c')
    (hf : ∀ c t ch s l, I c → step ch c.shared (c.loc t) = some (s, l) → f l < f (c.loc t))
    (h0 : I c) (hrun : (threads init step).Steps c sched c') :
    sched.length + ∑ j, f (c'.loc j) ≤ ∑ j, f (c.loc j) := by
  induction hrun with
  | nil => simp
  | @cons c c₁ _ l _ hst _ ih =>
    obtain ⟨s, l', hs, rfl⟩ := move_eq_some.1 hst
    have hrest := ih (hI _ _ _ _ h0 hst)
    have hsum := sum_update f c.loc l.1 l'
    have hlt := hf _ _ _ _ _ h0 hs
    rw [List.length_cons]
    simp only at hrest
    omega

end Conf
