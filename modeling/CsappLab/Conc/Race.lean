import CsappLab.Lib.Machine

/-!
# The argument of a new thread

`race.c`: `main` creates `n` threads (`N` in the program) and hands each of them a pointer to its loop variable. It
then waits for all of them, with the same loop variable. With it goes the program in which every thread is handed a
private cell; that `norace.c` is such a program is shown in `Norace`.
-/

namespace CsappLab.Race

/-- The next statement of `main`. -/
inductive Main
  | create
  | createInc
  | join
  | joinInc
  | exit
deriving DecidableEq

/-- A thread, with what is in its private cell, and what it prints. -/
inductive Thread
  | absent
  | ready (cell : Nat)
  | done (myid : Nat)
deriving DecidableEq

structure State (n : Nat) where
  main : Main
  i : Nat
  threads : Fin n → Thread

variable {n : Nat}

/-- A statement of `main`; `none` while `Pthread_join` waits. -/
def mainStep (s : State n) : Option (State n) :=
  match s.main with
  | .create =>
    if h : s.i < n then
      some { s with main := .createInc, threads := Function.update s.threads ⟨s.i, h⟩ (.ready s.i) }
    else some { s with main := .join, i := 0 }
  | .createInc => some { s with main := .create, i := s.i + 1 }
  | .join =>
    if h : s.i < n then
      match s.threads ⟨s.i, h⟩ with
      | .done _ => some { s with main := .joinInc }
      | _ => none
    else some { s with main := .exit }
  | .joinInc => some { s with main := .join, i := s.i + 1 }
  | .exit => none

/-- `*((int *)vargp)`: the pointer leads to `i` if `shared`. -/
def threadStep (shared : Bool) (s : State n) (t : Fin n) : Option (State n) :=
  match s.threads t with
  | .ready cell => some { s with threads := Function.update s.threads t (.done (if shared then s.i else cell)) }
  | _ => none

def step (shared : Bool) (s : State n) : Option (Fin n) → Option (State n)
  | none => mainStep s
  | some t => threadStep shared s t

def program (shared : Bool) (n : Nat) : Machine (State n) (Option (Fin n)) where
  init s := s = ⟨.create, 0, fun _ => .absent⟩
  step s l s' := step shared s l = some s'

def race (n : Nat) : Machine (State n) (Option (Fin n)) := program true n

/-- Every thread has a cell of its own. -/
def privateCells (n : Nat) : Machine (State n) (Option (Fin n)) := program false n

variable {shared : Bool} {s s' : State n} {t : Fin n}

/-! ### What is printed -/

def Prints (shared : Bool) (t : Fin n) : Thread → Prop
  | .absent => True
  | .ready cell => cell = t
  | .done myid => if shared then myid ≤ n else myid = t

structure Inv (shared : Bool) (s : State n) : Prop where
  le : s.i ≤ n
  lt : s.main = .createInc ∨ s.main = .joinInc → s.i < n
  prints : ∀ t, Prints shared t (s.threads t)
  made : ∀ t : Fin n, (s.main = .create → t < s.i) → (s.main = .createInc → t ≤ s.i) → s.threads t ≠ .absent
  joined : ∀ t : Fin n, (s.main = .join ∧ t < s.i) ∨ (s.main = .joinInc ∧ t ≤ s.i) ∨ s.main = .exit →
    ∃ v, s.threads t = .done v

theorem prints_update {x : Thread} (h : ∀ t, Prints shared t (s.threads t)) (hx : Prints shared t x) (j : Fin n) :
    Prints shared j (Function.update s.threads t x j) := by
  by_cases hj : j = t
  · rw [hj, Function.update_self]
    exact hx
  · rw [Function.update_of_ne hj]
    exact h j

theorem Inv.main (h : Inv shared s) (hs : mainStep s = some s') : Inv shared s' := by
  obtain ⟨main, i, threads⟩ := s
  obtain ⟨hle, hlt, hprints, hmade, hjoined⟩ := h
  cases main <;> simp only [mainStep] at hs
  case create =>
    split_ifs at hs with hi
    · cases hs
      refine ⟨hle, fun _ => hi, prints_update (s := ⟨.create, i, threads⟩) hprints rfl, fun t _ ht => ?_, by simp⟩
      by_cases hti : t = ⟨i, hi⟩
      · simp [hti]
      · simp only [Function.update_of_ne hti]
        have hne : (t : Nat) ≠ i := fun he => hti (Fin.ext he)
        exact hmade t (fun _ => lt_of_le_of_ne (ht rfl) hne) (by simp)
    · cases hs
      refine ⟨Nat.zero_le _, by simp, hprints, fun t _ _ => hmade t (fun _ => ?_) (by simp), by simp⟩
      simp only
      omega
  case createInc =>
    cases hs
    refine ⟨hlt (.inl rfl), by simp, hprints, fun t ht _ => hmade t (by simp) fun _ => ?_, by simp⟩
    exact Nat.lt_succ_iff.1 (ht rfl)
  case join =>
    split_ifs at hs with hi
    · split at hs
      · cases hs
        refine ⟨hle, fun _ => hi, hprints, fun t _ _ => hmade t (by simp) (by simp), fun t ht => ?_⟩
        rcases Nat.lt_or_ge t i with hti | hti
        · exact hjoined t (.inl ⟨rfl, hti⟩)
        · simp at ht
          obtain rfl : t = ⟨i, hi⟩ := Fin.ext (le_antisymm ht hti)
          exact ⟨_, ‹_›⟩
      · cases hs
    · cases hs
      refine ⟨hle, by simp, hprints, fun t _ _ => hmade t (by simp) (by simp), fun t _ => ?_⟩
      refine hjoined t (.inl ⟨rfl, ?_⟩)
      simp only at hle ⊢
      omega
  case joinInc =>
    cases hs
    refine ⟨hlt (.inr rfl), by simp, hprints, fun t _ _ => hmade t (by simp) (by simp), fun t ht => ?_⟩
    refine hjoined t (.inr (.inl ⟨rfl, ?_⟩))
    simpa using ht
  case exit => cases hs

theorem Inv.thread (h : Inv shared s) (hs : threadStep shared s t = some s') : Inv shared s' := by
  unfold threadStep at hs
  split at hs
  · cases hs
    have hcell := h.prints t
    rw [‹s.threads t = _›] at hcell
    refine ⟨h.le, h.lt, prints_update h.prints ?_, fun j h1 h2 => ?_, fun j hj => ?_⟩
    · cases shared
      · exact hcell
      · exact h.le
    · by_cases hjt : j = t
      · simp [hjt]
      · simp only [Function.update_of_ne hjt]
        exact h.made j h1 h2
    · by_cases hjt : j = t
      · exact ⟨_, by rw [hjt]; exact Function.update_self ..⟩
      · simp only [Function.update_of_ne hjt]
        exact h.joined j hj
  · cases hs

theorem Inv.reach (h : (program shared n).Reachable s) : Inv shared s := by
  refine Machine.Reach.invariant h ?_ fun s l s' hi _ hst => ?_
  · rintro s rfl
    exact ⟨Nat.zero_le _, by simp, fun _ => trivial, fun t h1 _ => absurd (h1 rfl) (Nat.not_lt_zero _), by simp⟩
  · cases l with
    | none => exact hi.main hst
    | some t => exact hi.thread hst

theorem Inv.printed (h : Inv shared s) (hexit : s.main = .exit) (t : Fin n) :
    ∃ v, s.threads t = .done v ∧ if shared then v ≤ n else v = t := by
  obtain ⟨v, hv⟩ := h.joined t (.inr (.inr hexit))
  have hp := h.prints t
  rw [hv] at hp
  exact ⟨v, hv, hp⟩

theorem Inv.progress (h : Inv shared s) (hexit : s.main ≠ .exit) : ∃ l s', (program shared n).step s l s' := by
  have hmain : (∃ s', mainStep s = some s') → ∃ l s', (program shared n).step s l s' := by
    rintro ⟨s', hs⟩
    exact ⟨none, s', hs⟩
  by_cases hjoin : s.main = .join ∧ ∃ h : s.i < n, ∀ v, s.threads ⟨s.i, h⟩ ≠ .done v
  · obtain ⟨hm, hi, hwait⟩ := hjoin
    have hmade := h.made ⟨s.i, hi⟩ (by simp [hm]) (by simp [hm])
    cases ht : s.threads ⟨s.i, hi⟩ with
    | absent => exact absurd ht hmade
    | ready cell => exact ⟨some ⟨s.i, hi⟩, _, by simp only [program, step, threadStep, ht]; rfl⟩
    | done v => exact absurd ht (hwait v)
  · refine hmain ?_
    unfold mainStep
    split
    · split_ifs <;> exact ⟨_, rfl⟩
    · exact ⟨_, rfl⟩
    · split_ifs with hi
      · split
        · exact ⟨_, rfl⟩
        · exact absurd ⟨‹_›, hi, ‹_›⟩ hjoin
      · exact ⟨_, rfl⟩
    · exact ⟨_, rfl⟩
    · exact absurd ‹_› hexit

/-! ### What can be printed -/

section Any
variable {f : Fin n → Nat} {i : Nat} {threads : Fin n → Thread}

theorem race_read (S : Finset (Fin n)) (h : (race n).Reachable s) (hS : ∀ t ∈ S, ∃ cell, s.threads t = .ready cell) :
    (race n).Reachable { s with threads := fun t => if t ∈ S then .done s.i else s.threads t } := by
  induction S using Finset.induction_on with
  | empty => simpa using h
  | insert t S ht ih =>
    have h1 := ih fun j hj => hS j (Finset.mem_insert_of_mem hj)
    obtain ⟨cell, hcell⟩ := hS t (Finset.mem_insert_self t S)
    refine h1.next (l := some t) ?_
    simp only [race, program, step, threadStep, if_neg ht, hcell, if_true, Option.some.injEq, State.mk.injEq, true_and]
    funext j
    by_cases hj : j = t
    · rw [hj, Function.update_self, if_pos (Finset.mem_insert_self t S)]
    · rw [Function.update_of_ne hj]
      simp only [Finset.mem_insert, hj, false_or]

/-- The threads in the first loop: those that have to have read something have read it. -/
def created (f : Fin n → Nat) (k : Nat) (t : Fin n) : Thread :=
  if t < k then if t ≤ f t ∧ f t < k then .done (f t) else .ready t else .absent

/-- The threads in the second loop. -/
def joined (f : Fin n → Nat) (k : Nat) (t : Fin n) : Thread := if t ≤ f t ∨ f t < k then .done (f t) else .ready t

theorem race_created (f : Fin n → Nat) (k : Nat) (hk : k ≤ n) : (race n).Reachable ⟨.create, k, created f k⟩ := by
  induction k with
  | zero =>
    refine .init ?_
    simp only [race, program, State.mk.injEq, true_and]
    funext t
    simp [created]
  | succ k ih =>
    have hkn : k < n := hk
    have h1 := ih hkn.le
    have h2 : (race n).Reachable ⟨.createInc, k, Function.update (created f k) ⟨k, hkn⟩ (.ready k)⟩ :=
      h1.next (l := none) (by simp [race, program, step, mainStep, hkn])
    have hready : ∀ t ∈ Finset.univ.filter fun t : Fin n => t ≤ k ∧ f t = k,
        ∃ cell, Function.update (created f k) ⟨k, hkn⟩ (.ready k) t = .ready cell := by
      intro t ht
      obtain ⟨-, hle, hf⟩ := Finset.mem_filter.1 ht
      by_cases hj : t = ⟨k, hkn⟩
      · exact ⟨k, by rw [hj, Function.update_self]⟩
      · have hlt : t < k := lt_of_le_of_ne hle fun he => hj (Fin.ext he)
        refine ⟨t, ?_⟩
        rw [Function.update_of_ne hj, created, if_pos hlt, if_neg]
        omega
    refine (race_read _ h2 hready).next (l := none) ?_
    simp only [race, program, step, mainStep, Option.some.injEq, State.mk.injEq, true_and]
    funext t
    by_cases hj : t = ⟨k, hkn⟩
    · subst hj
      simp only [Function.update_self, Finset.mem_filter, Finset.mem_univ, true_and, le_refl, created,
        Nat.lt_succ_self, if_true]
      split_ifs <;> first | rfl | (congr 1; omega)
    · have hne : (t : Nat) ≠ k := fun he => hj (Fin.ext he)
      simp only [Function.update_of_ne hj, Finset.mem_filter, Finset.mem_univ, true_and, created]
      split_ifs <;> first | rfl | (congr 1; omega)

theorem race_joined (hf : ∀ t, f t ≤ n) (k : Nat) (hk : k ≤ n) : (race n).Reachable ⟨.join, k, joined f k⟩ := by
  induction k with
  | zero =>
    have h1 := race_created f n le_rfl
    have hready : ∀ t ∈ Finset.univ.filter fun t : Fin n => f t = n, ∃ cell, created f n t = .ready cell := by
      intro t ht
      refine ⟨t, ?_⟩
      rw [created, if_pos t.2, if_neg]
      have := (Finset.mem_filter.1 ht).2
      omega
    refine (race_read _ h1 hready).next (l := none) ?_
    simp only [race, program, step, mainStep, lt_irrefl, dite_false, Option.some.injEq, State.mk.injEq, true_and]
    funext t
    have hft := hf t
    simp only [Finset.mem_filter, Finset.mem_univ, true_and, created, joined, t.2, if_true]
    split_ifs <;> first | rfl | (congr 1; omega)
  | succ k ih =>
    have hkn : k < n := hk
    have h1 := ih hkn.le
    have hready : ∀ t ∈ Finset.univ.filter fun t : Fin n => k < t ∧ f t = k, ∃ cell, joined f k t = .ready cell := by
      intro t ht
      refine ⟨t, ?_⟩
      rw [joined, if_neg]
      have := (Finset.mem_filter.1 ht).2
      omega
    have h2 := race_read _ h1 hready
    have hdone : joined f k ⟨k, hkn⟩ = .done (f ⟨k, hkn⟩) := by
      rw [joined, if_pos]
      simp only
      omega
    have h3 : (race n).Reachable ⟨.joinInc, k, joined f (k + 1)⟩ := by
      refine h2.next (l := none) ?_
      simp only [race, program, step, mainStep, hkn, dite_true, Finset.mem_filter, Finset.mem_univ, true_and,
        lt_irrefl, false_and, if_false, hdone, Option.some.injEq, State.mk.injEq]
      funext t
      simp only [joined]
      split_ifs <;> first | rfl | (congr 1; omega)
    exact h3.next (l := none) rfl

end Any

/-- **`race.c`** prints anything: what `main` can have seen printed when it exits are all assignments of numbers up to
`n` to the threads. There is no deadlock. -/
theorem race_results (n : Nat) :
    (∀ f : Fin n → Nat, (∃ s, (race n).Reachable s ∧ s.main = .exit ∧ ∀ t, s.threads t = .done (f t)) ↔
      ∀ t, f t ≤ n) ∧
    ∀ s, (race n).Reachable s → s.main ≠ .exit → ∃ l s', (race n).step s l s' := by
  refine ⟨fun f => ⟨?_, fun hf => ?_⟩, fun s h => (Inv.reach h).progress⟩
  · rintro ⟨s, h, hexit, hdone⟩ t
    obtain ⟨v, hv, hle⟩ := (Inv.reach h).printed hexit t
    rw [hdone t] at hv
    cases hv
    exact hle
  · have hstep : (race n).step ⟨.join, n, joined f n⟩ none ⟨.exit, n, joined f n⟩ := by
      simp [race, program, step, mainStep]
    refine ⟨_, (race_joined hf n le_rfl).next hstep, rfl, fun t => ?_⟩
    have hft := hf t
    have htn := t.2
    exact if_pos (by omega)

end CsappLab.Race
