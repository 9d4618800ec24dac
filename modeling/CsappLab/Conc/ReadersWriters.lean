import CsappLab.Proxy.Locks

/-!
# Readers and writers

`rw1.c`, `rw2.c` and `rw3.c`, with any number of threads. The readers of the first two programs do what
`readerPre` and `readerAfter` of `Proxy.Locks` do (`mutex` and `w` are `rdcntmutex` and `wmutex` of one
block); the writers of the second one also wait for `wg`. In the third one a reader takes one of the `N` units of
`sem`, and a writer takes them all.
-/

namespace CsappLab.ReadersWriters

open Proxy (Lock Loc Shared lockStep LockInv Balanced)

/-! ### `rw3.c` -/

namespace Fair

def N : Nat := 10

structure Sems where
  sem : Nat
  wmutex : Nat

def semInit : Sems := ⟨N, 1⟩

/-- The next statement of a thread; `i` is the variable of the loops. -/
inductive Point
  | waitSem
  | reading
  | waitWmutex
  | acquire (i : Nat)
  | postWmutex
  | writing
  | release (i : Nat)
deriving DecidableEq

/-- One statement of `reader` or `writer`; `none` while `P` waits. -/
def step (_ : Unit) (s : Sems) : Point → Option (Sems × Point)
  | .waitSem => if 0 < s.sem then some ({ s with sem := s.sem - 1 }, .reading) else none
  | .reading => some ({ s with sem := s.sem + 1 }, .waitSem)
  | .waitWmutex => if 0 < s.wmutex then some ({ s with wmutex := s.wmutex - 1 }, .acquire 0) else none
  | .acquire i =>
    if i < N then if 0 < s.sem then some ({ s with sem := s.sem - 1 }, .acquire (i + 1)) else none
    else some (s, .postWmutex)
  | .postWmutex => some ({ s with wmutex := s.wmutex + 1 }, .writing)
  | .writing => some (s, .release 0)
  | .release i => if i < N then some ({ s with sem := s.sem + 1 }, .release (i + 1)) else some (s, .waitWmutex)

abbrev RwConf (T : Type*) := Conf T Sems Point

/-- The threads for which `role` is true call `reader`, the other ones `writer`. -/
def rw3 {T : Type*} [DecidableEq T] (role : T → Bool) : Machine (RwConf T) (T × Unit) :=
  Conf.threads (fun c => c = ⟨semInit, fun t => if role t then .waitSem else .waitWmutex⟩) step

namespace Point

/-- The units of `sem` that a thread has. -/
def held : Point → Nat
  | reading => 1
  | acquire i => i
  | postWmutex | writing => N
  | release i => N - i
  | waitSem | waitWmutex => 0

def gate : Point → Nat
  | acquire _ | postWmutex => 1
  | _ => 0

def Ok : Point → Prop
  | acquire i | release i => i ≤ N
  | _ => True

end Point

variable {T : Type*} [DecidableEq T] [Fintype T] {role : T → Bool} {c c' : RwConf T} {s s' : Sems} {p p' : Point}
  {t j : T}

structure Inv (c : RwConf T) : Prop where
  sem : c.shared.sem + ∑ t, (c.loc t).held = N
  wmutex : c.shared.wmutex + ∑ t, (c.loc t).gate = 1
  ok : ∀ t, (c.loc t).Ok

theorem step_held (h : step () s p = some (s', p')) (hok : p.Ok) :
    s'.sem + p'.held = s.sem + p.held ∧ s'.wmutex + p'.gate = s.wmutex + p.gate ∧ p'.Ok := by
  cases p <;> simp only [step] at h
  case waitSem =>
    split_ifs at h with hpos
    cases h
    exact ⟨by simp only [Point.held]; omega, rfl, trivial⟩
  case reading =>
    cases h
    exact ⟨rfl, rfl, trivial⟩
  case waitWmutex =>
    split_ifs at h with hpos
    cases h
    exact ⟨rfl, by simp only [Point.gate]; omega, Nat.zero_le _⟩
  case acquire i =>
    split_ifs at h with hi hpos
    · cases h
      exact ⟨by simp only [Point.held]; omega, rfl, hi⟩
    · cases h
      obtain rfl : i = N := le_antisymm hok (Nat.not_lt.1 hi)
      exact ⟨rfl, rfl, trivial⟩
  case postWmutex =>
    cases h
    exact ⟨rfl, rfl, trivial⟩
  case writing =>
    cases h
    exact ⟨rfl, rfl, Nat.zero_le _⟩
  case release i =>
    split_ifs at h with hi
    · cases h
      exact ⟨by simp only [Point.held]; omega, rfl, hi⟩
    · cases h
      obtain rfl : i = N := le_antisymm hok (Nat.not_lt.1 hi)
      exact ⟨by simp only [Point.held]; omega, rfl, trivial⟩

theorem Inv.move (h : Inv c) (hstep : c.move step t () = some c') : Inv c' := by
  obtain ⟨s, p, hp, rfl⟩ := Conf.move_eq_some.1 hstep
  obtain ⟨hsem, hwmutex, hok⟩ := step_held hp (h.ok t)
  have e1 := sum_update Point.held c.loc t p
  have e2 := sum_update Point.gate c.loc t p
  have h1 := h.sem
  have h2 := h.wmutex
  refine ⟨by simp only; omega, by simp only; omega, fun j => ?_⟩
  by_cases hjt : j = t
  · subst hjt
    simp only [Function.update_self]
    exact hok
  · simp only [Function.update_of_ne hjt]
    exact h.ok j

theorem Inv.reach (h : (rw3 role).Reachable c) : Inv c := by
  refine Machine.Reach.invariant h ?_ fun c l c' hi _ hst => hi.move hst
  rintro c rfl
  have hzero : ∀ t, (if role t then Point.waitSem else .waitWmutex).held = 0 ∧
      (if role t then Point.waitSem else .waitWmutex).gate = 0 ∧ (if role t then Point.waitSem else .waitWmutex).Ok := by
    intro t
    split_ifs <;> exact ⟨rfl, rfl, trivial⟩
  refine ⟨?_, ?_, fun t => (hzero t).2.2⟩
  · simp only [(hzero _).1, Finset.sum_const_zero]
    rfl
  · simp only [(hzero _).2.1, Finset.sum_const_zero]
    rfl

theorem waits (h : step () s p = none) :
    p = .waitSem ∧ s.sem = 0 ∨ p = .waitWmutex ∧ s.wmutex = 0 ∨ ∃ i, p = .acquire i ∧ i < N ∧ s.sem = 0 := by
  cases p <;> simp only [step] at h
  case waitSem =>
    split_ifs at h with hpos
    exact .inl ⟨rfl, by omega⟩
  case waitWmutex =>
    split_ifs at h with hpos
    exact .inr (.inl ⟨rfl, by omega⟩)
  case acquire i =>
    split_ifs at h with hi hpos
    exact .inr (.inr ⟨i, rfl, hi, by omega⟩)
  case reading => cases h
  case postWmutex => cases h
  case writing => cases h
  case release i => split_ifs at h

/-- If all threads wait, the one that has `wmutex` lacks units that nobody else has. -/
theorem Inv.progress [Nonempty T] (h : Inv c) : ∃ t c', c.move step t () = some c' := by
  by_contra hnone
  have hwait : ∀ t, step () c.shared (c.loc t) = none := Conf.step_eq_none hnone
  have hsem := h.sem
  have hwmutex := h.wmutex
  have hgate : ∀ t, (c.loc t).gate = 0 → (c.loc t).held = 0 := by
    intro t ht
    rcases waits (hwait t) with ⟨hp, -⟩ | ⟨hp, -⟩ | ⟨i, hp, -⟩
    · rw [hp]
      rfl
    · rw [hp]
      rfl
    · rw [hp] at ht
      cases ht
  by_cases hzero : c.shared.sem = 0
  · -- all units are held, by one thread in its first loop
    obtain ⟨t, ht⟩ : ∃ t, (c.loc t).held ≠ 0 := by
      by_contra hall
      have := sum_eq_zero fun t => not_not.1 fun ht => hall ⟨t, ht⟩
      have : 0 < N := by decide
      omega
    have hone : (c.loc t).gate ≠ 0 := fun h0 => ht (hgate t h0)
    have hothers : ∀ j, j ≠ t → (c.loc j).held = 0 := fun j hj =>
      hgate j (eq_zero_of_sum_le_one (f := Point.gate) (by omega) (by omega) hj)
    have hsum : ∑ j, (c.loc j).held = (c.loc t).held :=
      Finset.sum_eq_single t (fun j _ hj => hothers j hj) (by simp)
    rcases waits (hwait t) with ⟨hp, -⟩ | ⟨hp, -⟩ | ⟨i, hp, hi, -⟩
    · exact ht (by rw [hp]; rfl)
    · exact ht (by rw [hp]; rfl)
    · have hheld : (c.loc t).held = i := by rw [hp]; rfl
      omega
  · -- so all threads wait for `wmutex`, which nobody has
    have hall : ∀ t, c.loc t = .waitWmutex ∧ c.shared.wmutex = 0 := by
      intro t
      rcases waits (hwait t) with ⟨-, h0⟩ | hp | ⟨i, -, -, h0⟩
      · exact absurd h0 hzero
      · exact hp
      · exact absurd h0 hzero
    obtain ⟨t⟩ := ‹Nonempty T›
    have hnobody : ∑ t, (c.loc t).gate = 0 := sum_eq_zero fun t => by rw [(hall t).1]; rfl
    have := (hall t).2
    omega

theorem Inv.exclusion (h : Inv c) (ht : c.loc t = .writing) (hj : j ≠ t) :
    c.loc j ≠ .reading ∧ c.loc j ≠ .writing := by
  have hsem := h.sem
  have hle := add_le_sum Point.held c.loc hj
  have hheld : (c.loc t).held = N := by rw [ht]; rfl
  have hpos : 0 < N := by decide
  constructor
  · intro hp
    have hone : (c.loc j).held = 1 := by rw [hp]; rfl
    omega
  · intro hp
    have hall : (c.loc j).held = N := by rw [hp]; rfl
    omega

omit [DecidableEq T] in
theorem Inv.readers_le (h : Inv c) : (Finset.univ.filter fun t => c.loc t = .reading).card ≤ N := by
  have hle : ∑ t, (if c.loc t = .reading then 1 else 0) ≤ ∑ t, (c.loc t).held := by
    refine Finset.sum_le_sum fun t _ => ?_
    split_ifs with hp
    · rw [hp]
      exact le_refl _
    · exact Nat.zero_le _
  rw [Finset.card_filter]
  have := h.sem
  omega

/-- A writer is alone, at most `N` readers read at the same time, and some thread can go on. -/
structure Safe (c : RwConf T) : Prop where
  exclusion : ∀ t j, c.loc t = .writing → j ≠ t → c.loc j ≠ .reading ∧ c.loc j ≠ .writing
  readers : (Finset.univ.filter fun t => c.loc t = .reading).card ≤ N
  goes_on : ∃ t c', c.move step t () = some c'

/-- **`rw3.c`** is safe in every run of any number of readers and writers. -/
theorem rw3_safe (role : T → Bool) [Nonempty T] : ∀ c, (rw3 role).Reachable c → Safe c := by
  intro c h
  have hinv := Inv.reach h
  exact ⟨fun t j ht hj => hinv.exclusion ht hj, hinv.readers_le, hinv.progress⟩

/-- Thread 1 has all units and writes. -/
theorem rw3_safe_two : ∃ c : RwConf (Fin 2), c.loc 1 = .writing ∧ c.shared.sem = 0 ∧ Safe c := by
  obtain ⟨c, hreach, h1, hsem⟩ : ∃ c, (rw3 fun t : Fin 2 => decide (t = 0)).Reachable c ∧ c.loc 1 = .writing ∧
      c.shared.sem = 0 :=
    Conf.exists_reach (fun _ _ => true) (List.replicate 13 (1, ())) (.init rfl) (fun _ _ _ _ => trivial)
      (by decide +kernel)
  exact ⟨c, h1, hsem, rw3_safe (fun t : Fin 2 => decide (t = 0)) c hreach⟩

end Fair

/-! ### `rw1.c` and `rw2.c` -/

/-- What a writer waits for; `mutex` and `readcnt` belong to `w`. -/
inductive Sem
  | w
  | wg
deriving DecidableEq

/-- Where a thread is outside the calls: at the start of its loop, in its critical section, or between `wg` and `w`. -/
inductive Place
  | reader
  | reading
  | writer
  | gate
  | writing
  | leave
deriving DecidableEq

/-- The loops of `rw1.c`, and those of `rw2.c` if `strong`. -/
def act (strong : Bool) (_ _ : Unit) : Place → Option (Unit × Loc Sem Place)
  | .reader => some ((), .readerPre .lock .w .reading)
  | .reading => some ((), .readerAfter .lock .w .reader)
  | .writer => some ((), if strong then .writerPre .wg .gate else .writerPre .w .writing)
  | .gate => if strong then some ((), .writerPre .w .writing) else none
  | .writing => some ((), .writerAfter .w (if strong then .leave else .writer))
  | .leave => if strong then some ((), .writerAfter .wg .writer) else none

abbrev RwConf (T : Type*) := Conf T (Shared Sem Unit) (Loc Sem Place)

/-- The threads for which `role` is true call `reader`, the other ones `writer`. -/
def rw {T : Type*} [DecidableEq T] (strong : Bool) (role : T → Bool) : Machine (RwConf T) (T × Unit) :=
  Conf.threads (fun c => c = ⟨⟨fun _ => Lock.init, ()⟩, fun t => .point (if role t then .reader else .writer)⟩)
    (Proxy.step (act strong))

def rw1 {T : Type*} [DecidableEq T] (role : T → Bool) : Machine (RwConf T) (T × Unit) := rw false role

def rw2 {T : Type*} [DecidableEq T] (role : T → Bool) : Machine (RwConf T) (T × Unit) := rw true role

/-- Calls of `readerPre` without their `readerAfter`. -/
def Place.readers : Place → Sem → Nat
  | reading, .w => 1
  | _, _ => 0

/-- The semaphores that a writer has. -/
def Place.writers (strong : Bool) : Place → Sem → Nat
  | writing, .w => 1
  | gate, .wg | leave, .wg => 1
  | writing, .wg => if strong then 1 else 0
  | _, _ => 0

def Called (strong : Bool) : Loc Sem Place → Prop
  | .point k => k = .gate ∨ k = .leave → strong = true
  | .readerPre _ i k => i = .w ∧ k = .reading
  | .readerAfter _ i k => i = .w ∧ k = .reader
  | .writerPre i k => i = .w ∧ k = .writing ∨ i = .wg ∧ k = .gate ∧ strong = true
  | .writerAfter i k => i = .w ∧ k = (if strong then .leave else .writer) ∨ i = .wg ∧ k = .writer

theorem act_balanced (strong : Bool) : Balanced Place.readers (Place.writers strong) (act strong) where
  cnt := by
    intro ch d k d' l h b
    cases k <;> cases b <;> cases strong <;> cases h <;> rfl
  wr := by
    intro ch d k d' l h b
    cases k <;> cases b <;> cases strong <;> cases h <;> rfl
  ok := by
    intro ch d k d' l h
    cases k <;> cases strong <;> cases h <;> first | trivial | exact Nat.one_pos
  entry := by
    intro ch d k d' l h
    cases k <;> cases strong <;> cases h <;> trivial

section Locks
variable {B K : Type*} [DecidableEq B] {locks locks' : B → Lock} {l l' : Loc B K} {b : B} {k : K}

/-- Only the thread that holds `mutex` counts. -/
theorem readcnt_lockStep (h : lockStep locks l = some (locks', l')) (hin : l.inRd b = 0) :
    (locks' b).readcnt = (locks b).readcnt := by
  have hupdate : ∀ (i : B) (x : Lock), (b = i → x.readcnt = (locks b).readcnt) →
      (Function.update locks i x b).readcnt = (locks b).readcnt := by
    intro i x hx
    by_cases hb : b = i
    · subst hb
      rw [Function.update_self, hx rfl]
    · rw [Function.update_of_ne hb]
  cases l with
  | point k => cases h
  | readerPre m i k =>
    cases m <;> simp only [lockStep, Option.ite_none_right_eq_some, Option.some.injEq, Prod.mk.injEq] at h
    case lock => rw [← h.2.1]; exact hupdate _ _ fun hb => by rw [hb]
    case count =>
      rw [← h.1]
      exact hupdate _ _ fun hb => absurd hin (by simp [hb])
    case test => rw [h.1]
    case firstIn => rw [← h.2.1]; exact hupdate _ _ fun hb => by rw [hb]
    case unlock => rw [← h.1]; exact hupdate _ _ fun hb => by rw [hb]
  | readerAfter m i k =>
    cases m <;> simp only [lockStep, Option.ite_none_right_eq_some, Option.some.injEq, Prod.mk.injEq] at h
    case lock => rw [← h.2.1]; exact hupdate _ _ fun hb => by rw [hb]
    case count =>
      rw [← h.1]
      exact hupdate _ _ fun hb => absurd hin (by simp [hb])
    case test => rw [h.1]
    case lastOut => rw [← h.1]; exact hupdate _ _ fun hb => by rw [hb]
    case unlock => rw [← h.1]; exact hupdate _ _ fun hb => by rw [hb]
  | writerPre i k =>
    simp only [lockStep, Option.ite_none_right_eq_some, Option.some.injEq, Prod.mk.injEq] at h
    rw [← h.2.1]
    exact hupdate _ _ fun hb => by rw [hb]
  | writerAfter i k =>
    simp only [lockStep, Option.some.injEq, Prod.mk.injEq] at h
    rw [← h.1]
    exact hupdate _ _ fun hb => by rw [hb]

/-- A reader waits for `w` when it has found itself to be the only one. -/
theorem firstIn_lockStep (h : lockStep locks l = some (locks', .readerPre .firstIn b k)) :
    (locks' b).readcnt = 1 := by
  cases l with
  | point k => cases h
  | readerPre m i k =>
    cases m <;> simp only [lockStep, Option.ite_none_right_eq_some, Option.some.injEq, Prod.mk.injEq] at h
    case test =>
      obtain ⟨rfl, h⟩ := h
      by_cases hone : (locks i).readcnt = 1
      · rw [if_pos hone] at h
        cases h
        exact hone
      · rw [if_neg hone] at h
        cases h
    all_goals simp at h
  | readerAfter m i k => cases m <;> simp [lockStep] at h
  | writerPre i k => simp [lockStep] at h
  | writerAfter i k => simp [lockStep] at h

end Locks

variable {T : Type*} [DecidableEq T] [Fintype T] {strong : Bool} {role : T → Bool} {c c' : RwConf T} {t j : T}
  {l l' : Loc Sem Place}

structure Inv (strong : Bool) (c : RwConf T) : Prop where
  locks : LockInv Place.readers (Place.writers strong) c.shared.locks c.loc
  called : ∀ t, Called strong (c.loc t)
  firstIn : ∀ t b k, c.loc t = .readerPre .firstIn b k → (c.shared.locks b).readcnt = 1

theorem act_called {d : Unit} {k : Place} (h : act strong () d k = some ((), l)) : Called strong l := by
  cases k <;> cases strong <;> cases h
  all_goals first | exact ⟨rfl, rfl⟩ | exact .inl ⟨rfl, rfl⟩ | exact .inr ⟨rfl, rfl, rfl⟩ | exact .inr ⟨rfl, rfl⟩

theorem lockStep_called {locks locks' : Sem → Lock} (h : lockStep locks l = some (locks', l')) (hl : Called strong l) :
    Called strong l' := by
  have hpoint : ∀ k : Place, (k = .gate ∨ k = .leave → strong = true) → l' = .point k → Called strong l' := by
    rintro k hk rfl
    exact hk
  cases l with
  | point k => cases h
  | readerPre m i k =>
    obtain ⟨rfl, rfl⟩ := hl
    cases m <;> simp only [lockStep, Option.ite_none_right_eq_some, Option.some.injEq, Prod.mk.injEq] at h
    case unlock => exact hpoint _ (by simp) h.2.symm
    all_goals first | rw [← h.2] | rw [← h.2.2]
    all_goals exact ⟨rfl, rfl⟩
  | readerAfter m i k =>
    obtain ⟨rfl, rfl⟩ := hl
    cases m <;> simp only [lockStep, Option.ite_none_right_eq_some, Option.some.injEq, Prod.mk.injEq] at h
    case unlock => exact hpoint _ (by simp) h.2.symm
    all_goals first | rw [← h.2] | rw [← h.2.2]
    all_goals exact ⟨rfl, rfl⟩
  | writerPre i k =>
    simp only [lockStep, Option.ite_none_right_eq_some, Option.some.injEq, Prod.mk.injEq] at h
    rw [← h.2.2]
    rcases hl with ⟨-, rfl⟩ | ⟨-, rfl, hs⟩
    · simp [Called]
    · exact fun _ => hs
  | writerAfter i k =>
    simp only [lockStep, Option.some.injEq, Prod.mk.injEq] at h
    rw [← h.2]
    rcases hl with ⟨-, rfl⟩ | ⟨-, rfl⟩
    · cases strong <;> simp [Called]
    · simp [Called]

theorem Inv.move (h : Inv strong c) (hstep : c.move (Proxy.step (act strong)) t () = some c') : Inv strong c' := by
  obtain ⟨s, l, hs, rfl⟩ := Conf.move_eq_some.1 hstep
  have hlocks := h.locks.step (act_balanced strong) hs
  have hcase := Proxy.step_cases hs
  refine ⟨hlocks, fun j => ?_, fun j b k hj => ?_⟩
  · by_cases hjt : j = t
    · subst hjt
      simp only [Function.update_self]
      rcases hcase with ⟨k, d', hl, hact, rfl⟩ | ⟨locks', hlock, rfl⟩
      · exact act_called hact
      · exact lockStep_called hlock (h.called j)
    · simp only [Function.update_of_ne hjt]
      exact h.called j
  · by_cases hjt : j = t
    · subst hjt
      simp only [Function.update_self] at hj
      subst hj
      rcases hcase with ⟨k, d', hl, hact, rfl⟩ | ⟨locks', hlock, rfl⟩
      · cases (act_balanced strong).entry hact
      · exact firstIn_lockStep hlock
    · simp only [Function.update_of_ne hjt] at hj
      have hone := h.firstIn j b k hj
      rcases hcase with ⟨k, d', hl, hact, rfl⟩ | ⟨locks', hlock, rfl⟩
      · exact hone
      · -- the thread at `firstIn` holds `mutex`, so this one does not count
        have hrd := (h.locks.block b).rd
        have hin : 0 < (c.loc j).inRd b := by simp [hj]
        have hzero := eq_zero_of_sum_le_one (f := Loc.inRd b) (by omega) hin (Ne.symm hjt)
        rw [← hone]
        exact readcnt_lockStep hlock hzero

theorem Inv.reach (h : (rw strong role).Reachable c) : Inv strong c := by
  refine Machine.Reach.invariant h ?_ fun c l c' hi _ hst => hi.move hst
  rintro c rfl
  refine ⟨LockInv.init fun t => ⟨_, rfl, fun b => ?_⟩, fun t => ?_, fun t b k hk => by cases hk⟩
  · cases role t <;> cases b <;> exact ⟨rfl, rfl⟩
  · by_cases hr : role t = true <;> simp [Called, hr]

/-- Where a thread waits. -/
inductive Waits (c : RwConf T) : Loc Sem Place → Prop
  | readerPre : (c.shared.locks .w).rdcntmutex = 0 → Waits c (.readerPre .lock .w .reading)
  | firstIn : (c.shared.locks .w).wmutex = 0 → Waits c (.readerPre .firstIn .w .reading)
  | readerAfter : (c.shared.locks .w).rdcntmutex = 0 → Waits c (.readerAfter .lock .w .reader)
  | writerPre : (c.shared.locks .w).wmutex = 0 → Waits c (.writerPre .w .writing)
  | gate : (c.shared.locks .wg).wmutex = 0 → Waits c (.writerPre .wg .gate)

omit [DecidableEq T] [Fintype T] in
theorem waits (h : Proxy.step (act strong) () c.shared l = none) (hl : Called strong l) : Waits c l := by
  cases l with
  | point k =>
    simp only [Proxy.step, Option.map_eq_none_iff] at h
    cases k with
    | gate => rw [act, if_pos (hl (.inl rfl))] at h; cases h
    | leave => rw [act, if_pos (hl (.inr rfl))] at h; cases h
    | _ => cases h
  | readerPre m i k =>
    obtain ⟨rfl, rfl⟩ := hl
    simp only [Proxy.step, Option.map_eq_none_iff] at h
    cases m <;> simp only [lockStep] at h
    case lock => exact .readerPre (by split_ifs at h with hpos; omega)
    case firstIn => exact .firstIn (by split_ifs at h with hpos; omega)
    all_goals cases h
  | readerAfter m i k =>
    obtain ⟨rfl, rfl⟩ := hl
    simp only [Proxy.step, Option.map_eq_none_iff] at h
    cases m <;> simp only [lockStep] at h
    case lock => exact .readerAfter (by split_ifs at h with hpos; omega)
    all_goals cases h
  | writerPre i k =>
    simp only [Proxy.step, Option.map_eq_none_iff, lockStep] at h
    split_ifs at h with hpos
    rcases hl with ⟨rfl, rfl⟩ | ⟨rfl, rfl, -⟩
    · exact .writerPre (by omega)
    · exact .gate (by omega)
  | writerAfter i k =>
    simp only [Proxy.step, Option.map_eq_none_iff, lockStep] at h
    cases h

/-- If all threads waited, nobody would have `w` or `wg` as a writer, and only a reader on its way out could have `w`
as a reader; then the one that it waits for would not be the first. -/
theorem Inv.progress [Nonempty T] (h : Inv strong c) : ∃ t c', c.move (Proxy.step (act strong)) t () = some c' := by
  by_contra hnone
  have hwait : ∀ t, Waits c (c.loc t) := fun t => waits (Conf.step_eq_none hnone t) (h.called t)
  have hw := h.locks.block .w
  have hwg := h.locks.block .wg
  have hwr : ∑ t, (c.loc t).wr (Place.writers strong) .w = 0 := by
    refine sum_eq_zero fun t => ?_
    have ht := hwait t
    generalize c.loc t = l at ht ⊢
    cases ht <;> rfl
  rcases hw.wm with ⟨hreg, hfree⟩ | ⟨hreg, hw0, -⟩
  · have hpos : (c.shared.locks .w).wmutex ≠ 0 := by omega
    have hrd : ∑ t, (c.loc t).inRd .w = 0 := by
      refine sum_eq_zero fun t => ?_
      have ht := hwait t
      generalize c.loc t = l at ht ⊢
      cases ht <;> first | rfl | contradiction
    have hrd1 : (c.shared.locks .w).rdcntmutex ≠ 0 := by
      have := hw.rd
      omega
    have hall : ∀ t, c.loc t = .writerPre .wg .gate ∧ (c.shared.locks .wg).wmutex = 0 := by
      intro t
      have ht := hwait t
      generalize c.loc t = l at ht ⊢
      cases ht <;> first | contradiction | exact ⟨rfl, ‹_›⟩
    have hwrg : ∑ t, (c.loc t).wr (Place.writers strong) .wg = 0 := sum_eq_zero fun t => by rw [(hall t).1]; rfl
    have hregg : ∑ t, (c.loc t).reg Place.readers .wg = 0 := sum_eq_zero fun t => by rw [(hall t).1]; rfl
    obtain ⟨t⟩ := ‹Nonempty T›
    have := (hall t).2
    rcases hwg.wm with ⟨-, hone⟩ | ⟨hpos, -⟩ <;> omega
  · -- a reader that leaves waits for `mutex`
    have hrd0 : (c.shared.locks .w).rdcntmutex = 0 := by
      by_contra hne
      have hzero : ∑ t, (c.loc t).reg Place.readers .w = 0 := by
        refine sum_eq_zero fun t => ?_
        have ht := hwait t
        generalize c.loc t = l at ht ⊢
        cases ht <;> first | rfl | contradiction
      omega
    obtain ⟨t, ht⟩ : ∃ t, (c.loc t).inRd .w ≠ 0 := by
      by_contra hall
      have := sum_eq_zero fun t => not_not.1 fun ht => hall ⟨t, ht⟩
      have := hw.rd
      omega
    have hfirst : c.loc t = .readerPre .firstIn .w .reading := by
      have hwt := hwait t
      generalize c.loc t = l at hwt ht ⊢
      cases hwt <;> first | rfl | exact absurd rfl ht
    have hone := h.firstIn t _ _ hfirst
    have halone := hw.alone (Nat.pos_of_ne_zero ht)
    have hcnt := hw.cnt
    rw [hfirst] at halone
    simp [Place.readers] at halone
    omega

theorem Inv.exclusion (h : Inv strong c) (ht : c.loc t = .point .writing) (hj : j ≠ t) :
    c.loc j ≠ .point .reading ∧ c.loc j ≠ .point .writing := by
  have hpos : 0 < (c.loc t).writers (Place.writers strong) .w := by
    rw [ht]
    exact Nat.one_pos
  obtain ⟨h1, h2⟩ := h.locks.exclusion hpos hj
  constructor
  · intro hp
    rw [hp] at h2
    cases h2
  · intro hp
    rw [hp] at h1
    cases h1

/-- A writer is alone, and some thread can go on. -/
structure Safe (strong : Bool) (c : RwConf T) : Prop where
  exclusion : ∀ t j, c.loc t = .point .writing → j ≠ t → c.loc j ≠ .point .reading ∧ c.loc j ≠ .point .writing
  goes_on : ∃ t c', c.move (Proxy.step (act strong)) t () = some c'

theorem Inv.safe [Nonempty T] (h : Inv strong c) : Safe strong c := ⟨fun _ _ ht hj => h.exclusion ht hj, h.progress⟩

/-- **`rw1.c` and `rw2.c`** are safe in every run of any number of readers and writers. -/
theorem rw_safe (role : T → Bool) [Nonempty T] :
    (∀ c, (rw1 role).Reachable c → Safe false c) ∧ ∀ c, (rw2 role).Reachable c → Safe true c :=
  ⟨fun _ h => (Inv.reach h).safe, fun _ h => (Inv.reach h).safe⟩

/-- Thread 1 writes, and thread 0 waits for `w` while it has `mutex`. -/
theorem rw_safe_two : ∃ c : RwConf (Fin 2), c.loc 1 = .point .writing ∧
    c.loc 0 = .readerPre .firstIn .w .reading ∧ (c.shared.locks .w).wmutex = 0 ∧ Safe false c := by
  obtain ⟨c, hreach, h1, h0, hw⟩ : ∃ c, (rw1 fun t : Fin 2 => decide (t = 0)).Reachable c ∧
      c.loc 1 = .point .writing ∧ c.loc 0 = .readerPre .firstIn .w .reading ∧ (c.shared.locks .w).wmutex = 0 :=
    Conf.exists_reach (fun _ _ => true) [(1, ()), (0, ()), (1, ()), (0, ()), (0, ()), (0, ())] (.init rfl)
      (fun _ _ _ _ => trivial) (by decide +kernel)
  exact ⟨c, h1, h0, hw, (rw_safe fun t : Fin 2 => decide (t = 0)).1 c hreach⟩

end CsappLab.ReadersWriters
