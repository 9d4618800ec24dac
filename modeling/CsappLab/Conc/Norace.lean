import CsappLab.Conc.Race
import CsappLab.Lib.Owners

/-!
# Arguments on the heap

`norace.c` with its heap: `main` allocates a cell for each of `n` threads (`N` in the program), stores the number of
the thread there and passes the pointer on; the thread reads the cell, frees it and prints. `Malloc` returns any cell
that is not allocated, also one that an earlier thread has freed, with anything in it. That every thread has a cell of
its own is what is to be shown; then the program is the one of `Race` in which the cells are private.
-/

namespace CsappLab.Norace

/-- The next statement of `main`, with its `ptr`. -/
inductive Main
  | malloc
  | store (ptr : Nat)
  | create (ptr : Nat)
  | createInc
  | join
  | joinInc
  | exit
deriving DecidableEq

/-- The next statement of a thread, with its `vargp` and `myid`. -/
inductive Thread
  | absent
  | read (vargp : Nat)
  | free (vargp myid : Nat)
  | print (myid : Nat)
  | done (myid : Nat)
deriving DecidableEq

structure State (n : Nat) where
  main : Main
  i : Nat
  heap : Nat → Option Nat
  threads : Fin n → Thread

/-- Who moves; `Malloc` returns `ptr`, with `junk` in the cell. -/
inductive Choice (n : Nat)
  | main (ptr junk : Nat)
  | thread (t : Fin n)

variable {n : Nat}

/-- A statement of `main`; `none` while `Pthread_join` waits, and for a cell that is not allocated. -/
def mainStep (ptr junk : Nat) (s : State n) : Option (State n) :=
  match s.main with
  | .malloc =>
    if s.i < n then
      if s.heap ptr = none then some { s with main := .store ptr, heap := Function.update s.heap ptr (some junk) }
      else none
    else some { s with main := .join, i := 0 }
  | .store ptr =>
    if s.heap ptr ≠ none then some { s with main := .create ptr, heap := Function.update s.heap ptr (some s.i) }
    else none
  | .create ptr =>
    if h : s.i < n then
      some { s with main := .createInc, threads := Function.update s.threads ⟨s.i, h⟩ (.read ptr) }
    else none
  | .createInc => some { s with main := .malloc, i := s.i + 1 }
  | .join =>
    if h : s.i < n then
      match s.threads ⟨s.i, h⟩ with
      | .done _ => some { s with main := .joinInc }
      | _ => none
    else some { s with main := .exit }
  | .joinInc => some { s with main := .join, i := s.i + 1 }
  | .exit => none

/-- A statement of a thread; `none` for a cell that is not allocated. -/
def threadStep (s : State n) (t : Fin n) : Option (State n) :=
  match s.threads t with
  | .read vargp => (s.heap vargp).map fun v => { s with threads := Function.update s.threads t (.free vargp v) }
  | .free vargp myid =>
    if s.heap vargp ≠ none then
      some { s with heap := Function.update s.heap vargp none, threads := Function.update s.threads t (.print myid) }
    else none
  | .print myid => some { s with threads := Function.update s.threads t (.done myid) }
  | _ => none

def step (s : State n) : Choice n → Option (State n)
  | .main ptr junk => mainStep ptr junk s
  | .thread t => threadStep s t

def norace (n : Nat) : Machine (State n) (Choice n) where
  init s := s = ⟨.malloc, 0, fun _ => none, fun _ => .absent⟩
  step s l s' := step s l = some s'

/-! ### Who holds which cell -/

def Main.ptr : Main → Option Nat
  | .store ptr | .create ptr => some ptr
  | _ => none

def Thread.ptr : Thread → Option Nat
  | .read vargp | .free vargp _ => some vargp
  | _ => none

/-- The cells that `main` and the threads are going to use. -/
def State.holds (s : State n) : Option (Fin n) → Option Nat
  | none => s.main.ptr
  | some t => (s.threads t).ptr

variable {s s' : State n} {t : Fin n} {x : Thread} {ptr junk : Nat}

theorem holds_thread (s : State n) (t : Fin n) (x : Thread) (heap : Nat → Option Nat) :
    State.holds { s with heap := heap, threads := Function.update s.threads t x } =
      Function.update s.holds (some t) x.ptr := by
  funext o
  cases o with
  | none =>
    rw [Function.update_of_ne (Option.some_ne_none t).symm]
    rfl
  | some u =>
    by_cases hu : u = t
    · rw [hu, Function.update_self]
      exact congrArg Thread.ptr (Function.update_self ..)
    · rw [Function.update_of_ne fun h => hu (Option.some.inj h)]
      exact congrArg Thread.ptr (Function.update_of_ne hu ..)

theorem holds_main (s : State n) (main : Main) (i : Nat) (heap : Nat → Option Nat) :
    State.holds { s with main := main, i := i, heap := heap } = Function.update s.holds none main.ptr := by
  funext o
  cases o with
  | none =>
    rw [Function.update_self]
    rfl
  | some u =>
    rw [Function.update_of_ne (Option.some_ne_none u)]
    rfl

/-- The invariant of the heap. A thread that has not been created holds no cell. -/
structure Inv (s : State n) : Prop where
  owned : Owned s.heap s.holds
  stored : ∀ ptr, s.main = .create ptr → s.heap ptr = some s.i
  number : ∀ t vargp, s.threads t = .read vargp → s.heap vargp = some t.val
  absent : ∀ t : Fin n, s.main ≠ .join → s.main ≠ .joinInc → s.main ≠ .exit → s.i ≤ t →
    (s.main = .createInc → s.i < t) → s.threads t = .absent
  inLoop : s.main.ptr ≠ none → s.i < n

namespace Inv

theorem start (n : Nat) : Inv (n := n) ⟨.malloc, 0, fun _ => none, fun _ => .absent⟩ where
  owned := by
    have hholds : State.holds (n := n) ⟨.malloc, 0, fun _ => none, fun _ => .absent⟩ = fun _ => none := by
      funext o
      cases o <;> rfl
    rw [hholds]
    exact .nothing
  stored ptr h := by cases h
  number t vargp h := by cases h
  absent _ _ _ _ _ _ := rfl
  inLoop h := absurd rfl h

theorem same_ptr (h : Inv s) {main : Main} (i : Nat) (hptr : main.ptr = s.main.ptr) :
    Owned s.heap (State.holds { s with main := main, i := i }) := by
  have hholds : State.holds { s with main := main, i := i } = s.holds := by
    rw [holds_main s main i s.heap, hptr]
    exact Function.update_eq_self ..
  rw [hholds]
  exact h.owned

theorem main_ne (h : Inv s) (hm : s.main.ptr = some ptr) {t : Fin n} {vargp : Nat}
    (ht : (s.threads t).ptr = some vargp) : vargp ≠ ptr := fun he =>
  absurd (h.owned.distinct (some t) none vargp ht (he ▸ hm)) (Option.some_ne_none t)

theorem main (h : Inv s) (hs : mainStep ptr junk s = some s') : Inv s' := by
  unfold mainStep at hs
  split at hs
  case h_1 hm =>
    have hnone : s.holds none = none := congrArg Main.ptr hm
    split_ifs at hs with hi hfree
    · cases hs
      refine ⟨?_, fun p hp => (by cases hp), fun t vargp ht => ?_, fun t _ _ _ hle _ => ?_, fun _ => hi⟩
      · rw [holds_main s (.store ptr) s.i]
        exact h.owned.take hfree hnone junk
      · have hne : vargp ≠ ptr := by
          rintro rfl
          rw [h.number t vargp ht] at hfree
          cases hfree
        exact (Function.update_of_ne hne ..).trans (h.number t vargp ht)
      · exact h.absent t (by simp [hm]) (by simp [hm]) (by simp [hm]) hle (by simp [hm])
    · cases hs
      exact ⟨h.same_ptr 0 (hm ▸ rfl), fun p hp => (by cases hp), h.number, fun t hj => absurd rfl hj,
        fun hp => absurd rfl hp⟩
  case h_2 p hm =>
    have hp : s.holds none = some p := congrArg Main.ptr hm
    split_ifs at hs
    cases hs
    refine ⟨?_, fun q hq => ?_, fun t vargp ht => ?_, fun t _ _ _ hle _ => ?_, fun _ => h.inLoop (by simp [hm, Main.ptr])⟩
    · have hholds : Function.update s.holds none (some p) = s.holds := by
        rw [← hp]
        exact Function.update_eq_self ..
      rw [holds_main s (.create p) s.i, Main.ptr, hholds]
      exact h.owned.write hp s.i
    · cases hq
      exact Function.update_self ..
    · have hne : vargp ≠ p := h.main_ne hp (congrArg Thread.ptr ht)
      exact (Function.update_of_ne hne ..).trans (h.number t vargp ht)
    · exact h.absent t (by simp [hm]) (by simp [hm]) (by simp [hm]) hle (by simp [hm])
  case h_3 p hm =>
    have hp : s.holds none = some p := congrArg Main.ptr hm
    split_ifs at hs with hi
    cases hs
    have habsent : ∀ t : Fin n, s.i ≤ t → s.threads t = .absent := fun t hle =>
      h.absent t (by simp [hm]) (by simp [hm]) (by simp [hm]) hle (by simp [hm])
    refine ⟨?_, fun q hq => (by cases hq), fun t vargp ht => ?_, fun t _ _ _ _ hlt => ?_, fun hq => absurd rfl hq⟩
    · have hholds := holds_thread { s with main := .createInc } ⟨s.i, hi⟩ (.read p) s.heap
      rw [hholds, holds_main s .createInc s.i s.heap]
      exact h.owned.pass hp (congrArg Thread.ptr (habsent ⟨s.i, hi⟩ le_rfl))
    · by_cases hti : t = ⟨s.i, hi⟩
      · simp only [hti, Function.update_self, Thread.read.injEq] at ht
        rw [← ht, hti]
        exact h.stored p hm
      · simp only [Function.update_of_ne hti] at ht
        exact h.number t vargp ht
    · have hne : t ≠ ⟨s.i, hi⟩ := fun he => absurd (hlt rfl) (by simp [he])
      exact (Function.update_of_ne hne ..).trans (habsent t (hlt rfl).le)
  case h_4 hm =>
    cases hs
    refine ⟨h.same_ptr _ (hm ▸ rfl), fun p hp => (by cases hp), h.number, fun t _ _ _ hle _ => ?_,
      fun hp => absurd rfl hp⟩
    exact h.absent t (by simp [hm]) (by simp [hm]) (by simp [hm]) (Nat.le_of_succ_le hle) fun _ => hle
  case h_5 hm =>
    split_ifs at hs with hi
    · split at hs
      · cases hs
        exact ⟨h.same_ptr s.i (hm ▸ rfl), fun p hp => (by cases hp), h.number, fun t _ hj => absurd rfl hj,
          fun hp => absurd rfl hp⟩
      · cases hs
    · cases hs
      exact ⟨h.same_ptr s.i (hm ▸ rfl), fun p hp => (by cases hp), h.number, fun t _ _ hj => absurd rfl hj,
        fun hp => absurd rfl hp⟩
  case h_6 hm =>
    cases hs
    exact ⟨h.same_ptr _ (hm ▸ rfl), fun p hp => (by cases hp), h.number, fun t hj => absurd rfl hj,
      fun hp => absurd rfl hp⟩
  case h_7 => cases hs

theorem absent_update (h : Inv s) (ht : s.threads t ≠ .absent) (x : Thread) (u : Fin n) (h1 : s.main ≠ .join)
    (h2 : s.main ≠ .joinInc) (h3 : s.main ≠ .exit) (hle : s.i ≤ u) (hlt : s.main = .createInc → s.i < u) :
    Function.update s.threads t x u = .absent := by
  have hu := h.absent u h1 h2 h3 hle hlt
  have hne : u ≠ t := by
    rintro rfl
    exact ht hu
  rw [Function.update_of_ne hne, hu]

theorem same_ptr_thread (h : Inv s) (hptr : x.ptr = (s.threads t).ptr) :
    Owned s.heap (State.holds { s with threads := Function.update s.threads t x }) := by
  have hholds : State.holds { s with threads := Function.update s.threads t x } = s.holds := by
    rw [holds_thread s t x s.heap, hptr]
    exact Function.update_eq_self ..
  rw [hholds]
  exact h.owned

theorem read_update (hx : ∀ p, x ≠ .read p) {u : Fin n} {q : Nat}
    (hu : Function.update s.threads t x u = .read q) : u ≠ t ∧ s.threads u = .read q := by
  by_cases hut : u = t
  · rw [hut, Function.update_self] at hu
    exact absurd hu (hx q)
  · rw [Function.update_of_ne hut] at hu
    exact ⟨hut, hu⟩

theorem thread (h : Inv s) (hs : threadStep s t = some s') : Inv s' := by
  unfold threadStep at hs
  split at hs
  case h_1 vargp ht =>
    obtain ⟨v, hv, rfl⟩ := Option.map_eq_some_iff.1 hs
    refine ⟨h.same_ptr_thread (ht ▸ rfl), h.stored, fun u q hu => ?_, h.absent_update (by simp [ht]) _, h.inLoop⟩
    exact h.number u q (read_update (by simp) hu).2
  case h_2 vargp myid ht =>
    have hp : s.holds (some t) = some vargp := congrArg Thread.ptr ht
    split_ifs at hs
    cases hs
    refine ⟨?_, fun q hq => ?_, fun u q hu => ?_, h.absent_update (by simp [ht]) _, h.inLoop⟩
    · rw [holds_thread s t (.print myid)]
      exact h.owned.giveBack hp
    · have hne : vargp ≠ q := h.main_ne (congrArg Main.ptr hq) hp
      exact (Function.update_of_ne hne.symm ..).trans (h.stored q hq)
    · obtain ⟨hut, hread⟩ := read_update (by simp) hu
      have hne : q ≠ vargp := fun he =>
        hut (Option.some.inj (h.owned.distinct (some u) (some t) q (congrArg Thread.ptr hread) (he ▸ hp)))
      exact (Function.update_of_ne hne ..).trans (h.number u q hread)
  case h_3 myid ht =>
    cases hs
    refine ⟨h.same_ptr_thread (ht ▸ rfl), h.stored, fun u q hu => ?_, h.absent_update (by simp [ht]) _, h.inLoop⟩
    exact h.number u q (read_update (by simp) hu).2
  case h_4 => cases hs

theorem reach (h : (norace n).Reachable s) : Inv s := by
  refine Machine.Reach.invariant h ?_ fun s l s' hi _ hst => ?_
  · rintro s rfl
    exact start n
  · cases l with
    | main ptr junk => exact hi.main hst
    | thread t => exact hi.thread hst

end Inv

/-! ### Private cells -/

def Main.abs : Main → Race.Main
  | .malloc | .store _ | .create _ => .create
  | .createInc => .createInc
  | .join => .join
  | .joinInc => .joinInc
  | .exit => .exit

/-- A thread that has not printed is still to read its private cell. -/
def Thread.abs (heap : Nat → Option Nat) : Thread → Race.Thread
  | .absent => .absent
  | .read vargp => .ready ((heap vargp).getD 0)
  | .free _ myid | .print myid => .ready myid
  | .done myid => .done myid

def State.abs (s : State n) : Race.State n := ⟨s.main.abs, s.i, fun t => (s.threads t).abs s.heap⟩

/-- A thread sees the heap only in the cell that it is going to read. -/
theorem Thread.abs_congr {heap heap' : Nat → Option Nat} (h : ∀ vargp, x = .read vargp → heap' vargp = heap vargp) :
    x.abs heap' = x.abs heap := by
  cases x with
  | read vargp => simp only [Thread.abs, h vargp rfl]
  | absent | free | print | done => rfl

theorem abs_main (h : Inv s) (hs : mainStep ptr junk s = some s') :
    s'.abs = s.abs ∨ Race.mainStep s.abs = some s'.abs := by
  have hsame (p v : Nat) (hp : ∀ t, s.threads t ≠ .read p) :
      (fun t => (s.threads t).abs (Function.update s.heap p (some v))) = fun t => (s.threads t).abs s.heap := by
    refine funext fun t => Thread.abs_congr fun q hq => Function.update_of_ne ?_ ..
    rintro rfl
    exact hp t hq
  unfold mainStep at hs
  split at hs
  case h_1 hm =>
    split_ifs at hs with hi hfree
    · cases hs
      refine .inl ?_
      have hp : ∀ t, s.threads t ≠ .read ptr := fun t ht => h.owned.ne_of_free hfree (some t) (congrArg Thread.ptr ht)
      simp only [State.abs, hm, Main.abs, hsame ptr junk hp]
    · cases hs
      refine .inr ?_
      simp only [State.abs, hm, Main.abs, Race.mainStep, dif_neg hi]
  case h_2 p hm =>
    split_ifs at hs
    cases hs
    refine .inl ?_
    have hp : ∀ t, s.threads t ≠ .read p := fun t ht =>
      h.main_ne (congrArg Main.ptr hm) (congrArg Thread.ptr ht) rfl
    simp only [State.abs, hm, Main.abs, hsame p s.i hp]
  case h_3 p hm =>
    split_ifs at hs with hi
    cases hs
    refine .inr ?_
    simp only [State.abs, hm, Main.abs, Race.mainStep, dif_pos hi, Option.some.injEq, Race.State.mk.injEq, true_and]
    funext t
    by_cases ht : t = ⟨s.i, hi⟩
    · simp only [ht, Function.update_self, Thread.abs, h.stored p hm, Option.getD_some]
    · simp only [Function.update_of_ne ht]
  case h_4 hm =>
    cases hs
    refine .inr ?_
    simp only [State.abs, hm, Main.abs, Race.mainStep]
  case h_5 hm =>
    split_ifs at hs with hi
    · split at hs
      · cases hs
        refine .inr ?_
        simp only [State.abs, hm, Main.abs, Race.mainStep, dif_pos hi, ‹s.threads _ = _›, Thread.abs]
      · cases hs
    · cases hs
      refine .inr ?_
      simp only [State.abs, hm, Main.abs, Race.mainStep, dif_neg hi]
  case h_6 hm =>
    cases hs
    refine .inr ?_
    simp only [State.abs, hm, Main.abs, Race.mainStep]
  case h_7 => cases hs

theorem abs_thread (h : Inv s) (hs : threadStep s t = some s') :
    s'.abs = s.abs ∨ Race.threadStep false s.abs t = some s'.abs := by
  unfold threadStep at hs
  split at hs
  case h_1 vargp ht =>
    obtain ⟨v, hv, rfl⟩ := Option.map_eq_some_iff.1 hs
    refine .inl ?_
    simp only [State.abs, Race.State.mk.injEq, true_and]
    funext u
    by_cases hu : u = t
    · simp only [hu, Function.update_self, ht, Thread.abs, hv, Option.getD_some]
    · simp only [Function.update_of_ne hu]
  case h_2 vargp myid ht =>
    split_ifs at hs
    cases hs
    refine .inl ?_
    simp only [State.abs, Race.State.mk.injEq, true_and]
    funext u
    by_cases hu : u = t
    · simp only [hu, Function.update_self, ht, Thread.abs]
    · simp only [Function.update_of_ne hu]
      refine Thread.abs_congr fun q hq => Function.update_of_ne (fun he => hu ?_) ..
      exact Option.some.inj
        (h.owned.distinct (some u) (some t) q (congrArg Thread.ptr hq) (he ▸ congrArg Thread.ptr ht))
  case h_3 myid ht =>
    cases hs
    refine .inr ?_
    have habs : s.abs.threads t = .ready myid := congrArg (Thread.abs s.heap) ht
    have hstep : Race.threadStep false s.abs t =
        some { s.abs with threads := Function.update s.abs.threads t (.done myid) } := by
      simp only [Race.threadStep, habs]
      rfl
    rw [hstep]
    simp only [State.abs, Option.some.injEq, Race.State.mk.injEq, true_and]
    funext u
    by_cases hu : u = t
    · simp only [hu, Function.update_self, Thread.abs]
    · simp only [Function.update_of_ne hu]
  case h_4 => cases hs

/-- **The cells are private**: every run is one of the program in which they are by definition. -/
theorem abs_reach (h : (norace n).Reachable s) : (Race.privateCells n).Reachable s.abs := by
  refine h.simulates ?_ fun s l s' hr hst => ?_
  · rintro s rfl
    rfl
  · have hi := Inv.reach hr
    cases l with
    | main ptr junk => exact (abs_main hi hst).imp_right fun h => ⟨none, h⟩
    | thread t => exact (abs_thread hi hst).imp_right fun h => ⟨some t, h⟩

/-! ### Results -/

theorem Thread.abs_eq_done {heap : Nat → Option Nat} {myid : Nat} : x.abs heap = .done myid ↔ x = .done myid := by
  cases x <;> simp [Thread.abs]

/-- The cells in use are allocated, so that a thread that has not returned can go on. -/
theorem Inv.thread_progress (h : Inv s) (ha : s.threads t ≠ .absent) (hd : ∀ myid, s.threads t ≠ .done myid) :
    ∃ s', threadStep s t = some s' := by
  have halloc (p : Nat) (hp : (s.threads t).ptr = some p) : s.heap p ≠ none := (h.owned.allocated p).2 ⟨some t, hp⟩
  unfold threadStep
  cases ht : s.threads t with
  | absent => exact absurd ht ha
  | read vargp =>
    obtain ⟨v, hv⟩ := Option.ne_none_iff_exists'.1 (halloc vargp (by rw [ht]; rfl))
    exact ⟨_, by simp only [hv, Option.map_some]; rfl⟩
  | free vargp myid => exact ⟨_, if_pos (halloc vargp (by rw [ht]; rfl))⟩
  | print myid => exact ⟨_, rfl⟩
  | done myid => exact absurd ht (hd myid)

theorem progress (h : (norace n).Reachable s) (hexit : s.main ≠ .exit) : ∃ l s', (norace n).step s l s' := by
  have hi := Inv.reach h
  have hrace := Race.Inv.reach (abs_reach h)
  have hmain : (∃ ptr junk s', mainStep ptr junk s = some s') → ∃ l s', (norace n).step s l s' := by
    rintro ⟨ptr, junk, s', hs⟩
    exact ⟨.main ptr junk, s', hs⟩
  cases hm : s.main with
  | malloc =>
    obtain ⟨ptr, hptr⟩ := hi.owned.exists_free
    refine hmain ⟨ptr, 0, ?_⟩
    simp only [mainStep, hm, hptr, if_true]
    split_ifs <;> exact ⟨_, rfl⟩
  | store ptr =>
    have hne : s.heap ptr ≠ none := (hi.owned.allocated ptr).2 ⟨none, congrArg Main.ptr hm⟩
    exact hmain ⟨0, 0, _, by simp only [mainStep, hm]; exact if_pos hne⟩
  | create ptr =>
    have hlt := hi.inLoop (by rw [hm]; exact Option.some_ne_none ptr)
    exact hmain ⟨0, 0, _, by simp only [mainStep, hm]; exact dif_pos hlt⟩
  | createInc => exact hmain ⟨0, 0, _, by simp only [mainStep, hm]; rfl⟩
  | join =>
    by_cases hlt : s.i < n
    · by_cases hd : ∃ myid, s.threads ⟨s.i, hlt⟩ = .done myid
      · obtain ⟨myid, hd⟩ := hd
        exact hmain ⟨0, 0, _, by simp only [mainStep, hm, dif_pos hlt, hd]; rfl⟩
      · have hmade := hrace.made ⟨s.i, hlt⟩ (by simp [State.abs, hm, Main.abs]) (by simp [State.abs, hm, Main.abs])
        obtain ⟨s', hs⟩ := hi.thread_progress (t := ⟨s.i, hlt⟩) (fun ha => hmade (congrArg (Thread.abs s.heap) ha))
          fun myid he => hd ⟨myid, he⟩
        exact ⟨.thread _, s', hs⟩
    · exact hmain ⟨0, 0, _, by simp only [mainStep, hm]; exact dif_neg hlt⟩
  | joinInc => exact hmain ⟨0, 0, _, by simp only [mainStep, hm]; rfl⟩
  | exit => exact absurd hm hexit

/-- **`norace.c`**: nobody shares a cell or uses one that is not allocated, there is no deadlock, and when `main` exits
each thread has printed its number and all cells are free. -/
theorem norace_results (n : Nat) : ∀ s, (norace n).Reachable s → Owned s.heap s.holds ∧
    (s.main ≠ .exit → ∃ l s', (norace n).step s l s') ∧
    (s.main = .exit → (∀ t, s.threads t = .done t) ∧ ∀ ptr, s.heap ptr = none) := by
  intro s h
  have hi := Inv.reach h
  refine ⟨hi.owned, progress h, fun hexit => ?_⟩
  have hdone : ∀ t, s.threads t = .done t := by
    intro t
    obtain ⟨v, hv, rfl⟩ := (Race.Inv.reach (abs_reach h)).printed (by rw [State.abs, hexit]; rfl) t
    exact Thread.abs_eq_done.1 hv
  refine ⟨hdone, fun ptr => ?_⟩
  by_contra hne
  obtain ⟨o, ho⟩ := (hi.owned.allocated ptr).1 hne
  cases o with
  | none =>
    rw [State.holds, hexit] at ho
    cases ho
  | some t =>
    rw [State.holds, hdone t] at ho
    cases ho

/-- Thread `u` gets the cell that thread `t` has freed, and prints before it. -/
def reused (t u : Fin n) : List (Choice n) :=
  [.main 7 0, .main 0 0, .main 0 0, .thread t, .thread t, .main 0 0, .main 7 0, .main 0 0, .main 0 0, .thread u,
    .thread u, .thread u, .main 0 0, .main 0 0, .thread t, .main 0 0, .main 0 0, .main 0 0, .main 0 0, .main 0 0]

theorem norace_results_two : ∃ s, (norace 2).Reachable s ∧ (∀ t, s.threads t = .done t) ∧ ∀ ptr, s.heap ptr = none := by
  obtain ⟨s, h, hexit⟩ := Machine.Reachable.exists_run (M := norace 2) (f := step) (p := fun s => s.main = .exit)
    (.init rfl) (fun _ _ _ h => h) (reused 0 1) (by decide)
  exact ⟨s, h, (norace_results 2 s h).2.2 hexit⟩

end CsappLab.Norace
