import CsappLab.Lib.CInt
import CsappLab.Lib.Threads

/-!
# Threads that add to a global variable

`badcnt.c`, `goodcnt.c` and `psum-mutex.c`: every thread adds a number to a global variable in each round of
its loop, in the last two programs between `P(&mutex)` and `V(&mutex)`. A statement such as `cnt++` reads the
variable and then writes it.
-/

namespace CsappLab.Counters

open CInt

/-- `cnt` or `gsum`, and the semaphore. -/
structure Shared where
  cnt : Int
  mutex : Nat

/-- The next step of a thread in round `i`; `v` is what it has read. -/
inductive Point
  | test (i : Nat)
  | lock (i : Nat)
  | read (i : Nat)
  | write (i : Nat) (v : Int)
  | unlock (i : Nat)
  | ret
deriving DecidableEq

/-- The loop of a thread goes from `first` to `bound`. -/
structure Thread where
  first : Nat
  bound : Int
  point : Point

namespace Thread

def goto (l : Thread) (p : Point) : Thread := { l with point := p }

@[simp] theorem goto_first (l : Thread) (p : Point) : (l.goto p).first = l.first := rfl

@[simp] theorem goto_bound (l : Thread) (p : Point) : (l.goto p).bound = l.bound := rfl

@[simp] theorem goto_point (l : Thread) (p : Point) : (l.goto p).point = p := rfl

end Thread

/-- One step of a thread that adds `add i` in round `i`, inside the semaphore if `sem`; `none` while `P` waits. -/
def step (sem : Bool) (add : Nat → Int) (_ : Unit) (s : Shared) (l : Thread) : Option (Shared × Thread) :=
  match l.point with
  | .test i =>
    if i < l.bound then some (s, l.goto (if sem then .lock i else .read i)) else some (s, l.goto .ret)
  | .lock i => if 0 < s.mutex then some ({ s with mutex := s.mutex - 1 }, l.goto (.read i)) else none
  | .read i => some (s, l.goto (.write i s.cnt))
  | .write i v => some ({ s with cnt := v + add i }, l.goto (if sem then .unlock i else .test (i + 1)))
  | .unlock i => some ({ s with mutex := s.mutex + 1 }, l.goto (.test (i + 1)))
  | .ret => none

abbrev CountConf (T : Type*) := Conf T Shared Thread

/-- The threads when they have been created, with the range of each loop. -/
def created {T : Type*} (range : T → Nat × Int) : CountConf T :=
  ⟨⟨0, 1⟩, fun t => ⟨(range t).1, (range t).2, .test (range t).1⟩⟩

def program {T : Type*} [DecidableEq T] (sem : Bool) (add : Nat → Int) (range : T → Nat × Int) :
    Machine (CountConf T) (T × Unit) :=
  Conf.threads (fun c => c = created range) (step sem add)

def Finished {T : Type*} (c : CountConf T) : Prop := ∀ t, (c.loc t).point = .ret

def badcnt (niters : Int) : Machine (CountConf (Fin 2)) (Fin 2 × Unit) :=
  program false (fun _ => 1) fun _ => (0, niters)

def goodcnt (niters : Int) : Machine (CountConf (Fin 2)) (Fin 2 × Unit) :=
  program true (fun _ => 1) fun _ => (0, niters)

/-- `sum_mutex` of `psum-mutex.c`: the range of the thread `myid`. -/
def sumMutex (nelemsPerThread myid : Nat) : Nat × Int :=
  let start := myid * nelemsPerThread
  (start, (start + nelemsPerThread : Nat))

def MAXTHREADS : Nat := 32

/-- What the first loop of `main` writes to the array `myid`. -/
def myids (i : Fin MAXTHREADS) : Nat := i

/-- `psum-mutex.c`, when its arguments have been checked. Thread `i` is handed a pointer to `myid[i]`, which with
more threads would lie outside the array. -/
def psumMutex (nthreads logNelems : Nat) (hmax : nthreads ≤ MAXTHREADS) :
    Machine (CountConf (Fin nthreads)) (Fin nthreads × Unit) :=
  let nelems := 2 ^ logNelems
  let nelemsPerThread := nelems / nthreads
  program true (fun i => i) fun i => sumMutex nelemsPerThread (myids (Fin.castLE hmax i))

/-- What `main` prints at the end. -/
inductive Verdict
  | ok (cnt : Int)
  | boom (cnt : Int)
deriving DecidableEq

/-- The end of `main` in `badcnt.c`, where `niters` is a `long`. -/
def badcntCheck (niters cnt : Int) : Verdict := if cnt ≠ 2 * niters then .boom cnt else .ok cnt

/-- The end of `main` in `goodcnt.c`, where `niters` is an `int`. -/
def goodcntCheck (niters cnt : Int) : Verdict := if cnt ≠ i32 (2 * niters) then .boom cnt else .ok cnt

/-- The end of `main` in `psum-mutex.c`: the wrong result that it prints. -/
def psumCheck (logNelems : Nat) (gsum : Int) : Option Int :=
  let nelems : Int := 2 ^ logNelems
  if gsum ≠ (nelems * (nelems - 1)).tdiv 2 then some gsum else none

/-! ### A thread -/

namespace Thread

/-- The value of the loop variable at the end. -/
def last (l : Thread) : Nat := max l.first l.bound.toNat

/-- The rounds before this one have been added. -/
def index (l : Thread) : Nat :=
  match l.point with
  | .test i | .lock i | .read i | .write i _ => i
  | .unlock i => i + 1
  | .ret => l.last

def crit (l : Thread) : Nat :=
  match l.point with
  | .read _ | .write _ _ | .unlock _ => 1
  | _ => 0

def added (add : Nat → Int) (l : Thread) : Int := ∑ k ∈ Finset.Ico l.first l.index, add k

/-- More steps than the thread has before it. -/
def left (l : Thread) : Nat :=
  match l.point with
  | .test i => 5 * (l.last - i) + 1
  | .lock i => 5 * (l.last - i)
  | .read i => 5 * (l.last - i) - 1
  | .write i _ => 5 * (l.last - i) - 2
  | .unlock i => 5 * (l.last - i) - 3
  | .ret => 0

def Ok (l : Thread) : Prop :=
  match l.point with
  | .test i => l.first ≤ i ∧ i ≤ l.last
  | .lock i | .read i | .write i _ | .unlock i => l.first ≤ i ∧ i < l.last
  | .ret => True

end Thread

variable {T : Type*} [DecidableEq T] {sem : Bool} {add : Nat → Int} {range : T → Nat × Int} {c c' : CountConf T}
  {s s' : Shared} {l l' : Thread} {p : Point} {t : T} {i : Nat} {v : Int}

/-! ### Steps -/

/-- What a step does. -/
inductive Does (sem : Bool) (add : Nat → Int) (s : Shared) (l : Thread) : Shared → Point → Prop
  | enter (i : Nat) : l.point = .test i → i < l.bound → Does sem add s l s (if sem then .lock i else .read i)
  | leave (i : Nat) : l.point = .test i → ¬ i < l.bound → Does sem add s l s .ret
  | lock (i : Nat) : l.point = .lock i → 0 < s.mutex → Does sem add s l { s with mutex := s.mutex - 1 } (.read i)
  | read (i : Nat) : l.point = .read i → Does sem add s l s (.write i s.cnt)
  | write (i : Nat) (v : Int) : l.point = .write i v →
      Does sem add s l { s with cnt := v + add i } (if sem then .unlock i else .test (i + 1))
  | unlock (i : Nat) : l.point = .unlock i → Does sem add s l { s with mutex := s.mutex + 1 } (.test (i + 1))

theorem does_of_step (h : step sem add () s l = some (s', l')) : ∃ p, l' = l.goto p ∧ Does sem add s l s' p := by
  unfold step at h
  split at h
  case h_1 i hi =>
    by_cases hlt : i < l.bound
    · rw [if_pos hlt] at h
      cases h
      exact ⟨_, rfl, .enter i hi hlt⟩
    · rw [if_neg hlt] at h
      cases h
      exact ⟨_, rfl, .leave i hi hlt⟩
  case h_2 i hi =>
    split_ifs at h with hpos
    cases h
    exact ⟨_, rfl, .lock i hi hpos⟩
  case h_3 i hi =>
    cases h
    exact ⟨_, rfl, .read i hi⟩
  case h_4 i v hi =>
    cases h
    exact ⟨_, rfl, .write i v hi⟩
  case h_5 i hi =>
    cases h
    exact ⟨_, rfl, .unlock i hi⟩
  case h_6 => cases h

theorem move_does (h : c.move (step sem add) t () = some c') :
    ∃ s p, c' = ⟨s, Function.update c.loc t ((c.loc t).goto p)⟩ ∧ Does sem add c.shared (c.loc t) s p := by
  obtain ⟨s, l, hstep, rfl⟩ := Conf.move_eq_some.1 h
  obtain ⟨p, rfl, hdoes⟩ := does_of_step hstep
  exact ⟨s, p, rfl, hdoes⟩

namespace Thread

theorem goto_last (l : Thread) (p : Point) : (l.goto p).last = l.last := rfl

theorem Ok.lt_iff (h : l.Ok) (hp : l.point = .test i) : i < l.bound ↔ i < l.last := by
  unfold Ok at h
  rw [hp] at h
  unfold last at h ⊢
  omega

theorem Ok.index_le (h : l.Ok) : l.first ≤ l.index ∧ l.index ≤ l.last := by
  have hlast : l.first ≤ l.last := le_max_left _ _
  unfold Ok at h
  unfold index
  split <;> simp_all <;> omega

end Thread

theorem Does.ok (h : Does sem add s l s' p) (hok : l.Ok) : (l.goto p).Ok ∧ (l.goto p).left < l.left := by
  cases h with
  | enter i hp hlt =>
    have hlt' := (hok.lt_iff hp).1 hlt
    unfold Thread.Ok at hok
    rw [hp] at hok
    cases sem <;> simp [Thread.Ok, Thread.left, hp, Thread.goto_last] <;> omega
  | leave i hp => simp [Thread.Ok, Thread.left, hp]
  | lock i hp | read i hp | write i v hp | unlock i hp =>
    unfold Thread.Ok at hok
    rw [hp] at hok
    cases sem <;> simp [Thread.Ok, Thread.left, hp, Thread.goto_last] <;> omega

theorem Does.index (h : Does sem add s l s' p) (hok : l.Ok) :
    (s'.cnt = s.cnt ∧ (l.goto p).index = l.index ∧ ∀ i v, p = .write i v → v = s.cnt ∧ i = l.index) ∨
    ∃ i v, l.point = .write i v ∧ s'.cnt = v + add i ∧ (l.goto p).index = i + 1 ∧ ∀ i v, p ≠ .write i v := by
  cases h with
  | enter i hp hlt => exact .inl ⟨rfl, by cases sem <;> simp [Thread.index, hp], by cases sem <;> simp⟩
  | leave i hp hge =>
    refine .inl ⟨rfl, ?_, by simp⟩
    have hnot := mt (hok.lt_iff hp).2 hge
    unfold Thread.Ok at hok
    rw [hp] at hok
    simp [Thread.index, hp, Thread.goto_last]
    omega
  | lock i hp => exact .inl ⟨rfl, by simp [Thread.index, hp], by simp⟩
  | read i hp =>
    refine .inl ⟨rfl, by simp [Thread.index, hp], ?_⟩
    rintro j v hw
    cases hw
    exact ⟨rfl, by simp [Thread.index, hp]⟩
  | write i v hp => exact .inr ⟨i, v, hp, rfl, by cases sem <;> simp [Thread.index], by cases sem <;> simp⟩
  | unlock i hp => exact .inl ⟨rfl, by simp [Thread.index, hp], by simp⟩

def InRange (range : T → Nat × Int) (c : CountConf T) : Prop :=
  ∀ t, (c.loc t).Ok ∧ (c.loc t).first = (range t).1 ∧ (c.loc t).bound = (range t).2

omit [DecidableEq T] in
theorem inRange_created (range : T → Nat × Int) : InRange range (created range) :=
  fun _ => ⟨⟨le_refl _, le_max_left _ _⟩, rfl, rfl⟩

theorem forall_goto {q : Thread → Prop} (ht : q l) (hj : ∀ j, q (c.loc j)) (j : T) :
    q (Function.update c.loc t l j) := by
  by_cases hjt : j = t
  · rw [hjt, Function.update_self]
    exact ht
  · rw [Function.update_of_ne hjt]
    exact hj j

theorem InRange.move (h : InRange range c) (hstep : c.move (step sem add) t () = some c') : InRange range c' := by
  obtain ⟨s, p, rfl, hdoes⟩ := move_does hstep
  intro j
  by_cases hjt : j = t
  · subst hjt
    have hrange := (h j).2
    simp only [Function.update_self]
    exact ⟨(hdoes.ok (h j).1).1, hrange⟩
  · simp only [Function.update_of_ne hjt]
    exact h j

section Total
variable [Fintype T]

theorem InRange.length_le {ls : List (T × Unit)} (h : InRange range c)
    (hrun : (program sem add range).Steps c ls c') : ls.length + ∑ j, (c'.loc j).left ≤ ∑ j, (c.loc j).left := by
  refine Conf.length_le Thread.left (fun c t ch c' hc hmove => hc.move hmove) (fun c t ch s l hc hs => ?_) h hrun
  obtain ⟨p, rfl, hdoes⟩ := does_of_step hs
  exact (hdoes.ok (hc t).1).2

/-! ### With the semaphore -/

/-- What the semaphore is for: the variable is the sum of what the threads have added. -/
structure Inv (add : Nat → Int) (range : T → Nat × Int) (c : CountConf T) : Prop where
  inRange : InRange range c
  mutex : c.shared.mutex + ∑ t, (c.loc t).crit = 1
  cnt : c.shared.cnt = ∑ t, (c.loc t).added add
  fresh : ∀ t i v, (c.loc t).point = .write i v → v = c.shared.cnt

namespace Inv

omit [DecidableEq T] in
theorem created (add : Nat → Int) (range : T → Nat × Int) : Inv add range (created range) := by
  refine ⟨inRange_created range, ?_, ?_, ?_⟩
  · simp [Counters.created, Thread.crit]
  · simp [Counters.created, Thread.added, Thread.index]
  · intro t i v hw
    cases hw

theorem alone (h : Inv add range c) {j : T} (ht : (c.loc t).crit = 1) (hj : j ≠ t) : (c.loc j).crit = 0 := by
  have hm := h.mutex
  exact eq_zero_of_sum_le_one (f := Thread.crit) (by omega) (by omega) hj

theorem not_write (hcrit : l.crit = 0) : l.point ≠ .write i v := by
  intro hp
  unfold Thread.crit at hcrit
  rw [hp] at hcrit
  cases hcrit

theorem crit_step (hdoes : Does true add s l s' p) : s'.mutex + (l.goto p).crit = s.mutex + l.crit := by
  cases hdoes <;> simp_all [Thread.crit]
  omega

theorem added_step (hdoes : Does sem add s l s' p) (hok : l.Ok) (hfresh : ∀ i v, l.point = .write i v → v = s.cnt) :
    s'.cnt + l.added add = s.cnt + (l.goto p).added add := by
  rcases hdoes.index hok with ⟨hcnt, hindex, -⟩ | ⟨i, v, hp, hcnt, hindex, -⟩
  · unfold Thread.added
    rw [hcnt, hindex, Thread.goto_first]
  · have hi : l.index = i := by simp [Thread.index, hp]
    have hle := hok.index_le.1
    rw [hi] at hle
    unfold Thread.added
    rw [hcnt, hindex, Thread.goto_first, hi, hfresh i v hp, Finset.sum_Ico_succ_top hle]
    ring

theorem move (h : Inv add range c) (hstep : c.move (step true add) t () = some c') : Inv add range c' := by
  have hrange := h.inRange.move hstep
  obtain ⟨s, p, rfl, hdoes⟩ := move_does hstep
  have hok := (h.inRange t).1
  refine ⟨hrange, ?_, ?_, ?_⟩
  · have hsum := sum_update Thread.crit c.loc t ((c.loc t).goto p)
    have := crit_step hdoes
    have := h.mutex
    simp only
    omega
  · have hsum := sum_update (Thread.added add) c.loc t ((c.loc t).goto p)
    have := added_step hdoes hok (h.fresh t)
    have := h.cnt
    simp only
    omega
  · intro j i v hw
    by_cases hjt : j = t
    · subst hjt
      simp only [Function.update_self, Thread.goto_point] at hw
      rcases hdoes.index hok with ⟨hcnt, -, hread⟩ | ⟨_, _, _, _, _, hnot⟩
      · rw [(hread i v hw).1]
        exact hcnt.symm
      · exact absurd hw (hnot i v)
    · simp only [Function.update_of_ne hjt] at hw
      rw [h.fresh j i v hw]
      -- another thread that is about to write holds the semaphore, so this one does not write
      rcases hdoes.index hok with ⟨hcnt, -⟩ | ⟨k, u, hp, -⟩
      · exact hcnt.symm
      · have hcrit : (c.loc t).crit = 1 := by simp [Thread.crit, hp]
        exact absurd hw (not_write (h.alone hcrit hjt))

theorem reach (h : (program true add range).Reachable c) : Inv add range c := by
  refine Machine.Reach.invariant h ?_ fun c l c' hi _ hst => hi.move hst
  rintro c rfl
  exact created add range

omit [DecidableEq T] in
theorem cnt_eq (h : Inv add range c) (hfin : Finished c) :
    c.shared.cnt = ∑ t, ∑ k ∈ Finset.Ico (range t).1 (range t).2.toNat, add k := by
  rw [h.cnt]
  refine Finset.sum_congr rfl fun t _ => ?_
  obtain ⟨-, hfirst, hbound⟩ := h.inRange t
  unfold Thread.added Thread.index
  rw [hfin t]
  simp only [Thread.last, hfirst, hbound]
  rcases le_total (range t).1 (range t).2.toNat with hle | hle
  · rw [max_eq_right hle]
  · rw [max_eq_left hle, Finset.Ico_self, Finset.Ico_eq_empty_of_le hle]

omit [DecidableEq T] in
theorem cnt_le (h : Inv add range c) (hadd : ∀ k, 0 ≤ add k) :
    0 ≤ c.shared.cnt ∧ c.shared.cnt ≤ ∑ t, ∑ k ∈ Finset.Ico (range t).1 (range t).2.toNat, add k := by
  rw [h.cnt]
  refine ⟨Finset.sum_nonneg fun t _ => Finset.sum_nonneg fun k _ => hadd k, Finset.sum_le_sum fun t _ => ?_⟩
  obtain ⟨hok, hfirst, hbound⟩ := h.inRange t
  have hle := hok.index_le
  refine Finset.sum_le_sum_of_subset_of_nonneg (fun k hk => ?_) fun k _ _ => hadd k
  rw [Finset.mem_Ico] at hk ⊢
  unfold Thread.last at hle
  omega

theorem progress (h : Inv add range c) (hfin : ¬ Finished c) : ∃ t c', c.move (step true add) t () = some c' := by
  by_contra hnone
  have hwait : ∀ t, step true add () c.shared (c.loc t) = none := Conf.step_eq_none hnone
  -- who is between `P` and `V` does not wait
  have hzero : ∑ t, (c.loc t).crit = 0 := by
    refine sum_eq_zero fun t => ?_
    have ht := hwait t
    unfold step at ht
    unfold Thread.crit
    split at ht <;> simp_all
  obtain ⟨t, ht⟩ := not_forall.1 hfin
  have hpos : 0 < c.shared.mutex := by
    have := h.mutex
    omega
  have hstep := hwait t
  unfold step at hstep
  split at hstep
  · split_ifs at hstep
  · rw [if_pos hpos] at hstep
    cases hstep
  · cases hstep
  · cases hstep
  · cases hstep
  · exact ht ‹_›

end Inv

/-- Whatever the order of the steps, every run goes on to its end, and `result` is in the variable there. No value
on the way is outside `0` and `result`. -/
structure Computes (M : Machine (CountConf T) (T × Unit)) (result : Int) : Prop where
  bounds : ∀ c, M.Reachable c → 0 ≤ c.shared.cnt ∧ c.shared.cnt ≤ result
  goes_on : ∀ c, M.Reachable c → ¬ Finished c → ∃ l c', M.step c l c'
  ends : ∃ k, ∀ c ls c', M.init c → M.Steps c ls c' → ls.length ≤ k
  result : ∀ c, M.Reachable c → Finished c → c.shared.cnt = result

theorem computes (add : Nat → Int) (range : T → Nat × Int) (hadd : ∀ k, 0 ≤ add k) :
    Computes (program true add range) (∑ t, ∑ k ∈ Finset.Ico (range t).1 (range t).2.toNat, add k) := by
  refine ⟨fun c h => (Inv.reach h).cnt_le hadd, ?_, ?_, fun c h => (Inv.reach h).cnt_eq⟩
  · intro c h hfin
    obtain ⟨t, c', hmove⟩ := (Inv.reach h).progress hfin
    exact ⟨(t, ()), c', hmove⟩
  · refine ⟨∑ j, ((created range).loc j).left, ?_⟩
    rintro c ls c' rfl hrun
    have := (inRange_created range).length_le hrun
    omega

end Total

theorem sum_goodcnt (niters : Int) :
    ∑ _t : Fin 2, ∑ _k ∈ Finset.Ico 0 niters.toNat, (1 : Int) = 2 * max niters 0 := by
  simp

theorem goodcntCheck_ok_iff {niters : Int} (hlo : -2 ^ 31 ≤ niters) (hhi : niters < 2 ^ 31) :
    goodcntCheck niters (2 * max niters 0) = .ok (2 * max niters 0) ↔
      0 ≤ niters ∧ niters < 2 ^ 30 ∨ niters = -2 ^ 31 := by
  have hmod := i32_emod (2 * niters)
  have hrange := i32_range (2 * niters)
  unfold goodcntCheck
  constructor
  · intro h
    split_ifs at h with heq
    omega
  · intro h
    rw [if_neg (not_not.2 _)]
    omega

/-- **`goodcnt.c`**: whatever the order of the steps, both threads come to their ends, and every round has been
counted there. `main` says so unless the `int` in its check overflows or `niters` is negative. -/
theorem goodcnt_counts (niters : Int) (hlo : -2 ^ 31 ≤ niters) (hhi : niters < 2 ^ 31) :
    Computes (goodcnt niters) (2 * max niters 0) ∧
    ∀ c, (goodcnt niters).Reachable c → Finished c →
      (goodcntCheck niters c.shared.cnt = .ok c.shared.cnt ↔ 0 ≤ niters ∧ niters < 2 ^ 30 ∨ niters = -2 ^ 31) := by
  have hcomputes : Computes (goodcnt niters) (2 * max niters 0) := by
    rw [← sum_goodcnt]
    exact computes (fun _ => 1) (fun _ => (0, niters)) fun _ => by decide
  refine ⟨hcomputes, fun c h hfin => ?_⟩
  rw [hcomputes.result c h hfin]
  exact goodcntCheck_ok_iff hlo hhi

/-- All rounds are counted, and the check fails. -/
theorem goodcnt_counts_overflow : Computes (goodcnt (2 ^ 30)) (2 ^ 31) ∧
    ∀ c, (goodcnt (2 ^ 30)).Reachable c → Finished c → goodcntCheck (2 ^ 30) c.shared.cnt ≠ .ok c.shared.cnt := by
  obtain ⟨hcomputes, hcheck⟩ := goodcnt_counts (2 ^ 30) (by decide) (by decide)
  refine ⟨hcomputes, fun c h hfin hok => ?_⟩
  have := (hcheck c h hfin).1 hok
  omega

/-! ### The ranges of `psum-mutex.c` -/

theorem sum_ranges (m n : Nat) (f : Nat → Int) :
    ∑ t : Fin n, ∑ k ∈ Finset.Ico (sumMutex m t).1 (sumMutex m t).2.toNat, f k =
      ∑ k ∈ Finset.range (n * m), f k := by
  rw [Fin.sum_univ_eq_sum_range (fun t => ∑ k ∈ Finset.Ico (sumMutex m t).1 (sumMutex m t).2.toNat, f k)]
  induction n with
  | zero => simp
  | succ n ih =>
    rw [Finset.sum_range_succ, ih, Finset.range_eq_Ico, Finset.range_eq_Ico, Nat.add_mul, Nat.one_mul]
    exact Finset.sum_Ico_consecutive f (Nat.zero_le _) (Nat.le_add_right _ _)

theorem sum_range_eq (n : Nat) : ∑ k ∈ Finset.range n, (k : Int) = ((n : Int) * (n - 1)).tdiv 2 := by
  have h := Finset.sum_range_id_mul_two n
  have hcast : (∑ k ∈ Finset.range n, (k : Int)) * 2 = n * (n - 1) := by
    rcases n with - | n
    · rfl
    · have : (((∑ k ∈ Finset.range (n + 1), k) * 2 : Nat) : Int) = ((n + 1) * n : Nat) := by
        rw [h, Nat.add_sub_cancel]
      push_cast at this ⊢
      rw [this]
      ring
  rw [← hcast, Int.mul_tdiv_cancel _ (by decide)]

/-- **`psum-mutex.c`**: whatever the order of the steps, all threads come to their ends, and the sum is right there,
without an overflow of a `long`. -/
theorem psum_computes (nthreads logNelems : Nat) (hmax : nthreads ≤ MAXTHREADS) (hlog : logNelems ≤ 31)
    (hdvd : nthreads ∣ 2 ^ logNelems) :
    Computes (psumMutex nthreads logNelems hmax) ((2 ^ logNelems * (2 ^ logNelems - 1) : Int).tdiv 2) ∧
    (2 ^ logNelems * (2 ^ logNelems - 1) : Int) < 2 ^ 63 ∧
    ∀ c, (psumMutex nthreads logNelems hmax).Reachable c → Finished c → psumCheck logNelems c.shared.cnt = none := by
  have hcomputes : Computes (psumMutex nthreads logNelems hmax)
      ((2 ^ logNelems * (2 ^ logNelems - 1) : Int).tdiv 2) := by
    have h := computes (fun i => i) (fun myid : Fin nthreads => sumMutex (2 ^ logNelems / nthreads) myid)
      fun _ => Int.natCast_nonneg _
    rw [sum_ranges, Nat.mul_div_cancel' hdvd, sum_range_eq] at h
    exact_mod_cast h
  refine ⟨hcomputes, ?_, ?_⟩
  · have hle : (2 ^ logNelems : Int) ≤ 2 ^ 31 := pow_le_pow_right₀ (by decide) hlog
    have hge : (1 : Int) ≤ 2 ^ logNelems := one_le_pow₀ (by decide)
    nlinarith
  · intro c h hfin
    unfold psumCheck
    rw [hcomputes.result c h hfin]
    exact if_neg (not_not.2 rfl)

theorem psum_computes_four : Computes (psumMutex 4 10 (by decide)) 523776 ∧
    ∀ c, (psumMutex 4 10 (by decide)).Reachable c → Finished c → psumCheck 10 c.shared.cnt = none := by
  obtain ⟨hcomputes, -, hcheck⟩ := psum_computes 4 10 (by decide) (by decide) (by decide)
  exact ⟨hcomputes, hcheck⟩

/-! ### Without the semaphore -/

section Race
variable [Fintype T] {niters : Int}

/-- Threads that count to `niters` each. A value that is written is larger than one that has been there before, so it is
at least 2 behind the first round. -/
structure RaceInv (niters : Int) (c : CountConf T) : Prop where
  inRange : InRange (fun _ => (0, niters)) c
  nonneg : 0 ≤ c.shared.cnt
  upper : c.shared.cnt ≤ ∑ t, (c.loc t).index
  first : (∃ t, 1 ≤ (c.loc t).index) → 1 ≤ c.shared.cnt
  last : (∃ t, (c.loc t).index < niters.toNat) ∨ (min niters.toNat 2 : Nat) ≤ c.shared.cnt
  fresh : ∀ t i v, (c.loc t).point = .write i v → 0 ≤ v ∧ v ≤ ∑ t, (c.loc t).index ∧ (1 ≤ i → 1 ≤ v)

namespace RaceInv

omit [DecidableEq T] in
theorem created [Nonempty T] (niters : Int) : RaceInv niters (created fun _ : T => (0, niters)) := by
  obtain ⟨t⟩ := ‹Nonempty T›
  refine ⟨inRange_created _, le_refl _, ?_, ?_, ?_, ?_⟩
  · exact Int.natCast_nonneg _
  · rintro ⟨j, hj⟩
    exact absurd hj (by simp [Counters.created, Thread.index])
  · rcases Nat.eq_zero_or_pos niters.toNat with h0 | hpos
    · refine .inr ?_
      rw [h0]
      exact le_refl _
    · exact .inl ⟨t, hpos⟩
  · intro j i v hw
    cases hw

theorem move (h : RaceInv niters c) (hstep : c.move (step false fun _ => 1) t () = some c') : RaceInv niters c' := by
  have hrange := h.inRange.move hstep
  obtain ⟨s, p, rfl, hdoes⟩ := move_does hstep
  obtain ⟨hok, hzero, hbound⟩ := h.inRange t
  have hsum := sum_update Thread.index c.loc t ((c.loc t).goto p)
  rcases hdoes.index hok with ⟨hcnt, hindex, hread⟩ | ⟨i, v, hp, hcnt, hindex, hnot⟩
  · -- the variable is kept, and all indices
    have hsame : ∀ j, (Function.update c.loc t ((c.loc t).goto p) j).index = (c.loc j).index := by
      intro j
      by_cases hjt : j = t
      · rw [hjt, Function.update_self, hindex]
      · rw [Function.update_of_ne hjt]
    refine ⟨hrange, ?_, ?_, ?_, ?_, ?_⟩ <;> simp only [hsame, hcnt]
    · exact h.nonneg
    · exact h.upper
    · exact h.first
    · exact h.last
    · intro j i v hw
      by_cases hjt : j = t
      · subst hjt
        simp only [Function.update_self, Thread.goto_point] at hw
        obtain ⟨rfl, rfl⟩ := hread i v hw
        exact ⟨h.nonneg, h.upper, fun h1 => h.first ⟨j, h1⟩⟩
      · simp only [Function.update_of_ne hjt] at hw
        exact h.fresh j i v hw
  · -- round `i` is written
    obtain ⟨hv, hle, hpos⟩ := h.fresh t i v hp
    have hi : (c.loc t).index = i := by simp [Thread.index, hp]
    have htotal : ∑ j, (Function.update c.loc t ((c.loc t).goto p) j).index = ∑ j, (c.loc j).index + 1 := by omega
    refine ⟨hrange, ?_, ?_, ?_, ?_, ?_⟩ <;> simp only [htotal, hcnt]
    · omega
    · omega
    · intro _
      omega
    · have hlast : i < niters.toNat := by
        have hlt : i < (c.loc t).last := by
          unfold Thread.Ok at hok
          rw [hp] at hok
          exact hok.2
        unfold Thread.last at hlt
        rw [hzero, hbound] at hlt
        simpa only [Nat.zero_max] using hlt
      by_cases hn : i + 1 < niters.toNat
      · refine .inl ⟨t, ?_⟩
        rw [Function.update_self, hindex]
        exact hn
      · refine .inr ?_
        rcases Nat.eq_zero_or_pos i with hzero | hone
        · omega
        · have := hpos hone
          omega
    · intro j k u hw
      by_cases hjt : j = t
      · subst hjt
        simp only [Function.update_self, Thread.goto_point] at hw
        exact absurd hw (hnot k u)
      · simp only [Function.update_of_ne hjt] at hw
        obtain ⟨h1, h2, h3⟩ := h.fresh j k u hw
        exact ⟨h1, by omega, h3⟩

theorem reach [Nonempty T] (h : (program false (fun _ => 1) fun _ : T => (0, niters)).Reachable c) :
    RaceInv niters c := by
  refine Machine.Reach.invariant h ?_ fun c l c' hi _ hst => hi.move hst
  rintro c rfl
  exact created niters

end RaceInv

end Race

/-! ### The results of `badcnt.c` -/

section Results
variable {niters : Int} {c : CountConf (Fin 2)} {t : Fin 2}

theorem badcnt_next (h : (badcnt niters).Reachable c) (hl : c.loc t = l)
    (hstep : step false (fun _ => 1) () c.shared l = some (s, l')) :
    (badcnt niters).Reachable ⟨s, Function.update c.loc t l'⟩ :=
  h.next (l := (t, ())) (Conf.move_eq_some.2 ⟨s, l', by rw [hl]; exact hstep, rfl⟩)

theorem badcnt_read (h : (badcnt niters).Reachable c) (hl : c.loc t = ⟨0, niters, .test i⟩) (hi : i < niters.toNat) :
    (badcnt niters).Reachable ⟨c.shared, Function.update c.loc t ⟨0, niters, .write i c.shared.cnt⟩⟩ := by
  have hlt : (i : Int) < niters := by omega
  have htest : step false (fun _ => 1) () c.shared ⟨0, niters, .test i⟩ = some (c.shared, ⟨0, niters, .read i⟩) :=
    if_pos hlt
  have h1 := badcnt_next h hl htest
  have h2 := badcnt_next (t := t) h1 (Function.update_self ..) rfl
  rw [Function.update_idem] at h2
  exact h2

theorem badcnt_write (h : (badcnt niters).Reachable c) (hl : c.loc t = ⟨0, niters, .write i v⟩) :
    (badcnt niters).Reachable
      ⟨⟨v + 1, c.shared.mutex⟩, Function.update c.loc t ⟨0, niters, .test (i + 1)⟩⟩ :=
  badcnt_next h hl rfl

theorem badcnt_rounds (k : Nat) (h : (badcnt niters).Reachable c) (hl : c.loc t = ⟨0, niters, .test i⟩)
    (hk : i + k ≤ niters.toNat) : (badcnt niters).Reachable
      ⟨⟨c.shared.cnt + k, c.shared.mutex⟩, Function.update c.loc t ⟨0, niters, .test (i + k)⟩⟩ := by
  induction k with
  | zero =>
    rw [Nat.cast_zero, add_zero, Nat.add_zero, ← hl, Function.update_eq_self]
    exact h
  | succ k ih =>
    have h1 := badcnt_read (t := t) (ih (by omega)) (Function.update_self ..) (by omega)
    have h2 := badcnt_write (t := t) h1 (Function.update_self ..)
    rw [Function.update_idem, Function.update_idem] at h2
    rw [Nat.cast_succ, ← add_assoc]
    exact h2

theorem badcnt_ret (h : (badcnt niters).Reachable c) (hl : c.loc t = ⟨0, niters, .test i⟩) (hi : niters.toNat ≤ i) :
    (badcnt niters).Reachable ⟨c.shared, Function.update c.loc t ⟨0, niters, .ret⟩⟩ := by
  have hge : ¬ (i : Int) < niters := by omega
  exact badcnt_next h hl (if_neg hge)

theorem badcnt_created (niters : Int) :
    (badcnt niters).Reachable ⟨⟨0, 1⟩, fun _ => ⟨0, niters, .test 0⟩⟩ := .init rfl

theorem finished_two {s : Shared} {loc : Fin 2 → Thread} :
    Finished ⟨s, Function.update (Function.update loc 0 ⟨0, niters, .ret⟩) 1 ⟨0, niters, .ret⟩⟩ := by
  intro t
  match t with
  | 0 => rfl
  | 1 => rfl

/-- Thread 0 reads 0; thread 1 goes through `a` rounds, which the write of thread 0 undoes; thread 0 goes through
`b` further rounds, and thread 1 reads; its write undoes the remaining rounds of thread 0. -/
theorem badcnt_result (niters : Int) (a b : Nat) (ha : a < niters.toNat) (hb : b < niters.toNat) :
    ∃ c, (badcnt niters).Reachable c ∧ Finished c ∧ c.shared.cnt = niters.toNat + 1 + b - a := by
  have h1 := badcnt_read (t := 0) (badcnt_created niters) rfl (by omega)
  have h2 := badcnt_rounds (t := 1) a h1 rfl (by omega)
  have h3 := badcnt_write (t := 0) h2 rfl
  have h4 := badcnt_rounds (t := 0) b h3 rfl (by omega)
  have h5 := badcnt_read (t := 1) h4 rfl (by omega)
  have h6 := badcnt_rounds (t := 0) (niters.toNat - 1 - b) h5 rfl (by omega)
  have h7 := badcnt_write (t := 1) h6 rfl
  have h8 := badcnt_rounds (t := 1) (niters.toNat - 1 - a) h7 rfl (by omega)
  have h9 := badcnt_ret (t := 0) h8 rfl (by omega)
  have h10 := badcnt_ret (t := 1) h9 rfl (by omega)
  refine ⟨_, h10, finished_two, ?_⟩
  simp only
  omega

theorem badcnt_result_none (h : niters.toNat = 0) :
    ∃ c, (badcnt niters).Reachable c ∧ Finished c ∧ c.shared.cnt = 0 := by
  have h1 := badcnt_ret (t := 0) (badcnt_created niters) rfl (by omega)
  have h2 := badcnt_ret (t := 1) h1 rfl (by omega)
  exact ⟨_, h2, finished_two, rfl⟩

theorem badcnt_result_one (h : niters.toNat = 1) :
    ∃ c, (badcnt niters).Reachable c ∧ Finished c ∧ c.shared.cnt = 1 := by
  have h1 := badcnt_read (t := 0) (badcnt_created niters) rfl (by omega)
  have h2 := badcnt_read (t := 1) h1 rfl (by omega)
  have h3 := badcnt_write (t := 0) h2 rfl
  have h4 := badcnt_write (t := 1) h3 rfl
  have h5 := badcnt_ret (t := 0) h4 rfl (by omega)
  have h6 := badcnt_ret (t := 1) h5 rfl (by omega)
  exact ⟨_, h6, finished_two, rfl⟩

theorem badcnt_result_bounds (h : (badcnt niters).Reachable c) (hfin : Finished c) :
    min (max niters 0) 2 ≤ c.shared.cnt ∧ c.shared.cnt ≤ 2 * max niters 0 := by
  have hinv := RaceInv.reach h
  have hindex : ∀ t, (c.loc t).index = niters.toNat := by
    intro t
    obtain ⟨-, hfirst, hbound⟩ := hinv.inRange t
    unfold Thread.index
    rw [hfin t]
    simp only [Thread.last, hfirst, hbound, Nat.zero_max]
  have hupper := hinv.upper
  rw [Fin.sum_univ_two, hindex 0, hindex 1] at hupper
  have hlast := hinv.last.resolve_left fun ⟨t, ht⟩ => absurd (hindex t) ht.ne
  omega

/-- **`badcnt.c`**: the values that can be in `cnt` when both threads have returned, and the only `niters` with which
`main` never complains. -/
theorem badcnt_results (niters : Int) :
    (∀ v, (∃ c, (badcnt niters).Reachable c ∧ Finished c ∧ c.shared.cnt = v) ↔
      min (max niters 0) 2 ≤ v ∧ v ≤ 2 * max niters 0) ∧
    ((∀ c, (badcnt niters).Reachable c → Finished c → badcntCheck niters c.shared.cnt = .ok c.shared.cnt) ↔
      niters = 0) := by
  have hresults : ∀ v, (∃ c, (badcnt niters).Reachable c ∧ Finished c ∧ c.shared.cnt = v) ↔
      min (max niters 0) 2 ≤ v ∧ v ≤ 2 * max niters 0 := by
    intro v
    constructor
    · rintro ⟨c, h, hfin, rfl⟩
      exact badcnt_result_bounds h hfin
    · rintro ⟨hlo, hhi⟩
      by_cases hnone : niters.toNat = 0
      · obtain rfl : v = 0 := by omega
        exact badcnt_result_none hnone
      by_cases hone : v = 1
      · rw [hone]
        exact badcnt_result_one (by omega)
      -- before `niters + 1` rounds of thread 1 are lost, behind it further rounds of thread 0 are kept
      obtain ⟨c, h, hfin, hv⟩ := badcnt_result niters (niters.toNat + 1 - v).toNat
        (v - (niters.toNat + 1)).toNat (by omega) (by omega)
      exact ⟨c, h, hfin, by omega⟩
  refine ⟨hresults, ?_, ?_⟩
  · intro hok
    -- the least result is not the one that `main` wants
    obtain ⟨c, h, hfin, hv⟩ := (hresults (min (max niters 0) 2)).2 ⟨le_refl _, by omega⟩
    have := hok c h hfin
    unfold badcntCheck at this
    split_ifs at this with heq
    omega
  · rintro rfl c h hfin
    have := badcnt_result_bounds h hfin
    unfold badcntCheck
    rw [if_neg (not_not.2 _)]
    omega

end Results

end CsappLab.Counters
