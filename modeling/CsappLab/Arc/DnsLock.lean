import CsappLab.Lib.Threads

/-!
# The lock around `gethostbyname`

`open_clientfd_ts` of the concurrent proxy under `arc`, called by any number of threads. The semaphore
`mutex2` is taken before the lookup, and given back only behind a lookup that succeeds.
-/

namespace CsappLab.Arc

structure Sems where
  mutex2 : Nat

/-- `Sem_init(&mutex2, 0, 1)` -/
def semInit : Sems := ⟨1⟩

/-- The next step of a thread; `out` is outside, with what the last call has returned. -/
inductive Point
  | out (ret : Int)
  | socket
  | lock (clientfd : Int)
  | lookup (clientfd : Int)
  | unlock (clientfd : Int)
  | connect (clientfd : Int)
deriving DecidableEq

/-- One step of `open_clientfd_ts`; `res` is the result of the system call that it makes, 0 for `NULL`.
`none` while `P` waits. -/
def step (res : Int) (s : Sems) : Point → Option (Sems × Point)
  | .out _ => some (s, .socket)
  | .socket => if res < 0 then some (s, .out (-1)) else some (s, .lock res)
  | .lock clientfd => if 0 < s.mutex2 then some (⟨s.mutex2 - 1⟩, .lookup clientfd) else none
  -- the second exit of the function returns without `V(&mutex2)`
  | .lookup clientfd => if res = 0 then some (s, .out (-2)) else some (s, .unlock clientfd)
  | .unlock clientfd => some (⟨s.mutex2 + 1⟩, .connect clientfd)
  | .connect clientfd => if res < 0 then some (s, .out (-1)) else some (s, .out clientfd)

abbrev DnsConf (T : Type*) := Conf T Sems Point

/-- The threads `T`, all of them outside the function at the start. -/
def dns (T : Type*) [DecidableEq T] : Machine (DnsConf T) (T × Int) :=
  Conf.threads (fun c => c = ⟨semInit, fun _ => .out 0⟩) step

def dnsFrom {T : Type*} [DecidableEq T] (c : DnsConf T) : Machine (DnsConf T) (T × Int) :=
  Conf.threads (fun c' => c' = c) step

namespace Point

def Inside : Point → Prop
  | out _ => False
  | _ => True

def Holds : Point → Prop
  | lookup _ | unlock _ => True
  | _ => False

def AtLock : Point → Prop
  | lock _ => True
  | _ => False

end Point

variable {T : Type*} [DecidableEq T] {c c' : DnsConf T} {t j : T} {res : Int} {l : T × Int}

/-- The lookup, if the step makes one, succeeds. -/
def LookupOk (c : DnsConf T) (l : T × Int) : Prop :=
  match c.loc l.1 with
  | .lookup _ => l.2 ≠ 0
  | _ => True

def Waits (c : DnsConf T) (t : T) : Prop := (c.loc t).AtLock ∧ c.shared.mutex2 = 0

/-- The lock is free when nobody is inside, and who waits for it waits for somebody who has it. -/
structure LockOk (c : DnsConf T) : Prop where
  free : (∀ t, ¬ (c.loc t).Inside) → c.shared.mutex2 = 1
  waits : ∀ t, Waits c t → ∃ u, u ≠ t ∧ (c.loc u).Holds ∧ (c.loc u).Inside

/-! ### The steps -/

/-- What a step does to the lock. -/
inductive Effect (c c' : DnsConf T) (t : T) (res : Int) : Prop
  | keep : LookupOk c (t, res) → ((c'.loc t).Holds ↔ (c.loc t).Holds) → c'.shared = c.shared → Effect c c' t res
  | take : LookupOk c (t, res) → ¬ (c.loc t).Holds → (c'.loc t).Holds → 0 < c.shared.mutex2 →
      c'.shared.mutex2 = c.shared.mutex2 - 1 → Effect c c' t res
  | give : LookupOk c (t, res) → (c.loc t).Holds → ¬ (c'.loc t).Holds →
      c'.shared.mutex2 = c.shared.mutex2 + 1 → Effect c c' t res
  | lose : ¬ LookupOk c (t, res) → (c.loc t).Holds → ¬ (c'.loc t).Holds → c'.shared = c.shared → Effect c c' t res

theorem move_effect (h : c.move step t res = some c') :
    Effect c c' t res ∧ ∀ j, j ≠ t → c'.loc j = c.loc j := by
  obtain ⟨s, p, hstep, hc'⟩ := Conf.move_eq_some.1 h
  have hp : c'.loc t = p := by rw [hc']; exact Function.update_self ..
  have hs : c'.shared = s := by rw [hc']
  have hj : ∀ j, j ≠ t → c'.loc j = c.loc j := by
    intro j hj
    rw [hc']
    exact Function.update_of_ne hj _ _
  refine ⟨?_, hj⟩
  have hok : (∀ fd, c.loc t ≠ .lookup fd) → LookupOk c (t, res) := by
    intro hne
    unfold LookupOk
    cases hl : c.loc t <;> first | trivial | exact absurd hl (hne _)
  cases hl : c.loc t <;> rw [hl] at hstep <;> simp only [step] at hstep
  case out ret =>
    cases hstep
    exact .keep (hok (by simp [hl])) (by rw [hp, hl]; rfl) hs
  case socket =>
    split_ifs at hstep <;> cases hstep <;> exact .keep (hok (by simp [hl])) (by rw [hp, hl]; rfl) hs
  case lock clientfd =>
    split_ifs at hstep with hpos
    cases hstep
    exact .take (hok (by simp [hl])) (by rw [hl]; exact id) (by rw [hp]; trivial) hpos (by rw [hs])
  case lookup clientfd =>
    have hiff : LookupOk c (t, res) ↔ res ≠ 0 := by
      unfold LookupOk
      rw [hl]
    split_ifs at hstep with hnull
    · cases hstep
      exact .lose (fun h => hiff.1 h hnull) (by rw [hl]; trivial) (by rw [hp]; exact id) hs
    · cases hstep
      exact .keep (hiff.2 hnull) (by rw [hp, hl]; rfl) hs
  case unlock clientfd =>
    cases hstep
    exact .give (hok (by simp [hl])) (by rw [hl]; trivial) (by rw [hp]; exact id) (by rw [hs])
  case connect clientfd =>
    split_ifs at hstep <;> cases hstep <;> exact .keep (hok (by simp [hl])) (by rw [hp, hl]; rfl) hs

/-- The lock is free, or one thread has it. -/
inductive Balanced (c : DnsConf T) : Prop
  | free : c.shared.mutex2 = 1 → (∀ t, ¬ (c.loc t).Holds) → Balanced c
  | held (t : T) : c.shared.mutex2 = 0 → (c.loc t).Holds → (∀ j, j ≠ t → ¬ (c.loc j).Holds) → Balanced c

/-- The lock is taken, and nobody has it. -/
structure Lost (c : DnsConf T) : Prop where
  taken : c.shared.mutex2 = 0
  nobody : ∀ t, ¬ (c.loc t).Holds

theorem nobody_of_others (hj : ∀ j, j ≠ t → c'.loc j = c.loc j) (ht : ¬ (c'.loc t).Holds)
    (h : ∀ j, j ≠ t → ¬ (c.loc j).Holds) (j : T) : ¬ (c'.loc j).Holds := by
  by_cases hjt : j = t
  · rw [hjt]
    exact ht
  · rw [hj j hjt]
    exact h j hjt

theorem Balanced.move (hb : Balanced c) (hok : LookupOk c (t, res)) (h : c.move step t res = some c') :
    Balanced c' := by
  obtain ⟨heff, hj⟩ := move_effect h
  cases hb with
  | free hm hnobody =>
    cases heff with
    | keep _ hiff hs =>
      refine .free (by rw [hs, hm]) (nobody_of_others hj ?_ fun j _ => hnobody j)
      exact fun ht => hnobody t (hiff.1 ht)
    | take _ _ ht _ hm' =>
      refine .held t (by rw [hm', hm]) ht fun j hjt => ?_
      rw [hj j hjt]
      exact hnobody j
    | give _ ht => exact absurd ht (hnobody t)
    | lose hno => exact absurd hok hno
  | held u hm hu hothers =>
    cases heff with
    | keep _ hiff hs =>
      have hsame : ∀ j, (c'.loc j).Holds ↔ (c.loc j).Holds := by
        intro j
        by_cases hjt : j = t
        · rw [hjt]
          exact hiff
        · rw [hj j hjt]
      exact .held u (by rw [hs, hm]) ((hsame u).2 hu) fun j hju hj => hothers j hju ((hsame j).1 hj)
    | take _ _ _ hpos => omega
    | give _ ht hnot hm' =>
      obtain rfl : t = u := by_contra fun hne => hothers t hne ht
      exact .free (by rw [hm', hm]) (nobody_of_others hj hnot hothers)
    | lose hno => exact absurd hok hno

theorem Balanced.lost (hb : Balanced c) (hno : ¬ LookupOk c (t, res)) (h : c.move step t res = some c') :
    Lost c' := by
  obtain ⟨heff, hj⟩ := move_effect h
  cases heff with
  | keep hok => exact absurd hok hno
  | take hok => exact absurd hok hno
  | give hok => exact absurd hok hno
  | lose _ ht hnot hs =>
    cases hb with
    | free _ hnobody => exact absurd ht (hnobody t)
    | held u hm _ hothers =>
      obtain rfl : t = u := by_contra fun hne => hothers t hne ht
      exact ⟨by rw [hs, hm], nobody_of_others hj hnot hothers⟩

theorem Lost.move (hl : Lost c) (h : c.move step t res = some c') : Lost c' := by
  obtain ⟨heff, hj⟩ := move_effect h
  cases heff with
  | keep _ hiff hs =>
    exact ⟨by rw [hs, hl.taken], nobody_of_others hj (fun ht => hl.nobody t (hiff.1 ht)) fun j _ => hl.nobody j⟩
  | take _ _ _ hpos =>
    rw [hl.taken] at hpos
    omega
  | give _ ht => exact absurd ht (hl.nobody t)
  | lose _ ht => exact absurd ht (hl.nobody t)

omit [DecidableEq T] in
theorem Balanced.lockOk (hb : Balanced c) : LockOk c := by
  have hin : ∀ p : Point, p.Holds → p.Inside := by
    intro p hp
    cases p <;> trivial
  cases hb with
  | free hm hnobody =>
    refine ⟨fun _ => hm, ?_⟩
    rintro t ⟨-, h0⟩
    omega
  | held u hm hu hothers =>
    refine ⟨fun hout => absurd (hin _ hu) (hout u), ?_⟩
    rintro t ⟨hat, -⟩
    refine ⟨u, ?_, hu, hin _ hu⟩
    rintro rfl
    cases hl : c.loc u <;> rw [hl] at hat hu <;> first | exact hat | exact hu

theorem Balanced.reach (h : (dns T).Reach LookupOk c) : Balanced c := by
  refine h.invariant ?_ fun c l c' hb hok hst => hb.move hok hst
  rintro c rfl
  exact .free rfl fun _ => id

/-- **The lock** is balanced in every run in which no lookup fails. After a lookup that fails it is never
free again, and no thread has it. -/
theorem dns_lock (T : Type*) [DecidableEq T] :
    (∀ c : DnsConf T, (dns T).Reach LookupOk c → LockOk c) ∧
    ∀ (c c' c'' : DnsConf T) (t : T) (res : Int), (dns T).Reach LookupOk c → c.move step t res = some c' →
      ¬ LookupOk c (t, res) → (dnsFrom c').Reachable c'' → Lost c'' := by
  constructor
  · exact fun c h => (Balanced.reach h).lockOk
  · intro c c' c'' t res h hmove hno hreach
    refine hreach.invariant ?_ fun c l c' hl _ hst => hl.move hst
    rintro d rfl
    exact (Balanced.reach h).lost hno hmove

/-- Thread 0 has the lock, and thread 1 waits for it. -/
theorem dns_lock_two : ∃ c : DnsConf (Fin 2), Waits c 1 ∧ LockOk c := by
  let check : DnsConf (Fin 2) → Fin 2 × Int → Bool := fun c l =>
    match c.loc l.1 with
    | .lookup _ => decide (l.2 ≠ 0)
    | _ => true
  obtain ⟨c, hreach, hloc, hm⟩ : ∃ c, (dns (Fin 2)).Reach LookupOk c ∧ c.loc 1 = .lock 4 ∧ c.shared.mutex2 = 0 := by
    refine Conf.exists_reach check [(0, 0), (0, 3), (0, 0), (1, 0), (1, 4)] (.init rfl) (fun l _ c hl => ?_)
      (by decide +kernel)
    unfold LookupOk
    revert hl
    simp only [check]
    cases c.loc l.1 <;> simp
  refine ⟨c, ⟨?_, hm⟩, (dns_lock (Fin 2)).1 c hreach⟩
  rw [hloc]
  trivial

/-- The lookup of thread 0 fails, and thread 1 waits although nobody has the lock. -/
theorem failed_lookup_blocks : ∃ c : DnsConf (Fin 2), (dns (Fin 2)).Reachable c ∧ ¬ LockOk c := by
  obtain ⟨c, hreach, h0, h1, hm⟩ : ∃ c, (dns (Fin 2)).Reachable c ∧ c.loc 0 = .out (-2) ∧ c.loc 1 = .lock 4 ∧
      c.shared.mutex2 = 0 :=
    Conf.exists_reach (fun _ _ => true) [(0, 0), (0, 3), (0, 0), (0, 0), (1, 0), (1, 4)] (.init rfl)
      (fun _ _ _ _ => trivial) (by decide +kernel)
  refine ⟨c, hreach, fun hok => ?_⟩
  have hwaits : Waits c 1 := ⟨by rw [h1]; trivial, hm⟩
  obtain ⟨u, hu, hholds, -⟩ := hok.waits 1 hwaits
  obtain rfl : u = 0 := by omega
  rw [h0] at hholds
  exact hholds

end CsappLab.Arc
