import CsappLab.Proxy.Cache

/-!
# Leaked reader locks

`cache_find` leaves its loop with the block of a hit still locked for reading, and `doit` then waits for
the same block as a writer. Runs without a hit give everything back.
-/

namespace CsappLab.Proxy

variable {T : Type*} [DecidableEq T] [Fintype T] {c c' : ProxyConf T} {ch : Choice} {d d' : Data}
  {k : Point} {l : ProxyLoc} {t : T} {i : Index}

/-- No search finds its url. -/
def NoHit (c : ProxyConf T) (l : T × Choice) : Prop :=
  ∀ url i, c.loc l.1 = .point (.findTest url i) → ¬ matchesUrl l.2 (c.shared.data.blocks i) url = true

def Outside (l : ProxyLoc) : Prop := l = .point .start ∨ ∃ leak, l = .point (.done leak)

/-- The thread waits for `wmutex` of block `i`, and it has the only outstanding calls of `readerPre(i)`. -/
def SelfWait (c : ProxyConf T) (t : T) (i : Index) : Prop :=
  (∃ k, c.loc t = .writerPre i k) ∧ (c.shared.locks i).wmutex = 0 ∧
    0 < (c.loc t).readers Point.readers i ∧ ∀ t', t' ≠ t → (c.loc t').readers Point.readers i = 0

def Point.Clean : Point → Prop
  | .hit _ _ | .serve _ _ => False
  | .updateStamp _ leak | .stampZero _ leak | .stampLoop _ _ leak | .stampInc _ _ leak => leak = false
  | .done leak => leak = none
  | _ => True

theorem Act.clean (h : Act ch d k d' l) (hk : k.Clean)
    (hno : ∀ url i, k = .findTest url i → ¬ matchesUrl ch (d.blocks i) url = true) : l.cont.Clean := by
  cases h with
  | found hm => exact absurd hm (hno _ _ rfl)
  | hit => exact hk.elim
  | serve => exact hk.elim
  | @stampEnd _ _ leak =>
    have hleak : leak = false := hk
    subst hleak
    rfl
  | updateStamp => exact hk
  | stampZero => exact hk
  | stampOther => exact hk
  | stampSkip => exact hk
  | stampInc => exact hk
  | @fill m => cases m <;> trivial
  | noRequest => rfl
  | noStore => rfl
  | _ => trivial

omit [Fintype T] in
theorem clean_move (h : ∀ t, (c.loc t).cont.Clean) (hno : NoHit c (t, ch))
    (hm : c.move (step act) t ch = some c') : ∀ j, (c'.loc j).cont.Clean := by
  obtain ⟨s, l, hs, rfl⟩ := Conf.move_eq_some.1 hm
  intro j
  by_cases hj : j = t
  · subst hj
    simp only [Function.update_self]
    have hj := h j
    rcases step_cases hs with ⟨k, d', hl, hact, -⟩ | ⟨locks', hstep, -⟩
    · rw [hl] at hj
      exact (act_cases hact).clean hj fun url i hk => hno url i (hk ▸ hl)
    · rwa [lockStep_cont hstep]
  · simp only [Function.update_of_ne hj]
    exact h j

omit [Fintype T] in
theorem clean_reach (h : (doit T).Reach NoHit c) : ∀ t, (c.loc t).cont.Clean := by
  refine h.invariant (fun c hc t => ?_) fun c l c' hi hok hst => clean_move hi hok hst
  rw [hc]
  trivial

/-- **Nothing is leaked** in a run without a hit: when no thread is inside `doit` every lock is as at the
beginning, and no thread waits for a block that only it reads. -/
theorem no_leak (n : Nat) (c : ProxyConf (Fin n)) (h : (doit (Fin n)).Reach NoHit c) :
    ((∀ t, Outside (c.loc t)) → ∀ i, c.shared.locks i = Lock.init) ∧ ∀ t i, ¬ SelfWait c t i := by
  have hinv : ProxyInv c := ProxyInv.reach (fun _ _ => ⟨rfl, rfl⟩) h
  have hclean := clean_reach h
  constructor
  · intro hout i
    have hloc : ∀ t, c.loc t = .point .start ∨ c.loc t = .point (.done none) := by
      intro t
      rcases hout t with ht | ⟨leak, ht⟩
      · exact .inl ht
      · have hc := hclean t
        rw [ht] at hc
        exact .inr (hc ▸ ht)
    have hzero : ∀ f : ProxyLoc → Nat, f (.point .start) = 0 → f (.point (.done none)) = 0 →
        ∑ t, f (c.loc t) = 0 := by
      intro f h1 h2
      refine sum_eq_zero fun t => ?_
      rcases hloc t with ht | ht
      · rw [ht, h1]
      · rw [ht, h2]
    obtain ⟨hrd, hcnt, hwm, -⟩ := hinv.block i
    rw [hzero _ rfl rfl] at hrd
    rw [hzero _ rfl (by simp [Point.readers])] at hcnt
    rw [hzero (Loc.reg Point.readers i) rfl (by simp [Point.readers]),
      hzero (Loc.wr Point.writers i) rfl rfl] at hwm
    cases hlock : c.shared.locks i with
    | mk readcnt rdcntmutex wmutex =>
      rw [hlock] at hrd hcnt hwm
      simp only [Lock.init, Lock.mk.injEq]
      refine ⟨by simpa using hcnt, by simpa using hrd, by simpa using hwm⟩
  · rintro t i ⟨⟨k, hk⟩, -, hr, -⟩
    have hok := hinv.ok t
    have hc := hclean t
    rw [hk] at hok hr hc
    -- the call returns to a writer section, where a clean thread reads nothing
    cases k <;> simp_all [Loc.Ok, Loc.cont, Loc.readers, Point.writers, Point.readers, Point.Clean]

def finds (c : ProxyConf T) (l : T × Choice) : Bool :=
  match c.loc l.1 with
  | .point (.findTest url i) => matchesUrl l.2 (c.shared.data.blocks i) url
  | _ => false

omit [DecidableEq T] [Fintype T] in
theorem noHit_of_finds {l : T × Choice} (h : (!finds c l) = true) : NoHit c l := by
  intro url i hl hm
  unfold finds at h
  rw [hl] at h
  simp only [hm, Bool.not_true, Bool.false_eq_true] at h

/-- Two threads with different urls, which search, store and stamp in turns, have both returned. -/
theorem no_leak_two : ∃ c : ProxyConf (Fin 2), (doit (Fin 2)).Reach NoHit c ∧
    (∀ t, c.loc t = .point (.done none)) ∧ (c.shared.data.blocks 0).cacheUrl = some [98] ∧
    (c.shared.data.blocks 1).cacheUrl = some [97] ∧
    (∀ i, c.shared.locks i = Lock.init) ∧ ∀ t i, ¬ SelfWait c t i := by
  obtain ⟨c, hc, hdone, hstored⟩ : ∃ c : ProxyConf (Fin 2), (doit (Fin 2)).Reach NoHit c ∧
      (∀ t, c.loc t = .point (.done none)) ∧ (c.shared.data.blocks 0).cacheUrl = some [98] ∧
      (c.shared.data.blocks 1).cacheUrl = some [97] :=
    Conf.exists_reach (fun c l => !finds c l)
      (turn 0 [97] (some [120]) 19 ++ turn 1 [98] (some [121]) 139 ++ turn 0 [97] (some [120]) 103 ++
        turn 1 [98] (some [121]) 10 ++ turn 0 [97] (some [120]) 54 ++ turn 1 [98] (some [121]) 9)
      (.init rfl) (fun _ _ _ => noHit_of_finds) (by decide +kernel)
  obtain ⟨hlocks, hself⟩ := no_leak 2 c hc
  exact ⟨c, hc, hdone, hstored.1, hstored.2, hlocks fun t => .inr ⟨none, hdone t⟩, hself⟩

/-- Thread `t` stores a response for a url, then thread `u` asks for the same url. -/
def hitSched {T : Type} (t u : T) (steps : Nat) : List (T × Choice) :=
  turn t [97] (some [98]) 160 ++ turn u [97] none steps

/-- After its hit thread 1 waits for the block that it has not given back itself. -/
theorem self_wait : ∃ c, (doit (Fin 2)).Reachable c ∧ SelfWait c 1 0 := by
  obtain ⟨c, hc, hloc, hother, hw⟩ : ∃ c, (doit (Fin 2)).Reachable c ∧
      c.loc 1 = .writerPre 0 (.stampZero 0 true) ∧ c.loc 0 = .point (.done none) ∧
      (c.shared.locks 0).wmutex = 0 :=
    Conf.exists_reach (fun _ _ => true) (hitSched 0 1 19) (.init rfl) (fun _ _ _ _ => trivial)
      (by decide +kernel)
  refine ⟨c, hc, ⟨_, hloc⟩, hw, ?_, ?_⟩
  · rw [hloc]
    decide
  · intro t ht
    have ht0 : t = 0 := by
      have := t.isLt
      omega
    rw [ht0, hother]
    rfl

end CsappLab.Proxy
