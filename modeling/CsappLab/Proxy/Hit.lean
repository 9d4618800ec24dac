import CsappLab.Proxy.Leak

/-!
# A hit serves the object of its url

A url and its object change together inside a writer section. The thread with a hit reads the block from
its comparison to the end of its write, because `cache_find` does not give the lock back.
-/

namespace CsappLab.Proxy

variable {T : Type*} [DecidableEq T] [Fintype T] {c c' : ProxyConf T} {ch : Choice} {d d' : Data}
  {k : Point} {l l' : ProxyLoc} {t : T} {i : Index} {calls calls' : List (Text × Text)}
  {block block' : Block} {url buf : Text} {m : Fill}

def Named (_ : ProxyConf T) (l : T × Choice) : Prop := l.2.request ≠ some []

/-- The block is as `cache_init` left it, or holds url and object of one call of `cache_url`. -/
def PairOk (calls : List (Text × Text)) (block : Block) : Prop :=
  block.cacheUrl = some [] ∨
    ∃ url buf, (url, buf) ∈ calls ∧ block.cacheUrl = some url ∧ block.cacheObj = some buf

/-- The block of a thread that is about to execute `m`. -/
def FillOk (calls : List (Text × Text)) (url buf : Text) (block : Block) : Fill → Prop
  | .url => PairOk calls block
  | .urlEnd => True
  | .obj | .objEnd => block.cacheUrl = some url
  | .isEmpty => block.cacheUrl = some url ∧ block.cacheObj = some buf

/-- A thread inside `cache_url` has called it. -/
def Point.Called (calls : List (Text × Text)) : Point → Prop
  | .evict url buf _ _ _ | .evictTest url buf _ _ _ | .claim url buf _ | .evictStamp url buf _ _ _
  | .evicted url buf _ | .fill _ url buf _ => (url, buf) ∈ calls
  | _ => True

/-- A thread on the hit path has found its url. -/
def Point.Found (blocks : Index → Block) : Point → Prop
  | .find url _ | .findTest url _ => url ≠ []
  | .hit url i | .serve url i => url ≠ [] ∧ (blocks i).cacheUrl = some url
  | _ => True

/-- The point is on the hit path or writes to a block in `cache_url`. -/
def Point.Inner : Point → Bool
  | .hit _ _ | .serve _ _ | .fill _ _ _ _ => true
  | _ => false

/-- The calls that return to such a point. -/
def CallOk : ProxyLoc → Prop
  | .point _ => True
  | .readerPre _ _ (.serve _ _) => True
  | .writerPre _ (.fill .url _ _ _) => True
  | .readerPre _ _ k | .readerAfter _ _ k | .writerPre _ k | .writerAfter _ k => k.Inner = false

structure HitInv (c : ProxyConf T) : Prop where
  calls : ∀ t, (c.loc t).cont.Called c.shared.data.calls
  callOk : ∀ t, CallOk (c.loc t)
  pair : ∀ i, (∀ t m url buf, c.loc t ≠ .point (.fill m url buf i)) →
    PairOk c.shared.data.calls (c.shared.data.blocks i)
  fill : ∀ t m url buf i, c.loc t = .point (.fill m url buf i) →
    FillOk c.shared.data.calls url buf (c.shared.data.blocks i) m
  found : ∀ t, (c.loc t).cont.Found c.shared.data.blocks

/-! ### One statement -/

/-- Url and object are kept, and calls of `cache_url` are only added. -/
structure Keeps (d d' : Data) : Prop where
  url : ∀ i, (d'.blocks i).cacheUrl = (d.blocks i).cacheUrl
  obj : ∀ i, (d'.blocks i).cacheObj = (d.blocks i).cacheObj
  calls : d.calls ⊆ d'.calls

theorem keeps_setBlock (hu : block.cacheUrl = (d.blocks i).cacheUrl)
    (ho : block.cacheObj = (d.blocks i).cacheObj) : Keeps d (setBlock d i block) := by
  refine ⟨fun j => ?_, fun j => ?_, List.Subset.refl _⟩
  all_goals
    by_cases hj : j = i
    · subst hj
      simpa [setBlock]
    · simp [setBlock, hj]

theorem Act.keeps (h : Act ch d k d' l) (hk : ∀ m url buf i, k ≠ .fill m url buf i) : Keeps d d' := by
  cases h with
  | fill => exact absurd rfl (hk _ _ _ _)
  | claim => exact keeps_setBlock rfl rfl
  | stampZero => exact keeps_setBlock rfl rfl
  | stampInc => exact keeps_setBlock rfl rfl
  | cacheUrl => exact ⟨fun _ => rfl, fun _ => rfl, List.subset_cons_self _ _⟩
  | _ => exact ⟨fun _ => rfl, fun _ => rfl, List.Subset.refl _⟩

theorem PairOk.mono (h : PairOk calls block) (hc : calls ⊆ calls')
    (hu : block'.cacheUrl = block.cacheUrl) (ho : block'.cacheObj = block.cacheObj) :
    PairOk calls' block' := by
  rcases h with h | ⟨url, buf, h1, h2, h3⟩
  · exact .inl (hu.trans h)
  · exact .inr ⟨url, buf, hc h1, hu.trans h2, ho.trans h3⟩

theorem FillOk.mono (h : FillOk calls url buf block m) (hc : calls ⊆ calls')
    (hu : block'.cacheUrl = block.cacheUrl) (ho : block'.cacheObj = block.cacheObj) :
    FillOk calls' url buf block' m := by
  cases m with
  | url => exact PairOk.mono h hc hu ho
  | urlEnd => trivial
  | obj => exact hu.trans h
  | objEnd => exact hu.trans h
  | isEmpty => exact ⟨hu.trans h.1, ho.trans h.2⟩

theorem Point.Called.mono (h : k.Called calls) (hc : calls ⊆ calls') : k.Called calls' := by
  cases k <;> first | exact hc h | trivial

theorem Point.Found.congr {blocks blocks' : Index → Block} (h : k.Found blocks)
    (hu : ∀ u i, k = .hit u i ∨ k = .serve u i → (blocks' i).cacheUrl = (blocks i).cacheUrl) :
    k.Found blocks' := by
  cases k with
  | hit u i => exact ⟨h.1, (hu u i (.inl rfl)).trans h.2⟩
  | serve u i => exact ⟨h.1, (hu u i (.inr rfl)).trans h.2⟩
  | find u i => exact h
  | findTest u i => exact h
  | _ => trivial

theorem Act.called (h : Act ch d k d' l) (hk : k.Called d.calls) : l.cont.Called d'.calls := by
  cases h with
  | @fill m => cases m <;> first | exact hk | trivial
  | cacheUrl => exact List.mem_cons_self
  | evict => exact hk
  | evictEnd => exact hk
  | empty => exact hk
  | notEmpty => exact hk
  | claim => exact hk
  | evictStamp => exact hk
  | evicted => exact hk
  | _ => trivial

theorem Act.callOk (h : Act ch d k d' l) : CallOk l := by
  cases h with
  | @fill m => cases m <;> trivial
  | _ => trivial

theorem Act.fill_of (h : Act ch d k d' l) (hl : l = .point (.fill m url buf i)) :
    ∃ m', k = .fill m' url buf i ∧ m'.next url buf i = l := by
  cases h with
  | @fill m' _ _ _ =>
    cases m' <;> cases hl <;> exact ⟨_, rfl, rfl⟩
  | _ => cases hl

/-! ### Exclusion, at the points -/

theorem ProxyInv.fill_alone (h : ProxyInv c) (ht : c.loc t = .point (.fill m url buf i)) {j : T} (hj : j ≠ t) :
    (c.loc j).writers Point.writers i = 0 ∧ (c.loc j).readers Point.readers i = 0 := by
  refine LockInv.exclusion h ?_ hj
  rw [ht]
  simp [Loc.writers, Point.writers]

theorem readers_pos (hok : CallOk l) (hl : l.cont = .hit url i ∨ l.cont = .serve url i) :
    0 < l.readers Point.readers i := by
  cases l with
  | point k => rcases hl with rfl | rfl <;> simp [Loc.readers, Point.readers]
  | readerPre m i' k =>
    rcases hl with rfl | rfl
    · cases hok
    · simp only [Loc.readers, Point.readers]
      split_ifs <;> simp_all
  | readerAfter m i' k => rcases hl with rfl | rfl <;> cases hok
  | writerPre i' k => rcases hl with rfl | rfl <;> cases hok
  | writerAfter i' k => rcases hl with rfl | rfl <;> cases hok

theorem fill_url (hok : CallOk l) (hnp : ∀ k, l ≠ .point k) (hl : l.cont = .fill m url buf i) : m = .url := by
  cases l with
  | point k => exact absurd rfl (hnp k)
  | writerPre i' k =>
    obtain rfl : k = _ := hl
    cases m <;> first | rfl | cases hok
  | readerPre m' i' k =>
    obtain rfl : k = _ := hl
    cases hok
  | readerAfter m' i' k =>
    obtain rfl : k = _ := hl
    cases hok
  | writerAfter i' k =>
    obtain rfl : k = _ := hl
    cases hok

/-! ### Steps -/

theorem lockStep_callOk {locks locks' : Index → Lock} (hok : CallOk l)
    (h : lockStep locks l = some (locks', l')) : CallOk l' := by
  cases l with
  | point k => cases h
  | readerPre m i k =>
    cases m <;> simp only [lockStep, Option.ite_none_right_eq_some, Option.some.injEq, Prod.mk.injEq] at h
    all_goals first | rw [← h.2] | rw [← h.2.2]
    all_goals cases k <;> trivial
  | readerAfter m i k =>
    cases m <;> simp only [lockStep, Option.ite_none_right_eq_some, Option.some.injEq, Prod.mk.injEq] at h
    all_goals first | rw [← h.2] | rw [← h.2.2]
    all_goals trivial
  | writerPre i k =>
    simp only [lockStep, Option.ite_none_right_eq_some, Option.some.injEq, Prod.mk.injEq] at h
    rw [← h.2.2]
    trivial
  | writerAfter i k =>
    simp only [lockStep, Option.some.injEq, Prod.mk.injEq] at h
    rw [← h.2]
    trivial

/-- **A statement of a lock call.** -/
theorem HitInv.call {locks' : Index → Lock} (h : HitInv c)
    (hs : lockStep c.shared.locks (c.loc t) = some (locks', l'))
    (hp' : ProxyInv (T := T) ⟨⟨locks', c.shared.data⟩, Function.update c.loc t l'⟩) :
    HitInv (T := T) ⟨⟨locks', c.shared.data⟩, Function.update c.loc t l'⟩ := by
  have hcont := lockStep_cont hs
  have hnp : ∀ k, c.loc t ≠ .point k := by
    intro k hk
    rw [hk] at hs
    cases hs
  refine ⟨fun j => ?_, fun j => ?_, fun i hno => ?_, fun j m url buf i hj => ?_, fun j => ?_⟩
  · by_cases hj : j = t
    · subst hj
      simp only [Function.update_self, hcont]
      exact h.calls j
    · simp only [Function.update_of_ne hj]
      exact h.calls j
  · by_cases hj : j = t
    · subst hj
      simp only [Function.update_self]
      exact lockStep_callOk (h.callOk j) hs
    · simp only [Function.update_of_ne hj]
      exact h.callOk j
  · refine h.pair i fun j m url buf hj => ?_
    by_cases hjt : j = t
    · subst hjt
      exact hnp _ hj
    · exact hno j m url buf (by simpa [hjt] using hj)
  · by_cases hjt : j = t
    · -- `writerPre` has returned: no other thread writes to the block
      subst hjt
      have hl' : l' = .point (.fill m url buf i) := by simpa using hj
      have hm : m = .url := by
        rw [hl'] at hcont
        exact fill_url (h.callOk j) hnp hcont.symm
      subst hm
      refine h.pair i fun j' m' url' buf' hj' => ?_
      by_cases hjj : j' = j
      · subst hjj
        exact hnp _ hj'
      · have hw := (hp'.fill_alone hj hjj).1
        simp only [Function.update_of_ne hjj] at hw
        rw [hj'] at hw
        simp [Loc.writers, Point.writers] at hw
    · simp only [Function.update_of_ne hjt] at hj
      exact h.fill j m url buf i hj
  · by_cases hj : j = t
    · subst hj
      simp only [Function.update_self, hcont]
      exact h.found j
    · simp only [Function.update_of_ne hj]
      exact h.found j

theorem HitInv.pair_of_reader (h : HitInv c) (hp : ProxyInv c)
    (ht : 0 < (c.loc t).readers Point.readers i) (hw : ∀ m url buf, c.loc t ≠ .point (.fill m url buf i)) :
    PairOk c.shared.data.calls (c.shared.data.blocks i) := by
  refine h.pair i fun j m url buf hj => ?_
  by_cases hjt : t = j
  · subst hjt
    exact hw m url buf hj
  · have := (hp.fill_alone hj hjt).2
    omega

theorem Act.found_of (h : Act ch d k d' l) (hk : k.Found d.blocks) (hreq : ch.request ≠ some [])
    (hpair : ∀ u i, k = .findTest u i → PairOk d.calls (d.blocks i)) (hd : Keeps d d') :
    l.cont.Found d'.blocks := by
  cases h with
  | @request url hr =>
    have hne : url ≠ [] := by
      rintro rfl
      exact hreq hr
    exact hne
  | find _ => exact hk
  | @found url i hm =>
    refine ⟨hk, ?_⟩
    rcases hpair url i rfl with h0 | ⟨u, buf, -, hu, -⟩
    · simp [matchesUrl, h0] at hm
      exact absurd hm.2 hk
    · simp [matchesUrl, hu] at hm
      rw [hu, ← hm.2]
  | notHere _ => exact hk
  | hit => exact hk
  | @fill m => cases m <;> trivial
  | _ => trivial

/-- **A statement that does not fill a block.** -/
theorem HitInv.stmt (h : HitInv c) (hp : ProxyInv c) (hreq : ch.request ≠ some [])
    (hl : c.loc t = .point k) (hs : Act ch c.shared.data k d' l)
    (hk : ∀ m url buf i, k ≠ .fill m url buf i) :
    HitInv (T := T) ⟨⟨c.shared.locks, d'⟩, Function.update c.loc t l⟩ := by
  have hd := hs.keeps hk
  have hcalls := h.calls t
  have hfound := h.found t
  rw [hl] at hcalls hfound
  refine ⟨?_, ?_, ?_, ?_, ?_⟩
  · intro j
    by_cases hj : j = t
    · subst hj
      simp only [Function.update_self]
      exact hs.called hcalls
    · simp only [Function.update_of_ne hj]
      exact (h.calls j).mono hd.calls
  · intro j
    by_cases hj : j = t
    · subst hj
      simp only [Function.update_self]
      exact hs.callOk
    · simp only [Function.update_of_ne hj]
      exact h.callOk j
  · intro i hno
    refine PairOk.mono (h.pair i fun j m url buf hj => ?_) hd.calls (hd.url i) (hd.obj i)
    by_cases hjt : j = t
    · subst hjt
      rw [hl] at hj
      cases hj
      exact hk _ _ _ _ rfl
    · exact hno j m url buf (by simpa [hjt] using hj)
  · intro j m url buf i hj
    by_cases hjt : j = t
    · subst hjt
      obtain ⟨m', rfl, -⟩ := hs.fill_of (by simpa using hj)
      exact absurd rfl (hk _ _ _ _)
    · simp only [Function.update_of_ne hjt] at hj
      exact (h.fill j m url buf i hj).mono hd.calls (hd.url i) (hd.obj i)
  · intro j
    by_cases hj : j = t
    · subst hj
      simp only [Function.update_self]
      refine hs.found_of hfound hreq (fun u i hki => ?_) hd
      subst hki
      refine h.pair_of_reader hp (t := j) ?_ ?_
      · rw [hl]
        simp [Loc.readers, Point.readers]
      · intro m url buf hm
        rw [hl] at hm
        cases hm
    · simp only [Function.update_of_ne hj]
      exact (h.found j).congr fun _ i _ => hd.url i

/-- **A statement that fills block `i`**, which no other thread reads or fills. -/
theorem HitInv.fill_stmt (h : HitInv c) (hp : ProxyInv c) (hl : c.loc t = .point (.fill m url buf i)) :
    HitInv (T := T) ⟨⟨c.shared.locks, setBlock c.shared.data i (fillBlock (c.shared.data.blocks i) url buf m)⟩,
      Function.update c.loc t (m.next url buf i)⟩ := by
  have hcalled := h.calls t
  have hfill := h.fill t m url buf i hl
  rw [hl] at hcalled
  have hother : ∀ i', i' ≠ i → (setBlock c.shared.data i
      (fillBlock (c.shared.data.blocks i) url buf m)).blocks i' = c.shared.data.blocks i' :=
    fun i' hi => Function.update_of_ne hi ..
  have hself : (setBlock c.shared.data i (fillBlock (c.shared.data.blocks i) url buf m)).blocks i =
      fillBlock (c.shared.data.blocks i) url buf m := Function.update_self ..
  refine ⟨?_, ?_, ?_, ?_, ?_⟩
  · intro j
    by_cases hj : j = t
    · subst hj
      simp only [Function.update_self]
      cases m <;> first | exact hcalled | trivial
    · simp only [Function.update_of_ne hj]
      exact h.calls j
  · intro j
    by_cases hj : j = t
    · subst hj
      simp only [Function.update_self]
      cases m <;> trivial
    · simp only [Function.update_of_ne hj]
      exact h.callOk j
  · intro i' hno
    by_cases hi : i' = i
    · subst hi
      simp only [hself]
      cases m with
      | isEmpty => exact .inr ⟨url, buf, hcalled, hfill.1, hfill.2⟩
      | _ => exact absurd (Function.update_self ..) (hno t _ url buf)
    · simp only [hother i' hi]
      refine h.pair i' fun j m' url' buf' hj => ?_
      by_cases hjt : j = t
      · subst hjt
        rw [hl] at hj
        cases hj
        exact hi rfl
      · exact hno j m' url' buf' (by simpa [hjt] using hj)
  · intro j m' url' buf' i' hj
    by_cases hjt : j = t
    · subst hjt
      simp only [Function.update_self] at hj
      cases m <;> cases hj
      all_goals simp only [hself]
      · trivial
      · rfl
      · exact hfill
      · exact ⟨hfill, rfl⟩
    · simp only [Function.update_of_ne hjt] at hj
      have hi : i' ≠ i := by
        rintro rfl
        have hw := (hp.fill_alone hl hjt).1
        rw [hj] at hw
        simp [Loc.writers, Point.writers] at hw
      simp only [hother i' hi]
      exact h.fill j m' url' buf' i' hj
  · intro j
    by_cases hj : j = t
    · subst hj
      simp only [Function.update_self]
      cases m <;> trivial
    · simp only [Function.update_of_ne hj]
      refine (h.found j).congr fun u i' hk => ?_
      have hi : i' ≠ i := by
        rintro rfl
        have hr := (hp.fill_alone hl hj).2
        have := readers_pos (h.callOk j) hk
        omega
      rw [hother i' hi]

theorem HitInv.move (h : HitInv c) (hp : ProxyInv c) (hreq : ch.request ≠ some [])
    (hm : c.move (step act) t ch = some c') : HitInv c' := by
  have hp' := hp.move hm
  obtain ⟨s, l, hs, rfl⟩ := Conf.move_eq_some.1 hm
  rcases step_cases hs with ⟨k, d', hl, hact, rfl⟩ | ⟨locks', hstep, rfl⟩
  · by_cases hk : ∃ m url buf i, k = .fill m url buf i
    · obtain ⟨m, url, buf, i, rfl⟩ := hk
      cases act_cases hact
      exact h.fill_stmt hp hl
    · push Not at hk
      exact h.stmt hp hreq hl (act_cases hact) hk
  · exact h.call hstep hp'

theorem HitInv.reach (h : (doit T).Reach Named c) : HitInv c := by
  have hboth : ProxyInv c ∧ HitInv c := by
    refine h.invariant (I := fun c => ProxyInv c ∧ HitInv c) ?_ fun c l c' hi hok hst =>
      ⟨hi.1.move hst, hi.2.move hi.1 hok hst⟩
    rintro c rfl
    refine ⟨LockInv.init fun t => ⟨.start, rfl, fun _ => ⟨rfl, rfl⟩⟩, fun _ => trivial, fun _ => trivial,
      fun _ _ => .inl rfl, fun t m url buf i ht => ?_, fun _ => trivial⟩
    cases ht
  exact hboth.2

/-- **A hit** serves what an earlier `cache_url` call for the same url stored, and no step of another
thread changes it before the write is over. -/
theorem hit_serves (n : Nat) (c : ProxyConf (Fin n)) (h : (doit (Fin n)).Reach Named c) (t : Fin n)
    (url : Text) (i : Index) (ht : c.loc t = .point (.serve url i)) :
    ∃ buf, (url, buf) ∈ c.shared.data.calls ∧ (c.shared.data.blocks i).cacheObj = some buf ∧
      ∀ l c', (doit (Fin n)).step c l c' → l.1 ≠ t → (c'.shared.data.blocks i).cacheObj = some buf := by
  have hp : ProxyInv c := ProxyInv.reach (fun _ _ => ⟨rfl, rfl⟩) h
  have hinv := HitInv.reach h
  have hr : 0 < (c.loc t).readers Point.readers i := by
    rw [ht]
    simp [Loc.readers, Point.readers]
  have hpair := hinv.pair_of_reader hp hr fun m u b hm => by
    rw [ht] at hm
    cases hm
  have hfound := hinv.found t
  rw [ht] at hfound
  obtain ⟨hne, hurl⟩ := hfound
  rcases hpair with h0 | ⟨u, buf, hcalled, hu, hobj⟩
  · rw [h0] at hurl
    exact absurd (Option.some.inj hurl).symm hne
  · obtain rfl : u = url := Option.some.inj (hu.symm.trans hurl)
    refine ⟨buf, hcalled, hobj, fun l c' hst hl => ?_⟩
    obtain ⟨s, l', hs, rfl⟩ := Conf.move_eq_some.1 hst
    rcases step_cases hs with ⟨k, d', hk, hact, rfl⟩ | ⟨locks', -, rfl⟩
    · by_cases hfill : ∃ m url buf i', k = .fill m url buf i'
      · obtain ⟨m, url', buf', i', rfl⟩ := hfill
        have hi : i ≠ i' := by
          rintro rfl
          have := (hp.fill_alone hk (Ne.symm hl)).2
          omega
        cases act_cases hact
        simp only [setBlock, Function.update_of_ne hi]
        exact hobj
      · push Not at hfill
        exact (((act_cases hact).keeps hfill).obj i).trans hobj
    · exact hobj

/-- Thread 0 has stored the object `b` for the url `a`, and thread 1 is about to write it. -/
theorem hit_serves_b : ∃ c : ProxyConf (Fin 2), c.loc 1 = .point (.serve [97] 0) ∧
    ∃ buf, ([97], buf) ∈ c.shared.data.calls ∧ (c.shared.data.blocks 0).cacheObj = some buf ∧
      ∀ l c', (doit (Fin 2)).step c l c' → l.1 ≠ 1 → (c'.shared.data.blocks 0).cacheObj = some buf := by
  have hnamed : ∀ l ∈ hitSched (0 : Fin 2) 1 13, ∀ c : ProxyConf (Fin 2), true = true → Named c l := by
    intro l hl c _
    rcases List.mem_append.1 hl with hl | hl
    · rw [List.eq_of_mem_replicate hl]
      simp [Named]
    · rw [List.eq_of_mem_replicate hl]
      simp [Named]
  obtain ⟨c, hreach, hloc⟩ : ∃ c, (doit (Fin 2)).Reach Named c ∧ c.loc 1 = .point (.serve [97] 0) :=
    Conf.exists_reach (fun _ _ => true) _ (.init rfl) hnamed (by decide +kernel)
  exact ⟨c, hloc, hit_serves 2 c hreach 1 [97] 0 hloc⟩

end CsappLab.Proxy
