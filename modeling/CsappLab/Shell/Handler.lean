import CsappLab.Shell.Jobs

/-!
# `sigchld_handler`

The handler reads status changes with `waitpid` in two nested loops. The condition of the outer loop
takes a status change and drops it: the body of the inner loop is the only place that looks at one.
So the first status change of a run is lost, and the table is right exactly when it did not matter
(`FirstHarmless`).
-/

namespace CsappLab.Shell

inductive ChildStatus
  | exited
  | signaled
  | stopped
deriving DecidableEq, Repr

/-- A result of `waitpid(-1, &status, WUNTRACED | WNOHANG)` above 0. -/
structure ChildEvent where
  pid : Int
  status : ChildStatus
  pos : 0 < pid

/-- The body of the inner loop. -/
def handleStatus (t : Table) (ev : ChildEvent) : Table :=
  match ev.status with
  | .exited => (deletejob t ev.pid).1
  | .signaled => (deletejob t ev.pid).1
  | .stopped =>
    match getjobpid t.jobs ev.pid with
    | some i => { t with jobs := Function.update t.jobs i { t.jobs i with state := .ST } }
    | none => t

/-- The inner loop, which ends when no status change is left. -/
def innerLoop (t : Table) (evs : List ChildEvent) : Table := evs.foldl handleStatus t

/-- `sigchld_handler`, when `waitpid` hands out `evs` and then nothing. -/
def sigchldHandler (t : Table) : List ChildEvent → Table
  | [] => t
  -- the first status change is the one the outer condition took; after the inner loop it finds none
  | _ :: evs => innerLoop t evs

/-! ### What a status change should do -/

/-- A child that has exited or was killed is gone. -/
def ChildEvent.Ends (ev : ChildEvent) : Prop := ev.status ≠ .stopped

instance : DecidablePred ChildEvent.Ends := fun ev => inferInstanceAs (Decidable (ev.status ≠ .stopped))

/-- One processed status change: the job of the child is removed or set to `ST`. -/
def applyStatus (jobs : Jobs) (ev : ChildEvent) : Jobs :=
  match slotOfPid jobs ev.pid with
  | some i => Function.update jobs i (if ev.Ends then clearjob else { jobs i with state := .ST })
  | none => jobs

/-- All status changes, each processed once. -/
def applyAll (jobs : Jobs) (evs : List ChildEvent) : Jobs := evs.foldl applyStatus jobs

variable {t : Table} {jobs jobs' : Jobs} {p : Int} {i j k : Fin MAXJOBS} {ev : ChildEvent}
  {evs : List ChildEvent}

theorem handleStatus_jobs (t : Table) (ev : ChildEvent) :
    (handleStatus t ev).jobs = applyStatus t.jobs ev := by
  have hp : ¬ ev.pid < 1 := by have := ev.pos; omega
  unfold handleStatus applyStatus
  cases hst : ev.status <;> simp only [deletejob, getjobpid, if_neg hp, ChildEvent.Ends, hst]
  all_goals cases slotOfPid t.jobs ev.pid <;> simp

theorem innerLoop_jobs (t : Table) (evs : List ChildEvent) :
    (innerLoop t evs).jobs = applyAll t.jobs evs := by
  induction evs generalizing t with
  | nil => rfl
  | cons ev evs ih =>
    refine (ih (handleStatus t ev)).trans ?_
    rw [handleStatus_jobs]
    rfl

theorem sigchldHandler_jobs (t : Table) (evs : List ChildEvent) :
    (sigchldHandler t evs).jobs = applyAll t.jobs evs.tail := by
  cases evs with
  | nil => rfl
  | cons ev evs => exact innerLoop_jobs t evs

theorem applyStatus_some (hi : slotOfPid jobs ev.pid = some i) : applyStatus jobs ev =
    Function.update jobs i (if ev.Ends then clearjob else { jobs i with state := .ST }) := by
  unfold applyStatus
  rw [hi]

theorem applyStatus_none (hi : slotOfPid jobs ev.pid = none) : applyStatus jobs ev = jobs := by
  unfold applyStatus
  rw [hi]

theorem applyStatus_other (h : (jobs i).pid ≠ ev.pid) : applyStatus jobs ev i = jobs i := by
  cases hs : slotOfPid jobs ev.pid with
  | none => rw [applyStatus_none hs]
  | some k =>
    have hik : i ≠ k := by
      rintro rfl
      exact h (slotOfPid_eq_some.1 hs).1
    rw [applyStatus_some hs, Function.update_of_ne hik]

theorem applyStatus_pid (jobs : Jobs) (ev : ChildEvent) (i : Fin MAXJOBS) :
    (applyStatus jobs ev i).pid = (jobs i).pid ∨ ev.Ends ∧ applyStatus jobs ev i = clearjob := by
  cases hs : slotOfPid jobs ev.pid with
  | none => rw [applyStatus_none hs]; exact .inl rfl
  | some k =>
    rw [applyStatus_some hs]
    by_cases hik : i = k
    · subst hik
      rw [Function.update_self]
      split_ifs with he
      · exact .inr ⟨he, rfl⟩
      · exact .inl rfl
    · rw [Function.update_of_ne hik]
      exact .inl rfl

/-! ### A lost exit -/

/-- `jobs'` is one exit of `p` ahead of `jobs`. -/
structure Ahead (p : Int) (jobs jobs' : Jobs) : Prop where
  other : ∀ i, (jobs i).pid ≠ p → jobs' i = jobs i
  first : ∀ i, slotOfPid jobs p = some i → jobs' i = clearjob
  later : ∀ i, (jobs i).pid = p → slotOfPid jobs p ≠ some i → (jobs' i).pid = p

namespace Ahead

theorem slotOfPid_of_ne (h : Ahead p jobs jobs') {q : Int} (hq : q ≠ p) (h0 : q ≠ 0) :
    slotOfPid jobs' q = slotOfPid jobs q := by
  refine slotOfPid_congr fun i => ?_
  by_cases hi : (jobs i).pid = p
  · by_cases hf : slotOfPid jobs p = some i
    · rw [h.first i hf, hi]
      exact iff_of_false (fun h1 => h0 h1.symm) (fun h1 => hq h1.symm)
    · rw [h.later i hi hf, hi]
  · rw [h.other i hi]

/-- A status change of another child acts on the same slot in both tables. -/
theorem applyStatus_ne (hp : p ≠ 0) (h : Ahead p jobs jobs') (hev : ev.pid ≠ p) :
    Ahead p (applyStatus jobs ev) (applyStatus jobs' ev) := by
  have hs := h.slotOfPid_of_ne hev (by have := ev.pos; omega)
  cases hk : slotOfPid jobs ev.pid with
  | none => rwa [applyStatus_none hk, applyStatus_none (hs.trans hk)]
  | some k =>
    have hkp : (jobs k).pid ≠ p := (slotOfPid_eq_some.1 hk).1 ▸ hev
    rw [applyStatus_some hk, applyStatus_some (hs.trans hk), h.other k hkp]
    generalize hv : (if ev.Ends then clearjob else { jobs k with state := JobState.ST }) = v
    have hvp : v.pid ≠ p := by
      subst hv
      split_ifs
      · exact hp.symm
      · exact hkp
    have hp' : slotOfPid (Function.update jobs k v) p = slotOfPid jobs p := slotOfPid_congr fun i => by
      by_cases hi : i = k
      · subst hi
        rw [Function.update_self]
        exact iff_of_false hvp hkp
      · rw [Function.update_of_ne hi]
    refine ⟨?_, ?_, ?_⟩
    · intro i hi
      by_cases hik : i = k
      · subst hik
        simp only [Function.update_self]
      · rw [Function.update_of_ne hik] at hi ⊢
        rw [Function.update_of_ne hik]
        exact h.other i hi
    · intro i hi
      rw [hp'] at hi
      have hik : i ≠ k := by
        rintro rfl
        exact hkp (slotOfPid_eq_some.1 hi).1
      rw [Function.update_of_ne hik]
      exact h.first i hi
    · intro i hi hf
      have hik : i ≠ k := by
        rintro rfl
        rw [Function.update_self] at hi
        exact hvp hi
      rw [Function.update_of_ne hik] at hi ⊢
      exact h.later i hi (hp' ▸ hf)

/-- An exit of `p` clears the first slot of `p` in the one table and the second in the other. -/
theorem applyStatus_ends (hp : p ≠ 0) (h : Ahead p jobs jobs') (hev : ev.pid = p) (he : ev.Ends) :
    Ahead p (applyStatus jobs ev) (applyStatus jobs' ev) := by
  subst hev
  cases ha : slotOfPid jobs ev.pid with
  | none =>
    obtain rfl : jobs' = jobs := funext fun i => h.other i (slotOfPid_eq_none.1 ha i)
    rwa [applyStatus_none ha]
  | some a =>
    have hap := (slotOfPid_eq_some.1 ha).1
    rw [applyStatus_some ha, if_pos he]
    have hs : slotOfPid jobs' ev.pid = slotOfPid (Function.update jobs a clearjob) ev.pid := by
      refine slotOfPid_congr fun i => ?_
      by_cases hi : i = a
      · rw [hi, h.first a ha, Function.update_self]
      · rw [Function.update_of_ne hi]
        by_cases hip : (jobs i).pid = ev.pid
        · rw [h.later i hip (by rw [ha]; simpa using Ne.symm hi), hip]
        · rw [h.other i hip]
    have hother : ∀ i, (Function.update jobs a clearjob i).pid ≠ ev.pid →
        jobs' i = Function.update jobs a clearjob i := by
      intro i hi
      by_cases hia : i = a
      · rw [hia, h.first a ha, Function.update_self]
      · rw [Function.update_of_ne hia] at hi ⊢
        exact h.other i hi
    cases hb : slotOfPid (Function.update jobs a clearjob) ev.pid with
    | none =>
      rw [applyStatus_none (hs.trans hb)]
      have hno := slotOfPid_eq_none.1 hb
      refine ⟨hother, fun i hi => ?_, fun i hi => absurd hi (hno i)⟩
      rw [hb] at hi
      cases hi
    | some b =>
      rw [applyStatus_some (hs.trans hb), if_pos he]
      refine ⟨?_, ?_, ?_⟩
      · intro i hi
        have hib : i ≠ b := by
          rintro rfl
          exact hi (slotOfPid_eq_some.1 hb).1
        rw [Function.update_of_ne hib]
        exact hother i hi
      · intro i hi
        rw [hb] at hi
        cases hi
        rw [Function.update_self]
      · intro i hi hf
        have hib : i ≠ b := by
          rintro rfl
          exact hf hb
        have hia : i ≠ a := by
          rintro rfl
          rw [Function.update_self] at hi
          exact hp hi.symm
        rw [Function.update_of_ne hia] at hi
        rw [Function.update_of_ne hib]
        exact h.later i hi (by rw [ha]; simpa using Ne.symm hia)

theorem applyStatus_stop (hp : p ≠ 0) (h : Ahead p jobs jobs') (hev : ev.pid = p) (he : ¬ ev.Ends) :
    Ahead p (applyStatus jobs ev) (applyStatus jobs' ev) := by
  subst hev
  have hpid : ∀ (js : Jobs) i, (applyStatus js ev i).pid = (js i).pid := fun js i =>
    (applyStatus_pid js ev i).resolve_right fun h1 => he h1.1
  have hs : slotOfPid (applyStatus jobs ev) ev.pid = slotOfPid jobs ev.pid :=
    slotOfPid_congr fun i => by rw [hpid]
  refine ⟨?_, ?_, ?_⟩
  · intro i hi
    rw [hpid] at hi
    have hi' := h.other i hi
    rw [applyStatus_other hi, applyStatus_other (by rw [hi']; exact hi), hi']
  · intro i hi
    rw [hs] at hi
    have hi' := h.first i hi
    rw [applyStatus_other (by rw [hi']; exact hp.symm), hi']
  · intro i hi hf
    rw [hpid] at hi ⊢
    exact h.later i hi (hs ▸ hf)

theorem applyAll (hp : p ≠ 0) (h : Ahead p jobs jobs') (evs : List ChildEvent) :
    Ahead p (applyAll jobs evs) (applyAll jobs' evs) := by
  induction evs generalizing jobs jobs' with
  | nil => exact h
  | cons ev evs ih =>
    by_cases hev : ev.pid = p
    · by_cases he : ev.Ends
      · exact ih (h.applyStatus_ends hp hev he)
      · exact ih (h.applyStatus_stop hp hev he)
    · exact ih (h.applyStatus_ne hp hev)

theorem eq_iff (hp : p ≠ 0) (h : Ahead p jobs jobs') : jobs' = jobs ↔ ∀ i, (jobs i).pid ≠ p := by
  constructor
  · rintro rfl i hi
    cases hs : slotOfPid jobs' p with
    | none => exact slotOfPid_eq_none.1 hs i hi
    | some k =>
      have h1 := (slotOfPid_eq_some.1 hs).1
      rw [h.first k hs] at h1
      exact hp h1.symm
  · exact fun hno => funext fun i => h.other i (hno i)

end Ahead

/-- Processing an exit of `p` once more. -/
theorem ahead_applyStatus (he : ev.Ends) : Ahead ev.pid jobs (applyStatus jobs ev) := by
  refine ⟨fun i hi => applyStatus_other hi, ?_, ?_⟩
  · intro i hi
    rw [applyStatus_some hi, if_pos he, Function.update_self]
  · intro i hi hf
    cases hs : slotOfPid jobs ev.pid with
    | none => exact absurd hi (slotOfPid_eq_none.1 hs i)
    | some k =>
      have hik : i ≠ k := by
        rintro rfl
        exact hf hs
      rw [applyStatus_some hs, Function.update_of_ne hik, hi]

def countPid (jobs : Jobs) (p : Int) : Nat := (Finset.univ.filter fun i => (jobs i).pid = p).card

def countEnds (evs : List ChildEvent) (p : Int) : Nat := evs.countP fun ev => ev.pid = p ∧ ev.Ends

theorem countPid_applyStatus (hp : p ≠ 0) (jobs : Jobs) (ev : ChildEvent) :
    countPid (applyStatus jobs ev) p = countPid jobs p - if ev.pid = p ∧ ev.Ends then 1 else 0 := by
  unfold countPid
  cases hs : slotOfPid jobs ev.pid with
  | none =>
    have hno := slotOfPid_eq_none.1 hs
    rw [applyStatus_none hs]
    split_ifs with h
    · rw [Finset.filter_eq_empty_iff.2 fun i _ => h.1 ▸ hno i]
      rfl
    · rfl
  | some k =>
    obtain ⟨hk, -⟩ := slotOfPid_eq_some.1 hs
    split_ifs with h
    · obtain ⟨rfl, he⟩ := h
      rw [applyStatus_some hs, if_pos he, ← Finset.card_erase_of_mem (a := k) (by simp [hk])]
      congr 1
      ext i
      simp only [Finset.mem_filter, Finset.mem_univ, true_and, Finset.mem_erase]
      by_cases hi : i = k
      · subst hi
        rw [Function.update_self]
        exact iff_of_false (fun h1 => hp h1.symm) fun h1 => h1.1 rfl
      · rw [Function.update_of_ne hi]
        exact ⟨fun h1 => ⟨hi, h1⟩, fun h1 => h1.2⟩
    · rw [Nat.sub_zero]
      congr 1
      ext i
      simp only [Finset.mem_filter, Finset.mem_univ, true_and]
      by_cases hi : i = k
      · subst hi
        rw [applyStatus_some hs, Function.update_self]
        split_ifs with he
        · rw [hk]
          exact iff_of_false (fun h1 => hp h1.symm) fun h1 => h ⟨h1, he⟩
        · rfl
      · rw [applyStatus_some hs, Function.update_of_ne hi]

theorem countPid_applyAll (hp : p ≠ 0) (jobs : Jobs) (evs : List ChildEvent) :
    countPid (applyAll jobs evs) p = countPid jobs p - countEnds evs p := by
  induction evs generalizing jobs with
  | nil => rfl
  | cons ev evs ih =>
    refine (ih (applyStatus jobs ev)).trans ?_
    rw [countPid_applyStatus hp, countEnds, countEnds, List.countP_cons]
    simp only [decide_eq_true_eq]
    omega

theorem countPid_eq_zero : countPid jobs p = 0 ↔ ∀ i, (jobs i).pid ≠ p := by
  simp [countPid, Finset.filter_eq_empty_iff]

/-- **A lost exit** does no harm if the others still empty all slots of the child. -/
theorem lostEnd_iff (he : ev.Ends) :
    applyAll jobs (ev :: evs) = applyAll jobs evs ↔ countPid jobs ev.pid ≤ countEnds evs ev.pid := by
  have hp : ev.pid ≠ 0 := by have := ev.pos; omega
  have h0 : Ahead ev.pid jobs (applyStatus jobs ev) := ahead_applyStatus he
  have h := h0.applyAll hp evs
  refine (h.eq_iff hp).trans ?_
  rw [← countPid_eq_zero, countPid_applyAll hp]
  omega

/-! ### A lost stop -/

theorem slotOfPid_applyStatus (hp : p ≠ 0) (hev : ev.pid ≠ p) :
    slotOfPid (applyStatus jobs ev) p = slotOfPid jobs p := by
  refine slotOfPid_congr fun i => ?_
  by_cases hi : (jobs i).pid = ev.pid
  · refine iff_of_false ?_ (by rw [hi]; exact hev)
    rcases applyStatus_pid jobs ev i with h | ⟨-, h⟩
    · rw [h, hi]
      exact hev
    · rw [h]
      exact hp.symm
  · rw [applyStatus_other hi]

/-- The slot `k` stopped, the first one of `p`. -/
def stopSlot (jobs : Jobs) (k : Fin MAXJOBS) : Jobs := Function.update jobs k { jobs k with state := .ST }

theorem slotOfPid_stopSlot (q : Int) : slotOfPid (stopSlot jobs k) q = slotOfPid jobs q := by
  refine slotOfPid_congr fun i => ?_
  unfold stopSlot
  by_cases hi : i = k
  · subst hi
    rw [Function.update_self]
  · rw [Function.update_of_ne hi]

/-- The next status change of `p` overrides the stop. -/
theorem applyStatus_stopSlot_eq (hk : slotOfPid jobs ev.pid = some k) :
    applyStatus (stopSlot jobs k) ev = applyStatus jobs ev := by
  rw [applyStatus_some hk, applyStatus_some ((slotOfPid_stopSlot _).trans hk)]
  unfold stopSlot
  rw [Function.update_idem, Function.update_self]

theorem applyStatus_stopSlot_ne (hk : slotOfPid jobs p = some k) (hev : ev.pid ≠ p) :
    applyStatus (stopSlot jobs k) ev = stopSlot (applyStatus jobs ev) k := by
  have hkp := (slotOfPid_eq_some.1 hk).1
  have hk' : applyStatus jobs ev k = jobs k := applyStatus_other (by rw [hkp]; exact hev.symm)
  cases hm : slotOfPid jobs ev.pid with
  | none => rw [applyStatus_none hm, applyStatus_none ((slotOfPid_stopSlot _).trans hm)]
  | some m =>
    have hmk : m ≠ k := by
      rintro rfl
      exact hev ((slotOfPid_eq_some.1 hm).1.symm.trans hkp)
    rw [applyStatus_some ((slotOfPid_stopSlot _).trans hm), stopSlot, stopSlot, hk', applyStatus_some hm,
      Function.update_of_ne hmk, Function.update_comm hmk]

theorem applyAll_stopSlot_iff (hp : p ≠ 0) (hk : slotOfPid jobs p = some k) :
    applyAll (stopSlot jobs k) evs = applyAll jobs evs ↔
      (jobs k).state = .ST ∨ ∃ ev ∈ evs, ev.pid = p := by
  induction evs generalizing jobs with
  | nil =>
    unfold applyAll stopSlot
    rw [List.foldl_nil, List.foldl_nil, Function.update_eq_self_iff]
    cases hj : jobs k
    simp [eq_comm]
  | cons ev evs ih =>
    change applyAll (applyStatus (stopSlot jobs k) ev) evs = applyAll (applyStatus jobs ev) evs ↔ _
    by_cases hev : ev.pid = p
    · rw [applyStatus_stopSlot_eq (hev ▸ hk)]
      exact iff_of_true rfl (.inr ⟨ev, by simp, hev⟩)
    · have hkp := (slotOfPid_eq_some.1 hk).1
      have hk' : applyStatus jobs ev k = jobs k := applyStatus_other (by rw [hkp]; exact Ne.symm hev)
      rw [applyStatus_stopSlot_ne hk hev, ih ((slotOfPid_applyStatus hp hev).trans hk), hk']
      simp [hev]

/-- **A lost stop** does no harm if there is no job to stop, or it is stopped already, or a later status
change of the child overrides it. -/
theorem lostStop_iff (he : ¬ ev.Ends) : applyAll jobs (ev :: evs) = applyAll jobs evs ↔
    (∀ i, slotOfPid jobs ev.pid = some i → (jobs i).state = .ST) ∨ ∃ ev' ∈ evs, ev'.pid = ev.pid := by
  have hp : ev.pid ≠ 0 := by have := ev.pos; omega
  change applyAll (applyStatus jobs ev) evs = applyAll jobs evs ↔ _
  cases hk : slotOfPid jobs ev.pid with
  | none =>
    rw [applyStatus_none hk]
    simp
  | some k =>
    rw [applyStatus_some hk, if_neg he]
    exact (applyAll_stopSlot_iff hp hk).trans (by simp)

/-- The condition under which the lost status change did not matter. -/
def FirstHarmless (jobs : Jobs) : List ChildEvent → Prop
  | [] => True
  | ev :: evs =>
    if ev.Ends then countPid jobs ev.pid ≤ countEnds evs ev.pid
    else (∀ i, slotOfPid jobs ev.pid = some i → (jobs i).state = .ST) ∨ ∃ ev' ∈ evs, ev'.pid = ev.pid

/-- **`sigchld_handler`** processes every status change exactly when the first one was harmless. -/
theorem sigchldHandler_iff (t : Table) (evs : List ChildEvent) :
    (sigchldHandler t evs).jobs = applyAll t.jobs evs ↔ FirstHarmless t.jobs evs := by
  rw [sigchldHandler_jobs, eq_comm]
  cases evs with
  | nil => exact iff_of_true rfl trivial
  | cons ev evs =>
    simp only [FirstHarmless, List.tail_cons]
    split_ifs with he
    · exact lostEnd_iff he
    · exact lostStop_iff he

end CsappLab.Shell
