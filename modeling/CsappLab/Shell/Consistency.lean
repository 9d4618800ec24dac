import CsappLab.Shell.Machine

/-!
# Consistency of the job table

`do_bgfg` writes `job->state` through a pointer it has looked up before a window in which the handler
may clear the slot. The table stays consistent exactly as long as such a write finds the slot still
occupied, and `addjob` is not given a pid that is still in the table and does not hand out the id 0, to
which `nextjid` comes when the `int` has wrapped (`WritesOk`).
-/

namespace CsappLab.Shell

/-- The slot is free or filled in all its fields. -/
def Job.Ok (job : Job) : Prop := (job.pid = 0 ↔ job.jid = 0) ∧ (job.jid = 0 ↔ job.state = .UNDEF)

/-- The job table is consistent. -/
structure TableOk (jobs : Jobs) : Prop where
  slots : ∀ i, (jobs i).Ok
  distinct : ∀ i j, (jobs i).pid ≠ 0 → (jobs i).pid = (jobs j).pid → i = j
  oneFG : ∀ i j, (jobs i).state = .FG → (jobs j).state = .FG → i = j

/-- The condition on a step: a slot that gets a new state is occupied, and a slot is filled with a pid
that no other slot has and an id that is not 0. -/
def WritesOk (s : ShellState) (l : Option (List ChildEvent)) : Prop :=
  l = none →
    match s.pc with
    | .setState i _ => (s.table.jobs i).pid ≠ 0
    | .addjob pid _ =>
      (∃ i, (s.table.jobs i).pid = 0) → (∀ i, (s.table.jobs i).pid ≠ pid) ∧ s.table.nextjid ≠ 0
    | _ => True

/-- Where a foreground job can be. -/
def FgAt (jobs : Jobs) : Pc → Prop
  | .unblock pid false => ∀ i, (jobs i).state = .FG → (jobs i).pid = pid
  | .afterUnblock pid false => ∀ i, (jobs i).state = .FG → (jobs i).pid = pid
  | .waitfg pid => ∀ i, (jobs i).state = .FG → (jobs i).pid = pid
  | .callWaitfg k => ∀ i, (jobs i).state = .FG → i = k
  | _ => ∀ i, (jobs i).state ≠ .FG

/-- The part of the invariant that needs no condition on the steps. -/
structure FgInv (s : ShellState) : Prop where
  fg : FgAt s.table.jobs s.pc
  adding : ∀ pid bg, s.pc = .addjob pid bg → 0 < pid

structure TableInv (s : ShellState) : Prop where
  table : TableOk s.table.jobs
  fg : FgAt s.table.jobs s.pc
  adding : ∀ pid bg, s.pc = .addjob pid bg → 0 < pid

variable {s s' : ShellState} {jobs jobs' : Jobs} {t : Table} {i j k : Fin MAXJOBS} {pid : Int} {pc : Pc}
  {ev : ChildEvent} {evs : List ChildEvent} {procs : Int → ProcState}

/-! ### The handler -/

/-- What status changes can do to a slot. -/
def Reduced (job job' : Job) : Prop :=
  job' = job ∨ job' = clearjob ∨ job.pid ≠ 0 ∧ job' = { job with state := .ST }

theorem Reduced.trans {job job' job'' : Job} (h : Reduced job job') (h' : Reduced job' job'') :
    Reduced job job'' := by
  rcases h' with rfl | rfl | ⟨hp, rfl⟩
  · exact h
  · exact .inr (.inl rfl)
  · rcases h with rfl | rfl | ⟨hp', rfl⟩
    · exact .inr (.inr ⟨hp, rfl⟩)
    · exact absurd rfl hp
    · exact .inr (.inr ⟨hp', rfl⟩)

theorem reduced_applyStatus (jobs : Jobs) (ev : ChildEvent) (i : Fin MAXJOBS) :
    Reduced (jobs i) (applyStatus jobs ev i) := by
  have hp : ev.pid ≠ 0 := by have := ev.pos; omega
  cases hs : slotOfPid jobs ev.pid with
  | none => rw [applyStatus_none hs]; exact .inl rfl
  | some k =>
    rw [applyStatus_some hs]
    by_cases hik : i = k
    · subst hik
      rw [Function.update_self]
      split_ifs
      · exact .inr (.inl rfl)
      · exact .inr (.inr ⟨by rw [(slotOfPid_eq_some.1 hs).1]; exact hp, rfl⟩)
    · rw [Function.update_of_ne hik]
      exact .inl rfl

theorem reduced_applyAll (jobs : Jobs) (evs : List ChildEvent) (i : Fin MAXJOBS) :
    Reduced (jobs i) (applyAll jobs evs i) := by
  induction evs generalizing jobs with
  | nil => exact .inl rfl
  | cons ev evs ih => exact (reduced_applyStatus jobs ev i).trans (ih _)

theorem Reduced.ok {job job' : Job} (h : Reduced job job') (hok : job.Ok) : job'.Ok := by
  rcases h with rfl | rfl | ⟨hp, rfl⟩
  · exact hok
  · exact ⟨by simp [clearjob], by simp [clearjob]⟩
  · have hj : job.jid ≠ 0 := fun h => hp (hok.1.2 h)
    exact ⟨by simp [hp, hj], by simp [hj]⟩

theorem Reduced.fg {job job' : Job} (h : Reduced job job') (hf : job'.state = .FG) : job' = job := by
  rcases h with rfl | rfl | ⟨-, rfl⟩
  · rfl
  · cases hf
  · cases hf

theorem Reduced.pid_eq {job job' : Job} (h : Reduced job job') (hp : job'.pid ≠ 0) : job'.pid = job.pid := by
  rcases h with rfl | rfl | ⟨-, rfl⟩
  · rfl
  · exact absurd rfl hp
  · rfl

theorem TableOk.reduced (h : TableOk jobs) (hr : ∀ i, Reduced (jobs i) (jobs' i)) : TableOk jobs' := by
  refine ⟨fun i => (hr i).ok (h.slots i), ?_, ?_⟩
  · intro i j hi hij
    have hi' := (hr i).pid_eq hi
    have hj' := (hr j).pid_eq (hij ▸ hi)
    exact h.distinct i j (hi' ▸ hi) (by rw [← hi', ← hj', hij])
  · intro i j hi hj
    exact h.oneFG i j ((hr i).fg hi ▸ hi) ((hr j).fg hj ▸ hj)

theorem FgAt.reduced (h : FgAt jobs pc) (hr : ∀ i, Reduced (jobs i) (jobs' i)) : FgAt jobs' pc := by
  have hfg : ∀ i, (jobs' i).state = .FG → (jobs i).state = .FG ∧ (jobs' i).pid = (jobs i).pid := by
    intro i hi
    have he := (hr i).fg hi
    exact ⟨he ▸ hi, by rw [he]⟩
  unfold FgAt at *
  split at h
  all_goals intro i hi
  · rw [(hfg i hi).2]; exact h i (hfg i hi).1
  · rw [(hfg i hi).2]; exact h i (hfg i hi).1
  · rw [(hfg i hi).2]; exact h i (hfg i hi).1
  · exact h i (hfg i hi).1
  · exact h i (hfg i hi).1

theorem reduced_handler (t : Table) (evs : List ChildEvent) (i : Fin MAXJOBS) :
    Reduced (t.jobs i) ((sigchldHandler t evs).jobs i) := by
  rw [sigchldHandler_jobs]
  exact reduced_applyAll _ _ i

theorem FgInv.handler (h : FgInv s) (evs : List ChildEvent) :
    FgInv { s with table := sigchldHandler s.table evs, procs := procs } :=
  ⟨h.fg.reduced (reduced_handler s.table evs), h.adding⟩

theorem TableInv.fgInv (h : TableInv s) : FgInv s := ⟨h.fg, h.adding⟩

theorem TableInv.handler (h : TableInv s) (evs : List ChildEvent) :
    TableInv { s with table := sigchldHandler s.table evs, procs := procs } :=
  ⟨h.table.reduced (reduced_handler s.table evs), h.fg.reduced (reduced_handler s.table evs), h.adding⟩

/-! ### The statements of the main program -/

theorem setState_other (state : JobState) (hik : i ≠ k) :
    (setState t k state).jobs i = t.jobs i := Function.update_of_ne hik ..

theorem setState_self (state : JobState) :
    (setState t k state).jobs k = { t.jobs k with state := state } := Function.update_self ..

theorem TableOk.setState {state : JobState} (h : TableOk t.jobs) (hno : ∀ i, (t.jobs i).state ≠ .FG)
    (hp : (t.jobs k).pid ≠ 0) (hs : state ≠ .UNDEF) : TableOk (setState t k state).jobs := by
  refine ⟨fun i => ?_, fun i j hi hij => ?_, fun i j hi hj => ?_⟩
  · by_cases hik : i = k
    · subst hik
      have hj : (t.jobs i).jid ≠ 0 := fun h1 => hp ((h.slots i).1.2 h1)
      rw [setState_self]
      exact ⟨by simp [hp, hj], by simp [hj, hs]⟩
    · rw [setState_other state hik]
      exact h.slots i
  · rw [setState_pid] at hi hij
    rw [setState_pid] at hij
    exact h.distinct i j hi hij
  · have hk : ∀ m, ((Shell.setState t k state).jobs m).state = .FG → m = k := by
      intro m hm
      by_contra hmk
      rw [setState_other state hmk] at hm
      exact hno m hm
    rw [hk i hi, hk j hj]

theorem TableOk.fill {job : Job} (h : TableOk jobs) (hno : ∀ i, (jobs i).state ≠ .FG) (hok : job.Ok)
    (hp : ∀ i, (jobs i).pid ≠ job.pid) : TableOk (Function.update jobs k job) := by
  refine ⟨?_, ?_, ?_⟩
  · intro i
    by_cases hik : i = k
    · subst hik
      rwa [Function.update_self]
    · rw [Function.update_of_ne hik]
      exact h.slots i
  · exact distinct_update h.distinct hp
  · intro i j hi hj
    have hk : ∀ m, (Function.update jobs k job m).state = .FG → m = k := by
      intro m hm
      by_contra hmk
      rw [Function.update_of_ne hmk] at hm
      exact hno m hm
    rw [hk i hi, hk j hj]

theorem update_fg {job : Job} (hno : ∀ i, (jobs i).state ≠ .FG)
    (hi : (Function.update jobs k job i).state = .FG) : i = k ∧ job.state = .FG := by
  by_cases hik : i = k
  · subst hik
    rw [Function.update_self] at hi
    exact ⟨rfl, hi⟩
  · rw [Function.update_of_ne hik] at hi
    exact absurd hi (hno i)

theorem FgAt.addjob {bg : Bool} (hno : ∀ i, (t.jobs i).state ≠ .FG) (hpid : 0 < pid) (cmdline : String) :
    FgAt (addjob t pid (stateOf bg) cmdline).1.jobs (.unblock pid bg) := by
  rcases addjob_cases t pid (stateOf bg) cmdline hpid with ⟨k, -, hadd⟩ | ⟨-, hadd⟩
  · rw [hadd]
    cases bg with
    | true => exact fun i hi => by cases (update_fg hno hi).2
    | false =>
      intro i hi
      rw [(update_fg hno hi).1, Function.update_self]
  · rw [hadd]
    cases bg with
    | true => exact hno
    | false => exact fun i hi => absurd hi (hno i)

theorem FgInv.main (h : FgInv s) (hm : Main s s') : FgInv s' := by
  have hfg := h.fg
  cases hm with
  | eval _ => exact h
  | sleep _ _ => exact h
  | addjob hpc => rw [hpc] at hfg; exact ⟨.addjob hfg (h.adding _ _ hpc) _, by simp⟩
  | block hpc => rw [hpc] at hfg; exact ⟨hfg, by simp⟩
  | fork hpc hpos _ =>
    rw [hpc] at hfg
    exact ⟨hfg, fun pid bg hq => by cases hq; exact hpos⟩
  | forkFails hpc => rw [hpc] at hfg; exact ⟨hfg, by simp⟩
  | @unblock pid bg hpc =>
    rw [hpc] at hfg
    refine ⟨?_, by simp⟩
    cases bg <;> exact hfg
  | printed hpc => rw [hpc] at hfg; exact ⟨hfg, by simp⟩
  | foreground hpc => rw [hpc] at hfg; exact ⟨hfg, by simp⟩
  | waited hpc hne =>
    rw [hpc] at hfg
    exact ⟨fun i hi => hne (fgpid_eq hi hfg).symm, by simp⟩
  | findPid hpc _ => rw [hpc] at hfg; exact ⟨hfg, by simp⟩
  | findJid hpc _ => rw [hpc] at hfg; exact ⟨hfg, by simp⟩
  | kill hpc => rw [hpc] at hfg; exact ⟨hfg, by simp⟩
  | setBG hpc =>
    rw [hpc] at hfg
    refine ⟨fun i hi => ?_, by simp⟩
    cases (update_fg hfg hi).2
  | setFG hpc =>
    rw [hpc] at hfg
    exact ⟨fun i hi => (update_fg hfg hi).1, by simp⟩
  | callWaitfg hpc =>
    rw [hpc] at hfg
    exact ⟨fun i hi => by rw [hfg i hi], by simp⟩

theorem FgInv.init (h : shell.init s) : FgInv s := by
  obtain ⟨ht, -, hpc⟩ := h
  refine ⟨?_, by simp [hpc]⟩
  rw [ht, hpc]
  intro i hi
  cases hi

theorem FgInv.reachable (h : shell.Reachable s) : FgInv s := by
  refine h.invariant (fun _ => .init) ?_
  rintro s l s' hinv - hst
  cases l with
  | none => exact hinv.main hst
  | some evs =>
    obtain ⟨-, -, rfl⟩ := hst
    exact hinv.handler evs

theorem TableOk.addjob {bg : Bool} {cmdline : String} (h : TableOk t.jobs) (hno : ∀ i, (t.jobs i).state ≠ .FG)
    (hpid : 0 < pid) (hnew : (∃ i, (t.jobs i).pid = 0) → (∀ i, (t.jobs i).pid ≠ pid) ∧ t.nextjid ≠ 0) :
    TableOk (addjob t pid (stateOf bg) cmdline).1.jobs := by
  rcases addjob_cases t pid (stateOf bg) cmdline hpid with ⟨k, hk, hadd⟩ | ⟨-, hadd⟩
  · obtain ⟨hfresh, hjid⟩ := hnew ⟨k, hk⟩
    have hjob : Job.Ok ⟨pid, t.nextjid, stateOf bg, cmdline⟩ :=
      ⟨iff_of_false hpid.ne' hjid, iff_of_false hjid (stateOf_ne bg)⟩
    rw [hadd]
    exact h.fill hno hjob hfresh
  · rw [hadd]
    exact h

theorem TableInv.main (h : TableInv s) (hok : WritesOk s none) (hm : Main s s') : TableInv s' := by
  have hfg := h.fg
  have hwr := hok rfl
  obtain ⟨hfg', hadd'⟩ := h.fgInv.main hm
  cases hm.tableStep with
  | same _ _ ht => exact ⟨ht ▸ h.table, hfg', hadd'⟩
  | add cmdline hpc ht =>
    rw [hpc] at hfg
    simp only [hpc] at hwr
    refine ⟨?_, hfg', hadd'⟩
    rw [ht]
    exact h.table.addjob hfg (h.adding _ _ hpc) hwr
  | set hpc ht =>
    rw [hpc] at hfg
    simp only [hpc] at hwr
    refine ⟨?_, hfg', hadd'⟩
    rw [ht]
    exact h.table.setState hfg hwr (stateOf_ne _)

theorem TableInv.init (h : shell.init s) : TableInv s := by
  obtain ⟨hfg, hadd⟩ := FgInv.init h
  obtain ⟨ht, -, -⟩ := h
  refine ⟨⟨?_, ?_, ?_⟩, hfg, hadd⟩
  · intro i
    rw [ht]
    exact ⟨by simp [initjobs, clearjob], by simp [initjobs, clearjob]⟩
  · intro i j hi
    rw [ht] at hi
    exact absurd rfl hi
  · intro i j hi
    rw [ht] at hi
    cases hi

theorem TableInv.reach (h : shell.Reach WritesOk s) : TableInv s := by
  refine h.invariant (fun _ => .init) ?_
  rintro s l s' hinv hok hst
  cases l with
  | none => exact hinv.main hok hst
  | some evs =>
    obtain ⟨-, -, rfl⟩ := hst
    exact hinv.handler evs

/-! ### A bad write -/

/-- A write to a cleared slot, a second slot with the same pid, or a job with the id 0. -/
theorem TableInv.broken (h : TableInv s) (hbad : ¬ WritesOk s none) (hm : Main s s') :
    ¬ TableOk s'.table.jobs := by
  intro hok
  refine hbad fun _ => ?_
  cases hm.tableStep with
  | same hadd hset _ =>
    split
    · rename_i hpc
      exact absurd hpc (hset _ _)
    · rename_i hpc
      exact absurd hpc (hadd _ _)
    · trivial
  | @add pid bg cmdline hpc ht =>
    simp only [hpc]
    rintro ⟨m, hm⟩
    have hpid := h.adding pid bg hpc
    rcases addjob_cases s.table pid (stateOf bg) cmdline hpid with ⟨k, hk, hadd⟩ | ⟨hfull, -⟩
    · rw [ht, hadd] at hok
      constructor
      · intro j hj
        have hjk : j ≠ k := by
          rintro rfl
          exact hpid.ne' (hj.symm.trans hk)
        refine hjk (hok.distinct j k ?_ ?_)
        · rw [Function.update_of_ne hjk, hj]
          exact hpid.ne'
        · rw [Function.update_of_ne hjk, Function.update_self, hj]
      · intro h0
        have hslot := (hok.slots k).1
        rw [Function.update_self] at hslot
        exact hpid.ne' (hslot.2 h0)
    · exact absurd hm (hfull m)
  | @set i bg hpc ht =>
    simp only [hpc]
    intro hp
    have hi := hok.slots i
    rw [ht, setState_self] at hi
    exact stateOf_ne bg (hi.2.1 (hi.1.1 hp))

/-- **Consistency.** In a run whose steps all meet the condition the table is consistent in every state,
and the first step that does not meet it makes the table inconsistent. -/
theorem table_consistent (s : ShellState) (h : shell.Reach WritesOk s) :
    TableOk s.table.jobs ∧
    ∀ l s', shell.step s l s' → ¬ WritesOk s l → ¬ TableOk s'.table.jobs := by
  refine ⟨(TableInv.reach h).table, fun l s' hst hbad => ?_⟩
  cases l with
  | none => exact (TableInv.reach h).broken hbad hst
  | some evs => exact absurd (fun hl => by cases hl) hbad

theorem launched_writesOk (pid : Int) (bg : Bool) (h : shell.Reach WritesOk s) (hpc : s.pc = .eval)
    (hpid : 0 < pid) (hnew : s.procs pid ≠ .child)
    (hok : (∃ i, (s.table.jobs i).pid = 0) → (∀ i, (s.table.jobs i).pid ≠ pid) ∧ s.table.nextjid ≠ 0) :
    shell.Reach WritesOk (launched s pid bg) := by
  refine launched_reach pid bg h hpc hpid hnew ?_ fun s' hs' _ => by rw [hs']; trivial
  rintro s' ht (hs' | hs' | hs') -
  · rw [hs']
    trivial
  · rw [hs']
    trivial
  · rw [hs', ht]
    exact hok

/-- Three jobs run in the background. `bg 100` resumes its job while the handler deletes job 200; when it is
entered again the handler deletes job 100 before the write, which then leaves a bad slot. -/
theorem table_consistent_three : ∃ s s', shell.Reach WritesOk s ∧ TableOk s.table.jobs ∧
    List.ofFn (fun i => (s.table.jobs i).pid) = [0, 0, 300] ++ List.replicate 13 0 ∧
    shell.step s none s' ∧ ¬ TableOk s'.table.jobs := by
  have h100 := launched_writesOk 100 true start_reach rfl (by decide) (by decide) (by decide)
  have hnext := h100.step (l := none) (fun _ => trivial) (Main.printed rfl)
  have h200 := launched_writesOk 200 true hnext rfl (by decide) (by decide) (by decide)
  have hnext := h200.step (l := none) (fun _ => trivial) (Main.printed rfl)
  have h300 := launched_writesOk 300 true hnext rfl (by decide) (by decide) (by decide)
  have hnext := h300.step (l := none) (fun _ => trivial) (Main.printed rfl)
  have hfind := hnext.step (l := none) (fun _ => trivial) (@Main.findPid _ 100 ⟨0, by decide⟩ true rfl (by decide))
  have hdied := hfind.step (l := some [⟨200, .stopped, by decide⟩, ⟨200, .exited, by decide⟩])
    (fun h => by cases h) ⟨rfl, ⟨rfl, rfl, trivial⟩, rfl⟩
  have hkill := hdied.step (l := none) (fun _ => trivial) (Main.kill rfl)
  have hset := hkill.step (l := none) (fun _ => by decide) (Main.setBG rfl)
  have hfind := hset.step (l := none) (fun _ => trivial) (@Main.findPid _ 100 ⟨0, by decide⟩ true rfl (by decide))
  have hdied := hfind.step (l := some [⟨300, .exited, by decide⟩, ⟨100, .exited, by decide⟩])
    (fun h => by cases h) ⟨rfl, ⟨rfl, rfl, trivial⟩, rfl⟩
  have hkill := hdied.step (l := none) (fun _ => trivial) (Main.kill rfl)
  obtain ⟨hok, hbad⟩ := table_consistent _ hkill
  exact ⟨_, _, hkill, hok, by decide, Main.setBG rfl, hbad none _ (Main.setBG rfl) fun h => absurd (h rfl) (by decide)⟩

/-- `bg 200` has looked up its job when both children exit; the handler drops the first status change and
clears the job, and the command then sets the state of the free slot. -/
theorem stale_write : ∃ s, shell.Reachable s ∧
    (∃ i, (s.table.jobs i).pid = 0 ∧ (s.table.jobs i).jid = 0 ∧ (s.table.jobs i).state = .BG) ∧
    ¬ TableOk s.table.jobs := by
  have h1 := launched_reachable 100 true start_reach rfl (by decide) (by decide)
  have h2 : shell.Reachable _ := h1.next (l := none) (Main.printed rfl)
  have h3 := launched_reachable 200 true h2 rfl (by decide) (by decide)
  have h4 : shell.Reachable _ := h3.next (l := none) (Main.printed rfl)
  have h5 : shell.Reachable _ := h4.next (l := none)
    (@Main.findPid _ 200 ⟨1, by decide⟩ true rfl (by decide))
  have h6 : shell.Reachable _ := h5.next (l := some [⟨100, .exited, by decide⟩, ⟨200, .exited, by decide⟩])
    ⟨rfl, ⟨rfl, rfl, trivial⟩, rfl⟩
  have h7 : shell.Reachable _ := h6.next (l := none) (Main.kill rfl)
  have h8 : shell.Reachable _ := h7.next (l := none) (Main.setBG rfl)
  refine ⟨_, h8, ⟨⟨1, by decide⟩, by decide, by decide, by decide⟩, fun hok => ?_⟩
  exact absurd ((hok.slots ⟨1, by decide⟩).2) (by decide)

end CsappLab.Shell
