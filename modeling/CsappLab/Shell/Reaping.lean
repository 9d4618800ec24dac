import CsappLab.Shell.Machine

/-!
# Reaped children leave the table

In a run whose handler runs all lose only harmless status changes, every job in the table belongs to
a child that has not been reaped. The kernel may reuse a pid, so the pids of the table stay different
only because of this.
-/

namespace CsappLab.Shell

/-- Every occupied slot belongs to a child of the shell, and no two to the same. -/
structure Alive (procs : Int → ProcState) (jobs : Jobs) : Prop where
  child : ∀ i, (jobs i).pid ≠ 0 → procs (jobs i).pid = .child
  distinct : ∀ i j, (jobs i).pid ≠ 0 → (jobs i).pid = (jobs j).pid → i = j

/-- The invariant of these runs. -/
structure ReapInv (s : ShellState) : Prop where
  alive : Alive s.procs s.table.jobs
  adding : ∀ pid bg, s.pc = .addjob pid bg →
    0 < pid ∧ s.procs pid = .child ∧ ∀ i, (s.table.jobs i).pid ≠ pid
  masked : (s.pc = .fork ∨ ∃ pid bg, s.pc = .addjob pid bg) → s.blocked = true

/-- A run of the handler loses nothing that matters. -/
def HandlerOk (s : ShellState) (l : Option (List ChildEvent)) : Prop :=
  ∀ evs, l = some evs → FirstHarmless s.table.jobs evs

variable {s s' : ShellState} {jobs jobs' : Jobs} {t : Table} {i j k : Fin MAXJOBS} {pid : Int}
  {ev : ChildEvent} {evs : List ChildEvent} {procs : Int → ProcState}

namespace Alive

theorem applyStatus (h : Alive procs jobs) (ev : ChildEvent) :
    Alive (kernelStatus procs ev) (applyStatus jobs ev) := by
  have hkeep : ∀ i, (Shell.applyStatus jobs ev i).pid ≠ 0 →
      (Shell.applyStatus jobs ev i).pid = (jobs i).pid := by
    intro i hi
    rcases applyStatus_pid jobs ev i with h1 | ⟨-, h1⟩
    · exact h1
    · rw [h1] at hi
      exact absurd rfl hi
  refine ⟨fun i hi => ?_, fun i j hi hij => ?_⟩
  · have hi' := hkeep i hi
    rw [hi'] at hi ⊢
    unfold kernelStatus
    split_ifs with he
    · -- the slot of the child that ended is cleared
      have hne : (jobs i).pid ≠ ev.pid := by
        intro hp
        cases hs : slotOfPid jobs ev.pid with
        | none => exact slotOfPid_eq_none.1 hs i hp
        | some k =>
          have hk := (slotOfPid_eq_some.1 hs).1
          have hik : i = k := h.distinct i k hi (hp.trans hk.symm)
          rw [applyStatus_some hs, hik, if_pos he, Function.update_self, ← hik] at hi'
          exact hi hi'.symm
      rw [Function.update_of_ne hne]
      exact h.child i hi
    · exact h.child i hi
  · have hj : (Shell.applyStatus jobs ev j).pid ≠ 0 := hij ▸ hi
    rw [hkeep i hi, hkeep j hj] at hij
    exact h.distinct i j (hkeep i hi ▸ hi) hij

theorem applyAll (h : Alive procs jobs) (evs : List ChildEvent) :
    Alive (evs.foldl kernelStatus procs) (applyAll jobs evs) := by
  induction evs generalizing procs jobs with
  | nil => exact h
  | cons ev evs ih => exact ih (h.applyStatus ev)

theorem congr (h : Alive procs jobs) (hp : ∀ i, (jobs' i).pid = (jobs i).pid) : Alive procs jobs' := by
  constructor
  · intro i hi
    rw [hp] at hi ⊢
    exact h.child i hi
  · intro i j hi hij
    rw [hp] at hi hij
    rw [hp] at hij
    exact h.distinct i j hi hij

theorem fork (h : Alive procs jobs) (pid : Int) : Alive (Function.update procs pid .child) jobs := by
  refine ⟨fun i hi => ?_, h.distinct⟩
  by_cases hp : (jobs i).pid = pid
  · rw [hp, Function.update_self]
  · rw [Function.update_of_ne hp]
    exact h.child i hi

theorem addjob {bg : JobState} {cmdline : String} (h : Alive procs t.jobs) (hpid : 0 < pid)
    (hc : procs pid = .child) (hnew : ∀ i, (t.jobs i).pid ≠ pid) :
    Alive procs (addjob t pid bg cmdline).1.jobs := by
  rcases addjob_cases t pid bg cmdline hpid with ⟨k, hk, hadd⟩ | ⟨-, hadd⟩
  · rw [hadd]
    constructor
    · intro i hi
      by_cases hik : i = k
      · subst hik
        rw [Function.update_self]
        exact hc
      · rw [Function.update_of_ne hik] at hi ⊢
        exact h.child i hi
    · exact distinct_update h.distinct hnew
  · rwa [hadd]

end Alive

theorem ReapInv.main (h : ReapInv s) (hm : Main s s') : ReapInv s' := by
  obtain ⟨ha, hadd, hmask⟩ := h
  cases hm with
  | eval _ => exact ⟨ha, hadd, hmask⟩
  | sleep _ _ => exact ⟨ha, hadd, hmask⟩
  | block _ => exact ⟨ha, by simp, by simp⟩
  | @fork pid bg hpc hpos hnew =>
    refine ⟨ha.fork pid, fun q b hq => ?_, fun _ => hmask (.inl hpc)⟩
    cases hq
    refine ⟨hpos, Function.update_self .., fun i hi => ?_⟩
    exact hnew (hi ▸ ha.child i (by rw [hi]; exact hpos.ne'))
  | addjob hpc =>
    obtain ⟨h1, h2, h3⟩ := hadd _ _ hpc
    exact ⟨ha.addjob h1 h2 h3, by simp, by simp⟩
  | setBG _ => exact ⟨ha.congr (setState_pid _), by simp, by simp⟩
  | setFG _ => exact ⟨ha.congr (setState_pid _), by simp, by simp⟩
  | forkFails _ => exact ⟨ha, by simp, by simp⟩
  | unblock _ => exact ⟨ha, by simp, by simp⟩
  | printed _ => exact ⟨ha, by simp, by simp⟩
  | foreground _ => exact ⟨ha, by simp, by simp⟩
  | waited _ _ => exact ⟨ha, by simp, by simp⟩
  | findPid _ _ => exact ⟨ha, by simp, by simp⟩
  | findJid _ _ => exact ⟨ha, by simp, by simp⟩
  | kill _ => exact ⟨ha, by simp, by simp⟩
  | callWaitfg _ => exact ⟨ha, by simp, by simp⟩

theorem ReapInv.reach (h : shell.Reach HandlerOk s) : ReapInv s := by
  refine h.invariant ?_ ?_
  · rintro s ⟨ht, hb, hpc⟩
    refine ⟨⟨fun i hi => ?_, fun i j hi => ?_⟩, by simp [hpc], by simp [hpc]⟩
    all_goals
      rw [ht] at hi
      exact absurd rfl hi
  · rintro s l s' hinv hok hst
    cases l with
    | none => exact hinv.main hst
    | some evs =>
      obtain ⟨hb, -, rfl⟩ := hst
      have hnot : ¬ (s.pc = .fork ∨ ∃ pid bg, s.pc = .addjob pid bg) := by
        intro h1
        rw [hinv.masked h1] at hb
        cases hb
      refine ⟨?_, fun pid bg hpc => absurd (.inr ⟨pid, bg, hpc⟩) hnot, fun h1 => absurd h1 hnot⟩
      simp only
      rw [(sigchldHandler_iff s.table evs).2 (hok evs rfl)]
      exact hinv.alive.applyAll evs

/-- **Reaping.** On every table and for every sequence of status changes the handler processes all of
them exactly when the first one was harmless; and in a run whose handler runs all meet this condition
no job is left whose process has been reaped. -/
theorem handler_reaps (t : Table) (evs : List ChildEvent) :
    ((sigchldHandler t evs).jobs = applyAll t.jobs evs ↔ FirstHarmless t.jobs evs) ∧
    ∀ s, shell.Reach HandlerOk s →
      ∀ i, (s.table.jobs i).pid ≠ 0 → s.procs (s.table.jobs i).pid ≠ .reaped := by
  refine ⟨sigchldHandler_iff t evs, fun s hs i hi => ?_⟩
  rw [(ReapInv.reach hs).alive.child i hi]
  decide

/-- One foreground job, which exits: the handler drops the only status change, and the job stays in the
table although its process has been reaped. -/
theorem lost_exit :
    (let t := (addjob initjobs 100 .FG "").1
     let evs : List ChildEvent := [⟨100, .exited, by decide⟩]
     (sigchldHandler t evs).jobs ≠ applyAll t.jobs evs) ∧
    ∃ s, shell.Reachable s ∧ ∃ i, (s.table.jobs i).pid = 100 ∧ s.procs 100 = .reaped := by
  constructor
  · intro t evs h
    exact absurd (congrFun h ⟨0, by decide⟩) (by decide)
  · have h1 := launched_reachable 100 false start_reach rfl (by decide) (by decide)
    have h2 : shell.Reachable _ := h1.next (l := some [⟨100, .exited, by decide⟩]) ⟨rfl, ⟨rfl, trivial⟩, rfl⟩
    exact ⟨_, h2, ⟨0, by decide⟩, by decide, by decide⟩

end CsappLab.Shell
