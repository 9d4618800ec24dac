import CsappLab.Shell.Consistency

/-!
# Keyboard signals and a new child

Ctrl-c and ctrl-z reach the shell, which passes them on with `kill(-fpid, sig)`. A new child starts in the
process group of the shell and leaves it with its own call of `setpgid`, while only `SIGCHLD` is blocked in
the shell. So between `addjob` and that call the foreground job is in the table, but not yet in the group
that the handlers signal.
-/

namespace CsappLab.Shell

inductive Sig
  | INT
  | TSTP
deriving DecidableEq, Repr

/-- What a handler does: nothing, a call of `kill` with that id, or a read through a null pointer. -/
inductive Handled
  | nothing
  | kill (id : Int)
  | null
deriving DecidableEq, Repr

def sigintHandler (jobs : Jobs) : Handled :=
  let fpid := fgpid jobs
  if fpid ≠ 0 then .kill (-fpid) else .nothing

def sigtstpHandler (jobs : Jobs) : Handled :=
  let fpid := fgpid jobs
  if fpid ≠ 0 then
    match getjobpid jobs fpid with
    | none => .null
    | some fjob => if (jobs fjob).state = .ST then .nothing else .kill (-fpid)
  else .nothing

def handler : Sig → Jobs → Handled
  | .INT => sigintHandler
  | .TSTP => sigtstpHandler

/-- The next statement of the child; `running` is the program that `execve` has started. -/
inductive ChildPc
  | setpgid
  | unblock
  | execve
  | running
  | ended
deriving DecidableEq, Repr

/-- The shell, and one child with its process group. -/
structure Race where
  shell : ShellState
  child : ChildPc
  group : Int

inductive RaceStep
  | parent
  | sigchld (evs : List ChildEvent)
  | setpgid
  | unblock
  | execve
  | ends

/-- The call of `eval` that forked `pid`, up to its return, and the child. `SIGCHLD` tells of the end of the
child only after it. -/
def race (pid : Int) (s₀ : Race) : Machine Race RaceStep where
  init s := s = s₀
  step s l s' :=
    match l with
    | .parent => s.shell.pc ≠ .eval ∧ ∃ shell', Main s.shell shell' ∧ s' = { s with shell := shell' }
    | .sigchld evs => (∀ ev ∈ evs, ev.pid = pid → ev.Ends → s.child = .ended) ∧
        ∃ shell', shell.step s.shell (some evs) shell' ∧ s' = { s with shell := shell' }
    -- `setpgid(0, 0)` makes the child the leader of a group of its own
    | .setpgid => s.child = .setpgid ∧ s' = { s with child := .unblock, group := pid }
    | .unblock => s.child = .unblock ∧ s' = { s with child := .execve }
    | .execve => s.child = .execve ∧ s' = { s with child := .running }
    | .ends => s' = { s with child := .ended }

/-- `fork` has returned `pid`. The kernel gives a child no pid that is the id of a process group. -/
structure Forked (pid : Int) (s : Race) : Prop where
  reachable : shell.Reachable s.shell
  pc : ∃ bg, s.shell.pc = .addjob pid bg
  child : s.child = .setpgid
  group : s.group ≠ pid

/-- `kill` with the negative of the child's group reaches it. -/
def Reaches (s : Race) (sig : Sig) : Prop :=
  s.child ≠ .ended ∧ handler sig s.shell.table.jobs = .kill (-s.group)

def InFG (jobs : Jobs) (pid : Int) : Prop := ∃ i, (jobs i).pid = pid ∧ (jobs i).state = .FG

/-- `sigtstp_handler` looks at the first slot with the pid, and finds it stopped. -/
def FirstStopped (jobs : Jobs) (pid : Int) : Prop := ∃ i, getjobpid jobs pid = some i ∧ (jobs i).state = .ST

variable {s s' s₀ : Race} {jobs : Jobs} {t : Table} {pid id : Int} {sig : Sig} {i j k : Fin MAXJOBS}
  {l : RaceStep} {job : Job}

/-! ### The handlers -/

theorem handler_eq_kill (hpos : 0 < pid) (hall : ∀ i, (jobs i).state = .FG → (jobs i).pid = pid) :
    handler sig jobs = .kill (-id) ↔
      id = pid ∧ InFG jobs pid ∧ (sig = .TSTP → ¬ FirstStopped jobs pid) := by
  by_cases hfg : ∃ i, (jobs i).state = .FG
  · obtain ⟨i, hi⟩ := hfg
    have hf : fgpid jobs = pid := fgpid_eq hi hall
    have hin : InFG jobs pid := ⟨i, hall i hi, hi⟩
    cases sig with
    | INT =>
      simp only [handler, sigintHandler, hf, if_pos hpos.ne', Handled.kill.injEq, neg_inj]
      exact ⟨fun h => ⟨h.symm, hin, nofun⟩, fun h => h.1.symm⟩
    | TSTP =>
      simp only [handler, sigtstpHandler, hf, if_pos hpos.ne', FirstStopped]
      cases hg : getjobpid jobs pid with
      | none =>
        have hno : ∀ j, (jobs j).pid ≠ pid := by
          unfold getjobpid at hg
          rw [if_neg (by omega)] at hg
          exact slotOfPid_eq_none.1 hg
        exact absurd (hall i hi) (hno i)
      | some k =>
        by_cases hst : (jobs k).state = .ST
        · simp [hst]
        · have hno : ¬ ∃ m, some k = some m ∧ (jobs m).state = .ST := by
            rintro ⟨m, hm, hs⟩
            cases hm
            exact hst hs
          simp only [if_neg hst, Handled.kill.injEq, neg_inj]
          exact ⟨fun h => ⟨h.symm, hin, fun _ => hno⟩, fun h => h.1.symm⟩
  · have hno : ∀ j, (jobs j).state ≠ .FG := fun j hj => hfg ⟨j, hj⟩
    have hf : fgpid jobs = 0 := fgpid_eq_zero hno
    have hin : ¬ InFG jobs pid := fun ⟨j, _, hj⟩ => hno j hj
    cases sig <;> simp [handler, sigintHandler, sigtstpHandler, hf, hin]

theorem not_firstStopped (hone : ∀ i j, (jobs i).pid = pid → (jobs j).pid = pid → i = j)
    (hin : InFG jobs pid) : ¬ FirstStopped jobs pid := by
  rintro ⟨k, hk, hst⟩
  obtain ⟨i, hi, hf⟩ := hin
  have hkp : (jobs k).pid = pid := by
    unfold getjobpid at hk
    split_ifs at hk
    exact (slotOfPid_eq_some.1 hk).1
  rw [hone k i hkp hi, hf] at hst
  cases hst

/-! ### Runs -/

/-- The statements of `eval` behind `fork`. -/
def AfterFork (pid : Int) : Pc → Prop
  | .addjob p _ => p = pid
  | .unblock p _ => p = pid
  | .afterUnblock p _ => p = pid
  | .waitfg p => p = pid
  | .eval => True
  | _ => False

structure RaceInv (pid : Int) (s : Race) : Prop where
  fg : FgInv s.shell
  pc : AfterFork pid s.shell.pc
  group : s.child = .setpgid → s.group ≠ pid
  moved : s.child ≠ .setpgid → s.child ≠ .ended → s.group = pid

/-- The pid is new in the table, and then in one slot. -/
structure OneSlot (pid : Int) (s : Race) : Prop where
  new : ∀ bg, s.shell.pc = .addjob pid bg → ∀ i, (s.shell.table.jobs i).pid ≠ pid
  one : ∀ i j, (s.shell.table.jobs i).pid = pid → (s.shell.table.jobs j).pid = pid → i = j

theorem AfterFork.main {shell shell' : ShellState} (h : AfterFork pid shell.pc) (hne : shell.pc ≠ .eval)
    (hm : Main shell shell') : AfterFork pid shell'.pc ∧ ∀ p bg, shell'.pc ≠ .addjob p bg := by
  cases hm with
  | addjob hpc => rw [hpc] at h; exact ⟨h, by simp⟩
  | unblock hpc => rw [hpc] at h; exact ⟨h, by simp⟩
  | printed _ => exact ⟨trivial, by simp⟩
  | foreground hpc => rw [hpc] at h; exact ⟨h, by simp⟩
  | sleep hpc _ => exact ⟨h, by simp [hpc]⟩
  | waited _ _ => exact ⟨trivial, by simp⟩
  | eval hpc => exact absurd hpc hne
  | block hpc => exact absurd hpc hne
  | findPid hpc _ => exact absurd hpc hne
  | findJid hpc _ => exact absurd hpc hne
  | fork hpc _ _ => rw [hpc] at h; exact h.elim
  | forkFails hpc => rw [hpc] at h; exact h.elim
  | kill hpc => rw [hpc] at h; exact h.elim
  | setBG hpc => rw [hpc] at h; exact h.elim
  | setFG hpc => rw [hpc] at h; exact h.elim
  | callWaitfg hpc => rw [hpc] at h; exact h.elim

theorem RaceInv.init (h : Forked pid s) : RaceInv pid s := by
  obtain ⟨hr, ⟨bg, hpc⟩, hchild, hgroup⟩ := h
  refine ⟨.reachable hr, ?_, fun _ => hgroup, fun hne => absurd hchild hne⟩
  rw [hpc]
  rfl

theorem RaceInv.step (h : RaceInv pid s) (hst : (race pid s₀).step s l s') : RaceInv pid s' := by
  cases l with
  | parent =>
    obtain ⟨hne, shell', hm, rfl⟩ := hst
    exact ⟨h.fg.main hm, (h.pc.main hne hm).1, h.group, h.moved⟩
  | sigchld evs =>
    obtain ⟨-, shell', ⟨-, -, rfl⟩, rfl⟩ := hst
    exact ⟨h.fg.handler evs, h.pc, h.group, h.moved⟩
  | setpgid =>
    obtain ⟨-, rfl⟩ := hst
    exact ⟨h.fg, h.pc, by simp, fun _ _ => rfl⟩
  | unblock =>
    obtain ⟨hc, rfl⟩ := hst
    exact ⟨h.fg, h.pc, by simp, fun _ _ => h.moved (by simp [hc]) (by simp [hc])⟩
  | execve =>
    obtain ⟨hc, rfl⟩ := hst
    exact ⟨h.fg, h.pc, by simp, fun _ _ => h.moved (by simp [hc]) (by simp [hc])⟩
  | ends =>
    cases hst
    exact ⟨h.fg, h.pc, by simp, fun _ hne => absurd rfl hne⟩

theorem RaceInv.reachable (h0 : Forked pid s₀) (h : (race pid s₀).Reachable s) : RaceInv pid s := by
  refine h.invariant ?_ fun s l s' hinv _ hst => hinv.step hst
  rintro s rfl
  exact .init h0

/-- Whatever `eval` is doing, no job but the new one is in the foreground. -/
theorem RaceInv.onlyFG (h : RaceInv pid s) (hi : (s.shell.table.jobs i).state = .FG) :
    (s.shell.table.jobs i).pid = pid := by
  have hfg := h.fg.fg
  have hpc := h.pc
  revert hfg hpc
  generalize s.shell.pc = pc
  intro hfg hpc
  match pc, hpc with
  | .addjob _ _, _ => exact absurd hi (hfg i)
  | .eval, _ => exact absurd hi (hfg i)
  | .unblock _ true, _ => exact absurd hi (hfg i)
  | .afterUnblock _ true, _ => exact absurd hi (hfg i)
  | .unblock _ false, hp => exact (hfg i hi).trans hp
  | .afterUnblock _ false, hp => exact (hfg i hi).trans hp
  | .waitfg _, hp => exact (hfg i hi).trans hp

theorem OneSlot.main {shell' : ShellState} (hpos : 0 < pid) (h : OneSlot pid s) (hpc : AfterFork pid s.shell.pc)
    (hne : s.shell.pc ≠ .eval) (hm : Main s.shell shell') : OneSlot pid { s with shell := shell' } := by
  have hadd' := (hpc.main hne hm).2
  refine ⟨fun bg hp => absurd hp (hadd' pid bg), ?_⟩
  cases hm.tableStep with
  | same _ _ ht =>
    intro i j
    rw [ht]
    exact h.one i j
  | @add p bg cmdline hp ht =>
    obtain rfl : p = pid := by rw [hp] at hpc; exact hpc
    have hnew := h.new bg hp
    intro i j hi hj
    rw [ht] at hi hj
    rcases addjob_cases s.shell.table p (stateOf bg) cmdline hpos with ⟨k, -, hadd⟩ | ⟨-, hadd⟩
    · have hk : ∀ i, ((addjob s.shell.table p (stateOf bg) cmdline).1.jobs i).pid = p → i = k := by
        intro i hi
        by_contra hik
        rw [hadd, Function.update_of_ne hik] at hi
        exact hnew i hi
      rw [hk i hi, hk j hj]
    · rw [hadd] at hi
      exact absurd hi (hnew i)
  | set hp _ => rw [hp] at hpc; exact hpc.elim

theorem OneSlot.handler (hpos : 0 < pid) (h : OneSlot pid s) (evs : List ChildEvent) (procs : Int → ProcState) :
    OneSlot pid { s with shell := { s.shell with table := sigchldHandler s.shell.table evs, procs := procs } } := by
  have hp : ∀ i, ((sigchldHandler s.shell.table evs).jobs i).pid = pid → (s.shell.table.jobs i).pid = pid := by
    intro i hi
    rw [← (reduced_handler s.shell.table evs i).pid_eq (by omega), hi]
  exact ⟨fun bg hpc i hi => h.new bg hpc i (hp i hi), fun i j hi hj => h.one i j (hp i hi) (hp j hj)⟩

theorem OneSlot.step (hpos : 0 < pid) (hinv : RaceInv pid s) (h : OneSlot pid s)
    (hst : (race pid s₀).step s l s') : OneSlot pid s' := by
  cases l with
  | parent =>
    obtain ⟨hne, shell', hm, rfl⟩ := hst
    exact h.main hpos hinv.pc hne hm
  | sigchld evs =>
    obtain ⟨-, shell', ⟨-, -, rfl⟩, rfl⟩ := hst
    exact h.handler hpos evs _
  | setpgid => obtain ⟨-, rfl⟩ := hst; exact ⟨h.new, h.one⟩
  | unblock => obtain ⟨-, rfl⟩ := hst; exact ⟨h.new, h.one⟩
  | execve => obtain ⟨-, rfl⟩ := hst; exact ⟨h.new, h.one⟩
  | ends => cases hst; exact ⟨h.new, h.one⟩

theorem OneSlot.reachable (h0 : Forked pid s₀) (hpos : 0 < pid) (h : (race pid s₀).Reachable s)
    (hnew : ∀ i, (s₀.shell.table.jobs i).pid ≠ pid) : OneSlot pid s := by
  have hboth : RaceInv pid s ∧ OneSlot pid s := by
    refine Machine.Reach.invariant (I := fun s => RaceInv pid s ∧ OneSlot pid s) h ?_ ?_
    · rintro s rfl
      exact ⟨.init h0, fun _ _ => hnew, fun i _ hi _ => absurd hi (hnew i)⟩
    · rintro s l s' ⟨hrace, hone⟩ - hst
      exact ⟨hrace.step hst, hone.step hpos hrace hst⟩
  exact hboth.2

theorem Forked.pos (h : Forked pid s) : 0 < pid := by
  obtain ⟨bg, hpc⟩ := h.pc
  exact (FgInv.reachable h.reachable).adding pid bg hpc

/-- **Forwarding.** A signal of the keyboard reaches the living child exactly if the job is in the table as
`FG`, the child has called `setpgid`, and `sigtstp_handler` does not find an older slot with the same pid
that is stopped; there is no such slot if the pid was new in the table. -/
theorem signal_reaches (h0 : Forked pid s₀) (h : (race pid s₀).Reachable s) (halive : s.child ≠ .ended)
    (sig : Sig) :
    (Reaches s sig ↔ InFG s.shell.table.jobs pid ∧ s.child ≠ .setpgid ∧
      (sig = .TSTP → ¬ FirstStopped s.shell.table.jobs pid)) ∧
    ((∀ i, (s₀.shell.table.jobs i).pid ≠ pid) → InFG s.shell.table.jobs pid →
      ¬ FirstStopped s.shell.table.jobs pid) := by
  have hinv := RaceInv.reachable h0 h
  have hk : handler sig s.shell.table.jobs = .kill (-s.group) ↔ s.group = pid ∧
      InFG s.shell.table.jobs pid ∧ (sig = .TSTP → ¬ FirstStopped s.shell.table.jobs pid) :=
    handler_eq_kill h0.pos fun i => hinv.onlyFG
  have hgroup : s.group = pid ↔ s.child ≠ .setpgid :=
    ⟨fun hg hc => hinv.group hc hg, fun hc => hinv.moved hc halive⟩
  refine ⟨?_, fun hnew => not_firstStopped (OneSlot.reachable h0 h0.pos h hnew).one⟩
  unfold Reaches
  rw [hk, hgroup]
  tauto

def firstFork : Race where
  shell := ⟨initjobs, true, Function.update start.procs 100 .child, .addjob 100 false⟩
  child := .setpgid
  group := 1

def firstAdded : Race :=
  { firstFork with shell := ⟨(addjob initjobs 100 .FG "").1, true, firstFork.shell.procs, .unblock 100 false⟩ }

theorem firstFork_forked : Forked 100 firstFork := by
  have h1 : Main start { start with blocked := true, pc := .fork } := .block rfl
  have h2 : Main { start with blocked := true, pc := .fork } firstFork.shell := .fork rfl (by omega) nofun
  have h0 : shell.Reachable start := start_reach
  have h3 : shell.Reachable firstFork.shell := (h0.next (l := none) h1).next (l := none) h2
  exact ⟨h3, ⟨false, rfl⟩, rfl, by simp [firstFork]⟩

theorem firstAdded_reachable : (race 100 firstFork).Reachable firstAdded := by
  have h1 : Main firstFork.shell firstAdded.shell :=
    @Main.addjob firstFork.shell 100 false "" rfl
  have h0 : (race 100 firstFork).Reachable firstFork := .init rfl
  exact h0.next (l := .parent) ⟨nofun, _, h1, rfl⟩

theorem firstAdded_inFG : InFG firstAdded.shell.table.jobs 100 := ⟨⟨0, by decide⟩, rfl, rfl⟩

theorem signal_reaches_moved : Reaches { firstAdded with child := .unblock, group := 100 } .TSTP := by
  have h : (race 100 firstFork).Reachable { firstAdded with child := .unblock, group := 100 } :=
    firstAdded_reachable.next (l := .setpgid) ⟨rfl, rfl⟩
  obtain ⟨hiff, hnew⟩ := signal_reaches firstFork_forked h nofun .TSTP
  exact hiff.2 ⟨firstAdded_inFG, nofun, fun _ => hnew (fun i => nofun) firstAdded_inFG⟩

/-- Ctrl-c between `addjob` and the child's `setpgid`: the signal goes to the group 100, which does not exist,
and the child is in the group of the shell. -/
theorem signal_lost : Forked 100 firstFork ∧ (race 100 firstFork).Reachable firstAdded ∧
    firstAdded.child ≠ .ended ∧ InFG firstAdded.shell.table.jobs 100 ∧
    handler .INT firstAdded.shell.table.jobs = .kill (-100) ∧ ¬ Reaches firstAdded .INT := by
  have hk : handler .INT firstAdded.shell.table.jobs = .kill (-100) := by
    have hf : fgpid firstAdded.shell.table.jobs = 100 := by decide
    simp [handler, sigintHandler, hf]
  refine ⟨firstFork_forked, firstAdded_reachable, nofun, firstAdded_inFG, hk, ?_⟩
  rintro ⟨-, hr⟩
  rw [hk] at hr
  cases hr

end CsappLab.Shell
