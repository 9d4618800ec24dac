import CsappLab.Lib.Machine
import CsappLab.Shell.Handler

/-!
# The shell and its signal handler

The main program of `tsh.c`, one step for each statement that matters to the job table, and whole runs
of `sigchld_handler` at any point where `SIGCHLD` is not blocked. The kernel knows which pids are
children of the shell; it reports status changes of children only and reuses the pid of a child that
has been reaped. `eval` reads `args` before anything is written to it, so the command is arbitrary.
-/

namespace CsappLab.Shell

inductive ProcState
  | absent
  | child
  | reaped
deriving DecidableEq, Repr

/-- The next statement of the main program; `bg` is the background flag, or the command `bg`. -/
inductive Pc
  | eval
  | fork
  | addjob (pid : Int) (bg : Bool)
  | unblock (pid : Int) (bg : Bool)
  | afterUnblock (pid : Int) (bg : Bool)
  | waitfg (pid : Int)
  | kill (job : Fin MAXJOBS) (bg : Bool)
  | setState (job : Fin MAXJOBS) (bg : Bool)
  | callWaitfg (job : Fin MAXJOBS)
deriving DecidableEq

structure ShellState where
  table : Table
  blocked : Bool
  procs : Int → ProcState
  pc : Pc

def stateOf (bg : Bool) : JobState := if bg then .BG else .FG

def setState (t : Table) (i : Fin MAXJOBS) (state : JobState) : Table :=
  { t with jobs := Function.update t.jobs i { t.jobs i with state := state } }

/-- The effect of a reported status change on the kernel. -/
def kernelStatus (procs : Int → ProcState) (ev : ChildEvent) : Int → ProcState :=
  if ev.Ends then Function.update procs ev.pid .reaped else procs

/-- The kernel can hand out `evs`: each status change is about a child. -/
def CanHand (procs : Int → ProcState) : List ChildEvent → Prop
  | [] => True
  | ev :: evs => procs ev.pid = .child ∧ CanHand (kernelStatus procs ev) evs

/-- A statement of the main program. -/
inductive Main : ShellState → ShellState → Prop
  | eval {s : ShellState} : s.pc = .eval → Main s s
  | block {s : ShellState} : s.pc = .eval → Main s { s with blocked := true, pc := .fork }
  | fork {s : ShellState} {pid : Int} {bg : Bool} : s.pc = .fork → 0 < pid → s.procs pid ≠ .child →
      Main s { s with procs := Function.update s.procs pid .child, pc := .addjob pid bg }
  | forkFails {s : ShellState} : s.pc = .fork → Main s { s with pc := .eval }
  | addjob {s : ShellState} {pid : Int} {bg : Bool} {cmdline : String} : s.pc = .addjob pid bg →
      Main s { s with table := (addjob s.table pid (stateOf bg) cmdline).1, pc := .unblock pid bg }
  | unblock {s : ShellState} {pid : Int} {bg : Bool} : s.pc = .unblock pid bg →
      Main s { s with blocked := false, pc := .afterUnblock pid bg }
  | printed {s : ShellState} {pid : Int} : s.pc = .afterUnblock pid true → Main s { s with pc := .eval }
  | foreground {s : ShellState} {pid : Int} : s.pc = .afterUnblock pid false →
      Main s { s with pc := .waitfg pid }
  | sleep {s : ShellState} {pid : Int} : s.pc = .waitfg pid → pid = fgpid s.table.jobs → Main s s
  | waited {s : ShellState} {pid : Int} : s.pc = .waitfg pid → pid ≠ fgpid s.table.jobs →
      Main s { s with pc := .eval }
  -- `do_bgfg` keeps the pointer `job` from here on
  | findPid {s : ShellState} {pid : Int} {i : Fin MAXJOBS} {bg : Bool} : s.pc = .eval →
      getjobpid s.table.jobs pid = some i → Main s { s with pc := .kill i bg }
  | findJid {s : ShellState} {jid : Int} {i : Fin MAXJOBS} {bg : Bool} : s.pc = .eval →
      getjobjid s.table.jobs jid = some i → Main s { s with pc := .kill i bg }
  | kill {s : ShellState} {i : Fin MAXJOBS} {bg : Bool} : s.pc = .kill i bg →
      Main s { s with pc := .setState i bg }
  | setBG {s : ShellState} {i : Fin MAXJOBS} : s.pc = .setState i true →
      Main s { s with table := setState s.table i .BG, pc := .eval }
  | setFG {s : ShellState} {i : Fin MAXJOBS} : s.pc = .setState i false →
      Main s { s with table := setState s.table i .FG, pc := .callWaitfg i }
  | callWaitfg {s : ShellState} {i : Fin MAXJOBS} : s.pc = .callWaitfg i →
      Main s { s with pc := .waitfg (s.table.jobs i).pid }

/-- The shell: `none` is a statement of the main program, `some evs` a run of the handler. -/
def shell : Machine ShellState (Option (List ChildEvent)) where
  init s := s.table = initjobs ∧ s.blocked = false ∧ s.pc = .eval
  step s l s' :=
    match l with
    | none => Main s s'
    | some evs => s.blocked = false ∧ CanHand s.procs evs ∧
        s' = { s with table := sigchldHandler s.table evs, procs := evs.foldl kernelStatus s.procs }

variable {s s' : ShellState} {jobs jobs' : Jobs} {t : Table} {i j k : Fin MAXJOBS} {pid : Int}
  {ev : ChildEvent} {evs : List ChildEvent} {procs : Int → ProcState}

/-! ### What the steps do to the table -/

theorem setState_pid (state : JobState) (i : Fin MAXJOBS) :
    ((setState t k state).jobs i).pid = (t.jobs i).pid := by
  unfold setState
  by_cases hi : i = k
  · subst hi
    simp
  · simp [hi]

/-- What a statement does to the table. -/
inductive TableStep (s s' : ShellState) : Prop
  | same : (∀ pid bg, s.pc ≠ .addjob pid bg) → (∀ i bg, s.pc ≠ .setState i bg) → s'.table = s.table →
      TableStep s s'
  | add {pid : Int} {bg : Bool} (cmdline : String) : s.pc = .addjob pid bg →
      s'.table = (addjob s.table pid (stateOf bg) cmdline).1 → TableStep s s'
  | set {i : Fin MAXJOBS} {bg : Bool} : s.pc = .setState i bg → s'.table = setState s.table i (stateOf bg) →
      TableStep s s'

theorem Main.tableStep (hm : Main s s') : TableStep s s' := by
  cases hm with
  | addjob hpc => exact .add _ hpc rfl
  | setBG hpc => exact .set hpc rfl
  | setFG hpc => exact .set hpc rfl
  | eval hpc => exact .same (by simp [hpc]) (by simp [hpc]) rfl
  | block hpc => exact .same (by simp [hpc]) (by simp [hpc]) rfl
  | fork hpc _ _ => exact .same (by simp [hpc]) (by simp [hpc]) rfl
  | forkFails hpc => exact .same (by simp [hpc]) (by simp [hpc]) rfl
  | unblock hpc => exact .same (by simp [hpc]) (by simp [hpc]) rfl
  | printed hpc => exact .same (by simp [hpc]) (by simp [hpc]) rfl
  | foreground hpc => exact .same (by simp [hpc]) (by simp [hpc]) rfl
  | sleep hpc _ => exact .same (by simp [hpc]) (by simp [hpc]) rfl
  | waited hpc _ => exact .same (by simp [hpc]) (by simp [hpc]) rfl
  | findPid hpc _ => exact .same (by simp [hpc]) (by simp [hpc]) rfl
  | findJid hpc _ => exact .same (by simp [hpc]) (by simp [hpc]) rfl
  | kill hpc => exact .same (by simp [hpc]) (by simp [hpc]) rfl
  | callWaitfg hpc => exact .same (by simp [hpc]) (by simp [hpc]) rfl

theorem stateOf_ne (bg : Bool) : stateOf bg ≠ .UNDEF := by cases bg <;> simp [stateOf]

theorem distinct_update {job : Job}
    (h : ∀ i j, (jobs i).pid ≠ 0 → (jobs i).pid = (jobs j).pid → i = j) (hnew : ∀ i, (jobs i).pid ≠ job.pid) :
    ∀ i j, (Function.update jobs k job i).pid ≠ 0 →
      (Function.update jobs k job i).pid = (Function.update jobs k job j).pid → i = j := by
  intro i j hi hij
  by_cases hik : i = k <;> by_cases hjk : j = k
  · rw [hik, hjk]
  · rw [hik, Function.update_self, Function.update_of_ne hjk] at hij
    exact absurd hij.symm (hnew j)
  · rw [hjk, Function.update_self, Function.update_of_ne hik] at hij
    exact absurd hij (hnew i)
  · rw [Function.update_of_ne hik] at hi hij
    rw [Function.update_of_ne hjk] at hij
    exact h i j hi hij

/-! ### Runs -/

def start : ShellState := ⟨initjobs, false, fun _ => .absent, .eval⟩

/-- `eval` has forked the job `pid` and unblocked `SIGCHLD` again. -/
def launched (s : ShellState) (pid : Int) (bg : Bool) : ShellState :=
  { table := (addjob s.table pid (stateOf bg) "").1, blocked := false,
    procs := Function.update s.procs pid .child, pc := .afterUnblock pid bg }

variable {ok : ShellState → Option (List ChildEvent) → Prop}

theorem start_reach : shell.Reach ok start := .init ⟨rfl, rfl, rfl⟩

theorem launched_reach (pid : Int) (bg : Bool) (h : shell.Reach ok s) (hpc : s.pc = .eval) (hpid : 0 < pid)
    (hnew : s.procs pid ≠ .child)
    (hok : ∀ s', s'.table = s.table → s'.pc = .eval ∨ s'.pc = .fork ∨ s'.pc = .addjob pid bg → ok s' none)
    (hunblock : ∀ s', s'.pc = .unblock pid bg → ok s' none) : shell.Reach ok (launched s pid bg) := by
  let s₁ : ShellState := { s with blocked := true, pc := .fork }
  let s₂ : ShellState := { s₁ with procs := Function.update s.procs pid .child, pc := .addjob pid bg }
  let s₃ : ShellState := { s₂ with table := (addjob s.table pid (stateOf bg) "").1, pc := .unblock pid bg }
  have h1 : shell.Reach ok s₁ := h.step (hok s rfl (.inl hpc)) (Main.block hpc)
  have h2 : shell.Reach ok s₂ := h1.step (hok s₁ rfl (.inr (.inl rfl))) (Main.fork rfl hpid hnew)
  have h3 : shell.Reach ok s₃ := h2.step (hok s₂ rfl (.inr (.inr rfl))) (Main.addjob rfl)
  exact h3.step (hunblock s₃ rfl) (Main.unblock rfl)

theorem launched_reachable (pid : Int) (bg : Bool) (h : shell.Reachable s) (hpc : s.pc = .eval)
    (hpid : 0 < pid) (hnew : s.procs pid ≠ .child) : shell.Reachable (launched s pid bg) :=
  launched_reach pid bg h hpc hpid hnew (fun _ _ _ => trivial) fun _ _ => trivial

end CsappLab.Shell
