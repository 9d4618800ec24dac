import CsappLab.Lib.CInt
import Mathlib.Data.Fin.Tuple.Basic

/-!
# The job table of `tsh.c`

The table is an array of `MAXJOBS` slots, each with pid, jid, state and command line; a slot with pid
0 is free. The helper routines scan it from slot 0 for the first slot that fits. `nextjid` is an `int`, and
wraps as one.
-/

namespace CsappLab.Shell

open CInt

def MAXJOBS : Nat := 16

inductive JobState
  | UNDEF
  | FG
  | BG
  | ST
deriving DecidableEq, Repr

structure Job where
  pid : Int
  jid : Int
  state : JobState
  cmdline : String
deriving DecidableEq, Repr

abbrev Jobs := Fin MAXJOBS → Job

/-- `jobs` and `nextjid`. -/
structure Table where
  jobs : Jobs
  nextjid : Int

/-- `clearjob`, as the slot it leaves. -/
def clearjob : Job := ⟨0, 0, .UNDEF, ""⟩

/-- `initjobs`, with the initial `nextjid`. -/
def initjobs : Table := ⟨fun _ => clearjob, 1⟩

/-- The first slot whose pid is `pid`. -/
def slotOfPid (jobs : Jobs) (pid : Int) : Option (Fin MAXJOBS) := Fin.find? fun i => (jobs i).pid = pid

def maxjid (jobs : Jobs) : Int := (List.ofFn jobs).foldl (fun m job => if job.jid > m then job.jid else m) 0

/-- `addjob`, with its return value. -/
def addjob (t : Table) (pid : Int) (state : JobState) (cmdline : String) : Table × Int :=
  if pid < 1 then (t, 0)
  else match slotOfPid t.jobs 0 with
    | some i =>
      let nextjid := i32 (t.nextjid + 1)
      (⟨Function.update t.jobs i ⟨pid, t.nextjid, state, cmdline⟩,
        if nextjid > MAXJOBS then 1 else nextjid⟩, 1)
    | none => (t, 0)

/-- `deletejob`, with its return value. -/
def deletejob (t : Table) (pid : Int) : Table × Int :=
  if pid < 1 then (t, 0)
  else match slotOfPid t.jobs pid with
    | some i =>
      let jobs := Function.update t.jobs i clearjob
      (⟨jobs, i32 (maxjid jobs + 1)⟩, 1)
    | none => (t, 0)

def fgpid (jobs : Jobs) : Int :=
  match Fin.find? fun i => (jobs i).state = .FG with
  | some i => (jobs i).pid
  | none => 0

/-- `getjobpid`; the pointer is the index of the slot. -/
def getjobpid (jobs : Jobs) (pid : Int) : Option (Fin MAXJOBS) :=
  if pid < 1 then none else slotOfPid jobs pid

def getjobjid (jobs : Jobs) (jid : Int) : Option (Fin MAXJOBS) :=
  if jid < 1 then none else Fin.find? fun i => (jobs i).jid = jid

variable {t : Table} {jobs jobs' : Jobs} {pid jid : Int} {i j : Fin MAXJOBS}

/-! ### Scans -/

theorem slotOfPid_eq_some : slotOfPid jobs pid = some i ↔
    (jobs i).pid = pid ∧ ∀ j < i, (jobs j).pid ≠ pid := by
  simp [slotOfPid]

theorem slotOfPid_eq_none : slotOfPid jobs pid = none ↔ ∀ i, (jobs i).pid ≠ pid := by
  simp [slotOfPid]

theorem slotOfPid_congr (h : ∀ i, (jobs' i).pid = pid ↔ (jobs i).pid = pid) :
    slotOfPid jobs' pid = slotOfPid jobs pid := by
  unfold slotOfPid
  simp only [h]

theorem fgpid_eq (hi : (jobs i).state = .FG) (h : ∀ j, (jobs j).state = .FG → (jobs j).pid = pid) :
    fgpid jobs = pid := by
  unfold fgpid
  cases hf : Fin.find? fun k => (jobs k).state = .FG with
  | none => exact absurd hi (by simpa using Fin.find?_eq_none_iff.1 hf i)
  | some k => exact h k (by simpa using (Fin.find?_eq_some_iff.1 hf).1)

theorem fgpid_eq_zero (h : ∀ j, (jobs j).state ≠ .FG) : fgpid jobs = 0 := by
  have hf : Fin.find? (fun k => decide ((jobs k).state = .FG)) = none := by
    rw [Fin.find?_eq_none_iff]
    exact fun k => by simpa using h k
  unfold fgpid
  rw [hf]

theorem addjob_cases (t : Table) (pid : Int) (state : JobState) (cmdline : String) (hpid : 0 < pid) :
    (∃ i, (t.jobs i).pid = 0 ∧ (addjob t pid state cmdline).1.jobs =
      Function.update t.jobs i ⟨pid, t.nextjid, state, cmdline⟩) ∨
    (∀ i, (t.jobs i).pid ≠ 0) ∧ (addjob t pid state cmdline).1 = t := by
  unfold addjob
  rw [if_neg (by omega)]
  cases hs : slotOfPid t.jobs 0 with
  | none => exact .inr ⟨slotOfPid_eq_none.1 hs, rfl⟩
  | some i => exact .inl ⟨i, (slotOfPid_eq_some.1 hs).1, rfl⟩

end CsappLab.Shell
