import CsappLab.Shell.BgFg
import CsappLab.Shell.Parseline

/-!
# `eval`

`eval` never calls `parseline`. It reads `args` and `first_cmd` before anything is written to them, so what
it does is decided by what its stack held before.
-/

namespace CsappLab.Shell

open CStr

abbrev Ptr := BitVec 64

/-- The strings in memory, where there are any, with the literals of `builtin_cmd`. -/
structure Image where
  text : Ptr → Option (List UInt8)
  quit : Ptr
  jobs : Ptr
  text_quit : text quit = some (ascii "quit")
  text_jobs : text jobs = some (ascii "jobs")

/-- What the kernel answers: whether a file exists, and the pid of a new child, not positive for a failed
`fork`. -/
structure Kernel where
  access : List UInt8 → Bool
  fork : Int

/-- The local variables that `eval` does not initialise. -/
structure Frame where
  args : Fin MAXARGS → Ptr
  firstCmd : Ptr

def arg0 : Fin MAXARGS := ⟨0, by decide⟩
def arg1 : Fin MAXARGS := ⟨1, by decide⟩

/-- What a call does. A pointer that does not lead to a string is `undefined`. -/
inductive Behaviour
  | undefined
  | exit
  | listjobs
  | bgfg (r : Option Done)
  | notFound (firstCmd : List UInt8)
  | forkFailed
  | job (bg : Bool) (argv : Fin MAXARGS → Ptr) (t : Table)

/-- `builtin_cmd`; `none` if the command is not a builtin one. -/
def builtinCmd (image : Image) (t : Table) (args : Fin MAXARGS → Ptr) : Option Behaviour :=
  match image.text (args arg0) with
  | none => some .undefined
  | some firstCmd =>
    if firstCmd = ascii "quit" then some .exit
    else if firstCmd = ascii "jobs" then some .listjobs
    else if firstCmd = ascii "bg" ∨ firstCmd = ascii "fg" then
      if args arg1 = 0 then some (.bgfg (doBgfg t.jobs firstCmd none))
      else
        match image.text (args arg1) with
        | none => some .undefined
        | some secondCmd => some (.bgfg (doBgfg t.jobs firstCmd (some secondCmd)))
    else none

/-- `eval`, up to the wait for a foreground job; the flag is the pointer `args[0]` as an `int`. -/
def eval (image : Image) (kernel : Kernel) (t : Table) (cmdline : String) (frame : Frame) : Behaviour :=
  let bgOrNot := (frame.args arg0).setWidth 32
  match builtinCmd image t frame.args with
  | some behaviour => behaviour
  | none =>
    match image.text frame.firstCmd with
    | none => .undefined
    | some firstCmd =>
      if kernel.access firstCmd then
        if 0 < kernel.fork then
          let state : JobState := if bgOrNot ≠ 0 then .BG else .FG
          .job (bgOrNot ≠ 0) frame.args (addjob t kernel.fork state cmdline).1
        else .forkFailed
      else .notFound firstCmd

/-- The table and the command line determine what a call does. -/
def Determined (image : Image) (kernel : Kernel) (t : Table) (cmdline : String) : Prop :=
  ∀ frame frame', eval image kernel t cmdline frame = eval image kernel t cmdline frame'

variable {image : Image} {kernel : Kernel} {t : Table} {frame : Frame}

theorem eval_quit (h : frame.args arg0 = image.quit) (cmdline : String) :
    eval image kernel t cmdline frame = .exit := by
  simp [eval, builtinCmd, h, image.text_quit]

theorem eval_jobs (h : frame.args arg0 = image.jobs) (cmdline : String) :
    eval image kernel t cmdline frame = .listjobs := by
  have hne : ascii "jobs" ≠ ascii "quit" := by decide
  simp [eval, builtinCmd, h, image.text_jobs, hne]

/-- **`eval`** is never determined by the table and the command line: the same call quits or lists the jobs,
with one string or the other at `args[0]`. -/
theorem eval_not_determined (image : Image) (kernel : Kernel) (t : Table) (cmdline : String) :
    ¬ Determined image kernel t cmdline := by
  intro h
  have he := h ⟨fun _ => image.quit, image.quit⟩ ⟨fun _ => image.jobs, image.jobs⟩
  rw [eval_quit rfl, eval_jobs rfl] at he
  cases he

/-- An image with nothing but the literals. -/
def literals : Image where
  text p := if p = 1 then some (ascii "quit") else if p = 2 then some (ascii "jobs") else none
  quit := 1
  jobs := 2
  text_quit := rfl
  text_jobs := rfl

/-- The command line `jobs`, on the empty table, quits the shell if `args[0]` points to the literal. -/
theorem eval_jobs_quits :
    let kernel : Kernel := ⟨fun _ => false, -1⟩
    eval literals kernel initjobs "jobs\n" ⟨fun _ => literals.quit, 0⟩ = .exit ∧
      eval literals kernel initjobs "jobs\n" ⟨fun _ => literals.jobs, 0⟩ = .listjobs ∧
      ¬ Determined literals kernel initjobs "jobs\n" := by
  have hquit : ∀ kernel : Kernel, eval literals kernel initjobs "jobs\n" ⟨fun _ => literals.quit, 0⟩ = .exit :=
    fun _ => eval_quit rfl _
  have hjobs : ∀ kernel : Kernel, eval literals kernel initjobs "jobs\n" ⟨fun _ => literals.jobs, 0⟩ = .listjobs :=
    fun _ => eval_jobs rfl _
  refine ⟨hquit _, hjobs _, fun h => ?_⟩
  have he := h ⟨fun _ => literals.quit, 0⟩ ⟨fun _ => literals.jobs, 0⟩
  rw [hquit, hjobs] at he
  cases he

end CsappLab.Shell
