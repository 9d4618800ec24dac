import CsappLab.Shell.Jobs

/-!
# Job ids

`addjob` hands out `nextjid` and wraps it to 1 behind `MAXJOBS`; `deletejob` sets it behind the
largest id, which can be `INT_MAX`. After a wrap the next id can still belong to a live job (`NextTaken`),
and then two jobs share an id. The ids stay different exactly in the runs where no filling `addjob` meets
this state.
-/

namespace CsappLab.Shell

def UniqueJids (jobs : Jobs) : Prop :=
  ∀ i j, (jobs i).pid ≠ 0 → (jobs j).pid ≠ 0 → (jobs i).jid = (jobs j).jid → i = j

/-- The counter stands at the id of a live job. -/
def NextTaken (t : Table) : Prop := ∃ i, (t.jobs i).pid ≠ 0 ∧ (t.jobs i).jid = t.nextjid

instance (t : Table) : Decidable (NextTaken t) :=
  inferInstanceAs (Decidable (∃ i, (t.jobs i).pid ≠ 0 ∧ (t.jobs i).jid = t.nextjid))

/-- One call of `addjob` or `deletejob`. -/
inductive Op
  | add (pid : Int) (state : JobState) (cmdline : String)
  | delete (pid : Int)

namespace Op

def run (t : Table) : Op → Table
  | add pid state cmdline => (addjob t pid state cmdline).1
  | delete pid => (deletejob t pid).1

/-- The kernel hands out positive pids that are not in the table. -/
def Legal (t : Table) : Op → Prop
  | add pid _ _ => 0 < pid ∧ ∀ i, (t.jobs i).pid ≠ pid
  | delete _ => True

/-- An `addjob` that finds a free slot does not meet a taken id. -/
def Clear (t : Table) : Op → Prop
  | add _ _ _ => (∃ i, (t.jobs i).pid = 0) → ¬ NextTaken t
  | delete _ => True

instance (t : Table) (op : Op) : Decidable (Legal t op) :=
  match op with
  | add pid _ _ => inferInstanceAs (Decidable (0 < pid ∧ ∀ i, (t.jobs i).pid ≠ pid))
  | delete _ => inferInstanceAs (Decidable True)

instance (t : Table) (op : Op) : Decidable (Clear t op) :=
  match op with
  | add _ _ _ => inferInstanceAs (Decidable ((∃ i, (t.jobs i).pid = 0) → ¬ NextTaken t))
  | delete _ => inferInstanceAs (Decidable True)

end Op

def Along (p : Table → Op → Prop) : Table → List Op → Prop
  | _, [] => True
  | t, op :: ops => p t op ∧ Along p (op.run t) ops

instance {p : Table → Op → Prop} [∀ t op, Decidable (p t op)] :
    ∀ t ops, Decidable (Along p t ops)
  | _, [] => inferInstanceAs (Decidable True)
  | t, op :: ops =>
    have : Decidable (Along p (op.run t) ops) := instDecidableAlong _ ops
    inferInstanceAs (Decidable (p t op ∧ Along p (op.run t) ops))

def runOps (t : Table) (ops : List Op) : Table := ops.foldl Op.run t

variable {t : Table} {op : Op} {ops : List Op} {pid : Int} {i : Fin MAXJOBS} {state : JobState}
  {cmdline : String}

theorem deletejob_jobs (t : Table) (pid : Int) : (deletejob t pid).1.jobs = t.jobs ∨
    ∃ i, (deletejob t pid).1.jobs = Function.update t.jobs i clearjob := by
  unfold deletejob
  split_ifs
  · exact .inl rfl
  · cases slotOfPid t.jobs pid with
    | none => exact .inl rfl
    | some i => exact .inr ⟨i, rfl⟩

/-! ### One call -/

theorem UniqueJids.delete (hu : UniqueJids t.jobs) (pid : Int) : UniqueJids (deletejob t pid).1.jobs := by
  rcases deletejob_jobs t pid with h | ⟨k, h⟩
  · rwa [h]
  · rw [h]
    intro i j hi hj hij
    have hik : i ≠ k := by rintro rfl; simp [clearjob] at hi
    have hjk : j ≠ k := by rintro rfl; simp [clearjob] at hj
    simp only [ne_eq, hik, hjk, not_false_eq_true, Function.update_of_ne] at hi hj hij
    exact hu i j hi hj hij

/-- **One legal call** keeps the ids different, unless it hands out a taken one. -/
theorem UniqueJids.run_iff (hu : UniqueJids t.jobs) (hl : op.Legal t) :
    UniqueJids (op.run t).jobs ↔ op.Clear t := by
  cases op with
  | delete pid => exact iff_of_true (hu.delete pid) trivial
  | add pid state cmdline =>
    obtain ⟨hpid, hnew⟩ := hl
    simp only [Op.run, Op.Clear]
    rcases addjob_cases t pid state cmdline hpid with ⟨k, hk, hadd⟩ | ⟨hfull, hadd⟩
    · rw [hadd]
      constructor
      · rintro h - ⟨j, hj, hjid⟩
        have hjk : j ≠ k := by rintro rfl; exact hj hk
        exact hjk (h j k (by simpa [hjk] using hj) (by simpa using hpid.ne') (by simpa [hjk] using hjid))
      · intro h
        have hfree : ∀ j, (t.jobs j).pid ≠ 0 → (t.jobs j).jid ≠ t.nextjid := by
          intro j hj hjid
          exact h ⟨k, hk⟩ ⟨j, hj, hjid⟩
        intro i j hi hj hij
        by_cases hik : i = k <;> by_cases hjk : j = k
        · rw [hik, hjk]
        · subst hik
          simp only [Function.update_self, ne_eq, hjk, not_false_eq_true, Function.update_of_ne] at hj hij
          exact absurd hij.symm (hfree j hj)
        · subst hjk
          simp only [Function.update_self, ne_eq, hik, not_false_eq_true, Function.update_of_ne] at hi hij
          exact absurd hij (hfree i hi)
        · simp only [ne_eq, hik, hjk, not_false_eq_true, Function.update_of_ne] at hi hj hij
          exact hu i j hi hj hij
    · rw [hadd]
      exact iff_of_true hu fun ⟨i, hi⟩ => absurd hi (hfull i)

/-! ### Runs -/

theorem UniqueJids.runs_iff (hu : UniqueJids t.jobs) (hl : Along Op.Legal t ops) :
    (∀ n, UniqueJids (runOps t (ops.take n)).jobs) ↔ Along Op.Clear t ops := by
  induction ops generalizing t with
  | nil => simpa [Along, runOps] using hu
  | cons op ops ih =>
    obtain ⟨h1, h2⟩ := hl
    constructor
    · intro h
      have hop : UniqueJids (op.run t).jobs := h 1
      exact ⟨(hu.run_iff h1).1 hop, (ih hop h2).1 fun n => h (n + 1)⟩
    · rintro ⟨h3, h4⟩ n
      cases n with
      | zero => exact hu
      | succ n => exact (ih ((hu.run_iff h1).2 h3) h2).2 h4 n

/-- **Job ids are unique** along a run from `initjobs` exactly when no `addjob` of the run fills a slot
while the counter stands at the id of a live job. -/
theorem unique_jids_iff (ops : List Op) (hl : Along Op.Legal initjobs ops) :
    (∀ n, UniqueJids (runOps initjobs (ops.take n)).jobs) ↔ Along Op.Clear initjobs ops :=
  UniqueJids.runs_iff (fun _ _ hi => absurd rfl hi) hl

/-- Three jobs, of which the second ends, and two more; the fourth ends before the last one starts. -/
def churn : List Op :=
  [.add 7 .BG "", .add 8 .BG "", .add 9 .FG "", .delete 8, .add 10 .BG "", .delete 10, .add 11 .BG ""]

theorem unique_jids_iff_churn : (∀ n, UniqueJids (runOps initjobs (churn.take n)).jobs) ∧
    List.ofFn (fun i => ((runOps initjobs churn).jobs i).jid) = [1, 4, 3] ++ List.replicate 13 0 :=
  ⟨(unique_jids_iff churn (by decide +kernel)).2 (by decide +kernel), by decide +kernel⟩

/-- Fill the table, delete the jobs 3 and 4, and add two more: the first gets id 17 and wraps the
counter, the second gets the id 1, which the first job still has. -/
def clash : List Op :=
  (List.range MAXJOBS).map (fun n => .add (n + 1) .BG "") ++
    [.delete 3, .delete 4, .add 17 .BG "", .add 18 .BG ""]

theorem clash_not_unique : Along Op.Legal initjobs clash ∧ ¬ UniqueJids (runOps initjobs clash).jobs := by
  refine ⟨by decide +kernel, fun h => ?_⟩
  have := h ⟨0, by decide⟩ ⟨3, by decide⟩ (by decide +kernel) (by decide +kernel) (by decide +kernel)
  exact absurd this (by decide)

end CsappLab.Shell
