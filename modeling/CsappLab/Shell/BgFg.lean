import CsappLab.Lib.CInt
import CsappLab.Lib.Scanf
import CsappLab.Shell.Jobs

/-!
# `bg` and `fg`

`do_bgfg` reads a pid, or behind a percent sign a jid. `strtok` takes the text between the leading percent
signs and the next one, and returns `NULL` when there is none; `atoi` keeps the low half of a 64-bit
number.
-/

namespace CsappLab.Shell

open CInt CStr Scanf

def percent : UInt8 := 37

/-- `strtok(s, "%")`: the token and what is left of `s`, whose token is cut off. -/
def strtok (s : List UInt8) : Option (List UInt8 × List UInt8) :=
  match s.dropWhile (· = percent) with
  | [] => none
  | c :: t =>
    let token := (c :: t).takeWhile (· ≠ percent)
    some (token, s.takeWhile (· = percent) ++ token)

def allDigits (s : List UInt8) : Bool := s.all isDigit

/-- `atoi` on a string of digits: `strtol` stops at the largest `long`, and the result is cast. -/
def atoi (s : List UInt8) : Int := i32 (min (numeral 10 s) (2 ^ 63 - 1) : Nat)

/-- What `do_bgfg` prints. -/
inductive Message
  | requires (first : List UInt8)
  | mustBe (first : List UInt8)
  | noJob (second : List UInt8)
  | noProcess (pid : Int)
  | started (jid pid : Int) (cmdline : String)

/-- What `do_bgfg` leaves: the table, the processes or groups that `kill` sent `SIGCONT` to, the messages,
and the job it waits for. -/
structure Done where
  jobs : Jobs
  kills : List Int
  messages : List Message
  wait : Option Int

def refused (jobs : Jobs) (message : Message) : Done := ⟨jobs, [], [message], none⟩

def resume (jobs : Jobs) (i : Fin MAXJOBS) (first : List UInt8) (jid pid : Int) : Done :=
  let job := jobs i
  if first = ascii "bg" then
    ⟨Function.update jobs i { job with state := .BG }, [-pid], [.started jid pid job.cmdline], none⟩
  else ⟨Function.update jobs i { job with state := .FG }, [-pid], [], some job.pid⟩

/-- `do_bgfg`, with `argv[0]` and `argv[1]`; `none` if a null pointer is followed. -/
def doBgfg (jobs : Jobs) (first : List UInt8) (second : Option (List UInt8)) : Option Done :=
  match second with
  | none => some (refused jobs (.requires first))
  | some second =>
    if second.head? = some percent then
      match strtok second with
      | none => none
      | some (strNumber, second) =>
        if allDigits strNumber then
          let jid := atoi strNumber
          match getjobjid jobs jid with
          | none => some (refused jobs (.noJob second))
          | some i => some (resume jobs i first jid (jobs i).pid)
        else some (refused jobs (.mustBe first))
    else if allDigits second then
      let pid := atoi second
      match getjobpid jobs pid with
      | none => some (refused jobs (.noProcess pid))
      | some i => some (resume jobs i first 0 pid)
    else some (refused jobs (.mustBe first))

/-! ### What it should do -/

/-- A slot with a pid is a job. The numbers fit an `int`, and no two jobs share a pid or a jid; a free slot may
hold anything. -/
structure JobsOk (jobs : Jobs) : Prop where
  pid_lt : ∀ i, (jobs i).pid < 2 ^ 31
  jid_lt : ∀ i, (jobs i).jid < 2 ^ 31
  pids : ∀ i j, (jobs i).pid ≠ 0 → (jobs i).pid = (jobs j).pid → i = j
  jids : ∀ i j, (jobs i).pid ≠ 0 → (jobs j).pid ≠ 0 → (jobs i).jid = (jobs j).jid → i = j

/-- The argument is the pid of the job in decimal, or a percent sign and its jid. -/
def Names (jobs : Jobs) (arg : List UInt8) (i : Fin MAXJOBS) : Prop := (jobs i).pid ≠ 0 ∧
  (allDigits arg ∧ numeral 10 arg = (jobs i).pid ∨
    ∃ ds, arg = percent :: ds ∧ allDigits ds ∧ numeral 10 ds = (jobs i).jid)

def Refuses (jobs : Jobs) (r : Done) : Prop := r.jobs = jobs ∧ r.kills = [] ∧ r.messages ≠ []

/-- The job runs in the background after `bg` and in the foreground after `fg`, and its process group gets
`SIGCONT`. -/
def Resumes (jobs : Jobs) (first : List UInt8) (i : Fin MAXJOBS) (r : Done) : Prop :=
  r.jobs = Function.update jobs i { jobs i with state := if first = ascii "bg" then .BG else .FG } ∧
    r.kills = [-(jobs i).pid]

/-- The named job is resumed; without one the command is refused. -/
def ActsOnNamed (jobs : Jobs) (first arg : List UInt8) (r : Option Done) : Prop :=
  ∃ d, r = some d ∧
    ((¬ ∃ i, Names jobs arg i) ∧ Refuses jobs d ∨ ∃ i, Names jobs arg i ∧ Resumes jobs first i d)

/-- The text that is read as a number. -/
def numberPart (arg : List UInt8) : List UInt8 :=
  if arg.head? = some percent then (arg.dropWhile (· = percent)).takeWhile (· ≠ percent) else arg

/-- The number that the text is compared with. -/
def idOf (arg : List UInt8) (job : Job) : Int := if arg.head? = some percent then job.jid else job.pid

/-- The first slot whose id is what `atoi` makes of the argument. -/
def FirstWithId (jobs : Jobs) (arg : List UInt8) (i : Fin MAXJOBS) : Prop :=
  0 < atoi (numberPart arg) ∧ idOf arg (jobs i) = atoi (numberPart arg) ∧
    ∀ j < i, idOf arg (jobs j) ≠ atoi (numberPart arg)

/-- The argument is one number, with one percent sign or none in front. -/
def OneNumber (arg : List UInt8) : Prop :=
  allDigits (numberPart arg) ∧ (arg.head? = some percent → arg = percent :: numberPart arg)

/-- The argument is not made of percent signs alone. If the low half of its number is the id of a slot, then
the first such slot is a job, it is the number, and there is nothing else but one percent sign. No job has
the id 0 that the argument names. -/
structure Plain (jobs : Jobs) (arg : List UInt8) : Prop where
  nonempty : arg.head? = some percent → ∃ c ∈ arg, c ≠ percent
  found : ∀ i, FirstWithId jobs arg i → allDigits (numberPart arg) →
    (jobs i).pid ≠ 0 ∧ numeral 10 (numberPart arg) < 2 ^ 31 ∧ OneNumber arg
  zero : OneNumber arg → numeral 10 (numberPart arg) = 0 → ∀ i, (jobs i).pid ≠ 0 → idOf arg (jobs i) ≠ 0

variable {jobs : Jobs} {i j : Fin MAXJOBS} {arg ds : List UInt8} {first : List UInt8} {n : Int}

/-! ### The search -/

theorem getjobpid_eq (h : arg.head? ≠ some percent) :
    getjobpid jobs (atoi arg) = some i ↔ FirstWithId jobs arg i := by
  have hpart : numberPart arg = arg := if_neg h
  have hid : ∀ job, idOf arg job = job.pid := fun job => if_neg h
  unfold getjobpid FirstWithId
  simp only [hpart, hid]
  split_ifs with hn
  · exact iff_of_false (fun hs => by cases hs) (by omega)
  · rw [slotOfPid_eq_some]
    exact (and_iff_right (by omega)).symm

theorem getjobjid_eq (h : arg.head? = some percent) :
    getjobjid jobs (atoi (numberPart arg)) = some i ↔ FirstWithId jobs arg i := by
  have hid : ∀ job, idOf arg job = job.jid := fun job => if_pos h
  unfold getjobjid FirstWithId
  simp only [hid]
  split_ifs with hn
  · exact iff_of_false (fun hs => by cases hs) (by omega)
  · rw [Fin.find?_eq_some_iff]
    simp only [decide_eq_true_eq, decide_eq_false_iff_not]
    exact (and_iff_right (by omega)).symm

theorem FirstWithId.unique (h : FirstWithId jobs arg i) (h' : FirstWithId jobs arg j) : i = j := by
  rcases lt_trichotomy i j with hlt | heq | hgt
  · exact absurd h.2.1 (h'.2.2 i hlt)
  · exact heq
  · exact absurd h'.2.1 (h.2.2 j hgt)

/-! ### The argument -/

theorem atoi_eq (h : numeral 10 ds < 2 ^ 31) : atoi ds = numeral 10 ds := by
  unfold atoi
  rw [min_eq_left (by omega)]
  exact i32_natCast h

theorem strtok_eq (h : arg.head? = some percent) :
    ((∃ c ∈ arg, c ≠ percent) → ∃ cut, strtok arg = some (numberPart arg, cut)) ∧
    ((¬ ∃ c ∈ arg, c ≠ percent) → strtok arg = none) := by
  unfold strtok numberPart
  rw [if_pos h]
  cases hdrop : arg.dropWhile (· = percent) with
  | nil =>
    have hall : ∀ c ∈ arg, c = percent := by simpa using List.dropWhile_eq_nil_iff.1 hdrop
    exact ⟨fun ⟨c, hc, hne⟩ => absurd (hall c hc) hne, fun _ => rfl⟩
  | cons c t =>
    refine ⟨fun _ => ⟨_, rfl⟩, fun hno => ?_⟩
    have hall : arg.dropWhile (· = percent) = [] := by
      rw [List.dropWhile_eq_nil_iff]
      intro c hc
      by_contra hne
      exact hno ⟨c, hc, by simpa using hne⟩
    rw [hdrop] at hall
    cases hall

theorem isDigit_ne_percent {c : UInt8} (h : isDigit c = true) : c ≠ percent := by
  rintro rfl
  cases h

theorem JobsOk.idOf_lt (h : JobsOk jobs) (arg : List UInt8) (i : Fin MAXJOBS) : idOf arg (jobs i) < 2 ^ 31 := by
  unfold idOf
  split_ifs
  · exact h.jid_lt i
  · exact h.pid_lt i

theorem JobsOk.idOf_inj (h : JobsOk jobs) (hi : (jobs i).pid ≠ 0) (hj : (jobs j).pid ≠ 0)
    (hij : idOf arg (jobs i) = idOf arg (jobs j)) : i = j := by
  unfold idOf at hij
  split_ifs at hij
  · exact h.jids i j hi hj hij
  · exact h.pids i j hi hij

theorem names_iff : Names jobs arg i ↔
    (jobs i).pid ≠ 0 ∧ OneNumber arg ∧ numeral 10 (numberPart arg) = idOf arg (jobs i) := by
  unfold Names OneNumber
  refine and_congr_right fun _ => ?_
  by_cases hhead : arg.head? = some percent
  · obtain ⟨t, rfl⟩ := List.head?_eq_some_iff.1 hhead
    have hno : allDigits (percent :: t) = false := by simp [allDigits, isDigit, percent]
    have hpart : ∀ ds, allDigits ds = true → percent :: t = percent :: ds → numberPart (percent :: t) = t := by
      intro ds hds he
      obtain rfl : t = ds := (List.cons.inj he).2
      have hall : ∀ c ∈ t, c ≠ percent := fun c hc => isDigit_ne_percent (List.all_eq_true.1 hds c hc)
      have hdrop : (percent :: t).dropWhile (· = percent) = t := by
        rw [List.dropWhile_cons_of_pos (by simp)]
        cases t with
        | nil => rfl
        | cons c t => exact List.dropWhile_cons_of_neg (by simpa using hall c (by simp))
      rw [numberPart, if_pos hhead, hdrop]
      exact List.takeWhile_eq_self_iff.2 fun c hc => by simpa using hall c hc
    simp only [hno, Bool.false_eq_true, false_and, false_or, idOf, List.head?_cons, ↓reduceIte, forall_const]
    constructor
    · rintro ⟨ds, he, hds, hn⟩
      obtain rfl : t = ds := (List.cons.inj he).2
      rw [hpart t hds rfl]
      exact ⟨⟨hds, rfl⟩, hn⟩
    · rintro ⟨⟨hds, he⟩, hn⟩
      exact ⟨_, he, hds, hn⟩
  · have hno : ∀ ds, arg ≠ percent :: ds := by
      rintro ds rfl
      exact hhead rfl
    simp [hhead, numberPart, idOf, hno]

theorem JobsOk.atoi_names (h : JobsOk jobs) (hn : Names jobs arg i) :
    atoi (numberPart arg) = numeral 10 (numberPart arg) ∧ idOf arg (jobs i) = atoi (numberPart arg) := by
  obtain ⟨-, -, hnum⟩ := names_iff.1 hn
  have hlt := h.idOf_lt arg i
  have hatoi := @atoi_eq (numberPart arg) (by omega)
  exact ⟨hatoi, by rw [hatoi, hnum]⟩

theorem JobsOk.exists_first (h : JobsOk jobs) (hn : Names jobs arg i) (hpos : 0 < numeral 10 (numberPart arg)) :
    ∃ k, FirstWithId jobs arg k := by
  obtain ⟨hatoi, hid⟩ := h.atoi_names hn
  cases hfind : Fin.find? fun k => idOf arg (jobs k) = atoi (numberPart arg) with
  | none => exact absurd hid (by simpa using Fin.find?_eq_none_iff.1 hfind i)
  | some k =>
    obtain ⟨hk, hbefore⟩ := Fin.find?_eq_some_iff.1 hfind
    exact ⟨k, by omega, by simpa using hk, fun j hj => by simpa using hbefore j hj⟩

/-! ### One command -/

/-- What the command does, by its argument. -/
inductive Outcome (jobs : Jobs) (arg first : List UInt8) : Option Done → Prop
  | null : arg.head? = some percent → (¬ ∃ c ∈ arg, c ≠ percent) → Outcome jobs arg first none
  | refuse (message : Message) : (arg.head? = some percent → ∃ c ∈ arg, c ≠ percent) →
      (∀ i, FirstWithId jobs arg i → ¬ allDigits (numberPart arg)) →
      Outcome jobs arg first (some (refused jobs message))
  | act (i : Fin MAXJOBS) (jid : Int) : (arg.head? = some percent → ∃ c ∈ arg, c ≠ percent) →
      FirstWithId jobs arg i → allDigits (numberPart arg) →
      Outcome jobs arg first (some (resume jobs i first jid (jobs i).pid))

theorem doBgfg_outcome (jobs : Jobs) (first arg : List UInt8) :
    Outcome jobs arg first (doBgfg jobs first (some arg)) := by
  unfold doBgfg
  simp only
  by_cases hhead : arg.head? = some percent
  · rw [if_pos hhead]
    by_cases hall : ∃ c ∈ arg, c ≠ percent
    · obtain ⟨cut, hcut⟩ := (strtok_eq hhead).1 hall
      rw [hcut]
      simp only
      split_ifs with hdigits
      · cases hfound : getjobjid jobs (atoi (numberPart arg)) with
        | none =>
          refine .refuse _ (fun _ => hall) fun i hi _ => ?_
          rw [(getjobjid_eq hhead).2 hi] at hfound
          cases hfound
        | some i => exact .act i _ (fun _ => hall) ((getjobjid_eq hhead).1 hfound) hdigits
      · exact .refuse _ (fun _ => hall) fun _ _ => hdigits
    · rw [(strtok_eq hhead).2 hall]
      exact .null hhead hall
  · rw [if_neg hhead]
    have hpart : numberPart arg = arg := if_neg hhead
    split_ifs with hdigits
    · cases hfound : getjobpid jobs (atoi arg) with
      | none =>
        refine .refuse _ (fun h' => absurd h' hhead) fun i hi _ => ?_
        rw [(getjobpid_eq hhead).2 hi] at hfound
        cases hfound
      | some i =>
        have hfirst := (getjobpid_eq hhead).1 hfound
        have hpid : (jobs i).pid = atoi arg := by
          have hid := hfirst.2.1
          rwa [hpart, idOf, if_neg hhead] at hid
        have hact : Outcome jobs arg first (some (resume jobs i first 0 (jobs i).pid)) :=
          .act i 0 (fun h' => absurd h' hhead) hfirst (by rwa [hpart])
        simpa only [hpid] using hact
    · exact .refuse _ (fun h' => absurd h' hhead) fun _ _ => by rwa [hpart]

theorem resume_resumes (jobs : Jobs) (i : Fin MAXJOBS) (first : List UInt8) (jid : Int) :
    Resumes jobs first i (resume jobs i first jid (jobs i).pid) := by
  unfold resume Resumes
  by_cases hbg : first = ascii "bg"
  · simp only [if_pos hbg, and_self]
  · simp only [if_neg hbg, and_self]

/-- **`do_bgfg`** acts on the named job exactly on the plain arguments. -/
theorem doBgfg_named_iff (h : JobsOk jobs) (first arg : List UInt8) :
    ActsOnNamed jobs first arg (doBgfg jobs first (some arg)) ↔ Plain jobs arg := by
  have hout := doBgfg_outcome jobs first arg
  generalize doBgfg jobs first (some arg) = r at hout
  cases hout with
  | null hhead hall =>
    refine iff_of_false ?_ fun hp => hall (hp.nonempty hhead)
    rintro ⟨d, hd, -⟩
    cases hd
  | refuse message hhead hno =>
    constructor
    · rintro ⟨d, hd, ⟨hnone, -⟩ | ⟨i, -, -, hkills⟩⟩
      · refine ⟨hhead, fun i hi hdigits => absurd hdigits (hno i hi), fun hone h0 i hi hid => hnone ⟨i, ?_⟩⟩
        exact names_iff.2 ⟨hi, hone, by rw [h0, hid]; rfl⟩
      · obtain rfl := Option.some.inj hd
        cases hkills
    · intro hp
      refine ⟨_, rfl, .inl ⟨?_, rfl, rfl, List.cons_ne_nil _ _⟩⟩
      rintro ⟨i, hn⟩
      obtain ⟨hi, hone, hnum⟩ := names_iff.1 hn
      rcases Nat.eq_zero_or_pos (numeral 10 (numberPart arg)) with h0 | hpos
      · exact hp.zero hone h0 i hi (by rw [← hnum, h0]; rfl)
      · obtain ⟨k, hk⟩ := h.exists_first hn hpos
        exact hno k hk hone.1
  | act i jid hhead hfirst hdigits =>
    obtain ⟨hpos, hid, hbefore⟩ := hfirst
    constructor
    · rintro ⟨d, hd, ⟨-, -, hkills, -⟩ | ⟨j, hn, hres⟩⟩
      · obtain rfl := Option.some.inj hd
        have hres := (resume_resumes jobs i first jid).2
        rw [hkills] at hres
        cases hres
      · obtain rfl := Option.some.inj hd
        obtain ⟨hj, hone, hnum⟩ := names_iff.1 hn
        have hkills := hres.2
        rw [(resume_resumes jobs i first jid).2] at hkills
        obtain rfl : j = i := h.pids j i hj (by simpa using hkills.symm)
        have hlt := h.idOf_lt arg j
        refine ⟨hhead, fun k hk _ => ?_, fun _ h0 => ?_⟩
        · obtain rfl := hk.unique ⟨hpos, hid, hbefore⟩
          exact ⟨hj, by omega, hone⟩
        · rw [atoi_eq (by omega), h0] at hpos
          exact absurd hpos (lt_irrefl _)
    · intro hp
      obtain ⟨hi, hlt, hone⟩ := hp.found i ⟨hpos, hid, hbefore⟩ hdigits
      have hatoi := atoi_eq hlt
      exact ⟨_, rfl, .inr ⟨i, names_iff.2 ⟨hi, hone, by rw [hid, hatoi]⟩, resume_resumes jobs i first jid⟩⟩

/-! ### A table with two jobs -/

/-- The jobs 100 and 200, and a free slot with an id that was left in it. -/
def twoJobs : Jobs := fun i =>
  if (i : Nat) = 0 then ⟨100, 1, .ST, "./myspin 4\n"⟩
  else if (i : Nat) = 3 then ⟨200, 2, .BG, "./myspin 5\n"⟩
  else if (i : Nat) = 5 then ⟨0, 7, .BG, ""⟩
  else clearjob

theorem jobsOk_twoJobs : JobsOk twoJobs := ⟨by decide, by decide, by decide, by decide⟩

instance (jobs : Jobs) (arg : List UInt8) (i : Fin MAXJOBS) : Decidable (FirstWithId jobs arg i) :=
  inferInstanceAs (Decidable (_ ∧ _ ∧ _))

instance (arg : List UInt8) : Decidable (OneNumber arg) := inferInstanceAs (Decidable (_ ∧ _))

/-- `bg %2` and `fg 100` are carried out. -/
theorem doBgfg_named_iff_twoJobs :
    ActsOnNamed twoJobs (ascii "bg") (ascii "%2") (doBgfg twoJobs (ascii "bg") (some (ascii "%2"))) ∧
      ActsOnNamed twoJobs (ascii "fg") (ascii "100") (doBgfg twoJobs (ascii "fg") (some (ascii "100"))) :=
  ⟨(doBgfg_named_iff jobsOk_twoJobs _ _).2 ⟨by decide, by decide +kernel, by decide +kernel⟩,
    (doBgfg_named_iff jobsOk_twoJobs _ _).2 ⟨by decide, by decide +kernel, by decide +kernel⟩⟩

theorem not_actsOnNamed {r : Option Done} (pid : Int) (hkills : r.map Done.kills = some [pid])
    (hnone : ∀ i, (jobs i).pid ≠ 0 → idOf arg (jobs i) ≠ numeral 10 (numberPart arg)) :
    ¬ ActsOnNamed jobs first arg r := by
  rintro ⟨d, rfl, ⟨-, -, hno, -⟩ | ⟨i, hn, -⟩⟩
  · simp [hno] at hkills
  · obtain ⟨hi, -, hnum⟩ := names_iff.1 hn
    exact hnone i hi hnum.symm

/-- `fg %` follows a null pointer, `fg %4294967297` resumes job 1, and `fg %7` a slot that is no job. -/
theorem doBgfg_wrong :
    ¬ ActsOnNamed twoJobs (ascii "fg") (ascii "%") (doBgfg twoJobs (ascii "fg") (some (ascii "%"))) ∧
    ¬ ActsOnNamed twoJobs (ascii "fg") (ascii "%4294967297")
      (doBgfg twoJobs (ascii "fg") (some (ascii "%4294967297"))) ∧
    ¬ ActsOnNamed twoJobs (ascii "fg") (ascii "%7") (doBgfg twoJobs (ascii "fg") (some (ascii "%7"))) := by
  refine ⟨?_, not_actsOnNamed (-100) ?_ ?_, not_actsOnNamed 0 ?_ ?_⟩
  · rintro ⟨d, hd, -⟩
    cases hd
  · decide +kernel
  · decide +kernel
  · decide +kernel
  · decide +kernel

end CsappLab.Shell
