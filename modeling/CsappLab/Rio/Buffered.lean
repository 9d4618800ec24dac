import CsappLab.Lib.CInt

/-!
# Buffered reading

`rio_t` with `rio_read`, `rio_readlineb` and `rio_readnb` of `tiny/rio/rio.c` (`csapp.c` has the same
`rio_read` and `rio_readlineb`). A descriptor is the list of the results that `read` will give before it
reports the end of the file. The program is built for 32 bits: `size_t` and `ssize_t` have the width of `int`.
-/

namespace CsappLab.Rio

open CInt

def RIO_BUFFERSIZE : Nat := 8192

/-- A result of `read(rio_fd, rio_buf, sizeof(rio_buf))`: a failure with `EINTR` or some bytes. -/
inductive ReadEvent
  | eintr
  | chunk (bytes : List UInt8) (pos : bytes ≠ []) (le : bytes.length ≤ RIO_BUFFERSIZE)

abbrev Fd := List ReadEvent

def rest : Fd → List UInt8
  | [] => []
  | .eintr :: fd => rest fd
  | .chunk bytes _ _ :: fd => bytes ++ rest fd

/-- `rio_t`; `rio_bufptr` is the offset into `rio_buf`. -/
structure RioT where
  rioCnt : Int
  rioBufptr : Nat
  rioBuf : List UInt8

/-- `rio_readinitb`, on whatever `rio_buf` holds. -/
def rioReadinitb (rioBuf : List UInt8) : RioT := ⟨0, 0, rioBuf⟩

/-- The loop of `rio_read`; `true` for the return at the end of the file. -/
def refill (rp : RioT) (fd : Fd) : RioT × Fd × Bool :=
  if 0 < rp.rioCnt then (rp, fd, false)
  else match fd with
    | [] => ({ rp with rioCnt := 0 }, [], true)
    | .eintr :: fd => refill { rp with rioCnt := -1 } fd
    | .chunk bytes _ _ :: fd => refill ⟨bytes.length, 0, bytes ++ rp.rioBuf.drop bytes.length⟩ fd

/-- `rio_read`: the return value and the bytes copied to the user. -/
def rioRead (rp : RioT) (fd : Fd) (n : Nat) : Int × List UInt8 × RioT × Fd :=
  match refill rp fd with
  | (rp, fd, true) => (0, [], rp, fd)
  | (rp, fd, false) =>
    let cnt := if rp.rioCnt < n then rp.rioCnt else n
    (cnt, (rp.rioBuf.drop rp.rioBufptr).take cnt.toNat,
      { rp with rioBufptr := rp.rioBufptr + cnt.toNat, rioCnt := rp.rioCnt - cnt }, fd)

/-- What a call returns, and the bytes it has written to `usrbuf`. -/
structure Result where
  ret : Int
  usrbuf : List UInt8
  rp : RioT
  fd : Fd

/-- The loop of `rio_readlineb` from `n` on, with `left` rounds before `maxlen`. The test takes the `int` `n` as a
`size_t`, and so `n` is kept; it is an `int` again, and may have wrapped, in the value that is returned. -/
def readlineLoop (rp : RioT) (fd : Fd) (usrbuf : List UInt8) (n : Nat) : Nat → Result
  | 0 => ⟨i32 (n - 1), usrbuf ++ [0], rp, fd⟩
  | left + 1 =>
    match rioRead rp fd 1 with
    | (1, c :: _, rp, fd) =>
      if c = 10 then ⟨i32 ((n + 1 : Nat) - 1), usrbuf ++ [c] ++ [0], rp, fd⟩
      else readlineLoop rp fd (usrbuf ++ [c]) (n + 1) left
    | (0, _, rp, fd) => if n = 1 then ⟨0, usrbuf, rp, fd⟩ else ⟨i32 (n - 1), usrbuf ++ [0], rp, fd⟩
    | (_, _, rp, fd) => ⟨-1, usrbuf, rp, fd⟩

def rioReadlineb (rp : RioT) (fd : Fd) (maxlen : Nat) : Result := readlineLoop rp fd [] 1 (maxlen - 1)

/-- `rio_readnb`. The assignment in the condition takes the value of the comparison, so `nread` is 1
after a failure and else 0, and the loop never begins a second round. -/
def rioReadnb (rp : RioT) (fd : Fd) (n : Nat) : Result :=
  if 0 < n then
    match rioRead rp fd n with
    | (rc, bytes, rp, fd) =>
      let nread := if rc < 0 then 1 else 0
      if nread ≠ 0 then ⟨-1, bytes, rp, fd⟩ else ⟨n - n, bytes, rp, fd⟩
  else ⟨n - n, [], rp, fd⟩

/-! ### What is left -/

def unread (rp : RioT) : List UInt8 := (rp.rioBuf.drop rp.rioBufptr).take rp.rioCnt.toNat

/-- The bytes that are still to be delivered. -/
def left (rp : RioT) (fd : Fd) : List UInt8 := unread rp ++ rest fd

def RioT.Ok (rp : RioT) : Prop := rp.rioBufptr + rp.rioCnt.toNat ≤ rp.rioBuf.length

variable {rp rp' : RioT} {fd fd' : Fd} {n maxlen : Nat} {bytes : List UInt8} {eof : Bool} {rc : Int}

theorem unread_nil (h : ¬ 0 < rp.rioCnt) : unread rp = [] := by
  unfold unread
  rw [Int.toNat_of_nonpos (by omega), List.take_zero]

theorem rioReadinitb_ok (rioBuf : List UInt8) : (rioReadinitb rioBuf).Ok := Nat.zero_le _

theorem left_rioReadinitb (rioBuf : List UInt8) (fd : Fd) : left (rioReadinitb rioBuf) fd = rest fd := by
  rw [left, unread_nil (lt_irrefl 0), List.nil_append]

theorem unread_split {cnt : Nat} (hc : cnt ≤ rp.rioCnt.toNat) : unread rp =
    (rp.rioBuf.drop rp.rioBufptr).take cnt ++
      unread { rp with rioBufptr := rp.rioBufptr + cnt, rioCnt := rp.rioCnt - cnt } := by
  unfold unread
  simp only
  rw [← List.drop_drop, show (rp.rioCnt - cnt).toNat = rp.rioCnt.toNat - cnt by omega, ← List.take_add]
  congr 1
  omega

/-- **The loop** ends with bytes in the buffer or at the end of the file, and loses nothing. -/
theorem refill_spec (h : rp.Ok) (hr : refill rp fd = (rp', fd', eof)) :
    rp'.Ok ∧ left rp' fd' = left rp fd ∧
      if eof then left rp fd = [] else 0 < rp'.rioCnt := by
  induction fd generalizing rp with
  | nil =>
    unfold refill at hr
    split_ifs at hr with hcnt
    · cases hr
      exact ⟨h, rfl, hcnt⟩
    · cases hr
      have h0 : left rp [] = [] := by simp [left, unread_nil hcnt, rest]
      refine ⟨?_, ?_, h0⟩
      · unfold RioT.Ok at h ⊢
        simp only [Int.toNat_zero]
        omega
      · rw [h0]
        simp [left, unread, rest]
  | cons ev fd ih =>
    unfold refill at hr
    split_ifs at hr with hcnt
    · cases hr
      exact ⟨h, rfl, hcnt⟩
    · have hleft : left rp (ev :: fd) = rest (ev :: fd) := by
        unfold left
        rw [unread_nil hcnt, List.nil_append]
      cases ev with
      | eintr =>
        have hok : RioT.Ok { rp with rioCnt := -1 } := by
          unfold RioT.Ok at h ⊢
          simp only
          omega
        have hl : left { rp with rioCnt := -1 } fd = left rp (.eintr :: fd) := by
          rw [hleft]
          unfold left
          rw [unread_nil (by simp)]
          rfl
        rw [← hl]
        exact ih hok hr
      | chunk bytes pos le =>
        have hok : RioT.Ok ⟨bytes.length, 0, bytes ++ rp.rioBuf.drop bytes.length⟩ := by
          simp [RioT.Ok]
        have hl : left ⟨bytes.length, 0, bytes ++ rp.rioBuf.drop bytes.length⟩ fd =
            left rp (.chunk bytes pos le :: fd) := by
          rw [hleft]
          simp [left, unread, rest]
        rw [← hl]
        exact ih hok hr

/-- **`rio_read`** delivers the next bytes, at most `n`, and none only at the end. -/
theorem rioRead_spec (h : rp.Ok) (hn : 0 < n) (hr : rioRead rp fd n = (rc, bytes, rp', fd')) :
    rp'.Ok ∧ rc = bytes.length ∧ bytes.length ≤ n ∧ left rp fd = bytes ++ left rp' fd' ∧
      (bytes = [] ↔ left rp fd = []) := by
  unfold rioRead at hr
  obtain ⟨rp₁, fd₁, eof, hf⟩ : ∃ rp₁ fd₁ eof, refill rp fd = (rp₁, fd₁, eof) := ⟨_, _, _, rfl⟩
  obtain ⟨hok, hl, he⟩ := refill_spec h hf
  rw [hf] at hr
  cases eof with
  | true =>
    cases hr
    rw [hl]
    exact ⟨hok, rfl, Nat.zero_le _, rfl, iff_of_true rfl he⟩
  | false =>
    simp only [Prod.mk.injEq] at hr
    obtain ⟨hrc, rfl, rfl, rfl⟩ := hr
    have hcnt : 0 < rp₁.rioCnt := he
    obtain ⟨cnt, hc⟩ : ∃ cnt : Nat, (if rp₁.rioCnt < n then rp₁.rioCnt else (n : Int)) = cnt := by
      split_ifs
      · exact ⟨rp₁.rioCnt.toNat, by omega⟩
      · exact ⟨n, rfl⟩
    have hle : cnt ≤ n ∧ cnt ≤ rp₁.rioCnt.toNat ∧ 0 < cnt := by
      split_ifs at hc <;> omega
    unfold RioT.Ok at hok
    rw [hc] at hrc
    simp only [hc, Int.toNat_natCast]
    have hlen : ((rp₁.rioBuf.drop rp₁.rioBufptr).take cnt).length = cnt := by
      rw [List.length_take, List.length_drop]
      omega
    have hsplit : left rp fd = (rp₁.rioBuf.drop rp₁.rioBufptr).take cnt ++
        left { rp₁ with rioBufptr := rp₁.rioBufptr + cnt, rioCnt := rp₁.rioCnt - cnt } fd₁ := by
      rw [← hl]
      unfold left
      rw [unread_split hle.2.1, List.append_assoc]
    refine ⟨?_, by rw [hlen, ← hrc], by omega, hsplit, iff_of_false ?_ ?_⟩
    · unfold RioT.Ok
      simp only
      omega
    · intro h0
      rw [h0] at hlen
      simp only [List.length_nil] at hlen
      omega
    · intro h0
      rw [h0] at hsplit
      have := congrArg List.length hsplit
      rw [List.length_append, hlen] at this
      simp only [List.length_nil] at this
      omega

/-- The results of `rio_read` for one byte: the end of the file, or the next byte. -/
inductive ByteRead (rp : RioT) (fd : Fd) : Int × List UInt8 × RioT × Fd → Prop
  | eof {rp' : RioT} {fd' : Fd} : rp'.Ok → left rp fd = [] → left rp' fd' = [] → ByteRead rp fd (0, [], rp', fd')
  | byte {c : UInt8} {rp' : RioT} {fd' : Fd} : rp'.Ok → left rp fd = c :: left rp' fd' →
      ByteRead rp fd (1, [c], rp', fd')

theorem rioRead_byte (h : rp.Ok) (fd : Fd) : ByteRead rp fd (rioRead rp fd 1) := by
  obtain ⟨rc, bytes, rp', fd', hr⟩ : ∃ rc bytes rp' fd', rioRead rp fd 1 = (rc, bytes, rp', fd') :=
    ⟨_, _, _, _, rfl⟩
  obtain ⟨hok, rfl, hlen, hl, hnil⟩ := rioRead_spec h Nat.one_pos hr
  rw [hr]
  rcases bytes with _ | ⟨c, _ | ⟨d, bytes⟩⟩
  · rw [hnil.1 rfl] at hl
    exact .eof hok (hnil.1 rfl) hl.symm
  · exact .byte hok hl
  · simp at hlen

/-- The first bytes of `usrbuf`, as many as the return value says. -/
def Result.delivered (r : Result) : List UInt8 := r.usrbuf.take r.ret.toNat

/-- The next line, or as many bytes of it as there is room for. -/
def nextLine : Nat → List UInt8 → List UInt8
  | 0, _ => []
  | _ + 1, [] => []
  | room + 1, c :: bytes => if c = 10 then [c] else c :: nextLine room bytes

@[simp] theorem nextLine_nil (room : Nat) : nextLine room [] = [] := by cases room <;> rfl

theorem nextLine_newline (room : Nat) (bytes : List UInt8) : nextLine (room + 1) (10 :: bytes) = [10] := if_pos rfl

theorem nextLine_cons {c : UInt8} (hc : c ≠ 10) (room : Nat) (bytes : List UInt8) :
    nextLine (room + 1) (c :: bytes) = c :: nextLine room bytes := if_neg hc

theorem nextLine_eq_nil_iff {room : Nat} (hroom : 0 < room) : nextLine room bytes = [] ↔ bytes = [] := by
  obtain ⟨room, rfl⟩ := Nat.exists_eq_succ_of_ne_zero hroom.ne'
  cases bytes with
  | nil => simp
  | cons c bytes =>
    refine iff_of_false (fun h0 => ?_) (List.cons_ne_nil _ _)
    by_cases hc : c = 10
    · rw [hc, nextLine_newline] at h0
      cases h0
    · rw [nextLine_cons hc] at h0
      cases h0

theorem length_nextLine_le_iff {m : Nat} (room : Nat) (bytes : List UInt8) :
    (nextLine room bytes).length ≤ m ↔ room ≤ m ∨ bytes.length ≤ m ∨ 10 ∈ bytes.take m := by
  induction room generalizing bytes m with
  | zero => exact iff_of_true (Nat.zero_le _) (.inl (Nat.zero_le _))
  | succ room ih =>
    cases bytes with
    | nil => exact iff_of_true (Nat.zero_le _) (.inr (.inl (Nat.zero_le _)))
    | cons c bytes =>
      cases m with
      | zero =>
        refine iff_of_false ?_ ?_
        · rw [Nat.le_zero, List.length_eq_zero_iff, nextLine_eq_nil_iff room.succ_pos]
          exact List.cons_ne_nil _ _
        · simp
      | succ m =>
        by_cases hc : c = 10
        · rw [hc, nextLine_newline]
          exact iff_of_true (Nat.succ_le_succ (Nat.zero_le _)) (.inr (.inr List.mem_cons_self))
        · rw [nextLine_cons hc, List.length_cons, List.length_cons, List.take_succ_cons, List.mem_cons]
          simp only [Nat.add_le_add_iff_right, Ne.symm hc, false_or]
          exact ih bytes

/-- **The loop of `rio_readlineb`**, when it has stored `n - 1` bytes. -/
theorem readlineLoop_spec {usrbuf : List UInt8} {k : Nat} (h : rp.Ok) (hn : usrbuf.length + 1 = n) :
    (readlineLoop rp fd usrbuf n k).rp.Ok ∧
      (readlineLoop rp fd usrbuf n k).ret = i32 (usrbuf ++ nextLine k (left rp fd)).length ∧
      usrbuf ++ nextLine k (left rp fd) <+: (readlineLoop rp fd usrbuf n k).usrbuf ∧
      left rp fd = nextLine k (left rp fd) ++
        left (readlineLoop rp fd usrbuf n k).rp (readlineLoop rp fd usrbuf n k).fd := by
  induction k generalizing rp fd usrbuf n with
  | zero =>
    refine ⟨h, ?_, ?_, rfl⟩
    · simp [readlineLoop, nextLine, ← hn]
    · simp [readlineLoop, nextLine]
  | succ k ih =>
    obtain ⟨r, hr⟩ : ∃ r, rioRead rp fd 1 = r := ⟨_, rfl⟩
    have hread := hr ▸ rioRead_byte h fd
    unfold readlineLoop
    rw [hr]
    cases hread with
    | eof hok hl hl' =>
      rw [hl, nextLine_nil, List.append_nil]
      simp only
      split_ifs with h1
      · have hu : usrbuf = [] := List.eq_nil_of_length_eq_zero (by omega)
        rw [hu]
        exact ⟨hok, rfl, List.prefix_rfl, hl'.symm⟩
      · exact ⟨hok, by simp [← hn], List.prefix_append _ _, hl'.symm⟩
    | @byte c rp' fd' hok hl =>
      rw [hl]
      simp only
      split_ifs with hc
      · rw [hc, nextLine_newline]
        exact ⟨hok, by simp [← hn], List.prefix_append _ _, rfl⟩
      · obtain ⟨hok', hret, hu, hl'⟩ := @ih rp' fd' (n + 1) (usrbuf ++ [c]) hok (by simp [← hn])
        rw [nextLine_cons hc, List.append_cons usrbuf c (nextLine k _)]
        exact ⟨hok', hret, hu, by rw [List.cons_append, ← hl']⟩

/-- **`rio_readlineb`** takes the next line from the stream, and returns its length if an `int` holds it. -/
theorem rioReadlineb_spec (h : rp.Ok) (fd : Fd) (maxlen : Nat) :
    (rioReadlineb rp fd maxlen).rp.Ok ∧
      (rioReadlineb rp fd maxlen).ret = i32 (nextLine (maxlen - 1) (left rp fd)).length ∧
      nextLine (maxlen - 1) (left rp fd) <+: (rioReadlineb rp fd maxlen).usrbuf ∧
      left rp fd = nextLine (maxlen - 1) (left rp fd) ++
        left (rioReadlineb rp fd maxlen).rp (rioReadlineb rp fd maxlen).fd :=
  @readlineLoop_spec rp fd 1 [] (maxlen - 1) h rfl

/-- The length of the next line is an `int`. -/
def ShortLine (maxlen : Nat) (bytes : List UInt8) : Prop :=
  maxlen ≤ 2 ^ 31 ∨ bytes.length < 2 ^ 31 ∨ 10 ∈ bytes.take (2 ^ 31 - 1)

theorem shortLine_iff : ShortLine maxlen bytes ↔ (nextLine (maxlen - 1) bytes).length < 2 ^ 31 := by
  have hle := @length_nextLine_le_iff (2 ^ 31 - 1) (maxlen - 1) bytes
  have hroom : maxlen - 1 ≤ 2 ^ 31 - 1 ↔ maxlen ≤ 2 ^ 31 := by omega
  have hlen : bytes.length ≤ 2 ^ 31 - 1 ↔ bytes.length < 2 ^ 31 := by omega
  rw [ShortLine, ← hroom, ← hlen, ← hle]
  omega

/-- A call delivers the line if it is short, and else nothing: the `int` is negative. -/
theorem rioReadlineb_delivered (h : rp.Ok) (fd : Fd) (lt : maxlen < 2 ^ 32) :
    (ShortLine maxlen (left rp fd) → (rioReadlineb rp fd maxlen).delivered = nextLine (maxlen - 1) (left rp fd)) ∧
      (¬ ShortLine maxlen (left rp fd) → (rioReadlineb rp fd maxlen).delivered = []) := by
  obtain ⟨-, hret, ⟨t, ht⟩, -⟩ := rioReadlineb_spec h fd maxlen
  have hroom : (nextLine (maxlen - 1) (left rp fd)).length ≤ maxlen - 1 :=
    (length_nextLine_le_iff _ _).2 (.inl le_rfl)
  rw [shortLine_iff]
  unfold Result.delivered
  constructor
  · intro hs
    rw [hret, i32_natCast hs, Int.toNat_natCast, ← ht, List.take_left]
  · intro hs
    have hneg := i32_neg (not_lt.1 hs) (by omega)
    rw [hret, Int.toNat_of_nonpos hneg.le, List.take_zero]

/-- Up to `2 ^ 31` bytes of room the `int` makes no difference. -/
theorem rioReadlineb_small (h : rp.Ok) (fd : Fd) (hint : maxlen ≤ 2 ^ 31) :
    (rioReadlineb rp fd maxlen).ret = (nextLine (maxlen - 1) (left rp fd)).length ∧
      (rioReadlineb rp fd maxlen).delivered = nextLine (maxlen - 1) (left rp fd) := by
  have hshort : ShortLine maxlen (left rp fd) := .inl hint
  constructor
  · rw [(rioReadlineb_spec h fd maxlen).2.1, i32_natCast (shortLine_iff.1 hshort)]
  · exact (rioReadlineb_delivered h fd (lt_of_le_of_lt hint (by norm_num))).1 hshort

/-- **`rio_readnb`** delivers nothing, but takes bytes from the stream if there are any. -/
theorem rioReadnb_spec (h : rp.Ok) (fd : Fd) (n : Nat) :
    (rioReadnb rp fd n).rp.Ok ∧ (rioReadnb rp fd n).delivered = [] ∧
      ((n = 0 ∨ left rp fd = []) → left (rioReadnb rp fd n).rp (rioReadnb rp fd n).fd = left rp fd) := by
  unfold rioReadnb
  split_ifs with hn
  · obtain ⟨rc, bytes, rp', fd', hr⟩ : ∃ rc bytes rp' fd', rioRead rp fd n = (rc, bytes, rp', fd') :=
      ⟨_, _, _, _, rfl⟩
    obtain ⟨hok, hrc, -, hl, hnil⟩ := rioRead_spec h hn hr
    have hrc' : ¬ rc < 0 := by omega
    rw [hr]
    simp only [if_neg hrc', ne_eq, not_true_eq_false, if_false]
    refine ⟨hok, by simp [Result.delivered], ?_⟩
    rintro (h0 | h0)
    · omega
    · rw [hl, hnil.2 h0]
      rfl
  · exact ⟨h, by simp [Result.delivered], fun _ => rfl⟩

/-! ### Sequences of calls -/

inductive Op
  | readlineb (maxlen : Nat) (le : 2 ≤ maxlen) (lt : maxlen < 2 ^ 32)
  | readnb (n : Nat)

def Op.run (rp : RioT) (fd : Fd) : Op → Result
  | readlineb maxlen _ _ => rioReadlineb rp fd maxlen
  | readnb n => rioReadnb rp fd n

/-- A reader, its descriptor, and all bytes delivered so far. -/
structure Session where
  rp : RioT
  fd : Fd
  out : List UInt8

def Session.left (s : Session) : List UInt8 := Rio.left s.rp s.fd

def Session.call (s : Session) (op : Op) : Session :=
  let r := op.run s.rp s.fd
  ⟨r.rp, r.fd, s.out ++ r.delivered⟩

def Session.run (s : Session) (ops : List Op) : Session := ops.foldl Session.call s

def session (rioBuf : List UInt8) (fd : Fd) : Session := ⟨rioReadinitb rioBuf, fd, []⟩

/-- Nothing is lost or duplicated after any prefix of the calls, and every `rio_readnb(n)` delivers `n`
bytes or all that are left. -/
def Exact (s : Session) (ops : List Op) : Prop :=
  (∀ pre post, ops = pre ++ post → (s.run pre).out ++ (s.run pre).left = s.out ++ s.left) ∧
  ∀ pre n post, ops = pre ++ .readnb n :: post →
    ((Op.readnb n).run (s.run pre).rp (s.run pre).fd).delivered.length = min n (s.run pre).left.length

/-- The call asks for a line whose length is an `int`, or for bytes when there are none to deliver. -/
def Op.Harmless (s : Session) : Op → Prop
  | readlineb maxlen _ _ => ShortLine maxlen s.left
  | readnb n => n = 0 ∨ s.left = []

def Harmless (s : Session) (ops : List Op) : Prop :=
  ∀ pre op post, ops = pre ++ op :: post → op.Harmless (s.run pre)

variable {s : Session} {op : Op} {ops : List Op}

theorem Session.run_append (s : Session) (pre : List Op) (op : Op) :
    s.run (pre ++ [op]) = (s.run pre).call op := by simp [Session.run]

theorem Session.call_ok (h : s.rp.Ok) (op : Op) : (s.call op).rp.Ok := by
  cases op with
  | readlineb maxlen _ _ => exact (rioReadlineb_spec h s.fd maxlen).1
  | readnb n => exact (rioReadnb_spec h s.fd n).1

theorem Session.run_ok (h : s.rp.Ok) (ops : List Op) : (s.run ops).rp.Ok := by
  induction ops using List.reverseRecOn with
  | nil => exact h
  | append_singleton ops op ih =>
    rw [Session.run_append]
    exact Session.call_ok ih op

theorem Session.call_exact_iff :
    (s.call op).out ++ (s.call op).left = s.out ++ s.left ↔
      (op.run s.rp s.fd).delivered ++ Rio.left (op.run s.rp s.fd).rp (op.run s.rp s.fd).fd = s.left := by
  unfold Session.call
  rw [List.append_assoc, List.append_cancel_left_eq]
  rfl

theorem Session.call_exact (h : s.rp.Ok) (hop : op.Harmless s) :
    (s.call op).out ++ (s.call op).left = s.out ++ s.left := by
  rw [Session.call_exact_iff]
  cases op with
  | readlineb maxlen _ lt =>
    have hd := (rioReadlineb_delivered h s.fd lt).1 hop
    have hl := (rioReadlineb_spec h s.fd maxlen).2.2.2
    unfold Op.run
    rw [hd]
    exact hl.symm
  | readnb n =>
    obtain ⟨-, hd, hl⟩ := rioReadnb_spec h s.fd n
    unfold Op.run
    rw [hd, hl hop]
    rfl

theorem Op.harmless_of_exact (h : s.rp.Ok) (hcall : (s.call op).out ++ (s.call op).left = s.out ++ s.left)
    (hnb : ∀ n, op = .readnb n → ((Op.readnb n).run s.rp s.fd).delivered.length = min n s.left.length) :
    op.Harmless s := by
  cases op with
  | readlineb maxlen _ lt =>
    show ShortLine maxlen s.left
    by_contra hs
    have hd := (rioReadlineb_delivered h s.fd lt).2 hs
    have hl : s.left = _ := (rioReadlineb_spec h s.fd maxlen).2.2.2
    rw [shortLine_iff, not_lt] at hs
    rw [Session.call_exact_iff, Op.run, hd, List.nil_append] at hcall
    rw [hcall] at hl
    have hlen := congrArg List.length hl
    rw [List.length_append] at hlen
    unfold Session.left at hs hlen
    omega
  | readnb n =>
    have hd := (rioReadnb_spec h s.fd n).2.1
    have hmin := hnb n rfl
    rw [Op.run, hd, List.length_nil] at hmin
    rcases Nat.eq_zero_or_pos n with hn | hn
    · exact .inl hn
    · exact .inr (List.eq_nil_of_length_eq_zero (by omega))

/-- **Delivery.** On every stream, cut and interrupted in any way, a sequence of calls loses and
duplicates nothing exactly when its calls of `rio_readnb` have nothing to do and its lines are short. -/
theorem delivers_iff (rioBuf : List UInt8) (fd : Fd) (ops : List Op) :
    Exact (session rioBuf fd) ops ↔ Harmless (session rioBuf fd) ops := by
  have h0 : (session rioBuf fd).rp.Ok := by simp [session, rioReadinitb, RioT.Ok]
  constructor
  · rintro ⟨hall, hlen⟩ pre op post heq
    refine Op.harmless_of_exact (Session.run_ok h0 pre) ?_ ?_
    · rw [hall pre (op :: post) heq, ← Session.run_append]
      exact hall (pre ++ [op]) post (by rw [heq, List.append_assoc]; rfl)
    · rintro n rfl
      exact hlen pre n post heq
  · intro hops
    constructor
    · intro pre
      induction pre using List.reverseRecOn with
      | nil => exact fun _ _ => rfl
      | append_singleton pre op ih =>
        intro post heq
        rw [List.append_assoc] at heq
        rw [Session.run_append, Session.call_exact (Session.run_ok h0 pre) (hops pre op post heq)]
        exact ih ([op] ++ post) heq
    · intro pre n post heq
      have hd := (rioReadnb_spec (Session.run_ok h0 pre) ((session rioBuf fd).run pre).fd n).2.1
      unfold Op.run
      rw [hd, List.length_nil]
      rcases hops pre (.readnb n) post heq with hn | hn
      · rw [hn, Nat.zero_min]
      · rw [hn, List.length_nil, Nat.min_zero]

/-- Two bytes in one chunk: `rio_readnb(2)` returns 0, and the bytes are gone. -/
theorem readnb_loses : ¬ Exact (session [] [.chunk [97, 98] (by decide) (by decide)]) [.readnb 2] := by
  rintro ⟨hall, -⟩
  exact absurd (hall [.readnb 2] [] rfl) (by decide)

end CsappLab.Rio
