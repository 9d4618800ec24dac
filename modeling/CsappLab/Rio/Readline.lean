import CsappLab.Rio.Lines

/-!
# The next line

`rio_readlineb` stores the shortest prefix of the stream that ends a line, fills the room or ends the
stream. `maxlen` is a `size_t` and the counter an `int`, so the value that is returned is the length of a
line of fewer than `2 ^ 31` bytes, and negative for a longer one.
-/

namespace CsappLab.Rio

open CInt

variable {room maxlen : Nat} {rp : RioT} {fd : Fd} {bytes p q : List UInt8}

/-- `p` is a reason to stop: a newline, no room, or the end of the stream. -/
def Stops (room : Nat) (bytes p : List UInt8) : Prop := p.getLast? = some 10 ∨ p.length = room ∨ p = bytes

/-- The shortest such prefix. -/
structure IsLine (room : Nat) (bytes p : List UInt8) : Prop where
  isPrefix : p <+: bytes
  stops : Stops room bytes p
  shortest : ∀ q, q <+: bytes → Stops room bytes q → p.length ≤ q.length

/-- The line `p` is stored with a zero byte behind it and consumed, and nothing else. -/
structure StoresLine (maxlen : Nat) (rp : RioT) (fd : Fd) (r : Result) (p : List UInt8) : Prop where
  line : IsLine (maxlen - 1) (left rp fd) p
  eof : r.ret = 0 ↔ left rp fd = []
  stored : r.usrbuf = if left rp fd = [] then [] else p ++ [0]
  inside : r.usrbuf.length ≤ maxlen
  consumed : left rp fd = p ++ left r.rp r.fd

/-- What a call must do. -/
structure ReadsLine (maxlen : Nat) (rp : RioT) (fd : Fd) (r : Result) (p : List UInt8) : Prop
    extends StoresLine maxlen rp fd r p where
  ret : r.ret = p.length

theorem nextLine_isLine (room : Nat) (bytes : List UInt8) : IsLine room bytes (nextLine room bytes) := by
  refine ⟨?_, ?_, ?_⟩
  · exact nextLine_prefix room bytes
  · induction room generalizing bytes with
    | zero => exact .inr (.inl rfl)
    | succ room ih =>
      cases bytes with
      | nil => exact .inr (.inr rfl)
      | cons c bytes =>
        by_cases hc : c = 10
        · rw [hc, nextLine_newline]
          exact .inl rfl
        · rw [nextLine_cons hc]
          rcases ih bytes with h | h | h
          · left
            rw [List.getLast?_cons, h]
            rfl
          · exact .inr (.inl (congrArg (· + 1) h))
          · exact .inr (.inr (congrArg (c :: ·) h))
  · induction room generalizing bytes with
    | zero => exact fun q _ _ => Nat.zero_le _
    | succ room ih =>
      rintro q hq hstop
      cases bytes with
      | nil => exact Nat.zero_le _
      | cons c bytes =>
        cases q with
        | nil => rcases hstop with h | h | h <;> cases h
        | cons d q =>
          obtain ⟨rfl, htail⟩ := List.cons_prefix_cons.1 hq
          by_cases hc : d = 10
          · rw [hc, nextLine_newline]
            exact Nat.succ_le_succ (Nat.zero_le _)
          · rw [nextLine_cons hc]
            refine Nat.succ_le_succ (ih bytes q htail ?_)
            rcases hstop with h | h | h
            · left
              cases q with
              | nil => exact absurd (Option.some.inj h) hc
              | cons e q => rwa [List.getLast?_cons_cons] at h
            · exact .inr (.inl (Nat.succ.inj h))
            · exact .inr (.inr (List.cons.inj h).2)

theorem IsLine.eq (hp : IsLine room bytes p) (hq : IsLine room bytes q) : p = q :=
  (List.prefix_of_prefix_length_le hp.isPrefix hq.isPrefix (hp.shortest q hq.isPrefix hq.stops)).eq_of_length
    (Nat.le_antisymm (hp.shortest q hq.isPrefix hq.stops) (hq.shortest p hp.isPrefix hp.stops))

theorem rioReadlineb_storesLine (h : rp.Ok) (fd : Fd) (hmax : 2 ≤ maxlen) (lt : maxlen < 2 ^ 32) :
    StoresLine maxlen rp fd (rioReadlineb rp fd maxlen) (nextLine (maxlen - 1) (left rp fd)) := by
  obtain ⟨-, hret, -, hleft⟩ := rioReadlineb_spec h fd maxlen
  have hbuf : (rioReadlineb rp fd maxlen).usrbuf = _ :=
    readlineLoop_usrbuf h (show ([] : List UInt8).length + 1 = 1 from rfl) (show 0 < maxlen - 1 by omega)
  have hlen : (nextLine (maxlen - 1) (left rp fd)).length ≤ maxlen - 1 :=
    (length_nextLine_le_iff _ _).2 (.inl le_rfl)
  rw [List.nil_append, List.nil_append] at hbuf
  refine ⟨nextLine_isLine _ _, ?_, hbuf, ?_, hleft⟩
  · -- the length is below `2 ^ 32`, so that only 0 becomes 0
    have hmod := i32_emod (nextLine (maxlen - 1) (left rp fd)).length
    have hzero : i32 (nextLine (maxlen - 1) (left rp fd)).length = 0 ↔ (nextLine (maxlen - 1) (left rp fd)).length = 0 := by
      refine ⟨fun h0 => ?_, fun h0 => by rw [h0]; rfl⟩
      rw [h0] at hmod
      omega
    rw [hret, hzero, List.length_eq_zero_iff, nextLine_eq_nil_iff (by omega)]
  · rw [hbuf]
    split_ifs
    · exact Nat.zero_le _
    · rw [List.length_append, List.length_singleton]
      omega

theorem readsLine_iff (h : rp.Ok) (fd : Fd) (hmax : 2 ≤ maxlen) (lt : maxlen < 2 ^ 32) :
    (∃ p, ReadsLine maxlen rp fd (rioReadlineb rp fd maxlen) p) ↔ ShortLine maxlen (left rp fd) := by
  have hret := (rioReadlineb_spec h fd maxlen).2.1
  rw [shortLine_iff, ← i32_natCast_iff]
  constructor
  · rintro ⟨p, hp⟩
    rw [← hret, hp.ret, hp.line.eq (nextLine_isLine _ _)]
  · exact fun hs => ⟨_, rioReadlineb_storesLine h fd hmax lt, hret.trans hs⟩

/-- **`rio_readlineb`** reads the next line, whatever the chunks and interruptions of the descriptor, exactly if the
length of the line is an `int`; what it stores and consumes is right for every line. -/
theorem rioReadlineb_line_iff (h : rp.Ok) (fd : Fd) (hmax : 2 ≤ maxlen) (lt : maxlen < 2 ^ 32) :
    ((∃ p, ReadsLine maxlen rp fd (rioReadlineb rp fd maxlen) p) ↔ ShortLine maxlen (left rp fd)) ∧
      ∃ p, StoresLine maxlen rp fd (rioReadlineb rp fd maxlen) p :=
  ⟨readsLine_iff h fd hmax lt, _, rioReadlineb_storesLine h fd hmax lt⟩

/-- The stream `"abc\nd"`, in two chunks with an interruption between them. -/
def interrupted : Fd := [.chunk [97, 98] (by decide) (by decide), .eintr, .chunk [99, 10, 100] (by decide) (by decide)]

theorem rioReadlineb_line_iff_interrupted : (rioReadlineb (rioReadinitb []) interrupted 10).usrbuf = [97, 98, 99, 10, 0] ∧
    ∃ p, ReadsLine 10 (rioReadinitb []) interrupted (rioReadlineb (rioReadinitb []) interrupted 10) p :=
  ⟨by decide, (rioReadlineb_line_iff (rioReadinitb_ok []) interrupted (by norm_num) (by norm_num)).1.2 (.inl (by norm_num))⟩

/-- A chunk of `8192` letters. -/
def letters : ReadEvent :=
  .chunk (List.replicate RIO_BUFFERSIZE 97) (mt (List.replicate_eq_nil_iff 97).1 (by decide))
    (List.length_replicate ..).le

theorem rest_letters (m : Nat) : rest (List.replicate m letters) = List.replicate (m * RIO_BUFFERSIZE) 97 := by
  induction m with
  | zero => rw [Nat.zero_mul]; rfl
  | succ m ih =>
    rw [List.replicate_succ, letters, rest, ← letters, ih, List.replicate_append_replicate, Nat.succ_mul,
      Nat.add_comm]

/-- A line of `2 ^ 31` letters, with room for it: the value that is returned is negative. -/
theorem readlineb_negative : (rioReadlineb (rioReadinitb []) (List.replicate (2 ^ 18) letters) (2 ^ 31 + 1)).ret < 0 ∧
    ¬ ∃ p, ReadsLine (2 ^ 31 + 1) (rioReadinitb []) (List.replicate (2 ^ 18) letters)
      (rioReadlineb (rioReadinitb []) (List.replicate (2 ^ 18) letters) (2 ^ 31 + 1)) p := by
  have hleft : left (rioReadinitb []) (List.replicate (2 ^ 18) letters) = List.replicate (2 ^ 31) 97 := by
    rw [left_rioReadinitb, rest_letters]
    rfl
  have hlong : ¬ ShortLine (2 ^ 31 + 1) (left (rioReadinitb []) (List.replicate (2 ^ 18) letters)) := by
    rw [hleft, ShortLine, List.length_replicate]
    rintro (hs | hs | hs)
    · exact absurd hs (by norm_num)
    · exact absurd hs (by norm_num)
    · exact absurd (List.eq_of_mem_replicate (List.mem_of_mem_take hs)) (by decide)
  constructor
  · rw [(rioReadlineb_spec (rioReadinitb_ok []) _ _).2.1]
    refine i32_neg (not_lt.1 (mt shortLine_iff.2 hlong)) ?_
    have hle := (length_nextLine_le_iff (2 ^ 31 + 1 - 1) (left (rioReadinitb []) (List.replicate (2 ^ 18) letters))).2
      (.inl le_rfl)
    omega
  · rwa [readsLine_iff (rioReadinitb_ok []) _ (by norm_num) (by norm_num)]

end CsappLab.Rio
