import Mathlib.Data.BitVec
import Mathlib.Tactic

/-!
# Unbuffered transfers

`rio_readn` and `rio_writen` of `tiny/rio/rio.c`. A schedule lists what the calls of `read` or `write`
do, one after the other; the state after it is that of the loop, or of the return. `size_t` and `ssize_t`
have 64 bits.
-/

namespace CsappLab.Rio

def EINTR : Int := 4

/-- `usrbuf` with the argument `n`. An object has at most `PTRDIFF_MAX` bytes. -/
structure Region where
  bytes : List UInt8
  n : Nat
  le : n ≤ bytes.length
  lt : bytes.length < 2 ^ 63

/-- What a call of `read` or `write` does: it fails, or has room for `k` bytes. -/
inductive Outcome
  | failed (errno : Int)
  | moved (k : Nat)

/-- `nleft - k` as a `size_t`. -/
def sizeSub (nleft : Nat) (k : Int) : Nat := ((nleft - k) % 2 ^ 64).toNat

def ssize (n : Nat) : Int := (BitVec.ofNat 64 n).toInt

/-- The variables of both loops; `bufp` is the offset into `usrbuf`. -/
structure Transfer where
  nleft : Nat
  bufp : Nat
  errno : Int
  ret : Option Int

/-- `return n - nleft` -/
def Transfer.done (n : Nat) (l : Transfer) : Transfer := { l with ret := some (ssize (sizeSub n l.nleft)) }

def Transfer.test (n : Nat) (l : Transfer) : Transfer := if 0 < l.nleft then l else l.done n

def Transfer.start (n : Nat) (errno : Int) : Transfer := Transfer.test n ⟨n, 0, errno, none⟩

def Transfer.advance (n : Nat) (l : Transfer) (k : Int) : Transfer :=
  Transfer.test n { l with nleft := sizeSub l.nleft k, bufp := l.bufp + k.toNat }

def Transfer.fail (l : Transfer) : Transfer := { l with ret := some (-1) }

variable {b : Region} {l : Transfer} {o : Outcome} {os : List Outcome} {k : Nat} {errno : Int}

/-! ### The loop -/

/-- Offset and rest make up `n`, and the loop goes on while there is a rest. -/
structure Transfer.Ok (b : Region) (l : Transfer) : Prop where
  sum : l.bufp + l.nleft = b.n
  goes : l.ret = none → 0 < l.nleft

theorem Region.n_lt (b : Region) : b.n < 2 ^ 63 := b.le.trans_lt b.lt

theorem sizeSub_natCast {nleft : Nat} (h : nleft < 2 ^ 63) (hk : k ≤ nleft) : sizeSub nleft k = nleft - k := by
  unfold sizeSub
  omega

theorem ssize_natCast {n : Nat} (h : n < 2 ^ 63) : ssize n = n := by
  unfold ssize
  rw [BitVec.toInt_ofNat', Int.bmod_eq_of_le] <;> push_cast <;> omega

theorem Transfer.done_ret (h : l.bufp + l.nleft = b.n) : (l.done b.n).ret = some (l.bufp : Int) := by
  have hn := b.n_lt
  unfold Transfer.done
  rw [sizeSub_natCast hn (by omega), ssize_natCast (by omega)]
  simp only [Option.some.injEq]
  omega

theorem Transfer.test_spec (h : l.bufp + l.nleft = b.n) (hnone : l.ret = none) :
    (l.test b.n).Ok b ∧ (l.test b.n).bufp = l.bufp ∧ (l.test b.n).nleft = l.nleft ∧
      ∀ r, (l.test b.n).ret = some r → r = b.n ∧ l.bufp = b.n := by
  unfold Transfer.test
  split_ifs with hpos
  · refine ⟨⟨h, fun _ => hpos⟩, rfl, rfl, ?_⟩
    intro r hr
    rw [hnone] at hr
    cases hr
  · refine ⟨⟨h, fun hret => ?_⟩, rfl, rfl, ?_⟩
    · cases hret
    · intro r hr
      rw [Transfer.done_ret h] at hr
      cases hr
      omega

theorem Transfer.advance_spec (h : l.Ok b) (hnone : l.ret = none) (hk : k ≤ l.nleft) :
    (l.advance b.n k).Ok b ∧ (l.advance b.n k).bufp = l.bufp + k ∧ (l.advance b.n k).nleft = l.nleft - k ∧
      ∀ r, (l.advance b.n k).ret = some r → r = b.n ∧ l.bufp + k = b.n := by
  have hn := b.n_lt
  have hsum := h.sum
  have hsub : sizeSub l.nleft k = l.nleft - k := sizeSub_natCast (by omega) hk
  unfold Transfer.advance
  rw [hsub, Int.toNat_natCast]
  exact Transfer.test_spec (l := ⟨l.nleft - k, l.bufp + k, l.errno, l.ret⟩) (by simp only; omega) hnone

/-- The state of `rio_writen`: its variables and what the descriptor has received. -/
structure Writen extends Transfer where
  received : List UInt8

/-- `write(fd, bufp, nleft)`: its value, `errno` behind it, and the bytes it has sent. -/
def write (b : Region) (l : Transfer) : Outcome → Int × Int × List UInt8
  | .failed errno => (-1, errno, [])
  | .moved k => ((min k l.nleft : Nat), l.errno, (b.bytes.drop l.bufp).take (min k l.nleft))

/-- The body of `rio_writen`, until the call has returned. -/
def Writen.step (b : Region) (s : Writen) (o : Outcome) : Writen :=
  match s.ret with
  | some _ => s
  | none =>
    match write b s.toTransfer o with
    | (nwritten, errno, sent) =>
      let l := { s.toTransfer with errno := errno }
      if nwritten ≤ 0 then
        if errno = EINTR then ⟨l.advance b.n 0, s.received ++ sent⟩ else ⟨l.fail, s.received ++ sent⟩
      else ⟨l.advance b.n nwritten, s.received ++ sent⟩

/-- The invariant of the loop. -/
structure Writen.Ok (b : Region) (s : Writen) : Prop where
  loop : s.toTransfer.Ok b
  sent : s.received = b.bytes.take s.bufp
  ret : ∀ r, s.ret = some r → r = b.n ∧ s.bufp = b.n ∨ r = -1

variable {s : Writen}

theorem Writen.Ok.advance (h : s.Ok b) (hnone : s.ret = none) (hk : k ≤ s.nleft) :
    Writen.Ok b ⟨{ s.toTransfer with errno := errno }.advance b.n k,
      s.received ++ (b.bytes.drop s.bufp).take k⟩ := by
  obtain ⟨hok, hbufp, -, hret⟩ :=
    Transfer.advance_spec (l := { s.toTransfer with errno := errno }) ⟨h.loop.sum, h.loop.goes⟩ hnone hk
  refine ⟨hok, ?_, ?_⟩
  · rw [h.sent, hbufp, List.take_add]
  · intro r hr
    obtain ⟨hrn, hb⟩ := hret r hr
    exact .inl ⟨hrn, hbufp.trans hb⟩

theorem Writen.Ok.fail (h : s.Ok b) :
    Writen.Ok b ⟨{ s.toTransfer with errno := errno }.fail, s.received⟩ := by
  refine ⟨⟨h.loop.sum, fun hret => ?_⟩, h.sent, ?_⟩
  · cases hret
  · intro r hr
    cases hr
    exact .inr rfl

def Outcome.sends : Outcome → Bool
  | .failed _ => false
  | .moved k => 0 < k

theorem Writen.step_cases (h : s.Ok b) (hnone : s.ret = none) (o : Outcome) :
    (∃ errno k, k ≤ s.nleft ∧ (o.sends = true → 0 < k) ∧
      s.step b o = ⟨{ s.toTransfer with errno := errno }.advance b.n (k : Nat),
        s.received ++ (b.bytes.drop s.bufp).take k⟩) ∨
    ∃ errno, s.step b o = ⟨{ s.toTransfer with errno := errno }.fail, s.received⟩ := by
  have hpos := h.loop.goes hnone
  unfold Writen.step
  rw [hnone]
  cases o with
  | failed errno =>
    simp only [write, List.append_nil]
    rw [if_pos (by norm_num)]
    split_ifs
    · refine .inl ⟨errno, 0, Nat.zero_le _, fun hs => ?_, ?_⟩
      · cases hs
      · rw [List.take_zero, List.append_nil]
        rfl
    · exact .inr ⟨errno, rfl⟩
  | moved k =>
    obtain ⟨m, hm⟩ : ∃ m, min k s.nleft = m := ⟨_, rfl⟩
    have hw : write b s.toTransfer (.moved k) = ((m : Int), s.errno, (b.bytes.drop s.bufp).take m) := by
      rw [← hm]
      rfl
    rw [hw]
    simp only
    split_ifs with h0
    · obtain rfl : m = 0 := by omega
      refine .inl ⟨s.errno, 0, Nat.zero_le _, fun hs => ?_, rfl⟩
      have hs : 0 < k := of_decide_eq_true hs
      omega
    · obtain rfl : m = 0 := by omega
      rw [List.take_zero, List.append_nil]
      exact .inr ⟨s.errno, rfl⟩
    · exact .inl ⟨s.errno, m, by omega, fun _ => by omega, rfl⟩

theorem Writen.Ok.step (h : s.Ok b) (o : Outcome) : (s.step b o).Ok b := by
  cases hret : s.ret with
  | some r =>
    unfold Writen.step
    rw [hret]
    exact h
  | none =>
    obtain ⟨errno, k, hk, -, hstep⟩ | ⟨errno, hstep⟩ := Writen.step_cases h hret o
    · rw [hstep]
      exact h.advance hret hk
    · rw [hstep]
      exact h.fail

theorem Writen.Ok.start (b : Region) (errno : Int) : Writen.Ok b ⟨Transfer.start b.n errno, []⟩ := by
  obtain ⟨hok, hbufp, -, hret⟩ := Transfer.test_spec (b := b) (l := ⟨b.n, 0, errno, none⟩) (Nat.zero_add _) rfl
  refine ⟨hok, ?_, fun r hr => ?_⟩
  · rw [show (Transfer.start b.n errno).bufp = 0 from hbufp, List.take_zero]
  · obtain ⟨hr, hb⟩ := hret r hr
    exact .inl ⟨hr, hbufp.trans hb⟩

def Outcome.moves : Outcome → Bool
  | .failed _ => false
  | .moved _ => true

/-- The state of `rio_readn`: its variables, the buffer, and the rest of the stream. -/
structure Readn extends Transfer where
  usrbuf : List UInt8
  stream : List UInt8

/-- `read(fd, bufp, nleft)`: its value, `errno` behind it, and the bytes it has stored. It stores nothing
only at the end of the stream. -/
def read (l : Transfer) (stream : List UInt8) : Outcome → Int × Int × List UInt8
  | .failed errno => (-1, errno, [])
  | .moved k =>
    let got := stream.take (min (max 1 k) l.nleft)
    (got.length, l.errno, got)

def store (usrbuf : List UInt8) (bufp : Nat) (got : List UInt8) : List UInt8 :=
  usrbuf.take bufp ++ got ++ usrbuf.drop (bufp + got.length)

/-- The body of `rio_readn`, until the call has returned. -/
def Readn.step (b : Region) (s : Readn) (o : Outcome) : Readn :=
  match s.ret with
  | some _ => s
  | none =>
    match read s.toTransfer s.stream o with
    | (nread, errno, got) =>
      let l := { s.toTransfer with errno := errno }
      let usrbuf := store s.usrbuf s.bufp got
      let stream := s.stream.drop got.length
      if nread < 0 then
        if errno = EINTR then ⟨l.advance b.n 0, usrbuf, stream⟩ else ⟨l.fail, usrbuf, stream⟩
      else if nread = 0 then ⟨l.done b.n, usrbuf, stream⟩
      else ⟨l.advance b.n nread, usrbuf, stream⟩

/-- What holds in every state of `rio_readn`. -/
structure ReadsExactly (b : Region) (stream : List UInt8) (s : Readn) : Prop where
  sum : s.bufp + s.nleft = b.n
  taken : s.bufp ≤ stream.length
  stored : s.usrbuf = stream.take s.bufp ++ b.bytes.drop s.bufp
  rest : s.stream = stream.drop s.bufp
  ret : ∀ r, s.ret = some r → r = s.bufp ∧ (s.bufp < b.n → s.stream = []) ∨ r = -1

/-- The invariant of the loop. -/
structure Readn.Ok (b : Region) (stream : List UInt8) (s : Readn) : Prop extends ReadsExactly b stream s where
  loop : s.toTransfer.Ok b

variable {stream : List UInt8} {r : Readn}

theorem store_nil (usrbuf : List UInt8) (bufp : Nat) : store usrbuf bufp [] = usrbuf := by
  unfold store
  rw [List.append_nil, List.length_nil, Nat.add_zero, List.take_append_drop]

theorem Readn.Ok.advance (h : r.Ok b stream) (hnone : r.ret = none) (hk : k ≤ r.nleft) (hlen : k ≤ r.stream.length) :
    Readn.Ok b stream ⟨{ r.toTransfer with errno := errno }.advance b.n k,
      store r.usrbuf r.bufp (r.stream.take k), r.stream.drop k⟩ := by
  obtain ⟨hok, hbufp, -, hret⟩ :=
    Transfer.advance_spec (l := { r.toTransfer with errno := errno }) ⟨h.loop.sum, h.loop.goes⟩ hnone hk
  have htaken := h.taken
  have hrest := h.rest
  have hk' : (r.stream.take k).length = k := List.length_take_of_le hlen
  have hl : (stream.take r.bufp).length = r.bufp := List.length_take_of_le htaken
  rw [hrest, List.length_drop] at hlen
  refine ⟨⟨hok.sum, ?_, ?_, ?_, ?_⟩, hok⟩
  · rw [hbufp]
    show r.bufp + k ≤ _
    omega
  · rw [hbufp]
    have htake : r.usrbuf.take r.bufp = stream.take r.bufp := by
      rw [h.stored]
      exact List.take_left' hl
    have hdrop : r.usrbuf.drop (r.bufp + k) = b.bytes.drop (r.bufp + k) := by
      rw [h.stored, ← List.drop_drop, List.drop_left' hl, List.drop_drop]
    show store r.usrbuf r.bufp (r.stream.take k) = stream.take (r.bufp + k) ++ b.bytes.drop (r.bufp + k)
    unfold store
    rw [htake, hk', hdrop, hrest, List.take_add]
  · rw [hbufp, hrest, List.drop_drop]
  · intro v hv
    obtain ⟨hvn, hb⟩ := hret v hv
    refine .inl ⟨?_, fun hlt => absurd hlt ?_⟩
    · rw [hbufp, hvn, hb]
    · rw [hbufp]
      exact hb.not_lt

theorem Readn.step_cases (h : r.Ok b stream) (hnone : r.ret = none) (o : Outcome) :
    (∃ errno k, k ≤ r.nleft ∧ k ≤ r.stream.length ∧ (o.moves = true → 0 < k) ∧
      r.step b o = ⟨{ r.toTransfer with errno := errno }.advance b.n (k : Nat),
        store r.usrbuf r.bufp (r.stream.take k), r.stream.drop k⟩) ∨
    (r.stream = [] ∧ r.step b o = ⟨r.toTransfer.done b.n, r.usrbuf, r.stream⟩) ∨
    ∃ errno, r.step b o = ⟨{ r.toTransfer with errno := errno }.fail, r.usrbuf, r.stream⟩ := by
  have hpos := h.loop.goes hnone
  unfold Readn.step
  rw [hnone]
  cases o with
  | failed errno =>
    simp only [read, store_nil, List.length_nil, List.drop_zero]
    rw [if_pos (by norm_num)]
    split_ifs
    · refine .inl ⟨errno, 0, Nat.zero_le _, Nat.zero_le _, fun hm => ?_, ?_⟩
      · cases hm
      · rw [List.take_zero, store_nil, List.drop_zero]
        rfl
    · exact .inr (.inr ⟨errno, rfl⟩)
  | moved m =>
    obtain ⟨k, hk⟩ : ∃ k, (r.stream.take (min (max 1 m) r.nleft)).length = k := ⟨_, rfl⟩
    have hk' := hk
    rw [List.length_take] at hk'
    have htake : r.stream.take (min (max 1 m) r.nleft) = r.stream.take k := by
      rw [← hk, List.take_eq_take_iff]
      simp
    have hread : read r.toTransfer r.stream (.moved m) = ((k : Int), r.errno, r.stream.take k) := by
      rw [← htake, ← hk]
      rfl
    rw [hread]
    simp only [List.length_take_of_le (show k ≤ r.stream.length by omega)]
    rw [if_neg (by omega)]
    split_ifs with h0
    · obtain rfl : k = 0 := by omega
      have hnil : r.stream = [] := List.eq_nil_of_length_eq_zero (by omega)
      refine .inr (.inl ⟨hnil, ?_⟩)
      rw [List.take_zero, store_nil, List.drop_zero]
    · exact .inl ⟨r.errno, k, by omega, by omega, fun _ => by omega, rfl⟩

theorem Readn.Ok.step (h : r.Ok b stream) (o : Outcome) : (r.step b o).Ok b stream := by
  cases hret : r.ret with
  | some v =>
    unfold Readn.step
    rw [hret]
    exact h
  | none =>
    obtain ⟨errno, k, hk, hlen, -, hstep⟩ | ⟨hnil, hstep⟩ | ⟨errno, hstep⟩ := Readn.step_cases h hret o
    · rw [hstep]
      exact h.advance hret hk hlen
    · rw [hstep]
      refine ⟨⟨h.sum, h.taken, h.stored, h.rest, fun v hv => ?_⟩, h.sum, fun hv => ?_⟩
      · rw [Transfer.done_ret h.sum] at hv
        cases hv
        exact .inl ⟨rfl, fun _ => hnil⟩
      · cases hv
    · rw [hstep]
      refine ⟨⟨h.sum, h.taken, h.stored, h.rest, fun v hv => ?_⟩, h.sum, fun hv => ?_⟩
      · cases hv
        exact .inr rfl
      · cases hv

theorem Readn.Ok.start (b : Region) (stream : List UInt8) (errno : Int) :
    Readn.Ok b stream ⟨Transfer.start b.n errno, b.bytes, stream⟩ := by
  obtain ⟨hok, hbufp, -, hret⟩ := Transfer.test_spec (b := b) (l := ⟨b.n, 0, errno, none⟩) (Nat.zero_add _) rfl
  have hbufp : (Transfer.start b.n errno).bufp = 0 := hbufp
  refine ⟨⟨hok.sum, ?_, ?_, ?_, fun v hv => ?_⟩, hok⟩
  · rw [hbufp]
    exact Nat.zero_le _
  · rw [hbufp, List.take_zero]
    rfl
  · rw [hbufp, List.drop_zero]
  · obtain ⟨hv, hb⟩ := hret v hv
    have hb : 0 = b.n := hb
    refine .inl ⟨?_, fun hlt => ?_⟩
    · rw [hbufp, hv, ← hb]
    · rw [hbufp, ← hb] at hlt
      exact absurd hlt (lt_irrefl 0)

end CsappLab.Rio
