import CsappLab.Arc.Rio
import CsappLab.Proxy.Response

/-!
# The response of the archived proxies

The second half of `proxy_client`: the headers go to the client line by line, each with `strlen`, up to a
line that is CR LF; this line is written anew, and the body follows in blocks. `size` adds up what the
calls have returned.
-/

namespace CsappLab.Arc

open CStr CInt Rio Fuel
open Proxy (MAXLINE crlf str_eq_crlf_iff two_le_maxline maxline_le)

/-- A loop does not end. -/
inductive Stuck
  | endlessLoop
deriving DecidableEq

/-- `buf2`, `size`, and what has been written to the client. -/
structure Relay where
  buf2 : List UInt8
  size : Int
  sent : List UInt8

/-- A call of `read` that has written `r.usrbuf` to `buf2` and returned `r.ret`. -/
def Relay.receive (s : Relay) (r : Result) : Relay :=
  { s with buf2 := overwrite s.buf2 r.usrbuf, size := i32 (s.size + r.ret) }

/-- `Rio_writen_w(connfd, buf2, n)` -/
def Relay.write (s : Relay) (n : Nat) : Relay := { s with sent := s.sent ++ s.buf2.take n }

/-- The connection to the origin behind the headers. -/
structure Headers where
  rp : RioT
  fd : Fd
  relay : Relay

def relayHeaders (rp : RioT) (fd : Fd) (linesize : Int) (s : Relay) : Nat → Except Stuck Headers
  | 0 => .error .endlessLoop
  | fuel + 1 =>
    if str s.buf2 ≠ crlf ∧ linesize ≠ 0 then
      let s := s.write (strlen s.buf2)
      let r := rioReadlinebW rp fd MAXLINE
      relayHeaders r.rp r.fd r.ret (s.receive r) fuel
    else .ok ⟨rp, fd, s⟩

def relayBody (rp : RioT) (fd : Fd) (s : Relay) : Nat → Except Stuck Relay
  | 0 => .error .endlessLoop
  | fuel + 1 =>
    let r := rioReadnbW rp fd MAXLINE
    if r.ret ≠ 0 then relayBody r.rp r.fd ((s.receive r).write r.ret.toNat) fuel else .ok (s.receive r)

/-- The response; `rio_buf` and `buf2` are not initialised. -/
def relay (rioBuf : List UInt8) (fd : Fd) (buf2 : List UInt8) (fuel : Nat) : Except Stuck Relay := do
  let r := rioReadlinebW (rioReadinitb rioBuf) fd MAXLINE
  let h ← relayHeaders r.rp r.fd r.ret (Relay.receive ⟨buf2, 0, []⟩ r) fuel
  relayBody h.rp h.fd { h.relay with sent := h.relay.sent ++ crlf } fuel

variable {rp : RioT} {fd : Fd} {s : Relay} {linesize : Int}
  {rioBuf buf2 bytes body l : List UInt8} {ls hs rest : List (List UInt8)} {T : Nat}

/-! ### The body -/

theorem mono_relayBody : Mono (relayBody rp fd s) := by
  refine Mono.of_succ fun n => ?_
  induction n generalizing rp fd s with
  | zero => exact nofun
  | succ n ih =>
    intro r hn
    unfold relayBody at hn ⊢
    simp only at hn ⊢
    split_ifs at hn ⊢ with h0
    · exact ih r hn
    · exact hn

theorem receive_size (hs : s.size = i32 T) {r : Result} {n : Nat} (hr : r.ret = n) :
    (s.receive r).size = i32 (T + n : Nat) := by
  rw [Relay.receive, hs, hr]
  simp only
  rw [i32_add, Nat.cast_add]

theorem write_sent {r : Result} (hr : r.ret = r.usrbuf.length) :
    ((s.receive r).write r.ret.toNat).sent = s.sent ++ r.usrbuf := by
  simp only [Relay.write, Relay.receive, overwrite, hr, Int.toNat_natCast, List.take_left]

/-- **The loop over the body** writes the rest of the stream. -/
theorem halts_relayBody (h : rp.Ok) (hsize : s.size = i32 T) :
    ∃ s', Halts (relayBody rp fd s) s' ∧ s'.sent = s.sent ++ left rp fd ∧
      s'.size = i32 (T + (left rp fd).length : Nat) := by
  induction hn : (left rp fd).length using Nat.strong_induction_on generalizing rp fd s T with
  | _ n ih =>
    obtain ⟨hok, hu, hret, hleft⟩ := rioReadnbW_spec h fd MAXLINE
    have hsize' := receive_size hsize hret
    by_cases h0 : left rp fd = []
    · rw [h0, List.take_nil] at hret
      rw [h0, List.take_nil, List.length_nil, Nat.add_zero] at hsize'
      rw [h0, List.length_nil] at hn
      refine ⟨_, ⟨1, if_neg (not_not.2 hret)⟩, ?_, ?_⟩
      · rw [h0, List.append_nil]
        rfl
      · rw [hsize', ← hn, Nat.add_zero]
    · have hpos := List.length_pos_iff.2 h0
      have hmax : 0 < MAXLINE := by decide
      have hsent := write_sent (s := s) (hret.trans (congrArg (fun l => (List.length l : Int)) hu.symm))
      have hround : ∀ m, relayBody rp fd s (m + 1) = relayBody (rioReadnbW rp fd MAXLINE).rp
          (rioReadnbW rp fd MAXLINE).fd ((s.receive (rioReadnbW rp fd MAXLINE)).write
            (rioReadnbW rp fd MAXLINE).ret.toNat) m := by
        intro m
        have hne : (rioReadnbW rp fd MAXLINE).ret ≠ 0 := by
          rw [hret, List.length_take]
          omega
        rw [relayBody]
        exact if_pos hne
      have hlen : (left (rioReadnbW rp fd MAXLINE).rp (rioReadnbW rp fd MAXLINE).fd).length = n - MAXLINE := by
        rw [hleft, List.length_drop, hn]
      obtain ⟨s', ⟨m, hm⟩, hsent', hsize''⟩ := ih (n - MAXLINE) (by omega) hok
        (s := (s.receive (rioReadnbW rp fd MAXLINE)).write (rioReadnbW rp fd MAXLINE).ret.toNat) hsize' hlen
      refine ⟨s', ⟨m + 1, (hround m).trans hm⟩, ?_, ?_⟩
      · rw [hsent', hsent, hu, hleft, List.append_assoc, List.take_append_drop]
      · have hsum : T + min MAXLINE n + (n - MAXLINE) = T + n := by omega
        rw [hsize'', List.length_take, hn, hsum]

/-! ### The headers -/

theorem mono_relayHeaders : Mono (relayHeaders rp fd linesize s) := by
  refine Mono.of_succ fun n => ?_
  induction n generalizing rp fd linesize s with
  | zero => exact nofun
  | succ n ih =>
    intro r hn
    unfold relayHeaders at hn ⊢
    simp only at hn ⊢
    split_ifs at hn ⊢ with h0
    · exact ih r hn
    · exact hn

theorem mono_relay : Mono (relay rioBuf fd buf2) := Mono.bind mono_relayHeaders fun _ => mono_relayBody

/-- The headers of a response that comes in the pieces `ls`. -/
def headerPieces (ls : List (List UInt8)) : List (List UInt8) := ls.takeWhile (· ≠ crlf)

def bodyBytes (ls : List (List UInt8)) : List UInt8 := (ls.dropWhile (· ≠ crlf)).tail.flatten

/-- What the calls of `rio_readlineb` return, up to the CR LF. -/
def readSize : List (List UInt8) → Nat
  | [] => 0
  | l :: ls => lineSize l + if l = crlf then 0 else readSize ls

theorem headerPieces_cons (h : l ≠ crlf) (ls : List (List UInt8)) :
    headerPieces (l :: ls) = l :: headerPieces ls := List.takeWhile_cons_of_pos (by simpa using h)

theorem headerPieces_crlf (ls : List (List UInt8)) : headerPieces (crlf :: ls) = [] := by
  simp [headerPieces]

theorem bodyBytes_cons (h : l ≠ crlf) (ls : List (List UInt8)) : bodyBytes (l :: ls) = bodyBytes ls := by
  rw [bodyBytes, List.dropWhile_cons_of_pos (by simpa using h)]
  rfl

theorem bodyBytes_crlf (ls : List (List UInt8)) : bodyBytes (crlf :: ls) = ls.flatten := by
  simp [bodyBytes]

theorem lineSize_pos (hne : l ≠ []) : 0 < lineSize l := by
  have hpos := List.length_pos_iff.2 hne
  unfold lineSize
  rw [if_neg hne]
  split_ifs <;> omega

/-- What the loop over the headers leaves. -/
structure HeadersDone (s : Relay) (T : Nat) (ls : List (List UInt8)) (r : Headers) : Prop where
  ok : r.rp.Ok
  sent : r.relay.sent = s.sent ++ ((headerPieces ls).map str).flatten
  size : r.relay.size = i32 (T + readSize ls : Nat)
  rest : left r.rp r.fd = bodyBytes ls

theorem relayHeaders_exit (hexit : ¬ (str s.buf2 ≠ crlf ∧ linesize ≠ 0)) :
    relayHeaders rp fd linesize s 1 = .ok ⟨rp, fd, s⟩ := by
  rw [relayHeaders]
  exact if_neg hexit

theorem halts_relayHeaders_crlf (h : rp.Ok) (hls : lines (MAXLINE - 1) (left rp fd) = ls) (hbuf : str s.buf2 = crlf)
    (hsize : s.size = i32 (T + lineSize crlf : Nat)) :
    ∃ r, Halts (relayHeaders rp fd linesize s) r ∧ HeadersDone s T (crlf :: ls) r := by
  have hmax : 0 < MAXLINE - 1 := by decide
  refine ⟨_, ⟨1, relayHeaders_exit fun hc => hc.1 hbuf⟩, h, ?_, ?_, ?_⟩
  · simp [headerPieces_crlf]
  · simpa [readSize] using hsize
  · rw [bodyBytes_crlf, ← hls, flatten_lines hmax]

theorem relayHeaders_succ (hl : l ∈ lines (MAXLINE - 1) bytes) (hc : l ≠ crlf) (hbuf : str s.buf2 = str l) (n : Nat) :
    relayHeaders rp fd (lineSize l) s (n + 1) =
      relayHeaders (rioReadlinebW rp fd MAXLINE).rp (rioReadlinebW rp fd MAXLINE).fd
        (rioReadlinebW rp fd MAXLINE).ret ((s.write (strlen s.buf2)).receive (rioReadlinebW rp fd MAXLINE)) n := by
  have hsize : (lineSize l : Int) ≠ 0 := by
    have := lineSize_pos (of_mem_lines hl).1
    omega
  have hne : str s.buf2 ≠ crlf := by
    rw [hbuf]
    exact fun h1 => hc ((str_eq_crlf_iff hl).1 h1)
  rw [relayHeaders]
  exact if_pos ⟨hne, hsize⟩

/-- **The loop over the headers**, when the piece `l` has been read and `ls` are to come. -/
theorem halts_relayHeaders (h : rp.Ok) (hls : lines (MAXLINE - 1) (left rp fd) = ls)
    (hl : l ∈ lines (MAXLINE - 1) bytes) (hbuf : str s.buf2 = str l)
    (hsize : s.size = i32 (T + lineSize l : Nat)) :
    ∃ r, Halts (relayHeaders rp fd (lineSize l) s) r ∧ HeadersDone s T (l :: ls) r := by
  induction ls generalizing rp fd s l T bytes with
  | nil =>
    by_cases hc : l = crlf
    · rw [hc] at hbuf hsize ⊢
      exact halts_relayHeaders_crlf h hls (hbuf.trans (by decide)) hsize
    · obtain ⟨hok, hu, hret, hleft⟩ := rioReadlinebW_nil h two_le_maxline maxline_le hls
      refine ⟨_, ⟨2, (relayHeaders_succ hl hc hbuf 1).trans (relayHeaders_exit fun hc => hc.2 hret)⟩, hok, ?_, ?_, ?_⟩
      · rw [headerPieces_cons hc]
        simp only [Relay.receive, Relay.write, take_strlen, hbuf]
        simp [headerPieces]
      · have hsize' := receive_size (s := s.write (strlen s.buf2)) hsize (n := 0) hret
        simpa [readSize, hc] using hsize'
      · rw [hleft, bodyBytes_cons hc]
        rfl
  | cons l' ls ih =>
    by_cases hc : l = crlf
    · rw [hc] at hbuf hsize ⊢
      exact halts_relayHeaders_crlf h hls (hbuf.trans (by decide)) hsize
    · obtain ⟨hok, hu, hret, hrest⟩ := rioReadlinebW_cons h two_le_maxline maxline_le hls
      have hsize' := receive_size (s := s.write (strlen s.buf2)) hsize hret
      have hbuf' : str ((s.write (strlen s.buf2)).receive (rioReadlinebW rp fd MAXLINE)).buf2 = str l' := by
        simp only [Relay.receive, hu]
        exact str_overwrite
      obtain ⟨r, ⟨n, hn⟩, hdone⟩ := ih hok hrest (hls ▸ List.mem_cons_self) hbuf' hsize'
      rw [← hret, ← relayHeaders_succ hl hc hbuf n] at hn
      refine ⟨r, ⟨n + 1, hn⟩, hdone.ok, ?_, ?_, ?_⟩
      · rw [hdone.sent, headerPieces_cons hc]
        simp only [Relay.receive, Relay.write, take_strlen, hbuf, List.map_cons, List.flatten_cons, List.append_assoc]
      · have hsum : T + lineSize l + readSize (l' :: ls) = T + readSize (l :: l' :: ls) := by
          rw [readSize.eq_2 l, if_neg hc, Nat.add_assoc]
        rw [hdone.size, hsum]
      · rw [hdone.rest, bodyBytes_cons hc]

/-! ### The response -/

/-- **The response** ends, whatever the origin sends. -/
theorem halts_relay (rioBuf : List UInt8) (fd : Fd) (buf2 : List UInt8)
    (hls : lines (MAXLINE - 1) (Rio.rest fd) = ls) :
    ∃ r, Halts (relay rioBuf fd buf2) r ∧ r.sent = ((headerPieces ls).map str).flatten ++ crlf ++ bodyBytes ls ∧
      r.size = i32 (readSize ls + (bodyBytes ls).length : Nat) := by
  have hok : (rioReadinitb rioBuf).Ok := Nat.zero_le _
  rw [← left_rioReadinitb rioBuf fd] at hls
  obtain ⟨r, hr, hdone⟩ : ∃ r, Halts (relayHeaders (rioReadlinebW (rioReadinitb rioBuf) fd MAXLINE).rp
      (rioReadlinebW (rioReadinitb rioBuf) fd MAXLINE).fd (rioReadlinebW (rioReadinitb rioBuf) fd MAXLINE).ret
      (Relay.receive ⟨buf2, 0, []⟩ (rioReadlinebW (rioReadinitb rioBuf) fd MAXLINE))) r ∧
      HeadersDone ⟨buf2, 0, []⟩ 0 ls r := by
    cases ls with
    | nil =>
      obtain ⟨hok', hu, hret, hleft⟩ := rioReadlinebW_nil hok two_le_maxline maxline_le hls
      refine ⟨_, ⟨1, relayHeaders_exit fun hc => hc.2 hret⟩, hok', rfl, ?_, hleft⟩
      exact receive_size (s := ⟨buf2, 0, []⟩) (T := 0) rfl hret
    | cons l ls =>
      obtain ⟨hok', hu, hret, hrest⟩ := rioReadlinebW_cons hok two_le_maxline maxline_le hls
      rw [hret]
      have hbuf : str (overwrite buf2 (rioReadlinebW (rioReadinitb rioBuf) fd MAXLINE).usrbuf) = str l := by
        rw [hu, str_overwrite]
      obtain ⟨r, hr, hdone⟩ := halts_relayHeaders (s := Relay.receive ⟨buf2, 0, []⟩ _) hok' hrest
        (hls ▸ List.mem_cons_self) hbuf (receive_size (s := ⟨buf2, 0, []⟩) (T := 0) rfl hret)
      exact ⟨r, hr, hdone.ok, hdone.sent, hdone.size, hdone.rest⟩
  obtain ⟨s', hs', hsent, hsize⟩ := halts_relayBody (s := { r.relay with sent := r.relay.sent ++ crlf }) hdone.ok
    hdone.size
  refine ⟨s', (halts_bind mono_relayHeaders fun _ => mono_relayBody).2 ⟨r, hr, hs'⟩, ?_, ?_⟩
  · rw [hsent, hdone.rest, hdone.sent]
    rfl
  · rw [hsize, hdone.rest, Nat.zero_add]

/-! ### The pieces -/

/-- A header line that goes through the loop as it is. -/
structure HeaderLine (l : List UInt8) : Prop where
  newline : ∃ t, l = t ++ [10] ∧ 10 ∉ t
  room : l.length ≤ MAXLINE - 1
  text : 0 ∉ l
  ne_crlf : l ≠ crlf

/-- Header lines, the blank line, and a body. -/
def IsResponse (bytes : List UInt8) : Prop :=
  ∃ (hs : List (List UInt8)) (body : List UInt8), bytes = hs.flatten ++ crlf ++ body ∧ ∀ l ∈ hs, HeaderLine l

theorem lines_response (hhs : ∀ l ∈ hs, HeaderLine l) (body : List UInt8) :
    lines (MAXLINE - 1) (hs.flatten ++ crlf ++ body) = hs ++ crlf :: lines (MAXLINE - 1) body := by
  induction hs with
  | nil => exact @lines_line _ body [13] (by decide) (by decide)
  | cons l hs ih =>
    obtain ⟨⟨t, rfl, h10⟩, hroom, -, -⟩ := hhs l List.mem_cons_self
    rw [List.length_append, List.length_singleton] at hroom
    have hsplit : ((t ++ [10]) :: hs).flatten ++ crlf ++ body = t ++ 10 :: (hs.flatten ++ crlf ++ body) := by simp
    rw [hsplit, lines_line h10 (Nat.lt_of_succ_le hroom), ih fun l hl => hhs l (List.mem_cons_of_mem _ hl)]
    rfl

theorem pieces_append (hc : crlf ∉ hs) (ls : List (List UInt8)) :
    headerPieces (hs ++ crlf :: ls) = hs ∧ bodyBytes (hs ++ crlf :: ls) = ls.flatten ∧
      readSize (hs ++ crlf :: ls) = (hs.map lineSize).sum + crlf.length := by
  induction hs with
  | nil => exact ⟨headerPieces_crlf ls, bodyBytes_crlf ls, by simp [readSize]; decide⟩
  | cons l hs ih =>
    rw [List.mem_cons, not_or] at hc
    have hne : l ≠ crlf := Ne.symm hc.1
    obtain ⟨h1, h2, h3⟩ := ih hc.2
    refine ⟨?_, ?_, ?_⟩
    · rw [List.cons_append, headerPieces_cons hne, h1]
    · rw [List.cons_append, bodyBytes_cons hne, h2]
    · rw [List.cons_append, readSize, if_neg hne, h3, List.map_cons, List.sum_cons, Nat.add_assoc]

theorem headerPieces_eq (hc : crlf ∉ ls) : headerPieces ls = ls := by
  refine List.takeWhile_eq_self_iff.2 fun l hl => ?_
  simpa using fun h : l = crlf => hc (h ▸ hl)

theorem bodyBytes_eq (hc : crlf ∉ ls) : bodyBytes ls = [] := by
  have hdrop : ls.dropWhile (· ≠ crlf) = [] :=
    List.dropWhile_eq_nil_iff.2 fun l hl => by simpa using fun h : l = crlf => hc (h ▸ hl)
  rw [bodyBytes, hdrop]
  rfl

/-- A piece without a newline is counted with one byte too many. -/
theorem sum_lineSize (hne : ∀ l ∈ hs, l ≠ []) :
    (hs.map lineSize).sum = hs.flatten.length + hs.countP (fun l => l.getLast? ≠ some 10) ∧
      hs.countP (fun l => l.getLast? ≠ some 10) ≤ hs.flatten.length := by
  induction hs with
  | nil => exact ⟨rfl, le_rfl⟩
  | cons l hs ih =>
    obtain ⟨h1, h2⟩ := ih fun l hl => hne l (List.mem_cons_of_mem _ hl)
    have hl := hne l List.mem_cons_self
    have hpos := List.length_pos_iff.2 hl
    rw [List.map_cons, List.sum_cons, h1, List.flatten_cons, List.length_append, List.countP_cons, lineSize, if_neg hl]
    by_cases hlast : l.getLast? = some 10
    · rw [if_pos hlast, if_neg (by simpa using hlast)]
      omega
    · rw [if_neg hlast, if_pos (by simpa using hlast)]
      omega

theorem zero_not_mem_strs (hs : List (List UInt8)) : 0 ∉ (hs.map str).flatten := by
  intro h0
  obtain ⟨l, hl, h0⟩ := List.mem_flatten.1 h0
  obtain ⟨l', -, rfl⟩ := List.mem_map.1 hl
  exact zero_not_mem_str l' h0

theorem map_str_flatten_iff : (hs.map str).flatten = hs.flatten ↔ 0 ∉ hs.flatten := by
  constructor
  · intro h
    rw [← h]
    exact zero_not_mem_strs hs
  · exact Proxy.flatten_map_str

/-- What is written is the stream exactly when a blank line comes behind headers without a zero byte. -/
theorem sent_iff (hls : lines (MAXLINE - 1) bytes = ls) :
    ((headerPieces ls).map str).flatten ++ crlf ++ bodyBytes ls = bytes ↔
      ∃ hs rest, ls = hs ++ crlf :: rest ∧ crlf ∉ hs ∧ 0 ∉ hs.flatten := by
  have hmax : 0 < MAXLINE - 1 := by decide
  have hbytes : ls.flatten = bytes := hls ▸ flatten_lines hmax bytes
  constructor
  · intro h
    by_cases hc : crlf ∈ ls
    · obtain ⟨hs, rest, rfl, hnot⟩ := List.eq_append_cons_of_mem hc
      obtain ⟨h1, h2, -⟩ := pieces_append hnot rest
      refine ⟨hs, rest, rfl, hnot, ?_⟩
      rw [h1, h2, ← hbytes, List.flatten_append, List.flatten_cons, ← List.append_assoc, List.append_left_inj,
        List.append_left_inj] at h
      exact map_str_flatten_iff.1 h
    · -- the written CR LF is one too many: what comes before it has no zero byte and is not cut
      rw [headerPieces_eq hc, bodyBytes_eq hc, List.append_nil, ← hbytes] at h
      have h0 : 0 ∉ ls.flatten := by
        rw [← h, List.mem_append, not_or]
        exact ⟨zero_not_mem_strs ls, by decide⟩
      rw [map_str_flatten_iff.2 h0] at h
      exact absurd (List.append_right_eq_self.1 h) (by decide)
  · rintro ⟨hs, rest, rfl, hnot, h0⟩
    obtain ⟨h1, h2, -⟩ := pieces_append hnot rest
    rw [h1, h2, map_str_flatten_iff.2 h0, ← hbytes, List.flatten_append, List.flatten_cons, List.append_assoc]

theorem size_iff (hls : lines (MAXLINE - 1) bytes = hs ++ crlf :: rest) (hnot : crlf ∉ hs) :
    i32 (readSize (hs ++ crlf :: rest) + (bodyBytes (hs ++ crlf :: rest)).length : Nat) = bytes.length ↔
      (∀ l ∈ hs, l.getLast? = some 10) ∧ bytes.length < 2 ^ 31 := by
  have hmax : 0 < MAXLINE - 1 := by decide
  have hlen : bytes.length = hs.flatten.length + (crlf.length + rest.flatten.length) := by
    rw [← flatten_lines hmax bytes, hls, List.flatten_append, List.flatten_cons, List.length_append,
      List.length_append]
  obtain ⟨hsum, hle⟩ := sum_lineSize fun l hl =>
    (of_mem_lines (hls ▸ List.mem_append_left _ hl : l ∈ lines (MAXLINE - 1) bytes)).1
  obtain ⟨-, h2, h3⟩ := pieces_append hnot rest
  have hall : (∀ l ∈ hs, l.getLast? = some 10) ↔ hs.countP (fun l => l.getLast? ≠ some 10) = 0 := by
    simp [List.countP_eq_zero]
  rw [h2, h3, hall, hsum]
  generalize hs.countP (fun l => l.getLast? ≠ some 10) = extra at hle
  have htotal : hs.flatten.length + extra + crlf.length + rest.flatten.length = bytes.length + extra := by omega
  rw [htotal]
  have hmod := i32_emod (bytes.length + extra : Nat)
  obtain ⟨hlo, hhi⟩ := i32_range (bytes.length + extra : Nat)
  constructor
  · intro h
    omega
  · rintro ⟨rfl, hlt⟩
    exact i32_natCast hlt

/-- **The archived proxies** relay a response unchanged, and log its length, exactly when it has header lines
that fit, a blank line, and a length that is an `int`. -/
theorem relays_iff (rioBuf : List UInt8) (fd : Fd) (buf2 : List UInt8) :
    (∃ r, Halts (relay rioBuf fd buf2) r ∧ r.sent = Rio.rest fd ∧ r.size = (Rio.rest fd).length) ↔
      IsResponse (Rio.rest fd) ∧ (Rio.rest fd).length < 2 ^ 31 := by
  obtain ⟨r, hr, hsent, hsize⟩ := halts_relay rioBuf fd buf2 rfl
  constructor
  · rintro ⟨r', hr', hsent', hsize'⟩
    obtain rfl := Halts.unique mono_relay hr hr'
    obtain ⟨hs, rest, hls, hnot, h0⟩ := (sent_iff rfl).1 (hsent.symm.trans hsent')
    rw [hls, hsize'] at hsize
    obtain ⟨hlast, hlt⟩ := (size_iff hls hnot).1 hsize.symm
    refine ⟨⟨hs, rest.flatten, ?_, fun l hl => ?_⟩, hlt⟩
    · have hmax : 0 < MAXLINE - 1 := by decide
      rw [← flatten_lines hmax (Rio.rest fd), hls, List.flatten_append, List.flatten_cons, List.append_assoc]
    · have hmem : l ∈ lines (MAXLINE - 1) (Rio.rest fd) := hls ▸ List.mem_append_left _ hl
      obtain ⟨-, bytes, hnext⟩ := of_mem_lines hmem
      obtain ⟨t, rfl⟩ := List.getLast?_eq_some_iff.1 (hlast l hl)
      refine ⟨⟨t, rfl, fun h10 => ?_⟩, ?_, ?_, ?_⟩
      · obtain ⟨a, b, rfl⟩ := List.append_of_mem h10
        rw [List.append_assoc, List.cons_append] at hnext
        exact List.append_ne_nil_of_right_ne_nil b (List.cons_ne_nil 10 []) (nextLine_eq_append hnext.symm)
      · rw [hnext]
        exact (length_nextLine_le_iff _ _).2 (.inl le_rfl)
      · exact fun hz => h0 (List.mem_flatten.2 ⟨_, hl, hz⟩)
      · rintro heq
        exact hnot (heq ▸ hl)
  · rintro ⟨⟨hs, body, hbytes, hhs⟩, hlt⟩
    have hls : lines (MAXLINE - 1) (Rio.rest fd) = hs ++ crlf :: lines (MAXLINE - 1) body :=
      hbytes ▸ lines_response hhs body
    have hnot : crlf ∉ hs := fun hc => (hhs _ hc).ne_crlf rfl
    have h0 : 0 ∉ hs.flatten := by
      rintro h0
      obtain ⟨l, hl, hz⟩ := List.mem_flatten.1 h0
      exact (hhs l hl).text hz
    have hlast : ∀ l ∈ hs, l.getLast? = some 10 := by
      intro l hl
      obtain ⟨t, rfl, -⟩ := (hhs l hl).newline
      exact List.getLast?_concat
    refine ⟨r, hr, hsent.trans ((sent_iff rfl).2 ⟨hs, _, hls, hnot, h0⟩), ?_⟩
    rw [hsize, hls]
    exact (size_iff hls hnot).2 ⟨hlast, hlt⟩

/-- An origin that closes behind one header line: the client gets a blank line that nobody sent. -/
theorem response_changed : ¬ ∃ r, Halts (relay [] [.chunk (ascii "A: b\r\n") (by decide) (by decide)] []) r ∧
    r.sent = Rio.rest [.chunk (ascii "A: b\r\n") (by decide) (by decide)] ∧
    r.size = (Rio.rest [.chunk (ascii "A: b\r\n") (by decide) (by decide)]).length := by
  have hls : lines (MAXLINE - 1) (Rio.rest [.chunk (ascii "A: b\r\n") (by decide) (by decide)]) =
      [ascii "A: b\r" ++ [10]] := by
    have hrest : Rio.rest [.chunk (ascii "A: b\r\n") (by decide) (by decide)] = ascii "A: b\r" ++ 10 :: [] := by
      decide
    rw [hrest, lines_line (by decide) (by decide), lines_nil]
  rintro ⟨r, hr, hsent, -⟩
  obtain ⟨r', hr', hsent', -⟩ := halts_relay [] [.chunk (ascii "A: b\r\n") (by decide) (by decide)] [] hls
  obtain rfl := Halts.unique mono_relay hr hr'
  rw [hsent] at hsent'
  exact absurd hsent' (by decide)

end CsappLab.Arc
