import CsappLab.Proxy.Uri
import CsappLab.Rio.Lines
import CsappLab.Lib.Fuel

/-!
# What the proxy sends to the origin

The first half of `connect_to_server`: the texts of the request line and of the proxy's own headers, and the
client's headers, line by line, up to a line that is CR LF. A line is left out when it contains one of four words
anywhere. The test of the loop looks at the buffer only, which at the end of the stream keeps the last
line.
-/

namespace CsappLab.Proxy
open CStr Rio Fuel

def MAXLINE : Nat := 8192

def crlf : List UInt8 := ascii "\r\n"

def userAgentHdr : List UInt8 :=
  ascii "User-Agent: Mozilla/5.0 (X11; Linux x86_64; rv:10.0.3) Gecko/20120305 Firefox/10.0.3\r\n"

def requestLine (newUri : List UInt8) : List UInt8 := ascii "GET " ++ newUri ++ ascii " HTTP/1.0\r\n"

def ownHeaders (host : List UInt8) : List (List UInt8) :=
  [ascii "Host: " ++ host ++ ascii "\r\n", userAgentHdr, ascii "Connection: close\r\n",
    ascii "Proxy-Connection: close\r\n"]

/-- One of the four calls of `strstr` finds something. -/
def skips (line : List UInt8) : Bool :=
  (strstr line (ascii "Host")).isSome || (strstr line (ascii "User-Agent")).isSome ||
    (strstr line (ascii "Connection")).isSome || (strstr line (ascii "Proxy-Connection")).isSome

/-- The loop over the client's headers does not end. -/
inductive Stuck
  | endlessLoop
deriving DecidableEq, Repr

/-- The loop, with what `buf_client` holds; the result are the lines it sends. -/
def headerLoop (rp : RioT) (fd : Fd) (buf : List UInt8) : Nat → Except Stuck (List (List UInt8))
  | 0 => .error .endlessLoop
  | fuel + 1 =>
    if str buf ≠ crlf then do
      let r := rioReadlineb rp fd MAXLINE
      let sent ← headerLoop r.rp r.fd (overwrite buf r.usrbuf) fuel
      .ok ((if skips (str buf) then [] else [str buf]) ++ sent)
    else .ok []

/-- The loop and the call of `Rio_readlineb` in front of it. -/
def sendHeaders (rp : RioT) (fd : Fd) (buf : List UInt8) (fuel : Nat) : Except Stuck (List (List UInt8)) :=
  let r := rioReadlineb rp fd MAXLINE
  headerLoop r.rp r.fd (overwrite buf r.usrbuf) fuel

variable {rp : RioT} {fd : Fd} {buf l : List UInt8} {ls sent : List (List UInt8)}

/-! ### The loop -/

/-- What the loop sends of the strings that come into its buffer: those before the CR LF, without the
lines that it skips. -/
def forwarded (strings : List (List UInt8)) : List (List UInt8) :=
  (strings.takeWhile (· ≠ crlf)).filter fun line => !skips line

theorem forwarded_crlf (strings : List (List UInt8)) : forwarded (crlf :: strings) = [] := by
  simp [forwarded]

theorem forwarded_cons (h : l ≠ crlf) (strings : List (List UInt8)) :
    forwarded (l :: strings) = (if skips l then [] else [l]) ++ forwarded strings := by
  unfold forwarded
  rw [List.takeWhile_cons_of_pos (by simpa using h), List.filter_cons]
  cases skips l <;> simp

theorem two_le_maxline : 2 ≤ MAXLINE := by decide

theorem maxline_le : MAXLINE ≤ 2 ^ 31 := by decide

theorem headerLoop_eof (h : rp.Ok) (he : lines (MAXLINE - 1) (left rp fd) = []) (hbuf : str buf ≠ crlf) (n : Nat) :
    headerLoop rp fd buf n = .error .endlessLoop := by
  induction n generalizing rp fd with
  | zero => rfl
  | succ n ih =>
    obtain ⟨hok, -, hu, hl⟩ := rioReadlineb_nil h two_le_maxline maxline_le he
    unfold headerLoop
    rw [if_pos hbuf]
    simp only [hu, overwrite_nil]
    rw [ih hok hl]
    rfl

theorem mono_headerLoop : Mono (headerLoop rp fd buf) := by
  refine Mono.of_succ fun n => ?_
  induction n generalizing rp fd buf with
  | zero => intro _ hn; cases hn
  | succ n ih =>
    intro sent hn
    unfold headerLoop at hn ⊢
    by_cases hbuf : str buf ≠ crlf
    · rw [if_pos hbuf] at hn ⊢
      simp only [] at hn ⊢
      rcases hs : headerLoop _ _ _ n with e | sent'
      · rw [hs] at hn
        cases hn
      · rw [hs] at hn
        rwa [ih _ hs]
    · rwa [if_neg hbuf] at hn ⊢

theorem halts_headerLoop_crlf (hbuf : str buf = crlf) : Halts (headerLoop rp fd buf) sent ↔ sent = [] := by
  rw [halts_succ (f := headerLoop rp fd buf) (e := .endlessLoop) rfl]
  have hend : (fun n => headerLoop rp fd buf (n + 1)) = fun _ => .ok [] := funext fun n => if_neg (not_not.2 hbuf)
  rw [hend, halts_const, Except.ok.injEq, eq_comm]

theorem halts_headerLoop_next (hbuf : str buf ≠ crlf) : Halts (headerLoop rp fd buf) sent ↔
    ∃ sent', Halts (headerLoop (rioReadlineb rp fd MAXLINE).rp (rioReadlineb rp fd MAXLINE).fd
        (overwrite buf (rioReadlineb rp fd MAXLINE).usrbuf)) sent' ∧
      sent = (if skips (str buf) then [] else [str buf]) ++ sent' := by
  rw [halts_succ (f := headerLoop rp fd buf) (e := .endlessLoop) rfl]
  have hround : (fun n => headerLoop rp fd buf (n + 1)) = fun n =>
      headerLoop (rioReadlineb rp fd MAXLINE).rp (rioReadlineb rp fd MAXLINE).fd
        (overwrite buf (rioReadlineb rp fd MAXLINE).usrbuf) n >>= fun sent =>
          .ok ((if skips (str buf) then [] else [str buf]) ++ sent) := funext fun n => if_pos hbuf
  rw [hround, halts_bind mono_headerLoop fun _ => .const _]
  simp only [halts_const, Except.ok.injEq, eq_comm]

/-- **The loop** ends when a CR LF comes, and then it has sent the lines before. -/
theorem halts_headerLoop_iff (h : rp.Ok) (hls : lines (MAXLINE - 1) (left rp fd) = ls) :
    Halts (headerLoop rp fd buf) sent ↔
      crlf ∈ str buf :: ls.map str ∧ sent = forwarded (str buf :: ls.map str) := by
  induction ls generalizing rp fd buf sent with
  | nil =>
    by_cases hbuf : str buf = crlf
    · rw [halts_headerLoop_crlf hbuf, hbuf, forwarded_crlf]
      simp
    · refine iff_of_false ?_ fun hc => ?_
      · rintro ⟨n, hn⟩
        rw [headerLoop_eof h hls hbuf] at hn
        cases hn
      · exact hbuf (List.mem_singleton.1 hc.1).symm
  | cons l ls ih =>
    by_cases hbuf : str buf = crlf
    · rw [halts_headerLoop_crlf hbuf, hbuf, forwarded_crlf]
      simp
    · obtain ⟨hok, -, hu, hrest⟩ := rioReadlineb_cons h two_le_maxline maxline_le hls
      rw [halts_headerLoop_next hbuf, forwarded_cons hbuf, List.mem_cons, List.map_cons]
      simp only [ih hok hrest, hu, str_overwrite]
      constructor
      · rintro ⟨sent', ⟨hc, rfl⟩, hs⟩
        exact ⟨.inr hc, hs⟩
      · rintro ⟨hc, hs⟩
        exact ⟨_, ⟨hc.resolve_left fun h1 => hbuf h1.symm, rfl⟩, hs⟩

theorem halts_sendHeaders_iff (h : rp.Ok) (hbuf : str buf ≠ crlf) :
    Halts (sendHeaders rp fd buf) sent ↔ crlf ∈ (lines (MAXLINE - 1) (left rp fd)).map str ∧
      sent = forwarded ((lines (MAXLINE - 1) (left rp fd)).map str) := by
  obtain ⟨hok, hread⟩ := rioReadlineb_reads h fd two_le_maxline maxline_le
  unfold sendHeaders
  simp only []
  cases hread with
  | eof he _ hu hl =>
    rw [halts_headerLoop_iff hok hl, hu, overwrite_nil, he]
    simp [hbuf.symm]
  | line hl _ hu _ hrest =>
    rw [halts_headerLoop_iff hok hrest, hu, str_overwrite, hl, List.map_cons]

theorem mono_sendHeaders : Mono (sendHeaders rp fd buf) := mono_headerLoop

theorem str_eq_crlf_iff {room : Nat} {bytes : List UInt8} (h : l ∈ lines room bytes) : str l = crlf ↔ l = crlf := by
  constructor
  · intro hs
    obtain ⟨t, ht⟩ : str l <+: l := List.takeWhile_prefix _
    obtain ⟨-, rest, hrest⟩ := of_mem_lines h
    rw [hs, show crlf = [13, 10] by decide] at ht
    have ht0 : t = [] := nextLine_eq_append (a := [13]) (hrest ▸ ht.symm)
    rw [ht0] at ht
    exact ht.symm
  · rintro rfl
    decide

theorem crlf_mem_iff (room : Nat) (bytes : List UInt8) :
    crlf ∈ (lines room bytes).map str ↔ crlf ∈ lines room bytes := by
  constructor
  · intro hc
    obtain ⟨l, hl, hs⟩ := List.mem_map.1 hc
    exact (str_eq_crlf_iff hl).1 hs ▸ hl
  · intro hc
    exact List.mem_map.2 ⟨crlf, hc, by decide⟩

/-- **Ends and copies.** For every stream that the client sends, the loop ends and sends every line at most
once exactly when one of the lines is CR LF. -/
theorem headers_end_iff (h : rp.Ok) (fd : Fd) (buf : List UInt8) :
    (∃ sent, Halts (sendHeaders rp fd (strcpy buf (ascii "Proxy-Connection: close\r\n"))) sent ∧
      sent.Sublist ((lines (MAXLINE - 1) (left rp fd)).map str)) ↔
    crlf ∈ lines (MAXLINE - 1) (left rp fd) := by
  have hbuf : str (strcpy buf (ascii "Proxy-Connection: close\r\n")) ≠ crlf := by
    rw [str_strcpy]
    decide
  rw [← crlf_mem_iff]
  constructor
  · rintro ⟨sent, hs, -⟩
    exact ((halts_sendHeaders_iff h hbuf).1 hs).1
  · intro hc
    refine ⟨_, (halts_sendHeaders_iff h hbuf).2 ⟨hc, rfl⟩, ?_⟩
    exact List.filter_sublist.trans (List.takeWhile_prefix _).sublist

theorem headers_end_iff_blank :
    let fd : Fd := [.chunk (ascii "A: b\r\n\r\n") (by decide) (by decide)]
    (∃ sent, Halts (sendHeaders (rioReadinitb []) fd (strcpy [] (ascii "Proxy-Connection: close\r\n"))) sent ∧
      sent.Sublist ((lines (MAXLINE - 1) (left (rioReadinitb []) fd)).map str)) ↔
    crlf ∈ lines (MAXLINE - 1) (left (rioReadinitb []) fd) :=
  headers_end_iff (rioReadinitb_ok []) _ []

/-- A client that closes its side after the line `A: b` keeps the proxy busy for ever. -/
theorem truncated_request : ¬ ∀ fd : Fd, ∃ sent,
    Halts (sendHeaders (rioReadinitb []) fd (strcpy [] (ascii "Proxy-Connection: close\r\n"))) sent ∧
      sent.Sublist ((lines (MAXLINE - 1) (left (rioReadinitb []) fd)).map str) := by
  intro hall
  obtain ⟨sent, hhalts, -⟩ := hall [.chunk (ascii "A: b\r\n") (by decide) (by decide)]
  have hleft : left (rioReadinitb []) [.chunk (ascii "A: b\r\n") (by decide) (by decide)] =
      ascii "A: b\r" ++ 10 :: [] := by decide
  rw [halts_sendHeaders_iff (rioReadinitb_ok []) (by decide), hleft,
    lines_line (by decide) (by decide), lines_nil] at hhalts
  exact absurd hhalts.1 (by decide)

end CsappLab.Proxy
