import CsappLab.Arc.Rio
import CsappLab.Proxy.Request

/-!
# The request of the archived proxies

The first half of `proxy_client`: the request line and the client's headers are collected in
`requestblock`, an array of `MAXLINE` bytes, with `strcat`. The loop looks at `buf1` only, which at the end
of the stream keeps the last line, and nothing looks at the room that is left.
-/

namespace CsappLab.Arc

open CStr Rio Fuel
open Proxy (MAXLINE crlf crlf_mem_iff two_le_maxline maxline_le)

/-- Why there is no result: the loop does not end, or `strcat` leaves the array. -/
inductive RequestFault
  | endlessLoop
  | overflow
deriving DecidableEq

/-- `strcat(requestblock, src)`, on the string in `requestblock`. -/
def addTo (requestblock src : List UInt8) : Except RequestFault (List UInt8) :=
  if (requestblock ++ str src).length < MAXLINE then .ok (requestblock ++ str src) else .error .overflow

/-- Both calls of `strstr` find nothing. -/
def keeps (line : List UInt8) : Bool :=
  (strstr line (ascii "Connection:")).isNone && (strstr line (ascii "Proxy-Connection:")).isNone

/-- The body of the loop in front of the next call of `Rio_readlineb_w`. -/
def addLine (requestblock buf1 : List UInt8) : Except RequestFault (List UInt8) :=
  if keeps (str buf1) then addTo requestblock buf1 else .ok requestblock

def headerLoop (rp : RioT) (fd : Fd) (buf1 requestblock : List UInt8) : Nat → Except RequestFault (List UInt8)
  | 0 => .error .endlessLoop
  | fuel + 1 =>
    if str buf1 ≠ crlf then do
      let requestblock ← addLine requestblock buf1
      let r := rioReadlinebW rp fd MAXLINE
      headerLoop r.rp r.fd (overwrite buf1 r.usrbuf) requestblock fuel
    else .ok requestblock

def closeHeaders : List UInt8 := ascii "Connection: close\r\nProxy-Connection: close\r\n\r\n"

/-- `requestblock` when it is sent; `buf` is the request line, and `buf1` is not initialised. -/
def requestBlock (rp : RioT) (fd : Fd) (buf buf1 : List UInt8) (fuel : Nat) :
    Except RequestFault (List UInt8) := do
  let requestblock ← addTo [] buf
  let r := rioReadlinebW rp fd MAXLINE
  let requestblock ← headerLoop r.rp r.fd (overwrite buf1 r.usrbuf) requestblock fuel
  addTo requestblock closeHeaders

variable {rp : RioT} {fd : Fd} {buf buf1 block b l s : List UInt8} {ls : List (List UInt8)}

/-- What the loop adds of the strings that come into its buffer. -/
def kept (strings : List (List UInt8)) : List (List UInt8) := (strings.takeWhile (· ≠ crlf)).filter keeps

theorem kept_crlf (strings : List (List UInt8)) : kept (crlf :: strings) = [] := by
  simp [kept]

theorem kept_cons (h : s ≠ crlf) (strings : List (List UInt8)) :
    kept (s :: strings) = (if keeps s then [s] else []) ++ kept strings := by
  unfold kept
  rw [List.takeWhile_cons_of_pos (by simpa using h), List.filter_cons]
  cases keeps s <;> simp

theorem addTo_eq_ok (src : List UInt8) :
    addTo block src = .ok b ↔ b = block ++ str src ∧ b.length < MAXLINE := by
  unfold addTo
  split_ifs with hlt
  · rw [Except.ok.injEq]
    constructor
    · rintro rfl
      exact ⟨rfl, hlt⟩
    · exact fun h => h.1.symm
  · refine iff_of_false nofun ?_
    rintro ⟨rfl, hb⟩
    exact hlt hb

theorem addLine_eq_ok (hb : block.length < MAXLINE) :
    addLine block buf1 = .ok b ↔
      b = block ++ (if keeps (str buf1) then [str buf1] else []).flatten ∧ b.length < MAXLINE := by
  unfold addLine
  cases keeps (str buf1)
  · simp only [Bool.false_eq_true, if_false, List.flatten_nil, List.append_nil, Except.ok.injEq]
    constructor
    · rintro rfl
      exact ⟨rfl, hb⟩
    · exact fun h => h.1.symm
  · simp only [if_true, List.flatten_singleton]
    exact addTo_eq_ok buf1

/-! ### The loop -/

theorem headerLoop_eof (h : rp.Ok) (he : lines (MAXLINE - 1) (left rp fd) = []) (hbuf : str buf1 ≠ crlf) (n : Nat) :
    headerLoop rp fd buf1 block n ≠ .ok b := by
  induction n generalizing rp fd block with
  | zero => exact nofun
  | succ n ih =>
    obtain ⟨hok, hu, -, hleft⟩ := rioReadlinebW_nil h two_le_maxline maxline_le he
    intro hn
    unfold headerLoop at hn
    rw [if_pos hbuf] at hn
    obtain ⟨block', -, hn⟩ := bind_eq_ok.1 hn
    simp only [hu, overwrite_nil] at hn
    exact ih hok (by rw [hleft, lines_nil]) hn

theorem halts_headerLoop_next (hb : block.length < MAXLINE) (hbuf : str buf1 ≠ crlf) :
    Halts (headerLoop rp fd buf1 block) b ↔
      (block ++ (if keeps (str buf1) then [str buf1] else []).flatten).length < MAXLINE ∧
      Halts (headerLoop (rioReadlinebW rp fd MAXLINE).rp (rioReadlinebW rp fd MAXLINE).fd
        (overwrite buf1 (rioReadlinebW rp fd MAXLINE).usrbuf)
        (block ++ (if keeps (str buf1) then [str buf1] else []).flatten)) b := by
  rw [halts_succ (f := headerLoop rp fd buf1 block) (e := .endlessLoop) rfl]
  constructor
  · rintro ⟨n, hn⟩
    simp only [headerLoop, if_pos hbuf] at hn
    obtain ⟨block', hkeep, hn⟩ := bind_eq_ok.1 hn
    obtain ⟨rfl, hlt⟩ := (addLine_eq_ok hb).1 hkeep
    exact ⟨hlt, n, hn⟩
  · rintro ⟨hlt, n, hn⟩
    refine ⟨n, ?_⟩
    simp only [headerLoop, if_pos hbuf]
    exact bind_eq_ok.2 ⟨_, (addLine_eq_ok hb).2 ⟨rfl, hlt⟩, hn⟩

theorem halts_headerLoop_crlf (hbuf : str buf1 = crlf) : Halts (headerLoop rp fd buf1 block) b ↔ b = block := by
  rw [halts_succ (f := headerLoop rp fd buf1 block) (e := .endlessLoop) rfl]
  have hend : (fun n => headerLoop rp fd buf1 block (n + 1)) = fun _ => .ok block :=
    funext fun n => if_neg (not_not.2 hbuf)
  rw [hend, halts_const, Except.ok.injEq, eq_comm]

/-- **The loop** ends when a CR LF comes and what it keeps before that fits. -/
theorem halts_headerLoop_iff (h : rp.Ok) (hls : lines (MAXLINE - 1) (left rp fd) = ls)
    (hb : block.length < MAXLINE) :
    Halts (headerLoop rp fd buf1 block) b ↔ crlf ∈ str buf1 :: ls.map str ∧
      b = block ++ (kept (str buf1 :: ls.map str)).flatten ∧ b.length < MAXLINE := by
  induction ls generalizing rp fd buf1 block with
  | nil =>
    by_cases hbuf : str buf1 = crlf
    · rw [halts_headerLoop_crlf hbuf, hbuf, kept_crlf, List.flatten_nil, List.append_nil]
      exact ⟨fun hbl => ⟨List.mem_cons_self, hbl, hbl ▸ hb⟩, fun hc => hc.2.1⟩
    · refine iff_of_false ?_ fun hc => ?_
      · rintro ⟨n, hn⟩
        exact headerLoop_eof h hls hbuf n hn
      · exact hbuf (List.mem_singleton.1 hc.1).symm
  | cons l ls ih =>
    by_cases hbuf : str buf1 = crlf
    · rw [halts_headerLoop_crlf hbuf, hbuf, kept_crlf, List.flatten_nil, List.append_nil]
      exact ⟨fun hbl => ⟨List.mem_cons_self, hbl, hbl ▸ hb⟩, fun hc => hc.2.1⟩
    · obtain ⟨hok, hu, -, hrest⟩ := rioReadlinebW_cons h two_le_maxline maxline_le hls
      rw [halts_headerLoop_next hb hbuf, kept_cons hbuf, List.mem_cons, List.map_cons, List.flatten_append,
        ← List.append_assoc]
      constructor
      · rintro ⟨hlt, hhalts⟩
        rw [ih hok hrest hlt, hu, str_overwrite] at hhalts
        exact ⟨.inr hhalts.1, hhalts.2⟩
      · rintro ⟨hc, hbl, hlen⟩
        have hlt : (block ++ (if keeps (str buf1) then [str buf1] else []).flatten).length < MAXLINE := by
          rw [hbl, List.length_append] at hlen
          omega
        refine ⟨hlt, ?_⟩
        rw [ih hok hrest hlt, hu, str_overwrite]
        exact ⟨hc.resolve_left fun h1 => hbuf h1.symm, hbl, hlen⟩

/-- The request fits: the request line, what is kept before the CR LF, the last headers and the
terminator. -/
def Fits (buf : List UInt8) (ls : List (List UInt8)) : Prop :=
  (str buf).length + (kept (ls.map str)).flatten.length + closeHeaders.length + 1 ≤ MAXLINE

theorem str_closeHeaders : str closeHeaders = closeHeaders := str_eq_self_iff.2 (by decide)

theorem halts_requestBlock (rp : RioT) (fd : Fd) :
    Halts (requestBlock rp fd buf buf1) b ↔ (str buf).length < MAXLINE ∧
      ∃ block, Halts (headerLoop (rioReadlinebW rp fd MAXLINE).rp (rioReadlinebW rp fd MAXLINE).fd
        (overwrite buf1 (rioReadlinebW rp fd MAXLINE).usrbuf) (str buf)) block ∧
      b = block ++ closeHeaders ∧ b.length < MAXLINE := by
  constructor
  · rintro ⟨n, hn⟩
    obtain ⟨block₀, h0, hn⟩ := bind_eq_ok.1 hn
    obtain ⟨block, hloop, hlast⟩ := bind_eq_ok.1 hn
    obtain ⟨rfl, hlt⟩ := (addTo_eq_ok buf).1 h0
    rw [addTo_eq_ok, str_closeHeaders] at hlast
    exact ⟨hlt, block, ⟨n, hloop⟩, hlast⟩
  · rintro ⟨hlt, block, ⟨n, hloop⟩, hlast⟩
    refine ⟨n, bind_eq_ok.2 ⟨str buf, (addTo_eq_ok buf).2 ⟨rfl, hlt⟩, ?_⟩⟩
    refine bind_eq_ok.2 ⟨block, hloop, ?_⟩
    rw [addTo_eq_ok, str_closeHeaders]
    exact hlast

theorem halts_requestBlock_iff (h : rp.Ok) (hls : lines (MAXLINE - 1) (left rp fd) = l :: ls) :
    Halts (requestBlock rp fd buf buf1) b ↔ crlf ∈ (l :: ls).map str ∧
      b = str buf ++ (kept ((l :: ls).map str)).flatten ++ closeHeaders ∧ b.length < MAXLINE := by
  obtain ⟨hok, hu, -, hrest⟩ := rioReadlinebW_cons h two_le_maxline maxline_le hls
  rw [halts_requestBlock rp fd, List.map_cons, hu]
  constructor
  · rintro ⟨hlt, block, hloop, rfl, hlen⟩
    rw [halts_headerLoop_iff hok hrest hlt, str_overwrite] at hloop
    obtain ⟨hc, rfl, -⟩ := hloop
    exact ⟨hc, rfl, hlen⟩
  · rintro ⟨hc, rfl, hlen⟩
    have hlen' := hlen
    rw [List.length_append, List.length_append] at hlen'
    refine ⟨by omega, _, (halts_headerLoop_iff hok hrest (by omega)).2 ?_, rfl, hlen⟩
    rw [str_overwrite]
    exact ⟨hc, rfl, by rw [List.length_append]; omega⟩

/-- **The request** is assembled within its array, whatever `buf1` holds before it, exactly when one of the
client's lines is CR LF and what comes before it fits. -/
theorem request_bounded_iff (h : rp.Ok) (fd : Fd) (buf : List UInt8) :
    (∀ buf1, ∃ b, Halts (requestBlock rp fd buf buf1) b ∧ b.length + 1 ≤ MAXLINE) ↔
      crlf ∈ lines (MAXLINE - 1) (left rp fd) ∧ Fits buf (lines (MAXLINE - 1) (left rp fd)) := by
  rw [← crlf_mem_iff]
  cases hls : lines (MAXLINE - 1) (left rp fd) with
  | nil =>
    refine iff_of_false (fun hall => ?_) fun hc => by cases hc.1
    obtain ⟨b, hb, -⟩ := hall []
    obtain ⟨-, block, ⟨n, hn⟩, -⟩ := (halts_requestBlock rp fd).1 hb
    obtain ⟨hok, hu, -, hleft⟩ := rioReadlinebW_nil h two_le_maxline maxline_le hls
    rw [hu] at hn
    exact headerLoop_eof hok (by rw [hleft, lines_nil]) (by decide) n hn
  | cons l ls =>
    simp only [halts_requestBlock_iff h hls, Fits]
    constructor
    · intro hall
      obtain ⟨b, ⟨hc, rfl, -⟩, hlen⟩ := hall []
      rw [List.length_append, List.length_append] at hlen
      exact ⟨hc, hlen⟩
    · rintro ⟨hc, hfits⟩ buf1
      have hlen : (str buf ++ (kept ((l :: ls).map str)).flatten ++ closeHeaders).length + 1 ≤ MAXLINE := by
        rw [List.length_append, List.length_append]
        exact hfits
      exact ⟨_, ⟨hc, rfl, hlen⟩, hlen⟩

theorem request_bounded_iff_blank :
    let fd : Fd := [.chunk (ascii "A: b\r\n\r\n") (by decide) (by decide)]
    (∀ buf1, ∃ b, Halts (requestBlock (rioReadinitb []) fd (ascii "GET / HTTP/1.0\r\n") buf1) b ∧
      b.length + 1 ≤ MAXLINE) ↔
      crlf ∈ lines (MAXLINE - 1) (left (rioReadinitb []) fd) ∧
        Fits (ascii "GET / HTTP/1.0\r\n") (lines (MAXLINE - 1) (left (rioReadinitb []) fd)) :=
  request_bounded_iff (Nat.zero_le _) _ _

/-- A client that closes its side after the line `A: b`: the loop adds this line until `requestblock` is full. -/
theorem request_overruns : ¬ ∀ fd : Fd, ∀ buf1, ∃ b,
    Halts (requestBlock (rioReadinitb []) fd (ascii "GET / HTTP/1.0\r\n") buf1) b ∧ b.length + 1 ≤ MAXLINE := by
  intro hall
  obtain ⟨b, hb, -⟩ := hall [.chunk (ascii "A: b\r\n") (by decide) (by decide)] []
  have hleft : left (rioReadinitb []) [.chunk (ascii "A: b\r\n") (by decide) (by decide)] =
      ascii "A: b\r" ++ 10 :: [] := by decide
  have hls : lines (MAXLINE - 1) (left (rioReadinitb []) [.chunk (ascii "A: b\r\n") (by decide) (by decide)]) =
      [ascii "A: b\r" ++ [10]] := by
    rw [hleft, lines_line (by decide) (by decide), lines_nil]
  rw [halts_requestBlock_iff (Nat.zero_le _) hls] at hb
  exact absurd hb.1 (by decide)

end CsappLab.Arc
