import CsappLab.Proxy.UriBuffers

/-!
# Request forwarding

What the origin should get for an absolute URI and a list of header lines, and when it does. The filter of
`connect_to_server` looks for words anywhere in a line and minds their case, so it agrees with a comparison
of field names only on some lines; a URI without a path leaves nothing between `GET` and `HTTP/1.0`; and the
parts of a long URI do not fit into the buffers of `doit` and `connect_to_server`.
-/

namespace CsappLab.Proxy
open CStr CBuf Rio Fuel

/-! ### The request -/

/-- The request is not sent. -/
inductive SendFault
  | stuck (e : Stuck)
  | buffer (e : Fault)
deriving DecidableEq, Repr

/-- `sprintf` into `buf_client` and `Rio_writen` of the string that is then in it, for one text after the other:
the last buffer and all that was written. -/
def sendTexts (buf : List UInt8) : List (List UInt8) → Except SendFault (List UInt8 × List UInt8)
  | [] => .ok (buf, [])
  | text :: texts =>
    if text.length < MAXLINE then do
      let buf := CStr.strcpy buf text
      let (buf', written) ← sendTexts buf texts
      .ok (buf', str buf ++ written)
    else .error (.buffer .outside)

/-- All that is written to the origin. -/
def sendRequest (newUri host : List UInt8) (rp : RioT) (fd : Fd) (buf : List UInt8) (fuel : Nat) :
    Except SendFault (List UInt8) := do
  let (buf, written) ← sendTexts buf (requestLine newUri :: ownHeaders host)
  let sent ← (sendHeaders rp fd buf fuel).mapError .stuck
  .ok (written ++ sent.flatten ++ crlf)

/-- The way from the URI in `doit` to the request: `parse_uri` in its buffers, and the strings that it leaves. -/
def forward (uri : List UInt8) (rp : RioT) (fd : Fd) (buf : List UInt8) (fuel : Nat) : Except SendFault (List UInt8) := do
  let (m, _) ← (Buffers.parseUri (Buffers.start uri)).mapError .buffer
  let newUri ← (string m.newuri).mapError .buffer
  let host ← (string m.host).mapError .buffer
  sendRequest newUri host rp fd buf fuel

/-! ### What it should be -/

def space : UInt8 := 32

/-- `http://host[:port][/path]`; `port` begins with the colon and `path` with the slash. -/
structure AbsoluteUri where
  host : List UInt8
  port : List UInt8
  path : List UInt8
  host_ok : slash ∉ host ∧ colon ∉ host
  port_ok : port = [] ∨ port.head? = some colon
  port_no_slash : slash ∉ port
  path_ok : path = [] ∨ path.head? = some slash
  path_no_space : space ∉ path
  nonzero : 0 ∉ host ++ port ++ path

def AbsoluteUri.text (u : AbsoluteUri) : List UInt8 := ascii "http://" ++ (u.host ++ u.port) ++ u.path

/-- The path and the host fit into `buf_client` with the words around them, and the port into its 6 bytes. -/
def AbsoluteUri.Fits (u : AbsoluteUri) : Prop :=
  u.path.length ≤ MAXLINE - 16 ∧ u.host.length ≤ MAXLINE - 9 ∧ u.port.length ≤ 6

instance (u : AbsoluteUri) : Decidable u.Fits := inferInstanceAs (Decidable (_ ∧ _))

/-- A header line of the client. -/
structure HeaderLine (l : List UInt8) : Prop where
  newline : ∃ body, l = body ++ [10] ∧ 10 ∉ body
  nonzero : 0 ∉ l
  fits : l.length ≤ MAXLINE - 1
  notBlank : l ≠ crlf

def lower (c : UInt8) : UInt8 := if 65 ≤ c ∧ c ≤ 90 then c + 32 else c

def fieldName (line : List UInt8) : List UInt8 := line.takeWhile (· ≠ colon)

def ownNames : List (List UInt8) := [ascii "host", ascii "user-agent", ascii "connection", ascii "proxy-connection"]

def isOwn (line : List UInt8) : Bool := (fieldName line).map lower ∈ ownNames

/-- One of the words that the filter looks for occurs in the line, in this spelling. `Proxy-Connection`
contains `Connection`. -/
def HasWord (line : List UInt8) : Prop :=
  ∃ word ∈ [ascii "Host", ascii "User-Agent", ascii "Connection"], word <:+: line

/-- The request line, the proxy's headers, the other headers of the client and a blank line. -/
def Forwarded (sent host : List UInt8) (ls : List (List UInt8)) : Prop :=
  ∃ path, path.head? = some slash ∧ space ∉ path ∧
    sent = requestLine path ++ (ownHeaders host).flatten ++ (ls.filter fun l => !isOwn l).flatten ++ crlf

variable {rp : RioT} {fd : Fd} {buf l rest uri newUri host : List UInt8} {c : UInt8}
  {ls : List (List UInt8)}

theorem headerLine_of (body : List UInt8) (h : 10 ∉ body ∧ 0 ∉ body ∧ body.length < MAXLINE - 1 ∧ body ≠ [13]) :
    HeaderLine (body ++ [10]) := by
  obtain ⟨hnewline, hzero, hlen, hblank⟩ := h
  constructor
  · exact ⟨body, rfl, hnewline⟩
  · simpa using hzero
  · rw [List.length_append, List.length_singleton]
    omega
  · intro hcr
    exact hblank (List.append_cancel_right (hcr.trans (show crlf = [13] ++ [10] by decide)))

/-! ### The URI -/

theorem AbsoluteUri.split (u : AbsoluteUri) : Split u.text (ascii "http:/") (u.host ++ u.port) u.path := by
  refine ⟨?_, by decide, ?_, u.path_ok⟩
  · have : ascii "http://" = ascii "http:/" ++ [slash] := by decide
    unfold AbsoluteUri.text
    rw [this]
    simp
  · rw [List.mem_append]
    exact not_or.2 ⟨u.host_ok.1, u.port_no_slash⟩

theorem AbsoluteUri.zero_notMem_text (u : AbsoluteUri) : 0 ∉ u.text := by
  have hscheme : 0 ∉ ascii "http://" := by decide
  have hrest := u.nonzero
  unfold AbsoluteUri.text
  rw [List.append_assoc, List.mem_append, not_or]
  exact ⟨hscheme, hrest⟩

theorem AbsoluteUri.colon_iff (u : AbsoluteUri) {left right : List UInt8} (hleft : colon ∉ left) :
    u.host ++ u.port = left ++ colon :: right ↔ u.host = left ∧ u.port = colon :: right := by
  constructor
  · intro heq
    rcases u.port_ok with hport | hport
    · rw [hport, List.append_nil] at heq
      exact absurd (heq ▸ by simp : colon ∈ u.host) u.host_ok.2
    · obtain ⟨t, ht⟩ := List.head?_eq_some_iff.1 hport
      rw [ht] at heq ⊢
      obtain ⟨rfl, rfl⟩ := eq_of_count heq (by rw [List.count_eq_zero.2 u.host_ok.2, List.count_eq_zero.2 hleft])
      exact ⟨rfl, rfl⟩
  · rintro ⟨rfl, hport⟩
    rw [hport]

theorem parseUri_absolute (u : AbsoluteUri) (host port : List UInt8) :
    (parseUri u.text host port).newuri = u.path ∧ (parseUri u.text host port).host = u.host := by
  have h2 : 2 ≤ u.text.count slash := by
    have : (ascii "http:/").count slash = 1 := by decide
    rw [u.split.eq, List.count_append, List.count_cons_self]
    omega
  obtain ⟨pre, auth, path, hs', heq⟩ := @parseUri_eq u.text host port h2
  obtain ⟨-, rfl, rfl⟩ := u.split.unique hs'
  rw [heq]
  rcases find_spec (u.host ++ u.port) colon Nat.one_pos with ⟨left, right, hlr, hn, hf⟩ | ⟨hn, hf⟩
  · have hleft : colon ∉ left := List.count_eq_zero.1 (by omega)
    rw [hf]
    simp only [hlr, List.take_left]
    exact ⟨trivial, ((u.colon_iff hleft).1 hlr).1.symm⟩
  · rw [hf]
    refine ⟨rfl, ?_⟩
    simp only []
    rcases u.port_ok with hport | hport
    · rw [hport, List.append_nil]
    · have hcol : colon ∈ u.port := List.mem_of_mem_head? hport
      have := List.count_pos_iff.2 (List.mem_append_right u.host hcol)
      omega

theorem AbsoluteUri.stays_iff (u : AbsoluteUri) : Buffers.Stays u.text ↔ u.port.length ≤ 6 := by
  constructor
  · rintro ⟨_, _, _, hs, hfits⟩
    obtain ⟨rfl, rfl, rfl⟩ := u.split.unique hs
    rcases u.port_ok with hport | hport
    · rw [hport]
      exact Nat.zero_le _
    · obtain ⟨t, ht⟩ := List.head?_eq_some_iff.1 hport
      have := hfits u.host t (by rw [ht]) u.host_ok.2
      rw [ht, List.length_cons]
      omega
  · intro hport
    refine ⟨_, _, _, u.split, fun left right heq hleft => ?_⟩
    rw [((u.colon_iff hleft).1 heq).2, List.length_cons] at hport
    omega

/-- `parse_uri` leaves the path and the host, if it stays in its buffers. -/
theorem forward_eq (u : AbsoluteUri) (hlen : u.path.length < MAXLINE ∧ (u.host ++ u.port).length < MAXLINE)
    (hport : u.port.length ≤ 6) (fuel : Nat) :
    forward u.text rp fd buf fuel = sendRequest u.path u.host rp fd buf fuel := by
  obtain ⟨m, hm, -, hnew, hhost, -⟩ :=
    Buffers.parseUri_carries u.zero_notMem_text u.split hlen (u.stays_iff.2 hport)
  obtain ⟨huri, hh⟩ := parseUri_absolute u [] []
  rw [huri] at hnew
  rw [hh] at hhost
  unfold forward
  simp only [hm, Except.mapError, bind, Except.bind, string_carries hnew, string_carries hhost]

theorem halts_forward_iff (u : AbsoluteUri) {out : List UInt8} : Halts (forward u.text rp fd buf) out ↔
    ((u.path.length < MAXLINE ∧ (u.host ++ u.port).length < MAXLINE) ∧ u.port.length ≤ 6) ∧
      Halts (sendRequest u.path u.host rp fd buf) out := by
  constructor
  · rintro ⟨fuel, hfuel⟩
    obtain ⟨r, hr, -⟩ := bind_eq_ok.1 hfuel
    obtain ⟨hlen, hstays⟩ := (Buffers.parseUri_ok_iff u.zero_notMem_text u.split).1 ⟨r, mapError_eq_ok.1 hr⟩
    rw [u.stays_iff] at hstays
    rw [forward_eq u hlen hstays] at hfuel
    exact ⟨⟨hlen, hstays⟩, fuel, hfuel⟩
  · rintro ⟨⟨hlen, hport⟩, fuel, hfuel⟩
    exact ⟨fuel, (forward_eq u hlen hport fuel).trans hfuel⟩

/-! ### The headers -/

theorem skips_iff : skips l = true ↔ HasWord l := by
  have hproxy : ascii "Connection" <:+: ascii "Proxy-Connection" := by decide
  unfold skips HasWord
  simp only [Bool.or_eq_true, strstr_isSome_iff, List.mem_cons, List.not_mem_nil, or_false, exists_eq_or_imp,
    exists_eq_left]
  constructor
  · rintro (((h | h) | h) | h)
    · exact .inl h
    · exact .inr (.inl h)
    · exact .inr (.inr h)
    · exact .inr (.inr (hproxy.trans h))
  · rintro (h | h | h)
    · exact .inl (.inl (.inl h))
    · exact .inl (.inl (.inr h))
    · exact .inl (.inr h)

theorem lines_flatten (h : ∀ l ∈ ls, HeaderLine l) (rest : List UInt8) :
    lines (MAXLINE - 1) (ls.flatten ++ rest) = ls ++ lines (MAXLINE - 1) rest := by
  induction ls with
  | nil => rfl
  | cons l ls ih =>
    obtain ⟨hl, hls⟩ := List.forall_mem_cons.1 h
    obtain ⟨body, rfl, hb⟩ := hl.newline
    have hfit := hl.fits
    rw [List.length_append, List.length_singleton] at hfit
    rw [List.flatten_cons, List.append_assoc, List.append_assoc, List.singleton_append,
      lines_line hb (by omega), ih hls]
    rfl

theorem lines_crlf (rest : List UInt8) :
    lines (MAXLINE - 1) (crlf ++ rest) = crlf :: lines (MAXLINE - 1) rest := by
  have hc : crlf = [13] ++ [10] := by decide
  rw [hc, List.append_assoc]
  exact lines_line (by decide) (by decide)

theorem sendTexts_eq (buf : List UInt8) (texts : List (List UInt8)) : sendTexts buf texts =
    if ∀ text ∈ texts, text.length < MAXLINE then .ok (texts.foldl CStr.strcpy buf, (texts.map str).flatten)
      else .error (.buffer .outside) := by
  induction texts generalizing buf with
  | nil => rfl
  | cons text texts ih =>
    rw [sendTexts]
    simp only [ih, List.forall_mem_cons]
    by_cases hlen : text.length < MAXLINE
    · rw [if_pos hlen]
      by_cases hall : ∀ t ∈ texts, t.length < MAXLINE
      · rw [if_pos hall, if_pos ⟨hlen, hall⟩]
        simp only [bind, Except.bind, str_strcpy, List.foldl_cons, List.map_cons, List.flatten_cons]
      · rw [if_neg hall, if_neg fun h => hall h.2]
        rfl
    · rw [if_neg hlen, if_neg fun h => hlen h.1]

theorem texts_fit_iff : (∀ text ∈ requestLine newUri :: ownHeaders host, text.length < MAXLINE) ↔
    newUri.length ≤ MAXLINE - 16 ∧ host.length ≤ MAXLINE - 9 := by
  have hreq : (requestLine newUri).length = newUri.length + 15 := by
    have h1 : (ascii "GET ").length = 4 := by decide
    have h2 : (ascii " HTTP/1.0\r\n").length = 11 := by decide
    unfold requestLine
    rw [List.length_append, List.length_append, h1, h2]
    omega
  have hhost : (ascii "Host: " ++ host ++ ascii "\r\n").length = host.length + 8 := by
    have h1 : (ascii "Host: ").length = 6 := by decide
    have h2 : (ascii "\r\n").length = 2 := by decide
    rw [List.length_append, List.length_append, h1, h2]
    omega
  have hfix : ∀ text ∈ [userAgentHdr, ascii "Connection: close\r\n", ascii "Proxy-Connection: close\r\n"],
      text.length < MAXLINE := by decide
  have hmax : MAXLINE = 8192 := rfl
  unfold ownHeaders
  rw [List.forall_mem_cons, List.forall_mem_cons, hreq, hhost]
  constructor
  · rintro ⟨h1, h2, -⟩
    omega
  · rintro ⟨h1, h2⟩
    exact ⟨by omega, by omega, hfix⟩

theorem texts_nonzero (huri : 0 ∉ newUri) (hhost : 0 ∉ host) :
    (requestLine newUri :: ownHeaders host).map str = requestLine newUri :: ownHeaders host := by
  refine (List.map_congr_left fun text htext => str_eq_self_iff.2 ?_).trans (List.map_id _)
  have hfix : 0 ∉ ascii "GET " ++ ascii " HTTP/1.0\r\n" ++ ascii "Host: " ++ ascii "\r\n" := by decide
  have hfix' : ∀ text ∈ [userAgentHdr, ascii "Connection: close\r\n", ascii "Proxy-Connection: close\r\n"],
      (0 : UInt8) ∉ text := by decide
  simp only [List.mem_append, not_or] at hfix
  unfold ownHeaders at htext
  rw [List.mem_cons, List.mem_cons] at htext
  rcases htext with rfl | rfl | htext
  · unfold requestLine
    simp only [List.mem_append, not_or]
    exact ⟨⟨hfix.1.1.1, huri⟩, hfix.1.1.2⟩
  · simp only [List.mem_append, not_or]
    exact ⟨⟨hfix.1.2, hhost⟩, hfix.2⟩
  · exact hfix' text htext

/-- What is written for header lines that end with a blank line. -/
theorem halts_sendRequest_iff (huri : 0 ∉ newUri) (hhost : 0 ∉ host) (h : rp.Ok) (hls : ∀ l ∈ ls, HeaderLine l)
    (hleft : left rp fd = ls.flatten ++ crlf ++ rest) {out : List UInt8} :
    Halts (sendRequest newUri host rp fd buf) out ↔ (newUri.length ≤ MAXLINE - 16 ∧ host.length ≤ MAXLINE - 9) ∧
      out = requestLine newUri ++ (ownHeaders host).flatten ++ (ls.filter fun l => !skips l).flatten ++ crlf := by
  have hstr : (lines (MAXLINE - 1) (left rp fd)).map str =
      ls ++ crlf :: (lines (MAXLINE - 1) rest).map str := by
    rw [hleft, List.append_assoc, lines_flatten hls, lines_crlf, List.map_append, List.map_cons,
      show str crlf = crlf by decide]
    congr 1
    exact (List.map_congr_left fun l hl => str_eq_self_iff.2 (hls l hl).nonzero).trans (List.map_id ls)
  have hforw : forwarded (ls ++ crlf :: (lines (MAXLINE - 1) rest).map str) = ls.filter fun l => !skips l := by
    unfold forwarded
    rw [List.takeWhile_append_of_pos fun l hl => by simpa using (hls l hl).notBlank,
      List.takeWhile_cons_of_neg (by simp), List.append_nil]
  rw [← @texts_fit_iff newUri host]
  by_cases hfit : ∀ text ∈ requestLine newUri :: ownHeaders host, text.length < MAXLINE
  · -- the loop begins with the last header in its buffer
    have hbuf : str ((requestLine newUri :: ownHeaders host).foldl CStr.strcpy buf) ≠ crlf := by
      unfold ownHeaders
      simp only [List.foldl_cons, List.foldl_nil, str_strcpy]
      decide
    have heq : sendRequest newUri host rp fd buf = fun fuel =>
        (sendHeaders rp fd ((requestLine newUri :: ownHeaders host).foldl CStr.strcpy buf) fuel).mapError .stuck >>=
          fun sent => .ok ((requestLine newUri :: ownHeaders host).flatten ++ sent.flatten ++ crlf) := by
      funext fuel
      unfold sendRequest
      rw [sendTexts_eq, if_pos hfit, texts_nonzero huri hhost]
      rfl
    rw [and_iff_right hfit, heq, halts_bind (mono_sendHeaders.mapError _) fun _ => .const _]
    simp only [halts_mapError, halts_const, Except.ok.injEq, halts_sendHeaders_iff h hbuf, hstr, hforw,
      List.flatten_cons]
    constructor
    · rintro ⟨_, ⟨-, rfl⟩, hout⟩
      exact hout.symm
    · intro hout
      exact ⟨_, ⟨by simp, rfl⟩, hout.symm⟩
  · refine iff_of_false ?_ fun h => hfit h.1
    rintro ⟨fuel, hfuel⟩
    unfold sendRequest at hfuel
    rw [sendTexts_eq, if_neg hfit] at hfuel
    cases hfuel

theorem flatten_inj {ls' : List (List UInt8)} (h : ∀ l ∈ ls, HeaderLine l) (h' : ∀ l ∈ ls', HeaderLine l)
    (heq : ls.flatten = ls'.flatten) : ls = ls' := by
  have h1 := lines_flatten h []
  rw [heq, lines_flatten h' [], lines_nil, List.append_nil, List.append_nil] at h1
  exact h1.symm

theorem requestLine_inj {path tail tail' : List UInt8} (h : space ∉ newUri) (h' : space ∉ path)
    (heq : requestLine newUri ++ tail = requestLine path ++ tail') : newUri = path ∧ tail = tail' := by
  have hv : ascii " HTTP/1.0\r\n" = space :: ascii "HTTP/1.0\r\n" := by decide
  unfold requestLine at heq
  simp only [hv, List.append_assoc, List.cons_append] at heq
  have heq := List.append_cancel_left heq
  obtain ⟨hpath, htail⟩ := eq_of_count heq (by rw [List.count_eq_zero.2 h, List.count_eq_zero.2 h'])
  exact ⟨hpath, List.append_cancel_left htail⟩

theorem head_eq_iff {path : List UInt8} (h : path = [] ∨ path.head? = some slash) :
    path.head? = some slash ↔ path ≠ [] := by
  constructor
  · rintro h1 rfl
    cases h1
  · exact h.resolve_left

/-- What the code writes is what it should write, if the path is there and the filter is right. -/
theorem forwarded_iff (u : AbsoluteUri) (hls : ∀ l ∈ ls, HeaderLine l) :
    Forwarded (requestLine u.path ++ (ownHeaders u.host).flatten ++ (ls.filter fun l => !skips l).flatten ++ crlf)
      u.host ls ↔ u.path ≠ [] ∧ ∀ l ∈ ls, (HasWord l ↔ isOwn l = true) := by
  rw [← head_eq_iff u.path_ok]
  simp only [← skips_iff, Bool.coe_iff_coe]
  unfold Forwarded
  constructor
  · rintro ⟨path, hhead, hspace, heq⟩
    simp only [List.append_assoc] at heq
    obtain ⟨rfl, htail⟩ := requestLine_inj u.path_no_space hspace heq
    rw [← List.append_assoc, ← List.append_assoc, List.append_left_inj] at htail
    have hfilter : (ls.filter fun l => !skips l) = ls.filter fun l => !isOwn l := by
      refine flatten_inj (fun l hl => ?_) (fun l hl => ?_) (List.append_cancel_left htail)
      · exact hls l (List.mem_of_mem_filter hl)
      · exact hls l (List.mem_of_mem_filter hl)
    refine ⟨hhead, fun l hl => ?_⟩
    have hmem : l ∈ (ls.filter fun l => !skips l) ↔ l ∈ ls.filter fun l => !isOwn l := by rw [hfilter]
    rw [List.mem_filter, List.mem_filter] at hmem
    cases hs : skips l <;> cases ho : isOwn l <;> simp [hs, ho, hl] at hmem ⊢
  · rintro ⟨hhead, hall⟩
    refine ⟨u.path, hhead, u.path_no_space, ?_⟩
    rw [List.filter_congr fun l hl => by rw [hall l hl]]

/-- **Forwarding.** For every absolute URI and every list of header lines with a blank line behind it, the
origin gets what it should exactly when the URI has a path, its parts fit into the buffers, and the lines in which
one of the words occurs are those whose field name is one of the four. -/
theorem forwards_iff (u : AbsoluteUri) (buf : List UInt8) (h : rp.Ok) (hls : ∀ l ∈ ls, HeaderLine l)
    (hleft : left rp fd = ls.flatten ++ crlf ++ rest) :
    (∃ sent, Halts (forward u.text rp fd buf) sent ∧ Forwarded sent u.host ls) ↔
      u.path ≠ [] ∧ u.Fits ∧ ∀ l ∈ ls, (HasWord l ↔ isOwn l = true) := by
  have hzero := u.nonzero
  simp only [List.mem_append, not_or] at hzero
  have hlen : u.Fits → (u.path.length < MAXLINE ∧ (u.host ++ u.port).length < MAXLINE) ∧ u.port.length ≤ 6 := by
    rintro ⟨hpath, hhost, hport⟩
    have hmax : MAXLINE = 8192 := rfl
    rw [List.length_append]
    omega
  simp only [halts_forward_iff, halts_sendRequest_iff hzero.2 hzero.1.1 h hls hleft]
  rw [and_left_comm, ← forwarded_iff u hls]
  constructor
  · rintro ⟨_, ⟨⟨-, hport⟩, ⟨hpath, hhost⟩, rfl⟩, hforw⟩
    exact ⟨⟨hpath, hhost, hport⟩, hforw⟩
  · rintro ⟨hfits, hforw⟩
    exact ⟨_, ⟨hlen hfits, ⟨hfits.1, hfits.2.1⟩, rfl⟩, hforw⟩

def shortUri : AbsoluteUri where
  host := ascii "h"
  port := []
  path := [slash]
  host_ok := by decide
  port_ok := .inl rfl
  port_no_slash := by decide
  path_ok := .inr rfl
  path_no_space := by decide
  nonzero := by decide

theorem forwards_iff_accept :
    let fd : Fd := [.chunk (ascii "Accept: a\r\n\r\n") (by decide) (by decide)]
    ∃ sent, Halts (forward shortUri.text (rioReadinitb []) fd []) sent ∧
      Forwarded sent shortUri.host [ascii "Accept: a\r\n"] := by
  refine (forwards_iff shortUri [] (rioReadinitb_ok []) (fun l hl => ?_)
    (show left _ _ = ascii "Accept: a\r\n" ++ crlf ++ [] by decide)).2 ⟨by decide, by decide, fun l hl => ?_⟩
  · obtain rfl := List.mem_singleton.1 hl
    exact headerLine_of (ascii "Accept: a\r") (by decide)
  · obtain rfl := List.mem_singleton.1 hl
    rw [← skips_iff]
    decide

/-- `Referer: Hosts` is dropped and `host: h` is sent. -/
theorem not_forwarded : ¬ ∀ (u : AbsoluteUri) (ls : List (List UInt8)) (fd : Fd), (∀ l ∈ ls, HeaderLine l) →
    left (rioReadinitb []) fd = ls.flatten ++ crlf →
      ∃ sent, Halts (forward u.text (rioReadinitb []) fd []) sent ∧ Forwarded sent u.host ls := by
  intro hall
  let ls := [ascii "host: h\r\n", ascii "Referer: Hosts\r\n"]
  have hls : ∀ l ∈ ls, HeaderLine l := by
    intro l hl
    rcases List.mem_pair.1 hl with rfl | rfl
    · exact headerLine_of (ascii "host: h\r") (by decide)
    · exact headerLine_of (ascii "Referer: Hosts\r") (by decide)
  have hleft : left (rioReadinitb []) [.chunk (ls.flatten ++ crlf) (by decide) (by decide)] = ls.flatten ++ crlf := by
    decide
  obtain ⟨sent, hhalts, hforw⟩ := hall shortUri ls _ hls hleft
  obtain ⟨-, -, rfl⟩ := (halts_sendRequest_iff (by decide) (by decide) (rioReadinitb_ok []) hls
    (hleft.trans (List.append_nil _).symm)).1 ((halts_forward_iff shortUri).1 hhalts).2
  rw [forwarded_iff shortUri hls] at hforw
  have hown : isOwn (ascii "host: h\r\n") = true := by decide
  have hword := skips_iff.2 ((hforw.2 _ (by simp [ls])).2 hown)
  revert hword
  decide

end CsappLab.Proxy
