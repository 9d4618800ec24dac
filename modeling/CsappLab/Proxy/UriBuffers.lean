import CsappLab.Lib.CBuf
import CsappLab.Lib.Scanf
import CsappLab.Proxy.Request

/-!
# `parse_uri` in its buffers

The same function as in `Uri.lean`, with the buffers of `doit`: `new_uri` and `host` are arrays of
`MAXLINE` bytes on the stack, `port` has 6 bytes of the heap, and nothing was written to the three. With
fewer than two slashes the search for the colon reads `host` all the same, and the copy of the port takes
whatever is behind the colon.
-/

namespace CsappLab.Proxy.Buffers

open CStr CBuf Scanf

def findLoop (c : UInt8) (num : Nat) : Buf → Nat → Nat → Except Fault (Option Nat)
  | [], _, _ => .error .outside
  | none :: _, _, _ => .error .uninit
  | some b :: s, cnt, i =>
    if b = 0 then .ok none
    else
      let cnt := if b = c then cnt + 1 else cnt
      if cnt = num then .ok (some i) else findLoop c num s cnt (i + 1)

def find (s : Buf) (c : UInt8) (num : Nat) : Except Fault (Option Nat) := findLoop c num s 0 0

/-- The arguments of `parse_uri`. -/
structure Bufs where
  uri : Buf
  newuri : Buf
  host : Buf
  port : Buf

/-- The cut at the third slash. -/
def cutPath (m : Bufs) : Except Fault Bufs := do
  match ← find m.uri slash 3 with
  | some ptr =>
    let newuri ← strcpy m.newuri (m.uri.drop ptr)
    let uri ← put m.uri ptr 0
    .ok { m with uri := uri, newuri := newuri }
  | none =>
    let newuri ← strcpy m.newuri [some 0]
    .ok { m with newuri := newuri }

/-- The cut at the second slash. -/
def cutHost (m : Bufs) : Except Fault Bufs := do
  match ← find m.uri slash 2 with
  | some ptr =>
    let host ← strcpy m.host (m.uri.drop (ptr + 1))
    let uri ← put m.uri ptr 0
    .ok { m with uri := uri, host := host }
  | none => .ok m

/-- The cut at the colon, with the return value. -/
def cutPort (m : Bufs) : Except Fault (Bufs × Nat) := do
  match ← find m.host colon 1 with
  | some ptr =>
    let port ← strcpy m.port (m.host.drop (ptr + 1))
    let host ← put m.host ptr 0
    .ok ({ m with host := host, port := port }, 1)
  | none => .ok (m, 0)

def parseUri (m : Bufs) : Except Fault (Bufs × Nat) := do
  let m ← cutPath m
  let m ← cutHost m
  cutPort m

/-- The second word of `sscanf(buf, "%s %s %s", method, uri, version)`. -/
def secondWord (line : List UInt8) : Option (List UInt8) := do
  let (_, rest) ← scanWord (str line)
  let (uri, _) ← scanWord rest
  some uri

/-- The buffers of `doit` when it calls `parse_uri`. -/
def start (uri : List UInt8) : Bufs where
  uri := uri.map some ++ some 0 :: fresh (MAXLINE - (uri.length + 1))
  newuri := fresh MAXLINE
  host := fresh MAXLINE
  port := fresh 6

/-- There are two slashes, and a port has at most 5 characters. -/
def Stays (uri : List UInt8) : Prop := ∃ pre auth path, Split uri pre auth path ∧
  ∀ left right, auth = left ++ colon :: right → colon ∉ left → right.length ≤ 5

variable {m : Bufs} {buf : Buf} {uri s pre auth path : List UInt8} {c : UInt8} {num : Nat}

/-! ### The scanner -/

theorem findLoop_carries (h : Carries buf s) (cnt i : Nat) :
    findLoop c num buf cnt i = .ok (Proxy.findLoop c num s cnt i) := by
  obtain ⟨h0, rest, rfl⟩ := h
  induction s generalizing cnt i with
  | nil => rfl
  | cons b s ih =>
    rw [List.mem_cons, not_or] at h0
    rw [List.map_cons, List.cons_append, findLoop, if_neg (Ne.symm h0.1), Proxy.findLoop]
    simp only
    split_ifs
    all_goals first | rfl | exact ih _ _ h0.2

theorem find_carries (h : Carries buf s) : find buf c num = .ok (Proxy.find s c num) :=
  findLoop_carries h 0 0

/-! ### The cuts -/

theorem cutPath_carries (h : Carries m.uri (s ++ path)) (hs : s.count slash = 2)
    (hpath : path = [] ∨ path.head? = some slash) :
    (path.length < m.newuri.length → ∃ m', cutPath m = .ok m' ∧ Carries m'.uri s ∧ Carries m'.newuri path ∧
      m'.host = m.host ∧ m'.port = m.port) ∧
    (m.newuri.length ≤ path.length → cutPath m = .error .outside) := by
  unfold cutPath
  rw [find_carries h]
  cases path with
  | nil =>
    rw [List.append_nil] at h ⊢
    rw [find_none (show s.count slash < 3 by omega)]
    constructor
    · intro hlen
      obtain ⟨newuri, hcpy, hcarries⟩ := strcpy_fits carries_nil hlen
      exact ⟨{ m with newuri := newuri }, by simp [hcpy, bind, Except.bind], h, hcarries, rfl, rfl⟩
    · intro hlen
      have hcpy := (strcpy_carries carries_nil m.newuri).trans (if_neg (not_lt.2 hlen))
      simp [hcpy, bind, Except.bind]
  | cons b path =>
    obtain rfl : b = slash := by simpa using hpath
    rw [find_append (show s.count slash + 1 = 3 by omega)]
    constructor
    · intro hlen
      obtain ⟨newuri, hcpy, hcarries⟩ := strcpy_fits h.drop hlen
      obtain ⟨hput, hcut⟩ := h.put
      exact ⟨{ m with uri := m.uri.set s.length (some 0), newuri := newuri },
        by simp [hcpy, hput, bind, Except.bind], hcut, hcarries, rfl, rfl⟩
    · intro hlen
      have hcpy := (strcpy_carries h.drop m.newuri).trans (if_neg (not_lt.2 hlen))
      simp [hcpy, bind, Except.bind]

theorem cutHost_carries (h : Carries m.uri (pre ++ slash :: auth)) (hs : pre.count slash = 1) :
    (auth.length < m.host.length → ∃ m', cutHost m = .ok m' ∧ Carries m'.uri pre ∧ m'.newuri = m.newuri ∧
      Carries m'.host auth ∧ m'.port = m.port) ∧
    (m.host.length ≤ auth.length → cutHost m = .error .outside) := by
  have hdrop : Carries (m.uri.drop (pre.length + 1)) auth := by
    have hb := (show Carries m.uri ((pre ++ [slash]) ++ auth) by simpa using h).drop
    simpa using hb
  unfold cutHost
  rw [find_carries h, find_append (show pre.count slash + 1 = 2 by omega)]
  constructor
  · intro hlen
    obtain ⟨host, hcpy, hcarries⟩ := strcpy_fits hdrop hlen
    obtain ⟨hput, hcut⟩ := h.put
    exact ⟨{ m with uri := m.uri.set pre.length (some 0), host := host },
      by simp [hcpy, hput, bind, Except.bind], hcut, rfl, hcarries, rfl⟩
  · intro hlen
    have hcpy := (strcpy_carries hdrop m.host).trans (if_neg (not_lt.2 hlen))
    simp [hcpy, bind, Except.bind]

theorem cutPort_colon {left right : List UInt8} (h : Carries m.host (left ++ colon :: right))
    (hleft : colon ∉ left) :
    (right.length < m.port.length → ∃ m', cutPort m = .ok (m', 1) ∧ m'.uri = m.uri ∧ m'.newuri = m.newuri ∧
      Carries m'.host left ∧ Carries m'.port right) ∧
    (m.port.length ≤ right.length → cutPort m = .error .outside) := by
  have hfind : Proxy.find (left ++ colon :: right) colon 1 = some left.length :=
    find_append (by rw [List.count_eq_zero.2 hleft])
  have hdrop : Carries (m.host.drop (left.length + 1)) right := by
    have hb := (show Carries m.host ((left ++ [colon]) ++ right) by simpa using h).drop
    simpa using hb
  unfold cutPort
  rw [find_carries h, hfind]
  constructor
  · intro hlen
    obtain ⟨port, hcpy, hcarries⟩ := strcpy_fits hdrop hlen
    obtain ⟨hput, hcut⟩ := h.put
    exact ⟨{ m with host := m.host.set left.length (some 0), port := port },
      by simp [hcpy, hput, bind, Except.bind], rfl, rfl, hcut, hcarries⟩
  · intro hlen
    have hcpy := (strcpy_carries hdrop m.port).trans (if_neg (by omega))
    simp [hcpy, bind, Except.bind]

theorem cutPort_none (h : Carries m.host auth) (hno : colon ∉ auth) : cutPort m = .ok (m, 0) := by
  unfold cutPort
  rw [find_carries h, find_none (by rw [List.count_eq_zero.2 hno]; exact Nat.one_pos)]
  rfl

/-! ### All of it -/

theorem start_carries (h0 : 0 ∉ uri) : Carries (start uri).uri uri := ⟨h0, _, rfl⟩

theorem parseUri_cutPort (h0 : 0 ∉ uri) (hs : Split uri pre auth path) :
    (path.length < MAXLINE ∧ auth.length < MAXLINE → ∃ m, parseUri (start uri) = cutPort m ∧ Carries m.uri pre ∧
      Carries m.newuri path ∧ Carries m.host auth ∧ m.port = fresh 6) ∧
    (¬ (path.length < MAXLINE ∧ auth.length < MAXLINE) → parseUri (start uri) = .error .outside) := by
  have heq : uri = pre ++ slash :: auth ++ path := by
    rw [hs.eq]
    simp
  have hcount : (pre ++ slash :: auth).count slash = 2 := by
    rw [List.count_append, List.count_cons_self, hs.second, List.count_eq_zero.2 hs.auth]
  have hstart : Carries (start uri).uri (pre ++ slash :: auth ++ path) := heq ▸ start_carries h0
  obtain ⟨hfits, hlong⟩ := cutPath_carries hstart hcount hs.path
  have hroom : (start uri).newuri.length = MAXLINE := length_fresh MAXLINE
  have hroom' : (start uri).host.length = MAXLINE := length_fresh MAXLINE
  rw [hroom] at hfits hlong
  unfold parseUri
  by_cases hlen : path.length < MAXLINE
  · obtain ⟨m₁, h1, huri, hnew, hhost, hport⟩ := hfits hlen
    obtain ⟨hfits', hlong'⟩ := cutHost_carries huri hs.second
    rw [hhost, hroom'] at hfits' hlong'
    rw [h1, and_iff_right hlen, not_lt]
    simp only [bind, Except.bind]
    constructor
    · intro hlen'
      obtain ⟨m₂, h2, huri₂, hnew₂, hhost₂, hport₂⟩ := hfits' hlen'
      rw [h2]
      exact ⟨m₂, rfl, huri₂, hnew₂ ▸ hnew, hhost₂, hport₂.trans hport⟩
    · intro hlen'
      rw [hlong' hlen']
  · refine ⟨fun h => absurd h.1 hlen, fun _ => ?_⟩
    rw [hlong (not_lt.1 hlen)]
    rfl

/-- Without a second slash the search for the colon reads the fresh `host`. -/
theorem parseUri_uninit (h0 : 0 ∉ uri) (hcount : uri.count slash < 2) : parseUri (start uri) = .error .uninit := by
  have hstart := start_carries h0
  have hfind : ∀ num, 2 ≤ num → find (start uri).uri slash num = .ok none := by
    intro num hnum
    rw [find_carries hstart, find_none (by omega)]
  have hroom : ([] : List UInt8).length < (fresh MAXLINE).length := by
    simp only [length_fresh]
    decide
  obtain ⟨newuri, hcpy, -⟩ := strcpy_fits carries_nil hroom
  have hpath : cutPath (start uri) = .ok { start uri with newuri := newuri } := by
    unfold cutPath
    rw [hfind 3 (by norm_num)]
    have hnew : (start uri).newuri = fresh MAXLINE := rfl
    simp [hnew, hcpy, bind, Except.bind]
  have hhost : cutHost { start uri with newuri := newuri } = .ok { start uri with newuri := newuri } := by
    unfold cutHost
    simp only [hfind 2 le_rfl, bind, Except.bind]
  unfold parseUri
  rw [hpath]
  simp only [bind, Except.bind, hhost]
  rfl

theorem Stays.count (h : Stays uri) : 2 ≤ uri.count slash := by
  obtain ⟨pre, auth, path, hs, -⟩ := h
  rw [hs.eq, List.count_append, List.count_cons_self, hs.second]
  omega

theorem split_fits (hs : Split uri pre auth path) (hlen : uri.length < MAXLINE) :
    path.length < MAXLINE ∧ auth.length < MAXLINE := by
  have hl := congrArg List.length hs.eq
  rw [List.length_append, List.length_cons, List.length_append] at hl
  omega

/-- **The parts.** In its bounds the function leaves the strings of the abstract one. -/
theorem parseUri_carries (h0 : 0 ∉ uri) (hs : Split uri pre auth path)
    (hlen : path.length < MAXLINE ∧ auth.length < MAXLINE) (h : Stays uri) :
    let p := Proxy.parseUri uri [] []
    ∃ m, parseUri (start uri) = .ok (m, p.ret) ∧ Carries m.uri p.uri ∧ Carries m.newuri p.newuri ∧
      Carries m.host p.host ∧ (p.ret = 1 → Carries m.port p.port) := by
  obtain ⟨_, _, _, hs₁, hp⟩ := @parseUri_eq uri [] [] h.count
  obtain ⟨rfl, rfl, rfl⟩ := hs.unique hs₁
  obtain ⟨_, _, _, hs₂, hfits⟩ := h
  obtain ⟨rfl, rfl, rfl⟩ := hs.unique hs₂
  obtain ⟨m, hm, huri, hnew, hhost, hport⟩ := (parseUri_cutPort h0 hs).1 hlen
  simp only [hp, hm]
  by_cases hcolon : colon ∈ auth
  · obtain ⟨left, right, rfl, hleft⟩ := List.eq_append_cons_of_mem hcolon
    obtain ⟨m', hm', huri', hnew', hhost', hport'⟩ := (cutPort_colon hhost hleft).1 (by
      have := hfits left right rfl hleft
      simp only [hport, length_fresh]
      omega)
    rw [find_append (by rw [List.count_eq_zero.2 hleft])]
    simp only [List.take_left, drop_behind]
    exact ⟨m', hm', huri' ▸ huri, hnew' ▸ hnew, hhost', fun _ => hport'⟩
  · rw [find_none (by rw [List.count_eq_zero.2 hcolon]; exact Nat.one_pos)]
    exact ⟨m, cutPort_none hhost hcolon, huri, hnew, hhost, fun h1 => absurd (show 0 = 1 from h1) (by decide)⟩

theorem parseUri_outside {left right : List UInt8} (h0 : 0 ∉ uri)
    (hs : Split uri pre (left ++ colon :: right) path) (hleft : colon ∉ left) (hright : 5 < right.length) :
    parseUri (start uri) = .error .outside := by
  obtain ⟨hfits, hlong⟩ := parseUri_cutPort h0 hs
  by_cases hlen : path.length < MAXLINE ∧ (left ++ colon :: right).length < MAXLINE
  · obtain ⟨m, hm, -, -, hhost, hport⟩ := hfits hlen
    rw [hm]
    refine (cutPort_colon hhost hleft).2 ?_
    simp only [hport, length_fresh]
    omega
  · exact hlong hlen

theorem parseUri_ok_iff (h0 : 0 ∉ uri) (hs : Split uri pre auth path) :
    (∃ r, parseUri (start uri) = .ok r) ↔ (path.length < MAXLINE ∧ auth.length < MAXLINE) ∧ Stays uri := by
  constructor
  · rintro ⟨r, hr⟩
    constructor
    · by_contra hlen
      rw [(parseUri_cutPort h0 hs).2 hlen] at hr
      cases hr
    · refine ⟨pre, auth, path, hs, ?_⟩
      rintro left right rfl hleft
      by_contra hright
      rw [parseUri_outside h0 hs hleft (by omega)] at hr
      cases hr
  · rintro ⟨hlen, h⟩
    obtain ⟨m, hm, -⟩ := parseUri_carries h0 hs hlen h
    exact ⟨_, hm⟩

theorem secondWord_bounds {line : List UInt8} (hline : line.length ≤ MAXLINE - 1) (h : secondWord line = some uri) :
    0 ∉ uri ∧ uri.length < MAXLINE := by
  unfold secondWord at h
  simp only [bind, Option.bind_eq_some_iff, Option.some.injEq, Prod.exists] at h
  obtain ⟨method, rest, h1, uri', rest', h2, rfl⟩ := h
  obtain ⟨sp, hsp⟩ := scanWord_eq h1
  obtain ⟨sp', rfl⟩ := scanWord_eq h2
  have hsub : uri' <:+: str line := ⟨sp ++ (method ++ sp'), rest', by rw [hsp]; simp⟩
  constructor
  · exact fun h0 => zero_not_mem_str line (hsub.subset h0)
  · have h1 := hsub.length_le
    have h2 := strlen_le line
    have h3 : MAXLINE = 8192 := rfl
    unfold CStr.strlen at h2
    omega

/-- **The bounds.** On the second word of a request line `parse_uri` reads no byte that was not written and
writes to no byte outside, if and only if there are two slashes and the port has at most 5 characters. -/
theorem parse_uri_stays (line uri : List UInt8) (hline : line.length ≤ MAXLINE - 1)
    (huri : secondWord line = some uri) : (∃ r, parseUri (start uri) = .ok r) ↔ Stays uri := by
  obtain ⟨h0, hlen⟩ := secondWord_bounds hline huri
  by_cases hcount : uri.count slash < 2
  · refine iff_of_false ?_ fun h => absurd h.count (not_le.2 hcount)
    rintro ⟨r, hr⟩
    rw [parseUri_uninit h0 hcount] at hr
    cases hr
  · obtain ⟨pre, auth, path, hs, -⟩ := @parseUri_eq uri [] [] (by omega)
    rw [parseUri_ok_iff h0 hs, and_iff_right (split_fits hs hlen)]

theorem parse_uri_stays_cmu : (∃ r, parseUri (start (ascii "http://www.cmu.edu/")) = .ok r) ↔
    Stays (ascii "http://www.cmu.edu/") :=
  parse_uri_stays (ascii "GET http://www.cmu.edu/ HTTP/1.1\r\n") _ (by decide) (by decide)

/-- No slash, and a port of six digits. -/
theorem parse_uri_faults :
    (secondWord (ascii "GET foo HTTP/1.0\r\n") = some (ascii "foo") ∧
      parseUri (start (ascii "foo")) = .error .uninit) ∧
    secondWord (ascii "GET http://h:123456/ HTTP/1.0\r\n") = some (ascii "http://h:123456/") ∧
      parseUri (start (ascii "http://h:123456/")) = .error .outside := by
  refine ⟨⟨by decide, parseUri_uninit (by decide) (by decide)⟩, by decide, ?_⟩
  have hs : Split (ascii "http://h:123456/") (ascii "http:/") (ascii "h" ++ colon :: ascii "123456") (ascii "/") :=
    ⟨by decide, by decide, by decide, .inr (by decide)⟩
  exact parseUri_outside (by decide) hs (by decide) (by decide)

end CsappLab.Proxy.Buffers
