import CsappLab.Lib.CStr

/-!
# Splitting a URI

`parse_uri` and `find` of `proxy.c`. A string is the list of its bytes, and `*ptr = '\0'` cuts it. The
destinations are large enough; what `host` and `port` held before is an argument, since a URI with fewer
than two slashes leaves them alone.
-/

namespace CsappLab.Proxy
open CStr

def slash : UInt8 := 47
def colon : UInt8 := 58

/-- The loop of `find`, with the number of characters before `s`. -/
def findLoop (c : UInt8) (num : Nat) : List UInt8 → Nat → Nat → Option Nat
  | [], _, _ => none
  | b :: s, cnt, i =>
    let cnt := if b = c then cnt + 1 else cnt
    if cnt = num then some i else findLoop c num s cnt (i + 1)

/-- `find`: where `c` occurs for the `num`-th time. -/
def find (s : List UInt8) (c : UInt8) (num : Nat) : Option Nat := findLoop c num s 0 0

/-- What `parse_uri` leaves in its four buffers, and what it returns. -/
structure Parsed where
  uri : List UInt8
  newuri : List UInt8
  host : List UInt8
  port : List UInt8
  ret : Nat
deriving DecidableEq, Repr

def parseUri (uri host port : List UInt8) : Parsed :=
  let (uri, newuri) := match find uri slash 3 with
    | some ptr => (uri.take ptr, uri.drop ptr)
    | none => (uri, [])
  let (uri, host) := match find uri slash 2 with
    | some ptr => (uri.take ptr, uri.drop (ptr + 1))
    | none => (uri, host)
  match find host colon 1 with
  | some ptr => ⟨uri, newuri, host.take ptr, host.drop (ptr + 1), 1⟩
  | none => ⟨uri, newuri, host, port, 0⟩

variable {s uri host port pre auth path : List UInt8} {c : UInt8} {num cnt i : Nat}

/-! ### The scanner -/

theorem findLoop_spec (h : cnt < num) :
    (∃ pre post, s = pre ++ c :: post ∧ cnt + pre.count c + 1 = num ∧
      findLoop c num s cnt i = some (i + pre.length)) ∨
    (cnt + s.count c < num ∧ findLoop c num s cnt i = none) := by
  induction s generalizing cnt i with
  | nil => exact .inr ⟨by simpa using h, rfl⟩
  | cons b s ih =>
    unfold findLoop
    by_cases hb : b = c
    · subst hb
      simp only [↓reduceIte]
      by_cases hnum : cnt + 1 = num
      · exact .inl ⟨[], s, rfl, by simpa using hnum, by simp [hnum]⟩
      · rw [if_neg hnum]
        rcases ih (i := i + 1) (show cnt + 1 < num by omega) with ⟨pre, post, rfl, hn, hf⟩ | ⟨hn, hf⟩
        · refine .inl ⟨b :: pre, post, rfl, ?_, ?_⟩
          · rw [List.count_cons_self]
            omega
          · rw [hf, List.length_cons]
            congr 1
            omega
        · refine .inr ⟨?_, hf⟩
          rw [List.count_cons_self]
          omega
    · simp only [if_neg hb, if_neg h.ne]
      rcases ih (i := i + 1) h with ⟨pre, post, rfl, hn, hf⟩ | ⟨hn, hf⟩
      · refine .inl ⟨b :: pre, post, rfl, ?_, ?_⟩
        · rwa [List.count_cons_of_ne hb]
        · rw [hf, List.length_cons]
          congr 1
          omega
      · refine .inr ⟨?_, hf⟩
        rwa [List.count_cons_of_ne hb]

/-- **`find`** cuts the string in front of the `num`-th `c`, if there are so many. -/
theorem find_spec (s : List UInt8) (c : UInt8) (h : 0 < num) :
    (∃ pre post, s = pre ++ c :: post ∧ pre.count c + 1 = num ∧ find s c num = some pre.length) ∨
    (s.count c < num ∧ find s c num = none) := by
  unfold find
  simpa using findLoop_spec (s := s) (c := c) (i := 0) h

theorem eq_of_count {pre pre' post post' : List UInt8} (h : pre ++ c :: post = pre' ++ c :: post')
    (hc : pre.count c = pre'.count c) : pre = pre' ∧ post = post' := by
  induction pre generalizing pre' with
  | nil =>
    cases pre' with
    | nil => exact ⟨rfl, (List.cons.inj h).2⟩
    | cons b pre' =>
      rw [← (List.cons.inj h).1, List.count_cons_self, List.count_nil] at hc
      omega
  | cons b pre ih =>
    cases pre' with
    | nil =>
      rw [(List.cons.inj h).1, List.count_cons_self, List.count_nil] at hc
      omega
    | cons b' pre' =>
      obtain ⟨rfl, htail⟩ := List.cons.inj h
      rw [List.count_cons, List.count_cons, Nat.add_right_cancel_iff] at hc
      obtain ⟨rfl, rfl⟩ := ih htail hc
      exact ⟨rfl, rfl⟩

theorem find_append {post : List UInt8} (h : pre.count c + 1 = num) :
    Proxy.find (pre ++ c :: post) c num = some pre.length := by
  rcases find_spec (pre ++ c :: post) c (show 0 < num by omega) with ⟨pre', post', he, hn, hf⟩ | ⟨hn, -⟩
  · rw [hf, (eq_of_count he (by omega)).1]
  · rw [List.count_append, List.count_cons_self] at hn
    omega

theorem find_none (h : s.count c < num) : Proxy.find s c num = none := by
  rcases find_spec s c (show 0 < num by omega) with ⟨pre', post', rfl, hn, -⟩ | ⟨-, hf⟩
  · rw [List.count_append, List.count_cons_self] at h
    omega
  · exact hf

theorem drop_behind (pre post : List UInt8) (c : UInt8) : (pre ++ c :: post).drop (pre.length + 1) = post := by
  rw [List.append_cons]
  exact List.drop_left' (by simp)

/-! ### The parts -/

/-- The text before the second slash, the text from there to the third slash or the end, and the rest. -/
structure Split (uri pre auth path : List UInt8) : Prop where
  eq : uri = pre ++ slash :: (auth ++ path)
  second : pre.count slash = 1
  auth : slash ∉ auth
  path : path = [] ∨ path.head? = some slash

theorem takeWhile_auth (ha : slash ∉ auth) (hp : path = [] ∨ path.head? = some slash) :
    (auth ++ path).takeWhile (· ≠ slash) = auth := by
  rw [List.takeWhile_append_of_pos fun x hx => by simpa using fun h0 : x = slash => ha (h0 ▸ hx)]
  rcases hp with rfl | hp
  · simp
  · obtain ⟨t, rfl⟩ := List.head?_eq_some_iff.1 hp
    simp

theorem Split.unique {pre' auth' path' : List UInt8} (h : Split uri pre auth path)
    (h' : Split uri pre' auth' path') : pre = pre' ∧ auth = auth' ∧ path = path' := by
  obtain ⟨rfl, hpost⟩ := eq_of_count (h.eq.symm.trans h'.eq) (h.second.trans h'.second.symm)
  have ha : auth = auth' := by
    rw [← takeWhile_auth h.auth h.path, hpost, takeWhile_auth h'.auth h'.path]
  subst ha
  exact ⟨rfl, rfl, List.append_cancel_left hpost⟩

theorem parseUri_eq (h : 2 ≤ uri.count slash) : ∃ pre auth path, Split uri pre auth path ∧
    parseUri uri host port = match find auth colon 1 with
      | some ptr => ⟨pre, path, auth.take ptr, auth.drop (ptr + 1), 1⟩
      | none => ⟨pre, path, auth, port, 0⟩ := by
  -- the rest, from the third slash on
  obtain ⟨front, path, rfl, hc, hpath, hcut⟩ : ∃ front path, uri = front ++ path ∧ front.count slash = 2 ∧
      (path = [] ∨ path.head? = some slash) ∧
      (match find uri slash 3 with
        | some ptr => (uri.take ptr, uri.drop ptr)
        | none => (uri, [])) = (front, path) := by
    rcases find_spec uri slash (Nat.succ_pos 2) with ⟨pre, post, rfl, hn, hf⟩ | ⟨hn, hf⟩
    · refine ⟨pre, slash :: post, rfl, by omega, .inr rfl, ?_⟩
      rw [hf]
      simp
    · exact ⟨uri, [], (List.append_nil _).symm, by omega, .inl rfl, by rw [hf]⟩
  rcases find_spec front slash (Nat.succ_pos 1) with ⟨pre, auth, rfl, hn, hf⟩ | ⟨hn, -⟩
  · refine ⟨pre, auth, path, ⟨by simp, by omega, ?_, hpath⟩, ?_⟩
    · rw [List.count_append, List.count_cons_self] at hc
      exact List.count_eq_zero.1 (by omega)
    · unfold parseUri
      rw [hcut]
      simp only [hf, List.take_left, drop_behind]
  · omega

/-- **Nothing is lost.** With at least two slashes, the URI is the text before the second one, that slash,
host, colon and port if there is a port, and the new URI. -/
theorem parseUri_parts (h : 2 ≤ uri.count slash) (host port : List UInt8) :
    let r := parseUri uri host port
    ∃ pre auth, Split uri pre auth r.newuri ∧
      auth = r.host ++ (if r.ret = 1 then colon :: r.port else []) ∧
      slash ∉ r.host ∧ colon ∉ r.host ∧ (r.ret = 1 ∨ r.ret = 0) ∧ (r.ret = 1 ↔ colon ∈ auth) := by
  obtain ⟨pre, auth, path, hs, heq⟩ := @parseUri_eq uri host port h
  simp only [heq]
  rcases find_spec auth colon Nat.one_pos with ⟨left, right, rfl, hn, hf⟩ | ⟨hn, hf⟩
  · -- the first colon ends the host
    have hauth := hs.auth
    rw [List.mem_append, not_or] at hauth
    have hleft : colon ∉ left := List.count_eq_zero.1 (by omega)
    simp only [hf, List.take_left, drop_behind]
    exact ⟨pre, _, hs, rfl, hauth.1, hleft, .inl trivial, iff_of_true trivial (by simp)⟩
  · have hno : colon ∉ auth := List.count_eq_zero.1 (by omega)
    simp only [hf]
    exact ⟨pre, auth, hs, by simp, hs.auth, hno, .inr trivial, iff_of_false (by simp) hno⟩

theorem parseUri_parts_cmu : let r := parseUri (ascii "http://www.cmu.edu:8080/hub/index.html") [] []
    ∃ pre auth, Split (ascii "http://www.cmu.edu:8080/hub/index.html") pre auth r.newuri ∧
      auth = r.host ++ (if r.ret = 1 then colon :: r.port else []) ∧
      slash ∉ r.host ∧ colon ∉ r.host ∧ (r.ret = 1 ∨ r.ret = 0) ∧ (r.ret = 1 ↔ colon ∈ auth) :=
  parseUri_parts (by decide) [] []

example : parseUri (ascii "http://www.cmu.edu:8080/hub/index.html") [] [] =
    ⟨ascii "http:/", ascii "/hub/index.html", ascii "www.cmu.edu", ascii "8080", 1⟩ := by decide

end CsappLab.Proxy
