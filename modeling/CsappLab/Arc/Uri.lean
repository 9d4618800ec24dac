import CsappLab.Lib.CInt
import CsappLab.Lib.Scanf

/-!
# Splitting a URI in the archived proxies

`parse_uri` under `arc`, the same in both proxies. A string is the list of its bytes, and the
destinations are large enough. `hostend` is the result of `strpbrk` as an offset from `hostbegin`, and
`len` its low 32 bits.
-/

namespace CsappLab.Arc

open CInt CStr Scanf

def slash : UInt8 := 47
def colon : UInt8 := 58

def toLower (c : UInt8) : UInt8 := if 65 ≤ c && c ≤ 90 then c + 32 else c

def http : List UInt8 := ascii "http://"

/-- `strncasecmp(uri, "http://", 7) == 0` -/
def isHttp (uri : List UInt8) : Bool := (uri.take 7).map toLower = http

/-- `" :/\r\n\0"`; the literal ends at its zero byte. -/
def isDelim (c : UInt8) : Bool := c = 32 || c = colon || c = slash || c = 13 || c = 10

/-- `strtol` on the digits behind the sign. -/
def strtolDigits (neg : Bool) (s : List UInt8) : Int :=
  let n := numeral 10 (s.takeWhile isDigit)
  if neg then max (-n) (-2 ^ 63) else min n (2 ^ 63 - 1)

/-- `atoi`: `strtol`, cut to an `int`. -/
def atoi (s : List UInt8) : Int :=
  match skipSpace s with
  | 45 :: s => i32 (strtolDigits true s)
  | 43 :: s => i32 (strtolDigits false s)
  | s => i32 (strtolDigits false s)

/-- What makes `parse_uri` undefined: a `NULL` pointer is read, or a negative length is copied. -/
inductive Fault
  | null
  | negative
deriving DecidableEq

/-- The return value, and what `parse_uri` leaves in its arguments. -/
structure Parsed where
  ret : Int
  hostname : List UInt8
  pathname : List UInt8
  port : Int
deriving DecidableEq

def parseUri (uri pathname : List UInt8) (port : Int) : Except Fault Parsed :=
  if isHttp uri = false then .ok ⟨-1, [], pathname, port⟩
  else
    let hostbegin := uri.drop 7
    match hostbegin.findIdx? isDelim with
    -- `len = NULL - hostbegin`, and `*hostend` is read
    | none => .error .null
    | some hostend =>
      let len := i32 hostend
      if len < 0 then .error .negative
      else
        let hostname := hostbegin.take len.toNat
        let port := if hostbegin[hostend]? = some colon then atoi (hostbegin.drop (hostend + 1)) else 80
        match hostbegin.findIdx? (· = slash) with
        | none => .ok ⟨0, hostname, [], port⟩
        | some pathbegin => .ok ⟨0, hostname, hostbegin.drop (pathbegin + 1), port⟩

/-! ### The grammar -/

def portText : Option (List UInt8) → List UInt8
  | none => []
  | some ds => colon :: ds

def pathText : Option (List UInt8) → List UInt8
  | none => []
  | some path => slash :: path

def portOf : Option (List UInt8) → Int
  | none => 80
  | some ds => numeral 10 ds

/-- `uri` is `http://`, a host, and perhaps a port and a path. -/
structure IsUri (uri host : List UInt8) (port path : Option (List UInt8)) : Prop where
  text : ∃ scheme, scheme.map toLower = http ∧ uri = scheme ++ (host ++ (portText port ++ pathText path))
  nonempty : host ≠ []
  host : ∀ c ∈ host, isDelim c = false
  digits : ∀ ds, port = some ds → ds ≠ [] ∧ ∀ c ∈ ds, isDigit c = true
  range : ∀ ds, port = some ds → 1 ≤ numeral 10 ds ∧ numeral 10 ds ≤ 65535

/-- `parse_uri` accepts the grammar, refuses what is not `http://`, and never faults. -/
structure ParsesUri (uri pathname : List UInt8) (port : Int) : Prop where
  accepts : ∀ host ds path, IsUri uri host ds path →
    parseUri uri pathname port = .ok ⟨0, host, path.getD [], portOf ds⟩
  refuses : isHttp uri = false → ∃ r, parseUri uri pathname port = .ok r ∧ r.ret = -1
  safe : ∃ r, parseUri uri pathname port = .ok r

variable {uri host pathname s t : List UInt8} {port path : Option (List UInt8)} {c : UInt8} {n : Nat}

/-! ### The search -/

theorem findIdx?_append {p : UInt8 → Bool} (hs : ∀ c ∈ s, p c = false) :
    (s ++ t).findIdx? p = (t.findIdx? p).map (· + s.length) := by
  rw [List.findIdx?_append, List.findIdx?_eq_none_iff.2 hs]
  rfl

theorem isDigit_iff : isDigit c = true ↔ 48 ≤ c.toNat ∧ c.toNat ≤ 57 := by
  simp [isDigit, UInt8.le_iff_toNat_le]

theorem atoi_digits {ds : List UInt8} (hne : ds ≠ []) (hd : ∀ c ∈ ds, isDigit c = true)
    (ht : ∀ c, t.head? = some c → isDigit c = false) (hlt : numeral 10 ds < 2 ^ 31) :
    atoi (ds ++ t) = numeral 10 ds := by
  have htake : (ds ++ t).takeWhile isDigit = ds := by
    rw [List.takeWhile_append_of_pos hd]
    cases t with
    | nil => simp
    | cons c t => simp [ht c rfl]
  obtain ⟨c, ds', rfl⟩ := List.exists_cons_of_ne_nil hne
  have hc := isDigit_iff.1 (hd c (by simp))
  have hspace : isSpace c = false := by
    rw [← Bool.not_eq_true, isSpace_iff]
    omega
  unfold atoi
  rw [List.cons_append, skipSpace_cons hspace, ← List.cons_append]
  split
  · rename_i s heq
    obtain rfl : c = 45 := (List.cons.inj heq).1
    exact absurd hc.1 (by decide)
  · rename_i s heq
    obtain rfl : c = 43 := (List.cons.inj heq).1
    exact absurd hc.1 (by decide)
  · simp only [strtolDigits, htake, Bool.false_eq_true, if_false]
    rw [min_eq_left (by omega), i32_natCast hlt]

/-! ### Strings of the grammar -/

theorem IsUri.split (h : IsUri uri host port path) :
    isHttp uri = true ∧ uri.drop 7 = host ++ (portText port ++ pathText path) := by
  obtain ⟨scheme, hlow, rfl⟩ := h.text
  have hlen : scheme.length = 7 := by
    rw [← List.length_map (f := toLower), hlow]
    rfl
  constructor
  · rw [isHttp, List.take_left' hlen, hlow]
    exact decide_eq_true rfl
  · exact List.drop_left' hlen

theorem IsUri.findIdx_delim (h : IsUri uri host port path) (hn : (uri.drop 7).findIdx? isDelim = some n) :
    n = host.length := by
  rw [h.split.2, findIdx?_append h.host] at hn
  cases port with
  | some ds =>
    rw [portText, List.cons_append, List.findIdx?_cons, if_pos (by decide)] at hn
    simpa using hn.symm
  | none =>
    cases path with
    | some path =>
      rw [portText, List.nil_append, pathText, List.findIdx?_cons, if_pos (by decide)] at hn
      simpa using hn.symm
    | none => cases hn

theorem IsUri.findIdx_slash (h : IsUri uri host port path) :
    (uri.drop 7).findIdx? (· = slash) = path.map fun _ => (host ++ portText port).length := by
  have hnot : ∀ c ∈ host ++ portText port, decide (c = slash) = false := by
    intro c hc
    rw [decide_eq_false_iff_not]
    rintro rfl
    rcases List.mem_append.1 hc with hc | hc
    · exact absurd (h.host _ hc) (by decide)
    · cases port with
      | none => cases hc
      | some ds =>
        rcases List.mem_cons.1 hc with hc | hc
        · exact absurd hc (by decide)
        · exact absurd ((h.digits ds rfl).2 _ hc) (by decide)
  rw [h.split.2, ← List.append_assoc, findIdx?_append hnot]
  cases path with
  | none => rfl
  | some path => rw [pathText, List.findIdx?_cons, if_pos (by decide), Option.map_some, Nat.zero_add]; rfl

theorem IsUri.port_eq (h : IsUri uri host port path) (hn : (uri.drop 7).findIdx? isDelim = some n) :
    (if (uri.drop 7)[n]? = some colon then atoi ((uri.drop 7).drop (n + 1)) else 80) = portOf port := by
  obtain rfl := h.findIdx_delim hn
  rw [h.split.2, List.getElem?_append_right le_rfl, Nat.sub_self]
  cases port with
  | some ds =>
    obtain ⟨hne, hd⟩ := h.digits ds rfl
    obtain ⟨-, hle⟩ := h.range ds rfl
    have hdrop : (host ++ (portText (some ds) ++ pathText path)).drop (host.length + 1) = ds ++ pathText path := by
      rw [← List.drop_drop, List.drop_left, portText, List.cons_append, List.drop_succ_cons, List.drop_zero]
    have hcolon : (portText (some ds) ++ pathText path)[0]? = some colon := rfl
    rw [if_pos hcolon, hdrop, portOf]
    refine atoi_digits hne hd ?_ (by omega)
    intro c hc
    cases path with
    | none => cases hc
    | some path =>
      obtain rfl : slash = c := Option.some.inj hc
      rfl
  | none =>
    rw [if_neg]
    · rfl
    · cases path with
      | none => exact fun h => by cases h
      | some path => exact fun h => absurd (Option.some.inj h) (by decide)

theorem IsUri.path_eq (path : List UInt8) (h : IsUri uri host port (some path)) :
    (uri.drop 7).drop ((host ++ portText port).length + 1) = path := by
  rw [h.split.2, ← List.append_assoc, ← List.drop_drop, List.drop_left, pathText, List.drop_succ_cons, List.drop_zero]

/-! ### The three results -/

theorem parseUri_ok {port : Int} (hhttp : isHttp uri = true) (hn : (uri.drop 7).findIdx? isDelim = some n)
    (hlen : 0 ≤ i32 n) :
    ∃ r, parseUri uri pathname port = .ok r ∧ r.hostname = (uri.drop 7).take (i32 n).toNat := by
  unfold parseUri
  rw [if_neg (by rw [hhttp]; decide)]
  simp only [hn, if_neg (not_lt.2 hlen)]
  cases (uri.drop 7).findIdx? (· = slash) with
  | none => exact ⟨_, rfl, rfl⟩
  | some i => exact ⟨_, rfl, rfl⟩

theorem parseUri_negative {port : Int} (hhttp : isHttp uri = true) (hn : (uri.drop 7).findIdx? isDelim = some n)
    (hlen : i32 n < 0) : parseUri uri pathname port = .error .negative := by
  unfold parseUri
  rw [if_neg (by rw [hhttp]; decide)]
  simp only [hn, if_pos hlen]

theorem parseUri_null {port : Int} (hhttp : isHttp uri = true) (hn : (uri.drop 7).findIdx? isDelim = none) :
    parseUri uri pathname port = .error .null := by
  unfold parseUri
  rw [if_neg (by rw [hhttp]; decide)]
  simp only [hn]

theorem parseUri_refuses {port : Int} (h : isHttp uri = false) :
    parseUri uri pathname port = .ok ⟨-1, [], pathname, port⟩ := if_pos h

/-- **The grammar**, where the host is found and its length is an `int`. -/
theorem IsUri.parseUri {port₀ : Int} (h : IsUri uri host port path)
    (hn : (uri.drop 7).findIdx? isDelim = some n) (hlen : n < 2 ^ 31) :
    parseUri uri pathname port₀ = .ok ⟨0, host, path.getD [], portOf port⟩ := by
  have hport := h.port_eq hn
  have hslash := h.findIdx_slash
  have htake : (uri.drop 7).take n = host := by
    rw [h.split.2, h.findIdx_delim hn]
    exact List.take_left
  unfold Arc.parseUri
  rw [if_neg (by rw [h.split.1]; decide)]
  simp only [hn, i32_natCast hlen, Int.toNat_natCast, hport, htake, hslash]
  rw [if_neg (by omega)]
  cases path with
  | none => rfl
  | some path =>
    simp only [Option.map_some, h.path_eq]
    rfl

/-- The condition: the host ends at a delimiter, and its length is an `int`; where the length is only cut
to one that is not negative, the string must be outside the grammar. -/
def HostFits (uri : List UInt8) : Prop :=
  ∃ n, (uri.drop 7).findIdx? isDelim = some n ∧
    (n < 2 ^ 31 ∨ n % 2 ^ 32 < 2 ^ 31 ∧ ¬ ∃ host port path, IsUri uri host port path)

/-- **`parse_uri`** is right exactly for the strings that are not `http://` and those whose host ends at a
delimiter, if its length is an `int`. -/
theorem parse_uri_iff (uri pathname : List UInt8) (port : Int) :
    ParsesUri uri pathname port ↔ isHttp uri = false ∨ HostFits uri := by
  by_cases hhttp : isHttp uri = false
  · have hr : Arc.parseUri uri pathname port = _ := parseUri_refuses hhttp
    refine iff_of_true ⟨fun host ds path h => ?_, fun _ => ⟨_, hr, rfl⟩, ⟨_, hr⟩⟩ (.inl hhttp)
    rw [h.split.1] at hhttp
    cases hhttp
  rw [Bool.not_eq_false] at hhttp
  cases hn : (uri.drop 7).findIdx? isDelim with
  | none =>
    refine iff_of_false ?_ ?_
    · rintro ⟨-, -, r, hr⟩
      rw [parseUri_null hhttp hn] at hr
      cases hr
    · rintro (h | ⟨n, hsome, -⟩)
      · rw [hhttp] at h
        cases h
      · rw [hn] at hsome
        cases hsome
  | some n =>
    have hmod := i32_emod n
    obtain ⟨hlow, hhigh⟩ := i32_range n
    by_cases hneg : i32 n < 0
    · refine iff_of_false ?_ ?_
      · rintro ⟨-, -, r, hr⟩
        rw [parseUri_negative hhttp hn hneg] at hr
        cases hr
      · rintro (h | ⟨m, hsome, hm⟩)
        · rw [hhttp] at h
          cases h
        · obtain rfl : n = m := Option.some.inj (hn.symm.trans hsome)
          omega
    · obtain ⟨r, hr, hhost⟩ : ∃ r, Arc.parseUri uri pathname port = .ok r ∧ _ :=
        parseUri_ok hhttp hn (not_lt.1 hneg)
      have hrefuses : isHttp uri = false → ∃ r, Arc.parseUri uri pathname port = .ok r ∧ r.ret = -1 := by
        intro h
        rw [hhttp] at h
        cases h
      rcases Nat.lt_or_ge n (2 ^ 31) with hlt | hge
      · exact iff_of_true ⟨fun _ _ _ h => h.parseUri hn hlt, hrefuses, r, hr⟩ (.inr ⟨n, hn, .inl hlt⟩)
      · by_cases hgram : ∃ host port path, IsUri uri host port path
        · obtain ⟨host, ds, path, h⟩ := hgram
          refine iff_of_false ?_ ?_
          · rintro ⟨haccepts, -, -⟩
            rw [haccepts host ds path h] at hr
            obtain rfl := Except.ok.inj hr
            have hlen := congrArg List.length hhost
            rw [← h.findIdx_delim hn, List.length_take] at hlen
            omega
          · rintro (hf | ⟨m, hsome, hm⟩)
            · rw [hhttp] at hf
              cases hf
            · obtain rfl : n = m := Option.some.inj (hn.symm.trans hsome)
              rcases hm with hm | ⟨-, hno⟩
              · omega
              · exact hno ⟨host, ds, path, h⟩
        · refine iff_of_true ⟨fun host ds path h => ?_, hrefuses, r, hr⟩ (.inr ⟨n, hn, .inr ⟨by omega, hgram⟩⟩)
          exact absurd ⟨host, ds, path, h⟩ hgram

/-- `strpbrk` finds nothing behind a host alone. -/
theorem parse_uri_null : ¬ ParsesUri (ascii "http://example") [] 0 := by
  rintro ⟨-, -, r, hr⟩
  have hnull : Arc.parseUri (ascii "http://example") [] 0 = .error .null := by decide +kernel
  rw [hnull] at hr
  cases hr

end CsappLab.Arc
