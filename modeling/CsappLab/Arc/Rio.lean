import CsappLab.Rio.Lines

/-!
# The `rio` package of the archived proxies

`rio_readlineb` and `rio_readnb` of `csapp.c` under `arc`, with the same `rio_read`. This
`rio_readlineb` stores the same bytes, but the value it returns is one too large where the line ends
without a newline. This `rio_readnb` has its parentheses in the right place.
-/

namespace CsappLab.Arc

open Rio

variable {rp : RioT} {fd : Fd} {n k maxlen : Nat} {l : List UInt8} {ls : List (List UInt8)}

/-- The loop of `rio_readlineb` from `n` on, with `left` rounds before `maxlen`. -/
def readlineLoop (rp : RioT) (fd : Fd) (usrbuf : List UInt8) (n : Nat) : Nat → Result
  | 0 => ⟨n, usrbuf ++ [0], rp, fd⟩
  | left + 1 =>
    match rioRead rp fd 1 with
    | (1, c :: _, rp, fd) =>
      if c = 10 then ⟨n, usrbuf ++ [c] ++ [0], rp, fd⟩ else readlineLoop rp fd (usrbuf ++ [c]) (n + 1) left
    | (0, _, rp, fd) => if n = 1 then ⟨0, usrbuf, rp, fd⟩ else ⟨n, usrbuf ++ [0], rp, fd⟩
    | (_, _, rp, fd) => ⟨-1, usrbuf, rp, fd⟩

def rioReadlineb (rp : RioT) (fd : Fd) (maxlen : Nat) : Result := readlineLoop rp fd [] 1 (maxlen - 1)

/-- The loop of `rio_readnb`. -/
def readnbLoop (n : Nat) (rp : RioT) (fd : Fd) (usrbuf : List UInt8) (nleft : Nat) : Result :=
  if 0 < nleft then
    match rioRead rp fd nleft with
    | (nread, bytes, rp, fd) =>
      if nread < 0 then ⟨-1, usrbuf ++ bytes, rp, fd⟩
      else if nread = 0 then ⟨n - nleft, usrbuf ++ bytes, rp, fd⟩
      else readnbLoop n rp fd (usrbuf ++ bytes) (nleft - nread.toNat)
  else ⟨n - nleft, usrbuf, rp, fd⟩
termination_by nleft

def rioReadnb (rp : RioT) (fd : Fd) (n : Nat) : Result := readnbLoop n rp fd [] n

/-- `Rio_readlineb_w` and `Rio_readnb_w` return 0 after a failure. -/
def wrapped (r : Result) : Result := if r.ret < 0 then { r with ret := 0 } else r

def rioReadlinebW (rp : RioT) (fd : Fd) (maxlen : Nat) : Result := wrapped (rioReadlineb rp fd maxlen)

def rioReadnbW (rp : RioT) (fd : Fd) (n : Nat) : Result := wrapped (rioReadnb rp fd n)

/-- What `rio_readlineb` returns for the line `l`. -/
def lineSize (l : List UInt8) : Nat := if l = [] then 0 else if l.getLast? = some 10 then l.length else l.length + 1

theorem lineSize_of_not_mem (h : 10 ∉ l) (hne : l ≠ []) : lineSize l = l.length + 1 := by
  unfold lineSize
  rw [if_neg hne, if_neg]
  exact fun h10 => h (List.mem_of_getLast? h10)

theorem lineSize_append_newline (l : List UInt8) : lineSize (l ++ [10]) = (l ++ [10]).length := by
  unfold lineSize
  rw [if_neg (by simp), if_pos List.getLast?_concat]

/-- Only the return value differs from that of the other `rio_readlineb`. -/
theorem readlineLoop_eq {usrbuf : List UInt8} (h : rp.Ok) (hn : usrbuf.length + 1 = n) (h10 : 10 ∉ usrbuf)
    (hk : 0 < k ∨ usrbuf ≠ []) :
    readlineLoop rp fd usrbuf n k = { Rio.readlineLoop rp fd usrbuf n k with
      ret := lineSize (usrbuf ++ nextLine k (left rp fd)) } := by
  induction k generalizing rp fd usrbuf n with
  | zero =>
    have hne : usrbuf ≠ [] := hk.resolve_left (lt_irrefl 0)
    simp only [readlineLoop, Rio.readlineLoop, nextLine, List.append_nil]
    rw [lineSize_of_not_mem h10 hne, hn]
  | succ k ih =>
    obtain ⟨r, hr⟩ : ∃ r, rioRead rp fd 1 = r := ⟨_, rfl⟩
    have hread := hr ▸ rioRead_byte h fd
    unfold readlineLoop Rio.readlineLoop
    rw [hr]
    cases hread with
    | eof hok hl =>
      rw [hl, nextLine_nil, List.append_nil]
      simp only
      split_ifs with h1
      · have hu : usrbuf = [] := List.eq_nil_of_length_eq_zero (by omega)
        rw [hu]
        rfl
      · have hu : usrbuf ≠ [] := by
          rintro rfl
          exact h1 hn.symm
        rw [lineSize_of_not_mem h10 hu, hn]
    | @byte c rp' fd' hok hl =>
      rw [hl]
      simp only
      split_ifs with hc
      · rw [hc, nextLine_newline, lineSize_append_newline]
        simp [hn]
      · have h10' : 10 ∉ usrbuf ++ [c] := by
          simp only [List.mem_append, List.mem_singleton, not_or]
          exact ⟨h10, Ne.symm hc⟩
        rw [nextLine_cons hc, List.append_cons usrbuf c (nextLine k _),
          ih hok (by simp [← hn]) h10' (.inr (by simp))]

/-- **`rio_readlineb`** of the archived `csapp.c`. -/
theorem rioReadlinebW_eq (h : rp.Ok) (fd : Fd) (hmax : 2 ≤ maxlen) :
    rioReadlinebW rp fd maxlen = { Rio.rioReadlineb rp fd maxlen with
      ret := lineSize (nextLine (maxlen - 1) (left rp fd)) } := by
  have hloop : rioReadlineb rp fd maxlen = _ := readlineLoop_eq h rfl List.not_mem_nil (.inl (by omega))
  rw [rioReadlinebW, hloop]
  exact if_neg (Int.natCast_nonneg _).not_gt

theorem rioReadlinebW_nil (h : rp.Ok) (hmax : 2 ≤ maxlen) (hint : maxlen ≤ 2 ^ 31)
    (hls : lines (maxlen - 1) (left rp fd) = []) :
    (rioReadlinebW rp fd maxlen).rp.Ok ∧ (rioReadlinebW rp fd maxlen).usrbuf = [] ∧
      (rioReadlinebW rp fd maxlen).ret = 0 ∧
      left (rioReadlinebW rp fd maxlen).rp (rioReadlinebW rp fd maxlen).fd = [] := by
  obtain ⟨hok, -, hu, hrest⟩ := rioReadlineb_nil h hmax hint hls
  have hroom : 0 < maxlen - 1 := by omega
  have hnil : ∀ {bytes}, lines (maxlen - 1) bytes = [] → bytes = [] := fun {bytes} h0 => by
    rw [← flatten_lines hroom bytes, h0, List.flatten_nil]
  rw [rioReadlinebW_eq h fd hmax]
  refine ⟨hok, hu, ?_, hnil hrest⟩
  simp only [hnil hls, nextLine_nil]
  rfl

theorem rioReadlinebW_cons (h : rp.Ok) (hmax : 2 ≤ maxlen) (hint : maxlen ≤ 2 ^ 31)
    (hls : lines (maxlen - 1) (left rp fd) = l :: ls) :
    (rioReadlinebW rp fd maxlen).rp.Ok ∧ (rioReadlinebW rp fd maxlen).usrbuf = l ++ [0] ∧
      (rioReadlinebW rp fd maxlen).ret = lineSize l ∧
      lines (maxlen - 1) (left (rioReadlinebW rp fd maxlen).rp (rioReadlinebW rp fd maxlen).fd) = ls := by
  obtain ⟨hok, -, hu, hrest⟩ := rioReadlineb_cons h hmax hint hls
  rw [rioReadlinebW_eq h fd hmax]
  have hne : left rp fd ≠ [] := by
    rintro h0
    rw [h0, lines_nil] at hls
    cases hls
  rw [lines_of_ne_nil (by omega) hne, List.cons.injEq] at hls
  refine ⟨hok, hu, ?_, hrest⟩
  simp only [hls.1]

theorem readnbLoop_spec {usrbuf : List UInt8} {nleft : Nat} (h : rp.Ok) (hn : usrbuf.length + nleft = n) :
    (readnbLoop n rp fd usrbuf nleft).rp.Ok ∧
      (readnbLoop n rp fd usrbuf nleft).usrbuf = usrbuf ++ (left rp fd).take nleft ∧
      (readnbLoop n rp fd usrbuf nleft).ret = (readnbLoop n rp fd usrbuf nleft).usrbuf.length ∧
      left (readnbLoop n rp fd usrbuf nleft).rp (readnbLoop n rp fd usrbuf nleft).fd = (left rp fd).drop nleft := by
  induction nleft using Nat.strong_induction_on generalizing rp fd usrbuf with
  | _ nleft ih =>
    unfold readnbLoop
    split_ifs with hpos
    · obtain ⟨rc, bytes, rp', fd', hr⟩ : ∃ rc bytes rp' fd', rioRead rp fd nleft = (rc, bytes, rp', fd') :=
        ⟨_, _, _, _, rfl⟩
      obtain ⟨hok, hrc, hlen, hl, hnil⟩ := rioRead_spec h hpos hr
      rw [hr]
      simp only
      rw [if_neg (by omega)]
      split_ifs with h0
      · have hb : bytes = [] := List.eq_nil_of_length_eq_zero (by omega)
        rw [hb, hnil.1 hb] at hl
        rw [hnil.1 hb, hb]
        refine ⟨hok, by simp, ?_, by simpa using hl.symm⟩
        simp only [List.append_nil]
        omega
      · obtain ⟨hok', hu, hret, hleft⟩ := @ih (nleft - rc.toNat) (by omega) rp' fd' (usrbuf ++ bytes) hok
          (by rw [List.length_append]; omega)
        have hsub : nleft - rc.toNat = nleft - bytes.length := by omega
        refine ⟨hok', ?_, hret, ?_⟩
        · rw [hu, hl, List.take_append, List.take_of_length_le hlen, List.append_assoc, hsub]
        · rw [hleft, hl, List.drop_append, List.drop_of_length_le hlen, List.nil_append, hsub]
    · obtain rfl : nleft = 0 := by omega
      refine ⟨h, by simp, ?_, rfl⟩
      simp only
      omega

/-- **`rio_readnb`** of the archived `csapp.c` delivers the next `n` bytes, or all that are left. -/
theorem rioReadnbW_spec (h : rp.Ok) (fd : Fd) (n : Nat) :
    (rioReadnbW rp fd n).rp.Ok ∧ (rioReadnbW rp fd n).usrbuf = (left rp fd).take n ∧
      (rioReadnbW rp fd n).ret = ((left rp fd).take n).length ∧
      left (rioReadnbW rp fd n).rp (rioReadnbW rp fd n).fd = (left rp fd).drop n := by
  obtain ⟨hok, hu, hret, hleft⟩ := @readnbLoop_spec rp fd n [] n h (Nat.zero_add n)
  rw [List.nil_append] at hu
  rw [hu] at hret
  have hw : rioReadnbW rp fd n = readnbLoop n rp fd [] n := if_neg (by
    rw [rioReadnb, hret]
    exact (Int.natCast_nonneg _).not_gt)
  rw [hw]
  exact ⟨hok, hu, hret, hleft⟩

end CsappLab.Arc
