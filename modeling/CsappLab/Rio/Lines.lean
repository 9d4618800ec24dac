import CsappLab.Rio.Buffered

/-!
# The lines of a stream

What successive calls of `rio_readlineb` deliver: the stream cut behind every newline, and behind `room`
bytes where a line is longer. At the end of the stream a call returns 0 and leaves its buffer alone.
-/

namespace CsappLab.Rio

variable {room maxlen n k : Nat} {rp : RioT} {fd : Fd} {bytes rest l : List UInt8} {ls : List (List UInt8)}

theorem nextLine_prefix (room : Nat) (bytes : List UInt8) : nextLine room bytes <+: bytes := by
  induction room generalizing bytes with
  | zero => exact List.nil_prefix
  | succ room ih =>
    cases bytes with
    | nil => exact List.nil_prefix
    | cons c bytes =>
      by_cases hc : c = 10
      · rw [hc, nextLine_newline]
        exact ⟨bytes, rfl⟩
      · rw [nextLine_cons hc]
        exact List.cons_prefix_cons.2 ⟨rfl, ih bytes⟩

theorem nextLine_append_drop (room : Nat) (bytes : List UInt8) :
    nextLine room bytes ++ bytes.drop (nextLine room bytes).length = bytes := by
  obtain ⟨t, ht⟩ := nextLine_prefix room bytes
  generalize nextLine room bytes = l at ht
  rw [← ht, List.drop_left]

theorem nextLine_eq_append {a b : List UInt8} (h : nextLine room bytes = a ++ 10 :: b) : b = [] := by
  induction room generalizing bytes a with
  | zero => simp [nextLine] at h
  | succ room ih =>
    cases bytes with
    | nil => simp at h
    | cons c bytes =>
      by_cases hc : c = 10
      · rw [hc, nextLine_newline] at h
        cases a with
        | nil => simpa [eq_comm] using h
        | cons d a => simp at h
      · rw [nextLine_cons hc] at h
        cases a with
        | nil => exact absurd (List.cons.inj h).1 hc
        | cons d a => exact ih (List.cons.inj h).2

theorem nextLine_line (hl : 10 ∉ l) (hroom : l.length < room) : nextLine room (l ++ 10 :: rest) = l ++ [10] := by
  induction l generalizing room with
  | nil =>
    obtain ⟨room, rfl⟩ := Nat.exists_eq_succ_of_ne_zero (by simp at hroom; omega : room ≠ 0)
    exact nextLine_newline room rest
  | cons c l ih =>
    obtain ⟨room, rfl⟩ := Nat.exists_eq_succ_of_ne_zero (by simp at hroom; omega : room ≠ 0)
    rw [List.mem_cons, not_or] at hl
    rw [List.cons_append, nextLine_cons (Ne.symm hl.1), ih hl.2 (by simpa using hroom)]
    rfl

theorem length_drop_nextLine (hroom : 0 < room) (h : bytes ≠ []) :
    (bytes.drop (nextLine room bytes).length).length < bytes.length := by
  have h1 : nextLine room bytes ≠ [] := fun h0 => h ((nextLine_eq_nil_iff hroom).1 h0)
  have h2 := List.length_pos_iff.2 h1
  have h3 := List.length_pos_iff.2 h
  rw [List.length_drop]
  omega

/-- The lines of a stream, in pieces of at most `room` bytes. -/
def lines (room : Nat) (bytes : List UInt8) : List (List UInt8) :=
  if _h : 0 < room ∧ bytes ≠ [] then
    nextLine room bytes :: lines room (bytes.drop (nextLine room bytes).length)
  else []
termination_by bytes.length
decreasing_by exact length_drop_nextLine _h.1 _h.2

@[simp] theorem lines_nil (room : Nat) : lines room [] = [] := by
  unfold lines
  simp

theorem lines_of_ne_nil (hroom : 0 < room) (h : bytes ≠ []) :
    lines room bytes = nextLine room bytes :: lines room (bytes.drop (nextLine room bytes).length) := by
  conv_lhs => unfold lines
  exact dif_pos ⟨hroom, h⟩

theorem flatten_lines (hroom : 0 < room) (bytes : List UInt8) : (lines room bytes).flatten = bytes := by
  induction hn : bytes.length using Nat.strong_induction_on generalizing bytes with
  | _ n ih =>
    by_cases h : bytes = []
    · rw [h, lines_nil, List.flatten_nil]
    · rw [lines_of_ne_nil hroom h, List.flatten_cons, ih _ ?_ _ rfl, nextLine_append_drop]
      exact hn ▸ length_drop_nextLine hroom h

theorem lines_line (hl : 10 ∉ l) (hroom : l.length < room) :
    lines room (l ++ 10 :: rest) = (l ++ [10]) :: lines room rest := by
  have hdrop : (l ++ 10 :: rest).drop (l ++ [10]).length = rest := by
    rw [show l ++ 10 :: rest = l ++ [10] ++ rest by simp]
    exact List.drop_left
  rw [lines_of_ne_nil (by omega) (by simp), nextLine_line hl hroom, hdrop]

theorem lines_last (hl : 10 ∉ l) (hroom : l.length < room) : lines room (l ++ [10]) = [l ++ [10]] := by
  rw [lines_line hl hroom, lines_nil]

theorem nextLine_take (hl : 10 ∉ l) (hroom : room ≤ l.length) : nextLine room (l ++ rest) = l.take room := by
  induction l generalizing room with
  | nil =>
    obtain rfl : room = 0 := by simpa using hroom
    rfl
  | cons c l ih =>
    cases room with
    | zero => rfl
    | succ room =>
      rw [List.mem_cons, not_or] at hl
      rw [List.cons_append, nextLine_cons (Ne.symm hl.1), ih hl.2 (by simpa using hroom), List.take_succ_cons]

theorem lines_long (h0 : 0 < room) (hl : 10 ∉ l) (hroom : room ≤ l.length) :
    lines room (l ++ rest) = l.take room :: lines room (l.drop room ++ rest) := by
  have hne : l ++ rest ≠ [] := by
    rintro h
    rw [(List.append_eq_nil_iff.1 h).1, List.length_nil] at hroom
    omega
  have hlen : (l.take room).length = room := by
    rw [List.length_take]
    omega
  rw [lines_of_ne_nil h0 hne, nextLine_take hl hroom, hlen, List.drop_append_of_le_length hroom]

theorem lines_append (h0 : 0 < room) (hl : 10 ∉ l) :
    lines room (l ++ 10 :: rest) = lines room (l ++ [10]) ++ lines room rest := by
  induction hn : l.length using Nat.strong_induction_on generalizing l with
  | _ n ih =>
    by_cases hlt : l.length < room
    · rw [lines_line hl hlt, lines_line hl hlt, lines_nil, List.singleton_append]
    · rw [lines_long h0 hl (by omega), lines_long h0 hl (by omega), List.cons_append]
      rw [ih (l.drop room).length (by rw [List.length_drop]; omega) (fun h => hl (List.mem_of_mem_drop h)) rfl]

theorem of_mem_lines (h : l ∈ lines room bytes) : l ≠ [] ∧ ∃ rest, l = nextLine room rest := by
  induction hn : bytes.length using Nat.strong_induction_on generalizing bytes with
  | _ n ih =>
    unfold lines at h
    split_ifs at h with h0
    · rcases List.mem_cons.1 h with rfl | h
      · exact ⟨fun h1 => h0.2 ((nextLine_eq_nil_iff h0.1).1 h1), bytes, rfl⟩
      · exact ih _ (hn ▸ length_drop_nextLine h0.1 h0.2) h rfl
    · cases h

/-! ### Reading -/

theorem readlineLoop_usrbuf {usrbuf : List UInt8} (h : rp.Ok) (hn : usrbuf.length + 1 = n) (hk : 0 < k) :
    (readlineLoop rp fd usrbuf n k).usrbuf =
      if usrbuf ++ left rp fd = [] then [] else usrbuf ++ nextLine k (left rp fd) ++ [0] := by
  induction k generalizing rp fd usrbuf n with
  | zero => omega
  | succ k ih =>
    obtain ⟨r, hr⟩ : ∃ r, rioRead rp fd 1 = r := ⟨_, rfl⟩
    have hread := hr ▸ rioRead_byte h fd
    unfold readlineLoop
    rw [hr]
    cases hread with
    | eof hok hl =>
      rw [hl, List.append_nil, nextLine_nil, List.append_nil]
      simp only
      split_ifs with h1 h2 h2
      · exact h2
      · exact absurd (List.eq_nil_of_length_eq_zero (by omega)) h2
      · rw [h2] at hn
        exact absurd hn.symm h1
      · rfl
    | @byte c rp' fd' hok hl =>
      rw [hl, if_neg (by simp)]
      simp only
      split_ifs with hc
      · rw [hc, nextLine_newline]
      · rw [nextLine_cons hc, List.append_cons usrbuf c (nextLine k _)]
        rcases Nat.eq_zero_or_pos k with rfl | hk'
        · simp [readlineLoop, nextLine]
        · rw [ih hok (by simp [← hn]) hk', if_neg (by simp)]

/-- One call of `rio_readlineb`, by the lines that are left. -/
inductive Reads (room : Nat) (rp : RioT) (fd : Fd) (r : Result) : Prop
  | eof : lines room (left rp fd) = [] → r.ret = 0 → r.usrbuf = [] → lines room (left r.rp r.fd) = [] →
      Reads room rp fd r
  | line {l : List UInt8} {ls : List (List UInt8)} : lines room (left rp fd) = l :: ls → r.ret = l.length →
      r.usrbuf = l ++ [0] → r.delivered = l → lines room (left r.rp r.fd) = ls → Reads room rp fd r

/-- **`rio_readlineb`** goes through the lines of the stream. -/
theorem rioReadlineb_reads (h : rp.Ok) (fd : Fd) (hmax : 2 ≤ maxlen) (hint : maxlen ≤ 2 ^ 31) :
    (rioReadlineb rp fd maxlen).rp.Ok ∧ Reads (maxlen - 1) rp fd (rioReadlineb rp fd maxlen) := by
  obtain ⟨hok, -, -, hleft⟩ := rioReadlineb_spec h fd maxlen
  obtain ⟨hret, hdel⟩ := rioReadlineb_small h fd hint
  have hbuf : (rioReadlineb rp fd maxlen).usrbuf = _ :=
    readlineLoop_usrbuf h (show ([] : List UInt8).length + 1 = 1 from rfl) (show 0 < maxlen - 1 by omega)
  refine ⟨hok, ?_⟩
  by_cases h0 : left rp fd = []
  · rw [h0] at hret hbuf hleft
    simp only [nextLine_nil, List.length_nil, List.nil_append, ↓reduceIte] at hret hbuf hleft
    exact .eof (by rw [h0, lines_nil]) hret hbuf (by rw [← hleft, lines_nil])
  · rw [List.nil_append, if_neg h0, List.nil_append] at hbuf
    refine .line (lines_of_ne_nil (by omega) h0) hret hbuf hdel ?_
    rw [List.append_cancel_left (hleft.symm.trans (nextLine_append_drop (maxlen - 1) (left rp fd)).symm)]

theorem rioReadlineb_nil (h : rp.Ok) (hmax : 2 ≤ maxlen) (hint : maxlen ≤ 2 ^ 31)
    (hls : lines (maxlen - 1) (left rp fd) = []) :
    (rioReadlineb rp fd maxlen).rp.Ok ∧ (rioReadlineb rp fd maxlen).ret = 0 ∧
      (rioReadlineb rp fd maxlen).usrbuf = [] ∧
      lines (maxlen - 1) (left (rioReadlineb rp fd maxlen).rp (rioReadlineb rp fd maxlen).fd) = [] := by
  obtain ⟨hok, hread⟩ := rioReadlineb_reads h fd hmax hint
  cases hread with
  | eof _ hret hu hrest => exact ⟨hok, hret, hu, hrest⟩
  | line hl => rw [hls] at hl; cases hl

theorem rioReadlineb_cons (h : rp.Ok) (hmax : 2 ≤ maxlen) (hint : maxlen ≤ 2 ^ 31)
    (hls : lines (maxlen - 1) (left rp fd) = l :: ls) :
    (rioReadlineb rp fd maxlen).rp.Ok ∧ (rioReadlineb rp fd maxlen).ret = l.length ∧
      (rioReadlineb rp fd maxlen).usrbuf = l ++ [0] ∧
      lines (maxlen - 1) (left (rioReadlineb rp fd maxlen).rp (rioReadlineb rp fd maxlen).fd) = ls := by
  obtain ⟨hok, hread⟩ := rioReadlineb_reads h fd hmax hint
  cases hread with
  | eof he => rw [hls] at he; cases he
  | line hl hret hu _ hrest =>
    rw [hls, List.cons.injEq] at hl
    obtain ⟨rfl, rfl⟩ := hl
    exact ⟨hok, hret, hu, hrest⟩

end CsappLab.Rio
