import CsappLab.Lib.CBuf
import CsappLab.Lib.Fuel

/-!
# `parseline`

The command line is copied into the static `array`, its last character becomes a space, and the words
are cut out in place: a word ends at the next space, or at the next quote if it starts with one. A pointer
into `array` is an index. The loop keeps the cells in front of `buf` and those from `buf` on apart.
-/

namespace CsappLab.Shell

open CStr CBuf Fuel

def MAXLINE : Nat := 1024

def MAXARGS : Nat := 128

/-- `argv`; `none` is `NULL`. -/
abbrev Argv := List (Option Nat)

def space : UInt8 := 32
def quote : UInt8 := 39
def ampersand : UInt8 := 38

def setArg (argv : Argv) (i : Nat) (p : Option Nat) : Except Fault Argv :=
  if i < argv.length then .ok (argv.set i p) else .error .outside

/-- `while (*buf && (*buf == ' ')) buf++`. -/
def skipSpaces : Buf → Buf → Except Fault (Buf × Buf)
  | _, [] => .error .outside
  | _, none :: _ => .error .uninit
  | before, some b :: here =>
    if b = space then skipSpaces (before ++ [some b]) here else .ok (before, some b :: here)

/-- The search for `delim`: the quote that is skipped, the cells of the word, and those behind `delim`. -/
def findDelim (here : Buf) : Except Fault (Option (Buf × Buf × Buf)) := do
  let b ← get here
  if b = quote then
    let found ← strchr quote (here.drop 1)
    .ok (found.map fun r => (here.take 1, r))
  else
    let found ← strchr space here
    .ok (found.map fun r => ([], r))

variable {before here old word rest : Buf} {argv : Argv} {argc : Nat} {s t w : List UInt8} {c : UInt8}

theorem skipSpaces_length {r : Buf × Buf} (h : skipSpaces before here = .ok r) : r.2.length ≤ here.length := by
  induction here generalizing before with
  | nil => cases h
  | cons d here ih =>
    cases d with
    | none => cases h
    | some b =>
      unfold skipSpaces at h
      split_ifs at h
      · exact (ih h).trans (by simp)
      · cases h
        exact le_rfl

theorem strchr_length {front behind : Buf} (h : strchr c here = .ok (some (front, behind))) :
    behind.length < here.length := by
  induction here generalizing front with
  | nil => cases h
  | cons d here ih =>
    cases d with
    | none => cases h
    | some b =>
      unfold strchr at h
      split_ifs at h
      · cases h
        simp
      · cases h
      · obtain ⟨r, hr, h⟩ := bind_eq_ok.1 h
        cases r with
        | none => cases h
        | some r =>
          cases h
          exact (ih hr).trans (by simp)

theorem findDelim_length {q : Buf} (h : findDelim here = .ok (some (q, word, rest))) :
    rest.length < here.length := by
  obtain ⟨b, -, h⟩ := bind_eq_ok.1 h
  split_ifs at h
  · obtain ⟨r, hr, h⟩ := bind_eq_ok.1 h
    obtain ⟨r, rfl, hr'⟩ := Option.map_eq_some_iff.1 (Except.ok.inj h)
    obtain rfl := (Prod.mk.inj hr').2
    refine (strchr_length hr).trans_le ?_
    rw [List.length_drop]
    omega
  · obtain ⟨r, hr, h⟩ := bind_eq_ok.1 h
    obtain ⟨r, rfl, hr'⟩ := Option.map_eq_some_iff.1 (Except.ok.inj h)
    obtain rfl := (Prod.mk.inj hr').2
    exact strchr_length hr

/-- The loop over the words, with the index `argc` of the next one. -/
def parseLoop (before here : Buf) (argv : Argv) (argc : Nat) : Except Fault (Buf × Argv × Nat) :=
  match _h : findDelim here with
  | .error e => .error e
  | .ok none => .ok (before ++ here, argv, argc)
  | .ok (some (q, word, rest)) =>
    match setArg argv argc (some (before ++ q).length) with
    | .error e => .error e
    | .ok argv =>
      match _h' : skipSpaces (before ++ q ++ word ++ [some 0]) rest with
      | .error e => .error e
      | .ok (before, here) => parseLoop before here argv (argc + 1)
termination_by here.length
decreasing_by exact (skipSpaces_length _h').trans_lt (findDelim_length _h)

theorem parseLoop_stop (h : findDelim here = .ok none) :
    parseLoop before here argv argc = .ok (before ++ here, argv, argc) := by
  unfold parseLoop
  split <;> rename_i h'
  · cases h.symm.trans h'
  · rfl
  · cases h.symm.trans h'

theorem parseLoop_full {q : Buf} (h : findDelim here = .ok (some (q, word, rest))) (hargc : argv.length ≤ argc) :
    parseLoop before here argv argc = .error .outside := by
  have hset : ∀ p, setArg argv argc p = .error .outside := fun p => if_neg (by omega)
  unfold parseLoop
  split <;> rename_i h'
  · cases h.symm.trans h'
  · cases h.symm.trans h'
  · rw [hset]

theorem parseLoop_step {q before' here' : Buf} (h : findDelim here = .ok (some (q, word, rest)))
    (hargc : argc < argv.length)
    (hskip : skipSpaces (before ++ q ++ word ++ [some 0]) rest = .ok (before', here')) :
    parseLoop before here argv argc =
      parseLoop before' here' (argv.set argc (some (before ++ q).length)) (argc + 1) := by
  have hset : ∀ p, setArg argv argc p = .ok (argv.set argc p) := fun p => if_pos hargc
  conv_lhs => unfold parseLoop
  split <;> rename_i h'
  · cases h.symm.trans h'
  · cases h.symm.trans h'
  · cases h.symm.trans h'
    rw [hset]
    simp only
    split <;> rename_i h''
    · cases hskip.symm.trans h''
    · cases hskip.symm.trans h''
      rfl

/-- `parseline` behind the loop, with the returned value. -/
def finish (array : Buf) (argv : Argv) (argc : Nat) : Except Fault (Buf × Argv × Nat) := do
  let argv ← setArg argv argc none
  if argc = 0 then .ok (array, argv, 1)
  else
    match argv[argc - 1]? with
    | some (some p) =>
      let b ← get (array.drop p)
      if b = ampersand then
        let argv ← setArg argv (argc - 1) none
        .ok (array, argv, 1)
      else .ok (array, argv, 0)
    | _ => .error .outside

/-- `parseline`: the array, `argv` and the returned value. -/
def parseline (array cmdline : Buf) (argv : Argv) : Except Fault (Buf × Argv × Nat) := do
  let array ← strcpy array cmdline
  let n ← CBuf.strlen array
  let array ← put array (n - 1 : Int) space
  let (before, here) ← skipSpaces [] array
  let (array, argv, argc) ← parseLoop before here argv 0
  finish array argv argc

/-! ### The words of a text -/

def dropSpaces (s : List UInt8) : List UInt8 := s.dropWhile (· = space)

/-- The first word of a text without leading spaces, with its quote, and the text behind its delimiter. -/
def nextWord : List UInt8 → Option (List UInt8 × List UInt8 × List UInt8)
  | [] => none
  | b :: s =>
    if b = quote then (cut quote s).map fun r => ([quote], r) else (cut space (b :: s)).map fun r => ([], r)

theorem nextWord_eq {q rest : List UInt8} (h : nextWord s = some (q, w, rest)) : ∃ d, s = q ++ w ++ d :: rest := by
  cases s with
  | nil => cases h
  | cons b s =>
    simp only [nextWord] at h
    split_ifs at h with hb
    · obtain ⟨r, hr, h⟩ := Option.map_eq_some_iff.1 h
      obtain ⟨rfl, rfl⟩ := Prod.mk.inj h
      exact ⟨quote, by rw [(cut_eq hr).1, hb]; rfl⟩
    · obtain ⟨r, hr, h⟩ := Option.map_eq_some_iff.1 h
      obtain ⟨rfl, rfl⟩ := Prod.mk.inj h
      exact ⟨space, (cut_eq hr).1⟩

theorem nextWord_length {q rest : List UInt8} (h : nextWord s = some (q, w, rest)) : rest.length < s.length := by
  obtain ⟨d, rfl⟩ := nextWord_eq h
  simp
  omega

theorem not_mem_dropSpaces (h : c ∉ s) : c ∉ dropSpaces s := fun hc => h ((List.dropWhile_suffix _).subset hc)

theorem dropSpaces_length (s : List UInt8) : (dropSpaces s).length ≤ s.length :=
  (List.dropWhile_suffix _).length_le

/-- The words: bare ones end at a space, quoted ones at a quote. -/
def words (s : List UInt8) : List (List UInt8) :=
  match _h : nextWord (dropSpaces s) with
  | none => []
  | some (_, w, rest) => w :: words rest
termination_by s.length
decreasing_by exact (nextWord_length _h).trans_le (dropSpaces_length s)

theorem words_none (h : nextWord (dropSpaces s) = none) : words s = [] := by
  unfold words
  split
  · rfl
  · rename_i h'
    rw [h] at h'
    cases h'

theorem words_some {q rest : List UInt8} (h : nextWord (dropSpaces s) = some (q, w, rest)) :
    words s = w :: words rest := by
  conv_lhs => unfold words
  split
  · rename_i h'
    rw [h] at h'
    cases h'
  · rename_i h'
    rw [h] at h'
    cases h'
    rfl

/-! ### The loop on a text -/

theorem skipSpaces_text (s : List UInt8) (before old : Buf) : ∃ sp : Buf,
    skipSpaces before (text s old) = .ok (before ++ sp, text (dropSpaces s) old) := by
  induction s generalizing before with
  | nil => exact ⟨[], by simp [text, skipSpaces, space, dropSpaces]⟩
  | cons b s ih =>
    by_cases hb : b = space
    · obtain ⟨sp, hskip⟩ := ih (before ++ [some b])
      have hdrop : dropSpaces (b :: s) = dropSpaces s := by simp [dropSpaces, hb]
      refine ⟨some b :: sp, ?_⟩
      rw [text, List.map_cons, List.cons_append, skipSpaces, if_pos hb, hdrop]
      simpa [text] using hskip
    · have hdrop : dropSpaces (b :: s) = b :: s := by simp [dropSpaces, hb]
      exact ⟨[], by simp [text, skipSpaces, hb, hdrop]⟩

theorem findDelim_text (h0 : 0 ∉ s) (old : Buf) : findDelim (text s old) =
    .ok ((nextWord s).map fun (q, w, rest) => (q.map some, w.map some, text rest old)) := by
  have hstr := strchr_text (c := space) (by decide) h0 old
  cases s with
  | nil =>
    have hget : CBuf.get (text [] old) = .ok 0 := rfl
    have hquote : (0 : UInt8) ≠ quote := by decide
    unfold findDelim
    rw [hget]
    simp only [bind, Except.bind, hquote, ↓reduceIte, hstr]
    rfl
  | cons b s =>
    have hstr' := strchr_text (c := quote) (by decide) (fun h => h0 (List.mem_cons_of_mem b h)) old
    have hget : CBuf.get (text (b :: s) old) = .ok b := rfl
    have hdrop : (text (b :: s) old).drop 1 = text s old := rfl
    have htake : (text (b :: s) old).take 1 = [some b] := rfl
    unfold findDelim
    rw [hget, hdrop, htake]
    by_cases hb : b = quote
    · simp only [bind, Except.bind, hb, ↓reduceIte, hstr', nextWord, Option.map_map]
      rfl
    · simp only [bind, Except.bind, hb, ↓reduceIte, hstr, nextWord, Option.map_map]
      rfl

/-- Where the words of a list are stored. -/
def Stored (array : Buf) (ps : List Nat) (ws : List (List UInt8)) : Prop :=
  List.Forall₂ (fun p w => Carries (array.drop p) w) ps ws

/-- **The loop** stores the words of a text and leaves what is in front of it, if there is room in `argv`. -/
theorem parseLoop_words (h0 : 0 ∉ s) (before old : Buf) (argv : Argv) (argc : Nat) :
    (argc + (words s).length ≤ argv.length → ∃ array ps, before <+: array ∧ Stored array ps (words s) ∧
      parseLoop before (text (dropSpaces s) old) argv argc =
        .ok (array, argv.take argc ++ ps.map some ++ argv.drop (argc + ps.length), argc + ps.length)) ∧
    (argc ≤ argv.length → argv.length < argc + (words s).length →
      parseLoop before (text (dropSpaces s) old) argv argc = .error .outside) := by
  induction hn : s.length using Nat.strong_induction_on generalizing s before argv argc with
  | _ n ih =>
    have hfind := findDelim_text (not_mem_dropSpaces h0) old
    cases hnext : nextWord (dropSpaces s) with
    | none =>
      rw [hnext] at hfind
      rw [words_none hnext, parseLoop_stop hfind]
      refine ⟨fun _ => ⟨before ++ text (dropSpaces s) old, [], List.prefix_append .., .nil, by simp⟩, ?_⟩
      intro h1 h2
      rw [List.length_nil] at h2
      omega
    | some r =>
      obtain ⟨q, w, rest⟩ := r
      rw [hnext] at hfind
      obtain ⟨d, hs⟩ := nextWord_eq hnext
      have hs0 := not_mem_dropSpaces h0
      rw [hs, List.mem_append, List.mem_append, List.mem_cons] at hs0
      simp only [not_or] at hs0
      obtain ⟨⟨-, hw0⟩, -, hrest0⟩ := hs0
      have hrest : rest.length < n := hn ▸ (nextWord_length hnext).trans_le (dropSpaces_length s)
      obtain ⟨sp, hskip⟩ := skipSpaces_text rest (before ++ q.map some ++ w.map some ++ [some 0]) old
      obtain ⟨ih1, ih2⟩ := ih rest.length hrest hrest0 (before ++ q.map some ++ w.map some ++ [some 0] ++ sp)
        (argv.set argc (some (before ++ q.map some).length)) (argc + 1) rfl
      rw [words_some hnext, List.length_cons]
      constructor
      · intro hroom
        obtain ⟨array, ps, hprefix, hstored, hloop⟩ := ih1 (by rw [List.length_set]; omega)
        obtain ⟨tail, rfl⟩ := hprefix
        refine ⟨_, (before ++ q.map some).length :: ps,
          ⟨q.map some ++ w.map some ++ [some 0] ++ sp ++ tail, by simp⟩, .cons ⟨hw0, sp ++ tail, ?_⟩ hstored, ?_⟩
        · rw [show before ++ q.map some ++ w.map some ++ [some 0] ++ sp ++ tail =
            (before ++ q.map some) ++ (w.map some ++ some 0 :: (sp ++ tail)) by simp]
          exact List.drop_left
        · rw [parseLoop_step hfind (by omega) hskip, hloop]
          have htake : (argv.set argc (some (before ++ q.map some).length)).take (argc + 1) =
              argv.take argc ++ [some (before ++ q.map some).length] := by
            rw [List.take_add_one, List.take_set_of_le le_rfl, List.getElem?_set_self (by omega)]
            rfl
          have hargc : argc + 1 + ps.length = argc + (ps.length + 1) := by omega
          rw [htake, List.drop_set_of_lt (by omega), hargc]
          simp
      · intro h1 h2
        by_cases hfull : argv.length ≤ argc
        · exact parseLoop_full hfind hfull
        · rw [parseLoop_step hfind (by omega) hskip]
          exact ih2 (by rw [List.length_set]; omega) (by rw [List.length_set]; omega)

/-! ### The whole function -/

/-- The line with its last character replaced. -/
def spaced (s : List UInt8) : List UInt8 := s.dropLast ++ [space]

/-- `argv` holds the strings `ws` and `NULL` behind them. -/
def Arguments (array : Buf) (argv : Argv) (ws : List (List UInt8)) : Prop :=
  ∃ ps rest, Stored array ps ws ∧ argv = ps.map some ++ none :: rest

theorem put_last (hne : s ≠ []) (old : Buf) :
    put (text s old) (s.length - 1 : Int) space = .ok (text (spaced s) old) := by
  obtain ⟨s, b, rfl⟩ := (List.eq_nil_or_concat' s).resolve_left hne
  have hidx : ((s ++ [b]).length : Int) - 1 = s.length := by simp
  have hsplit : text (s ++ [b]) old = s.map some ++ some b :: some 0 :: old := by simp [text]
  rw [hidx, hsplit, put, if_pos ⟨by omega, by simp; omega⟩, Int.toNat_natCast, List.set_append_right _ _ (by simp)]
  simp [spaced, text]

theorem spaced_ne (h : c ∉ s) (hc : c ≠ space) : c ∉ spaced s := by
  unfold spaced
  rw [List.mem_append, List.mem_singleton, not_or]
  exact ⟨fun hs => h (List.dropLast_subset s hs), hc⟩

/-- **Up to the loop.** The empty line has no last character. -/
theorem parseline_copied {array cmdline : Buf} (hline : Carries cmdline s) (hlen : s.length < array.length)
    (argv : Argv) :
    (s = [] → parseline array cmdline argv = .error .outside) ∧
    (s ≠ [] → ∃ before old, parseline array cmdline argv =
      parseLoop before (text (dropSpaces (spaced s)) old) argv 0 >>= fun r => finish r.1 r.2.1 r.2.2) := by
  have hcpy := (strcpy_carries hline array).trans (if_pos hlen)
  have hstrlen := strlen_text hline.1 (array.drop (s.length + 1))
  unfold text at hstrlen
  constructor
  · rintro rfl
    simp only [parseline, hcpy, bind, Except.bind, hstrlen, put]
    rw [if_neg (by simp)]
  · intro hne
    obtain ⟨sp, hskip⟩ := skipSpaces_text (spaced s) [] (array.drop (s.length + 1))
    refine ⟨[] ++ sp, array.drop (s.length + 1), ?_⟩
    have hput := put_last hne (array.drop (s.length + 1))
    conv at hput => lhs; unfold text
    simp only [parseline, hcpy, bind, Except.bind, hstrlen, hput, hskip]

def background (ws : List (List UInt8)) : Bool := ws.getLast?.bind List.head? = some ampersand

theorem get_carries {buf : Buf} (h : Carries buf w) : CBuf.get buf = .ok (w.head?.getD 0) := by
  obtain ⟨-, rest, rfl⟩ := h
  cases w <;> rfl

theorem set_length {ps : List (Option Nat)} {p : Option Nat} {rest : Argv} {i : Nat} (hi : i = ps.length) :
    (ps ++ p :: rest).set i none = ps ++ none :: rest := by
  rw [hi, List.set_append_right _ _ le_rfl, Nat.sub_self]
  rfl

theorem stored_concat {array : Buf} {ps : List Nat} {ws : List (List UInt8)} (hs : Stored array ps (ws ++ [w])) :
    ∃ ps' p, ps = ps' ++ [p] ∧ Stored array ps' ws ∧ Carries (array.drop p) w := by
  obtain ⟨p, ps', hp, hps', he⟩ := List.forall₂_cons_right_iff.1 (List.forall₂_drop_append ps ws [w] hs)
  rw [List.forall₂_nil_right_iff.1 hps'] at he
  exact ⟨ps.take ws.length, p, by rw [← he, List.take_append_drop], List.forall₂_take_append ps ws [w] hs, hp⟩

/-- **Behind the loop** `argv` gets its `NULL`, and a last word with an ampersand is removed. -/
theorem finish_words {array : Buf} {ps : List Nat} {ws : List (List UInt8)} (hs : Stored array ps ws)
    (rest : Argv) :
    (rest = [] → finish array (ps.map some ++ rest) ps.length = .error .outside) ∧
    (rest ≠ [] → ∃ argv, finish array (ps.map some ++ rest) ps.length =
        .ok (array, argv, if ws = [] ∨ background ws then 1 else 0) ∧
      Arguments array argv (if background ws then ws.dropLast else ws)) := by
  constructor
  · rintro rfl
    have hset : setArg (ps.map some ++ []) ps.length none = .error .outside := if_neg (by simp)
    simp only [finish, hset, bind, Except.bind]
  · intro hne
    obtain ⟨old, rest, rfl⟩ := List.exists_cons_of_ne_nil hne
    have hset : setArg (ps.map some ++ old :: rest) ps.length none = .ok (ps.map some ++ none :: rest) := by
      rw [setArg, if_pos (by simp), set_length (by simp)]
    unfold finish
    simp only [hset, bind, Except.bind]
    rcases List.eq_nil_or_concat' ws with rfl | ⟨ws, w, rfl⟩
    · obtain rfl : ps = [] := List.forall₂_nil_right_iff.1 hs
      exact ⟨none :: rest, by simp, [], rest, .nil, rfl⟩
    · obtain ⟨ps, p, rfl, hs', hp⟩ := stored_concat hs
      have hlast : ((ps ++ [p]).map some ++ none :: rest)[(ps ++ [p]).length - 1]? = some (some p) := by simp
      have hset' : setArg ((ps ++ [p]).map some ++ none :: rest) ((ps ++ [p]).length - 1) none =
          .ok (ps.map some ++ none :: none :: rest) := by
        rw [setArg, if_pos (by simp), List.map_append, List.append_assoc]
        exact congrArg Except.ok (set_length (by simp))
      have hback : background (ws ++ [w]) = true ↔ w.head?.getD 0 = ampersand := by
        cases w with
        | nil => simp [background, ampersand]
        | cons b w => simp [background]
      have hne : ws ++ [w] ≠ [] := by simp
      have hargc : (ps ++ [p]).length ≠ 0 := by simp
      simp only [hlast, get_carries hp, hset', hback, hne, hargc, false_or, ↓reduceIte]
      by_cases hamp : w.head?.getD 0 = ampersand
      · simp only [if_pos hamp, List.dropLast_concat]
        exact ⟨_, rfl, ps, none :: rest, hs', rfl⟩
      · simp only [if_neg hamp]
        exact ⟨_, rfl, ps ++ [p], rest, hs, rfl⟩

/-- The initial state: `array` and `argv` hold anything. -/
structure Fresh (array : Buf) (argv : Argv) : Prop where
  array : array.length = MAXLINE
  argv : argv.length = MAXARGS

/-- **`parseline`** on a string: the words, if the line is not empty and `argv` has room for them. -/
theorem parseline_words {array cmdline : Buf} (hf : Fresh array argv) (hline : Carries cmdline s)
    (hlen : s.length < MAXLINE) :
    (s ≠ [] ∧ (words (spaced s)).length < MAXARGS → ∃ array' argv', parseline array cmdline argv =
        .ok (array', argv', if words (spaced s) = [] ∨ background (words (spaced s)) then 1 else 0) ∧
      Arguments array' argv'
        (if background (words (spaced s)) then (words (spaced s)).dropLast else words (spaced s))) ∧
    (¬ (s ≠ [] ∧ (words (spaced s)).length < MAXARGS) → parseline array cmdline argv = .error .outside) := by
  obtain ⟨hempty, hcopied⟩ := parseline_copied hline (hf.array ▸ hlen) argv
  by_cases hne : s = []
  · exact ⟨fun h => absurd hne h.1, fun _ => hempty hne⟩
  obtain ⟨before, old, hcopy⟩ := hcopied hne
  have h0 : 0 ∉ spaced s := spaced_ne hline.1 (by decide)
  obtain ⟨hloop, hfull⟩ := parseLoop_words h0 before old argv 0
  have hargv := hf.argv
  rw [hcopy]
  constructor
  · rintro ⟨-, hroom⟩
    obtain ⟨array', ps, -, hs, hl⟩ := hloop (by omega)
    have hlength : ps.length = (words (spaced s)).length := hs.length_eq
    rw [List.take_zero, List.nil_append, Nat.zero_add] at hl
    obtain ⟨argv', hfin, hargs⟩ := (finish_words hs (argv.drop ps.length)).2 (by
      rw [Ne, List.drop_eq_nil_iff]
      omega)
    rw [hl]
    exact ⟨array', argv', hfin, hargs⟩
  · intro hno
    have hroom : MAXARGS ≤ (words (spaced s)).length := by
      by_contra hlt
      exact hno ⟨hne, by omega⟩
    by_cases hexact : (words (spaced s)).length ≤ argv.length
    · obtain ⟨array', ps, -, hs, hl⟩ := hloop (by omega)
      have hlength : ps.length = (words (spaced s)).length := hs.length_eq
      rw [List.take_zero, List.nil_append, Nat.zero_add] at hl
      rw [hl]
      exact (finish_words hs (argv.drop ps.length)).1 (List.drop_eq_nil_iff.2 (by omega))
    · rw [hfull (by omega) (by omega)]
      rfl

end CsappLab.Shell
