import CsappLab.Shell.Parseline

/-!
# Command lines of quoted arguments

What `parseline` makes of a line that was put together from arguments, each bare or between quotes, and
when it stays in its bounds on any line.
-/

namespace CsappLab.Shell

open CStr CBuf

variable {array : Buf} {argv : Argv} {s t : List UInt8}

/-- An argument that can be written bare, or between quotes. -/
structure Arg where
  word : List UInt8
  quoted : Bool
  zero : 0 ∉ word
  ok : if quoted then quote ∉ word else word ≠ [] ∧ space ∉ word ∧ word.head? ≠ some quote

def Arg.text (a : Arg) : List UInt8 := if a.quoted then quote :: (a.word ++ [quote]) else a.word

def spaces (n : Nat) : List UInt8 := List.replicate n space

/-- Arguments with at least one space behind each. -/
def join (args : List (Arg × Nat)) : List UInt8 := args.flatMap fun a => a.1.text ++ spaces (a.2 + 1)

/-- A command line: spaces, the arguments with one or more spaces between them, spaces and a newline. -/
def commandLine (lead : Nat) (init : List (Arg × Nat)) (last : Arg) (trail : Nat) : List UInt8 :=
  spaces lead ++ join init ++ last.text ++ spaces trail ++ [10]

/-! ### The words of a line -/

theorem words_congr (h : dropSpaces s = dropSpaces t) : words s = words t := by
  cases hnext : nextWord (dropSpaces s) with
  | none => rw [words_none hnext, words_none (h ▸ hnext)]
  | some r =>
    obtain ⟨q, w, rest⟩ := r
    rw [words_some hnext]
    exact (words_some (h ▸ hnext)).symm

theorem dropSpaces_spaces (n : Nat) (s : List UInt8) : dropSpaces (spaces n ++ s) = dropSpaces s := by
  induction n with
  | zero => rfl
  | succ n ih =>
    rw [← ih]
    simp [spaces, List.replicate_succ, dropSpaces]

theorem words_arg (a : Arg) (t : List UInt8) : words (a.text ++ space :: t) = a.word :: words t := by
  have hok := a.ok
  unfold Arg.text
  split_ifs with hq
  · rw [if_pos hq] at hok
    have hnext : nextWord (dropSpaces (quote :: (a.word ++ [quote]) ++ space :: t)) =
        some ([quote], a.word, space :: t) := by
      have hcut := cut_append hok (space :: t)
      simpa [dropSpaces, quote, space, nextWord] using hcut
    rw [words_some hnext]
    exact congrArg (a.word :: ·) (words_congr (dropSpaces_spaces 1 t))
  · rw [if_neg hq] at hok
    obtain ⟨hne, hspace, hquote⟩ := hok
    obtain ⟨b, w, hw⟩ := List.exists_cons_of_ne_nil hne
    rw [hw, List.head?_cons, Ne, Option.some.injEq] at hquote
    have hb : b ≠ space := fun h => hspace (hw ▸ h ▸ List.mem_cons_self)
    have hnext : nextWord (dropSpaces (a.word ++ space :: t)) = some ([], a.word, t) := by
      have hcut := cut_append hspace t
      rw [hw, List.cons_append] at hcut ⊢
      have hdrop : dropSpaces (b :: (w ++ space :: t)) = b :: (w ++ space :: t) := by simp [dropSpaces, hb]
      rw [hdrop, nextWord, if_neg hquote, hcut]
      rfl
    exact words_some hnext

/-- **The words** of a line are its arguments. -/
theorem words_join (args : List (Arg × Nat)) : words (join args) = args.map fun a => a.1.word := by
  induction args with
  | nil =>
    refine words_none ?_
    rfl
  | cons a args ih =>
    have hjoin : join (a :: args) = a.1.text ++ space :: (spaces a.2 ++ join args) := by
      simp [join, spaces, List.replicate_succ]
    rw [hjoin, words_arg, words_congr (dropSpaces_spaces a.2 (join args)), ih, List.map_cons]

theorem spaced_commandLine (lead : Nat) (init : List (Arg × Nat)) (last : Arg) (trail : Nat) :
    spaced (commandLine lead init last trail) = spaces lead ++ join (init ++ [(last, trail)]) := by
  unfold spaced commandLine
  rw [List.dropLast_concat]
  simp [join, spaces, List.replicate_succ']

theorem words_commandLine (lead : Nat) (init : List (Arg × Nat)) (last : Arg) (trail : Nat) :
    words (spaced (commandLine lead init last trail)) = init.map (fun a => a.1.word) ++ [last.word] := by
  rw [spaced_commandLine, words_congr (dropSpaces_spaces lead _), words_join, List.map_append]
  rfl

theorem Arg.text_zero (a : Arg) : 0 ∉ a.text := by
  unfold Arg.text
  split_ifs
  · simp [a.zero, quote]
  · exact a.zero

theorem commandLine_zero (lead : Nat) (init : List (Arg × Nat)) (last : Arg) (trail : Nat) :
    0 ∉ commandLine lead init last trail := by
  have hspaces : ∀ n, 0 ∉ spaces n := fun n h => by cases List.eq_of_mem_replicate h
  simp only [commandLine, join, List.mem_append, List.mem_flatMap, not_or, not_exists, not_and]
  exact ⟨⟨⟨⟨hspaces lead, fun a _ => ⟨a.1.text_zero, hspaces _⟩⟩, last.text_zero⟩, hspaces trail⟩, by decide⟩

/-- **Quoting.** `parseline` gets the arguments back, all but a last one that begins with an ampersand. -/
theorem parseline_arguments (lead : Nat) (init : List (Arg × Nat)) (last : Arg) (trail : Nat) (rest : Buf)
    (hf : Fresh array argv) (hargs : init.length + 1 ≤ 127)
    (hlen : (commandLine lead init last trail).length < MAXLINE) :
    ∃ array' argv', parseline array (text (commandLine lead init last trail) rest) argv =
        .ok (array', argv', if last.word.head? = some ampersand then 1 else 0) ∧
      Arguments array' argv' (if last.word.head? = some ampersand then init.map fun a => a.1.word
        else init.map (fun a => a.1.word) ++ [last.word]) := by
  have hcarries : Carries (text (commandLine lead init last trail) rest) (commandLine lead init last trail) :=
    ⟨commandLine_zero lead init last trail, rest, rfl⟩
  have hne : commandLine lead init last trail ≠ [] := by simp [commandLine]
  have hwords := words_commandLine lead init last trail
  have hback : background (init.map (fun a => a.1.word) ++ [last.word]) = true ↔
      last.word.head? = some ampersand := by simp [background]
  have h := (parseline_words hf hcarries hlen).1 ⟨hne, by
    rw [hwords, List.length_append, List.length_map]
    exact Nat.lt_of_le_of_lt hargs (by decide)⟩
  rw [hwords] at h
  simpa [hback] using h

theorem parseline_arguments_example :
    let a : Arg := ⟨ascii "a b", true, by decide, by decide⟩
    let c : Arg := ⟨ascii "c", false, by decide, by decide⟩
    ∃ array' argv', parseline (fresh MAXLINE) (text (commandLine 1 [(a, 0)] c 2) []) (List.replicate MAXARGS none) =
        .ok (array', argv', if c.word.head? = some ampersand then 1 else 0) ∧
      Arguments array' argv' (if c.word.head? = some ampersand then [(a, 0)].map fun a => a.1.word
        else [(a, 0)].map (fun a => a.1.word) ++ [c.word]) :=
  parseline_arguments 1 [(⟨ascii "a b", true, by decide, by decide⟩, 0)]
    ⟨ascii "c", false, by decide, by decide⟩ 2 [] ⟨length_fresh _, List.length_replicate⟩ (by decide) (by decide)

/-! ### The bounds -/

theorem carries_text (line : List UInt8) (rest : Buf) : Carries (text line rest) (str line) := by
  refine ⟨zero_not_mem_str line, ?_⟩
  induction line with
  | nil => exact ⟨rest, rfl⟩
  | cons b line ih =>
    by_cases hb : b = 0
    · exact ⟨line.map some ++ some 0 :: rest, by simp [text, str, hb]⟩
    · obtain ⟨old, hold⟩ := ih
      have hstr : str (b :: line) = b :: str line := by simp [str, hb]
      exact ⟨old, by rw [hstr, List.map_cons, List.cons_append, ← hold]; rfl⟩

/-- **The bounds** hold exactly for the lines that do not begin with a zero byte and have at most 127
words. -/
theorem parseline_bounds (line : List UInt8) (rest : Buf) (hlen : line.length ≤ MAXLINE - 1)
    (hf : Fresh array argv) : (∃ r, parseline array (text line rest) argv = .ok r) ↔
      str line ≠ [] ∧ (words (spaced (str line))).length < MAXARGS := by
  have hstr : (str line).length < MAXLINE :=
    (strlen_le line).trans_lt (hlen.trans_lt (by decide))
  obtain ⟨hok, hfault⟩ := parseline_words hf (carries_text line rest) hstr
  constructor
  · rintro ⟨r, hr⟩
    by_contra hno
    rw [hfault hno] at hr
    cases hr
  · intro h
    obtain ⟨array', argv', hp, -⟩ := hok h
    exact ⟨_, hp⟩

theorem parseline_bounds_ls :
    (∃ r, parseline (fresh MAXLINE) (text (ascii "ls\n") []) (List.replicate MAXARGS none) = .ok r) ↔
    str (ascii "ls\n") ≠ [] ∧ (words (spaced (str (ascii "ls\n")))).length < MAXARGS :=
  parseline_bounds (ascii "ls\n") [] (by decide) ⟨length_fresh _, List.length_replicate⟩

/-- A line that begins with a zero byte, and 128 arguments. -/
theorem parseline_faults :
    parseline (fresh MAXLINE) (text [0, 10] []) (List.replicate MAXARGS none) = .error .outside ∧
    let a : Arg := ⟨ascii "a", false, by decide, by decide⟩
    let line := commandLine 0 (List.replicate 127 (a, 0)) a 0
    line.length ≤ MAXLINE - 1 ∧
      parseline (fresh MAXLINE) (text line []) (List.replicate MAXARGS none) = .error .outside := by
  have hf : Fresh (fresh MAXLINE) (List.replicate MAXARGS none) :=
    ⟨length_fresh _, List.length_replicate⟩
  constructor
  · exact (parseline_words hf (carries_text [0, 10] []) (by decide)).2 fun h => h.1 rfl
  · intro a line
    have hlen : line.length = 256 := by decide +kernel
    refine ⟨by rw [hlen]; decide, ?_⟩
    have hcarries : Carries (text line []) line := ⟨commandLine_zero _ _ _ _, [], rfl⟩
    refine (parseline_words hf hcarries (by rw [hlen]; decide)).2 fun h => ?_
    have hwords := h.2
    rw [words_commandLine, List.length_append, List.length_map, List.length_replicate] at hwords
    exact absurd hwords (by decide)

end CsappLab.Shell
