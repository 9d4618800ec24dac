import CsappLab.Csim.Cache
import CsappLab.Lib.Scanf
import CsappLab.Rio.Lines

/-!
# Reading the trace

`simulate` reads the file with `fgets(buf, 20, fp)`, which cuts it as `rio_readlineb` does, into pieces of
at most 19 bytes. A piece that does not start with `I` goes through `sscanf(buf, " %c %lx,%d", ..)`, whose
result is not checked: what it does not assign keeps its value, and the operation is carried out again. The
size is only printed.
-/

namespace CsappLab.Csim

open CInt CStr Scanf Rio

variable {g : Geometry}

/-- `operation` and `address`; at the start they hold anything. -/
structure Locals where
  operation : UInt8
  address : BitVec 64

/-- `sscanf(buf, " %c %lx,%d", &operation, &address, &size)`. -/
def scanBuf (v : Locals) (buf : List UInt8) : Locals :=
  match scanChar (str buf) with
  | none => v
  | some (c, s) =>
    match scanHex s with
    | none => { v with operation := c }
    | some address => ⟨c, address⟩

/-- The `switch`. -/
def execute (st : State g) (v : Locals) : State g :=
  if v.operation = 83 then (visitCache st v.address).1
  else if v.operation = 76 then (visitCache st v.address).1
  else if v.operation = 77 then
    let st := (visitCache st v.address).1
    { st with hits := i32 (st.hits + 1) }
  else st

def simulateBuf (st : State g) (v : Locals) (buf : List UInt8) : State g × Locals :=
  if buf.head? = some 73 then (st, v)
  else
    let v := scanBuf v buf
    (execute st v, v)

/-- The loop on the pieces of the file. -/
def simulateBufs (st : State g) (v : Locals) : List (List UInt8) → State g
  | [] => st
  | buf :: bufs =>
    let (st, v) := simulateBuf st v buf
    simulateBufs st v bufs

def simulateFile (st : State g) (v : Locals) (file : List UInt8) : State g := simulateBufs st v (lines 19 file)

/-! ### The calls -/

/-- The call of `visitCache` that the `switch` makes, with its operation. -/
def Locals.call (v : Locals) : List TraceLine :=
  if v.operation = 83 then [⟨.store, v.address⟩]
  else if v.operation = 76 then [⟨.load, v.address⟩]
  else if v.operation = 77 then [⟨.modify, v.address⟩]
  else []

def nextLocals (v : Locals) (buf : List UInt8) : Locals := if buf.head? = some 73 then v else scanBuf v buf

def calls (v : Locals) : List (List UInt8) → List TraceLine
  | [] => []
  | buf :: bufs => (if buf.head? = some 73 then [] else (scanBuf v buf).call) ++ calls (nextLocals v buf) bufs

variable {st : State g} {v : Locals} {buf : List UInt8} {bufs bufs' : List (List UInt8)}

theorem simulate_append (st : State g) (trace trace' : List TraceLine) :
    (simulate st (trace ++ trace')).1 = (simulate (simulate st trace).1 trace').1 := by
  induction trace generalizing st with
  | nil => rfl
  | cons line trace ih => exact ih _

theorem execute_eq (st : State g) (v : Locals) : execute st v = (simulate st v.call).1 := by
  unfold execute Locals.call
  split_ifs <;> rfl

theorem simulateBufs_eq (st : State g) (v : Locals) (bufs : List (List UInt8)) :
    simulateBufs st v bufs = (simulate st (calls v bufs)).1 := by
  induction bufs generalizing st v with
  | nil => rfl
  | cons buf bufs ih =>
    unfold simulateBufs simulateBuf calls nextLocals
    split_ifs with h
    · exact ih st v
    · rw [simulate_append, ← execute_eq]
      exact ih _ _

theorem calls_append : calls v (bufs ++ bufs') = calls v bufs ++ calls (bufs.foldl nextLocals v) bufs' := by
  induction bufs generalizing v with
  | nil => rfl
  | cons buf bufs ih =>
    rw [List.cons_append, calls, calls, ih, List.append_assoc, List.foldl_cons]

/-! ### Pieces without a call -/

def IsOp (c : UInt8) : Prop := c = 83 ∨ c = 76 ∨ c = 77

/-- The letter in `operation` behind a piece: its first byte that is not blank, if there is one. -/
def letter (op : UInt8) (buf : List UInt8) : UInt8 :=
  if buf.head? = some 73 then op else (skipSpace (str buf)).head?.getD op

/-- No piece of a list leads to a call. -/
def Quiet (op : UInt8) : List (List UInt8) → Prop
  | [] => True
  | buf :: bufs => (buf.head? ≠ some 73 → ¬ IsOp (letter op buf)) ∧ Quiet (letter op buf) bufs

theorem nextLocals_operation (v : Locals) (buf : List UInt8) :
    (nextLocals v buf).operation = letter v.operation buf := by
  unfold nextLocals letter
  split_ifs with h
  · rfl
  · unfold scanBuf scanChar
    cases skipSpace (str buf) with
    | nil => rfl
    | cons c s =>
      simp only
      cases scanHex s <;> rfl

theorem foldl_operation (v : Locals) (bufs : List (List UInt8)) :
    (bufs.foldl nextLocals v).operation = bufs.foldl letter v.operation := by
  induction bufs generalizing v with
  | nil => rfl
  | cons buf bufs ih => rw [List.foldl_cons, List.foldl_cons, ih, nextLocals_operation]

theorem call_eq_nil_iff : v.call = [] ↔ ¬ IsOp v.operation := by
  unfold Locals.call IsOp
  split_ifs with h1 h2 h3
  · simp [h1]
  · simp [h2]
  · simp [h3]
  · simp [h1, h2, h3]

theorem calls_eq_nil_iff : calls v bufs = [] ↔ Quiet v.operation bufs := by
  induction bufs generalizing v with
  | nil => simp [calls, Quiet]
  | cons buf bufs ih =>
    rw [calls, List.append_eq_nil_iff, ih, nextLocals_operation, Quiet]
    refine and_congr ?_ Iff.rfl
    split_ifs with h
    · simp [h]
    · have hop : (scanBuf v buf).operation = letter v.operation buf := by
        rw [← nextLocals_operation, nextLocals, if_neg h]
      rw [call_eq_nil_iff, hop]
      simp [h]

/-! ### The lines of a trace file -/

/-- A data line: the operation, the digits of the address and those of the size. -/
structure Data where
  operation : Operation
  digits : List UInt8
  size : List UInt8
  op : operation ≠ .instr
  digits_ne : digits ≠ []
  hex : ∀ c ∈ digits, isHex c = true
  value_lt : numeral 16 digits < 2 ^ 64
  size_ne : size ≠ []
  dec : ∀ c ∈ size, isDigit c = true

inductive Line
  | instr (text : List UInt8) (h : 10 ∉ text)
  | empty
  | data (d : Data)

def opLetter : Operation → UInt8
  | .instr => 73
  | .load => 76
  | .store => 83
  | .modify => 77

def Line.text : Line → List UInt8
  | .instr text _ => 73 :: text
  | .empty => []
  | .data d => 32 :: opLetter d.operation :: 32 :: (d.digits ++ 44 :: d.size)

def Line.access : Line → List TraceLine
  | .data d => [⟨d.operation, BitVec.ofNat 64 (numeral 16 d.digits)⟩]
  | _ => []

def fileText (file : List Line) : List UInt8 := file.flatMap fun line => line.text ++ [10]

def Line.pieces (line : Line) : List (List UInt8) := lines 19 (line.text ++ [10])

/-- What goes well with a line, if `op` is the letter that is in `operation` before: a data line has the
whole address in its first piece and does not leave its newline for a piece of its own. -/
def LineOk (op : UInt8) : Line → Prop
  | .data d => (d.digits.length ≤ 16 ∨ numeral 16 d.digits = 0) ∧ d.digits.length + d.size.length ≠ 15
  | .empty => ¬ IsOp op
  | .instr text h => Quiet op (Line.instr text h).pieces

def FileOk (op : UInt8) : List Line → Prop
  | [] => True
  | line :: file => LineOk op line ∧ FileOk (line.pieces.foldl letter op) file

variable {line : Line} {file : List Line} {d : Data} {op c : UInt8} {u : List UInt8}

theorem isOp_opLetter (d : Data) : IsOp (opLetter d.operation) := by
  have h := d.op
  unfold IsOp
  cases hop : d.operation with
  | instr => exact absurd hop h
  | load => exact .inr (.inl rfl)
  | store => exact .inl rfl
  | modify => exact .inr (.inr rfl)

/-- A byte of the address, the comma or the size. -/
def InNumber (c : UInt8) : Prop := isHex c = true ∨ c = 44

theorem Data.inNumber (d : Data) : ∀ c ∈ d.digits ++ 44 :: d.size, InNumber c := by
  intro c hc
  rw [List.mem_append, List.mem_cons] at hc
  rcases hc with hc | rfl | hc
  · exact .inl (d.hex c hc)
  · exact .inr rfl
  · have := d.dec c hc
    exact .inl (by simp [isHex, this])

theorem InNumber.ne (h : InNumber c) : c ≠ 0 ∧ c ≠ 10 ∧ c ≠ 73 ∧ isSpace c = false ∧ ¬ IsOp c := by
  have h44 : c = 44 → c.toNat = 44 := by
    rintro rfl
    rfl
  replace h := h.imp isHex_iff.1 h44
  have hne : ∀ b : UInt8, c.toNat ≠ b.toNat → c ≠ b := fun b hb hcb => hb (congrArg UInt8.toNat hcb)
  refine ⟨hne _ ?_, hne _ ?_, hne _ ?_, ?_, ?_⟩
  · rw [show UInt8.toNat 0 = 0 from rfl]
    omega
  · rw [show UInt8.toNat 10 = 10 from rfl]
    omega
  · rw [show UInt8.toNat 73 = 73 from rfl]
    omega
  · rw [← Bool.not_eq_true, isSpace_iff]
    omega
  · rintro (rfl | rfl | rfl)
    · simp at h
    · simp at h
    · simp at h

theorem Line.text_not_mem (line : Line) : 10 ∉ line.text := by
  cases line with
  | instr text h => simpa [Line.text] using h
  | empty => simp [Line.text]
  | data d =>
    have hin : 10 ∉ d.digits ++ 44 :: d.size := fun h => (d.inNumber 10 h).ne.2.1 rfl
    have hop : (10 : UInt8) ≠ opLetter d.operation := by cases d.operation <;> decide
    simp only [Line.text, List.mem_cons, not_or]
    exact ⟨by decide, hop, by decide, hin⟩

theorem lines_fileText (file : List Line) : lines 19 (fileText file) = file.flatMap Line.pieces := by
  induction file with
  | nil => exact lines_nil 19
  | cons line file ih =>
    have happ : fileText (line :: file) = line.text ++ 10 :: fileText file := by
      simp [fileText]
    rw [happ, lines_append (by norm_num) line.text_not_mem, ih, List.flatMap_cons]
    rfl

/-! ### Later pieces of a data line -/

theorem letter_inNumber (h : ∀ b ∈ c :: u, InNumber b) (op : UInt8) (rest : List UInt8)
    (hrest : rest = [] ∨ rest = [10]) : letter op (c :: u ++ rest) = c := by
  have hc := (h c (by simp)).ne
  have hstr : str (c :: u ++ rest) = c :: u ++ rest := by
    rw [str_eq_self_iff, List.mem_append]
    rintro (h0 | h0)
    · exact (h 0 h0).ne.1 rfl
    · rcases hrest with rfl | rfl
      · cases h0
      · simp at h0
  unfold letter
  rw [hstr, List.cons_append, List.head?_cons, if_neg (by simpa using hc.2.2.1), skipSpace_cons hc.2.2.2.1]
  rfl

/-- They lead to no call, but a newline alone leaves the letter of the first piece. -/
theorem quiet_inNumber (h : ∀ b ∈ u, InNumber b) : Quiet op (lines 19 (u ++ [10])) ↔ u ≠ [] ∨ ¬ IsOp op := by
  induction hn : u.length using Nat.strong_induction_on generalizing u op with
  | _ n ih =>
    have h10 : 10 ∉ u := fun h10 => (h 10 h10).ne.2.1 rfl
    cases u with
    | nil =>
      have hl : letter op [10] = op := rfl
      rw [lines_last h10 (by norm_num)]
      simp [Quiet, hl]
    | cons c u =>
      have hc := (h c (by simp)).ne
      refine iff_of_true ?_ (.inl (List.cons_ne_nil c u))
      by_cases hlt : (c :: u).length < 19
      · rw [lines_last h10 hlt, Quiet, letter_inNumber h op [10] (.inr rfl)]
        exact ⟨fun _ => hc.2.2.2.2, trivial⟩
      · rw [lines_long (by norm_num) h10 (by omega), Quiet]
        have htake : letter op ((c :: u).take 19) = c := by
          have := letter_inNumber (u := u.take 18) (fun b hb => h b (List.mem_of_mem_take (i := 19) (by
            rwa [List.take_succ_cons]))) op [] (.inl rfl)
          rwa [List.append_nil, ← List.take_succ_cons] at this
        rw [htake]
        refine ⟨fun _ => hc.2.2.2.2, ?_⟩
        have hdrop : ((c :: u).drop 19).length < n := by
          rw [List.length_drop]
          omega
        exact (ih _ hdrop (fun b hb => h b (List.mem_of_mem_drop hb)) rfl).2 (.inr hc.2.2.2.2)

/-! ### A line -/

theorem scanBuf_data {ds t : List UInt8} (hop : IsOp op) (hne : ds ≠ []) (hhex : ∀ c ∈ ds, isHex c = true)
    (ht : t = [] ∨ t.head? = some 44) (h0 : 0 ∉ t) (hlt : numeral 16 ds < 2 ^ 64) :
    scanBuf v (32 :: op :: 32 :: (ds ++ t)) = ⟨op, BitVec.ofNat 64 (numeral 16 ds)⟩ := by
  have hop0 : op ≠ 0 ∧ isSpace op = false := by
    rcases hop with rfl | rfl | rfl
    · exact ⟨by decide, rfl⟩
    · exact ⟨by decide, rfl⟩
    · exact ⟨by decide, rfl⟩
  have hds : 0 ∉ ds := fun h => by
    have := isHex_iff.1 (hhex 0 h)
    simp at this
  have hstr : str (32 :: op :: 32 :: (ds ++ t)) = 32 :: op :: 32 :: (ds ++ t) := by
    rw [str_eq_self_iff]
    simp only [List.mem_cons, List.mem_append, not_or]
    exact ⟨by decide, hop0.1.symm, by decide, hds, h0⟩
  have hhead : ∀ c, t.head? = some c → isHex c = false ∧ c ≠ 120 ∧ c ≠ 88 := by
    intro c hc
    rcases ht with rfl | ht
    · cases hc
    · obtain rfl : 44 = c := by simpa [ht] using hc
      exact ⟨rfl, by decide, by decide⟩
  have hchar : scanChar (32 :: op :: 32 :: (ds ++ t)) = some (op, 32 :: (ds ++ t)) := by
    unfold scanChar
    rw [skipSpace_cons_space rfl, skipSpace_cons hop0.2]
  unfold scanBuf
  rw [hstr, hchar]
  simp only [scanHex_digits hne hhex hhead hlt]

theorem call_data (d : Data) (a : BitVec 64) : Locals.call ⟨opLetter d.operation, a⟩ = [⟨d.operation, a⟩] := by
  have h := d.op
  cases hop : d.operation with
  | instr => exact absurd hop h
  | load => rfl
  | store => rfl
  | modify => rfl

theorem numeral_take (d : Data) : numeral 16 (d.digits.take 16) < 2 ^ 64 ∧
    (numeral 16 (d.digits.take 16) = numeral 16 d.digits ↔ d.digits.length ≤ 16 ∨ numeral 16 d.digits = 0) := by
  have hlt : numeral 16 (d.digits.take 16) < 16 ^ (d.digits.take 16).length :=
    numeral_lt fun c hc => digitVal_lt (d.hex c (List.mem_of_mem_take hc))
  have hpow : 16 ^ (d.digits.take 16).length ≤ 16 ^ 16 :=
    Nat.pow_le_pow_right (by norm_num) (List.length_take_le _ _)
  refine ⟨hlt.trans_le (hpow.trans (by norm_num)), ?_⟩
  by_cases hlen : d.digits.length ≤ 16
  · rw [List.take_of_length_le hlen]
    exact iff_of_true rfl (.inl hlen)
  · have happ := @numeral_append (d.digits.take 16) (d.digits.drop 16) 16
    rw [List.take_append_drop] at happ
    have h16 : 16 ≤ 16 ^ (d.digits.drop 16).length := by
      refine Nat.le_self_pow ?_ 16
      rw [List.length_drop]
      omega
    generalize 16 ^ (d.digits.drop 16).length = p at happ h16
    generalize numeral 16 (d.digits.take 16) = a at happ
    have hap : a * 16 ≤ a * p := Nat.mul_le_mul_left a h16
    omega

theorem calls_data (v : Locals) (d : Data) : ∃ rest,
    calls v (Line.data d).pieces = ⟨d.operation, BitVec.ofNat 64 (numeral 16 (d.digits.take 16))⟩ :: rest ∧
      (rest = [] ↔ d.digits.length + d.size.length ≠ 15) := by
  have hop := isOp_opLetter d
  have h73 : ∀ s : List UInt8, (32 :: s).head? ≠ some 73 := by simp
  have hno := (Line.data d).text_not_mem
  have hds := List.length_pos_iff.2 d.digits_ne
  have hsize := List.length_pos_iff.2 d.size_ne
  have hlen : (Line.data d).text.length = 4 + d.digits.length + d.size.length := by
    simp [Line.text]
    omega
  have h0 : ∀ t : List UInt8, (∀ c ∈ t, c ∈ d.digits ++ 44 :: d.size ∨ c = 10) → 0 ∉ t := by
    intro t ht hmem
    rcases ht 0 hmem with h | h
    · exact (d.inNumber 0 h).ne.1 rfl
    · cases h
  unfold Line.pieces
  by_cases hlt : (Line.data d).text.length < 19
  · -- the line fits
    have htake : d.digits.take 16 = d.digits := List.take_of_length_le (by omega)
    refine ⟨[], ?_, iff_of_true rfl (by omega)⟩
    rw [lines_last hno hlt, calls, calls, List.append_nil, htake]
    simp only [Line.text, List.cons_append, List.append_assoc, if_neg (h73 _)]
    rw [scanBuf_data hop d.digits_ne d.hex (.inr rfl) ?_ d.value_lt, call_data]
    refine h0 _ fun c hc => ?_
    simp only [List.mem_cons, List.mem_append, List.not_mem_nil, or_false] at hc ⊢
    tauto
  · have hfirst : (Line.data d).text.take 19 =
        32 :: opLetter d.operation :: 32 :: (d.digits.take 16 ++ (44 :: d.size).take (16 - d.digits.length)) := by
      simp only [Line.text, List.take_succ_cons, List.take_append]
    have hrest : (Line.data d).text.drop 19 = (d.digits ++ 44 :: d.size).drop 16 := rfl
    have hscan : scanBuf v ((Line.data d).text.take 19) =
        ⟨opLetter d.operation, BitVec.ofNat 64 (numeral 16 (d.digits.take 16))⟩ := by
      rw [hfirst]
      refine scanBuf_data hop ?_ (fun c hc => d.hex c (List.mem_of_mem_take hc)) ?_ ?_ (numeral_take d).1
      · simp [d.digits_ne]
      · cases 16 - d.digits.length with
        | zero => exact .inl rfl
        | succ n => exact .inr rfl
      · exact h0 _ fun c hc => .inl (List.mem_append_right _ (List.mem_of_mem_take hc))
    have hne : ((Line.data d).text.take 19).head? ≠ some 73 := by
      rw [hfirst]
      exact h73 _
    rw [lines_long (by norm_num) hno (by omega), calls, if_neg hne, hscan, call_data, nextLocals, if_neg hne, hscan,
      List.singleton_append]
    refine ⟨_, rfl, ?_⟩
    rw [calls_eq_nil_iff, hrest, quiet_inNumber fun c hc => d.inNumber c (List.mem_of_mem_drop hc), ne_eq,
      List.drop_eq_nil_iff, List.length_append, List.length_cons]
    simp only [hop, not_true_eq_false, or_false]
    omega

/-- **One line.** Every data line makes its call; there are no others if and only if the line is fine. -/
theorem calls_line (v : Locals) (line : Line) : line.access.length ≤ (calls v line.pieces).length ∧
    (calls v line.pieces = line.access ↔ LineOk v.operation line) := by
  cases line with
  | instr text h => exact ⟨Nat.zero_le _, calls_eq_nil_iff⟩
  | empty =>
    refine ⟨Nat.zero_le _, calls_eq_nil_iff.trans ?_⟩
    exact (quiet_inNumber (u := []) (by simp)).trans (by simp [LineOk])
  | data d =>
    obtain ⟨rest, hcalls, hrest⟩ := calls_data v d
    obtain ⟨hlt, hvalue⟩ := numeral_take d
    rw [hcalls]
    refine ⟨by simp [Line.access], ?_⟩
    simp only [Line.access, LineOk, List.cons.injEq, TraceLine.mk.injEq, true_and, hrest, ← hvalue]
    rw [← BitVec.toNat_inj, BitVec.toNat_ofNat, BitVec.toNat_ofNat, Nat.mod_eq_of_lt hlt,
      Nat.mod_eq_of_lt d.value_lt]

/-! ### A file -/

theorem calls_length (v : Locals) (file : List Line) :
    (file.flatMap Line.access).length ≤ (calls v (file.flatMap Line.pieces)).length := by
  induction file generalizing v with
  | nil => exact Nat.zero_le _
  | cons line file ih =>
    rw [List.flatMap_cons, List.flatMap_cons, calls_append, List.length_append, List.length_append]
    exact Nat.add_le_add (calls_line v line).1 (ih _)

theorem calls_file (v : Locals) (file : List Line) :
    calls v (file.flatMap Line.pieces) = file.flatMap Line.access ↔ FileOk v.operation file := by
  induction file generalizing v with
  | nil => exact iff_of_true rfl trivial
  | cons line file ih =>
    rw [List.flatMap_cons, List.flatMap_cons, calls_append, FileOk, ← (calls_line v line).2, ← foldl_operation,
      ← ih]
    constructor
    · intro h
      have hlen := congrArg List.length h
      have h1 := (calls_line v line).1
      have h2 := calls_length (line.pieces.foldl nextLocals v) file
      rw [List.length_append, List.length_append] at hlen
      exact List.append_inj h (by omega)
    · rintro ⟨h1, h2⟩
      rw [h1, h2]

/-- **The trace.** Reading a file makes a sequence of calls, and it is the sequence of the accesses of its
lines if and only if every line is fine. -/
theorem simulateFile_calls (st : State g) (v : Locals) (file : List Line) :
    simulateFile st v (fileText file) = (simulate st (calls v (lines 19 (fileText file)))).1 ∧
      (calls v (lines 19 (fileText file)) = file.flatMap Line.access ↔ FileOk v.operation file) := by
  refine ⟨simulateBufs_eq st v _, ?_⟩
  rw [lines_fileText]
  exact calls_file v file

/-- A data line of 19 characters: its newline is read alone and repeats the access. -/
theorem newline_repeats : ∃ file : List Line, fileText file = ascii " L 7fffffffffffff,4\n" ∧
    calls ⟨0, 0⟩ (lines 19 (fileText file)) ≠ file.flatMap Line.access := by
  have hhex : (ascii "7fffffffffffff").all isHex = true := rfl
  have hdec : (ascii "4").all isDigit = true := rfl
  let d : Data := ⟨.load, ascii "7fffffffffffff", ascii "4", nofun, by decide, List.all_eq_true.1 hhex, by decide,
    by decide, List.all_eq_true.1 hdec⟩
  refine ⟨[.data d], rfl, ?_⟩
  rw [lines_fileText, Ne, calls_file]
  exact fun h => h.1.2 rfl

end CsappLab.Csim
