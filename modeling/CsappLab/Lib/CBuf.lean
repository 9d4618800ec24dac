import CsappLab.Lib.CStr

/-!
# Buffers with bounds

A buffer is the list of its bytes, `none` for a byte that was never written. Reading such a byte and
leaving the buffer are faults. `Carries` says which string a buffer holds.
-/

namespace CBuf

inductive Fault
  | outside
  | uninit
deriving DecidableEq, Repr

abbrev Buf := List (Option UInt8)

/-- A buffer that nothing was written to. -/
def fresh (size : Nat) : Buf := List.replicate size none

def put (buf : Buf) (i : Int) (b : UInt8) : Except Fault Buf :=
  if 0 ≤ i ∧ i < buf.length then .ok (buf.set i.toNat (some b)) else .error .outside

def get : Buf → Except Fault UInt8
  | [] => .error .outside
  | none :: _ => .error .uninit
  | some b :: _ => .ok b

def strcpy : Buf → Buf → Except Fault Buf
  | _, [] => .error .outside
  | _, none :: _ => .error .uninit
  | [], some _ :: _ => .error .outside
  | _ :: dst, some b :: src =>
    if b = 0 then .ok (some 0 :: dst)
    else do
      let dst ← strcpy dst src
      .ok (some b :: dst)

def strlen : Buf → Except Fault Nat
  | [] => .error .outside
  | none :: _ => .error .uninit
  | some b :: s =>
    if b = 0 then .ok 0
    else do
      let n ← strlen s
      .ok (n + 1)

/-- The characters that `%s` takes from the buffer. -/
def string : Buf → Except Fault (List UInt8)
  | [] => .error .outside
  | none :: _ => .error .uninit
  | some b :: s =>
    if b = 0 then .ok []
    else do
      let t ← string s
      .ok (b :: t)

/-- `strchr`: the cells in front of the first `c` and those behind it. -/
def strchr (c : UInt8) : Buf → Except Fault (Option (Buf × Buf))
  | [] => .error .outside
  | none :: _ => .error .uninit
  | some b :: s =>
    if b = c then .ok (some ([], s))
    else if b = 0 then .ok none
    else do
      match ← strchr c s with
      | some (front, behind) => .ok (some (some b :: front, behind))
      | none => .ok none

/-- The text in front of the first `c` and behind it. -/
def cut (c : UInt8) : List UInt8 → Option (List UInt8 × List UInt8)
  | [] => none
  | b :: s => if b = c then some ([], s) else (cut c s).map fun (front, behind) => (b :: front, behind)

/-- The cells of a string, its zero byte and what is behind it. -/
def text (s : List UInt8) (rest : Buf) : Buf := s.map some ++ some 0 :: rest

/-- The string `s` and its zero byte at the start of the buffer. -/
def Carries (buf : Buf) (s : List UInt8) : Prop := 0 ∉ s ∧ ∃ rest, buf = s.map some ++ some 0 :: rest

variable {buf dst src : Buf} {s pre post : List UInt8} {c : UInt8}

@[simp] theorem length_fresh (size : Nat) : (fresh size).length = size := List.length_replicate

theorem carries_nil : Carries [some 0] [] := ⟨List.not_mem_nil, [], rfl⟩

theorem Carries.length (h : Carries buf s) : s.length < buf.length := by
  obtain ⟨-, rest, rfl⟩ := h
  simp

theorem Carries.drop (h : Carries buf (pre ++ post)) : Carries (buf.drop pre.length) post := by
  obtain ⟨h0, rest, rfl⟩ := h
  rw [List.mem_append, not_or] at h0
  refine ⟨h0.2, rest, ?_⟩
  rw [List.map_append, List.append_assoc]
  exact List.drop_left' (by simp)

theorem Carries.put (h : Carries buf (pre ++ c :: post)) :
    put buf pre.length 0 = .ok (buf.set pre.length (some 0)) ∧ Carries (buf.set pre.length (some 0)) pre := by
  have hlen := h.length
  obtain ⟨h0, rest, rfl⟩ := h
  rw [List.mem_append, not_or] at h0
  constructor
  · unfold CBuf.put
    rw [if_pos, Int.toNat_natCast]
    rw [List.length_append] at hlen
    exact ⟨by omega, by omega⟩
  · refine ⟨h0.1, post.map some ++ some 0 :: rest, ?_⟩
    rw [List.map_append, List.append_assoc, List.set_append_right _ _ (by simp)]
    simp

theorem strcpy_carries (h : Carries src s) (dst : Buf) :
    strcpy dst src = if s.length < dst.length then .ok (s.map some ++ some 0 :: dst.drop (s.length + 1))
      else .error .outside := by
  obtain ⟨h0, rest, rfl⟩ := h
  induction s generalizing dst with
  | nil => cases dst <;> simp [strcpy]
  | cons b s ih =>
    rw [List.mem_cons, not_or] at h0
    cases dst with
    | nil => simp [strcpy]
    | cons d dst =>
      rw [List.map_cons, List.cons_append, strcpy, if_neg (Ne.symm h0.1), ih _ h0.2]
      by_cases hlt : s.length < dst.length
      · rw [if_pos hlt, if_pos (by simpa using hlt)]
        rfl
      · rw [if_neg hlt, if_neg (by simpa using hlt)]
        rfl

theorem strcpy_fits (h : Carries src s) (hlt : s.length < dst.length) :
    ∃ dst', strcpy dst src = .ok dst' ∧ Carries dst' s :=
  ⟨_, (strcpy_carries h dst).trans (if_pos hlt), h.1, _, rfl⟩

theorem string_carries (h : Carries buf s) : string buf = .ok s := by
  obtain ⟨h0, rest, rfl⟩ := h
  induction s with
  | nil => rfl
  | cons b s ih =>
    rw [List.mem_cons, not_or] at h0
    rw [List.map_cons, List.cons_append, string, if_neg (Ne.symm h0.1), ih h0.2]
    rfl

theorem strlen_text (h0 : 0 ∉ s) (rest : Buf) : strlen (text s rest) = .ok s.length := by
  induction s with
  | nil => rfl
  | cons b s ih =>
    rw [List.mem_cons, not_or] at h0
    rw [text, List.map_cons, List.cons_append, strlen, if_neg (Ne.symm h0.1)]
    exact congrArg (· >>= fun n => Except.ok (n + 1)) (ih h0.2)

theorem strchr_text (hc : c ≠ 0) (h0 : 0 ∉ s) (rest : Buf) : strchr c (text s rest) =
    .ok ((cut c s).map fun (front, behind) => (front.map some, text behind rest)) := by
  induction s with
  | nil => simp [text, strchr, cut, hc.symm]
  | cons b s ih =>
    rw [List.mem_cons, not_or] at h0
    rw [text, List.map_cons, List.cons_append, strchr, if_neg (Ne.symm h0.1), cut]
    split_ifs with hb
    · rfl
    · have hs : strchr c (s.map some ++ some 0 :: rest) = _ := ih h0.2
      rw [hs]
      cases cut c s <;> rfl

theorem cut_eq {front behind : List UInt8} (h : cut c s = some (front, behind)) :
    s = front ++ c :: behind ∧ c ∉ front := by
  induction s generalizing front with
  | nil => cases h
  | cons b s ih =>
    unfold cut at h
    split_ifs at h with hb
    · obtain ⟨rfl, rfl⟩ := Prod.mk.inj (Option.some.inj h)
      exact ⟨by rw [hb]; rfl, List.not_mem_nil⟩
    · obtain ⟨⟨front', behind'⟩, hcut, heq⟩ := Option.map_eq_some_iff.1 h
      obtain ⟨rfl, rfl⟩ := Prod.mk.inj heq
      obtain ⟨rfl, hno⟩ := ih hcut
      exact ⟨rfl, by simp [hno, Ne.symm hb]⟩

theorem cut_append {front : List UInt8} (h : c ∉ front) (behind : List UInt8) :
    cut c (front ++ c :: behind) = some (front, behind) := by
  induction front with
  | nil => simp [cut]
  | cons b front ih =>
    rw [List.mem_cons, not_or] at h
    rw [List.cons_append, cut, if_neg (Ne.symm h.1), ih h.2]
    rfl

end CBuf
