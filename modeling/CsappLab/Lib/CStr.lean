import Mathlib.Data.List.Infix
import Mathlib.Data.List.TakeWhile
import Mathlib.Tactic

/-!
# C strings

A buffer is the list of its bytes, and its string is what comes before the first zero byte. The functions
of `string.h` that write to a buffer write as far as they have to: whether there is room is not their
concern.
-/

namespace CStr

def ascii (s : String) : List UInt8 := s.toList.map fun c => c.toNat.toUInt8

/-- The string at the start of a buffer. -/
def str (buf : List UInt8) : List UInt8 := buf.takeWhile (· ≠ 0)

def strlen (buf : List UInt8) : Nat := (str buf).length

/-- Write `bytes` to the start of the buffer. -/
def overwrite (buf bytes : List UInt8) : List UInt8 := bytes ++ buf.drop bytes.length

def strcpy (dst src : List UInt8) : List UInt8 := overwrite dst (str src ++ [0])

def strcat (dst src : List UInt8) : List UInt8 :=
  str dst ++ overwrite (dst.drop (strlen dst)) (str src ++ [0])

/-- The rest of the string `s` from the first occurrence of `sub` on. -/
def strstr : List UInt8 → List UInt8 → Option (List UInt8)
  | [], sub => if sub.isPrefixOf [] then some [] else none
  | c :: s, sub => if sub.isPrefixOf (c :: s) then some (c :: s) else strstr s sub

variable {s sub buf dst src bytes rest : List UInt8}

@[simp] theorem str_nil : str [] = [] := rfl

theorem strlen_le (buf : List UInt8) : strlen buf ≤ buf.length := (List.takeWhile_prefix _).length_le

theorem zero_not_mem_str (buf : List UInt8) : 0 ∉ str buf := by
  intro h0
  have := List.mem_takeWhile_imp h0
  simp at this

theorem str_eq_self_iff : str buf = buf ↔ 0 ∉ buf := by
  constructor
  · intro he
    rw [← he]
    exact zero_not_mem_str buf
  · intro h0
    refine List.takeWhile_eq_self_iff.2 fun x hx => ?_
    simpa using fun hx0 : x = 0 => h0 (hx0 ▸ hx)

theorem str_append_zero (h0 : 0 ∉ s) : str (s ++ 0 :: rest) = s := by
  unfold str
  rw [List.takeWhile_append_of_pos fun x hx => ?_, List.takeWhile_cons_of_neg (by simp), List.append_nil]
  simpa using fun hx0 : x = 0 => h0 (hx0 ▸ hx)

theorem str_append_cons_zero : str (bytes ++ 0 :: rest) = str bytes := by
  by_cases h0 : 0 ∈ bytes
  · unfold str
    rw [List.takeWhile_append, if_neg fun hlen => ?_]
    exact absurd h0 (str_eq_self_iff.1 ((List.takeWhile_prefix _).eq_of_length hlen))
  · rw [str_append_zero h0, str_eq_self_iff.2 h0]

theorem str_overwrite : str (overwrite buf (bytes ++ [0])) = str bytes := by
  unfold overwrite
  rw [List.append_assoc]
  exact str_append_cons_zero

@[simp] theorem overwrite_nil (buf : List UInt8) : overwrite buf [] = buf := rfl

theorem str_str (buf : List UInt8) : str (str buf) = str buf := str_eq_self_iff.2 (zero_not_mem_str buf)

theorem str_strcpy (dst src : List UInt8) : str (strcpy dst src) = str src := by
  unfold strcpy
  rw [str_overwrite, str_str]

theorem str_strcat (dst src : List UInt8) : str (strcat dst src) = str dst ++ str src := by
  unfold strcat overwrite
  rw [List.append_assoc, ← List.append_assoc]
  refine str_append_zero ?_
  rw [List.mem_append]
  exact not_or.2 ⟨zero_not_mem_str dst, zero_not_mem_str src⟩

theorem take_strlen (buf : List UInt8) : buf.take (strlen buf) = str buf :=
  ((List.prefix_iff_eq_take.1 (List.takeWhile_prefix _)).symm : _)

theorem strstr_isSome_iff : (strstr s sub).isSome ↔ sub <:+: s := by
  induction s with
  | nil =>
    unfold strstr
    split_ifs with hp
    · simpa using hp
    · simpa using hp
  | cons c s ih =>
    unfold strstr
    rw [List.infix_cons_iff]
    split_ifs with hp
    · exact iff_of_true rfl (.inl (List.isPrefixOf_iff_prefix.1 hp))
    · rw [ih]
      exact ⟨.inr, fun h => h.resolve_left fun h1 => hp (List.isPrefixOf_iff_prefix.2 h1)⟩

end CStr
