import Mathlib.Data.List.Nodup
import Mathlib.Tactic

/-!
# Least recently used replacement

A store of at most `n` keys, as the list of its keys with the most recently accessed one first. The key
to be replaced is the last one, whose last access is the oldest.
-/

namespace Lru

variable {α : Type*} [DecidableEq α] {n : Nat} {l : List α} {a x : α}

def access (n : Nat) (l : List α) (a : α) : List α :=
  a :: if a ∈ l then l.erase a else if l.length < n then l else l.dropLast

omit [DecidableEq α] in
theorem mem_dropLast_iff (h : l.Nodup) : x ∈ l.dropLast ↔ x ∈ l ∧ l.getLast? ≠ some x := by
  cases l using List.reverseRecOn with
  | nil => simp
  | append_singleton l y =>
    rw [List.nodup_append] at h
    have hy : ∀ x ∈ l, x ≠ y := fun x hx => h.2.2 x hx y (by simp)
    simp only [List.dropLast_concat, List.mem_append, List.mem_singleton, List.getLast?_concat,
      Option.some.injEq, ne_eq]
    constructor
    · exact fun hx => ⟨.inl hx, (hy x hx).symm⟩
    · rintro ⟨hx | rfl, hne⟩
      · exact hx
      · exact absurd rfl hne

theorem mem_access_hit (ha : a ∈ l) : x ∈ access n l a ↔ x ∈ l := by
  unfold access
  rw [if_pos ha, ← (List.perm_cons_erase ha).mem_iff]

theorem mem_access_fill (ha : a ∉ l) (hl : l.length < n) : x ∈ access n l a ↔ x = a ∨ x ∈ l := by
  unfold access
  rw [if_neg ha, if_pos hl, List.mem_cons]

theorem mem_access_full (h : l.Nodup) (ha : a ∉ l) (hl : ¬ l.length < n) :
    x ∈ access n l a ↔ x = a ∨ x ∈ l ∧ l.getLast? ≠ some x := by
  unfold access
  rw [if_neg ha, if_neg hl, List.mem_cons, mem_dropLast_iff h]

theorem nodup_access (h : l.Nodup) : (access n l a).Nodup := by
  unfold access
  rw [List.nodup_cons]
  split_ifs with ha hl
  · exact ⟨h.not_mem_erase, h.erase a⟩
  · exact ⟨ha, h⟩
  · exact ⟨fun hx => ha ((mem_dropLast_iff h).1 hx).1, h.sublist (List.dropLast_sublist l)⟩

theorem access_of_mem (ha : a ∈ l) : access n l a = a :: l.erase a := by
  unfold access
  rw [if_pos ha]

/-- With stamps that grow along the list, the key to be replaced is the one with the largest stamp. -/
theorem erase_largest {β : Type*} [Preorder β] {stamp : α → β} (h : l.Pairwise fun a b => stamp a < stamp b)
    (ha : a ∈ l) (hmax : ∀ b ∈ l, stamp b ≤ stamp a) : l.erase a = l.dropLast := by
  cases l using List.reverseRecOn with
  | nil => simp at ha
  | append_singleton l x =>
    obtain ⟨-, -, hlt⟩ := List.pairwise_append.1 h
    have hal : a ∉ l := fun hal => lt_irrefl _ ((hlt a hal x (by simp)).trans_le (hmax x (by simp)))
    obtain rfl : a = x := by simpa [hal] using ha
    rw [List.dropLast_concat, List.erase_append_right _ hal, List.erase_cons_head, List.append_nil]

theorem map_erase_of_inj {β : Type*} [DecidableEq β] {f : α → β} (h : ∀ b ∈ l, f b = f a → b = a) :
    (l.erase a).map f = (l.map f).erase (f a) := by
  induction l with
  | nil => rfl
  | cons b l ih =>
    by_cases hb : b = a
    · rw [hb, List.erase_cons_head, List.map_cons, List.erase_cons_head]
    · have hfb : f b ≠ f a := fun hf => hb (h b List.mem_cons_self hf)
      rw [List.erase_cons_tail (by simpa using hb), List.map_cons, List.map_cons,
        List.erase_cons_tail (by simpa using hfb), ih fun c hc => h c (List.mem_cons_of_mem _ hc)]

/-! ### A map -/

section Map

variable {κ β : Type*} [DecidableEq κ] [DecidableEq β] {entries : List (κ × β)} {e : κ × β} {k : κ} {v : β}
  {fetched : Option β}

def lookup (entries : List (κ × β)) (k : κ) : Option (κ × β) := entries.find? fun e => e.1 = k

/-- A request for `k`; on a miss the fetched value, if there is one, is stored. -/
def serve (n : Nat) (entries : List (κ × β)) (k : κ) (fetched : Option β) : List (κ × β) :=
  match lookup entries k with
  | some e => access n entries e
  | none => match fetched with
    | some v => access n entries (k, v)
    | none => entries

theorem serve_hit (he : e ∈ entries) (hkeys : ∀ e' ∈ entries, e'.1 = e.1 → e' = e) :
    serve n entries e.1 fetched = access n entries e := by
  have hfind : lookup entries e.1 = some e := by
    cases hl : lookup entries e.1 with
    | none => exact absurd (List.find?_eq_none.1 hl e he) (by simp)
    | some e' =>
      rw [hkeys e' (List.mem_of_find?_eq_some hl) (by simpa using List.find?_some hl)]
  simp only [serve, hfind]

omit [DecidableEq β] in
theorem lookup_eq_none (hk : ∀ e ∈ entries, e.1 ≠ k) : lookup entries k = none :=
  List.find?_eq_none.2 fun e he => by simpa using hk e he

theorem serve_miss (hk : ∀ e ∈ entries, e.1 ≠ k) : serve n entries k none = entries := by
  simp only [serve, lookup_eq_none hk]

theorem serve_store (hk : ∀ e ∈ entries, e.1 ≠ k) :
    serve n entries k (some v) = (k, v) :: if entries.length < n then entries else entries.dropLast := by
  simp only [serve, lookup_eq_none hk, access, if_neg fun he : (k, v) ∈ entries => hk _ he rfl]

end Map

end Lru
