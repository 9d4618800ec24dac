import Mathlib.Tactic

/-!
# Lines of tagged tiles

A line of words is cut into tiles, and every tile carries its tag in its first and in its last word. `Tiled`
says so for the tiles from a word on, up to a closing tag; `Back` says it for the tiles before a word, nearest
first. A place in the line is the pair of the two. Free tiles that touch are joined, so a line in order has no
two of them side by side (`Merged`).
-/

namespace Tiling

/-- A tile of `words` words, the two tags included. -/
structure Tile where
  words : Nat
  taken : Bool
deriving DecidableEq, Repr

/-- What stands at the end of the line. -/
def Tile.fin : Tile := ⟨0, true⟩

def span (ts : List Tile) : Nat := (ts.map Tile.words).sum

variable {tag : Tile → Nat} {w w' : Nat → Nat} {a b m n x : Nat} {l r ts : List Tile} {p t u : Tile}

@[simp] theorem span_nil : span [] = 0 := rfl

@[simp] theorem span_cons : span (t :: ts) = t.words + span ts := by simp [span]

@[simp] theorem span_append : span (l ++ r) = span l + span r := by simp [span]

@[simp] theorem span_reverse : span l.reverse = span l := by simp [span, List.sum_reverse]

/-- The tiles from word `a` on, and the closing tag behind them. -/
def Tiled (tag : Tile → Nat) (w : Nat → Nat) : Nat → List Tile → Prop
  | a, [] => w a = tag Tile.fin
  | a, t :: ts => 2 ≤ t.words ∧ w a = tag t ∧ w (a + t.words - 1) = tag t ∧ Tiled tag w (a + t.words) ts

/-- The tiles between word `b` and word `b + span l`, from the last to the first. -/
def Back (tag : Tile → Nat) (w : Nat → Nat) (b : Nat) : List Tile → Prop
  | [] => True
  | t :: l => 2 ≤ t.words ∧ w (b + span l) = tag t ∧ w (b + span l + t.words - 1) = tag t ∧ Back tag w b l

theorem tiled_cons : Tiled tag w a (t :: ts) ↔
    2 ≤ t.words ∧ w a = tag t ∧ w (a + t.words - 1) = tag t ∧ Tiled tag w (a + t.words) ts := Iff.rfl

theorem back_cons : Back tag w b (t :: l) ↔
    2 ≤ t.words ∧ w (b + span l) = tag t ∧ w (b + span l + t.words - 1) = tag t ∧ Back tag w b l := Iff.rfl

theorem Tiled.head (h : Tiled tag w a ts) : w a = tag (ts.headD Tile.fin) := by
  cases ts with
  | nil => exact h
  | cons t ts => exact h.2.1

theorem back_tiled_cons : Back tag w b l ∧ Tiled tag w (b + span l) (t :: r) ↔
    Back tag w b (t :: l) ∧ Tiled tag w (b + span (t :: l)) r := by
  rw [tiled_cons, back_cons, span_cons, show b + (t.words + span l) = b + span l + t.words by omega]
  tauto

/-- **A place in the line**: what stands before it and behind it. -/
theorem tiled_reverse_append : Tiled tag w b (l.reverse ++ r) ↔ Back tag w b l ∧ Tiled tag w (b + span l) r := by
  induction l generalizing r with
  | nil => simp [Back]
  | cons t l ih => rw [List.reverse_cons, List.append_assoc, List.singleton_append, ih, back_tiled_cons]

theorem Back.congr (h : Back tag w b l) (hw : ∀ i, b ≤ i → i < b + span l → w' i = w i) : Back tag w' b l := by
  induction l with
  | nil => trivial
  | cons t l ih =>
    obtain ⟨h1, h2, h3, h4⟩ := h
    rw [span_cons] at hw
    exact ⟨h1, (hw _ (by omega) (by omega)).trans h2, (hw _ (by omega) (by omega)).trans h3,
      ih h4 fun i h5 h6 => hw i h5 (by omega)⟩

theorem Tiled.congr (h : Tiled tag w a ts) (hw : ∀ i, a ≤ i → i ≤ a + span ts → w' i = w i) : Tiled tag w' a ts := by
  induction ts generalizing a with
  | nil => exact (hw _ le_rfl (by simp)).trans h
  | cons t ts ih =>
    obtain ⟨h1, h2, h3, h4⟩ := h
    rw [span_cons] at hw
    exact ⟨h1, (hw _ (by omega) (by omega)).trans h2, (hw _ (by omega) (by omega)).trans h3,
      ih h4 fun i h5 h6 => hw i (by omega) (by omega)⟩

theorem Tiled.two_le (h : Tiled tag w a ts) (ht : t ∈ ts) : 2 ≤ t.words := by
  induction ts generalizing a with
  | nil => simp at ht
  | cons u ts ih =>
    rcases List.mem_cons.1 ht with rfl | ht
    · exact h.1
    · exact ih h.2.2.2 ht

theorem Tiled.length_le (h : Tiled tag w a ts) : 2 * ts.length ≤ span ts := by
  induction ts generalizing a with
  | nil => simp
  | cons t ts ih =>
    have h2 := h.1
    have h3 := ih h.2.2.2
    rw [span_cons, List.length_cons]
    omega

/-! ### Where the tiles stand -/

/-- The tiles with the words at which they start. -/
def cells : Nat → List Tile → List (Nat × Tile)
  | _, [] => []
  | a, t :: ts => (a, t) :: cells (a + t.words) ts

theorem cells_append : cells a (l ++ r) = cells a l ++ cells (a + span l) r := by
  induction l generalizing a with
  | nil => simp [cells]
  | cons t l ih => simp [cells, ih, Nat.add_assoc]

theorem cells_bounds (hx : (x, t) ∈ cells a ts) : a ≤ x ∧ x + t.words ≤ a + span ts := by
  induction ts generalizing a with
  | nil => simp [cells] at hx
  | cons u ts ih =>
    rw [span_cons]
    rcases List.mem_cons.1 hx with he | hx
    · obtain ⟨rfl, rfl⟩ := Prod.mk.inj he
      omega
    · have := ih hx
      omega

theorem mem_of_mem_cells (hx : (x, t) ∈ cells a ts) : t ∈ ts := by
  induction ts generalizing a with
  | nil => simp [cells] at hx
  | cons u ts ih =>
    rcases List.mem_cons.1 hx with he | hx
    · obtain ⟨rfl, rfl⟩ := Prod.mk.inj he
      exact List.mem_cons_self
    · exact List.mem_cons_of_mem _ (ih hx)

theorem cells_map_snd (a : Nat) (ts : List Tile) : (cells a ts).map Prod.snd = ts := by
  induction ts generalizing a with
  | nil => rfl
  | cons t ts ih => simp [cells, ih]

theorem Tiled.cell (h : Tiled tag w a ts) (hx : (x, t) ∈ cells a ts) :
    2 ≤ t.words ∧ w x = tag t ∧ w (x + t.words - 1) = tag t := by
  induction ts generalizing a with
  | nil => simp [cells] at hx
  | cons u ts ih =>
    obtain ⟨h1, h2, h3, h4⟩ := h
    rcases List.mem_cons.1 hx with he | hx
    · obtain ⟨rfl, rfl⟩ := Prod.mk.inj he
      exact ⟨h1, h2, h3⟩
    · exact ih h4 hx

theorem cells_apart {y : Nat} (h : ∀ t ∈ ts, 0 < t.words) (hx : (x, t) ∈ cells a ts) (hy : (y, u) ∈ cells a ts) :
    x = y ∧ t = u ∨ x + t.words ≤ y ∨ y + u.words ≤ x := by
  induction ts generalizing a with
  | nil => simp [cells] at hx
  | cons v ts ih =>
    rcases List.mem_cons.1 hx with he | hx <;> rcases List.mem_cons.1 hy with he' | hy
    · obtain ⟨rfl, rfl⟩ := Prod.mk.inj he
      obtain ⟨rfl, rfl⟩ := Prod.mk.inj he'
      exact .inl ⟨rfl, rfl⟩
    · obtain ⟨rfl, rfl⟩ := Prod.mk.inj he
      exact .inr (.inl (cells_bounds hy).1)
    · obtain ⟨rfl, rfl⟩ := Prod.mk.inj he'
      exact .inr (.inr (cells_bounds hx).1)
    · exact ih (fun t ht => h t (by simp [ht])) hx hy

theorem cells_inj (h : ∀ t ∈ ts, 0 < t.words) (hx : (x, t) ∈ cells a ts) (hy : (x, u) ∈ cells a ts) : t = u := by
  have ht := h t (mem_of_mem_cells hx)
  have hu := h u (mem_of_mem_cells hy)
  rcases cells_apart h hx hy with h1 | h1 | h1
  · exact h1.2
  · omega
  · omega

theorem exists_of_mem_cells (hx : (x, t) ∈ cells a ts) : ∃ l r, ts = l.reverse ++ t :: r ∧ x = a + span l := by
  induction ts generalizing a with
  | nil => simp [cells] at hx
  | cons u ts ih =>
    rcases List.mem_cons.1 hx with he | hx
    · obtain ⟨rfl, rfl⟩ := Prod.mk.inj he
      exact ⟨[], ts, rfl, rfl⟩
    · obtain ⟨l, r, rfl, rfl⟩ := ih hx
      exact ⟨l ++ [u], r, by simp, by simp; omega⟩

theorem Tiled.congr_tags (h : Tiled tag w a ts) (hend : w' (a + span ts) = w (a + span ts))
    (hw : ∀ c ∈ cells a ts, w' c.1 = w c.1 ∧ w' (c.1 + c.2.words - 1) = w (c.1 + c.2.words - 1)) :
    Tiled tag w' a ts := by
  induction ts generalizing a with
  | nil => exact hend.trans h
  | cons t ts ih =>
    obtain ⟨h1, h2, h3, h4⟩ := h
    rw [span_cons, ← Nat.add_assoc] at hend
    rw [cells, List.forall_mem_cons] at hw
    exact ⟨h1, hw.1.1.trans h2, hw.1.2.trans h3, ih h4 hend hw.2⟩

theorem cells_even (h : ∀ t ∈ ts, t.words % 2 = 0) (hx : (x, t) ∈ cells a ts) : x % 2 = a % 2 := by
  induction ts generalizing a with
  | nil => simp [cells] at hx
  | cons u ts ih =>
    have hu := h u (by simp)
    rcases List.mem_cons.1 hx with he | hx
    · rw [(Prod.mk.inj he).1]
    · have := ih (fun v hv => h v (by simp [hv])) hx
      omega

theorem cells_place : cells a (l.reverse ++ ts ++ r) =
    cells a l.reverse ++ cells (a + span l) ts ++ cells (a + span l + span ts) r := by
  rw [List.append_assoc, cells_append, cells_append, span_reverse, List.append_assoc]

/-! ### Free tiles -/

def Merged (ts : List Tile) : Prop := ts.IsChain fun t u => t.taken = true ∨ u.taken = true

theorem merged_reverse : Merged l.reverse ↔ Merged l := by
  unfold Merged
  rw [List.isChain_reverse]
  simp only [or_comm]

theorem merged_cons : Merged (t :: ts) ↔ (t.taken = true ∨ (ts.headD Tile.fin).taken = true) ∧ Merged ts := by
  unfold Merged
  cases ts with
  | nil => simp [Tile.fin]
  | cons u ts => simp [List.isChain_cons_cons]

theorem merged_reverse_append_cons : Merged (l.reverse ++ t :: r) ↔ Merged (t :: l) ∧ Merged (t :: r) := by
  induction l generalizing t r with
  | nil => simp [Merged]
  | cons p l ih =>
    rw [List.reverse_cons, List.append_assoc, List.singleton_append, ih]
    simp only [merged_cons (t := p), merged_cons (t := t), List.headD_cons]
    tauto

/-- A free tile takes up the free tile before it. -/
def joinLeft : List Tile → Tile → List Tile × Tile
  | [], t => ([], t)
  | p :: l, t => if p.taken then (p :: l, t) else (l, ⟨p.words + t.words, false⟩)

/-- A free tile takes up the free tile behind it. -/
def joinRight (t : Tile) : List Tile → Tile × List Tile
  | [] => (t, [])
  | u :: r => if u.taken then (t, u :: r) else (⟨t.words + u.words, false⟩, r)

/-! ### Taking a tile -/

/-- The first `m` words of a free tile are taken; what is left is a tile of its own if it has `least` words. -/
def Tile.cut (least m : Nat) (t : Tile) : List Tile :=
  if least ≤ t.words - m then [⟨m, true⟩, ⟨t.words - m, false⟩] else [⟨t.words, true⟩]

def Tile.Fits (m : Nat) (t : Tile) : Prop := t.taken = false ∧ m ≤ t.words

instance : Decidable (t.Fits m) := inferInstanceAs (Decidable (_ ∧ _))

theorem Tile.cut_eq (least : Nat) (hm : m ≤ t.words) : ∃ n rest, t.cut least m = ⟨n, true⟩ :: rest ∧ m ≤ n ∧
    n + span rest = t.words ∧ (∀ u ∈ rest, u.taken = false ∧ least ≤ u.words ∧ u.words = t.words - m) ∧
    (rest = [] ∨ n = m) := by
  unfold Tile.cut
  split_ifs with h
  · exact ⟨m, [⟨t.words - m, false⟩], rfl, le_rfl, by simp; omega, by simpa using h, .inr rfl⟩
  · exact ⟨t.words, [], rfl, hm, by simp, by simp, .inl rfl⟩

theorem Tile.span_cut (least : Nat) (hm : m ≤ t.words) : span (t.cut least m) = t.words := by
  obtain ⟨n, rest, hcut, -, hspan, -⟩ := Tile.cut_eq least hm
  rw [hcut, span_cons]
  exact hspan

theorem merged_cut {least : Nat} (hm : m ≤ t.words) (ht : t.taken = false) (h : Merged (l.reverse ++ t :: r)) :
    Merged (l.reverse ++ t.cut least m ++ r) := by
  rw [merged_reverse_append_cons, merged_cons, merged_cons] at h
  obtain ⟨⟨-, hl⟩, hhead, hr⟩ := h
  obtain ⟨n, rest, hcut, -, -, hrest, -⟩ := Tile.cut_eq least hm
  rw [hcut, List.append_assoc, List.cons_append, merged_reverse_append_cons, merged_cons, merged_cons]
  refine ⟨⟨.inl rfl, hl⟩, .inl rfl, ?_⟩
  have hlen : rest = [] ∨ ∃ u, rest = [u] := by
    unfold Tile.cut at hcut
    split_ifs at hcut <;> simp only [List.cons.injEq] at hcut
    · exact .inr ⟨_, hcut.2.symm⟩
    · exact .inl hcut.2.symm
  rcases hlen with rfl | ⟨u, rfl⟩
  · exact hr
  · rw [List.singleton_append, merged_cons]
    exact ⟨.inr (hhead.resolve_left (by simp [ht])), hr⟩

theorem taken_cut (least : Nat) (hm : m ≤ t.words) (ht : t.taken = false) : ∃ n, m ≤ n ∧ n ≤ t.words ∧
    ∀ x u, u.taken = true → ((x, u) ∈ cells a (l.reverse ++ t.cut least m ++ r) ↔
      (x, u) ∈ cells a (l.reverse ++ t :: r) ∨ x = a + span l ∧ u = ⟨n, true⟩) := by
  have hspan := Tile.span_cut least hm
  obtain ⟨n, rest, hcut, hn, hrest, hfree, -⟩ := Tile.cut_eq least hm
  refine ⟨n, hn, by omega, fun x u hu => ?_⟩
  have hne : (x, u) ≠ (a + span l, t) := by
    rintro he
    rw [(Prod.mk.inj he).2, ht] at hu
    cases hu
  have hno : (x, u) ∉ cells (a + span l + n) rest := fun hx => by
    rw [(hfree u (mem_of_mem_cells hx)).1] at hu
    cases hu
  rw [cells_place, hspan, cells_append, span_reverse, hcut]
  simp only [cells, List.mem_append, List.mem_cons, hne, hno, Prod.mk.injEq, or_false, false_or]
  tauto

theorem starts_cut {least : Nat} (hm : m ≤ t.words) (hx : x ∈ (cells a (l.reverse ++ t :: r)).map Prod.fst) :
    x ∈ (cells a (l.reverse ++ t.cut least m ++ r)).map Prod.fst := by
  have hspan := Tile.span_cut least hm
  obtain ⟨n, rest, hcut, -⟩ := Tile.cut_eq least hm
  rw [cells_place, hspan, hcut]
  rw [cells_append, span_reverse] at hx
  simp only [cells, List.map_append, List.map_cons, List.mem_append, List.mem_cons] at hx ⊢
  tauto

/-- A tile with what stands before it, nearest first, and behind it. -/
structure Place where
  left : List Tile
  tile : Tile
  right : List Tile

def Place.line (z : Place) : List Tile := z.left.reverse ++ z.tile :: z.right

/-- The place of a free tile after it has taken up its free neighbours. -/
def Place.coalesce (z : Place) : Place where
  left := (joinLeft z.left z.tile).1
  tile := (joinRight (joinLeft z.left z.tile).2 z.right).1
  right := (joinRight (joinLeft z.left z.tile).2 z.right).2

theorem joinLeft_cases (l : List Tile) (t : Tile) : (l.headD Tile.fin).taken = true ∧ joinLeft l t = (l, t) ∨
    ∃ p l', l = p :: l' ∧ p.taken = false ∧ joinLeft l t = (l', ⟨p.words + t.words, false⟩) := by
  cases l with
  | nil => exact .inl ⟨rfl, rfl⟩
  | cons p l =>
    cases hp : p.taken with
    | true => exact .inl ⟨hp, by simp [joinLeft, hp]⟩
    | false => exact .inr ⟨p, l, rfl, hp, by simp [joinLeft, hp]⟩

theorem joinRight_cases (t : Tile) (r : List Tile) : (r.headD Tile.fin).taken = true ∧ joinRight t r = (t, r) ∨
    ∃ u r', r = u :: r' ∧ u.taken = false ∧ joinRight t r = (⟨t.words + u.words, false⟩, r') := by
  cases r with
  | nil => exact .inl ⟨rfl, rfl⟩
  | cons u r =>
    cases hu : u.taken with
    | true => exact .inl ⟨hu, by simp [joinRight, hu]⟩
    | false => exact .inr ⟨u, r, rfl, hu, by simp [joinRight, hu]⟩

namespace Place
variable {z : Place}

/-- **The four cases.** -/
theorem coalesce_cases (l : List Tile) (t : Tile) (r : List Tile) :
    ((l.headD Tile.fin).taken = true ∧ (r.headD Tile.fin).taken = true ∧ coalesce ⟨l, t, r⟩ = ⟨l, t, r⟩) ∨
    (∃ u r', r = u :: r' ∧ (l.headD Tile.fin).taken = true ∧ u.taken = false ∧
      coalesce ⟨l, t, r⟩ = ⟨l, ⟨t.words + u.words, false⟩, r'⟩) ∨
    (∃ p l', l = p :: l' ∧ p.taken = false ∧ (r.headD Tile.fin).taken = true ∧
      coalesce ⟨l, t, r⟩ = ⟨l', ⟨p.words + t.words, false⟩, r⟩) ∨
    ∃ p l' u r', l = p :: l' ∧ r = u :: r' ∧ p.taken = false ∧ u.taken = false ∧
      coalesce ⟨l, t, r⟩ = ⟨l', ⟨p.words + t.words + u.words, false⟩, r'⟩ := by
  unfold coalesce
  simp only
  rcases joinLeft_cases l t with ⟨hl, h1⟩ | ⟨p, l', rfl, hp, h1⟩ <;> rw [h1]
  · rcases joinRight_cases t r with ⟨hr, h2⟩ | ⟨u, r', rfl, hu, h2⟩ <;> rw [h2]
    · exact .inl ⟨hl, hr, rfl⟩
    · exact .inr (.inl ⟨u, r', rfl, hl, hu, rfl⟩)
  · rcases joinRight_cases ⟨p.words + t.words, false⟩ r with ⟨hr, h2⟩ | ⟨u, r', rfl, hu, h2⟩ <;> rw [h2]
    · exact .inr (.inr (.inl ⟨p, l', rfl, hp, hr, rfl⟩))
    · exact .inr (.inr (.inr ⟨p, l', u, r', rfl, rfl, hp, hu, rfl⟩))

theorem coalesce_concat (hp : p.taken = true) : coalesce ⟨l ++ [p], t, r⟩ =
    ⟨(coalesce ⟨l, t, r⟩).left ++ [p], (coalesce ⟨l, t, r⟩).tile, (coalesce ⟨l, t, r⟩).right⟩ := by
  have hj : joinLeft (l ++ [p]) t = ((joinLeft l t).1 ++ [p], (joinLeft l t).2) := by
    cases l with
    | nil => simp [joinLeft, hp]
    | cons q l =>
      rw [List.cons_append, joinLeft, joinLeft]
      split_ifs <;> rfl
  unfold coalesce
  simp only [hj]

theorem line_concat : line ⟨l ++ [p], t, r⟩ = p :: line ⟨l, t, r⟩ := by
  simp [line]

theorem mem_cells_line : (a + span z.left, z.tile) ∈ cells a z.line := by
  unfold line
  rw [cells_append, span_reverse]
  simp [cells]

theorem taken_outside (hpos : ∀ t ∈ z.line, 0 < t.words) (hz : z.tile.taken = false) (ht : t.taken = true)
    (hx : (x, t) ∈ cells a z.line) : x + t.words ≤ a + span z.left ∨ a + span z.left + z.tile.words ≤ x := by
  rcases cells_apart hpos hx mem_cells_line with ⟨-, rfl⟩ | h | h
  · rw [ht] at hz
    cases hz
  · exact .inl h
  · exact .inr h

theorem coalesce_taken (h : z.tile.taken = false) : z.coalesce.tile.taken = false := by
  obtain ⟨l, t, r⟩ := z
  rcases coalesce_cases l t r with ⟨-, -, hz⟩ | ⟨u, r', rfl, -, -, hz⟩ | ⟨p, l', rfl, -, -, hz⟩ |
    ⟨p, l', u, r', rfl, rfl, -, -, hz⟩ <;> rw [hz]
  exact h

theorem coalesce_covers : span z.coalesce.left ≤ span z.left ∧
    span z.left + z.tile.words ≤ span z.coalesce.left + z.coalesce.tile.words := by
  obtain ⟨l, t, r⟩ := z
  rcases coalesce_cases l t r with ⟨-, -, hz⟩ | ⟨u, r', rfl, -, -, hz⟩ | ⟨p, l', rfl, -, -, hz⟩ |
    ⟨p, l', u, r', rfl, rfl, -, -, hz⟩ <;> rw [hz] <;> simp <;> omega

theorem span_line_coalesce : span z.coalesce.line = span z.line := by
  obtain ⟨l, t, r⟩ := z
  rcases coalesce_cases l t r with ⟨-, -, hz⟩ | ⟨u, r', rfl, -, -, hz⟩ | ⟨p, l', rfl, -, -, hz⟩ |
    ⟨p, l', u, r', rfl, rfl, -, -, hz⟩ <;> rw [hz] <;> simp [line] <;> omega

theorem forall_coalesce {Q : Nat → Prop} (hadd : ∀ m n, Q m → Q n → Q (m + n)) (h : ∀ t ∈ z.line, Q t.words) :
    ∀ t ∈ z.coalesce.line, Q t.words := by
  obtain ⟨l, t, r⟩ := z
  unfold line at *
  rcases coalesce_cases l t r with ⟨-, -, hz⟩ | ⟨u, r', rfl, -, -, hz⟩ | ⟨p, l', rfl, -, -, hz⟩ |
    ⟨p, l', u, r', rfl, rfl, -, -, hz⟩ <;> rw [hz] <;>
    simp only [List.reverse_cons, List.append_assoc, List.singleton_append, List.forall_mem_append,
      List.forall_mem_cons] at h ⊢
  · exact h
  · exact ⟨h.1, hadd _ _ h.2.1 h.2.2.1, h.2.2.2⟩
  · exact ⟨h.1, hadd _ _ h.2.1 h.2.2.1, h.2.2.2⟩
  · exact ⟨h.1, hadd _ _ (hadd _ _ h.2.1 h.2.2.1) h.2.2.2.1, h.2.2.2.2⟩

/-- **Afterwards no two free tiles touch.** -/
theorem merged_coalesce (hl : Merged z.left) (hr : Merged z.right) : Merged z.coalesce.line := by
  obtain ⟨l, t, r⟩ := z
  unfold line
  rw [merged_reverse_append_cons, merged_cons, merged_cons]
  rcases coalesce_cases l t r with ⟨h1, h2, hz⟩ | ⟨u, r', rfl, h1, h2, hz⟩ | ⟨p, l', rfl, h1, h2, hz⟩ |
    ⟨p, l', u, r', rfl, rfl, h1, h2, hz⟩ <;> rw [hz] <;> simp only
  · exact ⟨⟨.inr h1, hl⟩, .inr h2, hr⟩
  · have hr := merged_cons.1 hr
    exact ⟨⟨.inr h1, hl⟩, .inr (hr.1.resolve_left (by simp [h2])), hr.2⟩
  · have hl := merged_cons.1 hl
    exact ⟨⟨.inr (hl.1.resolve_left (by simp [h1])), hl.2⟩, .inr h2, hr⟩
  · have hl := merged_cons.1 hl
    have hr := merged_cons.1 hr
    exact ⟨⟨.inr (hl.1.resolve_left (by simp [h1])), hl.2⟩, .inr (hr.1.resolve_left (by simp [h2])), hr.2⟩

theorem taken_coalesce (h : z.tile.taken = false) (ht : t.taken = true) :
    (x, t) ∈ cells a z.coalesce.line ↔ (x, t) ∈ cells a z.line := by
  have hne : ∀ {v : Tile} {y : Nat}, v.taken = false → (x, t) ≠ (y, v) := by
    rintro v y hv he
    obtain ⟨rfl, rfl⟩ := Prod.mk.inj he
    rw [ht] at hv
    cases hv
  obtain ⟨l, v, r⟩ := z
  unfold line
  rcases coalesce_cases l v r with ⟨-, -, hz⟩ | ⟨u, r', rfl, -, h2, hz⟩ | ⟨p, l', rfl, h1, -, hz⟩ |
    ⟨p, l', u, r', rfl, rfl, h1, h2, hz⟩ <;> rw [hz] <;>
    simp only [List.reverse_cons, List.append_assoc, List.singleton_append, cells_append, cells, List.mem_append,
      List.mem_cons, span_reverse, Nat.add_assoc]
  · simp only [hne h, hne h2, hne (v := ⟨v.words + u.words, false⟩) rfl, false_or]
  · simp only [hne h, hne h1, hne (v := ⟨p.words + v.words, false⟩) rfl, false_or]
  · simp only [hne h, hne h1, hne h2, hne (v := ⟨p.words + (v.words + u.words), false⟩) rfl, false_or]

theorem cell_cases (hpos : ∀ t ∈ z.line, 0 < t.words) (hx : (x, t) ∈ cells a z.line) :
    (x, t) ∈ cells a z.coalesce.left.reverse ∨
    (a + span z.coalesce.left ≤ x ∧ x < a + span z.coalesce.left + z.coalesce.tile.words) ∨
    (x, t) ∈ cells (a + span z.coalesce.left + z.coalesce.tile.words) z.coalesce.right := by
  have h0 := hpos t (mem_of_mem_cells hx)
  obtain ⟨l, v, r⟩ := z
  unfold line at hx
  rcases coalesce_cases l v r with ⟨-, -, hz⟩ | ⟨u, r', rfl, -, -, hz⟩ | ⟨p, l', rfl, -, -, hz⟩ |
    ⟨p, l', u, r', rfl, rfl, -, -, hz⟩ <;> rw [hz] <;>
    simp only [List.reverse_cons, List.append_assoc, List.singleton_append, cells_append, cells, List.mem_append,
      List.mem_cons, span_reverse, Nat.add_assoc, Prod.mk.injEq] at hx ⊢
  · rcases hx with hx | ⟨rfl, rfl⟩ | hx
    · exact .inl hx
    · exact .inr (.inl (by omega))
    · exact .inr (.inr hx)
  · rcases hx with hx | ⟨rfl, rfl⟩ | ⟨rfl, rfl⟩ | hx
    · exact .inl hx
    · exact .inr (.inl (by omega))
    · exact .inr (.inl (by omega))
    · exact .inr (.inr hx)
  · rcases hx with hx | ⟨rfl, rfl⟩ | ⟨rfl, rfl⟩ | hx
    · exact .inl hx
    · exact .inr (.inl (by omega))
    · exact .inr (.inl (by omega))
    · exact .inr (.inr hx)
  · rcases hx with hx | ⟨rfl, rfl⟩ | ⟨rfl, rfl⟩ | ⟨rfl, rfl⟩ | hx
    · exact .inl hx
    · exact .inr (.inl (by omega))
    · exact .inr (.inl (by omega))
    · exact .inr (.inl (by omega))
    · exact .inr (.inr hx)

/-- Starts inside the joined tile move to its start. -/
theorem start_coalesce (hpos : ∀ t ∈ z.line, 0 < t.words) (hx : x ∈ (cells a z.line).map Prod.fst) :
    (if a + span z.coalesce.left < x ∧ x < a + span z.coalesce.left + z.coalesce.tile.words
      then a + span z.coalesce.left else x) ∈ (cells a z.coalesce.line).map Prod.fst := by
  obtain ⟨⟨y, t⟩, hy, hyx⟩ := List.mem_map.1 hx
  obtain rfl : y = x := hyx
  have h0 := hpos t (mem_of_mem_cells hy)
  have hcases := cell_cases hpos hy
  unfold line
  rw [cells_append, span_reverse, cells, List.map_append, List.map_cons, List.mem_append, List.mem_cons]
  rcases hcases with hx | hx | hx
  · have hb := cells_bounds hx
    rw [span_reverse] at hb
    rw [if_neg (by omega)]
    exact .inl (List.mem_map.2 ⟨_, hx, rfl⟩)
  · refine .inr (.inl ?_)
    simp only
    split_ifs <;> omega
  · have hb := cells_bounds hx
    rw [if_neg (by omega)]
    exact .inr (.inr (List.mem_map.2 ⟨_, hx, rfl⟩))

end Place

end Tiling
