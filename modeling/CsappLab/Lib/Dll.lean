import Mathlib.Tactic

/-!
# Doubly linked lists

`Dll ptr pred succ p l q`: the nodes `l` are linked in this order. `ptr x` is the address by which
the node `x` is referred to, `pred x` and `succ x` are the contents of its two link words; the first
node points back to `p` and the last one forward to `q` (both `NULL` for a whole list). The two edits
of such a list, unlinking a node (`Dll.erase`) and linking one in (`Dll.insert`), are stated by the
link words they change; every other link word is only required to keep its value.
-/

namespace Linked

variable {α : Type*}

/-- The address of the first node of `l`, or `q` if there is none. -/
def headPtr (ptr : α → Nat) (q : Nat) : List α → Nat
  | [] => q
  | x :: _ => ptr x

/-- The address of the last node of `l`, or `p` if there is none. -/
def lastPtr (ptr : α → Nat) (p : Nat) : List α → Nat
  | [] => p
  | x :: l => lastPtr ptr (ptr x) l

/-- The nodes of `l` are linked in this order, between the outer links `p` and `q`. -/
def Dll (ptr pred succ : α → Nat) : Nat → List α → Nat → Prop
  | _, [], _ => True
  | p, x :: l, q => pred x = p ∧ succ x = headPtr ptr q l ∧ Dll ptr pred succ (ptr x) l q

variable {ptr pred succ pred' succ' : α → Nat} {p p' q q' : Nat} {l l₁ l₂ : List α} {x : α}

@[simp] theorem headPtr_nil : headPtr ptr q [] = q := rfl
@[simp] theorem headPtr_cons : headPtr ptr q (x :: l) = ptr x := rfl
@[simp] theorem lastPtr_nil : lastPtr ptr p [] = p := rfl
@[simp] theorem lastPtr_cons : lastPtr ptr p (x :: l) = lastPtr ptr (ptr x) l := rfl

@[simp] theorem lastPtr_concat : lastPtr ptr p (l ++ [x]) = ptr x := by
  induction l generalizing p with
  | nil => rfl
  | cons y l ih => exact ih

theorem headPtr_append : headPtr ptr q (l₁ ++ l₂) = headPtr ptr (headPtr ptr q l₂) l₁ := by
  cases l₁ <;> rfl

theorem headPtr_eq_iff (h : ∀ y ∈ l, ptr y ≠ q) : headPtr ptr q l = q ↔ l = [] := by
  cases l with
  | nil => simp
  | cons y l => simpa using h y (by simp)

@[simp] theorem dll_nil : Dll ptr pred succ p [] q := trivial

theorem dll_cons : Dll ptr pred succ p (x :: l) q ↔
    pred x = p ∧ succ x = headPtr ptr q l ∧ Dll ptr pred succ (ptr x) l q := Iff.rfl

theorem dll_append : Dll ptr pred succ p (l₁ ++ l₂) q ↔
    Dll ptr pred succ p l₁ (headPtr ptr q l₂) ∧ Dll ptr pred succ (lastPtr ptr p l₁) l₂ q := by
  induction l₁ generalizing p with
  | nil => simp
  | cons y l ih =>
    rw [List.cons_append, dll_cons, dll_cons, ih, headPtr_append]
    simp only [lastPtr_cons, and_assoc]

namespace Dll

theorem congr (hp : ∀ y ∈ l, pred' y = pred y) (hs : ∀ y ∈ l, succ' y = succ y)
    (h : Dll ptr pred succ p l q) : Dll ptr pred' succ' p l q := by
  induction l generalizing p with
  | nil => trivial
  | cons y l ih =>
    obtain ⟨h1, h2, h3⟩ := dll_cons.1 h
    exact dll_cons.2 ⟨(hp y (by simp)).trans h1, (hs y (by simp)).trans h2,
      ih (fun z hz => hp z (by simp [hz])) (fun z hz => hs z (by simp [hz])) h3⟩

theorem mid (h : Dll ptr pred succ p (l₁ ++ x :: l₂) q) :
    pred x = lastPtr ptr p l₁ ∧ succ x = headPtr ptr q l₂ :=
  let ⟨_, h2⟩ := dll_append.1 h; ⟨h2.1, h2.2.1⟩

theorem setLast (hp : ∀ y ∈ l, pred' y = pred y) (hs : ∀ y ∈ l.dropLast, succ' y = succ y)
    (hl : ∀ y ∈ l.getLast?, succ' y = q') (h : Dll ptr pred succ p l q) :
    Dll ptr pred' succ' p l q' := by
  rcases List.eq_nil_or_concat l with rfl | ⟨l, y, rfl⟩
  · trivial
  · rw [List.concat_eq_append] at *
    obtain ⟨h1, h2⟩ := dll_append.1 h
    refine dll_append.2 ⟨congr (fun z hz => hp z (by simp [hz])) (fun z hz => hs z (by simp [hz])) h1,
      (hp y (by simp)).trans h2.1, hl y (by simp), trivial⟩

theorem setHead (hs : ∀ y ∈ l, succ' y = succ y) (hp : ∀ y ∈ l.tail, pred' y = pred y)
    (hh : ∀ y ∈ l.head?, pred' y = p') (h : Dll ptr pred succ p l q) :
    Dll ptr pred' succ' p' l q := by
  cases l with
  | nil => trivial
  | cons y l =>
    exact dll_cons.2 ⟨hh y (by simp), (hs y (by simp)).trans h.2.1,
      congr hp (fun z hz => hs z (by simp [hz])) h.2.2⟩

/-- **Unlinking** the node between `l₁` and `l₂`. -/
theorem erase (hp₁ : ∀ y ∈ l₁, pred' y = pred y) (hs₁ : ∀ y ∈ l₁.dropLast, succ' y = succ y)
    (hl : ∀ y ∈ l₁.getLast?, succ' y = headPtr ptr q l₂) (hs₂ : ∀ y ∈ l₂, succ' y = succ y)
    (hp₂ : ∀ y ∈ l₂.tail, pred' y = pred y) (hh : ∀ y ∈ l₂.head?, pred' y = lastPtr ptr p l₁)
    (h : Dll ptr pred succ p (l₁ ++ x :: l₂) q) : Dll ptr pred' succ' p (l₁ ++ l₂) q := by
  obtain ⟨h1, h2⟩ := dll_append.1 h
  exact dll_append.2 ⟨h1.setLast hp₁ hs₁ hl, Dll.setHead hs₂ hp₂ hh h2.2.2⟩

/-- **Linking in** the node `x` between `l₁` and `l₂`. -/
theorem insert (hp₁ : ∀ y ∈ l₁, pred' y = pred y) (hs₁ : ∀ y ∈ l₁.dropLast, succ' y = succ y)
    (hl : ∀ y ∈ l₁.getLast?, succ' y = ptr x) (hs₂ : ∀ y ∈ l₂, succ' y = succ y)
    (hp₂ : ∀ y ∈ l₂.tail, pred' y = pred y) (hh : ∀ y ∈ l₂.head?, pred' y = ptr x)
    (hpx : pred' x = lastPtr ptr p l₁) (hsx : succ' x = headPtr ptr q l₂)
    (h : Dll ptr pred succ p (l₁ ++ l₂) q) : Dll ptr pred' succ' p (l₁ ++ x :: l₂) q := by
  obtain ⟨h1, h2⟩ := dll_append.1 h
  exact dll_append.2 ⟨h1.setLast hp₁ hs₁ hl, hpx, hsx, h2.setHead hs₂ hp₂ hh⟩

/-- The order and the outer links determine all links. -/
theorem unique (h : Dll ptr pred succ p l q) (h' : Dll ptr pred' succ' p l q) :
    ∀ y ∈ l, pred' y = pred y ∧ succ' y = succ y := by
  induction l generalizing p with
  | nil => exact fun y hy => nomatch hy
  | cons x l ih =>
    obtain ⟨h1, h2, h3⟩ := dll_cons.1 h
    obtain ⟨h1', h2', h3'⟩ := dll_cons.1 h'
    intro y hy
    rcases List.mem_cons.1 hy with rfl | hy
    · exact ⟨h1'.trans h1.symm, h2'.trans h2.symm⟩
    · exact ih h3 h3' y hy

end Dll
end Linked
