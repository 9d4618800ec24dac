import CsappLab.Malloc.Words

/-!
# Boundary tags

`Blk` is a block: the index of its header word, its size in words without header and footer, and its
status. `Tiled w a bs e`: in the word array `w` the blocks `bs` follow each other without gap or
overlap from word `a` to word `e`, each with the same tag in header and footer.
-/

namespace CsappLab.Malloc

structure Blk where
  hd : Nat
  size : Nat
  taken : Bool
deriving DecidableEq, Repr

namespace Blk

def tag (b : Blk) : Nat := 8 * b.size + b.taken.toNat

def fin (b : Blk) : Nat := b.hd + b.size + 2

variable {b : Blk}

theorem tag_div : b.tag / 8 = b.size := by
  have := Bool.toNat_le b.taken
  unfold tag; omega

theorem tag_mod : b.tag % 2 = b.taken.toNat := by
  have := Bool.toNat_le b.taken
  unfold tag; omega

theorem tag_lt (h : b.size < 2 ^ 29) : b.tag < 2 ^ 32 := by
  have := Bool.toNat_le b.taken
  unfold tag; omega

theorem pack_tag_free (hs : b.size < 2 ^ 29) (ht : b.taken = false) : pack b.size FREE = b.tag := by
  rw [pack_free hs, tag, ht]; rfl

theorem pack_tag_taken (hs : b.size < 2 ^ 29) (ht : b.taken = true) : pack b.size TAKEN = b.tag := by
  rw [pack_taken hs, tag, ht]; rfl

def Apart (b c : Blk) : Prop := b.fin ≤ c.hd ∨ c.fin ≤ b.hd

theorem Apart.symm {c : Blk} (h : b.Apart c) : c.Apart b := Or.symm h

end Blk

/-- The blocks `bs` tile the words from `a` to `e` of `w`. -/
def Tiled (w : Nat → Nat) : Nat → List Blk → Nat → Prop
  | a, [], e => a = e
  | a, b :: bs, e => b.hd = a ∧ w b.hd = b.tag ∧ w (b.hd + b.size + 1) = b.tag ∧ Tiled w b.fin bs e

variable {w w' : Nat → Nat} {a e : Nat} {bs l₁ l₂ : List Blk} {b c : Blk}

theorem tiled_nil : Tiled w a [] e ↔ a = e := Iff.rfl

theorem tiled_cons : Tiled w a (b :: bs) e ↔
    b.hd = a ∧ w b.hd = b.tag ∧ w (b.hd + b.size + 1) = b.tag ∧ Tiled w b.fin bs e := Iff.rfl

theorem tiled_append : Tiled w a (l₁ ++ l₂) e ↔ ∃ m, Tiled w a l₁ m ∧ Tiled w m l₂ e := by
  induction l₁ generalizing a with
  | nil => simp [tiled_nil]
  | cons b l ih =>
    simp only [List.cons_append, tiled_cons, ih]
    constructor
    · rintro ⟨h1, h2, h3, m, h4, h5⟩; exact ⟨m, ⟨h1, h2, h3, h4⟩, h5⟩
    · rintro ⟨m, ⟨h1, h2, h3, h4⟩, h5⟩; exact ⟨h1, h2, h3, m, h4, h5⟩

namespace Tiled

theorem le (h : Tiled w a bs e) : a + 2 * bs.length ≤ e := by
  induction bs generalizing a with
  | nil => rw [tiled_nil] at h; simp; omega
  | cons b bs ih =>
    obtain ⟨h1, -, -, h4⟩ := tiled_cons.1 h
    have := ih h4
    unfold Blk.fin at this
    simp only [List.length_cons]; omega

theorem congr_tags (hw : ∀ b ∈ bs, w' b.hd = w b.hd ∧ w' (b.hd + b.size + 1) = w (b.hd + b.size + 1))
    (h : Tiled w a bs e) : Tiled w' a bs e := by
  induction bs generalizing a with
  | nil => exact h
  | cons b bs ih =>
    obtain ⟨h1, h2, h3, h4⟩ := tiled_cons.1 h
    have hb := hw b (by simp)
    exact tiled_cons.2 ⟨h1, hb.1.trans h2, hb.2.trans h3, ih (fun c hc => hw c (by simp [hc])) h4⟩

theorem mem (h : Tiled w a bs e) (hb : b ∈ bs) :
    a ≤ b.hd ∧ b.fin ≤ e ∧ w b.hd = b.tag ∧ w (b.hd + b.size + 1) = b.tag := by
  obtain ⟨l₁, l₂, rfl⟩ := List.append_of_mem hb
  obtain ⟨m, h1, h2⟩ := tiled_append.1 h
  obtain ⟨h3, h4, h5, h6⟩ := tiled_cons.1 h2
  have := h1.le
  have := h6.le
  exact ⟨by omega, by omega, h4, h5⟩

theorem congr (hw : ∀ i, a ≤ i → i < e → w' i = w i) (h : Tiled w a bs e) : Tiled w' a bs e :=
  h.congr_tags fun b hb => by
    have := h.mem hb
    unfold Blk.fin at this
    exact ⟨hw _ (by omega) (by omega), hw _ (by omega) (by omega)⟩

theorem pairwise (h : Tiled w a bs e) : bs.Pairwise fun b c => b.fin ≤ c.hd := by
  induction bs generalizing a with
  | nil => exact .nil
  | cons b bs ih =>
    obtain ⟨-, -, -, h4⟩ := tiled_cons.1 h
    exact List.pairwise_cons.2 ⟨fun c hc => (h4.mem hc).1, ih h4⟩

theorem apart (h : Tiled w a bs e) (hb : b ∈ bs) (hc : c ∈ bs) (hne : b ≠ c) : b.Apart c := by
  obtain ⟨l₁, l₂, rfl⟩ := List.append_of_mem hb
  obtain ⟨-, h2, h3⟩ := List.pairwise_append.1 h.pairwise
  rcases List.mem_append.1 hc with hc | hc
  · exact .inr (h3 c hc b (by simp))
  · rcases List.mem_cons.1 hc with rfl | hc
    · exact absurd rfl hne
    · exact .inl ((List.pairwise_cons.1 h2).1 c hc)

theorem nodup (h : Tiled w a bs e) : bs.Nodup :=
  h.pairwise.imp fun {b c} hbc heq => by subst heq; unfold Blk.fin at hbc; omega

theorem eq_of_hd (h : Tiled w a bs e) (hb : b ∈ bs) (hc : c ∈ bs) (heq : b.hd = c.hd) : b = c := by
  by_contra hne
  have := h.apart hb hc hne
  unfold Blk.Apart Blk.fin at this; omega

end Tiled
end CsappLab.Malloc
