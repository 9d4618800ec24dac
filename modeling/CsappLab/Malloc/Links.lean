import CsappLab.Malloc.FreeList

/-!
# The two edits undo each other

`place_block_into_free_list` and `remove_block_from_free_list` write the head of one list and link words of
the block and of its neighbours (`LinkWord`), and nothing else. Removing a block right after it was placed
gives the old lists and, but for the two links of the block, the old memory.
-/

namespace CsappLab.Malloc
open ByteMem Linked

/-- The head of the list of `b`, and the link words of `b` and of its neighbours. -/
def LinkWord (fl : Nat → List Blk) (b : Blk) (i : Nat) : Prop :=
  i = Nat.log2 b.size ∨
    ∃ c, (c = b ∨ ∃ k, [b, c] <:+: fl k ∨ [c, b] <:+: fl k) ∧ (i = c.hd + 1 ∨ i = c.hd + 2)

variable {s i k : Nat} {h h' : Heap} {fl : Nat → List Blk} {b c : Blk} {l₁ l₂ : List Blk}

theorem EditWord.linkWord (hi : EditWord k l₁ b l₂ i) (hfl : fl k = l₁ ++ b :: l₂) (hk : k = Nat.log2 b.size) :
    LinkWord fl b i := by
  cases hi with
  | pred => exact .inr ⟨b, .inl rfl, .inl rfl⟩
  | succ => exact .inr ⟨b, .inl rfl, .inr rfl⟩
  | @next n hn =>
    obtain ⟨t, rfl⟩ := List.head?_eq_some_iff.1 hn
    exact .inr ⟨n, .inr ⟨k, .inl ⟨l₁, t, by simp [hfl]⟩⟩, .inl rfl⟩
  | @prev p hp =>
    obtain ⟨t, rfl⟩ := List.getLast?_eq_some_iff.1 hp
    exact .inr ⟨p, .inr ⟨k, .inr ⟨t, l₂, by simp [hfl]⟩⟩, .inr rfl⟩
  | head h0 => exact .inl hk

/-! ### The lists -/

theorem Insertable.not_mem (hf : SortedLists s h fl) (hb : Insertable s h fl b) (k : Nat) : b ∉ fl k := by
  intro hmem
  have := hb.sep hf hmem
  omega

theorem enlist_perm (fl : Nat → List Blk) (b : Blk) (k : Nat) :
    (enlist fl b k).Perm (if k = Nat.log2 b.size then b :: fl k else fl k) := by
  unfold enlist
  split_ifs
  · exact List.perm_orderedInsert _ b (fl k)
  · exact .refl _

theorem unlist_enlist (hnot : ∀ k, b ∉ fl k) : unlist (enlist fl b) b = fl := by
  funext k
  unfold unlist enlist
  split_ifs
  · exact List.erase_orderedInsert_of_notMem (hnot k)
  · exact List.erase_of_not_mem (hnot k)

namespace SortedLists

theorem word_eq (hf : SortedLists s h fl) (hf' : SortedLists s h' fl) (hi : ListWord fl i) :
    h'.word s i = h.word s i := by
  rcases hi with hi | ⟨k, c, hc, rfl | rfl⟩
  · exact (hf'.heads i hi).trans (hf.heads i hi).symm
  · exact ((hf.links k).unique (hf'.links k) c hc).1
  · exact ((hf.links k).unique (hf'.links k) c hc).2

/-- **`remove_block_from_free_list`** writes link words only. -/
theorem remove_writes (hf : SortedLists s h fl) (hb : b ∈ fl k) :
    Writes s (LinkWord fl b) h (h.removeBlockFromFreeList (ptr s b)) := by
  obtain ⟨l₁, l₂, hfl⟩ := List.append_of_mem hb
  obtain ⟨hw, -⟩ := hf.unlinked hfl
  exact hw.imp fun i hi => hi.linkWord hfl (hf.cls k b hb).symm

/-- **`place_block_into_free_list`** writes link words only. -/
theorem place_writes (hf : SortedLists s h fl) (hb : Insertable s h fl b)
    (he : h.placeBlockIntoFreeList (ptr s b) = .ok h') : Writes s (LinkWord (enlist fl b) b) h h' := by
  obtain ⟨h'', he', hw, -⟩ := hf.linkedIn hb rfl rfl rfl
  obtain rfl : h' = h'' := Except.ok.inj (he.symm.trans he')
  refine hw.imp fun i hi => hi.linkWord ?_ rfl
  unfold enlist
  rw [if_pos rfl, orderedInsert_split]

end SortedLists

/-! ### Placing and removing -/

/-- The memory is the same but for the two link words of `b`. -/
def SameButLinks (s : Nat) (b : Blk) (h h' : Heap) : Prop :=
  ∀ x, x < addr s (b.hd + 1) ∨ addr s (b.hd + 3) ≤ x → h'.mem x = h.mem x

theorem sameButLinks_of_word (hbelow : ∀ x, x < s → h'.mem x = h.mem x)
    (hw : ∀ i, i ≠ b.hd + 1 → i ≠ b.hd + 2 → h'.word s i = h.word s i) : SameButLinks s b h h' := by
  intro x hx
  by_cases hs : x < s
  · exact hbelow x hs
  · unfold addr at hx
    refine byte_eq_of_wordAt_eq (hw ((x - s) / 4) ?_ ?_) ?_ ?_ <;> omega

theorem SortedLists.remove_place (hf : SortedLists s h fl) (hb : Insertable s h fl b)
    (he : h.placeBlockIntoFreeList (ptr s b) = .ok h') :
    SortedLists s (h'.removeBlockFromFreeList (ptr s b)) fl ∧
      SameButLinks s b h (h'.removeBlockFromFreeList (ptr s b)) := by
  obtain ⟨h'', he', hf', -, hplace⟩ := hf.place hb
  obtain rfl : h' = h'' := Except.ok.inj (he.symm.trans he')
  have hmem : b ∈ enlist fl b (Nat.log2 b.size) := mem_enlist.2 (.inr ⟨rfl, rfl⟩)
  obtain ⟨hback, -, hremove⟩ := hf'.remove hmem
  rw [unlist_enlist (hb.not_mem hf)] at hback
  refine ⟨hback, sameButLinks_of_word (fun x hx => ?_) fun i h1 h2 => ?_⟩
  · have hout : ∀ {P : Nat → Prop} i, P i → x < addr s i ∨ addr s i + 4 ≤ x := fun i _ => by
      unfold addr
      omega
    rw [(hf'.remove_writes hmem).byte hout, (hf.place_writes hb he).byte hout]
  · by_cases hi : ListWord fl i
    · exact hf.word_eq hback hi
    · have hi' : ¬ ListWord (enlist fl b) i := by
        rintro (hhead | ⟨k, c, hc, hlink⟩)
        · exact hi (.inl hhead)
        · rcases mem_enlist.1 hc with hc | ⟨rfl, -⟩
          · exact hi (.inr ⟨k, c, hc, hlink⟩)
          · exact hlink.elim h1 h2
      rw [hremove i hi', hplace i hi h1 h2]

/-- **Insertion and removal** are inverse to each other and local, for lists of any length. -/
theorem links_inverse_local (hf : SortedLists s h fl) :
    (∀ b, Insertable s h fl b → ∃ h', h.placeBlockIntoFreeList (ptr s b) = .ok h' ∧
      SortedLists s h' (enlist fl b) ∧
      (∀ k, (enlist fl b k).Perm (if k = Nat.log2 b.size then b :: fl k else fl k)) ∧
      Writes s (LinkWord (enlist fl b) b) h h' ∧
      SortedLists s (h'.removeBlockFromFreeList (ptr s b)) fl ∧
      SameButLinks s b h (h'.removeBlockFromFreeList (ptr s b))) ∧
    ∀ k, ∀ b ∈ fl k, SortedLists s (h.removeBlockFromFreeList (ptr s b)) (unlist fl b) ∧
      (∀ j c, c ∈ unlist fl b j ↔ c ∈ fl j ∧ c ≠ b) ∧
      Writes s (LinkWord fl b) h (h.removeBlockFromFreeList (ptr s b)) := by
  constructor
  · intro b hb
    obtain ⟨h', he, hf', -⟩ := hf.place hb
    obtain ⟨hback, hsame⟩ := hf.remove_place hb he
    exact ⟨h', he, hf', enlist_perm fl b, hf.place_writes hb he, hback, hsame⟩
  · intro k b hb
    exact ⟨(hf.remove hb).1, fun _ _ => mem_unlist hf, hf.remove_writes hb⟩

/-- In an arena at address 4 a block of 5 words comes between the two listed blocks of its class, of 7 and of 4
words; it is removed again, or the last block of the three is. -/
theorem links_inverse_local_middle :
    let b₁ : Blk := ⟨60, 7, false⟩
    let b : Blk := ⟨70, 5, false⟩
    let b₂ : Blk := ⟨80, 4, false⟩
    let fl : Nat → List Blk := fun k => if k = 2 then [b₁, b₂] else []
    let h : Heap := [(2, addr 4 60), (60, 56), (62, addr 4 80), (70, 40), (80, 32), (81, addr 4 60)].foldl
      (fun h iv => h.putWord (addr 4 iv.1) iv.2) ⟨fun _ => 0, 4, 4, 4, 4, 0, 0⟩
    ∃ h', h.placeBlockIntoFreeList (ptr 4 b) = .ok h' ∧ SortedLists 4 h' (enlist fl b) ∧
      enlist fl b 2 = [b₁, b, b₂] ∧ Writes 4 (LinkWord (enlist fl b) b) h h' ∧
      SortedLists 4 (h'.removeBlockFromFreeList (ptr 4 b)) fl ∧
      SameButLinks 4 b h (h'.removeBlockFromFreeList (ptr 4 b)) ∧
      SortedLists 4 (h'.removeBlockFromFreeList (ptr 4 b₂)) (unlist (enlist fl b) b₂) := by
  intro b₁ b b₂ fl h
  have hword : ∀ i, h.word 4 i = if i = 81 then addr 4 60 else if i = 80 then 32 else if i = 70 then 40 else
      if i = 62 then addr 4 80 else if i = 60 then 56 else if i = 2 then addr 4 60 else 0 := by
    intro i
    simp only [h, List.foldl_cons, List.foldl_nil, Heap.word_putWord]
    rfl
  have hmem : ∀ {k c}, c ∈ fl k → k = 2 ∧ (c = b₁ ∨ c = b₂) := by
    intro k c hc
    simp only [fl] at hc
    split_ifs at hc with hk
    · exact ⟨hk, by simpa using hc⟩
    · cases hc
  have hfl : ∀ k, k = 2 ∧ fl k = [b₁, b₂] ∨ k ≠ 2 ∧ fl k = [] := by
    intro k
    by_cases hk : k = 2
    · exact .inl ⟨hk, if_pos hk⟩
    · exact .inr ⟨hk, if_neg hk⟩
  have hf : SortedLists 4 h fl := by
    refine { start_pos := by decide, fits := by decide, base := rfl, heads := fun k hk => ?heads,
             links := fun k => ?links, sorted := fun k => ?sorted, nodup := fun k => ?nodup,
             cls := fun k c hc => ?_, tags := fun k c hc => ?_, two := fun k c hc => ?_, lo := fun k c hc => ?_,
             hi := fun k c hc => ?_, apart := fun k k' c d hc hd hne => ?apart }
    case heads =>
      unfold MAX_POWER at hk
      rw [hword]
      rcases hfl k with ⟨rfl, he⟩ | ⟨hne, he⟩
      · rw [he]
        rfl
      · rw [he, if_neg (by omega), if_neg (by omega), if_neg (by omega), if_neg (by omega), if_neg (by omega),
          if_neg hne]
        rfl
    case links =>
      rcases hfl k with ⟨-, he⟩ | ⟨-, he⟩
      · rw [he]
        exact ⟨hword 61, hword 62, hword 81, hword 82, trivial⟩
      · rw [he]
        trivial
    case sorted =>
      rcases hfl k with ⟨-, he⟩ | ⟨-, he⟩
      · rw [he]
        decide
      · rw [he]
        exact .nil
    case nodup =>
      rcases hfl k with ⟨-, he⟩ | ⟨-, he⟩
      · rw [he]
        decide
      · rw [he]
        exact .nil
    case apart =>
      obtain ⟨-, rfl | rfl⟩ := hmem hc <;> obtain ⟨-, rfl | rfl⟩ := hmem hd
      · exact absurd rfl hne
      · exact .inl (by decide)
      · exact .inr (by decide)
      · exact absurd rfl hne
    all_goals obtain ⟨rfl, rfl | rfl⟩ := hmem hc
    · decide
    · decide
    · exact hword 60
    · exact hword 80
    · decide
    · decide
    · decide
    · decide
    · decide
    · decide
  have hb : Insertable 4 h fl b := by
    refine ⟨hword 70, by decide, by decide, by decide, fun k c hc => ?_⟩
    obtain ⟨-, rfl | rfl⟩ := hmem hc
    · exact .inl (by decide)
    · exact .inr (by decide)
  obtain ⟨h', he, hf', -, hwrites, hback, hsame⟩ := (links_inverse_local hf).1 b hb
  have hthree : enlist fl b 2 = [b₁, b, b₂] := by decide
  have hlast : b₂ ∈ enlist fl b 2 := by
    rw [hthree]
    simp
  exact ⟨h', he, hf', hthree, hwrites, hback, hsame, ((links_inverse_local hf').2 2 b₂ hlast).1⟩

end CsappLab.Malloc
