import CsappLab.Csim.Cache

/-!
# One call of `visitCache`

What the scan finds (`scan_spec`) and what a call does to the set of its address (`visit_step`).
-/

namespace CsappLab.Csim

open CInt

variable {g : Geometry} {o : Older} {tag t : BitVec 64} {set set' set₀ : CacheSet g}
  {i j k evict : Fin g.E} {empty : Option (Fin g.E)} {is : List (Fin g.E)}

def Holds (set : CacheSet g) (tag : BitVec 64) : Prop := ∃ i, (set i).valid = true ∧ (set i).tag = tag

def SameTags (set set' : CacheSet g) : Prop :=
  ∀ i, (set' i).valid = (set i).valid ∧ (set' i).tag = (set i).tag

/-- The counter of a line that the scan has aged. -/
def aged (line : CacheLine) : Int := i32 (line.lru + 1)

/-- The line the scan prefers to all others. -/
def Victim (o : Older) (set : CacheSet g) (k : Fin g.E) : Prop :=
  (∀ j < k, o.older (aged (set j)) (aged (set k)) = true) ∧
    ∀ j, k < j → o.older (aged (set k)) (aged (set j)) = false

/-- What a call does to its set, with the return value. -/
inductive SetStep (o : Older) (set : CacheSet g) (tag : BitVec 64) : CacheSet g → Int → Prop
  | hit {set' : CacheSet g} : Holds set tag → SameTags set set' → SetStep o set tag set' 0
  | fill {set' : CacheSet g} {k : Fin g.E} : ¬ Holds set tag → (set k).valid = false → SameTags set set' →
      SetStep o set tag (Function.update set' k ⟨true, 1, tag⟩) 1
  | evict {set' : CacheSet g} {k : Fin g.E} : ¬ Holds set tag → (∀ i, (set i).valid = true) → SameTags set set' →
      Victim o set k → SetStep o set tag (Function.update set' k ⟨true, 1, tag⟩) 2

theorem Holds.congr (h : SameTags set set') : Holds set' t ↔ Holds set t := by
  unfold Holds
  simp only [(h _).1, (h _).2]

theorem SameTags.update (h : SameTags set set') (lru : Int) :
    SameTags set (Function.update set' i { set' i with lru := lru }) := by
  intro j
  by_cases hj : j = i
  · subst hj
    rw [Function.update_self]
    exact h j
  · rw [Function.update_of_ne hj]
    exact h j

/-! ### The choice of the scan -/

def pick (o : Older) (set : CacheSet g) (evict i : Fin g.E) : Fin g.E :=
  if o.older (aged (set evict)) (aged (set i)) then i else evict

theorem foldl_pick (o : Older) (set : CacheSet g) (h : (evict :: is).Pairwise (· < ·)) :
    let k := is.foldl (pick o set) evict
    k ∈ evict :: is ∧ (∀ j ∈ evict :: is, j < k → o.older (aged (set j)) (aged (set k)) = true) ∧
      ∀ j ∈ evict :: is, k < j → o.older (aged (set k)) (aged (set j)) = false := by
  induction is generalizing evict with
  | nil => simp
  | cons i is ih =>
    intro k
    obtain ⟨hei, his⟩ : evict < i ∧ (i :: is).Pairwise (· < ·) := by
      rw [List.pairwise_cons] at h
      exact ⟨h.1 i (by simp), h.2⟩
    have hes : (evict :: is).Pairwise (· < ·) := h.sublist ((List.sublist_cons_self i is).cons_cons evict)
    by_cases hold : o.older (aged (set evict)) (aged (set i)) = true
    · have hk : k = is.foldl (pick o set) i := by
        simp only [k, List.foldl_cons, pick, if_pos hold]
      obtain ⟨h1, h2, h3⟩ := ih his
      rw [← hk] at h1 h2 h3
      have hik : i ≤ k := by
        rcases List.mem_cons.1 h1 with h1 | h1
        · exact h1.ge
        · exact ((List.pairwise_cons.1 his).1 k h1).le
      have he : o.older (aged (set evict)) (aged (set k)) = true := by
        rcases hik.eq_or_lt with hik | hik
        · rw [← hik]
          exact hold
        · exact o.trans _ _ _ hold (h2 i (by simp) hik)
      refine ⟨List.mem_cons_of_mem _ h1, ?_, ?_⟩
      · intro j hj hjk
        rcases List.mem_cons.1 hj with rfl | hj
        · exact he
        · exact h2 j hj hjk
      · intro j hj hjk
        rcases List.mem_cons.1 hj with rfl | hj
        · exact absurd (hei.trans_le hik) hjk.asymm
        · exact h3 j hj hjk
    · have hk : k = is.foldl (pick o set) evict := by
        simp only [k, List.foldl_cons, pick, if_neg hold]
      obtain ⟨h1, h2, h3⟩ := ih hes
      rw [← hk] at h1 h2 h3
      refine ⟨?_, ?_, ?_⟩
      · rcases List.mem_cons.1 h1 with h1 | h1
        · simp [h1]
        · simp [h1]
      · intro j hj hjk
        rcases List.mem_cons.1 hj with rfl | hj
        · exact h2 j (by simp) hjk
        · rcases List.mem_cons.1 hj with rfl | hj
          · exact o.weaken _ _ _ hold (h2 evict (by simp) (hei.trans hjk))
          · exact h2 j (by simp [hj]) hjk
      · intro j hj hjk
        rcases List.mem_cons.1 hj with rfl | hj
        · exact h3 j (by simp) hjk
        · rcases List.mem_cons.1 hj with rfl | hj
          · rcases List.mem_cons.1 h1 with h1 | h1
            · rw [h1]
              exact Bool.eq_false_iff.2 hold
            · exact absurd ((List.pairwise_cons.1 his).1 k h1) hjk.asymm
          · exact h3 j (by simp [hj]) hjk

/-! ### The scan -/

theorem SameTags.rfl : SameTags set set := fun _ => ⟨.refl _, .refl _⟩

/-- What the scan returns on `set₀`; in a full set it chooses `k`. -/
def ScanOk (set₀ : CacheSet g) (tag : BitVec 64) (k : Fin g.E) : Scan g → Prop
  | .hit set' => Holds set₀ tag ∧ SameTags set₀ set'
  | .miss set' evict empty => ¬ Holds set₀ tag ∧ SameTags set₀ set' ∧
    (∀ i, empty = some i → (set₀ i).valid = false) ∧
    (empty = none → (∀ i, (set₀ i).valid = true) ∧ evict = k)

theorem pick_aged (hsi : set i = set₀ i) (hold : evict ∉ i :: is → (set evict).lru = aged (set₀ evict))
    (hev : evict ∉ i :: is ∨ (i :: is).head? = some evict) :
    (if o.older (Function.update set i { set i with lru := aged (set i) } evict).lru
        (Function.update set i { set i with lru := aged (set i) } i).lru then i else evict) =
      pick o set₀ evict i := by
  rcases hev with hev | hev
  · have hei : evict ≠ i := fun h => hev (by simp [h])
    unfold pick
    rw [Function.update_self, Function.update_of_ne hei, hold hev, hsi]
  · obtain rfl : i = evict := by simpa using hev
    simp [pick]

/-- **The loop.** The lines of `is` are still to be scanned; the valid ones of the others have been
aged. -/
theorem scan_spec (hnd : is.Nodup) (hst : SameTags set₀ set) (hnew : ∀ j ∈ is, set j = set₀ j)
    (hold : ∀ j, j ∉ is → (set₀ j).valid = true → (set j).lru = aged (set₀ j))
    (hno : ∀ j, j ∉ is → (set₀ j).valid = true → (set₀ j).tag ≠ tag)
    (hev : evict ∉ is ∨ is.head? = some evict)
    (hem : ∀ i, empty = some i → (set₀ i).valid = false)
    (hfull : empty = none → ∀ j, j ∉ is → (set₀ j).valid = true)
    (hk : (∀ j, (set₀ j).valid = true) → is.foldl (pick o set₀) evict = k) :
    ScanOk set₀ tag k (scan o tag set evict empty is) := by
  induction is generalizing set evict empty with
  | nil =>
    refine ⟨?_, hst, hem, fun h => ⟨fun i => hfull h i (by simp), hk fun i => hfull h i (by simp)⟩⟩
    rintro ⟨i, hi, ht⟩
    exact hno i (by simp) hi ht
  | cons i is ih =>
    obtain ⟨hi, hnd'⟩ := List.nodup_cons.1 hnd
    have hsi := hnew i (by simp)
    have hmem : ∀ j, j ∉ is → j ≠ i → j ∉ i :: is := fun j hj hji => by simp [hj, hji]
    have hei : evict ∉ is := by
      rcases hev with hev | hev
      · exact fun h => hev (by simp [h])
      · rw [List.head?_cons, Option.some.injEq] at hev
        exact hev ▸ hi
    unfold scan
    by_cases hv : (set i).valid = true
    · by_cases ht : (set i).tag = tag
      · rw [if_pos hv, if_pos ht]
        exact ⟨⟨i, by rw [← hsi]; exact ⟨hv, ht⟩⟩, hst.update 1⟩
      · rw [if_pos hv, if_neg ht]
        refine ih hnd' (hst.update _) ?_ ?_ ?_ ?_ hem
          ?_ ?_
        · intro j hj
          have hji : j ≠ i := fun h => hi (h ▸ hj)
          rw [Function.update_of_ne hji]
          exact hnew j (by simp [hj])
        · intro j hj hvj
          by_cases hji : j = i
          · subst hji
            rw [Function.update_self, hsi]
            rfl
          · rw [Function.update_of_ne hji]
            exact hold j (hmem j hj hji) hvj
        · intro j hj hvj
          by_cases hji : j = i
          · rw [hji, ← hsi]
            exact ht
          · exact hno j (hmem j hj hji) hvj
        · left
          split_ifs
          · exact hi
          · exact hei
        · intro h j hj
          by_cases hji : j = i
          · rw [hji, ← hsi]
            exact hv
          · exact hfull h j (hmem j hj hji)
        · intro hall
          rw [← hk hall, List.foldl_cons, ← pick_aged hsi (fun h => hold evict h (hall evict)) hev]
          rfl
    · rw [if_neg hv]
      have hv' : (set₀ i).valid = false := by rw [← hsi]; exact Bool.eq_false_iff.2 hv
      refine ih hnd' hst (fun j hj => hnew j (by simp [hj])) ?_ ?_
        (.inl hei) (fun j hj => by cases hj; exact hv') (fun h => by cases h) ?_
      · intro j hj hvj
        by_cases hji : j = i
        · rw [hji, hv'] at hvj
          cases hvj
        · exact hold j (hmem j hj hji) hvj
      · intro j hj hvj
        by_cases hji : j = i
        · rw [hji, hv'] at hvj
          cases hvj
        · exact hno j (hmem j hj hji) hvj
      · intro hall
        rw [hall i] at hv'
        cases hv'

theorem finRange_eq_cons {n : Nat} (h : 0 < n) : ∃ is, List.finRange n = ⟨0, h⟩ :: is := by
  cases n with
  | zero => cases h
  | succ n => exact ⟨_, List.finRange_succ⟩

theorem victim_foldl (o : Older) (set : CacheSet g) :
    Victim o set ((List.finRange g.E).foldl (pick o set) ⟨0, g.posE⟩) := by
  obtain ⟨is, his⟩ := finRange_eq_cons g.posE
  have hmem : ∀ j, j ∈ (⟨0, g.posE⟩ :: is : List (Fin g.E)) := fun j => his ▸ List.mem_finRange j
  have hsorted : (⟨0, g.posE⟩ :: is : List (Fin g.E)).Pairwise (· < ·) := his ▸ List.pairwise_lt_finRange _
  obtain ⟨-, h2, h3⟩ := foldl_pick o set hsorted
  have hpick : pick o set ⟨0, g.posE⟩ ⟨0, g.posE⟩ = ⟨0, g.posE⟩ := by simp [pick]
  rw [his, List.foldl_cons, hpick]
  exact ⟨fun j => h2 j (hmem j), fun j => h3 j (hmem j)⟩

theorem scan_initial (o : Older) (tag : BitVec 64) (set : CacheSet g) :
    ScanOk set tag ((List.finRange g.E).foldl (pick o set) ⟨0, g.posE⟩)
      (scan o tag set ⟨0, g.posE⟩ none (List.finRange g.E)) := by
  refine scan_spec (List.nodup_finRange _) .rfl (fun _ _ => rfl) ?_ ?_ (.inr ?_) ?_ ?_ fun _ => rfl
  · exact fun j hj => absurd (List.mem_finRange j) hj
  · exact fun j hj => absurd (List.mem_finRange j) hj
  · obtain ⟨is, his⟩ := finRange_eq_cons g.posE
    rw [his, List.head?_cons]
  · intro i hi
    cases hi
  · exact fun _ j hj => absurd (List.mem_finRange j) hj

/-! ### A call -/

/-- **A call** changes only the set of its address and the counters. -/
theorem visit_step (o : Older) (st : State g) (address : BitVec 64) :
    ∃ set' ret, SetStep o (st.cache (setOf g address)) (tagOf g address) set' ret ∧
      visit o st address = (⟨Function.update st.cache (setOf g address) set',
        if ret = 0 then i32 (st.hits + 1) else st.hits, if ret = 0 then st.misses else i32 (st.misses + 1),
        if ret = 2 then i32 (st.evictions + 1) else st.evictions⟩, ret) := by
  have h := scan_initial o (tagOf g address) (st.cache (setOf g address))
  unfold visit
  revert h
  cases hs : scan o (tagOf g address) (st.cache (setOf g address)) ⟨0, g.posE⟩ none (List.finRange g.E) with
  | hit set' =>
    rintro ⟨h1, h2⟩
    exact ⟨set', 0, .hit h1 h2, by simp [hs]⟩
  | miss set' evict empty =>
    rintro ⟨h1, h2, h3, h4⟩
    cases empty with
    | some k => exact ⟨_, 1, .fill h1 (h3 k rfl) h2, by simp [hs]⟩
    | none =>
      obtain ⟨hall, rfl⟩ := h4 rfl
      refine ⟨_, 2, .evict h1 hall h2 (victim_foldl o _), ?_⟩
      have hv := (h2 ((List.finRange g.E).foldl (pick o (st.cache (setOf g address))) ⟨0, g.posE⟩)).1.trans
        (hall _)
      simp [hs, ← hv]

end CsappLab.Csim
