import CsappLab.Csim.Residency

/-!
# `visitCache` against `visitCache2`

The two routines differ in the comparison of the scan only: of several lines with the largest counter
`visitCache` evicts the first and `visitCache2` the last. A hit leaves lines behind it at an old
counter, so such ties do occur.
-/

namespace CsappLab.Csim

variable {g : Geometry} {o o' : Older} {st : State g} {set set' : CacheSet g} {i k k' : Fin g.E}
  {tag t : BitVec 64} {address : BitVec 64} {addresses : List (BitVec 64)}

/-- If the access misses in a full set, one line has, aged once more, a larger counter than all others. -/
def NoTie (st : State g) (address : BitVec 64) : Prop :=
  let set := st.cache (setOf g address)
  ¬ Resident st.cache address → (∀ k, (set k).valid = true) → ∃ k, ∀ j, j ≠ k → aged (set j) < aged (set k)

/-- The condition holds at every access of `visitCache`. -/
def NoTies (st : State g) : List (BitVec 64) → Prop
  | [] => True
  | address :: addresses => NoTie st address ∧ NoTies (visitCache st address).1 addresses

def runs (visit : State g → BitVec 64 → State g × Int) (st : State g) : List (BitVec 64) → State g × List Int
  | [] => (st, [])
  | address :: addresses =>
    let (st, ret) := visit st address
    let (st, rets) := runs visit st addresses
    (st, ret :: rets)

theorem runs_cons (visit : State g → BitVec 64 → State g × Int) :
    runs visit st (address :: addresses) =
      ((runs visit (visit st address).1 addresses).1,
        (visit st address).2 :: (runs visit (visit st address).1 addresses).2) := rfl

/-! ### The scans -/

/-- The scans found the same, up to the line to evict. -/
inductive SameScan : Scan g → Scan g → Prop
  | hit (set : CacheSet g) : SameScan (.hit set) (.hit set)
  | miss (set : CacheSet g) (evict evict' : Fin g.E) (empty : Option (Fin g.E)) :
      SameScan (.miss set evict empty) (.miss set evict' empty)

theorem scan_same (o o' : Older) (tag : BitVec 64) (set : CacheSet g) (evict evict' : Fin g.E)
    (empty : Option (Fin g.E)) (is : List (Fin g.E)) :
    SameScan (scan o tag set evict empty is) (scan o' tag set evict' empty is) := by
  induction is generalizing set evict evict' empty with
  | nil => exact .miss ..
  | cons i is ih =>
    unfold scan
    split_ifs
    all_goals first | exact .hit _ | exact ih ..

theorem scan_evict (h : scan o tag set ⟨0, g.posE⟩ none (List.finRange g.E) = .miss set' k none) :
    ¬ Holds set tag ∧ (∀ i, (set i).valid = true) ∧ Victim o set k := by
  have hok := scan_initial o tag set
  rw [h] at hok
  obtain ⟨hno, -, -, hfull⟩ := hok
  obtain ⟨hall, rfl⟩ := hfull rfl
  exact ⟨hno, hall, victim_foldl o set⟩

/-- The two comparisons choose the same line only if its counter is the largest. -/
theorem Victim.strict (h : Victim .lt set k) (h' : Victim .le set k) : ∀ j, j ≠ k → aged (set j) < aged (set k) := by
  intro j hj
  rcases lt_or_gt_of_ne hj with hlt | hgt
  · simpa [Older.lt] using h.1 j hlt
  · simpa [Older.le] using h'.2 j hgt

theorem Victim.of_strict (h : Victim o set k') (ho : ∀ x y : Int, x < y → o.older x y = true ∧ o.older y x = false)
    (hk : ∀ j, j ≠ k → aged (set j) < aged (set k)) : k' = k := by
  by_contra hne
  obtain ⟨h1, h2⟩ := ho _ _ (hk k' hne)
  rcases lt_or_gt_of_ne hne with hlt | hgt
  · rw [h.2 k hlt] at h1
    cases h1
  · rw [h.1 k hgt] at h2
    cases h2

/-! ### One access -/

theorem visit_same (h : NoTie st address) : visitCache st address = visitCache2 st address := by
  have hsame := scan_same .lt .le (tagOf g address) (st.cache (setOf g address)) ⟨0, g.posE⟩ ⟨0, g.posE⟩ none
    (List.finRange g.E)
  unfold visitCache visitCache2 visit
  simp only
  generalize hlt : scan .lt (tagOf g address) (st.cache (setOf g address)) ⟨0, g.posE⟩ none (List.finRange g.E) = r
    at hsame ⊢
  generalize hle : scan .le (tagOf g address) (st.cache (setOf g address)) ⟨0, g.posE⟩ none (List.finRange g.E) = r'
    at hsame ⊢
  cases hsame with
  | hit set => rfl
  | miss set evict evict' empty =>
    cases empty with
    | some empty => rfl
    | none =>
      obtain ⟨hno, hall, hv⟩ := scan_evict hlt
      obtain ⟨-, -, hv'⟩ := scan_evict hle
      obtain ⟨k, hk⟩ := h hno hall
      obtain rfl : evict = k := hv.of_strict (fun x y hxy => by simp [Older.lt]; omega) hk
      obtain rfl : evict' = evict := hv'.of_strict (fun x y hxy => by simp [Older.le]; omega) hk
      rfl

def FromAddress (st : State g) : Prop :=
  ∀ i t, Holds (st.cache i) t → ∃ address, setOf g address = i ∧ tagOf g address = t

theorem FromAddress.visit (h : FromAddress st) (o : Older) (address : BitVec 64) :
    FromAddress (visit o st address).1 := by
  have hok := visit_ok o st address
  intro i t ht
  by_cases hi : i = setOf g address
  · subst hi
    rcases hok.enters t ht with rfl | ht
    · exact ⟨address, rfl, rfl⟩
    · exact h _ t ht
  · rw [hok.others i hi] at ht
    exact h i t ht

/-- **A tie.** The block that only `visitCache2` has evicted tells the routines apart. -/
theorem visit_tie (hinv : Inv st) (hfrom : FromAddress st) (h : ¬ NoTie st address) :
    ∃ address', (visitCache (visitCache st address).1 address').2 ≠
      (visitCache2 (visitCache2 st address).1 address').2 := by
  simp only [NoTie, Classical.not_imp] at h
  obtain ⟨hno, hall, htie⟩ := h
  have hd := hinv (setOf g address)
  obtain ⟨set₁, ret₁, hst₁, hvis₁⟩ := visit_step .lt st address
  obtain ⟨set₂, ret₂, hst₂, hvis₂⟩ := visit_step .le st address
  have hfull : ∀ {k}, (st.cache (setOf g address) k).valid ≠ false := by
    intro k
    rw [hall k]
    exact nofun
  cases hst₁ with
  | hit hh _ => exact absurd hh hno
  | fill _ hk _ => exact absurd hk hfull
  | @evict set₁ k _ _ hs₁ hk =>
  cases hst₂ with
  | hit hh _ => exact absurd hh hno
  | fill _ hk' _ => exact absurd hk' hfull
  | @evict set₂ k' _ _ hs₂ hk' =>
  have hkk : k' ≠ k := by
    rintro rfl
    exact htie ⟨k', hk.strict hk'⟩
  have hheld : Holds (st.cache (setOf g address)) (st.cache (setOf g address) k').tag := ⟨k', hall k', rfl⟩
  obtain ⟨address', hset, htag⟩ := hfrom _ _ hheld
  refine ⟨address', ?_⟩
  have hin : Resident (visitCache st address).1.cache address' := by
    unfold Resident visitCache
    rw [hvis₁, hset, htag]
    simp only [Function.update_self]
    refine Holds.replace ((Holds.congr hs₁).2 hheld) fun _ ht => hkk ?_
    exact hd k' k (hall k') (hall k) (ht.trans (hs₁ k).2)
  have hout : ¬ Resident (visitCache2 st address).1.cache address' := by
    unfold Resident visitCache2
    rw [hvis₂, hset, htag]
    simp only [Function.update_self]
    rw [holds_replace_iff (hd.congr hs₂), (hs₂ k').1, (hs₂ k').2]
    rintro (ht | ⟨-, ht⟩)
    · rw [ht] at hheld
      exact hno hheld
    · exact ht (hall k') rfl
  intro heq
  have h0 : (visitCache (visitCache st address).1 address').2 = 0 := (visit_ok .lt _ address').hit.2 hin
  exact hout ((visit_ok .le _ address').hit.1 (heq ▸ h0))

/-! ### Whole sequences -/

theorem runs_same (h : NoTies st addresses) : runs visitCache st addresses = runs visitCache2 st addresses := by
  induction addresses generalizing st with
  | nil => rfl
  | cons address addresses ih =>
    rw [runs_cons, runs_cons, ← visit_same h.1, ih h.2]

theorem runs_differ (hinv : Inv st) (hfrom : FromAddress st) (h : ¬ NoTies st addresses) : ∃ n address,
    (runs visitCache st (addresses.take n ++ [address])).2 ≠
      (runs visitCache2 st (addresses.take n ++ [address])).2 := by
  induction addresses generalizing st with
  | nil => exact absurd trivial h
  | cons address addresses ih =>
    by_cases hv : NoTie st address
    · obtain ⟨n, address', hne⟩ := ih (hinv.visit .lt address) (hfrom.visit .lt address) fun h1 => h ⟨hv, h1⟩
      refine ⟨n + 1, address', fun heq => hne ?_⟩
      rw [List.take_succ_cons, List.cons_append, runs_cons, runs_cons, ← visit_same hv] at heq
      exact (List.cons.inj heq).2
    · obtain ⟨address', hne⟩ := visit_tie hinv hfrom hv
      refine ⟨1, address', fun heq => hne ?_⟩
      exact (List.cons.inj (List.cons.inj heq).2).1

/-- **The two routines** do the same on a sequence of addresses on which no miss in a full set finds two
lines with the largest counter; on any other some prefix followed by one access tells them apart. -/
theorem visitCache_eq_visitCache2 (g : Geometry) (addresses : List (BitVec 64)) :
    (NoTies (empty g) addresses →
      runs visitCache (empty g) addresses = runs visitCache2 (empty g) addresses) ∧
    (¬ NoTies (empty g) addresses → ∃ n address,
      (runs visitCache (empty g) (addresses.take n ++ [address])).2 ≠
        (runs visitCache2 (empty g) (addresses.take n ++ [address])).2) := by
  refine ⟨runs_same, runs_differ (inv_empty g) ?_⟩
  rintro i t ⟨k, hk, -⟩
  cases hk

/-- Two lines: the blocks 1 and 2, both accessed once more, have the counter 1 when 3 needs a line. -/
theorem tie_reached : ∃ (g : Geometry) (addresses : List (BitVec 64)),
    (runs visitCache (empty g) addresses).2 ≠ (runs visitCache2 (empty g) addresses).2 ∧
      (runs visitCache (empty g) addresses).1.hits ≠ (runs visitCache2 (empty g) addresses).1.hits := by
  refine ⟨⟨0, 2, 0, by decide, by decide, by decide⟩, [1, 2, 1, 2, 3, 2], ?_, ?_⟩
  · decide +kernel
  · decide +kernel

end CsappLab.Csim
