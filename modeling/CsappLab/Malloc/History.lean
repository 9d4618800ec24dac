import CsappLab.Malloc.Requests

/-!
# What a process leaves behind

`mem_reset_brk` and `mm_init` start the allocator anew, but `previous_size`, the static variable of
`mm_realloc`, keeps its value. `History a h n`: some calls have been made in the process, with any
pointers and sizes, the last `mm_realloc` had size `n`, and the state is now `h`. The divisor of
`mm_realloc` is a function of `n` and the new size.
-/

namespace CsappLab.Malloc
open ByteMem CInt Linked Fuel

/-! ### What no call touches -/

/-- The limits of the arena and `previous_size` are the same. -/
structure Kept (h h' : Heap) : Prop where
  start : h'.memStartBrk = h.memStartBrk
  max : h'.memMaxAddr = h.memMaxAddr
  prev : h'.previousSize = h.previousSize

variable {h h' h'' : Heap} {bp n p r size words : Nat} {k : Int} {op : Op} {a : Arena}

namespace Kept

theorem refl (h : Heap) : Kept h h := ⟨rfl, rfl, rfl⟩

theorem trans (k : Kept h h') (k' : Kept h' h'') : Kept h h'' :=
  ⟨k'.start.trans k.start, k'.max.trans k.max, k'.prev.trans k.prev⟩

theorem putWord (k : Kept h h') (p v : Nat) : Kept h (h'.putWord p v) := ⟨k.start, k.max, k.prev⟩

theorem removeBlockFromFreeList (k : Kept h h') : Kept h (h'.removeBlockFromFreeList bp) := by
  refine k.trans ?_
  unfold Heap.removeBlockFromFreeList
  simp only []
  split_ifs <;> exact ⟨rfl, rfl, rfl⟩

theorem placeBlockIntoFreeList (hp : h.placeBlockIntoFreeList bp = .ok h') : Kept h h' := by
  unfold Heap.placeBlockIntoFreeList at hp
  simp only [] at hp
  split_ifs at hp
  · cases hp; exact .refl h
  · cases hp; exact ⟨rfl, rfl, rfl⟩
  · cases hp; exact ⟨rfl, rfl, rfl⟩
  · obtain ⟨⟨front, back⟩, -, hp⟩ := bind_eq_ok.1 hp
    simp only [] at hp
    split_ifs at hp <;> cases hp <;> exact ⟨rfl, rfl, rfl⟩

theorem coalesce (hc : h.coalesce bp = (h', p)) : Kept h h' := by
  have hk := Kept.refl h
  unfold Heap.coalesce at hc
  simp only [] at hc
  split_ifs at hc <;> cases hc
  · exact hk
  · exact (hk.removeBlockFromFreeList.putWord _ _).putWord _ _
  · exact (hk.removeBlockFromFreeList.putWord _ _).putWord _ _
  · exact (hk.removeBlockFromFreeList.removeBlockFromFreeList.putWord _ _).putWord _ _
  · exact hk

theorem allocFreeBlock (ha : h.allocFreeBlock bp words = .ok h') : Kept h h' := by
  have hk := Kept.refl h
  unfold Heap.allocFreeBlock at ha
  simp only [] at ha
  split_ifs at ha
  · generalize hc : Heap.coalesce _ _ = res at ha
    obtain ⟨g, c⟩ := res
    have hco := coalesce hc
    exact (((((hk.putWord _ _).putWord _ _).putWord _ _).putWord _ _).trans hco).trans
      (placeBlockIntoFreeList ha)
  · cases ha
    exact (hk.putWord _ _).putWord _ _
  · cases ha
    exact (hk.putWord _ _).putWord _ _

theorem memSbrk (h : Heap) (incr : Int) : Kept h (h.memSbrk incr).1 := by
  unfold Heap.memSbrk
  split_ifs <;> exact ⟨rfl, rfl, rfl⟩

theorem ifPtr_fst {res : Heap × Option Nat} {f : Heap → Heap × Option Nat} {g : Heap → Nat → Heap × Option Nat}
    (hr : Kept h res.1) (hf : ∀ h, Kept h (f h).1) (hg : ∀ h p, Kept h (g h p).1) : Kept h (ifPtr res f g).1 := by
  obtain ⟨h', _ | p⟩ := res
  · exact hr.trans (hf h')
  · exact hr.trans (hg h' p)

theorem extendHeap (h : Heap) (words : Nat) : Kept h (h.extendHeap words).1 :=
  ifPtr_fst (memSbrk _ _) (fun h => .refl h) fun _ _ => ⟨rfl, rfl, rfl⟩

theorem ifPtr_ok {β : Type} {res : Heap × Option Nat} {f : Heap → Except Fault (Heap × β)}
    {g : Heap → Nat → Except Fault (Heap × β)} {v : β} (hi : ifPtr res f g = .ok (h', v)) (hr : Kept h res.1)
    (hf : ∀ h h' v, f h = .ok (h', v) → Kept h h') (hg : ∀ h p h' v, g h p = .ok (h', v) → Kept h h') :
    Kept h h' := by
  obtain ⟨h₁, _ | p⟩ := res
  · exact hr.trans (hf _ _ _ hi)
  · exact hr.trans (hg _ _ _ _ hi)

theorem clearLists (h : Heap) (n : Nat) : Kept h ((List.range n).foldl (fun h i => h.setFreeListPtr i NULL) h) := by
  induction n with
  | zero => exact .refl h
  | succ n ih =>
    rw [List.range_succ, List.foldl_append, List.foldl_cons, List.foldl_nil]
    exact ih.putWord _ _

theorem writeProlog (h : Heap) (p : Nat) : Kept h (writeProlog h p) := ⟨rfl, rfl, rfl⟩

theorem mmInit {v : Int} (hi : h.mmInit = .ok (h', v)) : Kept h h' := by
  unfold Heap.mmInit at hi
  refine ifPtr_ok hi (memSbrk _ _) (fun h h' v hok => by cases hok; exact ⟨rfl, rfl, rfl⟩) fun h p h' v hi => ?_
  extract_lets h₁ h₂ h₃ at hi
  have hk : Kept h h₃ :=
    ((show Kept h h₁ from ⟨rfl, rfl, rfl⟩).trans (clearLists h₁ _)).trans (memSbrk h₂ WORD_SIZE)
  refine hk.trans (ifPtr_ok hi (memSbrk _ _) (fun h h' v hok => by cases hok; exact ⟨rfl, rfl, rfl⟩) ?_)
  intro h q h' v hi
  refine (writeProlog h q).trans (ifPtr_ok hi (extendHeap _ _) (fun h h' v hok => by cases hok; exact .refl _) ?_)
  intro h b h' v hok
  obtain ⟨h₃, hp, hok⟩ := bind_eq_ok.1 hok
  cases hok
  exact placeBlockIntoFreeList hp

theorem mmMalloc (hm : h.mmMalloc size = .ok (h', r)) : Kept h h' := by
  unfold Heap.mmMalloc at hm
  extract_lets size' words at hm
  split_ifs at hm with h0
  · cases hm
    exact .refl h
  obtain ⟨bp, -, hm⟩ := bind_eq_ok.1 hm
  split_ifs at hm with hb
  · refine ifPtr_ok hm (extendHeap _ _) (fun h h' v hok => by cases hok; exact .refl _) fun h bp h' v hok => ?_
    obtain ⟨h₁, ha, hok⟩ := bind_eq_ok.1 hok
    cases hok
    exact allocFreeBlock ha
  · obtain ⟨h₁, ha, hok⟩ := bind_eq_ok.1 hm
    cases hok
    exact (Kept.refl h).removeBlockFromFreeList.trans (allocFreeBlock ha)

theorem mmFree (hf : h.mmFree p = .ok h') : Kept h h' := by
  have hk := Kept.refl h
  unfold Heap.mmFree at hf
  simp only [] at hf
  generalize hc : Heap.coalesce _ _ = res at hf
  obtain ⟨g, c⟩ := res
  have hco := coalesce hc
  exact (((hk.putWord _ _).putWord _ _).trans hco).trans (placeBlockIntoFreeList hf)

theorem regrow {move : Bool} (hr : h.regrow bp n words move = .ok (h', r)) : Kept h h' := by
  have hk := Kept.refl h
  unfold Heap.regrow at hr
  simp only [] at hr
  generalize hc : Heap.coalesce _ _ = res at hr
  obtain ⟨g, c⟩ := res
  have hco := coalesce hc
  obtain ⟨g', ha, hok⟩ := bind_eq_ok.1 hr
  cases hok
  refine ((hk.putWord _ _).putWord _ _).trans (hco.trans (Kept.trans ?_ (allocFreeBlock ha)))
  cases move <;> exact ⟨rfl, rfl, rfl⟩

theorem moveFresh {request : Nat} (hr : h.moveFresh bp n request = .ok (h', r)) : Kept h h' := by
  unfold Heap.moveFresh at hr
  obtain ⟨⟨g, q⟩, hm, hr⟩ := bind_eq_ok.1 hr
  simp only [] at hr
  split_ifs at hr
  · cases hr
    exact mmMalloc hm
  · obtain ⟨g', hf, hok⟩ := bind_eq_ok.1 hr
    cases hok
    refine (mmMalloc hm).trans (Kept.trans ?_ (mmFree hf))
    exact ⟨rfl, rfl, rfl⟩

theorem mmReallocWrapped (hr : h.mmReallocWrapped p size k = .ok (h', r)) : Kept h h' := by
  by_cases hp : p = NULL
  · subst hp
    rw [mmReallocWrapped_null] at hr
    cases hr
    exact .refl h
  rw [mmReallocWrapped_eq hp] at hr
  simp only [] at hr
  split_ifs at hr
  · cases hr; exact .refl h
  · obtain ⟨g', hf, hok⟩ := bind_eq_ok.1 hr
    cases hok
    exact mmFree hf
  · exact regrow hr
  · exact regrow hr
  · exact regrow hr
  · exact moveFresh hr
  · cases hr; exact .refl h

end Kept

/-! ### Histories -/

def Op.lastSize (n : Nat) : Op → Nat
  | .realloc _ size => size
  | _ => n

/-- The states of a process, with the size of its last `mm_realloc`, or 0 before the first. -/
inductive History (a : Arena) : Heap → Nat → Prop
  | start {h : Heap} : h.previousSize = 0 → History a (h.memInit a) 0
  | reset {h : Heap} {n : Nat} : History a h n → History a h.memResetBrk n
  | init {h h' : Heap} {n : Nat} {v : Int} : History a h n → h.mmInit = .ok (h', v) → History a h' n
  | call {h h' : Heap} {n r : Nat} {op : Op} : History a h n → h.perform op = .ok (h', r) →
      History a h' (op.lastSize n)

/-- **What a history leaves**: the limits of the arena, and the last size in `previous_size`. -/
theorem History.spec (hh : History a h n) :
    h.memStartBrk = a.start ∧ h.memMaxAddr = a.start + MAX_HEAP ∧ h.previousSize = i32 n := by
  induction hh with
  | start h0 => exact ⟨rfl, rfl, h0⟩
  | reset _ ih => exact ih
  | init _ hi ih =>
    have hk := Kept.mmInit hi
    exact ⟨hk.start.trans ih.1, hk.max.trans ih.2.1, hk.prev.trans ih.2.2⟩
  | @call h h' n r op _ hc ih =>
    have kept (hk : Kept h h') : h'.memStartBrk = a.start ∧ h'.memMaxAddr = a.start + MAX_HEAP ∧
        h'.previousSize = i32 n := ⟨hk.start.trans ih.1, hk.max.trans ih.2.1, hk.prev.trans ih.2.2⟩
    cases op with
    | malloc size => exact kept (Kept.mmMalloc hc)
    | free p =>
      obtain ⟨g, hf, hok⟩ := bind_eq_ok.1 hc
      cases hok
      exact kept (Kept.mmFree hf)
    | realloc p size =>
      obtain ⟨k, -, hr⟩ := bind_eq_ok.1 hc
      obtain ⟨⟨g, q⟩, hw, hok⟩ := bind_eq_ok.1 hr
      cases hok
      have hk := Kept.mmReallocWrapped hw
      exact ⟨hk.start.trans ih.1, hk.max.trans ih.2.1, rfl⟩
    | write x v =>
      cases hc
      exact ih

/-! ### The division in `mm_realloc` -/

/-- The divisor of `diff % round_up_power_2(diff)`, when `mm_realloc` comes to the division. -/
def Heap.divisor (h : Heap) (size : Nat) : Option Int :=
  let diff := absInt (i32 (size - h.previousSize))
  if diff < 1 <<< 12 then some (roundUpPower2 diff) else none

theorem divisor_eq_zero_iff : h.divisor size = some 0 ↔
    absInt (i32 (size - h.previousSize)) < 4096 ∧ roundUpPower2 (absInt (i32 (size - h.previousSize))) = 0 := by
  unfold Heap.divisor
  rw [show ((1 <<< 12 : Nat) : Int) = 4096 by rfl]
  simp only []
  split_ifs with h1
  · simp only [Option.some.injEq, h1, true_and]
  · simp only [h1, false_and]

theorem bufferSize_error_iff : h.bufferSize size = .error .divideByZero ↔ h.divisor size = some 0 := by
  rw [divisor_eq_zero_iff]
  unfold Heap.bufferSize
  rw [show ((1 <<< 12 : Nat) : Int) = 4096 by rfl]
  simp only []
  split_ifs with h1 h2 h3
  · exact iff_of_true rfl ⟨h1, h2⟩
  · exact iff_of_false nofun fun h4 => h2 h4.2
  · exact iff_of_false nofun fun h4 => h2 h4.2
  · exact iff_of_false nofun fun h4 => h1 h4.1

/-- Only the least `int` has no absolute value. -/
theorem absInt_eq {m : Int} (h1 : -2 ^ 31 < m) (h2 : m < 2 ^ 31) : absInt m = m.natAbs := by
  unfold absInt
  rw [Int.abs_eq_natAbs, i32_natCast (by omega)]

theorem roundUpPower2_abs_eq_zero {m : Int} (h1 : -2 ^ 31 ≤ m) (h2 : m < 2 ^ 31) :
    (absInt m < 4096 ∧ roundUpPower2 (absInt m) = 0) ↔ m = 0 ∨ m = -2 ^ 31 := by
  rcases eq_or_ne m 0 with rfl | h0
  · decide
  rcases eq_or_ne m (-2 ^ 31) with rfl | h3
  · decide
  rw [absInt_eq (by omega) h2]
  refine iff_of_false (fun ⟨hlt, hz⟩ => ?_) (by omega)
  obtain ⟨j, hj, -, -⟩ := roundUpPower2_spec (x := m.natAbs) (by omega) (by omega)
  have := Nat.two_pow_pos j
  omega

theorem History.divisor_eq_zero_iff (hh : History a h n) : h.divisor size = some 0 ↔ size ≡ n [MOD 2 ^ 31] := by
  have hprev := hh.spec.2.2
  have hn := i32_emod n
  have hd := i32_emod (size - h.previousSize)
  obtain ⟨h1, h2⟩ := i32_range (size - h.previousSize)
  rw [CsappLab.Malloc.divisor_eq_zero_iff, roundUpPower2_abs_eq_zero h1 h2]
  unfold Nat.ModEq
  rw [hprev] at hd h1 h2 ⊢
  omega

def growBlock (h : Heap) : Except Fault (Heap × Nat × Nat) := do
  let (h, _) ← (h.memInit smallArena).memResetBrk.mmInit
  let (h, p) ← h.mmMalloc 100
  let (h, q) ← h.mmRealloc p 200
  .ok (h, p, q)

theorem exists_history_grow : ∃ h h' : Heap, h.perform (.realloc 224 200) = .ok (h', 224) ∧ History smallArena h' 200 := by
  obtain ⟨h₀, h0, hrun⟩ : ∃ h₀ : Heap, h₀.previousSize = 0 ∧
      (growBlock h₀).toOption.map Prod.snd = some (224, 224) :=
    ⟨⟨fun _ => 0, 0, 0, 0, 0, 0, 0⟩, rfl, by decide +kernel⟩
  rcases hok : growBlock h₀ with f | ⟨h, v⟩
  · rw [hok] at hrun; cases hrun
  obtain rfl : v = (224, 224) := by rw [hok] at hrun; simpa [Except.toOption] using hrun
  unfold growBlock at hok
  simp only [bind_eq_ok, Except.ok.injEq, Prod.exists, Prod.mk.injEq] at hok
  obtain ⟨h₁, _, h1, h₂, p, h2, h₃, q, h3, rfl, rfl, rfl⟩ := hok
  have c1 : h₁.perform (.malloc 100) = .ok (h₂, 224) := h2
  have c2 : h₂.perform (.realloc 224 200) = .ok (h₃, 224) := h3
  exact ⟨h₂, h₃, c2, (((History.start h0).reset.init h1).call c1).call c2⟩

/-- **The division** in `mm_realloc`, after any history: the divisor is not zero exactly when the size
and the one of the previous call differ modulo `2 ^ 31`. -/
theorem divisor_ne_zero_iff (hh : History a h n) (size : Nat) :
    h.divisor size ≠ some 0 ↔ ¬ size ≡ n [MOD 2 ^ 31] := not_congr hh.divisor_eq_zero_iff

/-- A call with another size. -/
theorem divisor_ne_zero_iff_grow : ∃ h, History smallArena h 200 ∧ h.divisor 300 ≠ some 0 := by
  obtain ⟨-, h, -, hh⟩ := exists_history_grow
  exact ⟨h, hh, (divisor_ne_zero_iff hh 300).2 (by decide)⟩

/-- The second of two calls with the same size divides by zero. -/
theorem same_size_divides_by_zero : ∃ (h : Heap) (q : Nat), History smallArena h 200 ∧ q ≠ NULL ∧
    h.divisor 200 = some 0 ∧ h.mmRealloc q 200 = .error .divideByZero := by
  obtain ⟨-, h, -, hh⟩ := exists_history_grow
  have hd : h.divisor 200 = some 0 := hh.divisor_eq_zero_iff.2 rfl
  refine ⟨h, 224, hh, by decide, hd, ?_⟩
  unfold Heap.mmRealloc
  rw [bufferSize_error_iff.2 hd]
  rfl

end CsappLab.Malloc
