import CsappLab.Mdriver.Valid

/-!
# The verdict on a correct package

`Checked` relates the driver to the contract of the package: the range list is the list of live blocks, every
allocated id stands for one of them, and its payload is filled with the low byte of the id. Every request
keeps it, or ends the trace with an excuse: the package had no memory left or failed itself, or the id has a
low byte that is negative as a `char`.
-/

namespace CsappLab.Mdriver
open ByteMem CInt Alloc Malloc Fuel

/-- How a request can end the trace although the package keeps its contract. -/
inductive Excused {σ ε : Type} (P : Package σ ε) (Inv : σ → List Block → Prop) : TraceOp → Stop ε → Prop
  | mallocFailed {i n : Nat} {s s' : σ} {live : List Block} : Inv s live → P.malloc s n = .ok (s', 0) →
      Excused P Inv (.alloc i n) (.error .mallocFailed)
  | reallocFailed {i n : Nat} {s s' : σ} {live : List Block} {b : Block} : Inv s live → b ∈ live →
      P.realloc s b.ptr n = .ok (s', 0) → Excused P Inv (.realloc i n) (.error .reallocFailed)
  | fault {i n : Nat} {f : ε} {s : σ} {live : List Block} {b : Block} : Inv s live → b ∈ live →
      P.realloc s b.ptr n = .error f → Excused P Inv (.realloc i n) (.fault f)
  | notPreserved {i n : Nat} : 128 ≤ i % 256 → Excused P Inv (.realloc i n) (.error .notPreserved)

variable {σ ε : Type} {P : Package σ ε} {c c' : Checker σ} {ids : List Nat} {t : TraceOp} {ts : List TraceOp}
  {h h₁ : σ} {blocks blockSizes : Nat → Nat} {i j k index n p x : Nat} {e : Stop ε} {status : Int}
  {limit : Nat} {Inv : σ → List Block → Prop} {live rest : List Block} {b : Block}

/-- The driver and the live blocks of the package. -/
structure Checked (P : Package σ ε) (Inv : σ → List Block → Prop) (limit : Nat) (c : Checker σ) (ids : List Nat)
    (live : List Block) : Prop where
  inv : Inv c.heap live
  ranges : c.ranges = live.map toRange
  owned : ∀ i ∈ ids, c.block i ∈ live
  apart : ∀ i ∈ ids, ∀ j ∈ ids, i ≠ j → c.block i ≠ c.block j
  filled : ∀ i ∈ ids, ∀ x, (c.block i).Has x → P.mem c.heap x = UInt8.ofNat (i &&& 0xFF)
  sizes : ∀ b ∈ live, b.size ≤ limit

/-! ### The range list -/

theorem removeRange_map (hl : live.Pairwise fun b d => b.ptr ≠ d.ptr) :
    removeRange (live.map toRange) p = (dropPtr p live).map toRange := by
  induction live with
  | nil => rfl
  | cons b l ih =>
    obtain ⟨hb, hl⟩ := List.pairwise_cons.1 hl
    unfold removeRange dropPtr at ih ⊢
    rw [List.map_cons]
    by_cases hp : b.ptr = p
    · have hrest : l.filter (·.ptr ≠ p) = l :=
        List.filter_eq_self.2 fun d hd => by simpa [← hp] using (hb d hd).symm
      rw [List.eraseP_cons_of_pos (by simp [toRange, hp]), List.filter_cons_of_neg (by simp [hp]), hrest]
    · rw [List.eraseP_cons_of_neg (by simp [toRange, hp]), List.filter_cons_of_pos (by simp [hp]),
        List.map_cons, ih hl]

theorem Checked.removeRange_eq (hc : Contract P ALIGNMENT limit Inv) (hd : Checked P Inv limit c ids live) :
    removeRange c.ranges p = (dropPtr p live).map toRange := by
  rw [hd.ranges]
  refine removeRange_map ((hc.apart hd.inv).imp_of_mem fun {b d} hb hd' hap he => ?_)
  have h1 := (hc.nonempty hd.inv hb).1
  have h2 := (hc.nonempty hd.inv hd').1
  unfold Block.Apart at hap
  omega

theorem addRange_new (hc : Contract P ALIGNMENT limit Inv) (hi : Inv h (⟨p, n⟩ :: rest)) (hn : n < 2 ^ 31) :
    addRange (ε := ε) (P.heapLo h) (P.heapHi h) (rest.map toRange) p (i32 n) =
      .ok ((⟨p, n⟩ :: rest : List Block).map toRange) := by
  have h1 := (hc.nonempty hi List.mem_cons_self).1
  have h2 := hc.inside hi List.mem_cons_self
  simp only at h1 h2
  refine addRange_ok_iff.2 ?_
  rw [i32_natCast hn, Int.toNat_natCast]
  refine ⟨by omega, hc.aligned hi List.mem_cons_self, h2.1, by omega, fun q hq => ?_, rfl⟩
  obtain ⟨d, hd, rfl⟩ := List.mem_map.1 hq
  have h3 := (List.pairwise_cons.1 (hc.apart hi)).1 d hd
  have h4 := (hc.nonempty hi (List.mem_cons_of_mem _ hd)).1
  unfold Block.Apart at h3
  unfold toRange
  simp only at h3 ⊢
  omega

/-! ### One request -/

theorem Checked.fill {ids' : List Nat} (hc : Contract P ALIGNMENT limit Inv) (hi : Inv h (⟨p, n⟩ :: rest))
    (hrest : ∀ i ∈ ids', i ≠ index → c.block i ∈ rest ∧
      (∀ x, (c.block i).Has x → P.mem h x = UInt8.ofNat (i &&& 0xFF)) ∧
      ∀ j ∈ ids', j ≠ index → i ≠ j → c.block i ≠ c.block j)
    (hsizes : ∀ b ∈ (⟨p, n⟩ :: rest : List Block), b.size ≤ limit) :
    Checked P Inv limit (c.fill P h ((⟨p, n⟩ :: rest : List Block).map toRange) index p n) ids' (⟨p, n⟩ :: rest) := by
  have hnew : ∀ d ∈ rest, (⟨p, n⟩ : Block).Apart d := (List.pairwise_cons.1 (hc.apart hi)).1
  have hne : ∀ d ∈ rest, (⟨p, n⟩ : Block) ≠ d := by
    rintro d hd rfl
    have h1 := (hc.nonempty hi List.mem_cons_self).1
    have h2 := hnew _ hd
    unfold Block.Apart at h2
    simp only at h1 h2
    omega
  refine ⟨?_, rfl, fun i hi' => ?_, fun i hi' j hj hij => ?_, fun i hi' x hx => ?_, hsizes⟩
  · refine hc.write hi List.mem_cons_self fun x hx => if_neg fun h1 => hx ?_
    exact h1
  · rcases eq_or_ne i index with rfl | hne'
    · rw [block_fill_self]
      exact List.mem_cons_self
    · rw [block_fill_of_ne hne']
      exact List.mem_cons_of_mem _ (hrest i hi' hne').1
  · rcases eq_or_ne i index with rfl | hi''
    · rw [block_fill_self, block_fill_of_ne hij.symm]
      exact hne _ (hrest j hj hij.symm).1
    rcases eq_or_ne j index with rfl | hj''
    · rw [block_fill_self, block_fill_of_ne hi'']
      exact (hne _ (hrest i hi' hi'').1).symm
    · rw [block_fill_of_ne hi'', block_fill_of_ne hj'']
      exact (hrest i hi' hi'').2.2 j hj hj'' hij
  · show P.mem (P.setMem h _) x = _
    rw [hc.mem_setMem]
    unfold memset
    rcases eq_or_ne i index with rfl | hne'
    · rw [block_fill_self] at hx
      exact if_pos hx
    · rw [block_fill_of_ne hne'] at hx
      obtain ⟨hmem, hval, -⟩ := hrest i hi' hne'
      have hout : ¬ (p ≤ x ∧ x < p + n) := fun h1 => (hnew _ hmem).not_has (show Block.Has ⟨p, n⟩ x from h1) hx
      rw [if_neg hout]
      exact hval x hx

/-- The byte of an id is the one that is compared, unless its low byte is 128 or more. -/
theorem charVal_low : charVal (UInt8.ofNat (i &&& 0xFF)) = ((i &&& 0xFF : Nat) : Int) ↔ i % 256 < 128 := by
  have hlow : i &&& 0xFF = i % 256 := Nat.and_two_pow_sub_one_eq_mod i 8
  have hlt : i % 256 < 256 := Nat.mod_lt _ (by decide)
  unfold charVal
  rw [hlow, UInt8.toNat_ofNat_of_lt' hlt]
  split_ifs with h1 <;> omega

/-- **One request** of a correct package. -/
theorem Checked.step (hc : Contract P ALIGNMENT limit Inv) (hlim : limit < 2 ^ 31)
    (hd : Checked P Inv limit c ids live) (ht : OpTargets ids t) (hs : Sized 1 limit t) :
    (∃ c' live', evalOp P c t = .ok c' ∧ Checked P Inv limit c' (opIds ids t) live' ∧ ¬ HighRealloc t) ∨
    ∃ e, evalOp P c t = .error e ∧ Excused P Inv t e := by
  cases t with
  | alloc index n =>
    obtain ⟨h, p, hm, hkeep, -, hinv⟩ := hc.malloc hd.inv hs.1 hs.2
    unfold evalOp
    simp only [hm, Except.mapError, bind, Except.bind]
    by_cases hp : p = 0
    · exact .inr ⟨_, if_pos hp, .mallocFailed hd.inv (hp ▸ hm)⟩
    refine .inl ⟨c.fill P h ((⟨p, n⟩ :: live : List Block).map toRange) index p n, ⟨p, n⟩ :: live, ?_,
      .fill hc (hinv hp) ?_ ?_, id⟩
    · rw [if_neg hp, hd.ranges, addRange_new hc (hinv hp) (by have := hs.2; omega)]
    · intro i hi hne
      have hi' : i ∈ ids := (List.mem_cons.1 hi).resolve_left hne
      exact ⟨hd.owned i hi', fun x hx => (hkeep _ (hd.owned i hi') x hx).trans (hd.filled i hi' x hx),
        fun j hj hj' => hd.apart i hi' j ((List.mem_cons.1 hj).resolve_left hj')⟩
    · simp only [List.mem_cons, forall_eq_or_imp]
      exact ⟨hs.2, hd.sizes⟩
  | realloc index n =>
    have hown := hd.owned index ht
    unfold evalOp
    rcases hc.realloc hd.inv hown hs.1 hs.2 with ⟨f, hf⟩ | ⟨h, p, hm, hkeep, -, hmoved⟩
    · have hf : P.realloc c.heap (c.blocks index) n = .error f := hf
      exact .inr ⟨.fault f, by simp only [hf, Except.mapError, bind, Except.bind], .fault hd.inv hown hf⟩
    have hm : P.realloc c.heap (c.blocks index) n = .ok (h, p) := hm
    simp only [hm, Except.mapError, bind, Except.bind]
    by_cases hp : p = 0
    · exact .inr ⟨_, if_pos hp, .reallocFailed hd.inv hown (hp ▸ hm)⟩
    obtain ⟨hinv, hdata⟩ := hmoved hp
    have hn : n < 2 ^ 31 := by have := hs.2; omega
    have hold : (c.block index).size < 2 ^ 31 := by have := hd.sizes _ hown; omega
    have hpos := (hc.nonempty hd.inv hown).1
    have hn0 : 0 < n := hs.1
    rw [if_neg hp, hd.removeRange_eq hc]
    rw [show c.blocks index = (c.block index).ptr from rfl, show c.blockSizes index = (c.block index).size from rfl,
      addRange_new hc hinv hn, i32_natCast hn, i32_natCast hold]
    simp only
    have hcmp : ∀ j < (min ((c.block index).size : Int) n).toNat,
        (charVal (P.mem h (p + j)) = ((index &&& 0xFF : Nat) : Int) ↔ index % 256 < 128) := by
      intro j hj
      rw [hdata j (by omega) (by omega), hd.filled index ht _ ⟨by omega, by omega⟩]
      exact charVal_low
    by_cases hlow : index % 256 < 128
    · refine .inl ⟨c.fill P h ((⟨p, n⟩ :: dropPtr (c.block index).ptr live : List Block).map toRange) index p n,
        ⟨p, n⟩ :: dropPtr (c.block index).ptr live, if_neg ?_, .fill hc hinv ?_ ?_, ?_⟩
      · rintro ⟨j, hj, hne⟩
        exact hne ((hcmp j hj).2 hlow)
      · intro i hi hne
        have hdrop : c.block i ∈ dropPtr (c.block index).ptr live := mem_dropPtr.2 ⟨hd.owned i hi, fun he =>
          hd.apart i hi index ht hne (hc.ptr_inj hd.inv (hd.owned i hi) hown he)⟩
        exact ⟨hdrop, fun x hx => (hkeep _ hdrop x hx).trans (hd.filled i hi x hx),
          fun j hj _ => hd.apart i hi j hj⟩
      · simp only [List.mem_cons, forall_eq_or_imp]
        exact ⟨hs.2, fun b hb => hd.sizes b (mem_dropPtr.1 hb).1⟩
      · exact fun hhigh => absurd hhigh (by unfold HighRealloc; omega)
    · refine .inr ⟨_, if_pos ⟨0, by omega, fun he => hlow ((hcmp 0 (by omega)).1 he)⟩, .notPreserved (by omega)⟩
  | free index =>
    have hown := hd.owned index ht
    obtain ⟨h, hf, hkeep, hinv⟩ := hc.free hd.inv hown
    have hf : P.free c.heap (c.blocks index) = .ok h := hf
    unfold evalOp
    simp only [hf, Except.mapError, bind, Except.bind]
    have hids : ∀ i, i ∈ opIds ids (.free index) ↔ i ∈ ids ∧ i ≠ index := by simp [opIds]
    have hdrop : ∀ i ∈ opIds ids (.free index), c.block i ∈ dropPtr (c.block index).ptr live := by
      intro i hi
      obtain ⟨hi, hne⟩ := (hids i).1 hi
      exact mem_dropPtr.2 ⟨hd.owned i hi, fun he =>
        hd.apart i hi index ht hne (hc.ptr_inj hd.inv (hd.owned i hi) hown he)⟩
    refine .inl ⟨_, dropPtr (c.block index).ptr live, rfl, ⟨hinv, hd.removeRange_eq hc, hdrop, ?_, ?_, ?_⟩, id⟩
    · exact fun i hi j hj => hd.apart i ((hids i).1 hi).1 j ((hids j).1 hj).1
    · exact fun i hi x hx => (hkeep _ (hdrop i hi) x hx).trans (hd.filled i ((hids i).1 hi).1 x hx)
    · exact fun b hb => hd.sizes b (mem_dropPtr.1 hb).1

/-- **The whole trace**, from request `k` on. -/
theorem Checked.run (hc : Contract P ALIGNMENT limit Inv) (hlim : limit < 2 ^ 31)
    (hd : Checked P Inv limit c ids live) (ht : Targets ids ts) (hs : ∀ t ∈ ts, Sized 1 limit t) :
    (∃ c' live', evalOps P k c ts = .ok c' ∧ Checked P Inv limit c' (traceIds ids ts) live' ∧
      ∀ t ∈ ts, ¬ HighRealloc t) ∨
    ∃ j t e, evalOps P k c ts = .error (k + j, e) ∧ ts[j]? = some t ∧ Excused P Inv t e := by
  induction ts generalizing k c ids live with
  | nil => exact .inl ⟨c, live, rfl, hd, by simp⟩
  | cons t ts ih =>
    rw [evalOps]
    rcases hd.step hc hlim ht.1 (hs t (by simp)) with ⟨c₁, live₁, h1, hd₁, hlow⟩ | ⟨e, h1, hex⟩
    · rw [h1]
      rcases ih (k := k + 1) hd₁ ht.2 fun t ht => hs t (by simp [ht]) with
        ⟨c', live', h2, hd', hall⟩ | ⟨j, u, e, h2, hu, hex⟩
      · refine .inl ⟨c', live', h2, hd', ?_⟩
        simp only [List.mem_cons, forall_eq_or_imp]
        exact ⟨hlow, hall⟩
      · exact .inr ⟨j + 1, u, e, by rw [← Nat.add_assoc, Nat.add_right_comm]; exact h2, by simpa using hu, hex⟩
    · rw [h1]
      exact .inr ⟨0, t, e, rfl, rfl, hex⟩

end CsappLab.Mdriver
