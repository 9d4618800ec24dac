import CsappLab.Proxy.Recency

/-!
# A thread that is alone

With semaphores that do nothing, the statements of one `doit` after the other do to the blocks what the
functions of `Recency` do, as long as no stamp overflows.
-/

namespace CsappLab.Proxy
open CInt Relation

/-- One statement; the calls of `readerPre` and its like have no effect. -/
def soloStep (ch : Choice) (s : Data × Point) : Option (Data × Point) :=
  (act ch s.1 s.2).map fun dl => (dl.1, dl.2.cont)

def Solo (ch : Choice) : Data × Point → Data × Point → Prop :=
  ReflTransGen fun s s' => soloStep ch s = some s'

/-- The requests one after the other. -/
inductive Alone : Data → List Request → Data → Prop
  | nil (d : Data) : Alone d [] d
  | cons {d d' d'' : Data} {r : Request} {rs : List Request} {equal : Bool} {leak : Option Index} :
      Solo ⟨some r.url, r.response, equal⟩ (d, .start) (d', .done leak) → Alone d' rs d'' → Alone d (r :: rs) d''

variable {ch : Choice} {d d' : Data} {s s' s'' : Data × Point} {url : Text} {i : Index} {k : Nat}
  {blocks : Blocks} {maxStamp : Int} {maxStampIdx : Option Index}

theorem Solo.head (h : soloStep ch s = some s') (h' : Solo ch s' s'') : Solo ch s s'' :=
  ReflTransGen.head h h'

theorem drop_finRange {n : Nat} (h : k < n) :
    (List.finRange n).drop k = ⟨k, h⟩ :: (List.finRange n).drop (k + 1) := by
  rw [List.drop_eq_getElem_cons (by simpa using h)]
  simp

theorem drop_finRange_of_le {n : Nat} (h : n ≤ k) : (List.finRange n).drop k = [] :=
  List.drop_eq_nil_of_le (by simpa using h)

/-- A whole string is compared as it is. -/
def Whole (block : Block) : Prop := block.isEmpty = false → block.cacheUrl ≠ none

theorem matchesUrl_eq {block : Block} (h : Whole block) :
    matchesUrl ch block url = (!block.isEmpty && block.cacheUrl == some url) := by
  unfold matchesUrl
  cases hempty : block.isEmpty with
  | true => rfl
  | false =>
    obtain ⟨u, hu⟩ := Option.ne_none_iff_exists'.1 (h hempty)
    rw [hu, Bool.eq_iff_iff]
    simp only [Bool.not_false, Bool.true_and, beq_iff_eq, Option.some.injEq]
    exact eq_comm

/-! ### The loops -/

theorem solo_find (ch : Choice) (h : ∀ i, Whole (d.blocks i)) (url : Text) (k : Nat) : Solo ch (d, .find url k)
    (d, match ((List.finRange CACHE_OBJS_COUNT).drop k).find? fun i =>
        !(d.blocks i).isEmpty && (d.blocks i).cacheUrl == some url with
      | some i => .hit url i
      | none => .miss url) := by
  induction hm : CACHE_OBJS_COUNT - k generalizing k with
  | zero =>
    rw [drop_finRange_of_le (by omega)]
    exact .single (by simp [soloStep, act, Loc.cont, show ¬ k < CACHE_OBJS_COUNT by omega])
  | succ m ih =>
    have hk : k < CACHE_OBJS_COUNT := by omega
    have htest : soloStep ch (d, .find url k) = some (d, .findTest url ⟨k, hk⟩) := by
      simp [soloStep, act, hk, Loc.cont]
    refine .head htest ?_
    rw [drop_finRange hk, List.find?_cons]
    cases hmatch : (!(d.blocks ⟨k, hk⟩).isEmpty && (d.blocks ⟨k, hk⟩).cacheUrl == some url) with
    | true =>
      refine .single ?_
      simp only [soloStep, act, matchesUrl_eq (h ⟨k, hk⟩), hmatch, ↓reduceIte, Option.map_some, Loc.cont]
    | false =>
      refine .head ?_ (ih (k + 1) (by omega))
      simp [soloStep, act, matchesUrl_eq (h ⟨k, hk⟩), hmatch, Loc.cont]

theorem solo_eviction (ch : Choice) (url buf : Text)
    (h : evictionLoop d.blocks ((List.finRange CACHE_OBJS_COUNT).drop k) maxStamp maxStampIdx = (blocks, some i)) :
    Solo ch (d, .evict url buf k maxStamp maxStampIdx) (⟨blocks, d.calls⟩, .evicted url buf i) := by
  induction hm : CACHE_OBJS_COUNT - k generalizing k maxStamp maxStampIdx with
  | zero =>
    rw [drop_finRange_of_le (by omega)] at h
    obtain ⟨rfl, rfl⟩ := Prod.mk.inj h
    exact .single (by simp [soloStep, act, Loc.cont, show ¬ k < CACHE_OBJS_COUNT by omega])
  | succ m ih =>
    have hk : k < CACHE_OBJS_COUNT := by omega
    have htest : soloStep ch (d, .evict url buf k maxStamp maxStampIdx) =
        some (d, .evictTest url buf ⟨k, hk⟩ maxStamp maxStampIdx) := by
      simp [soloStep, act, hk, Loc.cont]
    refine .head htest ?_
    rw [drop_finRange hk, evictionLoop] at h
    by_cases hempty : (d.blocks ⟨k, hk⟩).isEmpty = true
    · rw [if_pos hempty] at h
      obtain ⟨rfl, hi⟩ := Prod.mk.inj h
      obtain rfl := Option.some.inj hi
      have hclaim : soloStep ch (d, .evictTest url buf ⟨k, hk⟩ maxStamp maxStampIdx) =
          some (d, .claim url buf ⟨k, hk⟩) := by
        simp [soloStep, act, hempty, Loc.cont]
      exact .head hclaim (.single rfl)
    · rw [if_neg hempty] at h
      have hstamp : soloStep ch (d, .evictTest url buf ⟨k, hk⟩ maxStamp maxStampIdx) =
          some (d, .evictStamp url buf ⟨k, hk⟩ maxStamp maxStampIdx) := by
        simp [soloStep, act, hempty, Loc.cont]
      refine .head hstamp ?_
      split_ifs at h with hlarger
      · refine .head ?_ (ih h (by omega))
        simp [soloStep, act, hlarger, Loc.cont]
      · refine .head ?_ (ih h (by omega))
        simp [soloStep, act, hlarger, Loc.cont]

theorem solo_stamp (ch : Choice) (leak : Bool) (d : Data) (index : Index) (k : Nat)
    (h : ∀ j ∈ (List.finRange CACHE_OBJS_COUNT).drop k, j ≠ index → (d.blocks j).isEmpty = false →
      i32 ((d.blocks j).stamp + 1) = (d.blocks j).stamp + 1) :
    Solo ch (d, .stampLoop index k leak)
      (⟨stampLoop index d.blocks ((List.finRange CACHE_OBJS_COUNT).drop k), d.calls⟩,
        .done (if leak then some index else none)) := by
  induction hm : CACHE_OBJS_COUNT - k generalizing k d with
  | zero =>
    rw [drop_finRange_of_le (by omega)]
    exact .single (by simp [soloStep, act, stampLoop, Loc.cont, show ¬ k < CACHE_OBJS_COUNT by omega])
  | succ m ih =>
    have hk : k < CACHE_OBJS_COUNT := by omega
    have hnodup : ((List.finRange CACHE_OBJS_COUNT).drop k).Nodup :=
      (List.nodup_finRange _).sublist (List.drop_sublist _ _)
    rw [drop_finRange hk] at h hnodup ⊢
    obtain ⟨hk0, hrest⟩ := List.forall_mem_cons.1 h
    have hnot := (List.nodup_cons.1 hnodup).1
    unfold stampLoop
    by_cases hinc : k ≠ index ∧ (d.blocks ⟨k, hk⟩).isEmpty = false
    · have hne : (⟨k, hk⟩ : Index) ≠ index := fun h0 => hinc.1 (congrArg Fin.val h0)
      have hloop : soloStep ch (d, .stampLoop index k leak) = some (d, .stampInc index ⟨k, hk⟩ leak) := by
        simp only [soloStep, act, dif_pos hk, if_pos hinc, Option.map_some, Loc.cont]
      have hd := ih (setBlock d ⟨k, hk⟩ { d.blocks ⟨k, hk⟩ with stamp := (d.blocks ⟨k, hk⟩).stamp + 1 }) (k + 1)
        ?_ (by omega)
      · rw [if_pos ⟨hne, hinc.2⟩, hk0 hne hinc.2]
        exact .head hloop (.head rfl hd)
      · intro j hj
        have hjk : j ≠ ⟨k, hk⟩ := fun h0 => hnot (h0 ▸ hj)
        simp only [setBlock, Function.update_of_ne hjk]
        exact hrest j hj
    · have hloop : soloStep ch (d, .stampLoop index k leak) = some (d, .stampLoop index (k + 1) leak) := by
        simp only [soloStep, act, dif_pos hk, if_neg hinc, Option.map_some, Loc.cont]
      rw [if_neg fun h0 => hinc ⟨fun h1 => h0.1 (Fin.ext h1), h0.2⟩]
      exact .head hloop (ih d (k + 1) hrest (by omega))

/-! ### The requests -/

theorem solo_updateStamp (ch : Choice) (leak : Bool) (d : Data) (index : Index)
    (h : ∀ j, j ≠ index → (d.blocks j).isEmpty = false → i32 ((d.blocks j).stamp + 1) = (d.blocks j).stamp + 1) :
    Solo ch (d, .updateStamp index leak)
      (⟨cacheUpdateStamp d.blocks index, d.calls⟩, .done (if leak then some index else none)) := by
  have hloop := solo_stamp ch leak (setBlock d index { d.blocks index with stamp := 0 }) index 0 fun j _ hj => ?_
  · exact .head rfl (.head rfl hloop)
  · simpa only [setBlock, Function.update_of_ne hj] using h j hj

theorem solo_fill (ch : Choice) (d : Data) (url buf : Text) (i : Index) : Solo ch (d, .fill .url url buf i)
    (setBlock d i { d.blocks i with cacheUrl := some url, cacheObj := some buf, isEmpty := false },
      .updateStamp i false) := by
  refine .head rfl (.head rfl (.head rfl (.head rfl (.single ?_))))
  simp [soloStep, act, setBlock, fillBlock, Fill.next, Loc.cont]

theorem solo_cacheUrl (ch : Choice) (url buf : Text) (h : cacheEviction d.blocks = (blocks, some i))
    (hstamp : ∀ j, j ≠ i → (blocks j).isEmpty = false → i32 ((blocks j).stamp + 1) = (blocks j).stamp + 1) :
    Solo ch (d, .cacheUrl url buf) (⟨cacheUpdateStamp (Function.update blocks i
      { blocks i with cacheUrl := some url, cacheObj := some buf, isEmpty := false }) i, (url, buf) :: d.calls⟩,
        .done none) := by
  have hevict := solo_eviction ch url buf (d := { d with calls := (url, buf) :: d.calls }) (k := 0) h
  have hfill := solo_fill ch ⟨blocks, (url, buf) :: d.calls⟩ url buf i
  refine .head rfl (hevict.trans (.head rfl (hfill.trans (solo_updateStamp ch false _ i fun j hj => ?_))))
  simpa only [setBlock, Function.update_of_ne hj] using hstamp j hj

theorem Recent.whole {s : Serial} {content : Index → Text × Text} {order : List Index}
    (h : Recent s content order) (i : Index) : Whole (s.blocks i) := by
  intro hi hnone
  rw [(h.holds i ((h.mem i).2 hi)).1] at hnone
  cases hnone

theorem solo_request {s s' : Serial} {content : Index → Text × Text} {order : List Index} {r : Request}
    (h : Recent s content order) (hlen : s.uses.length < 2 ^ 31) (hreq : s.request r = some s')
    (calls : List (Text × Text)) (equal : Bool) :
    ∃ calls' leak, Solo ⟨some r.url, r.response, equal⟩ (⟨s.blocks, calls⟩, .start) (⟨s'.blocks, calls'⟩, .done leak) := by
  have hfind := solo_find ⟨some r.url, r.response, equal⟩ (d := ⟨s.blocks, calls⟩) h.whole r.url 0
  change Solo _ _ (_, match cacheFind s.blocks r.url with
    | some i => .hit r.url i
    | none => .miss r.url) at hfind
  unfold Serial.request at hreq
  cases hf : cacheFind s.blocks r.url with
  | some i =>
    rw [hf] at hfind hreq
    obtain rfl := Option.some.inj hreq
    have hstamp := solo_updateStamp ⟨some r.url, r.response, equal⟩ true ⟨s.blocks, calls⟩ i
      fun j _ hj => h.stamp_succ hlen hj
    exact ⟨calls, some i, .head rfl (hfind.trans (.head rfl (.head rfl hstamp)))⟩
  | none =>
    rw [hf] at hfind hreq
    cases hr : r.response with
    | none =>
      rw [hr] at hfind hreq
      obtain rfl := Option.some.inj hreq
      exact ⟨calls, none, .head rfl (hfind.trans (.single rfl))⟩
    | some buf =>
      obtain ⟨blocks, i, hev, hframe, -⟩ := cacheEviction_spec fun j hj => (h.range j ((h.mem j).2 hj)).1
      rw [hr] at hfind hreq
      simp only [cacheUrl, hev, Option.map_some, Option.some.injEq] at hreq
      obtain rfl := hreq
      have hcache := solo_cacheUrl ⟨some r.url, some buf, equal⟩ r.url buf (d := ⟨s.blocks, calls⟩) hev fun j hj hfull => ?_
      · exact ⟨_, none, .head rfl (hfind.trans (.head rfl hcache))⟩
      · rw [hframe j hj] at hfull ⊢
        exact h.stamp_succ hlen hfull

/-- **Refinement.** The statements of the threads, one thread after the other, leave the blocks as the
functions do. -/
theorem alone_serially (rs : List Request) (hlen : rs.length < 2 ^ 31) :
    ∃ s d, serially rs = some s ∧ Alone cacheInit rs d ∧ d.blocks = s.blocks := by
  suffices hall : ∀ (s : Serial) (content : Index → Text × Text) (order : List Index) (calls : List (Text × Text)),
      Recent s content order → s.uses.length + rs.length < 2 ^ 31 →
      ∃ s' d, rs.foldlM Serial.request s = some s' ∧ Alone ⟨s.blocks, calls⟩ rs d ∧ d.blocks = s'.blocks from
    hall ⟨cacheInit.blocks, []⟩ (fun _ => ([], [])) [] [] (Recent.init _) (by simpa using hlen)
  clear hlen
  induction rs with
  | nil => exact fun s _ _ calls _ _ => ⟨s, ⟨s.blocks, calls⟩, rfl, .nil _, rfl⟩
  | cons r rs ih =>
    intro s content order calls h hlen
    rw [List.length_cons] at hlen
    obtain ⟨s', content', order', hreq, hrec, hle, -⟩ := h.request (by omega) r
    obtain ⟨calls', leak, hsolo⟩ := solo_request h (by omega) hreq calls false
    obtain ⟨s'', d, hrun, halone, hblocks⟩ := ih s' content' order' calls' hrec (by omega)
    refine ⟨s'', d, ?_, .cons hsolo halone, hblocks⟩
    rw [List.foldlM_cons, hreq]
    exact hrun

end CsappLab.Proxy
