import CsappLab.Proxy.Cache
import CsappLab.Lib.CInt
import CsappLab.Lib.Lru

/-!
# One request at a time

The cache routines as functions, without the semaphores, for requests that do not overlap. The stamps
order the blocks by their last use, so the cache is an LRU map.
-/

namespace CsappLab.Proxy
open CInt

abbrev Blocks := Index → Block

def cacheFind (blocks : Blocks) (url : Text) : Option Index :=
  (List.finRange CACHE_OBJS_COUNT).find? fun i => !(blocks i).isEmpty && (blocks i).cacheUrl == some url

/-- The loop of `cache_eviction`, on the indices that are left. -/
def evictionLoop (blocks : Blocks) : List Index → Int → Option Index → Blocks × Option Index
  | [], _, maxStampIdx => (blocks, maxStampIdx)
  | i :: is, maxStamp, maxStampIdx =>
    if (blocks i).isEmpty then (Function.update blocks i { blocks i with isEmpty := false }, some i)
    else if (blocks i).stamp > maxStamp then evictionLoop blocks is (blocks i).stamp (some i)
    else evictionLoop blocks is maxStamp maxStampIdx

def cacheEviction (blocks : Blocks) : Blocks × Option Index :=
  evictionLoop blocks (List.finRange CACHE_OBJS_COUNT) (-2) none

/-- The loop of `cache_update_stamp`. -/
def stampLoop (index : Index) : Blocks → List Index → Blocks
  | blocks, [] => blocks
  | blocks, i :: is =>
    stampLoop index (if i ≠ index ∧ (blocks i).isEmpty = false then
      Function.update blocks i { blocks i with stamp := i32 ((blocks i).stamp + 1) } else blocks) is

def cacheUpdateStamp (blocks : Blocks) (index : Index) : Blocks :=
  stampLoop index (Function.update blocks index { blocks index with stamp := 0 }) (List.finRange CACHE_OBJS_COUNT)

/-- With the block that is used; `none` when `cache_eviction` returns -1. -/
def cacheUrl (blocks : Blocks) (url buf : Text) : Option (Blocks × Index) :=
  match cacheEviction blocks with
  | (blocks, some i) =>
    some (cacheUpdateStamp (Function.update blocks i
      { blocks i with cacheUrl := some url, cacheObj := some buf, isEmpty := false }) i, i)
  | (_, none) => none

/-- `response` is there if it is to be cached. -/
structure Request where
  url : Text
  response : Option Text

/-- The blocks, and which of them have been used, the last one first. -/
structure Serial where
  blocks : Blocks
  uses : List Index

/-- What `doit` does with the cache. -/
def Serial.request (s : Serial) (r : Request) : Option Serial :=
  match cacheFind s.blocks r.url with
  | some i => some ⟨cacheUpdateStamp s.blocks i, i :: s.uses⟩
  | none => match r.response with
    | some buf => (cacheUrl s.blocks r.url buf).map fun bi => ⟨bi.1, bi.2 :: s.uses⟩
    | none => some s

/-- The requests, from `cache_init` on. -/
def serially (rs : List Request) : Option Serial := rs.foldlM Serial.request ⟨cacheInit.blocks, []⟩

/-- The LRU map that gets the same requests. -/
def reference (rs : List Request) : List (Text × Text) :=
  rs.foldl (fun entries r => Lru.serve CACHE_OBJS_COUNT entries r.url r.response) []

variable {blocks blocks' : Blocks} {s s' : Serial} {i j index : Index} {is order : List Index} {url buf : Text}
  {maxStamp : Int} {maxStampIdx : Option Index} {content : Index → Text × Text} {e : Text × Text} {r : Request}

/-! ### The routines -/

theorem cacheFind_some (h : cacheFind blocks url = some i) :
    (blocks i).isEmpty = false ∧ (blocks i).cacheUrl = some url := by
  simpa using List.find?_some h

theorem cacheFind_none (h : cacheFind blocks url = none) (hi : (blocks i).isEmpty = false) :
    (blocks i).cacheUrl ≠ some url := by
  simpa [hi] using List.find?_eq_none.1 h i (List.mem_finRange i)

theorem stampLoop_apply (hnodup : is.Nodup) (j : Index) : stampLoop index blocks is j =
    if j ∈ is ∧ j ≠ index ∧ (blocks j).isEmpty = false then { blocks j with stamp := i32 ((blocks j).stamp + 1) }
    else blocks j := by
  induction is generalizing blocks with
  | nil => simp [stampLoop]
  | cons i is ih =>
    obtain ⟨hi, hnodup⟩ := List.nodup_cons.1 hnodup
    unfold stampLoop
    rw [ih hnodup]
    by_cases hji : j = i
    · subst hji
      split_ifs <;> simp_all
    · split_ifs <;> simp_all [Function.update_of_ne]

/-- **`cache_update_stamp`** block by block. -/
theorem cacheUpdateStamp_self (blocks : Blocks) (index : Index) :
    cacheUpdateStamp blocks index index = { blocks index with stamp := 0 } := by
  unfold cacheUpdateStamp
  rw [stampLoop_apply (List.nodup_finRange _)]
  simp

theorem cacheUpdateStamp_of_ne (h : j ≠ index) : cacheUpdateStamp blocks index j =
    if (blocks j).isEmpty = false then { blocks j with stamp := i32 ((blocks j).stamp + 1) } else blocks j := by
  unfold cacheUpdateStamp
  rw [stampLoop_apply (List.nodup_finRange _)]
  simp [h]

/-- The loop stops at an empty block, or goes through with the largest stamp. -/
inductive Evicts (blocks : Blocks) (is : List Index) (maxStamp : Int) (maxStampIdx : Option Index) :
    Blocks × Option Index → Prop
  | empty {i : Index} : i ∈ is → (blocks i).isEmpty = true →
      Evicts blocks is maxStamp maxStampIdx (Function.update blocks i { blocks i with isEmpty := false }, some i)
  | largest {i : Index} : i ∈ is → (∀ j ∈ is, (blocks j).isEmpty = false ∧ (blocks j).stamp ≤ (blocks i).stamp) →
      maxStamp ≤ (blocks i).stamp → Evicts blocks is maxStamp maxStampIdx (blocks, some i)
  | start : (∀ j ∈ is, (blocks j).isEmpty = false ∧ (blocks j).stamp ≤ maxStamp) →
      Evicts blocks is maxStamp maxStampIdx (blocks, maxStampIdx)

theorem evictionLoop_spec (blocks : Blocks) (is : List Index) (maxStamp : Int) (maxStampIdx : Option Index) :
    Evicts blocks is maxStamp maxStampIdx (evictionLoop blocks is maxStamp maxStampIdx) := by
  induction is generalizing maxStamp maxStampIdx with
  | nil => exact .start (by simp)
  | cons i is ih =>
    unfold evictionLoop
    split_ifs with hempty hlarger
    · exact .empty List.mem_cons_self hempty
    · have hi : (blocks i).isEmpty = false := by simpa using hempty
      have hrest := ih (blocks i).stamp (some i)
      generalize evictionLoop blocks is (blocks i).stamp (some i) = res at hrest ⊢
      cases hrest with
      | empty hj hj' => exact .empty (List.mem_cons_of_mem _ hj) hj'
      | largest hj hall hle =>
        refine .largest (List.mem_cons_of_mem _ hj) ?_ (by omega)
        exact List.forall_mem_cons.2 ⟨⟨hi, hle⟩, hall⟩
      | start hall => exact .largest List.mem_cons_self (List.forall_mem_cons.2 ⟨⟨hi, le_rfl⟩, hall⟩) (by omega)
    · have hi : (blocks i).isEmpty = false := by simpa using hempty
      have hrest := ih maxStamp maxStampIdx
      generalize evictionLoop blocks is maxStamp maxStampIdx = res at hrest ⊢
      cases hrest with
      | empty hj hj' => exact .empty (List.mem_cons_of_mem _ hj) hj'
      | largest hj hall hle =>
        refine .largest (List.mem_cons_of_mem _ hj) ?_ hle
        exact List.forall_mem_cons.2 ⟨⟨hi, by omega⟩, hall⟩
      | start hall => exact .start (List.forall_mem_cons.2 ⟨⟨hi, by omega⟩, hall⟩)

/-- **`cache_eviction`**, when no stamp of a filled block is negative. -/
theorem cacheEviction_spec (h : ∀ i, (blocks i).isEmpty = false → 0 ≤ (blocks i).stamp) :
    ∃ blocks' i, cacheEviction blocks = (blocks', some i) ∧ (∀ j, j ≠ i → blocks' j = blocks j) ∧
      ((blocks i).isEmpty = true ∨
        ∀ j, (blocks j).isEmpty = false ∧ (blocks j).stamp ≤ (blocks i).stamp) := by
  have hspec := evictionLoop_spec blocks (List.finRange CACHE_OBJS_COUNT) (-2) none
  change Evicts _ _ _ _ (cacheEviction blocks) at hspec
  generalize cacheEviction blocks = res at hspec
  cases hspec with
  | @empty i _ hi => exact ⟨_, i, rfl, fun j hj => Function.update_of_ne hj _ _, .inl hi⟩
  | @largest i _ hall _ => exact ⟨_, i, rfl, fun j _ => rfl, .inr fun j => hall j (List.mem_finRange j)⟩
  | start hall =>
    obtain ⟨h1, h2⟩ := hall 0 (List.mem_finRange 0)
    have := h 0 h1
    omega

/-! ### The order of the blocks -/

def Holds (block : Block) (e : Text × Text) : Prop := block.cacheUrl = some e.1 ∧ block.cacheObj = some e.2

/-- The filled blocks are `order`, from the last used one on, and hold `content`. -/
structure Recent (s : Serial) (content : Index → Text × Text) (order : List Index) : Prop where
  nodup : order.Nodup
  mem : ∀ i, i ∈ order ↔ (s.blocks i).isEmpty = false
  stamps : order.Pairwise fun i j => (s.blocks i).stamp < (s.blocks j).stamp
  uses : order.Pairwise fun i j => s.uses.idxOf i < s.uses.idxOf j
  range : ∀ i ∈ order, 0 ≤ (s.blocks i).stamp ∧ (s.blocks i).stamp < s.uses.length
  holds : ∀ i ∈ order, Holds (s.blocks i) (content i)
  keys : ∀ i ∈ order, ∀ j ∈ order, (content i).1 = (content j).1 → i = j

theorem Recent.init (content : Index → Text × Text) : Recent ⟨cacheInit.blocks, []⟩ content [] where
  nodup := List.nodup_nil
  mem i := by simp [cacheInit]
  stamps := .nil
  uses := .nil
  range := by simp
  holds := by simp
  keys := by simp

/-- A stamp is below the number of uses, so it can be incremented. -/
theorem Recent.stamp_succ (h : Recent s content order) (hlen : s.uses.length < 2 ^ 31)
    (hi : (s.blocks i).isEmpty = false) : i32 ((s.blocks i).stamp + 1) = (s.blocks i).stamp + 1 := by
  have := h.range i ((h.mem i).2 hi)
  exact i32_eq (by omega) (by omega)

/-- **A use** of block `i`, which has been filled with `e`, puts it to the front. -/
theorem Recent.use (h : Recent s content order) (hlen : s.uses.length < 2 ^ 31)
    (hframe : ∀ j, j ≠ i → blocks j = s.blocks j) (hi : (blocks i).isEmpty = false) (he : Holds (blocks i) e)
    (hkey : ∀ j ∈ order.erase i, (content j).1 ≠ e.1) :
    Recent ⟨cacheUpdateStamp blocks i, i :: s.uses⟩ (Function.update content i e) (i :: order.erase i) := by
  have hne : ∀ {j}, j ∈ order.erase i → j ≠ i := fun hj => (h.nodup.mem_erase_iff.1 hj).1
  have hmem : ∀ {j}, j ∈ order.erase i → j ∈ order := fun hj => (h.nodup.mem_erase_iff.1 hj).2
  have hself := cacheUpdateStamp_self blocks i
  -- the other filled blocks are one use older
  have hother : ∀ {j}, j ∈ order.erase i →
      cacheUpdateStamp blocks i j = { s.blocks j with stamp := (s.blocks j).stamp + 1 } := by
    intro j hj
    have hfilled := (h.mem j).1 (hmem hj)
    rw [cacheUpdateStamp_of_ne (hne hj), hframe j (hne hj), if_pos hfilled, h.stamp_succ hlen hfilled]
  have hidx : ∀ {j}, j ∈ order.erase i → (i :: s.uses).idxOf j = s.uses.idxOf j + 1 := fun hj =>
    List.idxOf_cons_ne _ (hne hj).symm
  constructor
  case nodup =>
    exact List.nodup_cons.2 ⟨h.nodup.not_mem_erase, h.nodup.erase i⟩
  case mem =>
    intro j
    by_cases hj : j = i
    · subst hj
      simp [hself, hi]
    · rw [List.mem_cons, or_iff_right hj, List.mem_erase_of_ne hj, h.mem j]
      simp only [cacheUpdateStamp_of_ne hj, hframe j hj]
      split_ifs <;> simp_all
  case stamps =>
    refine List.pairwise_cons.2 ⟨fun j hj => ?_, ?_⟩
    · have := h.range j (hmem hj)
      simp only [hself, hother hj]
      omega
    · refine (h.stamps.sublist List.erase_sublist).imp_of_mem fun {j k} hj hk hlt => ?_
      simp only [hother hj, hother hk]
      omega
  case uses =>
    refine List.pairwise_cons.2 ⟨fun j hj => ?_, ?_⟩
    · simp only [List.idxOf_cons_self, hidx hj]
      omega
    · refine (h.uses.sublist List.erase_sublist).imp_of_mem fun {j k} hj hk hlt => ?_
      simp only [hidx hj, hidx hk]
      omega
  case range =>
    refine List.forall_mem_cons.2 ⟨?_, fun j hj => ?_⟩
    · simp [hself]
    · have := h.range j (hmem hj)
      simp only [hother hj, List.length_cons]
      omega
  case holds =>
    refine List.forall_mem_cons.2 ⟨?_, fun j hj => ?_⟩
    · simpa [hself, Holds] using he
    · rw [Function.update_of_ne (hne hj)]
      simpa [hother hj, Holds] using h.holds j (hmem hj)
  case keys =>
    refine List.forall_mem_cons.2 ⟨?_, fun j hj => ?_⟩
    · refine List.forall_mem_cons.2 ⟨fun _ => rfl, fun j hj heq => ?_⟩
      rw [Function.update_self, Function.update_of_ne (hne hj)] at heq
      exact absurd heq.symm (hkey j hj)
    · refine List.forall_mem_cons.2 ⟨fun heq => ?_, fun k hk heq => ?_⟩
      · rw [Function.update_self, Function.update_of_ne (hne hj)] at heq
        exact absurd heq (hkey j hj)
      · rw [Function.update_of_ne (hne hj), Function.update_of_ne (hne hk)] at heq
        exact h.keys j (hmem hj) k (hmem hk) heq

theorem Recent.length_lt_iff (h : Recent s content order) :
    order.length < CACHE_OBJS_COUNT ↔ ∃ i, (s.blocks i).isEmpty = true := by
  constructor
  · intro hlt
    by_contra! hall
    have hsub : (List.finRange CACHE_OBJS_COUNT) ⊆ order := fun i _ => (h.mem i).2 (by simpa using hall i)
    have := ((List.nodup_finRange _).subperm hsub).length_le
    rw [List.length_finRange] at this
    omega
  · rintro ⟨i, hi⟩
    have hi : i ∉ order := by
      rw [h.mem i, hi]
      decide
    have := (List.nodup_cons.2 ⟨hi, h.nodup⟩).length_le_card
    rwa [Fintype.card_fin, List.length_cons, Nat.succ_le_iff] at this

theorem Recent.entries_ne (h : Recent s content order) (hfind : cacheFind s.blocks url = none) :
    ∀ e ∈ order.map content, e.1 ≠ url := by
  intro e he hurl
  obtain ⟨i, hi, rfl⟩ := List.mem_map.1 he
  refine cacheFind_none hfind ((h.mem i).1 hi) ?_
  rw [(h.holds i hi).1, hurl]

theorem map_update_erase (h : order.Nodup) : (order.erase i).map (Function.update content i e) =
    (order.erase i).map content :=
  List.map_congr_left fun _ hj => Function.update_of_ne (h.mem_erase_iff.1 hj).1 _ _

theorem Recent.find (h : Recent s content order) (hlen : s.uses.length < 2 ^ 31)
    (hfind : cacheFind s.blocks url = some i) (response : Option Text) :
    Recent ⟨cacheUpdateStamp s.blocks i, i :: s.uses⟩ content (i :: order.erase i) ∧
      (i :: order.erase i).map content = Lru.serve CACHE_OBJS_COUNT (order.map content) url response := by
  obtain ⟨hfilled, hurl⟩ := cacheFind_some hfind
  have hi := (h.mem i).2 hfilled
  have hkey : url = (content i).1 := Option.some.inj (hurl.symm.trans (h.holds i hi).1)
  have hinj : ∀ j ∈ order, content j = content i → j = i := fun j hj heq => h.keys j hj i hi (congrArg _ heq)
  constructor
  · have huse := h.use hlen (fun _ _ => rfl) hfilled (h.holds i hi) fun j hj heq => ?_
    · rwa [Function.update_eq_self] at huse
    · obtain ⟨hne, hj⟩ := h.nodup.mem_erase_iff.1 hj
      exact hne (h.keys j hj i hi heq)
  · rw [hkey, Lru.serve_hit (List.mem_map_of_mem hi), Lru.access_of_mem (List.mem_map_of_mem hi), List.map_cons,
      Lru.map_erase_of_inj hinj]
    intro e he heq
    obtain ⟨j, hj, rfl⟩ := List.mem_map.1 he
    rw [h.keys j hj i hi heq]

theorem Recent.store (h : Recent s content order) (hlen : s.uses.length < 2 ^ 31)
    (hfind : cacheFind s.blocks url = none) (buf : Text) :
    ∃ blocks i, cacheUrl s.blocks url buf = some (blocks, i) ∧
      Recent ⟨blocks, i :: s.uses⟩ (Function.update content i (url, buf)) (i :: order.erase i) ∧
      (i :: order.erase i).map (Function.update content i (url, buf)) =
        Lru.serve CACHE_OBJS_COUNT (order.map content) url (some buf) := by
  obtain ⟨blocks, i, hev, hframe, hvictim⟩ := cacheEviction_spec fun j hj => (h.range j ((h.mem j).2 hj)).1
  have hnew := h.entries_ne hfind
  unfold cacheUrl
  rw [hev]
  refine ⟨_, i, rfl, h.use hlen (fun j hj => ?_) ?_ ?_ fun j hj => ?_, ?_⟩
  · rw [Function.update_of_ne hj, hframe j hj]
  · rw [Function.update_self]
  · rw [Function.update_self]
    exact ⟨rfl, rfl⟩
  · exact hnew _ (List.mem_map_of_mem (List.mem_of_mem_erase hj))
  · rw [Lru.serve_store hnew, List.map_cons, Function.update_self, map_update_erase h.nodup, List.length_map]
    congr 1
    rcases hvictim with hempty | hfull
    · have hi : i ∉ order := by
        rw [h.mem i, hempty]
        decide
      rw [if_pos (h.length_lt_iff.2 ⟨i, hempty⟩), List.erase_of_not_mem hi]
    · have hall : ¬ order.length < CACHE_OBJS_COUNT := by
        rw [h.length_lt_iff]
        rintro ⟨j, hj⟩
        rw [(hfull j).1] at hj
        cases hj
      rw [if_neg hall, Lru.erase_largest h.stamps ((h.mem i).2 (hfull i).1) fun j _ => (hfull j).2, List.map_dropLast]

theorem Recent.request (h : Recent s content order) (hlen : s.uses.length < 2 ^ 31) (r : Request) :
    ∃ s' content' order', s.request r = some s' ∧ Recent s' content' order' ∧ s'.uses.length ≤ s.uses.length + 1 ∧
      order'.map content' = Lru.serve CACHE_OBJS_COUNT (order.map content) r.url r.response := by
  unfold Serial.request
  cases hfind : cacheFind s.blocks r.url with
  | some i =>
    obtain ⟨hrec, hserve⟩ := h.find hlen hfind r.response
    exact ⟨_, _, _, rfl, hrec, by simp, hserve⟩
  | none =>
    cases r.response with
    | none => exact ⟨s, content, order, rfl, h, by omega, (Lru.serve_miss (h.entries_ne hfind)).symm⟩
    | some buf =>
      obtain ⟨blocks, i, hurl, hrec, hserve⟩ := h.store hlen hfind buf
      exact ⟨_, _, _, by simp only [hurl, Option.map_some], hrec, by simp, hserve⟩

theorem Recent.requests (h : Recent s content order) (rs : List Request) (hlen : s.uses.length + rs.length < 2 ^ 31) :
    ∃ s' content' order', rs.foldlM Serial.request s = some s' ∧ Recent s' content' order' ∧ order'.map content' =
      rs.foldl (fun entries r => Lru.serve CACHE_OBJS_COUNT entries r.url r.response) (order.map content) := by
  induction rs generalizing s content order with
  | nil => exact ⟨s, content, order, rfl, h, rfl⟩
  | cons r rs ih =>
    rw [List.length_cons] at hlen
    obtain ⟨s', content', order', hreq, hrec, hle, hserve⟩ := h.request (by omega) r
    obtain ⟨s'', content'', order'', hrun, hrec, hfold⟩ := ih hrec (by omega)
    refine ⟨s'', content'', order'', ?_, hrec, ?_⟩
    · rw [List.foldlM_cons, hreq]
      exact hrun
    · rw [hfold, hserve, List.foldl_cons]

theorem Recent.compare (h : Recent s content order) (hi : (s.blocks i).isEmpty = false)
    (hj : (s.blocks j).isEmpty = false) (hij : i ≠ j) :
    ((s.blocks i).stamp < (s.blocks j).stamp ∧ s.uses.idxOf i < s.uses.idxOf j) ∨
      ((s.blocks j).stamp < (s.blocks i).stamp ∧ s.uses.idxOf j < s.uses.idxOf i) := by
  let before i j := (s.blocks i).stamp < (s.blocks j).stamp ∧ s.uses.idxOf i < s.uses.idxOf j
  have hsymm : Std.Symm fun i j => before i j ∨ before j i := ⟨fun _ _ => Or.symm⟩
  have hpair : order.Pairwise fun i j => before i j ∨ before j i := (h.stamps.and h.uses).imp .inl
  exact hpair.forall ((h.mem i).2 hi) ((h.mem j).2 hj) hij

/-- **LRU.** After any requests the filled blocks hold different urls, the stamps are in the order of the last
uses, and the entries are those of the LRU map. -/
theorem serially_lru (rs : List Request) (hlen : rs.length < 2 ^ 31) : ∃ s, serially rs = some s ∧
    (∀ i j, (s.blocks i).isEmpty = false → (s.blocks j).isEmpty = false → i ≠ j →
      (s.blocks i).cacheUrl ≠ (s.blocks j).cacheUrl ∧ (s.blocks i).stamp ≠ (s.blocks j).stamp) ∧
    (∀ i j, (s.blocks i).isEmpty = false → (s.blocks j).isEmpty = false →
      s.uses.idxOf i < s.uses.idxOf j → (s.blocks i).stamp < (s.blocks j).stamp) ∧
    ∀ e, e ∈ reference rs ↔ ∃ i, (s.blocks i).isEmpty = false ∧ Holds (s.blocks i) e := by
  obtain ⟨s, content, order, hrun, h, href⟩ := (Recent.init fun _ => ([], [])).requests rs (by simpa using hlen)
  refine ⟨s, hrun, fun i j hi hj hij => ⟨?_, ?_⟩, fun i j hi hj hlt => ?_, fun e => ?_⟩
  · rw [(h.holds i ((h.mem i).2 hi)).1, (h.holds j ((h.mem j).2 hj)).1]
    exact fun heq => hij (h.keys i ((h.mem i).2 hi) j ((h.mem j).2 hj) (Option.some.inj heq))
  · rcases h.compare hi hj hij with h' | h'
    · exact h'.1.ne
    · exact h'.1.ne'
  · rcases h.compare hi hj (fun hij => lt_irrefl _ (hij ▸ hlt)) with h' | h'
    · exact h'.1
    · exact absurd h'.2 hlt.not_gt
  · have href : order.map content = reference rs := href
    rw [← href, List.mem_map]
    constructor
    · rintro ⟨i, hi, rfl⟩
      exact ⟨i, (h.mem i).1 hi, h.holds i hi⟩
    · rintro ⟨i, hi, h1, h2⟩
      have hi := (h.mem i).2 hi
      obtain ⟨h3, h4⟩ := h.holds i hi
      rw [h1] at h3
      rw [h2] at h4
      exact ⟨i, hi, Prod.ext (Option.some.inj h3).symm (Option.some.inj h4).symm⟩

theorem serially_lru_twice : ∃ s, serially [⟨[97], some [98]⟩, ⟨[97], none⟩] = some s ∧
    (∀ i j, (s.blocks i).isEmpty = false → (s.blocks j).isEmpty = false → i ≠ j →
      (s.blocks i).cacheUrl ≠ (s.blocks j).cacheUrl ∧ (s.blocks i).stamp ≠ (s.blocks j).stamp) ∧
    (∀ i j, (s.blocks i).isEmpty = false → (s.blocks j).isEmpty = false →
      s.uses.idxOf i < s.uses.idxOf j → (s.blocks i).stamp < (s.blocks j).stamp) ∧
    ∀ e, e ∈ reference [⟨[97], some [98]⟩, ⟨[97], none⟩] ↔ ∃ i, (s.blocks i).isEmpty = false ∧ Holds (s.blocks i) e :=
  serially_lru [⟨[97], some [98]⟩, ⟨[97], none⟩] (by decide)

end CsappLab.Proxy
