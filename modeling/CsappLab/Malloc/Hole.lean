import CsappLab.Malloc.FindBlock
import Mathlib.Data.List.Chain

/-!
# The heap around a hole

While an operation of `mm.c` rewrites some neighbouring blocks, the rest of the heap is in order.
`Hole s h e pre a m post fl` says so: the words from `a` to `m` are the hole, `pre` are the blocks
before and `post` the blocks behind it, the free ones among them are listed in `fl`, and `e` is the
epilog. `Closed s h e bs fl` is the heap invariant between operations: the hole has closed. The
lemmas move the edges of the hole: a taken block is opened and closed in place, a free block enters
the hole when it is unlinked and leaves it when it is placed.
-/

namespace CsappLab.Malloc
open ByteMem CInt Linked

def FIRST : Nat := 53

/-- The prolog: a taken block of size 0 in front of the first block. -/
def prolog : Blk := ⟨51, 0, true⟩

/-- The epilog: a taken block of size 0 at word `e`. -/
def epilog (e : Nat) : Blk := ⟨e, 0, true⟩

/-- Blocks have an even, positive size. -/
def Blk.Regular (b : Blk) : Prop := 2 ≤ b.size ∧ b.size % 2 = 0

def NoAdj (b c : Blk) : Prop := b.taken = true ∨ c.taken = true

def Tagged (s : Nat) (h : Heap) (b : Blk) : Prop :=
  h.word s b.hd = b.tag ∧ h.word s (b.hd + b.size + 1) = b.tag

/-- The heap is in order outside the words from `a` to `m`. -/
structure Hole (s : Nat) (h : Heap) (e : Nat) (pre : List Blk) (a m : Nat) (post : List Blk)
    (fl : Nat → List Blk) : Prop where
  lists : FreeLists s h fl
  start : h.memStartBrk = s
  brk : h.memBrk = addr s (e + 2)
  max : h.memMaxAddr = s + MAX_HEAP
  room : 4 * (e + 2) ≤ MAX_HEAP
  first : h.heapPtr = addr s FIRST
  before : Tiled (h.word s) prolog.hd (prolog :: pre) a
  width : a ≤ m
  behind : Tiled (h.word s) m (post ++ [epilog e]) (e + 2)
  mem : ∀ k b, b ∈ fl k ↔ (b ∈ pre ∨ b ∈ post) ∧ b.taken = false ∧ Nat.log2 b.size = k
  regular : ∀ b, b ∈ pre ∨ b ∈ post → b.Regular
  sepPre : pre.IsChain NoAdj
  sepPost : post.IsChain NoAdj

/-- **The heap invariant**: blocks `bs` from the first block to the epilog `e`, free lists `fl`. -/
def Closed (s : Nat) (h : Heap) (e : Nat) (bs : List Blk) (fl : Nat → List Blk) : Prop :=
  Hole s h e bs e e [] fl

def prevBlk (pre : List Blk) : Blk := pre.getLast?.getD prolog

def nextBlk (e : Nat) (post : List Blk) : Blk := post.head?.getD (epilog e)

variable {s e a m k : Nat} {h h' : Heap} {pre post bs : List Blk} {fl : Nat → List Blk} {b c : Blk}

theorem tiled_singleton {w : Nat → Nat} :
    Tiled w a [b] m ↔ b.hd = a ∧ w b.hd = b.tag ∧ w (b.hd + b.size + 1) = b.tag ∧ b.fin = m := Iff.rfl

@[simp] theorem prevBlk_nil : prevBlk [] = prolog := rfl
@[simp] theorem prevBlk_concat : prevBlk (pre ++ [b]) = b := by simp [prevBlk]
@[simp] theorem nextBlk_nil : nextBlk e [] = epilog e := rfl
@[simp] theorem nextBlk_cons : nextBlk e (b :: post) = b := rfl

namespace Hole

theorem bounds (z : Hole s h e pre a m post fl) : FIRST ≤ a ∧ m ≤ e ∧ a ≤ e := by
  have h1 := z.before
  obtain ⟨-, -, -, h2⟩ := tiled_cons.1 h1
  have h3 := h2.le
  obtain ⟨n, h4, h5⟩ := tiled_append.1 z.behind
  have h6 := h4.le
  have h7 : e = n := (tiled_singleton.1 h5).1
  have h8 : prolog.fin = FIRST := rfl
  have := z.width
  omega

theorem mem_outside (z : Hole s h e pre a m post fl) (hb : b ∈ pre ∨ b ∈ post) :
    (FIRST ≤ b.hd ∧ b.fin ≤ a) ∨ (m ≤ b.hd ∧ b.fin ≤ e) := by
  rcases hb with hb | hb
  · obtain ⟨-, -, -, h2⟩ := tiled_cons.1 z.before
    exact .inl ⟨(h2.mem hb).1, (h2.mem hb).2.1⟩
  · obtain ⟨n, h4, h5⟩ := tiled_append.1 z.behind
    have h7 : e = n := (tiled_singleton.1 h5).1
    exact .inr ⟨(h4.mem hb).1, h7 ▸ (h4.mem hb).2.1⟩

theorem tagged (z : Hole s h e pre a m post fl) (hb : b ∈ pre ∨ b ∈ post) : Tagged s h b := by
  rcases hb with hb | hb
  · exact (z.before.mem (by simp [hb])).2.2
  · exact (z.behind.mem (by simp [hb])).2.2

theorem size_lt (z : Hole s h e pre a m post fl) (hb : b.fin ≤ e) : b.size < 2 ^ 29 := by
  have := z.room
  have : MAX_HEAP = 20971520 := rfl
  unfold Blk.fin at hb; omega

theorem listed (z : Hole s h e pre a m post fl) (hb : b ∈ fl k) : b ∈ pre ∨ b ∈ post :=
  ((z.mem k b).1 hb).1

theorem apart (z : Hole s h e pre a m post fl) (hb : b ∈ pre ∨ b ∈ post) (hc : c ∈ pre ∨ c ∈ post)
    (hne : b ≠ c) : b.Apart c := by
  have hw := z.width
  rcases hb with hb | hb <;> rcases hc with hc | hc
  · exact z.before.apart (by simp [hb]) (by simp [hc]) hne
  · have h1 := (z.before.mem (b := b) (by simp [hb])).2.1
    have h2 := (z.behind.mem (b := c) (by simp [hc])).1
    exact .inl (by omega)
  · have h1 := (z.before.mem (b := c) (by simp [hc])).2.1
    have h2 := (z.behind.mem (b := b) (by simp [hb])).1
    exact .inr (by omega)
  · exact z.behind.apart (by simp [hb]) (by simp [hc]) hne

theorem not_listWord (z : Hole s h e pre a m post fl) {i : Nat} (h1 : a ≤ i) (h2 : i < m) :
    ¬ ListWord fl i := by
  have hb := z.bounds
  rintro (h3 | ⟨k, b, hb', h3⟩)
  · unfold MAX_POWER at h3; unfold FIRST at hb; omega
  · have hr := (z.regular b (z.listed hb')).1
    have := z.mem_outside (z.listed hb')
    unfold Blk.fin at this; omega

theorem not_listWord_payload (z : Hole s h e pre a m post fl) (hb : b ∈ pre ∨ b ∈ post)
    (ht : b.taken = true) {i : Nat} (h1 : b.hd < i) (h2 : i ≤ b.hd + b.size) : ¬ ListWord fl i := by
  have ho := z.mem_outside hb
  have hbd := z.bounds
  have hw := z.width
  rintro (h3 | ⟨k, c, hc, h3⟩)
  · unfold MAX_POWER at h3; unfold FIRST at *; omega
  · have hne : b ≠ c := fun he => by have := z.lists.free k c hc; rw [← he, ht] at this; cases this
    have hr := (z.regular c (z.listed hc)).1
    have := z.apart hb (z.listed hc) hne
    unfold Blk.Apart Blk.fin at this; omega

theorem not_listWord_tag (z : Hole s h e pre a m post fl) (hb : b ∈ prolog :: pre ∨ b ∈ post ++ [epilog e])
    {i : Nat} (hi : i = b.hd ∨ i = b.hd + b.size + 1) : ¬ ListWord fl i := by
  have hbd := z.bounds
  have hw := z.width
  have hpos : prolog.hd ≤ b.hd ∧ (b.fin ≤ a ∨ m ≤ b.hd) := by
    rcases hb with hb | hb
    · have := z.before.mem hb; exact ⟨this.1, .inl this.2.1⟩
    · have := (z.behind.mem hb).1
      exact ⟨by unfold prolog FIRST at *; simp only; omega, .inr this⟩
  rintro (h3 | ⟨k, c, hc, h3⟩)
  · unfold MAX_POWER at h3; unfold prolog at hpos; simp only at hpos; omega
  · have hr := (z.regular c (z.listed hc)).1
    have ho := z.mem_outside (z.listed hc)
    by_cases he : b = c
    · subst he; omega
    · have hap : b.Apart c := by
        rcases hb with hb | hb <;> rcases z.listed hc with hc' | hc'
        · exact z.before.apart hb (by simp [hc']) he
        · have h1 := (z.before.mem hb).2.1
          have h2 := (z.behind.mem (b := c) (by simp [hc'])).1
          exact .inl (by omega)
        · have h1 := (z.before.mem (b := c) (by simp [hc'])).2.1
          have h2 := (z.behind.mem hb).1
          exact .inr (by omega)
        · exact z.behind.apart hb (by simp [hc']) he
      unfold Blk.Apart Blk.fin at hap; omega

theorem congr (z : Hole s h e pre a m post fl) (hg : SameGlobals h h')
    (hw : ∀ i, i < a ∨ m ≤ i → h'.word s i = h.word s i) : Hole s h' e pre a m post fl where
  lists := z.lists.congr hg.lists
    (fun i hi => hw i <| by by_contra hc; exact z.not_listWord (by omega) (by omega) hi)
    (fun k b hb => hw _ <| by
      have := z.mem_outside (z.listed hb)
      have := z.width
      unfold Blk.fin at *; omega)
  start := hg.start.trans z.start
  brk := hg.brk.trans z.brk
  max := hg.max.trans z.max
  room := z.room
  first := hg.first.trans z.first
  before := z.before.congr fun i _ hi => hw i (.inl hi)
  width := z.width
  behind := z.behind.congr fun i hi _ => hw i (.inr hi)
  mem := z.mem
  regular := z.regular
  sepPre := z.sepPre
  sepPost := z.sepPost

theorem taken_of_sep (h1 : bs.IsChain NoAdj) (h2 : bs = pre ++ b :: post) (hb : b.taken = false) :
    (prevBlk pre).taken = true ∧ (nextBlk e post).taken = true := by
  subst h2
  obtain ⟨-, h3, h4⟩ := List.isChain_append.1 h1
  constructor
  · rcases List.eq_nil_or_concat pre with rfl | ⟨l, p, rfl⟩
    · rfl
    · rw [List.concat_eq_append] at *
      rw [prevBlk_concat]
      exact (h4 p (by simp) b (by simp)).resolve_right (by simp [hb])
  · cases post with
    | nil => rfl
    | cons n l => exact ((List.isChain_cons.1 h3).1 n (by simp)).resolve_left (by simp [hb])

end Hole

namespace Closed

theorem tagged (z : Closed s h e bs fl) (hb : b ∈ bs) : Tagged s h b := Hole.tagged z (.inl hb)

theorem openAt (z : Closed s h e (pre ++ post) fl) : ∃ a, Hole s h e pre a a post fl := by
  have h1 := z.before
  rw [← List.cons_append] at h1
  obtain ⟨n, h2, h3⟩ := tiled_append.1 h1
  refine ⟨n, { z with before := h2, width := le_rfl, behind := tiled_append.2 ⟨e, h3, z.behind⟩,
                      mem := ?_, regular := ?_,
                      sepPre := z.sepPre.left_of_append, sepPost := z.sepPre.right_of_append }⟩
  · intro k c
    rw [z.mem k c]; simp
  · intro c hc
    exact z.regular c (.inl (List.mem_append.2 hc))

theorem openTaken (z : Closed s h e (pre ++ b :: post) fl) (hb : b.taken = true) :
    Hole s h e pre b.hd b.fin post fl := by
  obtain ⟨a, z⟩ := z.openAt
  obtain ⟨rfl, -, -, h4⟩ := tiled_cons.1 z.behind
  refine { z with width := by unfold Blk.fin; omega, behind := h4, mem := fun k c => ?_,
                  regular := fun c hc => z.regular c (hc.imp id fun hc => by simp [hc]),
                  sepPost := z.sepPost.tail }
  rw [z.mem k c]
  by_cases hc : c = b
  · subst hc; simp [hb]
  · simp [hc]

end Closed

namespace Hole

theorem closeTaken (z : Hole s h e pre b.hd b.fin post fl) (ht : Tagged s h b) (hb : b.taken = true)
    (hr : b.Regular) : Closed s h e (pre ++ b :: post) fl := by
  obtain ⟨n, h4, h5⟩ := tiled_append.1 z.behind
  obtain ⟨rfl, h6⟩ := tiled_singleton.1 h5
  refine { z with before := ?_, width := le_rfl, behind := ?_, mem := ?_, regular := ?_,
                  sepPre := ?_, sepPost := .nil }
  · rw [← List.cons_append]
    exact tiled_append.2 ⟨b.hd, z.before, rfl, ht.1, ht.2, h4⟩
  · exact h5
  · intro k c
    rw [z.mem k c]
    by_cases hc : c = b
    · subst hc; simp [hb]
    · simp [hc]
  · intro c hc
    simp only [List.mem_append, List.mem_cons, List.not_mem_nil, or_false] at hc
    rcases hc with hc | rfl | hc
    · exact z.regular c (.inl hc)
    · exact hr
    · exact z.regular c (.inr hc)
  · refine z.sepPre.append (List.isChain_cons.2 ⟨fun c _ => .inl hb, z.sepPost⟩) fun p _ c hc => ?_
    obtain rfl : b = c := by simpa using hc
    exact .inr hb

theorem placeable (z : Hole s h e pre b.hd b.fin post fl) (ht : Tagged s h b) (hb : b.taken = false)
    (hr : b.Regular) : Placeable s h fl b where
  tag := ht.1
  free := hb
  two := hr.1
  lo := by have := z.bounds; unfold FIRST MAX_POWER at *; omega
  hi := by have := z.bounds; have := z.room; omega
  apart := by
    intro k c hc
    have := z.mem_outside (z.listed hc)
    unfold Blk.Apart; omega

theorem tiled_of_frame (z : Hole s h e pre a m post fl) (hw : ∀ i, ¬ ListWord fl i → h'.word s i = h.word s i) :
    Tiled (h'.word s) prolog.hd (prolog :: pre) a ∧ Tiled (h'.word s) m (post ++ [epilog e]) (e + 2) :=
  ⟨z.before.congr_tags fun _ hb => ⟨hw _ (z.not_listWord_tag (.inl hb) (.inl rfl)),
      hw _ (z.not_listWord_tag (.inl hb) (.inr rfl))⟩,
    z.behind.congr_tags fun _ hb => ⟨hw _ (z.not_listWord_tag (.inr hb) (.inl rfl)),
      hw _ (z.not_listWord_tag (.inr hb) (.inr rfl))⟩⟩

/-- **Placing** the free block in the hole closes the hole. -/
theorem place (z : Hole s h e pre b.hd b.fin post fl) (ht : Tagged s h b) (hb : b.taken = false)
    (hr : b.Regular) (hpre : (prevBlk pre).taken = true) (hpost : (nextBlk e post).taken = true) :
    ∃ h', h.placeBlockIntoFreeList (ptr s b) = .ok h' ∧ SameGlobals h h' ∧
      Closed s h' e (pre ++ b :: post) (enlist fl b) ∧
      ∀ i, ¬ ListWord fl i → i ≠ b.hd + 1 → i ≠ b.hd + 2 → h'.word s i = h.word s i := by
  obtain ⟨h', he, hl, hg, hw⟩ := z.lists.place (z.placeable ht hb hr)
  have hbd := z.bounds
  refine ⟨h', he, hg, ?_, hw⟩
  have hin : ∀ i, b.hd ≤ i → i < b.fin → i ≠ b.hd + 1 → i ≠ b.hd + 2 → h'.word s i = h.word s i :=
    fun i h1 h2 => hw i (z.not_listWord h1 h2)
  have h2 := hr.1
  have hout : ∀ c, c ∈ prolog :: pre ∨ c ∈ post ++ [epilog e] → c.fin ≤ b.hd ∨ b.fin ≤ c.hd := by
    rintro c (hc | hc)
    · exact .inl (z.before.mem hc).2.1
    · exact .inr (z.behind.mem hc).1
  have htag : ∀ c, c ∈ prolog :: pre ∨ c ∈ post ++ [epilog e] → h'.word s c.hd = h.word s c.hd ∧
      h'.word s (c.hd + c.size + 1) = h.word s (c.hd + c.size + 1) := by
    intro c hc
    have := hout c hc
    unfold Blk.fin at this
    exact ⟨hw _ (z.not_listWord_tag hc (.inl rfl)) (by omega) (by omega),
      hw _ (z.not_listWord_tag hc (.inr rfl)) (by omega) (by omega)⟩
  obtain ⟨n, h4, h5⟩ := tiled_append.1 (z.behind.congr_tags fun c hc => htag c (.inr hc))
  obtain ⟨rfl, h6⟩ := tiled_singleton.1 h5
  refine
    { lists := hl, start := hg.start.trans z.start, brk := hg.brk.trans z.brk,
      max := hg.max.trans z.max, room := z.room, first := hg.first.trans z.first, before := ?_,
      width := le_rfl, behind := h5, mem := fun k c => ?_, regular := fun c hc => ?_, sepPre := ?_,
      sepPost := .nil }
  · rw [← List.cons_append]
    refine tiled_append.2 ⟨b.hd, z.before.congr_tags fun c hc => htag c (.inl hc), rfl, ?_, ?_, h4⟩
    · rw [hin _ le_rfl (by unfold Blk.fin; omega) (by omega) (by omega), ht.1]
    · rw [hin _ (by omega) (by unfold Blk.fin; omega) (by omega) (by omega), ht.2]
  · rw [mem_enlist, z.mem k c]
    by_cases hc : c = b
    · subst hc
      have hno : ¬ (c ∈ pre ∨ c ∈ post) := by
        intro hc
        have := hout c (by simp only [List.mem_cons, List.mem_append]; tauto)
        unfold Blk.fin at this; omega
      simp [hb, hno, eq_comm]
    · simp [hc]
  · simp only [List.mem_append, List.mem_cons, List.not_mem_nil, or_false] at hc
    rcases hc with hc | rfl | hc
    · exact z.regular c (.inl hc)
    · exact hr
    · exact z.regular c (.inr hc)
  · refine z.sepPre.append (List.isChain_cons.2 ⟨fun c hc => .inr ?_, z.sepPost⟩) fun p hp c hc => .inl ?_
    · cases post with
      | nil => cases hc
      | cons n l => obtain rfl : n = c := by simpa using hc
                    exact hpost
    · unfold prevBlk at hpre; rw [Option.mem_def.1 hp] at hpre; exact hpre

theorem unlinkOutside (z : Hole s h e pre a m post fl) (hb : b ∈ fl k) :
    FreeLists s (h.removeBlockFromFreeList (ptr s b)) (unlist fl b) ∧
      SameGlobals h (h.removeBlockFromFreeList (ptr s b)) ∧
      (∀ i, ¬ ListWord fl i → (h.removeBlockFromFreeList (ptr s b)).word s i = h.word s i) ∧
      Tagged s (h.removeBlockFromFreeList (ptr s b)) b := by
  obtain ⟨hl, hg, hw⟩ := z.lists.remove hb
  refine ⟨hl, hg, hw, ?_, ?_⟩
  all_goals
    have hb' := z.listed hb
    have hb'' : b ∈ prolog :: pre ∨ b ∈ post ++ [epilog e] := by
      simp only [List.mem_cons, List.mem_append]; tauto
  · rw [hw _ (z.not_listWord_tag hb'' (.inl rfl)), (z.tagged hb').1]
  · rw [hw _ (z.not_listWord_tag hb'' (.inr rfl)), (z.tagged hb').2]

/-- **Unlinking** the free block behind the hole widens the hole over it. -/
theorem takeBehind (z : Hole s h e pre a m (b :: post) fl) (hb : b.taken = false) :
    Hole s (h.removeBlockFromFreeList (ptr s b)) e pre a b.fin post (unlist fl b) ∧
      SameGlobals h (h.removeBlockFromFreeList (ptr s b)) ∧
      (∀ i, ¬ ListWord fl i → (h.removeBlockFromFreeList (ptr s b)).word s i = h.word s i) ∧
      Tagged s (h.removeBlockFromFreeList (ptr s b)) b ∧ b.hd = m := by
  have hbl : b ∈ fl (Nat.log2 b.size) := (z.mem _ b).2 ⟨by simp, hb, rfl⟩
  obtain ⟨hl, hg, hw, ht⟩ := z.unlinkOutside hbl
  obtain ⟨h1, h2⟩ := z.tiled_of_frame hw
  obtain ⟨h3, -, -, h4⟩ := tiled_cons.1 h2
  have hwd := z.width
  have hnd := z.behind.nodup
  refine ⟨?_, hg, hw, ht, h3⟩
  refine
    { lists := hl, start := hg.start.trans z.start, brk := hg.brk.trans z.brk,
      max := hg.max.trans z.max, room := z.room, first := hg.first.trans z.first, before := h1,
      width := by unfold Blk.fin; omega, behind := h4, mem := fun k c => ?_,
      regular := fun c hc => z.regular c (hc.imp id fun hc => by simp [hc]), sepPre := z.sepPre,
      sepPost := z.sepPost.tail }
  rw [mem_unlist z.lists.sortedLists, z.mem k c]
  by_cases hc : c = b
  · subst hc
    have h5 : c ∉ post := fun hc => (List.nodup_cons.1 hnd).1 (by simp [hc])
    have h6 : c ∉ pre := fun hc => by
      have := (z.before.mem (b := c) (by simp [hc])).2.1
      unfold Blk.fin at this; omega
    simp [h5, h6]
  · simp [hc]

/-- **Unlinking** the free block before the hole widens the hole over it. -/
theorem takeBefore (z : Hole s h e (pre ++ [b]) a m post fl) (hb : b.taken = false) :
    Hole s (h.removeBlockFromFreeList (ptr s b)) e pre b.hd m post (unlist fl b) ∧
      SameGlobals h (h.removeBlockFromFreeList (ptr s b)) ∧
      (∀ i, ¬ ListWord fl i → (h.removeBlockFromFreeList (ptr s b)).word s i = h.word s i) ∧
      Tagged s (h.removeBlockFromFreeList (ptr s b)) b ∧ b.fin = a := by
  have hbl : b ∈ fl (Nat.log2 b.size) := (z.mem _ b).2 ⟨by simp, hb, rfl⟩
  obtain ⟨hl, hg, hw, ht⟩ := z.unlinkOutside hbl
  obtain ⟨h1, h2⟩ := z.tiled_of_frame hw
  rw [← List.cons_append] at h1
  obtain ⟨n, h3, h4⟩ := tiled_append.1 h1
  obtain ⟨rfl, -, -, h5⟩ := tiled_singleton.1 h4
  have hwd := z.width
  have hnd := z.before.nodup
  refine ⟨?_, hg, hw, ht, h5⟩
  refine
    { lists := hl, start := hg.start.trans z.start, brk := hg.brk.trans z.brk,
      max := hg.max.trans z.max, room := z.room, first := hg.first.trans z.first, before := h3,
      width := by unfold Blk.fin at h5; omega, behind := h2, mem := fun k c => ?_,
      regular := fun c hc => z.regular c (hc.imp (fun hc => by simp [hc]) id),
      sepPre := z.sepPre.left_of_append, sepPost := z.sepPost }
  rw [mem_unlist z.lists.sortedLists, z.mem k c]
  by_cases hc : c = b
  · subst hc
    have h6 : c ∉ pre := by
      intro hc
      rw [← List.cons_append, List.nodup_append] at hnd
      exact hnd.2.2 c (by simp [hc]) c (by simp) rfl
    have h7 : c ∉ post := by
      intro hc
      have := (z.behind.mem (b := c) (by simp [hc])).1
      unfold Blk.fin at h5; omega
    simp [h6, h7]
  · simp [hc]

end Hole

theorem Closed.openFree (z : Closed s h e (pre ++ b :: post) fl) (hb : b.taken = false) :
    Hole s (h.removeBlockFromFreeList (ptr s b)) e pre b.hd b.fin post (unlist fl b) ∧
      SameGlobals h (h.removeBlockFromFreeList (ptr s b)) ∧
      (∀ i, ¬ ListWord fl i → (h.removeBlockFromFreeList (ptr s b)).word s i = h.word s i) ∧
      Tagged s (h.removeBlockFromFreeList (ptr s b)) b ∧
      (prevBlk pre).taken = true ∧ (nextBlk e post).taken = true := by
  obtain ⟨a, z'⟩ := z.openAt
  obtain ⟨z'', hg, hw, ht, rfl⟩ := z'.takeBehind hb
  exact ⟨z'', hg, hw, ht, Hole.taken_of_sep z.sepPre rfl hb⟩

end CsappLab.Malloc
