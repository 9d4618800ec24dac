import CsappLab.Lib.Fuel
import CsappLab.Malloc.Realloc

/-!
# Runs of the allocator

A run starts with `mem_reset_brk` and `mm_init` on a heap with any bytes, and goes on with calls by a
client that knows its live pointers and writes what it likes into their payloads. `Inv` is the
invariant of runs: the heap is `Closed` and the live pointers are the payloads of its taken blocks.
The theorems of this module state it in terms of the pointers and macros of `mm.c`.
-/

namespace CsappLab.Malloc
open ByteMem CInt Linked Fuel

/-! ### The client -/

/-- A heap and the live pointers of its client. -/
structure Client where
  heap : Heap
  live : List Nat

def Heap.Payload (h : Heap) (p x : Nat) : Prop := p ≤ x ∧ x < p + WORD_SIZE * h.getSize (p - WORD_SIZE)

/-- A pointer that was returned is live, unless it is `NULL`. -/
def addLive (r : Nat) (live : List Nat) : List Nat := if r = NULL then live else r :: live

def dropLive (p : Nat) (live : List Nat) : List Nat := live.filter (· ≠ p)

/-- One call that completes, or one byte written by the client into one of its payloads. -/
inductive Call : Client → Client → Prop
  | malloc {h h' : Heap} {live : List Nat} {size r : Nat} : size ≤ MAX_HEAP →
      h.mmMalloc size = .ok (h', r) → Call ⟨h, live⟩ ⟨h', addLive r live⟩
  | free {h h' : Heap} {live : List Nat} {p : Nat} : p ∈ live →
      h.mmFree p = .ok h' → Call ⟨h, live⟩ ⟨h', dropLive p live⟩
  | realloc {h h' : Heap} {live : List Nat} {p size r : Nat} : p ∈ live → size ≤ MAX_HEAP →
      h.mmRealloc p size = .ok (h', r) → Call ⟨h, live⟩ ⟨h', addLive r (dropLive p live)⟩
  | write {h : Heap} {live : List Nat} {p x : Nat} {v : UInt8} : p ∈ live → h.Payload p x →
      Call ⟨h, live⟩ ⟨{ h with mem := store8 h.mem x v }, live⟩

/-- The states of all runs in the arena `a`. -/
inductive Reachable (a : Arena) : Client → Prop
  | init {h h' : Heap} : (h.memInit a).memResetBrk.mmInit = .ok (h', 0) → Reachable a ⟨h', []⟩
  | call {c c' : Client} : Reachable a c → Call c c' → Reachable a c'

/-! ### The invariant of runs -/

/-- The heap is in order and the client's pointers are the payloads of the taken blocks. -/
structure Inv (a : Arena) (c : Client) (e : Nat) (bs : List Blk) (fl : Nat → List Blk) : Prop where
  closed : Closed a.start c.heap e bs fl
  live : ∀ p, p ∈ c.live ↔ ∃ d, Live bs d ∧ p = addr a.start (d.hd + 1)

variable {a : Arena} {c c' : Client} {s e size p q r x : Nat} {h h' : Heap} {bs bs' : List Blk}
  {fl fl' : Nat → List Blk} {b d t : Blk}

theorem Arena.addr_ne_null (a : Arena) (i : Nat) : addr a.start i ≠ NULL := addr_pos a.start_pos

theorem Closed.live_inj (z : Closed s h e bs fl) (hb : Live bs b) (hd : Live bs d)
    (he : addr s (b.hd + 1) = addr s (d.hd + 1)) : b = d :=
  z.before.eq_of_hd (by simp [hb.1]) (by simp [hd.1]) (by have := addr_inj.1 he; omega)

theorem mmMalloc_zero (h : Heap) : h.mmMalloc 0 = .ok (h, NULL) := by
  unfold Heap.mmMalloc
  rfl

@[simp] theorem mem_addLive {live : List Nat} : q ∈ addLive r live ↔ q ∈ live ∨ r ≠ NULL ∧ q = r := by
  unfold addLive
  split_ifs with h
  · simp [h]
  · simp [h, or_comm]

@[simp] theorem mem_dropLive {live : List Nat} : q ∈ dropLive p live ↔ q ∈ live ∧ q ≠ p := by
  simp [dropLive]

namespace Inv

variable {live : List Nat}

theorem init (hi : (h.memInit a).memResetBrk.mmInit = .ok (h', 0)) : ∃ e bs fl, Inv a ⟨h', []⟩ e bs fl := by
  obtain ⟨e, bs, fl, hspec⟩ := mmInit_spec a.start_pos a.fits
  obtain ⟨h₁, h1, z, hno, -⟩ := hspec (h.memInit a).memResetBrk rfl rfl rfl
  obtain rfl : h₁ = h' := by rw [h1] at hi; simpa using hi
  exact ⟨e, bs, fl, z, fun p => by simp [hno]⟩

theorem block (hi : Inv a ⟨h, live⟩ e bs fl) (hp : p ∈ live) :
    ∃ b, Live bs b ∧ p = addr a.start (b.hd + 1) := (hi.live p).1 hp

theorem ne_null (hi : Inv a ⟨h, live⟩ e bs fl) (hp : p ∈ live) : p ≠ NULL := by
  obtain ⟨b, -, rfl⟩ := hi.block hp
  exact a.addr_ne_null _

theorem step {live' : List Nat} {out inn : Option Blk} (hi : Inv a ⟨h, live⟩ e bs fl)
    (z : Closed a.start h' s bs' fl') (hst : Step a.start h h' bs bs' out inn)
    (hout : ∀ b, out = some b → Live bs b)
    (hl : ∀ q, q ∈ live' ↔ (q ∈ live ∧ ∀ b, out = some b → q ≠ addr a.start (b.hd + 1)) ∨
      ∃ t, inn = some t ∧ q = addr a.start (t.hd + 1)) : Inv a ⟨h', live'⟩ s bs' fl' := by
  refine ⟨z, fun q => (hl q).trans ?_⟩
  constructor
  · rintro (⟨hq, hne⟩ | ⟨t, ht, rfl⟩)
    · obtain ⟨d, hd, rfl⟩ := hi.block hq
      exact ⟨d, (hst.live d).2 (.inl ⟨hd, fun h1 => hne d h1 rfl⟩), rfl⟩
    · exact ⟨t, (hst.live t).2 (.inr ht), rfl⟩
  · rintro ⟨d, hd, rfl⟩
    rcases (hst.live d).1 hd with ⟨h1, h2⟩ | h1
    · refine .inl ⟨(hi.live _).2 ⟨d, h1, rfl⟩, fun b hb he => h2 ?_⟩
      rw [hb, hi.closed.live_inj h1 (hout b hb) he]
    · exact .inr ⟨d, h1, rfl⟩

theorem payload_iff (hi : Inv a ⟨h, live⟩ e bs fl) (hb : Live bs b) :
    h.Payload (addr a.start (b.hd + 1)) x ↔
      addr a.start (b.hd + 1) ≤ x ∧ x < addr a.start (b.hd + 1) + 4 * b.size := by
  have hp : addr a.start (b.hd + 1) - WORD_SIZE = ptr a.start b := by unfold ptr addr WORD_SIZE; omega
  unfold Heap.Payload
  rw [hp, (hi.closed.tagged hb.1).getSize, show WORD_SIZE = 4 by rfl]

theorem write {v : UInt8} (hi : Inv a ⟨h, live⟩ e bs fl) (hp : p ∈ live) (hx : h.Payload p x) :
    Inv a ⟨{ h with mem := store8 h.mem x v }, live⟩ e bs fl := by
  obtain ⟨b, hb, rfl⟩ := hi.block hp
  rw [hi.payload_iff hb] at hx
  have hg : SameGlobals h { h with mem := store8 h.mem x v } := ⟨rfl, rfl, rfl, rfl, rfl, rfl⟩
  refine ⟨(hi.closed.writePayload hb hg fun i hi' => ?_).1, hi.live⟩
  refine wordAt_congr fun y h1 h2 => if_neg ?_
  unfold addr at hx
  omega

/-- `r` is `NULL` or the payload of a block with room for `size` bytes. -/
def Room (s : Nat) (bs : List Blk) (r size : Nat) : Prop :=
  r ≠ NULL → ∃ t, Live bs t ∧ r = addr s (t.hd + 1) ∧ size ≤ 4 * t.size

/-- **`mm_malloc`** keeps the invariant; it returns the same pointer on every heap with this layout. -/
theorem malloc (hi : Inv a ⟨h, live⟩ e bs fl) (hs : size ≤ 2 ^ 32 - 16) :
    ∃ r e' bs' fl', Room a.start bs' r size ∧ ∀ g, Inv a ⟨g, live⟩ e bs fl → ∃ g',
      g.mmMalloc size = .ok (g', r) ∧ Inv a ⟨g', addLive r live⟩ e' bs' fl' ∧
      g'.previousSize = g.previousSize := by
  rcases Nat.eq_zero_or_pos size with rfl | h0
  · exact ⟨NULL, e, bs, fl, fun h1 => absurd rfl h1, fun g hg => ⟨g, mmMalloc_zero g, hg, rfl⟩⟩
  rcases hi.closed.mmMalloc h0 hs with hn | ⟨r, e', t, bs', fl', hspec⟩
  · exact ⟨NULL, e, bs, fl, fun h1 => absurd rfl h1, fun g hg => ⟨g, hn g hg.closed, hg, rfl⟩⟩
  · obtain ⟨_, _, _, hH, -⟩ := hspec h hi.closed
    refine ⟨r, e', bs', fl', fun _ => ⟨t, (hH.step.live t).2 (.inr rfl), hH.ptr, hH.fits⟩, fun g hg => ?_⟩
    obtain ⟨g', hok, z, hH, hprev⟩ := hspec g hg.closed
    exact ⟨g', hok, hg.step z hH.step (by simp) fun q => by simp [hH.ptr, a.addr_ne_null], hprev⟩

theorem free (hi : Inv a ⟨h, live⟩ e bs fl) (hp : p ∈ live) :
    ∃ bs' fl', ∀ g, Inv a ⟨g, live⟩ e bs fl → ∃ g',
      g.mmFree p = .ok g' ∧ Inv a ⟨g', dropLive p live⟩ e bs' fl' ∧ g'.previousSize = g.previousSize := by
  obtain ⟨b, hb, rfl⟩ := hi.block hp
  obtain ⟨bs', fl', hspec⟩ := hi.closed.mmFree hb
  refine ⟨bs', fl', fun g hg => ?_⟩
  obtain ⟨g', hok, z, hst, hprev⟩ := hspec g hg.closed
  exact ⟨g', hok, hg.step z hst (by simp [hb]) fun q => by simp, hprev⟩

/-- **`mm_realloc`** keeps the invariant; what it returns depends on the layout and `previous_size`. -/
theorem realloc (hi : Inv a ⟨h, live⟩ e bs fl) (hp : p ∈ live) (hs : h.ReallocFits size) :
    (∃ f, ∀ g, Inv a ⟨g, live⟩ e bs fl → g.previousSize = h.previousSize → g.mmRealloc p size = .error f) ∨
    ∃ r e' bs' fl', Room a.start bs' r size ∧ ∀ g, Inv a ⟨g, live⟩ e bs fl →
      g.previousSize = h.previousSize → ∃ g', g.mmRealloc p size = .ok (g', r) ∧
        Inv a ⟨g', addLive r (dropLive p live)⟩ e' bs' fl' ∧ g'.previousSize = i32 size := by
  obtain ⟨b, hb, rfl⟩ := hi.block hp
  rcases hi.closed.mmRealloc hb hs with ⟨f, -, hf⟩ | ⟨r, e', bs', fl', hspec⟩
  · exact .inl ⟨f, fun g hg hprev => hf g hg.closed hprev⟩
  refine .inr ⟨r, e', bs', fl', ?_, ?_⟩
  · intro h0
    obtain ⟨_, _, _, hre, -⟩ := hspec h hi.closed rfl
    cases hre with
    | freed => exact absurd rfl h0
    | @moved _ t _ hM => exact ⟨t, (hM.step.live t).2 (.inr rfl), hM.ptr, hM.fits⟩
  · intro g hg hprev
    obtain ⟨g', hok, z, hre, hprev'⟩ := hspec g hg.closed hprev
    refine ⟨g', hok, ?_, hprev'⟩
    cases hre with
    | freed h0 hst => exact hg.step z hst (by simp [hb]) fun q => by simp
    | @moved _ t _ hM => exact hg.step z hM.step (by simp [hb]) fun q => by simp [hM.ptr, a.addr_ne_null]

/-- **One call keeps the invariant.** -/
theorem call {live' : List Nat} (hi : Inv a ⟨h, live⟩ e bs fl) (hc : Call ⟨h, live⟩ ⟨h', live'⟩) :
    ∃ e' bs' fl', Inv a ⟨h', live'⟩ e' bs' fl' := by
  have hMAX : MAX_HEAP = 20971520 := rfl
  cases hc with
  | @malloc _ _ _ size r hs hm =>
    obtain ⟨r, e', bs', fl', -, hspec⟩ := hi.malloc (show size ≤ 2 ^ 32 - 16 by omega)
    obtain ⟨g', hok, hi', -⟩ := hspec h hi
    rw [hok] at hm
    cases hm
    exact ⟨e', bs', fl', hi'⟩
  | free hp hf =>
    obtain ⟨bs', fl', hspec⟩ := hi.free hp
    obtain ⟨g', hok, hi', -⟩ := hspec h hi
    rw [hok] at hf
    cases hf
    exact ⟨e, bs', fl', hi'⟩
  | realloc hp hs hm =>
    rcases hi.realloc hp (reallocFits_of_le hs) with ⟨f, hf⟩ | ⟨r, e', bs', fl', -, hspec⟩
    · rw [hf h hi rfl] at hm
      cases hm
    · obtain ⟨g', hok, hi', -⟩ := hspec h hi rfl
      rw [hok] at hm
      cases hm
      exact ⟨e', bs', fl', hi'⟩
  | write hp hx => exact ⟨e, bs, fl, hi.write hp hx⟩

end Inv

/-- **The invariant holds in every run.** -/
theorem Reachable.inv (hr : Reachable a c) : ∃ e bs fl, Inv a c e bs fl := by
  induction hr with
  | init hi => exact Inv.init hi
  | call _ hc ih =>
    obtain ⟨e, bs, fl, hi⟩ := ih
    exact hi.call hc

/-! ### A run -/

/-- An arena that starts at address 8, and a run in it: two allocations, a free and a reallocation
that moves. -/
def smallArena : Arena := ⟨8, by decide, by decide⟩

def smallRun (h : Heap) : Except Fault (Heap × Nat × Nat × Nat) := do
  let (h, _) ← (h.memInit smallArena).memResetBrk.mmInit
  let (h, p) ← h.mmMalloc 100
  let (h, q) ← h.mmMalloc 4000
  let h ← h.mmFree p
  let (h, r) ← h.mmRealloc q 5000
  .ok (h, p, q, r)

theorem smallRun_reachable : ∃ c, Reachable smallArena c ∧ c.live = [8432] := by
  obtain ⟨h₀, hrun⟩ : ∃ h₀, (smallRun h₀).toOption.map Prod.snd = some (224, 4328, 8432) :=
    ⟨⟨fun _ => 0, 0, 0, 0, 0, 0, 0⟩, by decide +kernel⟩
  rcases hok : smallRun h₀ with f | ⟨h, v⟩
  · rw [hok] at hrun; cases hrun
  obtain rfl : v = (224, 4328, 8432) := by rw [hok] at hrun; simpa [Except.toOption] using hrun
  obtain ⟨_, _, _, hspec⟩ := mmInit_spec smallArena.start_pos smallArena.fits
  obtain ⟨h₁, hinit, -⟩ := hspec (h₀.memInit smallArena).memResetBrk rfl rfl rfl
  unfold smallRun at hok
  simp only [hinit, bind_eq_ok, Except.ok.injEq, Prod.exists, Prod.mk.injEq] at hok
  obtain ⟨h₂, _, ⟨rfl, rfl⟩, h₃, p, h1, h₄, q, h2, h₅, h3, h₆, r, h4, -, rfl, rfl, rfl⟩ := hok
  have hr := (((Reachable.init hinit).call (.malloc (by decide) h1)).call (.malloc (by decide) h2)).call
    (.free (by decide) h3)
  exact ⟨_, hr.call (.realloc (by decide) (by decide) h4), rfl⟩

end CsappLab.Malloc
