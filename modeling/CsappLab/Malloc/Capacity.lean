import CsappLab.Malloc.Requests

/-!
# Room, data and failure

What the allocator owes a single request, in the states of all runs whose requests do not wrap around:
a pointer that is returned has room for the request, `mm_realloc` keeps the data, and a reallocation that
cannot be served fails cleanly. The last does not hold: `mm_realloc_wrapped` subtracts a word from the
result of `mm_malloc` before it looks for `NULL`.
-/

namespace CsappLab.Malloc
open ByteMem CInt Linked Fuel

variable {a : Arena} {c : Client} {e size n p r x : Nat} {h h' : Heap} {bs : List Blk}
  {fl : Nat → List Blk} {b t : Blk} {live : List Nat} {k : Int}

/-- The payload of the block that `p` points to, in bytes. -/
def Heap.capacity (h : Heap) (p : Nat) : Nat := WORD_SIZE * h.getSize (p - WORD_SIZE)

theorem Inv.capacity_eq (hi : Inv a ⟨h, live⟩ e bs fl) (hb : Live bs b) :
    h.capacity (addr a.start (b.hd + 1)) = 4 * b.size := by
  have hp : addr a.start (b.hd + 1) - WORD_SIZE = ptr a.start b := by unfold ptr addr WORD_SIZE; omega
  unfold Heap.capacity
  rw [hp, (hi.closed.tagged hb.1).getSize]
  rfl

theorem Inv.le_capacity (hi : Inv a ⟨h, live⟩ e bs fl) (hr : Inv.Room a.start bs r size) (h0 : r ≠ NULL) :
    size ≤ h.capacity r := by
  obtain ⟨t, ht, rfl, hle⟩ := hr h0
  rw [hi.capacity_eq ht]
  exact hle

/-! ### Room for the request -/

/-- **Capacity**: in every run of requests that do not wrap around, a pointer that is returned for such
a request has a payload of at least the requested size. -/
theorem capacity (hr : (allocator a).Reach Client.Fits c) :
    (∀ size, c.Fits (.malloc size) → ∀ h' r, c.heap.mmMalloc size = .ok (h', r) → r ≠ NULL →
      size ≤ h'.capacity r) ∧
    ∀ p ∈ c.live, ∀ size, c.Fits (.realloc p size) → ∀ h' r, c.heap.mmRealloc p size = .ok (h', r) →
      r ≠ NULL → size ≤ h'.capacity r := by
  obtain ⟨e, bs, fl, hi⟩ := reach_inv hr
  constructor
  · intro size hf h' r hok h0
    obtain ⟨r', e', bs', fl', hroom, hspec⟩ := hi.malloc hf
    obtain ⟨g', hok', hi', -⟩ := hspec c.heap hi
    rw [hok'] at hok
    cases hok
    exact hi'.le_capacity hroom h0
  · intro p hp size hf h' r hok h0
    rcases hi.realloc hp hf with ⟨f, hspec⟩ | ⟨r', e', bs', fl', hroom, hspec⟩
    · rw [hspec c.heap hi rfl] at hok
      cases hok
    · obtain ⟨g', hok', hi', -⟩ := hspec c.heap hi rfl
      rw [hok'] at hok
      cases hok
      exact hi'.le_capacity hroom h0

theorem Reachable.reach (hr : Reachable a c) : (allocator a).Reach Client.Fits c := by
  have hMAX : MAX_HEAP = 20971520 := rfl
  induction hr with
  | init hi => exact .init ⟨_, hi, rfl⟩
  | call _ hc ih =>
    cases hc with
    | @malloc h h' live size r hs hm =>
      refine ih.step (l := .malloc size) (show size ≤ 2 ^ 32 - 16 by omega) ⟨trivial, r, ?_⟩
      simp only [Client.exec, Heap.perform, hm, bind, Except.bind, Op.live]
    | @free h h' live p hp hf =>
      refine ih.step (l := .free p) trivial ⟨hp, NULL, ?_⟩
      simp only [Client.exec, Heap.perform, hf, bind, Except.bind, Op.live]
    | @realloc h h' live p size r hp hs hm =>
      refine ih.step (l := .realloc p size) (reallocFits_of_le hs) ⟨.inr hp, r, ?_⟩
      simp only [Client.exec, Heap.perform, hm, bind, Except.bind, Op.live]
    | @write h live p x v hp hx => exact ih.step (l := .write x v) trivial ⟨⟨p, hp, hx⟩, NULL, rfl⟩

theorem capacity_smallRun : ∃ c : Client, c.live = [8432] ∧ ∀ size ≤ 2 ^ 32 - 16, ∀ h' r,
    c.heap.mmMalloc size = .ok (h', r) → r ≠ NULL → size ≤ h'.capacity r := by
  obtain ⟨c, hr, hl⟩ := smallRun_reachable
  exact ⟨c, hl, (capacity hr.reach).1⟩

/-- A request from `2 ^ 32 - 7` bytes on is rounded up to no words at all. -/
theorem wrapped_request : ∃ c : Client, (allocator smallArena).Reach Client.Fits c ∧
    ∃ h' r, c.heap.mmMalloc (2 ^ 32 - 1) = .ok (h', r) ∧ r ≠ NULL ∧ h'.capacity r = 0 := by
  obtain ⟨h₀, hrun⟩ : ∃ h₀ : Heap, ((do
      let init ← (h₀.memInit smallArena).memResetBrk.mmInit
      let p ← init.1.mmMalloc (2 ^ 32 - 1)
      .ok (p.2, p.1.capacity p.2) : Except Fault (Nat × Nat)).toOption) = some (224, 0) :=
    ⟨⟨fun _ => 0, 0, 0, 0, 0, 0, 0⟩, by decide +kernel⟩
  obtain ⟨_, _, _, hspec⟩ := mmInit_spec smallArena.start_pos smallArena.fits
  obtain ⟨h₁, hinit, -⟩ := hspec (h₀.memInit smallArena).memResetBrk rfl rfl rfl
  refine ⟨⟨h₁, []⟩, .init ⟨h₀, hinit, rfl⟩, ?_⟩
  obtain ⟨size, hs⟩ : ∃ size, size = 2 ^ 32 - 1 := ⟨_, rfl⟩
  rw [← hs] at hrun ⊢
  rw [hinit] at hrun
  cases hm : h₁.mmMalloc size with
  | error f => simp [hm, bind, Except.bind, Except.toOption] at hrun
  | ok v =>
    obtain ⟨h', r⟩ := v
    simp only [hm, bind, Except.bind, Except.toOption, Option.some.injEq, Prod.mk.injEq] at hrun
    obtain ⟨rfl, hcap⟩ := hrun
    exact ⟨h', 224, rfl, by decide, hcap⟩

/-! ### The data of a reallocated block -/

theorem Moved.byte_eq {s : Nat} {bs' : List Blk} (hm : Moved s h h' bs b size r t bs') (hx : x < 4 * b.size)
    (hx' : x < size) : h'.mem (r + x) = h.mem (addr s (b.hd + 1) + x) := by
  have hfit := hm.fits
  have hword : h'.word s (t.hd + (x / 4 + 1)) = h.word s (b.hd + (x / 4 + 1)) :=
    hm.copied _ (by omega) (by omega) (by omega)
  have hbyte := byte_eq_of_load32_eq (c := x % 4) hword (Nat.mod_lt _ (by decide))
  have e1 : r + x = s + 4 * (t.hd + (x / 4 + 1)) + x % 4 := by rw [hm.ptr]; unfold addr; omega
  have e2 : addr s (b.hd + 1) + x = s + 4 * (b.hd + (x / 4 + 1)) + x % 4 := by unfold addr; omega
  rw [e1, e2]
  exact hbyte

/-- **`mm_realloc` keeps the data**: with any buffer that `mm_realloc` computes, whatever the previous
size was, a completed `mm_realloc_wrapped` returns a block with room for the request whose first bytes
are those of the old payload. -/
theorem realloc_keeps_data {prev : Int} (hr : (allocator a).Reach Client.Fits c) (hp : p ∈ c.live)
    (h0 : 0 < size) (hs : size ≤ MAX_HEAP)
    (hk : Heap.bufferSize { c.heap with previousSize := prev } size = .ok k)
    (hok : c.heap.mmReallocWrapped p size k = .ok (h', r)) :
    r ≠ NULL ∧ size ≤ h'.capacity r ∧
      ∀ x < min (c.heap.capacity p) size, h'.mem (r + x) = c.heap.mem (p + x) := by
  obtain ⟨e, bs, fl, hi⟩ := reach_inv hr
  obtain ⟨b, hb, rfl⟩ := hi.block hp
  obtain ⟨hk0, hfit⟩ := reallocFits_of_le hs k hk
  have heven := bufferSize_even hk
  obtain ⟨n, rfl⟩ : ∃ n : Nat, k = n := ⟨k.toNat, by omega⟩
  rcases hi.closed.mmReallocWrapped size n hb (by omega) (by omega) with
    hno | ⟨r', e', bs', fl', hspec⟩
  · rw [hno c.heap hi.closed] at hok
    cases hok
  obtain ⟨g', hok', z', hre, -⟩ := hspec c.heap hi.closed
  rw [hok'] at hok
  cases hok
  cases hre with
  | freed hz => omega
  | @moved _ t _ hM =>
    have ht : Live bs' t := (hM.step.live t).2 (.inr rfl)
    have hcap : h'.capacity r = 4 * t.size := by
      have hi' : Inv a ⟨h', addLive r (dropLive (addr a.start (b.hd + 1)) c.live)⟩ e' bs' fl' :=
        hi.step z' hM.step (by simp [hb]) fun q => by simp [hM.ptr, a.addr_ne_null]
      rw [hM.ptr]
      exact hi'.capacity_eq ht
    refine ⟨?_, ?_, ?_⟩
    · rw [hM.ptr]
      exact a.addr_ne_null _
    · rw [hcap]
      exact hM.fits
    · intro x hx
      rw [hi.capacity_eq hb] at hx
      exact hM.byte_eq (by omega) (by omega)

def neighbours (h : Heap) : Except Fault (Heap × Nat × Nat) := do
  let (h, _) ← (h.memInit smallArena).memResetBrk.mmInit
  let (h, p) ← h.mmMalloc 100
  let (h, q) ← h.mmMalloc 100
  .ok (h, p, q)

theorem neighbours_spec {f : Heap → Nat → Option Nat} {m : Nat}
    (htest : (neighbours ⟨fun _ => 0, 0, 0, 0, 0, 0, 0⟩).toOption.bind (fun v => f v.1 v.2.1) = some m) :
    ∃ (c : Client) (p : Nat), (allocator smallArena).Reach Client.Fits c ∧ (p ≠ NULL → p ∈ c.live) ∧
      f c.heap p = some m := by
  generalize (⟨fun _ => 0, 0, 0, 0, 0, 0, 0⟩ : Heap) = h₀ at htest
  obtain ⟨_, _, _, hspec⟩ := mmInit_spec smallArena.start_pos smallArena.fits
  obtain ⟨h₁, hinit, -⟩ := hspec (h₀.memInit smallArena).memResetBrk rfl rfl rfl
  rcases hok : neighbours h₀ with fault | ⟨h, p, q⟩
  · rw [hok] at htest; cases htest
  rw [hok] at htest
  unfold neighbours at hok
  simp only [hinit, bind_eq_ok, Except.ok.injEq, Prod.exists, Prod.mk.injEq] at hok
  obtain ⟨h₂, _, ⟨rfl, rfl⟩, h₃, p', h1, h₄, q', h2, rfl, rfl, rfl⟩ := hok
  have hr := ((Reachable.init hinit).call (.malloc (by decide) h1)).call (.malloc (by decide) h2)
  exact ⟨_, p', hr.reach, fun h0 => by simp [h0], htest⟩

/-- The first of two neighbours has to move when it grows. -/
theorem realloc_keeps_data_moved : ∃ (c : Client) (h' : Heap) (p r : Nat), p ∈ c.live ∧ r ≠ p ∧
    c.heap.mmReallocWrapped p 5000 5000 = .ok (h', r) ∧ 5000 ≤ h'.capacity r ∧
    ∀ x < min (c.heap.capacity p) 5000, h'.mem (r + x) = c.heap.mem (p + x) := by
  obtain ⟨c, p, hr, hlive, htest⟩ := neighbours_spec (m := 4328)
    (f := fun h p => if p ≠ NULL ∧ p ≠ 4328 then (h.mmReallocWrapped p 5000 5000).toOption.map Prod.snd else none)
    (by decide +kernel)
  split_ifs at htest with hp
  rcases hok : c.heap.mmReallocWrapped p 5000 5000 with fault | ⟨h', r⟩
  · rw [hok] at htest; cases htest
  obtain rfl : r = 4328 := by rw [hok] at htest; simpa [Except.toOption] using htest
  have hbuf : Heap.bufferSize { c.heap with previousSize := 0 } 5000 = .ok 5000 :=
    (bufferSize_congr (h := ⟨fun _ => 0, 0, 0, 0, 0, 0, 0⟩) rfl).trans (by decide +kernel)
  obtain ⟨-, h1, h2⟩ := realloc_keeps_data hr (hlive hp.1) (by decide) (by decide) hbuf hok
  exact ⟨c, h', p, 4328, hlive hp.1, hp.2.symm, hok, h1, h2⟩

/-! ### Failing -/

/-- `new_size` of `mm_realloc_wrapped`, in words. -/
def newSize (size : Nat) : Nat := align size / WORD_SIZE

/-- `size_with_buffer` of `mm_realloc_wrapped`. -/
def sizeWithBuffer (size : Nat) (bufferSize : Int) : Nat := wrap32 (newSize size + bufferSize)

/-- The tests of the three in-place paths. -/
def MergesNext (h : Heap) (bp words : Nat) : Prop :=
  u32 (h.getSize (h.nextBlockInHeap bp) + h.getSize bp + 2) ≥ words ∧
    h.getStatus (h.prevBlockInHeap bp) = TAKEN ∧ h.getStatus (h.nextBlockInHeap bp) = FREE

def MergesPrev (h : Heap) (bp words : Nat) : Prop :=
  u32 (h.getSize (h.prevBlockInHeap bp) + h.getSize bp + 2) ≥ words ∧
    h.getStatus (h.prevBlockInHeap bp) = FREE ∧ h.getStatus (h.nextBlockInHeap bp) = TAKEN

def MergesBoth (h : Heap) (bp words : Nat) : Prop :=
  u32 (h.getSize (h.prevBlockInHeap bp) + h.getSize (h.nextBlockInHeap bp) + h.getSize bp + 4) ≥ words ∧
    h.getStatus (h.prevBlockInHeap bp) = FREE ∧ h.getStatus (h.nextBlockInHeap bp) = FREE

/-- `mm_realloc_wrapped` comes to its last path, and `mm_malloc` returns `NULL` there. -/
structure Refused (h : Heap) (p size : Nat) (k : Int) : Prop where
  grows : newSize size > h.getSize (p - WORD_SIZE)
  noStay : ¬ (sizeWithBuffer size k = h.getSize (p - WORD_SIZE) ∧ newSize size ≤ sizeWithBuffer size k)
  noNext : ¬ MergesNext h (p - WORD_SIZE) (sizeWithBuffer size k)
  noPrev : ¬ MergesPrev h (p - WORD_SIZE) (sizeWithBuffer size k)
  noBoth : ¬ MergesBoth h (p - WORD_SIZE) (sizeWithBuffer size k)
  null : ∃ h', h.mmMalloc (u32 (u32 (sizeWithBuffer size k * WORD_SIZE) + WORD_SIZE)) = .ok (h', NULL)

instance : Decidable (MergesNext h p n) := inferInstanceAs (Decidable (_ ∧ _ ∧ _))
instance : Decidable (MergesPrev h p n) := inferInstanceAs (Decidable (_ ∧ _ ∧ _))
instance : Decidable (MergesBoth h p n) := inferInstanceAs (Decidable (_ ∧ _ ∧ _))

theorem returns_iff {y : Except Fault (Heap × Nat)} :
    y.toOption.map Prod.snd = some r ↔ ∃ h', y = .ok (h', r) := by
  rcases y with f | ⟨h', r'⟩ <;> simp [Except.toOption]

instance : Decidable (Refused h p size k) :=
  decidable_of_iff (newSize size > h.getSize (p - WORD_SIZE) ∧
      ¬ (sizeWithBuffer size k = h.getSize (p - WORD_SIZE) ∧ newSize size ≤ sizeWithBuffer size k) ∧
      ¬ MergesNext h (p - WORD_SIZE) (sizeWithBuffer size k) ∧
      ¬ MergesPrev h (p - WORD_SIZE) (sizeWithBuffer size k) ∧
      ¬ MergesBoth h (p - WORD_SIZE) (sizeWithBuffer size k) ∧
      (h.mmMalloc (u32 (u32 (sizeWithBuffer size k * WORD_SIZE) + WORD_SIZE))).toOption.map Prod.snd = some NULL)
    ⟨fun ⟨h1, h2, h3, h4, h5, h6⟩ => ⟨h1, h2, h3, h4, h5, returns_iff.1 h6⟩,
      fun ⟨h1, h2, h3, h4, h5, h6⟩ => ⟨h1, h2, h3, h4, h5, returns_iff.2 h6⟩⟩

/-- The reallocation returns `NULL` and leaves everything as it was. -/
def FailsCleanly (h : Heap) (p size : Nat) (k : Int) : Prop := h.mmReallocWrapped p size k = .ok (h, NULL)

/-- **A refused reallocation never fails cleanly**: `mm_realloc_wrapped` compares `NULL - 1` with `NULL`
and copies the payload to `NULL`. -/
theorem never_fails_cleanly (hp : p ≠ NULL) (hr : Refused h p size k) :
    h.mmReallocWrapped p size k = .error .copyToNull ∧ ¬ FailsCleanly h p size k := by
  obtain ⟨hgrow, hstay, hnext, hprev, hboth, h', hm⟩ := hr
  have hfault : h.mmReallocWrapped p size k = .error .copyToNull := by
    rw [mmReallocWrapped_eq hp]
    simp only []
    unfold MergesNext at hnext
    unfold MergesPrev at hprev
    unfold MergesBoth at hboth
    unfold sizeWithBuffer newSize at *
    rw [if_neg hstay, if_neg (by omega), if_pos hgrow, if_neg hnext, if_neg hprev, if_neg hboth]
    exact moveFresh_refused hm
  refine ⟨hfault, fun hc => ?_⟩
  unfold FailsCleanly at hc
  rw [hfault] at hc
  cases hc

theorem refused_grow : ∃ (c : Client) (p : Nat), (allocator smallArena).Reach Client.Fits c ∧ p ∈ c.live ∧
    Refused c.heap p MAX_HEAP 20972000 := by
  obtain ⟨c, p, hr, hlive, htest⟩ := neighbours_spec (m := 0)
    (f := fun h p => if p ≠ NULL ∧ Refused h p MAX_HEAP 20972000 then some 0 else none) (by decide +kernel)
  split_ifs at htest with hp
  exact ⟨c, p, hr, hlive hp.1, hp.2⟩

theorem never_fails_cleanly_grow : ∃ (c : Client) (p : Nat), p ∈ c.live ∧
    Refused c.heap p MAX_HEAP 20972000 ∧ c.heap.mmReallocWrapped p MAX_HEAP 20972000 = .error .copyToNull := by
  obtain ⟨c, p, hr, hp, href⟩ := refused_grow
  obtain ⟨e, bs, fl, hi⟩ := reach_inv hr
  exact ⟨c, p, hp, href, (never_fails_cleanly (hi.ne_null hp) href).1⟩

/-- So a reallocation may be refused and not fail cleanly. -/
theorem copies_to_null : ¬ ∀ (c : Client) (p size : Nat) (k : Int), (allocator smallArena).Reach Client.Fits c →
    p ∈ c.live → Refused c.heap p size k → FailsCleanly c.heap p size k := by
  intro hall
  obtain ⟨c, p, hr, hlive, htest⟩ := neighbours_spec (m := 0)
    (f := fun h p => if p ≠ NULL ∧ Refused h p MAX_HEAP 20972000 ∧
      (h.mmReallocWrapped p MAX_HEAP 20972000).toOption.map Prod.snd = none then some 0 else none)
    (by decide +kernel)
  split_ifs at htest with h1
  obtain ⟨hp, href, hnone⟩ := h1
  have hc : c.heap.mmReallocWrapped p MAX_HEAP 20972000 = .ok (c.heap, NULL) := hall c p _ _ hr (hlive hp) href
  rw [hc] at hnone
  cases hnone

end CsappLab.Malloc
