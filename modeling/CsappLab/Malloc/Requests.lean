import CsappLab.Malloc.Contract
import CsappLab.Lib.Machine

/-!
# Requests of any size

The runs of `Run` ask for at most `MAX_HEAP` bytes. Here a request is any `size_t`, and `Client.Fits`
says of it that no step of its size arithmetic wraps around: the rounding in `mm_malloc`, the bytes that
`extend_heap` asks for, and the sum with the buffer in `mm_realloc`. In runs of such requests every
pointer that is returned has room for the request, and `mm_realloc` keeps the data.
-/

namespace CsappLab.Malloc
open ByteMem CInt Linked

/-- A call of the client, or a byte that it writes. -/
inductive Op
  | malloc (size : Nat)
  | free (p : Nat)
  | realloc (p size : Nat)
  | write (x : Nat) (v : UInt8)

def Heap.perform (h : Heap) : Op → Except Fault (Heap × Nat)
  | .malloc size => h.mmMalloc size
  | .free p => do
    let h ← h.mmFree p
    .ok (h, NULL)
  | .realloc p size => h.mmRealloc p size
  | .write x v => .ok ({ h with mem := store8 h.mem x v }, NULL)

def Op.live (r : Nat) (live : List Nat) : Op → List Nat
  | .malloc _ => addLive r live
  | .free p => dropLive p live
  | .realloc p _ => addLive r (dropLive p live)
  | .write _ _ => live

def Client.exec (c : Client) (op : Op) : Except Fault (Client × Nat) := do
  let (h, r) ← c.heap.perform op
  .ok (⟨h, op.live r c.live⟩, r)

/-- The client frees and reallocates its live pointers, reallocates `NULL`, and writes into its payloads. -/
def Client.Legal (c : Client) : Op → Prop
  | .malloc _ => True
  | .free p => p ∈ c.live
  | .realloc p _ => p = NULL ∨ p ∈ c.live
  | .write x _ => ∃ p ∈ c.live, c.heap.Payload p x

/-- The size arithmetic of the request does not wrap around. -/
def Client.Fits (c : Client) : Op → Prop
  | .malloc size => size ≤ 2 ^ 32 - 16
  | .realloc _ size => c.heap.ReallocFits size
  | _ => True

/-- The allocator and its client after `mem_init`, `mem_reset_brk` and `mm_init`. -/
def allocator (a : Arena) : Machine Client Op where
  init c := ∃ h : Heap, (h.memInit a).memResetBrk.mmInit = .ok (c.heap, 0) ∧ c.live = []
  step c op c' := c.Legal op ∧ ∃ r, c.exec op = .ok (c', r)

variable {a : Arena} {c c' : Client} {op : Op} {e size p r x : Nat} {h h' : Heap} {bs : List Blk}
  {fl : Nat → List Blk} {b t : Blk}

/-! ### One request -/

def Op.previous (prev : Int) : Op → Int
  | .realloc _ size => i32 size
  | _ => prev

def Op.IsRealloc : Op → Prop
  | .realloc _ _ => True
  | _ => False

theorem mmReallocWrapped_null (h : Heap) (size : Nat) (k : Int) :
    h.mmReallocWrapped NULL size k = .ok (h, NULL) := by
  unfold Heap.mmReallocWrapped
  rw [if_pos rfl]
  exact mmMalloc_zero h

theorem mmRealloc_null (h : Heap) (size : Nat) : h.mmRealloc NULL size =
    (h.bufferSize size).bind fun _ => .ok ({ h with previousSize := i32 size }, NULL) := by
  unfold Heap.mmRealloc
  cases h.bufferSize size with
  | error f => rfl
  | ok k => simp only [bind, Except.bind, mmReallocWrapped_null]

theorem addLive_null (live : List Nat) : addLive NULL live = live := if_pos rfl

namespace Inv

theorem dropLive_null (hi : Inv a c e bs fl) : dropLive NULL c.live = c.live := by
  unfold dropLive
  rw [List.filter_eq_self]
  intro q hq
  simpa using hi.ne_null hq

theorem setPrevious {live : List Nat} (hi : Inv a ⟨h, live⟩ e bs fl) (prev : Int) :
    Inv a ⟨{ h with previousSize := prev }, live⟩ e bs fl := ⟨hi.closed.setPrevious prev, hi.live⟩

/-- **One request.** It fails or succeeds, returns the same pointer and leaves the same layout on all
heaps with the same layout and live pointers; `mm_realloc` also looks at `previous_size`. -/
theorem exec (hi : Inv a c e bs fl) (hl : c.Legal op) (hf : c.Fits op) :
    (op.IsRealloc ∧ ∃ f, ∀ g, Inv a g e bs fl → g.live = c.live →
      g.heap.previousSize = c.heap.previousSize → g.exec op = .error f) ∨
    ∃ r live' e' bs' fl', ∀ g, Inv a g e bs fl → g.live = c.live →
      (op.IsRealloc → g.heap.previousSize = c.heap.previousSize) → ∃ g', g.exec op = .ok (g', r) ∧
        Inv a g' e' bs' fl' ∧ g'.live = live' ∧ g'.heap.previousSize = op.previous g.heap.previousSize := by
  obtain ⟨h, live⟩ := c
  cases op with
  | malloc size =>
    obtain ⟨r, e', bs', fl', -, hspec⟩ := hi.malloc hf
    refine .inr ⟨r, addLive r live, e', bs', fl', ?_⟩
    rintro ⟨g, _⟩ hg rfl -
    obtain ⟨g', hok, hi', hprev⟩ := hspec g hg
    refine ⟨⟨g', _⟩, ?_, hi', rfl, hprev⟩
    simp only [Client.exec, Heap.perform, hok, bind, Except.bind]
    rfl
  | free p =>
    obtain ⟨bs', fl', hspec⟩ := hi.free hl
    refine .inr ⟨NULL, dropLive p live, e, bs', fl', ?_⟩
    rintro ⟨g, _⟩ hg rfl -
    obtain ⟨g', hok, hi', hprev⟩ := hspec g hg
    refine ⟨⟨g', _⟩, ?_, hi', rfl, hprev⟩
    simp only [Client.exec, Heap.perform, hok, bind, Except.bind]
    rfl
  | realloc p size =>
    rcases hl with rfl | hp
    · -- `mm_realloc(NULL, size)`
      rcases hb : h.bufferSize size with f | k
      · refine .inl ⟨trivial, f, ?_⟩
        rintro ⟨g, _⟩ hg rfl hprev
        simp only [Client.exec, Heap.perform, mmRealloc_null, bufferSize_congr hprev, hb, bind, Except.bind]
      · refine .inr ⟨NULL, live, e, bs, fl, ?_⟩
        rintro ⟨g, _⟩ hg rfl hprev
        refine ⟨⟨{ g with previousSize := i32 size }, _⟩, ?_, hg.setPrevious _, rfl, rfl⟩
        simp only [Client.exec, Heap.perform, mmRealloc_null, bufferSize_congr (hprev trivial), hb, bind,
          Except.bind, Op.live, addLive_null]
        rw [hi.dropLive_null]
    · rcases hi.realloc hp hf with ⟨f, hspec⟩ | ⟨r, e', bs', fl', -, hspec⟩
      · refine .inl ⟨trivial, f, ?_⟩
        rintro ⟨g, _⟩ hg rfl hprev
        simp only [Client.exec, Heap.perform, hspec g hg hprev, bind, Except.bind]
      · refine .inr ⟨r, addLive r (dropLive p live), e', bs', fl', ?_⟩
        rintro ⟨g, _⟩ hg rfl hprev
        obtain ⟨g', hok, hi', hprev'⟩ := hspec g hg (hprev trivial)
        refine ⟨⟨g', _⟩, ?_, hi', rfl, hprev'⟩
        simp only [Client.exec, Heap.perform, hok, bind, Except.bind]
        rfl
  | write x v =>
    obtain ⟨p, hp, hx⟩ := hl
    obtain ⟨b, hb, rfl⟩ := hi.block hp
    refine .inr ⟨NULL, live, e, bs, fl, ?_⟩
    rintro ⟨g, _⟩ hg rfl -
    exact ⟨_, rfl, hg.write hp ((hg.payload_iff hb).2 ((hi.payload_iff hb).1 hx)), rfl, rfl⟩

end Inv

/-- **The invariant holds in every run of requests that do not wrap.** -/
theorem reach_inv (hr : (allocator a).Reach Client.Fits c) : ∃ e bs fl, Inv a c e bs fl := by
  refine hr.invariant (I := fun c => ∃ e bs fl, Inv a c e bs fl) ?_ ?_
  · rintro ⟨h, live⟩ ⟨h₀, hinit, hlive⟩
    obtain rfl : live = [] := hlive
    exact Inv.init hinit
  · rintro c op c' ⟨e, bs, fl, hi⟩ hf ⟨hl, r, hx⟩
    rcases hi.exec hl hf with ⟨-, f, hspec⟩ | ⟨r', live', e', bs', fl', hspec⟩
    · rw [hspec c hi rfl rfl] at hx
      cases hx
    · obtain ⟨g', hok, hi', -⟩ := hspec c hi rfl fun _ => rfl
      rw [hok] at hx
      cases hx
      exact ⟨e', bs', fl', hi'⟩

end CsappLab.Malloc
