import CsappLab.Lib.ByteMem
import CsappLab.Lib.Machine

/-!
# Allocators

A package of `malloc`, `free` and `realloc` over a simulated memory, and what a client may rely on
(`Contract`): a live block is a pointer with the number of bytes that were asked for, `Inv s live` says that
the package is in order and has handed out the blocks `live`, and every operation keeps it. The pointer `0`
stands for failure.
-/

namespace Alloc
open ByteMem

/-- `init` prepares an empty heap and returns a status; a client writes with `setMem`. -/
structure Package (σ ε : Type) where
  init : σ → Except ε (σ × Int)
  malloc : σ → Nat → Except ε (σ × Nat)
  free : σ → Nat → Except ε σ
  realloc : σ → Nat → Nat → Except ε (σ × Nat)
  mem : σ → Mem
  setMem : σ → Mem → σ
  heapLo : σ → Nat
  heapHi : σ → Nat

structure Block where
  ptr : Nat
  size : Nat
deriving DecidableEq

def Block.Has (b : Block) (x : Nat) : Prop := b.ptr ≤ x ∧ x < b.ptr + b.size

def Block.Apart (b d : Block) : Prop := b.ptr + b.size ≤ d.ptr ∨ d.ptr + d.size ≤ b.ptr

def dropPtr (p : Nat) (live : List Block) : List Block := live.filter (·.ptr ≠ p)

def Keeps {σ ε : Type} (P : Package σ ε) (s s' : σ) (live : List Block) : Prop :=
  ∀ b ∈ live, ∀ x, b.Has x → P.mem s' x = P.mem s x

/-- **The contract** of an allocator, for requests of at most `limit` bytes. -/
structure Contract {σ ε : Type} (P : Package σ ε) (align limit : Nat) (Inv : σ → List Block → Prop) : Prop where
  nonempty : ∀ {s live b}, Inv s live → b ∈ live → 0 < b.size ∧ b.ptr ≠ 0
  aligned : ∀ {s live b}, Inv s live → b ∈ live → align ∣ b.ptr
  inside : ∀ {s live b}, Inv s live → b ∈ live → P.heapLo s ≤ b.ptr ∧ b.ptr + b.size ≤ P.heapHi s + 1
  apart : ∀ {s live}, Inv s live → live.Pairwise Block.Apart
  malloc : ∀ {s live n}, Inv s live → 0 < n → n ≤ limit → ∃ s' p, P.malloc s n = .ok (s', p) ∧
    Keeps P s s' live ∧ (p = 0 → Inv s' live) ∧ (p ≠ 0 → Inv s' (⟨p, n⟩ :: live))
  free : ∀ {s live b}, Inv s live → b ∈ live → ∃ s', P.free s b.ptr = .ok s' ∧
    Keeps P s s' (dropPtr b.ptr live) ∧ Inv s' (dropPtr b.ptr live)
  /-- It fails, or returns `0` and changes nothing, or moves the data. -/
  realloc : ∀ {s live b n}, Inv s live → b ∈ live → 0 < n → n ≤ limit → (∃ f, P.realloc s b.ptr n = .error f) ∨
    ∃ s' p, P.realloc s b.ptr n = .ok (s', p) ∧ Keeps P s s' (dropPtr b.ptr live) ∧
      (p = 0 → Inv s' live ∧ Keeps P s s' live) ∧
      (p ≠ 0 → Inv s' (⟨p, n⟩ :: dropPtr b.ptr live) ∧
        ∀ i < b.size, i < n → P.mem s' (p + i) = P.mem s (b.ptr + i))
  /-- A client writes into its blocks. -/
  write : ∀ {s live b m}, Inv s live → b ∈ live → (∀ x, ¬ b.Has x → m x = P.mem s x) → Inv (P.setMem s m) live
  mem_setMem : ∀ s m, P.mem (P.setMem s m) = m

/-- The contract of a package that also takes null pointers and sizes of zero, and whose `realloc` does not fail. -/
structure FullContract {σ ε : Type} (P : Package σ ε) (align limit : Nat) (Inv : σ → List Block → Prop) : Prop
    extends Contract P align limit Inv where
  free_null : ∀ s, P.free s 0 = .ok s
  realloc_null : ∀ s n, 0 < n → P.realloc s 0 n = P.malloc s n
  realloc_zero : ∀ s p, P.realloc s p 0 = (P.free s p).map fun s' => (s', 0)
  realloc_ok : ∀ {s live b n}, Inv s live → b ∈ live → 0 < n → n ≤ limit → ∀ f, P.realloc s b.ptr n ≠ .error f
  setMem_mem : ∀ s, P.setMem s (P.mem s) = s

variable {σ ε : Type} {P : Package σ ε} {s s' : σ} {live : List Block} {b d : Block} {align limit p x : Nat}
  {Inv : σ → List Block → Prop}

theorem mem_dropPtr : d ∈ dropPtr p live ↔ d ∈ live ∧ d.ptr ≠ p := by
  simp [dropPtr]

theorem Block.Apart.symm (h : b.Apart d) : d.Apart b := Or.symm h

theorem Block.Apart.not_has (h : b.Apart d) (hb : b.Has x) : ¬ d.Has x := by
  unfold Block.Apart at h
  unfold Block.Has at *
  omega

instance : Std.Symm Block.Apart := ⟨fun _ _ => Block.Apart.symm⟩

theorem sum_size_le {lo hi : Nat} (hap : live.Pairwise Block.Apart)
    (hin : ∀ b ∈ live, lo ≤ b.ptr ∧ b.ptr + b.size ≤ hi) : (live.map Block.size).sum ≤ hi - lo := by
  obtain ⟨bytes, hmem, hcard⟩ : ∃ bytes : Finset Nat, (∀ x, x ∈ bytes ↔ ∃ b ∈ live, b.Has x) ∧
      bytes.card = (live.map Block.size).sum := by
    clear hin
    induction live with
    | nil => exact ⟨∅, by simp⟩
    | cons b live ih =>
      obtain ⟨hb, hap⟩ := List.pairwise_cons.1 hap
      obtain ⟨bytes, hmem, hcard⟩ := ih hap
      have hdisj : Disjoint (Finset.Ico b.ptr (b.ptr + b.size)) bytes := by
        refine Finset.disjoint_left.2 fun x hx hx' => ?_
        obtain ⟨d, hd, hhas⟩ := (hmem x).1 hx'
        exact (hb d hd).not_has (Finset.mem_Ico.1 hx) hhas
      refine ⟨Finset.Ico b.ptr (b.ptr + b.size) ∪ bytes, fun x => ?_, ?_⟩
      · rw [Finset.mem_union, Finset.mem_Ico, hmem]
        simp [Block.Has]
      · rw [Finset.card_union_of_disjoint hdisj, hcard, Nat.card_Ico, Nat.add_sub_cancel_left, List.map_cons,
          List.sum_cons]
  rw [← hcard, ← Nat.card_Ico]
  refine Finset.card_le_card fun x hx => ?_
  obtain ⟨b, hb, hhas⟩ := (hmem x).1 hx
  have := hin b hb
  unfold Block.Has at hhas
  exact Finset.mem_Ico.2 (by omega)

namespace Contract

theorem ptr_inj (hc : Contract P align limit Inv) (hi : Inv s live) (hb : b ∈ live) (hd : d ∈ live)
    (he : b.ptr = d.ptr) : b = d := by
  by_contra hne
  have h1 := (hc.nonempty hi hb).1
  have h2 := (hc.nonempty hi hd).1
  have hap := (hc.apart hi).forall hb hd hne
  unfold Block.Apart at hap
  omega

end Contract

/-! ### Clients -/

structure Client (σ : Type) where
  heap : σ
  live : List Block

/-- What a client does with its blocks. -/
inductive Request
  | malloc (n : Nat)
  | free (b : Block)
  | realloc (b : Block) (n : Nat)
  | write (b : Block) (m : Mem)

/-- The live blocks after a request that has returned `p`. -/
def addBlock (p n : Nat) (live : List Block) : List Block := if p = 0 then live else ⟨p, n⟩ :: live

/-- A client of the package: it asks for `1` to `limit` bytes, and frees, reallocates and writes its own blocks. -/
inductive Serves (P : Package σ ε) (limit : Nat) : Client σ → Request → Client σ → Prop
  | malloc {h h' : σ} {live : List Block} {n p : Nat} : 0 < n → n ≤ limit → P.malloc h n = .ok (h', p) →
      Serves P limit ⟨h, live⟩ (.malloc n) ⟨h', addBlock p n live⟩
  | free {h h' : σ} {live : List Block} {b : Block} : b ∈ live → P.free h b.ptr = .ok h' →
      Serves P limit ⟨h, live⟩ (.free b) ⟨h', dropPtr b.ptr live⟩
  | realloc {h h' : σ} {live : List Block} {b : Block} {n p : Nat} : b ∈ live → 0 < n → n ≤ limit →
      P.realloc h b.ptr n = .ok (h', p) →
      Serves P limit ⟨h, live⟩ (.realloc b n) ⟨h', if p = 0 then live else ⟨p, n⟩ :: dropPtr b.ptr live⟩
  | write {h : σ} {live : List Block} {b : Block} {m : Mem} : b ∈ live → (∀ x, ¬ b.Has x → m x = P.mem h x) →
      Serves P limit ⟨h, live⟩ (.write b m) ⟨P.setMem h m, live⟩

/-- The requests that a client may make. -/
def Asks (P : Package σ ε) (limit : Nat) (c : Client σ) : Request → Prop
  | .malloc n => 0 < n ∧ n ≤ limit
  | .free b => b ∈ c.live
  | .realloc b n => b ∈ c.live ∧ 0 < n ∧ n ≤ limit
  | .write b m => b ∈ c.live ∧ ∀ x, ¬ b.Has x → m x = P.mem c.heap x

/-- The package and its client, from a heap that `init` has prepared. -/
def clients (P : Package σ ε) (limit : Nat) (start : σ → Prop) : Machine (Client σ) Request where
  init c := c.live = [] ∧ ∃ h, start h ∧ P.init h = .ok (c.heap, 0)
  step := Serves P limit

/-- A request that is no write, with the answer of the package. -/
def Client.request (P : Package σ ε) (limit : Nat) (c : Client σ) : Request → Option (Client σ)
  | .malloc n =>
    if 0 < n ∧ n ≤ limit then (P.malloc c.heap n).toOption.map fun r => ⟨r.1, addBlock r.2 n c.live⟩ else none
  | .free b => if b ∈ c.live then (P.free c.heap b.ptr).toOption.map fun h => ⟨h, dropPtr b.ptr c.live⟩ else none
  | .realloc b n =>
    if b ∈ c.live ∧ 0 < n ∧ n ≤ limit then
      (P.realloc c.heap b.ptr n).toOption.map fun r =>
        ⟨r.1, if r.2 = 0 then c.live else ⟨r.2, n⟩ :: dropPtr b.ptr c.live⟩
    else none
  | .write _ _ => none

theorem toOption_eq_some {α : Type} {x : Except ε α} {a : α} (h : x.toOption = some a) : x = .ok a := by
  cases x with
  | error e => cases h
  | ok a => exact congrArg Except.ok (Option.some.inj h)

theorem Client.request_serves {c c' : Client σ} {q : Request} (h : c.request P limit q = some c') :
    Serves P limit c q c' := by
  obtain ⟨heap, live⟩ := c
  unfold request at h
  split at h
  case h_1 n =>
    split_ifs at h with hn
    obtain ⟨r, hok, rfl⟩ := Option.map_eq_some_iff.1 h
    exact .malloc hn.1 hn.2 (toOption_eq_some hok)
  case h_2 b =>
    split_ifs at h with hb
    obtain ⟨h', hok, rfl⟩ := Option.map_eq_some_iff.1 h
    exact .free hb (toOption_eq_some hok)
  case h_3 b n =>
    split_ifs at h with hb
    obtain ⟨r, hok, rfl⟩ := Option.map_eq_some_iff.1 h
    exact .realloc hb.1 hb.2.1 hb.2.2 (toOption_eq_some hok)
  case h_4 => cases h

/-- The requests lead from the heap `h` to the blocks `live`. -/
theorem exists_requests {start : σ → Prop} {h h₁ : σ} (hst : start h) (hinit : P.init h = .ok (h₁, 0))
    (qs : List Request) (hrun : (qs.foldlM (Client.request P limit) ⟨h₁, []⟩).map Client.live = some live) :
    ∃ c₀ c, (clients P limit start).init c₀ ∧ (clients P limit start).Steps c₀ qs c ∧ c.live = live := by
  obtain ⟨c, hc, hlive⟩ := Option.map_eq_some_iff.1 hrun
  exact ⟨⟨h₁, []⟩, c, ⟨rfl, h, hst, hinit⟩, .of_foldlM (fun _ _ _ => Client.request_serves) hc, hlive⟩

theorem Contract.serves {c c' : Client σ} {q : Request} (hc : Contract P align limit Inv) (hi : Inv c.heap c.live)
    (hs : Serves P limit c q c') : Inv c'.heap c'.live := by
  cases hs with
  | @malloc h h' live n p h0 hn hok =>
    obtain ⟨_, _, hok', -, hnull, hnew⟩ := hc.malloc hi h0 hn
    rw [hok] at hok'
    cases hok'
    unfold addBlock
    split_ifs with hp
    · exact hnull hp
    · exact hnew hp
  | free hb hok =>
    obtain ⟨_, hok', -, hi'⟩ := hc.free hi hb
    rw [hok] at hok'
    cases hok'
    exact hi'
  | @realloc h h' live b n p hb h0 hn hok =>
    rcases hc.realloc hi hb h0 hn with ⟨f, hf⟩ | ⟨_, _, hok', -, hnull, hnew⟩
    · rw [hok] at hf
      cases hf
    · rw [hok] at hok'
      cases hok'
      split_ifs with hp
      · exact (hnull hp).1
      · exact (hnew hp).1
  | write hb hm => exact hc.write hi hb hm

theorem Contract.answers {c : Client σ} {q : Request} (hc : Contract P align limit Inv) (hi : Inv c.heap c.live)
    (hq : Asks P limit c q) (hr : ∀ b n f, q = .realloc b n → P.realloc c.heap b.ptr n ≠ .error f) :
    ∃ c', Serves P limit c q c' := by
  obtain ⟨h, live⟩ := c
  cases q with
  | malloc n =>
    obtain ⟨h', p, hok, -⟩ := hc.malloc hi hq.1 hq.2
    exact ⟨_, .malloc hq.1 hq.2 hok⟩
  | free b =>
    obtain ⟨h', hok, -⟩ := hc.free hi hq
    exact ⟨_, .free hq hok⟩
  | realloc b n =>
    rcases hc.realloc hi hq.1 hq.2.1 hq.2.2 with ⟨f, hf⟩ | ⟨h', p, hok, -⟩
    · exact absurd hf (hr b n f rfl)
    · exact ⟨_, .realloc hq.1 hq.2.1 hq.2.2 hok⟩
  | write b m => exact ⟨_, .write hq.1 hq.2⟩

/-- **The invariant of a package holds in every run of its client.** -/
theorem Contract.run {start : σ → Prop} {c : Client σ} (hc : Contract P align limit Inv)
    (h0 : ∀ h h₁, start h → P.init h = .ok (h₁, 0) → Inv h₁ []) (hr : (clients P limit start).Reachable c) :
    Inv c.heap c.live := by
  refine hr.invariant (I := fun c => Inv c.heap c.live) ?_ fun c q c' hi _ hs => hc.serves hi hs
  rintro ⟨h₁, live⟩ ⟨rfl, h, hs, hok⟩
  exact h0 h h₁ hs hok

end Alloc
