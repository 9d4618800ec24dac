import CsappLab.Lib.Allocator

/-!
# Arrays

What an allocator is for: its client owns byte arrays that have nothing to do with each other. An array is
known by its pointer, keeps its bytes until its owner writes them, and takes them along when it is
reallocated. A package that meets the contract refines this machine (`Contract.refines`).
-/

namespace Alloc
open ByteMem

structure Arr where
  ptr : Nat
  bytes : List UInt8

def bytesAt (m : Mem) (p n : Nat) : List UInt8 := (List.range n).map fun i => m (p + i)

def Block.arr (m : Mem) (b : Block) : Arr := ⟨b.ptr, bytesAt m b.ptr b.size⟩

def dropArr (p : Nat) (as : List Arr) : List Arr := as.filter (·.ptr ≠ p)

/-- What a request does to the arrays of the client. A new array may be anywhere and hold anything. -/
inductive ArrStep : List Arr → Request → List Arr → Prop
  | refuseMalloc {as : List Arr} {n : Nat} : ArrStep as (.malloc n) as
  | malloc {as : List Arr} {a : Arr} {n : Nat} : a.ptr ≠ 0 → a.ptr ∉ as.map Arr.ptr → a.bytes.length = n →
      ArrStep as (.malloc n) (a :: as)
  | free {as : List Arr} {b : Block} : b.ptr ∈ as.map Arr.ptr → ArrStep as (.free b) (dropArr b.ptr as)
  | refuseRealloc {as : List Arr} {b : Block} {n : Nat} : ArrStep as (.realloc b n) as
  | realloc {as : List Arr} {a d : Arr} {b : Block} {n : Nat} : a ∈ as → a.ptr = b.ptr → d.ptr ≠ 0 →
      d.ptr ∉ (dropArr b.ptr as).map Arr.ptr → d.bytes.length = n → d.bytes.take a.bytes.length = a.bytes.take n →
      ArrStep as (.realloc b n) (d :: dropArr b.ptr as)
  | write {as : List Arr} {b : Block} {m : Mem} : b.ptr ∈ as.map Arr.ptr →
      ArrStep as (.write b m) (as.map fun a => if a.ptr = b.ptr then ⟨a.ptr, bytesAt m a.ptr a.bytes.length⟩ else a)

def arrays : Machine (List Arr) Request where
  init as := as = []
  step := ArrStep

def contents {σ ε : Type} (P : Package σ ε) (c : Client σ) : List Arr := c.live.map (Block.arr (P.mem c.heap))

variable {σ ε : Type} {P : Package σ ε} {s s' : σ} {live : List Block} {b d : Block} {align limit p n x : Nat}
  {Inv : σ → List Block → Prop} {m m' : Mem} {start : σ → Prop}

@[simp] theorem length_bytesAt : (bytesAt m p n).length = n := by
  simp [bytesAt]

theorem bytesAt_congr (h : ∀ i < n, m' (p + i) = m (p + i)) : bytesAt m' p n = bytesAt m p n :=
  List.map_congr_left fun i hi => h i (List.mem_range.1 hi)

theorem take_bytesAt {k q : Nat} (h : ∀ i < k, i < n → m' (q + i) = m (p + i)) :
    (bytesAt m' q n).take k = (bytesAt m p k).take n := by
  refine List.ext_getElem (by simp [Nat.min_comm]) fun i h1 h2 => ?_
  rw [List.length_take, length_bytesAt] at h1
  simpa [bytesAt] using h i (by omega) (by omega)

theorem Keeps.contents (hk : Keeps P s s' live) : contents P ⟨s', live⟩ = contents P ⟨s, live⟩ :=
  List.map_congr_left fun b hb => congrArg (Arr.mk b.ptr) (bytesAt_congr fun i hi => hk b hb _ ⟨by omega, by omega⟩)

theorem contents_dropPtr : contents P ⟨s, dropPtr p live⟩ = dropArr p (contents P ⟨s, live⟩) := by
  unfold contents dropPtr dropArr
  rw [List.filter_map]
  rfl

@[simp] theorem contents_ptr : (contents P ⟨s, live⟩).map Arr.ptr = live.map Block.ptr := by
  unfold contents
  rw [List.map_map]
  rfl

namespace Contract

/-- A block that joins others has a pointer of its own. -/
theorem fresh (hc : Contract P align limit Inv) (hi : Inv s (b :: live)) : b.ptr ∉ live.map Block.ptr := by
  intro hb
  obtain ⟨d, hd, he⟩ := List.mem_map.1 hb
  have h1 := (hc.nonempty hi (b := b) (by simp)).1
  have h2 := (hc.nonempty hi (b := d) (by simp [hd])).1
  have hap := List.rel_of_pairwise_cons (hc.apart hi) hd
  unfold Block.Apart at hap
  omega

theorem write_contents (hc : Contract P align limit Inv) (hi : Inv s live) (hb : b ∈ live)
    (hm : ∀ x, ¬ b.Has x → m x = P.mem s x) : contents P ⟨P.setMem s m, live⟩ =
      (contents P ⟨s, live⟩).map fun a => if a.ptr = b.ptr then ⟨a.ptr, bytesAt m a.ptr a.bytes.length⟩ else a := by
  unfold contents
  rw [List.map_map]
  refine List.map_congr_left fun d hd => ?_
  simp only [hc.mem_setMem, Function.comp, Block.arr, length_bytesAt]
  split_ifs with he
  · rfl
  · have hap : b.Apart d := (hc.apart hi).forall hb hd fun h => he (congrArg Block.ptr h.symm)
    exact congrArg _ (bytesAt_congr fun i hi => hm _ (hap.symm.not_has ⟨by omega, by omega⟩))

/-- **One request** does to the arrays of the client what it says. -/
theorem arrStep {c c' : Client σ} {q : Request} (hc : Contract P align limit Inv) (hi : Inv c.heap c.live)
    (hs : Serves P limit c q c') : ArrStep (contents P c) q (contents P c') := by
  cases hs with
  | @malloc h h' live n p h0 hn hok =>
    obtain ⟨_, _, hok', hk, -, hnew⟩ := hc.malloc hi h0 hn
    rw [hok] at hok'
    cases hok'
    unfold addBlock
    split_ifs with hp
    · rw [hk.contents]
      exact .refuseMalloc
    · have hfresh := hc.fresh (hnew hp)
      rw [← contents_ptr (P := P) (s := h)] at hfresh
      rw [← hk.contents] at hfresh ⊢
      exact .malloc (a := Block.arr _ ⟨p, n⟩) hp hfresh length_bytesAt
  | @free h h' live b hb hok =>
    obtain ⟨_, hok', hk, -⟩ := hc.free hi hb
    rw [hok] at hok'
    cases hok'
    rw [hk.contents, contents_dropPtr]
    exact .free (by rw [contents_ptr]; exact List.mem_map_of_mem hb)
  | @realloc h h' live b n p hb h0 hn hok =>
    rcases hc.realloc hi hb h0 hn with ⟨f, hf⟩ | ⟨_, _, hok', hk, hnull, hnew⟩
    · rw [hok] at hf
      cases hf
    rw [hok] at hok'
    cases hok'
    split_ifs with hp
    · rw [(hnull hp).2.contents]
      exact .refuseRealloc
    · have hfresh := hc.fresh (hnew hp).1
      rw [← contents_ptr (P := P) (s := h), contents_dropPtr] at hfresh
      have hrest := hk.contents
      rw [contents_dropPtr (s := h)] at hrest
      have hcons : contents P ⟨h', ⟨p, n⟩ :: dropPtr b.ptr live⟩ =
          Block.arr (P.mem h') ⟨p, n⟩ :: dropArr b.ptr (contents P ⟨h, live⟩) := by
        rw [← hrest]
        rfl
      rw [hcons]
      refine .realloc (a := Block.arr (P.mem h) b) (List.mem_map_of_mem hb) rfl hp hfresh length_bytesAt ?_
      simp only [Block.arr, length_bytesAt]
      exact take_bytesAt (hnew hp).2
  | write hb hm =>
    rw [hc.write_contents hi hb hm]
    exact .write (by rw [contents_ptr]; exact List.mem_map_of_mem hb)

/-- **A package that meets the contract refines the arrays**: every run of its client is a run of the arrays
with the same requests, and ends with the arrays that stand in the heap. -/
theorem refines {c c' : Client σ} {qs : List Request} (hc : Contract P align limit Inv) (hi : Inv c.heap c.live)
    (hs : (clients P limit start).Steps c qs c') :
    arrays.Steps (contents P c) qs (contents P c') ∧ Inv c'.heap c'.live := by
  obtain ⟨as, hsteps, rfl, hi'⟩ := hs.refine (N := arrays) (R := fun c as => as = contents P c ∧ Inv c.heap c.live) ⟨rfl, hi⟩
    fun c q c' as hr hst => ⟨_, hr.1 ▸ hc.arrStep hr.2 hst, rfl, hc.serves hr.2 hst⟩
  exact ⟨hsteps, hi'⟩

end Contract

end Alloc
