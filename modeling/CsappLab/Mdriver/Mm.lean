import CsappLab.Malloc.Replay
import CsappLab.Malloc.Capacity
import CsappLab.Lib.Arrays
import CsappLab.Mdriver.Verdict

/-!
# The driver on the segregated allocator

`mm.c` meets the contract of an allocator for requests of at most `MAX_HEAP` bytes, on an arena that starts
at a multiple of eight. So `eval_mm_valid` blames it only when `mm_malloc` finds no room, when `mm_realloc`
divides by zero or copies to `NULL`, and when the id of a reallocation has a low byte of 128 or more.
-/

namespace CsappLab.Mdriver
open ByteMem CInt Alloc Malloc Fuel

/-- `mm.c` under the driver, which resets the break before `mm_init`. -/
def mmPackage : Package Heap Fault where
  init h := h.memResetBrk.mmInit
  malloc := Heap.mmMalloc
  free := Heap.mmFree
  realloc := Heap.mmRealloc
  mem h := h.mem
  setMem h m := { h with mem := m }
  heapLo := Heap.memHeapLo
  heapHi := Heap.memHeapHi

/-- Every block has room in the payload at its pointer, and no two share a pointer. -/
structure Rooms (h : Heap) (live : List Block) : Prop where
  once : (live.map Block.ptr).Nodup
  nonempty : ∀ b ∈ live, 0 < b.size
  room : ∀ b ∈ live, b.size ≤ h.capacity b.ptr

/-- The heap is in order, and the live blocks have room in its taken blocks. -/
structure Owns (a : Arena) (h : Heap) (live : List Block) : Prop extends Rooms h live where
  inv : ∃ e bs fl, Inv a ⟨h, live.map Block.ptr⟩ e bs fl

variable {a : Arena} {h h' : Heap} {e n p q r x size : Nat} {bs : List Blk} {fl : Nat → List Blk} {live : List Block}
  {b d : Block} {m : Mem} {i j : Nat} {ids : List Nat} {t : TraceOp} {ts : List TraceOp}

/-! ### Payloads and blocks -/

theorem payload_iff_capacity : h.Payload p x ↔ p ≤ x ∧ x < p + h.capacity p := Iff.rfl

theorem dropLive_map : dropLive p (live.map Block.ptr) = (dropPtr p live).map Block.ptr := by
  unfold dropLive dropPtr
  rw [List.filter_map]
  rfl

theorem capacity_eq_of_sameBytes (hs : SameBytes h h' p) : h'.capacity p = h.capacity p := by
  have h1 := fun x => (hs x).1
  simp only [payload_iff_capacity] at h1
  have h2 := h1 (p + h.capacity p)
  have h3 := h1 (p + h'.capacity p)
  omega

theorem realloc_data (hi : Inv a ⟨h, live.map Block.ptr⟩ e bs fl) (hp : p ∈ live.map Block.ptr) (h0 : 0 < size)
    (hs : size ≤ MAX_HEAP) (hok : h.mmRealloc p size = .ok (h', r)) :
    r ≠ NULL ∧ ∀ x < h.capacity p, x < size → h'.mem (r + x) = h.mem (p + x) := by
  obtain ⟨b, hb, rfl⟩ := hi.block hp
  rcases hi.closed.mmRealloc hb (reallocFits_of_le hs) with ⟨f, -, hf⟩ | ⟨r₁, e', bs', fl', hspec⟩
  · rw [hf _ hi.closed rfl] at hok
    cases hok
  obtain ⟨h₁, h1, z', hre, -⟩ := hspec _ hi.closed rfl
  rw [h1] at hok
  cases hok
  cases hre with
  | freed hz => omega
  | @moved _ t _ hM =>
    refine ⟨hM.ptr ▸ a.addr_ne_null _, fun x hx hxs => hM.byte_eq ?_ hxs⟩
    rwa [hi.capacity_eq hb] at hx

theorem realloc_fault {f : Fault} (hi : Inv a ⟨h, live.map Block.ptr⟩ e bs fl) (hp : p ∈ live.map Block.ptr)
    (hs : size ≤ MAX_HEAP) (hf : h.mmRealloc p size = .error f) : f = .divideByZero ∨ f = .copyToNull := by
  obtain ⟨b, hb, rfl⟩ := hi.block hp
  rcases hi.closed.mmRealloc hb (reallocFits_of_le hs) with ⟨f', hne, hspec⟩ | ⟨r₁, e', bs', fl', hspec⟩
  · rw [hspec _ hi.closed rfl] at hf
    cases hf
    cases f with
    | endlessLoop => exact absurd rfl hne
    | divideByZero => exact .inl rfl
    | copyToNull => exact .inr rfl
  · obtain ⟨h₁, h1, -⟩ := hspec _ hi.closed rfl
    rw [h1] at hf
    cases hf

theorem mem_ptr (hb : b ∈ live) : b.ptr ∈ live.map Block.ptr := List.mem_map.2 ⟨b, hb, rfl⟩

namespace Rooms

theorem has_payload (ho : Rooms h live) (hb : b ∈ live) (hx : b.Has x) : h.Payload b.ptr x := by
  have := ho.room b hb
  exact payload_iff_capacity.2 ⟨hx.1, by have := hx.2; omega⟩

theorem keeps (ho : Rooms h live) (hs : ∀ b ∈ live, SameBytes h h' b.ptr) : Keeps mmPackage h h' live :=
  fun b hb x hx => (hs b hb x).2 (ho.has_payload hb hx)

theorem congr (ho : Rooms h live) (hs : ∀ b ∈ live, SameBytes h h' b.ptr) : Rooms h' live :=
  ⟨ho.once, ho.nonempty, fun b hb => by
    rw [capacity_eq_of_sameBytes (hs b hb)]
    exact ho.room b hb⟩

theorem sub {live' : List Block} (ho : Rooms h live) (hl : live'.Sublist live) : Rooms h live' :=
  ⟨ho.once.sublist (hl.map _), fun b hb => ho.nonempty b (hl.subset hb), fun b hb => ho.room b (hl.subset hb)⟩

theorem cons (ho : Rooms h live) (hn : 0 < n) (hserved : Served h (live.map Block.ptr) r n) :
    Rooms h (⟨r, n⟩ :: live) := by
  refine ⟨List.nodup_cons.2 ⟨fun hmem => ?_, ho.once⟩, ?_, ?_⟩
  · obtain ⟨b, hb, hbr⟩ := List.mem_map.1 hmem
    have hb0 := ho.nonempty b hb
    have hpay : h.Payload b.ptr b.ptr := ho.has_payload hb ⟨le_rfl, by omega⟩
    have hbr : b.ptr = r := hbr
    rw [hbr] at hpay
    exact hserved.disjoint r hmem r hpay ⟨le_rfl, by omega⟩
  · simp only [List.mem_cons, forall_eq_or_imp]
    exact ⟨hn, ho.nonempty⟩
  · simp only [List.mem_cons, forall_eq_or_imp]
    have := payload_iff_capacity.1 (hserved.fits (r + (n - 1)) (by omega) (by omega))
    exact ⟨by omega, ho.room⟩

end Rooms

/-! ### The contract -/

namespace Owns

theorem block (ho : Owns a h live) (hi : Inv a ⟨h, live.map Block.ptr⟩ e bs fl) (hb : b ∈ live) :
    ∃ d, Live bs d ∧ b.ptr = addr a.start (d.hd + 1) ∧ b.size ≤ 4 * d.size := by
  obtain ⟨d, hd, hptr⟩ := hi.block (mem_ptr hb)
  have hroom := ho.room b hb
  rw [hptr, hi.capacity_eq hd] at hroom
  exact ⟨d, hd, hptr, hroom⟩

theorem aligned (ho : Owns a h live) (ha : 8 ∣ a.start) (hb : b ∈ live) : ALIGNMENT ∣ b.ptr := by
  obtain ⟨e, bs, fl, hi⟩ := ho.inv
  exact hi.aligned ha (mem_ptr hb)

theorem inside (ho : Owns a h live) (hb : b ∈ live) : h.memHeapLo ≤ b.ptr ∧ b.ptr + b.size ≤ h.memHeapHi + 1 := by
  obtain ⟨e, bs, fl, hi⟩ := ho.inv
  obtain ⟨d, hd, hptr, hroom⟩ := ho.block hi hb
  have := hi.closed.mem_outside (.inl hd.1)
  have := hi.closed.bounds
  unfold Heap.memHeapLo Heap.memHeapHi
  rw [hi.closed.start, hi.closed.brk, hptr]
  unfold addr Blk.fin at *
  omega

theorem apart (ho : Owns a h live) : live.Pairwise Block.Apart := by
  obtain ⟨e, bs, fl, hi⟩ := ho.inv
  refine (List.pairwise_map.1 ho.once).imp_of_mem fun {b d} hb hd hne => ?_
  obtain ⟨b', hb', hbp, hbr⟩ := ho.block hi hb
  obtain ⟨d', hd', hdp, hdr⟩ := ho.block hi hd
  have := hi.closed.before.apart (by simp [hb'.1]) (by simp [hd'.1]) fun h1 : b' = d' => hne (by rw [hbp, hdp, h1])
  unfold Blk.Apart Blk.fin at this
  unfold Block.Apart
  rw [hbp, hdp]
  unfold addr
  omega

theorem malloc (ho : Owns a h live) (ha : 8 ∣ a.start) (h0 : 0 < n) (hn : n ≤ MAX_HEAP) :
    ∃ h' p, h.mmMalloc n = .ok (h', p) ∧ Keeps mmPackage h h' live ∧ (p = 0 → Owns a h' live) ∧
      (p ≠ 0 → Owns a h' (⟨p, n⟩ :: live)) := by
  obtain ⟨e, bs, fl, hi⟩ := ho.inv
  have hMAX : MAX_HEAP = 20971520 := rfl
  obtain ⟨r, e', bs', fl', -, hspec⟩ := hi.malloc (show n ≤ 2 ^ 32 - 16 by omega)
  obtain ⟨h', hok, hi', -⟩ := hspec h hi
  obtain ⟨hserved, hsame⟩ := hi.malloc_guarantee ha hn hok
  have hs : ∀ b ∈ live, SameBytes h h' b.ptr := fun b hb => hsame _ (mem_ptr hb)
  have hrooms := ho.toRooms.congr hs
  refine ⟨h', r, hok, ho.keeps hs, fun hr => ⟨hrooms, e', bs', fl', ?_⟩,
    fun hr => ⟨hrooms.cons h0 (hserved h0 hr), e', bs', fl', ?_⟩⟩
  · obtain rfl : r = NULL := hr
    rwa [addLive_null] at hi'
  · rwa [addLive, if_neg (show r ≠ NULL from hr)] at hi'

theorem free (ho : Owns a h live) (hb : b ∈ live) : ∃ h', h.mmFree b.ptr = .ok h' ∧
    Keeps mmPackage h h' (dropPtr b.ptr live) ∧ Owns a h' (dropPtr b.ptr live) := by
  obtain ⟨e, bs, fl, hi⟩ := ho.inv
  obtain ⟨bs', fl', hspec⟩ := hi.free (mem_ptr hb)
  obtain ⟨h', hok, hi', -⟩ := hspec h hi
  have hs : ∀ d ∈ dropPtr b.ptr live, SameBytes h h' d.ptr := fun d hd =>
    hi.free_guarantee (mem_ptr hb) hok (mem_ptr (mem_dropPtr.1 hd).1) (mem_dropPtr.1 hd).2
  have hsub : Rooms h (dropPtr b.ptr live) := ho.sub List.filter_sublist
  exact ⟨h', hok, hsub.keeps hs, hsub.congr hs, e, bs', fl', by rwa [dropLive_map] at hi'⟩

theorem realloc (ho : Owns a h live) (ha : 8 ∣ a.start) (hb : b ∈ live) (h0 : 0 < n) (hn : n ≤ MAX_HEAP) :
    (∃ f, h.mmRealloc b.ptr n = .error f) ∨ ∃ h' p, h.mmRealloc b.ptr n = .ok (h', p) ∧
      Keeps mmPackage h h' (dropPtr b.ptr live) ∧ p ≠ 0 ∧ Owns a h' (⟨p, n⟩ :: dropPtr b.ptr live) ∧
        ∀ i < b.size, i < n → h'.mem (p + i) = h.mem (b.ptr + i) := by
  obtain ⟨e, bs, fl, hi⟩ := ho.inv
  rcases hi.realloc (mem_ptr hb) (reallocFits_of_le hn) with ⟨f, hf⟩ | ⟨r, e', bs', fl', -, hspec⟩
  · exact .inl ⟨f, hf h hi rfl⟩
  obtain ⟨h', hok, hi', -⟩ := hspec h hi rfl
  obtain ⟨hr, hdata⟩ := realloc_data hi (mem_ptr hb) h0 hn hok
  obtain ⟨hserved, hsame⟩ := hi.realloc_guarantee ha (mem_ptr hb) hn hok
  have hs : ∀ d ∈ dropPtr b.ptr live, SameBytes h h' d.ptr := fun d hd =>
    hsame _ (mem_ptr (mem_dropPtr.1 hd).1) (mem_dropPtr.1 hd).2
  have hsub : Rooms h (dropPtr b.ptr live) := ho.sub List.filter_sublist
  have hserved := hserved h0 hr
  rw [dropLive_map] at hserved hi'
  rw [addLive, if_neg hr] at hi'
  exact .inr ⟨h', r, hok, hsub.keeps hs, hr, ⟨(hsub.congr hs).cons h0 hserved, e', bs', fl', hi'⟩,
    fun i hi => hdata i (by have := ho.room b hb; omega)⟩

theorem write (ho : Owns a h live) (hb : b ∈ live) (hm : ∀ x, ¬ b.Has x → m x = h.mem x) :
    Owns a { h with mem := m } live := by
  obtain ⟨e, bs, fl, hi⟩ := ho.inv
  obtain ⟨d, hd, hptr, hroom⟩ := ho.block hi hb
  have hz : Inv a ⟨{ h with mem := m }, live.map Block.ptr⟩ e bs fl := by
    have hg : SameGlobals h { h with mem := m } := ⟨rfl, rfl, rfl, rfl, rfl, rfl⟩
    refine ⟨(hi.closed.writePayload hd hg fun i hi' => wordAt_congr fun y h1 h2 => hm y ?_).1, hi.live⟩
    unfold Block.Has
    rw [hptr]
    unfold addr
    omega
  refine ⟨⟨ho.once, ho.nonempty, fun c hc => ?_⟩, e, bs, fl, hz⟩
  obtain ⟨c', hc', hcp, hcr⟩ := ho.block hi hc
  rw [hcp, hz.capacity_eq hc']
  exact hcr

end Owns

/-- **`mm.c` meets the contract**, for requests of at most `MAX_HEAP` bytes. -/
theorem mm_contract (ha : 8 ∣ a.start) : Contract mmPackage ALIGNMENT MAX_HEAP (Owns a) where
  nonempty ho hb := by
    obtain ⟨e, bs, fl, hi⟩ := ho.inv
    exact ⟨ho.nonempty _ hb, hi.ne_null (mem_ptr hb)⟩
  aligned ho hb := ho.aligned ha hb
  inside ho hb := ho.inside hb
  apart ho := ho.apart
  malloc ho h0 hn := ho.malloc ha h0 hn
  free ho hb := ho.free hb
  realloc ho hb h0 hn := by
    rcases ho.realloc ha hb h0 hn with hf | ⟨h', p, hok, hkeep, hp, hown, hdata⟩
    · exact .inl hf
    · exact .inr ⟨h', p, hok, hkeep, fun h1 => absurd h1 hp, fun _ => ⟨hown, hdata⟩⟩
  write ho hb hm := ho.write hb hm
  mem_setMem _ _ := rfl

theorem mmPackage_init : mmPackage.init h = h.memResetBrk.mmInit := by
  simp only [mmPackage]

theorem mmPackage_init_ok (hs : h.memStartBrk = a.start) (hm : h.memMaxAddr = a.start + MAX_HEAP) :
    ∃ h₁, mmPackage.init h = .ok (h₁, 0) ∧ Owns a h₁ [] := by
  obtain ⟨e, bs, fl, hspec⟩ := mmInit_spec a.start_pos a.fits
  obtain ⟨h₁, hok, z, hno, -⟩ := hspec h.memResetBrk hs hs hm
  exact ⟨h₁, mmPackage_init.trans hok, ⟨by simp, by simp, by simp⟩, e, bs, fl, z, fun p => by simp [hno]⟩

/-! ### The verdict -/

def Started (a : Arena) (h : Heap) : Prop := h.memStartBrk = a.start ∧ h.memMaxAddr = a.start + MAX_HEAP

/-- **What the allocator is for**: every run of a client is a run of separate byte arrays with the same requests,
the blocks are aligned, lie in the heap and do not overlap, and every further request returns, unless
`mm_realloc` divides by zero or copies to `NULL`. -/
theorem mm_refines {c₀ c : Client Heap} {qs : List Request} (ha : 8 ∣ a.start)
    (h0 : (clients mmPackage MAX_HEAP (Started a)).init c₀)
    (hr : (clients mmPackage MAX_HEAP (Started a)).Steps c₀ qs c) :
    arrays.Steps [] qs (contents mmPackage c) ∧ c.live.Pairwise Block.Apart ∧
    (∀ b ∈ c.live, 8 ∣ b.ptr ∧ c.heap.memHeapLo ≤ b.ptr ∧ b.ptr + b.size ≤ c.heap.memHeapHi + 1) ∧
    ∀ q, Asks mmPackage MAX_HEAP c q → (∃ c', Serves mmPackage MAX_HEAP c q c') ∨ ∃ b n, q = .realloc b n ∧
      (c.heap.mmRealloc b.ptr n = .error .divideByZero ∨ c.heap.mmRealloc b.ptr n = .error .copyToNull) := by
  have hc := mm_contract ha
  obtain ⟨h, live⟩ := c₀
  obtain ⟨rfl, h₀, hst, hok⟩ := h0
  obtain ⟨h₁, hok₁, ho⟩ := mmPackage_init_ok hst.1 hst.2
  rw [hok₁] at hok
  cases hok
  obtain ⟨hsteps, hi⟩ := hc.refines ho hr
  refine ⟨hsteps, hc.apart hi, fun b hb => ⟨hc.aligned hi hb, hc.inside hi hb⟩, fun q hq => ?_⟩
  by_cases hf : ∃ b n f, q = .realloc b n ∧ mmPackage.realloc c.heap b.ptr n = .error f
  · obtain ⟨b, n, f, rfl, hf⟩ := hf
    obtain ⟨_, _, _, hinv⟩ := hi.inv
    refine .inr ⟨b, n, rfl, ?_⟩
    rcases realloc_fault hinv (mem_ptr hq.1) hq.2.2 hf with rfl | rfl
    · exact .inl hf
    · exact .inr hf
  · exact .inl (hc.answers hi hq fun b n f hq' hf' => hf ⟨b, n, f, hq', hf'⟩)

/-- Two blocks, of which the first is freed. -/
theorem mm_refines_two : ∃ c as, arrays.Steps [] [.malloc 100, .malloc 200, .free ⟨224, 100⟩] as ∧
    as.map Arr.ptr = [360] ∧ c.live = [⟨360, 200⟩] ∧ as = contents mmPackage c := by
  obtain ⟨h, hst, hrun⟩ : ∃ h : Heap, Started smallArena h ∧ ((mmPackage.init h).toOption.bind fun r =>
      ([.malloc 100, .malloc 200, .free ⟨224, 100⟩].foldlM (Client.request mmPackage MAX_HEAP) ⟨r.1, []⟩).map
        Alloc.Client.live) = some [⟨360, 200⟩] :=
    ⟨⟨fun _ => 0, 8, 8, 8 + MAX_HEAP, 0, 0, 0⟩, ⟨rfl, rfl⟩, by decide +kernel⟩
  obtain ⟨h₁, hok, -⟩ := mmPackage_init_ok hst.1 hst.2
  rw [hok] at hrun
  obtain ⟨c₀, c, h0, hsteps, hlive⟩ := exists_requests hst hok _ hrun
  obtain ⟨has, -⟩ := mm_refines (a := smallArena) (by decide) h0 hsteps
  exact ⟨c, _, has, by rw [contents_ptr, hlive]; rfl, hlive, rfl⟩

end CsappLab.Mdriver
