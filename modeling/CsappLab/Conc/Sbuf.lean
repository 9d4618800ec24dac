import CsappLab.Lib.CInt
import CsappLab.Lib.Threads

/-!
# The bounded buffer `sbuf.c`

Threads that insert and remove items, one atomic step for each `P`, `V` and access of the buffer.
`sbuf_remove` has no return statement, so its caller gets whatever the environment chooses.
-/

namespace CsappLab.Sbuf

open CInt

/-- The buffer, with the items inserted and loaded so far and the values that the calls of `sbuf_remove`
have returned, each with the number of its critical section. -/
structure SbufT where
  buf : Int → Int
  front : Int
  rear : Int
  mutex : Nat
  slots : Nat
  items : Nat
  inserts : List Int
  loads : List Int
  returns : List (Nat × Int)

def sbufInit (n : Nat) : SbufT := ⟨fun _ => 0, 0, 0, 1, n, 0, [], [], []⟩

/-- The next step of a thread; `i` is the index it has computed, `k` the number of its critical section. -/
inductive Point
  | idle
  | insertSlots (item : Int)
  | insertMutex (item : Int)
  | insertInc (item : Int)
  | insertStore (item i : Int)
  | insertUnlock
  | insertPost
  | removeItems
  | removeMutex
  | removeInc
  | removeLoad (i : Int)
  | removeUnlock (k : Nat) (item : Int)
  | removePost (k : Nat) (item : Int)
  | removeRet (k : Nat) (item : Int)
deriving DecidableEq

/-- The item to insert, or none to remove one; and the value that `sbuf_remove` happens to return. -/
structure Choice where
  item : Option Int
  ret : Int

/-- One step of a thread on a buffer of `n` slots; `none` while `P` waits. -/
def step (n : Nat) (ch : Choice) (s : SbufT) : Point → Option (SbufT × Point)
  | .idle =>
    match ch.item with
    | some item => some (s, .insertSlots item)
    | none => some (s, .removeItems)
  | .insertSlots item => if 0 < s.slots then some ({ s with slots := s.slots - 1 }, .insertMutex item) else none
  | .insertMutex item => if 0 < s.mutex then some ({ s with mutex := s.mutex - 1 }, .insertInc item) else none
  | .insertInc item =>
    let rear := i32 (s.rear + 1)
    some ({ s with rear := rear }, .insertStore item (rear.tmod n))
  | .insertStore item i =>
    some ({ s with buf := Function.update s.buf i item, inserts := s.inserts ++ [item] }, .insertUnlock)
  | .insertUnlock => some ({ s with mutex := s.mutex + 1 }, .insertPost)
  | .insertPost => some ({ s with items := s.items + 1 }, .idle)
  | .removeItems => if 0 < s.items then some ({ s with items := s.items - 1 }, .removeMutex) else none
  | .removeMutex => if 0 < s.mutex then some ({ s with mutex := s.mutex - 1 }, .removeInc) else none
  | .removeInc =>
    let front := i32 (s.front + 1)
    some ({ s with front := front }, .removeLoad (front.tmod n))
  | .removeLoad i => some ({ s with loads := s.loads ++ [s.buf i] }, .removeUnlock s.loads.length (s.buf i))
  | .removeUnlock k item => some ({ s with mutex := s.mutex + 1 }, .removePost k item)
  | .removePost k item => some ({ s with slots := s.slots + 1 }, .removeRet k item)
  -- the end of the function: `item` is not returned
  | .removeRet k _ => some ({ s with returns := (k, ch.ret) :: s.returns }, .idle)

abbrev SbufConf (T : Type*) := Conf T SbufT Point

/-- Any number of threads on a buffer set up by `sbuf_init(sp, n)`. -/
def sbuf (T : Type*) [DecidableEq T] (n : Nat) : Machine (SbufConf T) (T × Choice) :=
  Conf.threads (fun c => c = ⟨sbufInit n, fun _ => .idle⟩) (step n)

/-- The counters do not overflow, and the value that `sbuf_remove` happens to return is the item. -/
def StepOk {T : Type*} (c : SbufConf T) (l : T × Choice) : Prop :=
  match c.loc l.1 with
  | .insertInc _ => c.shared.rear < 2 ^ 31 - 1
  | .removeInc => c.shared.front < 2 ^ 31 - 1
  | .removeRet _ item => l.2.ret = item
  | _ => True

/-- A queue of bounded length: the items come out in the order in which they were stored, at most `n` are in the
buffer, and every index lies in the array. -/
structure BufferOk {T : Type*} (n : Nat) (c : SbufConf T) : Prop where
  fifo : ∀ (k : Nat) (v : Int), (k, v) ∈ c.shared.returns → c.shared.inserts[k]? = some v
  lower : c.shared.loads.length ≤ c.shared.inserts.length
  upper : c.shared.inserts.length ≤ c.shared.loads.length + n
  store : ∀ t item i, c.loc t = .insertStore item i → 0 ≤ i ∧ i < n
  load : ∀ t i, c.loc t = .removeLoad i → 0 ≤ i ∧ i < n
  -- the items not yet removed are all in their slots
  kept : ∀ k, c.shared.loads.length ≤ k → k < c.shared.inserts.length →
    c.shared.inserts[k]? = some (c.shared.buf (((k + 1) % n : Nat) : Int))

/-! ### What a thread holds -/

namespace Point

def crit : Point → Nat
  | insertInc _ | insertStore _ _ | insertUnlock | removeInc | removeLoad _ | removeUnlock _ _ => 1
  | _ => 0

/-- A slot is reserved. -/
def slot : Point → Nat
  | insertMutex _ | insertInc _ | insertStore _ _ => 1
  | _ => 0

/-- An item is stored and not yet announced. -/
def stored : Point → Nat
  | insertUnlock | insertPost => 1
  | _ => 0

/-- An item is reserved. -/
def item : Point → Nat
  | removeMutex | removeInc | removeLoad _ => 1
  | _ => 0

/-- A slot is free and not yet announced. -/
def freed : Point → Nat
  | removeUnlock _ _ | removePost _ _ => 1
  | _ => 0

/-- `rear` is ahead of the items. -/
def storing : Point → Nat
  | insertStore _ _ => 1
  | _ => 0

/-- `front` is ahead of the items. -/
def loading : Point → Nat
  | removeLoad _ => 1
  | _ => 0

/-- The index of a thread that is about to store item number `inserts`. -/
def StoreAt (n inserts : Nat) : Point → Prop
  | insertStore _ i => i = ((inserts + 1) % n : Nat)
  | _ => True

/-- The index of a thread that is about to load item number `loads`. -/
def LoadAt (n loads : Nat) : Point → Prop
  | removeLoad i => i = ((loads + 1) % n : Nat)
  | _ => True

/-- The item that a thread has loaded. -/
def Got (loads : List Int) : Point → Prop
  | removeUnlock k item | removePost k item | removeRet k item => loads[k]? = some item
  | _ => True

end Point

variable {T : Type*} [DecidableEq T] [Fintype T] {n : Nat} {c c' : SbufConf T} {t j : T} {ch : Choice}
  {s' : SbufT} {l p : Point}

structure Inv (n : Nat) (c : SbufConf T) : Prop where
  mutex : c.shared.mutex + ∑ t, (c.loc t).crit = 1
  slots : c.shared.slots + ∑ t, (c.loc t).slot + c.shared.inserts.length + ∑ t, (c.loc t).freed =
    n + c.shared.loads.length
  items : c.shared.items + ∑ t, (c.loc t).stored + ∑ t, (c.loc t).item + c.shared.loads.length =
    c.shared.inserts.length
  rear : c.shared.rear = (c.shared.inserts.length + ∑ t, (c.loc t).storing : Nat)
  front : c.shared.front = (c.shared.loads.length + ∑ t, (c.loc t).loading : Nat)
  store : ∀ t, (c.loc t).StoreAt n c.shared.inserts.length
  load : ∀ t, (c.loc t).LoadAt n c.shared.loads.length
  kept : ∀ k, c.shared.loads.length ≤ k → k < c.shared.inserts.length →
    c.shared.inserts[k]? = some (c.shared.buf (((k + 1) % n : Nat) : Int))
  fifo : ∀ (k : Nat) (x : Int), c.shared.loads[k]? = some x → c.shared.inserts[k]? = some x
  got : ∀ t, (c.loc t).Got c.shared.loads
  returned : ∀ (k : Nat) (v : Int), (k, v) ∈ c.shared.returns → c.shared.inserts[k]? = some v

omit [DecidableEq T] in
theorem Inv.bufferOk (h : Inv n c) (hn : 0 < n) : BufferOk n c := by
  have hslots := h.slots
  have hitems := h.items
  refine ⟨h.returned, by omega, by omega, ?_, ?_, h.kept⟩
  · intro t item i ht
    have hi := h.store t
    rw [ht] at hi
    rw [show i = _ from hi]
    have := Nat.mod_lt (c.shared.inserts.length + 1) hn
    omega
  · intro t i ht
    have hi := h.load t
    rw [ht] at hi
    rw [show i = _ from hi]
    have := Nat.mod_lt (c.shared.loads.length + 1) hn
    omega

theorem Inv.alone (h : Inv n c) (ht : (c.loc t).crit = 1) (hj : j ≠ t) : (c.loc j).crit = 0 := by
  have hm := h.mutex
  exact eq_zero_of_sum_le_one (f := Point.crit) (by omega) (by omega) hj

/-! ### Steps -/

theorem Inv.update (h : Inv n c) (hmutex : s'.mutex + l.crit = c.shared.mutex + (c.loc t).crit)
    (hslots : s'.slots + l.slot + l.freed + s'.inserts.length + c.shared.loads.length =
      c.shared.slots + (c.loc t).slot + (c.loc t).freed + c.shared.inserts.length + s'.loads.length)
    (hitems : s'.items + l.stored + l.item + s'.loads.length + c.shared.inserts.length =
      c.shared.items + (c.loc t).stored + (c.loc t).item + c.shared.loads.length + s'.inserts.length)
    (hrear : s'.rear + c.shared.inserts.length + (c.loc t).storing =
      c.shared.rear + s'.inserts.length + l.storing)
    (hfront : s'.front + c.shared.loads.length + (c.loc t).loading =
      c.shared.front + s'.loads.length + l.loading)
    (hstore : ∀ j, (Function.update c.loc t l j).StoreAt n s'.inserts.length)
    (hload : ∀ j, (Function.update c.loc t l j).LoadAt n s'.loads.length)
    (hkept : ∀ k, s'.loads.length ≤ k → k < s'.inserts.length →
      s'.inserts[k]? = some (s'.buf (((k + 1) % n : Nat) : Int)))
    (hfifo : ∀ (k : Nat) (x : Int), s'.loads[k]? = some x → s'.inserts[k]? = some x)
    (hgot : ∀ j, (Function.update c.loc t l j).Got s'.loads)
    (hreturned : ∀ (k : Nat) (v : Int), (k, v) ∈ s'.returns → s'.inserts[k]? = some v) :
    Inv n ⟨s', Function.update c.loc t l⟩ := by
  have e1 := sum_update Point.crit c.loc t l
  have e2 := sum_update Point.slot c.loc t l
  have e3 := sum_update Point.freed c.loc t l
  have e4 := sum_update Point.stored c.loc t l
  have e5 := sum_update Point.item c.loc t l
  have e6 := sum_update Point.storing c.loc t l
  have e7 := sum_update Point.loading c.loc t l
  have h1 := h.mutex
  have h2 := h.slots
  have h3 := h.items
  have h4 := h.rear
  have h5 := h.front
  exact ⟨by simp only; omega, by simp only; omega, by simp only; omega, by simp only; omega,
    by simp only; omega, hstore, hload, hkept, hfifo, hgot, hreturned⟩

omit [Fintype T] in
theorem forall_update {p : Point → Prop} (ht : p l) (hj : ∀ j, j ≠ t → p (c.loc j)) (j : T) :
    p (Function.update c.loc t l j) := by
  by_cases hjt : j = t
  · rw [hjt, Function.update_self]
    exact ht
  · rw [Function.update_of_ne hjt]
    exact hj j hjt

theorem Inv.sem (h : Inv n c) (hl : c.loc t = p)
    (hs : s'.buf = c.shared.buf ∧ s'.front = c.shared.front ∧ s'.rear = c.shared.rear ∧
      s'.inserts = c.shared.inserts ∧ s'.loads = c.shared.loads ∧ s'.returns = c.shared.returns)
    (hmutex : s'.mutex + l.crit = c.shared.mutex + p.crit)
    (hslots : s'.slots + l.slot + l.freed = c.shared.slots + p.slot + p.freed)
    (hitems : s'.items + l.stored + l.item = c.shared.items + p.stored + p.item)
    (hold : p.storing = 0 ∧ p.loading = 0) (hnew : l.storing = 0 ∧ l.loading = 0)
    (hgot : l.Got c.shared.loads) : Inv n ⟨s', Function.update c.loc t l⟩ := by
  subst hl
  obtain ⟨hb, hf, hr, hins, hlo, hret⟩ := hs
  refine h.update hmutex (by rw [hins, hlo]; omega) (by rw [hins, hlo]; omega) (by rw [hins]; omega)
    (by rw [hlo]; omega) ?_ ?_ ?_ ?_ ?_ ?_ <;> simp only [hb, hins, hlo, hret]
  · refine forall_update ?_ fun j _ => h.store j
    cases l <;> first | trivial | cases hnew.1
  · refine forall_update ?_ fun j _ => h.load j
    cases l <;> first | trivial | cases hnew.2
  · exact h.kept
  · exact h.fifo
  · exact forall_update hgot fun j _ => h.got j
  · exact h.returned

/-- A thread in its critical section is the only one that can be ahead of the items. -/
theorem Inv.ahead (h : Inv n c) (ht : (c.loc t).crit = 1) :
    ∑ j, (c.loc j).storing = (c.loc t).storing ∧ ∑ j, (c.loc j).loading = (c.loc t).loading := by
  have hstoring : ∀ p : Point, p.crit = 0 → p.storing = 0 ∧ p.loading = 0 := by
    intro p hp
    cases p <;> first | exact ⟨rfl, rfl⟩ | cases hp
  constructor
  · exact Finset.sum_eq_single t (fun j _ hj => (hstoring _ (h.alone ht hj)).1) (by simp)
  · exact Finset.sum_eq_single t (fun j _ hj => (hstoring _ (h.alone ht hj)).2) (by simp)

theorem inc_tmod {m : Int} {k : Nat} (hm : m = k) (hlt : m < 2 ^ 31 - 1) :
    i32 (m + 1) = (k + 1 : Nat) ∧ (i32 (m + 1)).tmod n = ((k + 1) % n : Nat) := by
  have h1 : i32 (m + 1) = (k + 1 : Nat) := by
    rw [i32_eq (by omega) (by omega)]
    omega
  refine ⟨h1, ?_⟩
  rw [h1]
  rfl

theorem Inv.no_access (h : Inv n c) (ht : (c.loc t).crit = 1) (hj : j ≠ t) (m : Nat) :
    (c.loc j).StoreAt n m ∧ (c.loc j).LoadAt n m := by
  have h0 := h.alone ht hj
  cases hl : c.loc j <;> rw [hl] at h0 <;> first | exact ⟨trivial, trivial⟩ | cases h0

theorem Inv.insertInc {item : Int} (h : Inv n c) (hl : c.loc t = .insertInc item)
    (hlt : c.shared.rear < 2 ^ 31 - 1) :
    Inv n ⟨{ c.shared with rear := i32 (c.shared.rear + 1) },
      Function.update c.loc t (.insertStore item ((i32 (c.shared.rear + 1)).tmod n))⟩ := by
  have hcrit : (c.loc t).crit = 1 := by rw [hl]; rfl
  have hrear : c.shared.rear = (c.shared.inserts.length : Nat) := by
    have := h.rear
    rw [(h.ahead hcrit).1, hl] at this
    exact this
  obtain ⟨hinc, hmod⟩ := inc_tmod (n := n) hrear hlt
  refine h.update (by rw [hl]; rfl) (by rw [hl]; rfl) (by rw [hl]; rfl) ?_ (by rw [hl]; rfl) ?_ ?_ h.kept
    h.fifo ?_ h.returned
  · rw [hl]
    change i32 (c.shared.rear + 1) + c.shared.inserts.length + (0 : Nat) =
      c.shared.rear + c.shared.inserts.length + (1 : Nat)
    omega
  · exact forall_update hmod fun j hj => (h.no_access hcrit hj _).1
  · exact forall_update trivial fun j _ => h.load j
  · exact forall_update trivial fun j _ => h.got j

theorem Inv.removeInc (h : Inv n c) (hl : c.loc t = .removeInc) (hlt : c.shared.front < 2 ^ 31 - 1) :
    Inv n ⟨{ c.shared with front := i32 (c.shared.front + 1) },
      Function.update c.loc t (.removeLoad ((i32 (c.shared.front + 1)).tmod n))⟩ := by
  have hcrit : (c.loc t).crit = 1 := by rw [hl]; rfl
  have hfront : c.shared.front = (c.shared.loads.length : Nat) := by
    have := h.front
    rw [(h.ahead hcrit).2, hl] at this
    exact this
  obtain ⟨hinc, hmod⟩ := inc_tmod (n := n) hfront hlt
  refine h.update (by rw [hl]; rfl) (by rw [hl]; rfl) (by rw [hl]; rfl) (by rw [hl]; rfl) ?_ ?_ ?_ h.kept
    h.fifo ?_ h.returned
  · rw [hl]
    change i32 (c.shared.front + 1) + c.shared.loads.length + (0 : Nat) =
      c.shared.front + c.shared.loads.length + (1 : Nat)
    omega
  · exact forall_update trivial fun j _ => h.store j
  · exact forall_update hmod fun j hj => (h.no_access hcrit hj _).2
  · exact forall_update trivial fun j _ => h.got j

/-- **The store** goes to a slot whose item has been removed. -/
theorem Inv.insertStore {item i : Int} (h : Inv n c) (hl : c.loc t = .insertStore item i) :
    Inv n ⟨{ c.shared with buf := Function.update c.shared.buf i item,
                           inserts := c.shared.inserts ++ [item] },
      Function.update c.loc t .insertUnlock⟩ := by
  have hcrit : (c.loc t).crit = 1 := by rw [hl]; rfl
  have hi : i = ((c.shared.inserts.length + 1) % n : Nat) := by
    have := h.store t
    rw [hl] at this
    exact this
  have hslot : 1 ≤ ∑ j, (c.loc j).slot := by
    have := le_sum Point.slot c.loc t
    rw [hl] at this
    exact this
  have hroom : c.shared.inserts.length < n + c.shared.loads.length := by
    have := h.slots
    omega
  have hlen : (c.shared.inserts ++ [item]).length = c.shared.inserts.length + 1 := by simp
  refine h.update (by rw [hl]; rfl) ?_ ?_ ?_ (by rw [hl]; rfl) ?_ ?_ ?_ ?_ ?_ ?_
  · rw [hl]
    change c.shared.slots + 0 + 0 + (c.shared.inserts ++ [item]).length + c.shared.loads.length =
      c.shared.slots + 1 + 0 + c.shared.inserts.length + c.shared.loads.length
    omega
  · rw [hl]
    change c.shared.items + 1 + 0 + c.shared.loads.length + c.shared.inserts.length =
      c.shared.items + 0 + 0 + c.shared.loads.length + (c.shared.inserts ++ [item]).length
    omega
  · rw [hl]
    change c.shared.rear + c.shared.inserts.length + (1 : Nat) =
      c.shared.rear + (c.shared.inserts ++ [item]).length + (0 : Nat)
    omega
  · exact forall_update trivial fun j hj => (h.no_access hcrit hj _).1
  · exact forall_update trivial fun j hj => (h.no_access hcrit hj _).2
  · intro k h1 h2
    simp only [List.length_append, List.length_singleton] at h1 h2 ⊢
    rcases Nat.lt_succ_iff_lt_or_eq.1 h2 with hk | hk
    · -- an older item is in another slot
      have hne : (((k + 1) % n : Nat) : Int) ≠ i := by
        rw [hi]
        intro heq
        have heq' : (k + 1) % n = (c.shared.inserts.length + 1) % n := by exact_mod_cast heq
        have hdvd := (Nat.modEq_iff_dvd' (by omega)).1 heq'
        have := Nat.le_of_dvd (by omega) hdvd
        omega
      rw [List.getElem?_append_left hk, Function.update_of_ne hne]
      exact h.kept k h1 hk
    · rw [hk, ← hi, Function.update_self, List.getElem?_concat_length]
  · intro k x hx
    have := h.fifo k x hx
    rw [List.getElem?_append_left (List.getElem?_eq_some_iff.1 this).1]
    exact this
  · exact forall_update trivial fun j _ => h.got j
  · intro k v hv
    have := h.returned k v hv
    rw [List.getElem?_append_left (List.getElem?_eq_some_iff.1 this).1]
    exact this

/-- **The load** takes the oldest item. -/
theorem Inv.removeLoad {i : Int} (h : Inv n c) (hl : c.loc t = .removeLoad i) :
    Inv n ⟨{ c.shared with loads := c.shared.loads ++ [c.shared.buf i] },
      Function.update c.loc t (.removeUnlock c.shared.loads.length (c.shared.buf i))⟩ := by
  have hcrit : (c.loc t).crit = 1 := by rw [hl]; rfl
  have hi : i = ((c.shared.loads.length + 1) % n : Nat) := by
    have := h.load t
    rw [hl] at this
    exact this
  have hone : 1 ≤ ∑ j, (c.loc j).item := by
    have := le_sum Point.item c.loc t
    rw [hl] at this
    exact this
  have hitem : c.shared.loads.length < c.shared.inserts.length := by
    have := h.items
    omega
  have hlen : (c.shared.loads ++ [c.shared.buf i]).length = c.shared.loads.length + 1 := by simp
  refine h.update (by rw [hl]; rfl) ?_ ?_ (by rw [hl]; rfl) ?_ ?_ ?_ ?_ ?_
    ?_ h.returned
  · rw [hl]
    change c.shared.slots + 0 + 1 + c.shared.inserts.length + c.shared.loads.length =
      c.shared.slots + 0 + 0 + c.shared.inserts.length + (c.shared.loads ++ [c.shared.buf i]).length
    omega
  · rw [hl]
    change c.shared.items + 0 + 0 + (c.shared.loads ++ [c.shared.buf i]).length + c.shared.inserts.length =
      c.shared.items + 0 + 1 + c.shared.loads.length + c.shared.inserts.length
    omega
  · rw [hl]
    change c.shared.front + c.shared.loads.length + (1 : Nat) =
      c.shared.front + (c.shared.loads ++ [c.shared.buf i]).length + (0 : Nat)
    omega
  · exact forall_update trivial fun j hj => (h.no_access hcrit hj _).1
  · exact forall_update trivial fun j hj => (h.no_access hcrit hj _).2
  · intro k h1 h2
    simp only [List.length_append, List.length_singleton] at h1
    exact h.kept k (by omega) h2
  · intro k x hx
    rcases Nat.lt_or_ge k c.shared.loads.length with hk | hk
    · rw [List.getElem?_append_left hk] at hx
      exact h.fifo k x hx
    · rw [List.getElem?_append_right hk] at hx
      obtain ⟨hk0, hx0⟩ := List.getElem?_eq_some_iff.1 hx
      have hk' : k = c.shared.loads.length := by
        simp only [List.length_singleton] at hk0
        omega
      subst hk'
      rw [h.kept _ le_rfl hitem, ← hi, ← hx0]
      simp
  · have happend : ∀ (k : Nat) (x : Int), c.shared.loads[k]? = some x →
        (c.shared.loads ++ [c.shared.buf i])[k]? = some x := by
      intro k x hx
      rw [List.getElem?_append_left (List.getElem?_eq_some_iff.1 hx).1]
      exact hx
    refine forall_update ?_ ?_
    · exact List.getElem?_concat_length
    · intro j _
      have hg := h.got j
      cases hj : c.loc j <;> rw [hj] at hg <;> first | trivial | exact happend _ _ hg

/-- **The return** of `sbuf_remove`, when the value is the item. -/
theorem Inv.removeRet {k : Nat} {item : Int} (h : Inv n c) (hl : c.loc t = .removeRet k item) :
    Inv n ⟨{ c.shared with returns := (k, item) :: c.shared.returns }, Function.update c.loc t .idle⟩ := by
  refine h.update (by rw [hl]; rfl) (by rw [hl]; rfl) (by rw [hl]; rfl) (by rw [hl]; rfl) (by rw [hl]; rfl)
    (forall_update trivial fun j _ => h.store j) (forall_update trivial fun j _ => h.load j) h.kept h.fifo
    (forall_update trivial fun j _ => h.got j) fun k' v hv => ?_
  rcases List.mem_cons.1 hv with heq | hv
  · cases heq
    have hg := h.got t
    rw [hl] at hg
    exact h.fifo _ _ hg
  · exact h.returned k' v hv

theorem Inv.move (h : Inv n c) (hok : StepOk c (t, ch)) (hm : c.move (step n) t ch = some c') :
    Inv n c' := by
  obtain ⟨s, l, hs, rfl⟩ := Conf.move_eq_some.1 hm
  have hgot := h.got t
  unfold StepOk at hok
  cases hl : c.loc t with
  | idle =>
    rw [hl] at hs
    simp only [step] at hs
    split at hs <;> cases hs
    all_goals
      exact h.sem hl ⟨rfl, rfl, rfl, rfl, rfl, rfl⟩ rfl rfl rfl ⟨rfl, rfl⟩ ⟨rfl, rfl⟩ trivial
  | insertInc item =>
    rw [hl] at hs hok
    cases hs
    exact h.insertInc hl hok
  | insertStore item i =>
    rw [hl] at hs
    cases hs
    exact h.insertStore hl
  | removeInc =>
    rw [hl] at hs hok
    cases hs
    exact h.removeInc hl hok
  | removeLoad i =>
    rw [hl] at hs
    cases hs
    exact h.removeLoad hl
  | removeRet k item =>
    rw [hl] at hs hok
    cases hs
    obtain rfl : ch.ret = item := hok
    exact h.removeRet hl
  | insertUnlock =>
    rw [hl] at hs
    cases hs
    exact h.sem hl ⟨rfl, rfl, rfl, rfl, rfl, rfl⟩ rfl rfl rfl ⟨rfl, rfl⟩ ⟨rfl, rfl⟩ trivial
  | insertPost =>
    rw [hl] at hs
    cases hs
    exact h.sem hl ⟨rfl, rfl, rfl, rfl, rfl, rfl⟩ rfl rfl rfl ⟨rfl, rfl⟩ ⟨rfl, rfl⟩ trivial
  | removeUnlock k item =>
    rw [hl] at hs hgot
    cases hs
    exact h.sem hl ⟨rfl, rfl, rfl, rfl, rfl, rfl⟩ rfl rfl rfl ⟨rfl, rfl⟩ ⟨rfl, rfl⟩ hgot
  | removePost k item =>
    rw [hl] at hs hgot
    cases hs
    exact h.sem hl ⟨rfl, rfl, rfl, rfl, rfl, rfl⟩ rfl rfl rfl ⟨rfl, rfl⟩ ⟨rfl, rfl⟩ hgot
  | insertSlots item =>
    rw [hl] at hs
    simp only [step, Option.ite_none_right_eq_some, Option.some.injEq, Prod.mk.injEq] at hs
    obtain ⟨hp, rfl, rfl⟩ := hs
    refine h.sem hl ⟨rfl, rfl, rfl, rfl, rfl, rfl⟩ rfl ?_ rfl ⟨rfl, rfl⟩ ⟨rfl, rfl⟩ trivial
    change c.shared.slots - 1 + 1 + 0 = c.shared.slots + 0 + 0
    omega
  | insertMutex item =>
    rw [hl] at hs
    simp only [step, Option.ite_none_right_eq_some, Option.some.injEq, Prod.mk.injEq] at hs
    obtain ⟨hp, rfl, rfl⟩ := hs
    refine h.sem hl ⟨rfl, rfl, rfl, rfl, rfl, rfl⟩ ?_ rfl rfl ⟨rfl, rfl⟩ ⟨rfl, rfl⟩ trivial
    change c.shared.mutex - 1 + 1 = c.shared.mutex + 0
    omega
  | removeItems =>
    rw [hl] at hs
    simp only [step, Option.ite_none_right_eq_some, Option.some.injEq, Prod.mk.injEq] at hs
    obtain ⟨hp, rfl, rfl⟩ := hs
    refine h.sem hl ⟨rfl, rfl, rfl, rfl, rfl, rfl⟩ rfl rfl ?_ ⟨rfl, rfl⟩ ⟨rfl, rfl⟩ trivial
    change c.shared.items - 1 + 0 + 1 = c.shared.items + 0 + 0
    omega
  | removeMutex =>
    rw [hl] at hs
    simp only [step, Option.ite_none_right_eq_some, Option.some.injEq, Prod.mk.injEq] at hs
    obtain ⟨hp, rfl, rfl⟩ := hs
    refine h.sem hl ⟨rfl, rfl, rfl, rfl, rfl, rfl⟩ ?_ rfl rfl ⟨rfl, rfl⟩ ⟨rfl, rfl⟩ trivial
    change c.shared.mutex - 1 + 1 = c.shared.mutex + 0
    omega

omit [DecidableEq T] in
theorem Inv.init (n : Nat) : Inv n (⟨sbufInit n, fun _ => .idle⟩ : SbufConf T) := by
  have h0 : ∀ f : Point → Nat, f .idle = 0 → ∑ _ : T, f .idle = 0 := fun f hf => by simp [hf]
  refine ⟨?_, ?_, ?_, ?_, ?_, fun _ => trivial, fun _ => trivial, ?_, ?_, fun _ => trivial, ?_⟩
  · simp only [h0 Point.crit rfl]
    rfl
  · simp only [h0 Point.slot rfl, h0 Point.freed rfl]
    rfl
  · simp only [h0 Point.stored rfl, h0 Point.item rfl]
    rfl
  · simp only [h0 Point.storing rfl]
    rfl
  · simp only [h0 Point.loading rfl]
    rfl
  · intro k _ hk
    cases hk
  · intro k x hx
    simp [sbufInit] at hx
  · intro k v hv
    cases hv

/-- **The bounded buffer** works for any number of threads in every run in which the counters stay below
the largest `int` and the missing return value of `sbuf_remove` happens to be the item. -/
theorem bounded_buffer (n : Nat) (hn : 0 < n) (m : Nat) (c : SbufConf (Fin m))
    (h : (sbuf (Fin m) n).Reach StepOk c) : BufferOk n c := by
  refine Inv.bufferOk (h.invariant ?_ fun c l c' hi hok hst => hi.move hok hst) hn
  rintro c rfl
  exact Inv.init n

def insertion {T : Type} (t : T) (item : Int) : List (T × Choice) := List.replicate 7 (t, ⟨some item, 0⟩)

def removal {T : Type} (t : T) (ret : Int) : List (T × Choice) := List.replicate 8 (t, ⟨none, ret⟩)

/-- Thread `u` begins to remove the first of two items, thread `t` waits for the slot and inserts a third one into
it, and the other items are removed. -/
def threeItems {T : Type} (t u : T) : List (T × Choice) :=
  insertion t 5 ++ insertion t 6 ++ (removal u 5).take 4 ++ (insertion t 7).take 1 ++ (removal u 5).drop 4 ++
    (insertion t 7).drop 1 ++ removal u 6 ++ removal u 7

theorem bounded_buffer_three : ∃ c : SbufConf (Fin 2), c.shared.inserts = [5, 6, 7] ∧
    c.shared.returns = [(2, 7), (1, 6), (0, 5)] ∧ BufferOk 2 c := by
  let check : SbufConf (Fin 2) → Fin 2 × Choice → Bool := fun c l =>
    match c.loc l.1 with
    | .insertInc _ => decide (c.shared.rear < 2 ^ 31 - 1)
    | .removeInc => decide (c.shared.front < 2 ^ 31 - 1)
    | .removeRet _ item => decide (l.2.ret = item)
    | _ => true
  obtain ⟨c, hreach, hins, hret⟩ : ∃ c, (sbuf (Fin 2) 2).Reach StepOk c ∧ c.shared.inserts = [5, 6, 7] ∧
      c.shared.returns = [(2, 7), (1, 6), (0, 5)] := by
    refine Conf.exists_reach check (threeItems 0 1) (.init rfl) (fun l _ c hl => ?_) (by decide +kernel)
    unfold StepOk
    revert hl
    simp only [check]
    cases c.loc l.1 <;> simp
  exact ⟨c, hins, hret, bounded_buffer 2 (by decide) 2 c hreach⟩

/-- `sbuf_remove` returns something else. -/
theorem remove_returns_garbage : ∃ c : SbufConf (Fin 2), (sbuf (Fin 2) 3).Reachable c ∧ ¬ BufferOk 3 c := by
  obtain ⟨c, hreach, hret, hins⟩ : ∃ c, (sbuf (Fin 2) 3).Reachable c ∧ c.shared.returns = [(0, 0)] ∧
      c.shared.inserts = [5] :=
    Conf.exists_reach (fun _ _ => true) (insertion 0 5 ++ removal 1 0) (.init rfl) (fun _ _ _ _ => trivial)
      (by decide +kernel)
  refine ⟨c, hreach, fun hok => ?_⟩
  have := hok.fifo 0 0 (by rw [hret]; simp)
  rw [hins] at this
  cases this

end CsappLab.Sbuf
