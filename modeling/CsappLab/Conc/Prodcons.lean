import CsappLab.Conc.Sbuf

/-!
# The producer and the consumer of `prodconsn.c`

Two threads on a buffer of `sbuf.c`, whose `sbuf_remove` returns its item here. The steps inside a call are those of
`Conc.Sbuf`.
-/

namespace CsappLab.Prodcons

open Sbuf (SbufT Point SbufConf sbufInit)

def NITEMS : Nat := 5

def BUFSIZE : Nat := 4

/-- A thread in round `i`, or behind the call of round `i - 1`, with the items that it has printed. -/
structure Thread where
  produces : Bool
  i : Nat
  printed : List Int
  point : Point

/-- One step of `producer` or `consumer`; `none` while `P` waits and when the thread has returned. -/
def step (_ : Unit) (s : SbufT) (l : Thread) : Option (SbufT × Thread) :=
  match l.point with
  | .idle =>
    if l.i < NITEMS then
      if l.produces then
        some (s, { l with i := l.i + 1, printed := l.printed ++ [(l.i : Int)], point := .insertSlots l.i })
      else some (s, { l with i := l.i + 1, point := .removeItems })
    else none
  -- `return item`, and the consumer prints it
  | .removeRet k item =>
    some ({ s with returns := (k, item) :: s.returns }, { l with printed := l.printed ++ [item], point := .idle })
  | p => (Sbuf.step BUFSIZE ⟨none, 0⟩ s p).map fun sp => (sp.1, { l with point := sp.2 })

abbrev ProdConf := Conf (Fin 2) SbufT Thread

/-- Thread 0 runs `producer`, and thread 1 runs `consumer`. -/
def created : ProdConf := ⟨sbufInit BUFSIZE, fun t => ⟨t = 0, 0, [], .idle⟩⟩

def prodconsn : Machine ProdConf (Fin 2 × Unit) := Conf.threads (fun c => c = created) step

def Finished (c : ProdConf) : Prop := ∀ t, (c.loc t).point = .idle ∧ (c.loc t).i = NITEMS

def items (m : Nat) : List Int := (List.range m).map fun k : Nat => (k : Int)

@[simp] theorem length_items (m : Nat) : (items m).length = m := by simp [items]

theorem items_succ (m : Nat) : items (m + 1) = items m ++ [(m : Int)] := by simp [items, List.range_succ]

theorem items_get {m k : Nat} {x : Int} (h : (items m)[k]? = some x) : x = k := by
  unfold items at h
  rw [List.getElem?_map, Option.map_eq_some_iff] at h
  obtain ⟨a, ha, rfl⟩ := h
  rw [List.getElem?_range] at ha
  · rw [Option.some.inj ha]
  · by_contra hge
    rw [List.getElem?_eq_none (by simpa using hge)] at ha
    cases ha

theorem items_prefix {m n : Nat} (h : m ≤ n) : items m <+: items n := by
  obtain ⟨d, rfl⟩ := Nat.exists_eq_add_of_le h
  unfold items
  rw [List.range_add, List.map_append]
  exact List.prefix_append _ _

/-! ### The threads -/

/-- The producer between its calls and in them. -/
def Produces (s : SbufT) (l : Thread) : Prop :=
  l.produces = true ∧ l.i ≤ NITEMS ∧ s.inserts = items s.inserts.length ∧ l.printed = items l.i ∧
  match l.point with
  | .idle | .insertUnlock | .insertPost => s.inserts.length = l.i
  | .insertSlots x | .insertMutex x | .insertInc x | .insertStore x _ =>
    x = s.inserts.length ∧ s.inserts.length + 1 = l.i
  | _ => False

/-- The consumer between its calls and in them; `k` is the number of the item that it has loaded. -/
def Consumes (s : SbufT) (l : Thread) : Prop :=
  l.produces = false ∧ l.i ≤ NITEMS ∧ l.printed = items l.printed.length ∧
  match l.point with
  | .idle => s.loads.length = l.i ∧ l.printed.length = l.i
  | .removeItems | .removeMutex | .removeInc | .removeLoad _ =>
    s.loads.length + 1 = l.i ∧ l.printed.length + 1 = l.i
  | .removeUnlock k _ | .removePost k _ | .removeRet k _ =>
    s.loads.length = l.i ∧ k + 1 = l.i ∧ l.printed.length + 1 = l.i
  | _ => False

/-- More steps than the thread has before it. -/
def left (l : Thread) : Nat :=
  8 * (NITEMS - l.i) +
  match l.point with
  | .idle => 0
  | .insertSlots _ => 6
  | .insertMutex _ => 5
  | .insertInc _ => 4
  | .insertStore _ _ => 3
  | .insertUnlock => 2
  | .insertPost => 1
  | .removeItems => 7
  | .removeMutex => 6
  | .removeInc => 5
  | .removeLoad _ => 4
  | .removeUnlock _ _ => 3
  | .removePost _ _ => 2
  | .removeRet _ _ => 1

variable {c c' : ProdConf} {s s' : SbufT} {l l' : Thread} {t : Fin 2}

theorem step_sbuf (h : step () s l = some (s', l')) :
    (∃ ch, Sbuf.step BUFSIZE ch s l.point = some (s', l'.point) ∧
      ∀ k item, l.point = .removeRet k item → ch.ret = item) ∧ left l' < left l := by
  obtain ⟨produces, i, printed, point⟩ := l
  cases point
  case idle =>
    simp only [step] at h
    split_ifs at h with hi hp
    · cases h
      exact ⟨⟨⟨some i, 0⟩, rfl, by simp⟩, by simp only [left]; omega⟩
    · cases h
      exact ⟨⟨⟨none, 0⟩, rfl, by simp⟩, by simp only [left]; omega⟩
  case removeRet k item =>
    cases h
    refine ⟨⟨⟨none, item⟩, rfl, ?_⟩, by simp only [left]; omega⟩
    rintro _ _ heq
    cases heq
    rfl
  all_goals
    simp only [step, Option.map_eq_some_iff] at h
    obtain ⟨sp, hs, heq⟩ := h
    cases heq
    refine ⟨⟨⟨none, 0⟩, hs, by simp⟩, ?_⟩
    simp only [Sbuf.step] at hs
    first | (split_ifs at hs; cases hs) | cases hs
    simp only [left]
    omega

theorem Produces.next (h : Produces s l) (hs : step () s l = some (s', l')) :
    Produces s' l' ∧ s'.loads = s.loads := by
  obtain ⟨produces, i, printed, point⟩ := l
  obtain ⟨rfl, hle, hins, hprinted, hpoint⟩ := h
  cases point <;> simp only [Prodcons.step] at hs <;> try exact hpoint.elim
  case idle =>
    simp only at hpoint hprinted hle
    split_ifs at hs with hi
    cases hs
    refine ⟨⟨rfl, hi, hins, ?_, ?_⟩, rfl⟩
    · rw [items_succ, hprinted]
    · exact ⟨by rw [hpoint], by rw [hpoint]⟩
  case insertStore x j =>
    cases hs
    obtain ⟨rfl, hi⟩ := hpoint
    refine ⟨⟨rfl, hle, ?_, hprinted, ?_⟩, rfl⟩
    · simp only [List.length_append, List.length_singleton, items_succ]
      rw [← hins]
    · simpa using hi
  all_goals
    simp only [Sbuf.step, Option.map_eq_some_iff] at hs
    obtain ⟨sp, hs, heq⟩ := hs
    first | (split_ifs at hs; cases hs) | cases hs
    cases heq
    exact ⟨⟨rfl, hle, hins, hprinted, hpoint⟩, rfl⟩

theorem Consumes.next (h : Consumes s l) (hs : step () s l = some (s', l'))
    (hitem : ∀ k item, l.point = .removeRet k item → item = k) : Consumes s' l' ∧ s'.inserts = s.inserts := by
  obtain ⟨produces, i, printed, point⟩ := l
  obtain ⟨rfl, hle, hprinted, hpoint⟩ := h
  cases point <;> simp only [Prodcons.step] at hs <;> try exact hpoint.elim
  case idle =>
    simp only at hpoint hprinted hle
    split_ifs at hs with hi
    · contradiction
    · cases hs
      exact ⟨⟨rfl, hi, hprinted, by rw [hpoint.1], by rw [hpoint.2]⟩, rfl⟩
  case removeLoad j =>
    cases hs
    obtain ⟨hloads, hlen⟩ := hpoint
    exact ⟨⟨rfl, hle, hprinted, by simpa using hloads, hloads, hlen⟩, rfl⟩
  case removeRet k item =>
    cases hs
    obtain ⟨hloads, hk, hlen⟩ := hpoint
    obtain rfl := hitem k item rfl
    refine ⟨⟨rfl, hle, ?_, hloads, ?_⟩, rfl⟩
    · have hkl : k = printed.length := by
        simp only at hk hlen
        omega
      simp only [List.length_append, List.length_singleton, items_succ]
      rw [← hprinted, hkl]
    · simpa using hlen
  all_goals
    simp only [Sbuf.step, Option.map_eq_some_iff] at hs
    obtain ⟨sp, hs, heq⟩ := hs
    first | (split_ifs at hs; cases hs) | cases hs
    cases heq
    exact ⟨⟨rfl, hle, hprinted, hpoint⟩, rfl⟩

/-! ### The system -/

/-- What the buffer sees of the threads. -/
def ofBuffer (c : ProdConf) : SbufConf (Fin 2) := ⟨c.shared, fun t => (c.loc t).point⟩

structure Inv (c : ProdConf) : Prop where
  buffer : Sbuf.Inv BUFSIZE (ofBuffer c)
  producer : Produces c.shared (c.loc 0)
  consumer : Consumes c.shared (c.loc 1)

theorem Produces.congr (h : Produces s l) (hins : s'.inserts = s.inserts) : Produces s' l := by
  unfold Produces at h ⊢
  rw [hins]
  exact h

theorem Consumes.congr (h : Consumes s l) (hloads : s'.loads = s.loads) : Consumes s' l := by
  unfold Consumes at h ⊢
  rw [hloads]
  exact h

theorem Produces.length_le (h : Produces s l) : s.inserts.length ≤ l.i ∧ l.i ≤ NITEMS := by
  obtain ⟨-, hle, -, -, hpoint⟩ := h
  refine ⟨?_, hle⟩
  split at hpoint <;> first | exact hpoint.elim | omega

theorem Consumes.length_le (h : Consumes s l) : l.printed.length ≤ s.loads.length := by
  obtain ⟨-, -, -, hpoint⟩ := h
  split at hpoint <;> first | exact hpoint.elim | omega

theorem Produces.waits (h : Produces s l) (hs : step () s l = none) (hmutex : 0 < s.mutex) :
    l.point = .idle ∧ l.i = NITEMS ∨ ∃ x, l.point = .insertSlots x ∧ s.slots = 0 := by
  obtain ⟨produces, i, printed, point⟩ := l
  obtain ⟨rfl, hle, -, -, hpoint⟩ := h
  cases point <;> simp only [Prodcons.step] at hs <;> try exact hpoint.elim
  case idle =>
    split_ifs at hs with hi
    exact .inl ⟨rfl, le_antisymm hle (Nat.not_lt.1 hi)⟩
  case insertSlots x =>
    simp only [Sbuf.step, Option.map_eq_none_iff] at hs
    split_ifs at hs with hpos
    exact .inr ⟨x, rfl, by omega⟩
  case insertMutex x =>
    simp only [Sbuf.step, if_pos hmutex] at hs
    cases hs
  all_goals cases hs

theorem Consumes.waits (h : Consumes s l) (hs : step () s l = none) (hmutex : 0 < s.mutex) :
    l.point = .idle ∧ l.i = NITEMS ∨ l.point = .removeItems ∧ s.items = 0 := by
  obtain ⟨produces, i, printed, point⟩ := l
  obtain ⟨rfl, hle, -, hpoint⟩ := h
  cases point <;> simp only [Prodcons.step] at hs <;> try exact hpoint.elim
  case idle =>
    split_ifs at hs with hi
    exact .inl ⟨rfl, le_antisymm hle (Nat.not_lt.1 hi)⟩
  case removeItems =>
    simp only [Sbuf.step, Option.map_eq_none_iff] at hs
    split_ifs at hs with hpos
    exact .inr ⟨rfl, by omega⟩
  case removeMutex =>
    simp only [Sbuf.step, if_pos hmutex] at hs
    cases hs
  all_goals cases hs

namespace Inv

theorem item (h : Inv c) {k : Nat} {x : Int} (hp : (c.loc 1).point = .removeRet k x) : x = k := by
  have hgot := h.buffer.got 1
  simp only [ofBuffer, hp] at hgot
  have hins := h.buffer.fifo _ _ hgot
  simp only [ofBuffer] at hins
  rw [h.producer.2.2.1] at hins
  exact items_get hins

theorem small (h : Inv c) : c.shared.rear < 2 ^ 31 - 1 ∧ c.shared.front < 2 ^ 31 - 1 := by
  have hone : ∀ p : Point, p.storing ≤ 1 ∧ p.loading ≤ 1 := by
    intro p
    cases p <;> simp [Point.storing, Point.loading]
  have hrear := h.buffer.rear
  have hfront := h.buffer.front
  rw [Fin.sum_univ_two] at hrear hfront
  have h0 := hone ((ofBuffer c).loc 0)
  have h1 := hone ((ofBuffer c).loc 1)
  have hlower := (h.buffer.bufferOk (by decide)).lower
  have hle := h.producer.length_le
  have hn : NITEMS = 5 := rfl
  simp only [ofBuffer] at *
  omega

theorem move (h : Inv c) (hstep : c.move step t () = some c') : Inv c' := by
  obtain ⟨s, l, hs, rfl⟩ := Conf.move_eq_some.1 hstep
  obtain ⟨ch, hbuf, hret⟩ := (step_sbuf hs).1
  have hupdate : ofBuffer ⟨s, Function.update c.loc t l⟩ =
      ⟨s, Function.update (ofBuffer c).loc t l.point⟩ := by
    simp only [ofBuffer, Conf.mk.injEq, true_and]
    funext j
    by_cases hj : j = t
    · rw [hj, Function.update_self, Function.update_self]
    · rw [Function.update_of_ne hj, Function.update_of_ne hj]
  have hbuffer : Sbuf.Inv BUFSIZE (ofBuffer ⟨s, Function.update c.loc t l⟩) := by
    have hmove : (ofBuffer c).move (Sbuf.step BUFSIZE) t ch =
        some ⟨s, Function.update (ofBuffer c).loc t l.point⟩ := Conf.move_eq_some.2 ⟨s, l.point, hbuf, rfl⟩
    rw [hupdate]
    refine h.buffer.move ?_ hmove
    unfold Sbuf.StepOk
    simp only [ofBuffer]
    split
    · exact h.small.1
    · exact h.small.2
    · exact hret _ _ ‹_›
    · trivial
  match t with
  | 0 =>
    obtain ⟨hproducer, hloads⟩ := h.producer.next hs
    exact ⟨hbuffer, hproducer, h.consumer.congr hloads⟩
  | 1 =>
    obtain ⟨hconsumer, hinserts⟩ := h.consumer.next hs fun k x hp => h.item hp
    exact ⟨hbuffer, h.producer.congr hinserts, hconsumer⟩

theorem init : Inv created :=
  ⟨Sbuf.Inv.init BUFSIZE, ⟨rfl, Nat.zero_le _, rfl, rfl, rfl⟩, ⟨rfl, Nat.zero_le _, rfl, rfl, rfl⟩⟩

theorem reach (h : prodconsn.Reachable c) : Inv c := by
  refine Machine.Reach.invariant h ?_ fun c l c' hi _ hst => hi.move hst
  rintro c rfl
  exact init

theorem critical (hcrit : l.point.crit = 1) : (step () s l).isSome := by
  obtain ⟨produces, i, printed, point⟩ := l
  cases point <;> first | rfl | cases hcrit

/-- Both threads cannot wait for each other: the buffer is not full and empty at the same time. -/
theorem progress (h : Inv c) (hfin : ¬ Finished c) : ∃ t c', c.move step t () = some c' := by
  by_contra hnone
  have hwait : ∀ t, step () c.shared (c.loc t) = none := Conf.step_eq_none hnone
  have hcrit : ∀ t, (c.loc t).point.crit = 0 := by
    intro t
    by_contra hne
    have hone : (c.loc t).point.crit = 1 := by
      cases hp : (c.loc t).point <;> rw [hp] at hne <;> first | rfl | exact absurd rfl hne
    have := critical (s := c.shared) hone
    rw [hwait t] at this
    cases this
  have hmutex := h.buffer.mutex
  have hslots := h.buffer.slots
  have hitems := h.buffer.items
  rw [Fin.sum_univ_two] at hmutex
  rw [Fin.sum_univ_two, Fin.sum_univ_two] at hslots hitems
  simp only [ofBuffer, hcrit] at hmutex hslots hitems
  have hproducer := h.producer.waits (hwait 0) (by omega)
  have hconsumer := h.consumer.waits (hwait 1) (by omega)
  have hinserts := h.producer.2.2.2.2
  have hloads := h.consumer.2.2.2
  have hn : NITEMS = 5 := rfl
  have hsize : BUFSIZE = 4 := rfl
  rcases hproducer with ⟨hp, hi⟩ | ⟨x, hp, hzero⟩ <;> rcases hconsumer with ⟨hq, hj⟩ | ⟨hq, hnone'⟩ <;>
    simp only [hp, hq, Point.slot, Point.freed, Point.stored, Point.item] at hslots hitems hinserts hloads
  · refine hfin fun t => ?_
    match t with
    | 0 => exact ⟨hp, hi⟩
    | 1 => exact ⟨hq, hj⟩
  · have := h.consumer.2.1
    omega
  · have := h.producer.2.1
    omega
  · omega

end Inv

theorem length_le {ls : List (Fin 2 × Unit)} (h : prodconsn.Steps c ls c') :
    ls.length + ∑ j, left (c'.loc j) ≤ ∑ j, left (c.loc j) :=
  Conf.length_le left (I := fun _ => True) (fun _ _ _ _ _ _ => trivial) (fun _ _ _ _ _ _ hs => (step_sbuf hs).2)
    trivial h

/-- What can be seen of the program: the consumer prints the items in the order in which the producer has printed
them, and all of them in the end, which is reached whatever the order of the steps is. -/
structure Works (c : ProdConf) : Prop where
  behind : (c.loc 1).printed <+: (c.loc 0).printed
  order : (c.loc 0).printed <+: items NITEMS
  room : c.shared.inserts.length ≤ c.shared.loads.length + BUFSIZE
  finished : Finished c → (c.loc 1).printed = items NITEMS
  goes_on : ¬ Finished c → ∃ t c', c.move step t () = some c'

theorem Inv.works (h : Inv c) : Works c := by
  have hbuffer := h.buffer.bufferOk (by decide)
  have hlower : c.shared.loads.length ≤ c.shared.inserts.length := hbuffer.lower
  obtain ⟨hins, hle⟩ := h.producer.length_le
  have hloads := h.consumer.length_le
  obtain ⟨-, -, -, hproduced, -⟩ := h.producer
  obtain ⟨-, -, hconsumed, hpoint⟩ := h.consumer
  refine ⟨?_, ?_, hbuffer.upper, fun hfin => ?_, h.progress⟩
  · rw [hproduced, hconsumed]
    exact items_prefix (by omega)
  · rw [hproduced]
    exact items_prefix hle
  · obtain ⟨hidle, hi⟩ := hfin 1
    rw [hidle] at hpoint
    rw [hconsumed, hpoint.2, hi]

/-- **`prodconsn.c`** works in every run, and no run has more than 80 steps. -/
theorem prodconsn_works : (∀ c, prodconsn.Reachable c → Works c) ∧
    ∀ c ls c', prodconsn.init c → prodconsn.Steps c ls c' → ls.length ≤ 2 * (8 * NITEMS) := by
  refine ⟨fun c h => (Inv.reach h).works, ?_⟩
  rintro c ls c' rfl hrun
  have hle := length_le hrun
  have hleft : ∑ j, left (created.loc j) = 2 * (8 * NITEMS) := rfl
  omega

end CsappLab.Prodcons
