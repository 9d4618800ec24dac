import CsappLab.Lib.Threads

/-!
# The readers-writers locks of `proxy.c`

`readerPre`, `readerAfter`, `writerPre` and `writerAfter` in atomic steps, called from a program with
points `K`. What a program holds at a point is written down by `r` (outstanding calls of `readerPre`)
and `w`; a program whose statements keep these books (`Balanced`) never has a writer next to a reader
or another writer.
-/

namespace CsappLab.Proxy

/-- The lock fields of a `cache_block`. -/
structure Lock where
  readcnt : Int
  rdcntmutex : Nat
  wmutex : Nat
deriving DecidableEq

def Lock.init : Lock := ⟨0, 1, 1⟩

/-- The next statement of `readerPre`. -/
inductive Pre
  | lock
  | count
  | test
  | firstIn
  | unlock
deriving DecidableEq

/-- The next statement of `readerAfter`. -/
inductive After
  | lock
  | count
  | test
  | lastOut
  | unlock
deriving DecidableEq

/-- Where a thread is: at a point of its program, or in a call for block `i` that returns to `k`. -/
inductive Loc (B K : Type*)
  | point (k : K)
  | readerPre (m : Pre) (i : B) (k : K)
  | readerAfter (m : After) (i : B) (k : K)
  | writerPre (i : B) (k : K)
  | writerAfter (i : B) (k : K)
deriving DecidableEq

variable {B K : Type*} [DecidableEq B]

/-- One statement of a call; `none` while `P` waits. -/
def lockStep (locks : B → Lock) : Loc B K → Option ((B → Lock) × Loc B K)
  | .point _ => none
  | .readerPre .lock i k =>
    if 0 < (locks i).rdcntmutex then
      some (Function.update locks i { locks i with rdcntmutex := (locks i).rdcntmutex - 1 },
        .readerPre .count i k)
    else none
  | .readerPre .count i k =>
    some (Function.update locks i { locks i with readcnt := (locks i).readcnt + 1 }, .readerPre .test i k)
  | .readerPre .test i k => some (locks, .readerPre (if (locks i).readcnt = 1 then .firstIn else .unlock) i k)
  | .readerPre .firstIn i k =>
    if 0 < (locks i).wmutex then
      some (Function.update locks i { locks i with wmutex := (locks i).wmutex - 1 }, .readerPre .unlock i k)
    else none
  | .readerPre .unlock i k =>
    some (Function.update locks i { locks i with rdcntmutex := (locks i).rdcntmutex + 1 }, .point k)
  | .readerAfter .lock i k =>
    if 0 < (locks i).rdcntmutex then
      some (Function.update locks i { locks i with rdcntmutex := (locks i).rdcntmutex - 1 },
        .readerAfter .count i k)
    else none
  | .readerAfter .count i k =>
    some (Function.update locks i { locks i with readcnt := (locks i).readcnt - 1 }, .readerAfter .test i k)
  | .readerAfter .test i k =>
    some (locks, .readerAfter (if (locks i).readcnt = 0 then .lastOut else .unlock) i k)
  | .readerAfter .lastOut i k =>
    some (Function.update locks i { locks i with wmutex := (locks i).wmutex + 1 }, .readerAfter .unlock i k)
  | .readerAfter .unlock i k =>
    some (Function.update locks i { locks i with rdcntmutex := (locks i).rdcntmutex + 1 }, .point k)
  | .writerPre i k =>
    if 0 < (locks i).wmutex then
      some (Function.update locks i { locks i with wmutex := (locks i).wmutex - 1 }, .point k)
    else none
  | .writerAfter i k =>
    some (Function.update locks i { locks i with wmutex := (locks i).wmutex + 1 }, .point k)

/-- The locks and the data they protect. -/
structure Shared (B D : Type*) where
  locks : B → Lock
  data : D

variable {C D : Type*}

/-- A step of a thread whose program does `act` at its points. -/
def step (act : C → D → K → Option (D × Loc B K)) (ch : C) (s : Shared B D) (l : Loc B K) :
    Option (Shared B D × Loc B K) :=
  match l with
  | .point k => (act ch s.data k).map fun dl => (⟨s.locks, dl.1⟩, dl.2)
  | l => (lockStep s.locks l).map fun ll => (⟨ll.1, s.data⟩, ll.2)

/-! ### What a thread holds -/

section Held

variable (r w : K → B → Nat) (b : B)

/-- Between the return of a `readerPre(b)` and its `readerAfter(b)`, how many times. -/
def Loc.readers : Loc B K → Nat
  | .point k | .readerAfter _ _ k | .writerPre _ k | .writerAfter _ k => r k b
  | .readerPre _ i k => if b = i then r k b - 1 else r k b

/-- Between the return of a `writerPre(b)` and its `writerAfter(b)`. -/
def Loc.writers : Loc B K → Nat
  | .point k | .readerPre _ _ k | .readerAfter _ _ k | .writerAfter _ k => w k b
  | .writerPre i k => if b = i then w k b - 1 else w k b

/-- The part of a thread in `readcnt`. -/
def Loc.cnt : Loc B K → Nat
  | .point k | .writerPre _ k | .writerAfter _ k => r k b
  | .readerPre m i k => if b = i ∧ (m = .lock ∨ m = .count) then r k b - 1 else r k b
  | .readerAfter m i k => if b = i ∧ (m = .lock ∨ m = .count) then r k b + 1 else r k b

/-- The part of a thread in the group of readers that has taken `wmutex`. -/
def Loc.reg : Loc B K → Nat
  | .point k | .writerPre _ k | .writerAfter _ k => r k b
  | .readerPre m i k => if b = i ∧ m ≠ .unlock then r k b - 1 else r k b
  | .readerAfter m i k => if b = i ∧ m ≠ .unlock then r k b + 1 else r k b

def Loc.wr : Loc B K → Nat
  | .point k | .readerPre _ _ k | .readerAfter _ _ k => w k b
  | .writerPre i k => if b = i then w k b - 1 else w k b
  | .writerAfter i k => if b = i then w k b + 1 else w k b

def Loc.inRd : Loc B K → Nat
  | .point _ | .writerPre _ _ | .writerAfter _ _ => 0
  | .readerPre m i _ => if b = i ∧ m ≠ .lock then 1 else 0
  | .readerAfter m i _ => if b = i ∧ m ≠ .lock then 1 else 0

/-! Only the calls are looked at, so that sums over the threads stay folded. -/

section Simp

variable {r w b} {i : B} {k : K} {m : Pre} {m' : After}

@[simp] theorem cnt_point : (Loc.point k : Loc B K).cnt r b = r k b := rfl
@[simp] theorem cnt_readerPre : (Loc.readerPre m i k).cnt r b =
    if b = i ∧ (m = .lock ∨ m = .count) then r k b - 1 else r k b := rfl
@[simp] theorem cnt_readerAfter : (Loc.readerAfter m' i k).cnt r b =
    if b = i ∧ (m' = .lock ∨ m' = .count) then r k b + 1 else r k b := rfl
@[simp] theorem cnt_writerPre : (Loc.writerPre i k).cnt r b = r k b := rfl
@[simp] theorem cnt_writerAfter : (Loc.writerAfter i k).cnt r b = r k b := rfl
@[simp] theorem reg_point : (Loc.point k : Loc B K).reg r b = r k b := rfl
@[simp] theorem reg_readerPre : (Loc.readerPre m i k).reg r b =
    if b = i ∧ m ≠ .unlock then r k b - 1 else r k b := rfl
@[simp] theorem reg_readerAfter : (Loc.readerAfter m' i k).reg r b =
    if b = i ∧ m' ≠ .unlock then r k b + 1 else r k b := rfl
@[simp] theorem reg_writerPre : (Loc.writerPre i k).reg r b = r k b := rfl
@[simp] theorem reg_writerAfter : (Loc.writerAfter i k).reg r b = r k b := rfl
@[simp] theorem wr_point : (Loc.point k : Loc B K).wr w b = w k b := rfl
@[simp] theorem wr_readerPre : (Loc.readerPre m i k).wr w b = w k b := rfl
@[simp] theorem wr_readerAfter : (Loc.readerAfter m' i k).wr w b = w k b := rfl
@[simp] theorem wr_writerPre : (Loc.writerPre i k).wr w b = if b = i then w k b - 1 else w k b := rfl
@[simp] theorem wr_writerAfter : (Loc.writerAfter i k).wr w b = if b = i then w k b + 1 else w k b := rfl
@[simp] theorem inRd_point : (Loc.point k : Loc B K).inRd b = 0 := rfl
@[simp] theorem inRd_readerPre : (Loc.readerPre m i k).inRd b = if b = i ∧ m ≠ .lock then 1 else 0 := rfl
@[simp] theorem inRd_readerAfter : (Loc.readerAfter m' i k).inRd b = if b = i ∧ m' ≠ .lock then 1 else 0 :=
  rfl
@[simp] theorem inRd_writerPre : (Loc.writerPre i k).inRd b = 0 := rfl
@[simp] theorem inRd_writerAfter : (Loc.writerAfter i k).inRd b = 0 := rfl

end Simp

/-- A call returns to a point where what it takes is held. -/
def Loc.Ok : Loc B K → Prop
  | .readerPre _ i k => 0 < r k i
  | .writerPre i k => 0 < w k i
  | _ => True

/-- The point a thread is at or its call returns to. -/
def Loc.cont : Loc B K → K
  | .point k | .readerPre _ _ k | .readerAfter _ _ k | .writerPre _ k | .writerAfter _ k => k

/-- A call starts with its first statement. -/
def Loc.Entry : Loc B K → Prop
  | .readerPre m _ _ => m = .lock
  | .readerAfter m _ _ => m = .lock
  | _ => True

/-- Every statement of the program leads to a point or a call that agrees with the books. -/
structure Balanced (act : C → D → K → Option (D × Loc B K)) : Prop where
  cnt : ∀ {ch d k d' l}, act ch d k = some (d', l) → ∀ b, l.cnt r b = r k b
  wr : ∀ {ch d k d' l}, act ch d k = some (d', l) → ∀ b, l.wr w b = w k b
  ok : ∀ {ch d k d' l}, act ch d k = some (d', l) → l.Ok r w
  entry : ∀ {ch d k d' l}, act ch d k = some (d', l) → l.Entry

end Held

/-- A call returns where it was to return, and leaves the point only at its end. -/
theorem lockStep_cont {locks locks' : B → Lock} {l l' : Loc B K}
    (h : lockStep locks l = some (locks', l')) : l'.cont = l.cont := by
  cases l with
  | point k => cases h
  | readerPre m i k =>
    cases m <;> simp only [lockStep, Option.ite_none_right_eq_some, Option.some.injEq, Prod.mk.injEq] at h
    all_goals first | rw [← h.2] | rw [← h.2.2]
    all_goals rfl
  | readerAfter m i k =>
    cases m <;> simp only [lockStep, Option.ite_none_right_eq_some, Option.some.injEq, Prod.mk.injEq] at h
    all_goals first | rw [← h.2] | rw [← h.2.2]
    all_goals rfl
  | writerPre i k =>
    simp only [lockStep, Option.ite_none_right_eq_some, Option.some.injEq, Prod.mk.injEq] at h
    rw [← h.2.2]
    rfl
  | writerAfter i k =>
    simp only [lockStep, Option.some.injEq, Prod.mk.injEq] at h
    rw [← h.2]
    rfl

/-! ### The invariant -/

section Inv

variable {T : Type*} [DecidableEq T] [Fintype T] {r w : K → B → Nat} {b i : B} {lock lock' : Lock}
  {locks locks' : B → Lock} {loc : T → Loc B K} {l l' : Loc B K} {t j : T} {k : K}

/-- The lock fields of block `b`, from what the threads hold. -/
structure BlockInv (r w : K → B → Nat) (b : B) (lock : Lock) (loc : T → Loc B K) : Prop where
  rd : lock.rdcntmutex + ∑ t, (loc t).inRd b = 1
  cnt : lock.readcnt = (∑ t, (loc t).cnt r b : Nat)
  wm : ∑ t, (loc t).reg r b = 0 ∧ lock.wmutex + ∑ t, (loc t).wr w b = 1 ∨
    0 < ∑ t, (loc t).reg r b ∧ lock.wmutex = 0 ∧ ∑ t, (loc t).wr w b = 0
  lastOut : ∀ t k, loc t = .readerAfter .lastOut b k → lock.readcnt = 0

structure LockInv (r w : K → B → Nat) (locks : B → Lock) (loc : T → Loc B K) : Prop where
  block : ∀ b, BlockInv r w b (locks b) loc
  ok : ∀ t, (loc t).Ok r w

theorem Loc.cnt_eq_reg (h : l.inRd b = 0) : l.cnt r b = l.reg r b := by
  cases l with
  | readerPre m i k => cases m <;> simp_all
  | readerAfter m i k => cases m <;> simp_all
  | _ => rfl

theorem BlockInv.alone (h : BlockInv r w b lock loc) (ht : 0 < (loc t).inRd b) :
    ∑ j, (loc j).cnt r b + (loc t).reg r b = ∑ j, (loc j).reg r b + (loc t).cnt r b := by
  refine sum_add_eq fun j hj => Loc.cnt_eq_reg ?_
  have hle := h.rd
  exact eq_zero_of_sum_le_one (f := Loc.inRd b) (by omega) ht hj

theorem BlockInv.frame (h : BlockInv r w b lock loc) (h1 : l'.inRd b = (loc t).inRd b)
    (h2 : l'.cnt r b = (loc t).cnt r b) (h3 : l'.reg r b = (loc t).reg r b)
    (h4 : l'.wr w b = (loc t).wr w b) (h5 : ∀ k, l' ≠ .readerAfter .lastOut b k) :
    BlockInv r w b lock (Function.update loc t l') := by
  have e1 := sum_update (Loc.inRd b) loc t l'
  have e2 := sum_update (Loc.cnt r b) loc t l'
  have e3 := sum_update (Loc.reg r b) loc t l'
  have e4 := sum_update (Loc.wr w b) loc t l'
  obtain ⟨hrd, hcnt, hwm, hlast⟩ := h
  refine ⟨by omega, by omega, by omega, fun j k hj => ?_⟩
  by_cases hjt : j = t
  · subst hjt
    rw [Function.update_self] at hj
    exact absurd hj (h5 k)
  · rw [Function.update_of_ne hjt] at hj
    exact hlast j k hj

/-- A step that changes the block; `R` and `W` are the sums before it. -/
theorem BlockInv.change {R W : Nat} (h : BlockInv r w b lock loc) (hR : ∑ j, (loc j).reg r b = R)
    (hW : ∑ j, (loc j).wr w b = W)
    (hrd : lock'.rdcntmutex + l'.inRd b = lock.rdcntmutex + (loc t).inRd b)
    (hcnt : lock'.readcnt + (loc t).cnt r b = lock.readcnt + l'.cnt r b)
    (hwm : R + l'.reg r b = (loc t).reg r b ∧ lock'.wmutex + l'.wr w b + W = 1 + (loc t).wr w b ∨
      (loc t).reg r b < R + l'.reg r b ∧ lock'.wmutex = 0 ∧ l'.wr w b + W = (loc t).wr w b)
    (hlast : ∀ k, l' = .readerAfter .lastOut b k → lock'.readcnt = 0)
    (hother : ∀ j k, j ≠ t → loc j = .readerAfter .lastOut b k → lock'.readcnt = lock.readcnt) :
    BlockInv r w b lock' (Function.update loc t l') := by
  have e1 := sum_update (Loc.inRd b) loc t l'
  have e2 := sum_update (Loc.cnt r b) loc t l'
  have e3 := sum_update (Loc.reg r b) loc t l'
  have e4 := sum_update (Loc.wr w b) loc t l'
  have h1 := h.rd
  have h2 := h.cnt
  subst hR hW
  refine ⟨by omega, by omega, by omega, fun j k hj => ?_⟩
  by_cases hjt : j = t
  · subst hjt
    rw [Function.update_self] at hj
    exact hlast k hj
  · rw [Function.update_of_ne hjt] at hj
    rw [hother j k hjt hj]
    exact h.lastOut j k hj

/-- A step that concerns block `i` only. -/
theorem LockInv.change (h : LockInv r w locks loc) (hi : BlockInv r w i lock' (Function.update loc t l'))
    (hframe : ∀ b, b ≠ i → l'.inRd b = (loc t).inRd b ∧ l'.cnt r b = (loc t).cnt r b ∧
      l'.reg r b = (loc t).reg r b ∧ l'.wr w b = (loc t).wr w b)
    (hlast : ∀ b k, l' = .readerAfter .lastOut b k → b = i) (hok : l'.Ok r w) :
    LockInv r w (Function.update locks i lock') (Function.update loc t l') := by
  refine ⟨fun b => ?_, fun j => ?_⟩
  · by_cases hb : b = i
    · subst hb
      rwa [Function.update_self]
    · rw [Function.update_of_ne hb]
      obtain ⟨h1, h2, h3, h4⟩ := hframe b hb
      exact (h.block b).frame h1 h2 h3 h4 fun k hk => hb (hlast b k hk)
  · by_cases hj : j = t
    · subst hj
      rwa [Function.update_self]
    · rw [Function.update_of_ne hj]
      exact h.ok j

/-- In the critical section of `rdcntmutex` no other thread is about to execute `lastOut`. -/
theorem BlockInv.not_lastOut (h : BlockInv r w b lock loc) (ht : 0 < (loc t).inRd b) (hj : j ≠ t) (k : K) :
    loc j ≠ .readerAfter .lastOut b k := by
  intro hl
  have hle := h.rd
  have h0 := eq_zero_of_sum_le_one (f := Loc.inRd b) (by omega) ht hj
  rw [hl] at h0
  simp [Loc.inRd] at h0

theorem LockInv.change_loc (h : LockInv r w locks loc)
    (hi : BlockInv r w i (locks i) (Function.update loc t l'))
    (hframe : ∀ b, b ≠ i → l'.inRd b = (loc t).inRd b ∧ l'.cnt r b = (loc t).cnt r b ∧
      l'.reg r b = (loc t).reg r b ∧ l'.wr w b = (loc t).wr w b)
    (hlast : ∀ b k, l' = .readerAfter .lastOut b k → b = i) (hok : l'.Ok r w) :
    LockInv r w locks (Function.update loc t l') := by
  have := h.change hi hframe hlast hok
  rwa [Function.update_eq_self] at this

theorem LockInv.readerPre {m : Pre} (h : LockInv r w locks loc) (hl : loc t = .readerPre m i k)
    (hs : lockStep locks (.readerPre m i k) = some (locks', l')) :
    LockInv r w locks' (Function.update loc t l') := by
  have hb := h.block i
  have hpos : 0 < r k i := by
    have := h.ok t
    rwa [hl] at this
  have h2 := hb.cnt
  have h3 := hb.wm
  have hle := le_sum (Loc.reg r i) loc t
  have ha := hb.alone (t := t)
  obtain ⟨N, hN⟩ : ∃ N, ∑ j, (loc j).cnt r i = N := ⟨_, rfl⟩
  obtain ⟨R, hR⟩ : ∃ R, ∑ j, (loc j).reg r i = R := ⟨_, rfl⟩
  obtain ⟨W, hW⟩ : ∃ W, ∑ j, (loc j).wr w i = W := ⟨_, rfl⟩
  rw [hN] at h2 ha
  rw [hR] at h3 ha hle
  rw [hW] at h3
  cases m with
  | lock =>
    simp only [lockStep, Option.ite_none_right_eq_some, Option.some.injEq, Prod.mk.injEq] at hs
    obtain ⟨hp, rfl, rfl⟩ := hs
    refine h.change (hb.change hR hW ?_ ?_ ?_ ?_ ?_) ?_ ?_ hpos
    · simp [hl]
      omega
    · simp [hl]
    · simp [hl] at hle ⊢
      omega
    · simp
    · simp
    · intro b hbi
      simp [hl, hbi]
    · simp
  | count =>
    simp only [lockStep, Option.some.injEq, Prod.mk.injEq] at hs
    obtain ⟨rfl, rfl⟩ := hs
    refine h.change (hb.change hR hW ?_ ?_ ?_ ?_ ?_) ?_ ?_ hpos
    · simp [hl]
    · simp [hl]
      omega
    · simp [hl] at hle ⊢
      omega
    · simp
    · intro j k' hj hlj
      exact absurd hlj (hb.not_lastOut (by simp [hl]) hj k')
    · intro b hbi
      simp [hl, hbi]
    · simp
  | test =>
    simp only [lockStep, Option.some.injEq, Prod.mk.injEq] at hs
    obtain ⟨rfl, rfl⟩ := hs
    simp [hl] at ha hle
    refine h.change_loc (hb.change hR hW ?_ ?_ ?_ ?_ ?_) ?_ ?_ hpos
    · split_ifs <;> simp [hl]
    · split_ifs <;> simp [hl]
    -- if `readcnt` is not 1, another reader has taken `wmutex`
    · split_ifs with h0
      · simp [hl]
        omega
      · simp [hl]
        omega
    · simp
    · simp
    · intro b hbi
      simp [hl, hbi]
    · simp
  | firstIn =>
    simp only [lockStep, Option.ite_none_right_eq_some, Option.some.injEq, Prod.mk.injEq] at hs
    obtain ⟨hp, rfl, rfl⟩ := hs
    refine h.change (hb.change hR hW ?_ ?_ ?_ ?_ ?_) ?_ ?_ hpos
    · simp [hl]
    · simp [hl]
    · simp [hl] at hle ⊢
      omega
    · simp
    · simp
    · intro b hbi
      simp [hl, hbi]
    · simp
  | unlock =>
    simp only [lockStep, Option.some.injEq, Prod.mk.injEq] at hs
    obtain ⟨rfl, rfl⟩ := hs
    refine h.change (hb.change hR hW ?_ ?_ ?_ ?_ ?_) ?_ ?_ trivial
    · simp [hl]
    · simp [hl]
    · simp [hl] at hle ⊢
      omega
    · simp
    · simp
    · intro b hbi
      simp [hl, hbi]
    · simp

theorem LockInv.readerAfter {m : After} (h : LockInv r w locks loc) (hl : loc t = .readerAfter m i k)
    (hs : lockStep locks (.readerAfter m i k) = some (locks', l')) :
    LockInv r w locks' (Function.update loc t l') := by
  have hb := h.block i
  have h2 := hb.cnt
  have h3 := hb.wm
  have hle := le_sum (Loc.reg r i) loc t
  have ha := hb.alone (t := t)
  obtain ⟨N, hN⟩ : ∃ N, ∑ j, (loc j).cnt r i = N := ⟨_, rfl⟩
  obtain ⟨R, hR⟩ : ∃ R, ∑ j, (loc j).reg r i = R := ⟨_, rfl⟩
  obtain ⟨W, hW⟩ : ∃ W, ∑ j, (loc j).wr w i = W := ⟨_, rfl⟩
  rw [hN] at h2 ha
  rw [hR] at h3 ha hle
  rw [hW] at h3
  cases m with
  | lock =>
    simp only [lockStep, Option.ite_none_right_eq_some, Option.some.injEq, Prod.mk.injEq] at hs
    obtain ⟨hp, rfl, rfl⟩ := hs
    refine h.change (hb.change hR hW ?_ ?_ ?_ ?_ ?_) ?_ ?_ trivial
    · simp [hl]
      omega
    · simp [hl]
    · simp [hl] at hle ⊢
      omega
    · simp
    · simp
    · intro b hbi
      simp [hl, hbi]
    · simp
  | count =>
    simp only [lockStep, Option.some.injEq, Prod.mk.injEq] at hs
    obtain ⟨rfl, rfl⟩ := hs
    refine h.change (hb.change hR hW ?_ ?_ ?_ ?_ ?_) ?_ ?_ trivial
    · simp [hl]
    · simp [hl]
    · simp [hl] at hle ⊢
      omega
    · simp
    · intro j k' hj hlj
      exact absurd hlj (hb.not_lastOut (by simp [hl]) hj k')
    · intro b hbi
      simp [hl, hbi]
    · simp
  | test =>
    simp only [lockStep, Option.some.injEq, Prod.mk.injEq] at hs
    obtain ⟨rfl, rfl⟩ := hs
    simp [hl] at ha hle
    refine h.change_loc (hb.change hR hW ?_ ?_ ?_ ?_ ?_) ?_ ?_ trivial
    · split_ifs <;> simp [hl]
    · split_ifs <;> simp [hl]
    -- if `readcnt` is not 0, the group keeps `wmutex`
    · split_ifs with h0
      · simp [hl]
        omega
      · simp [hl]
        omega
    · intro k' hk'
      split_ifs at hk' with h0
      · exact h0
      · cases hk'
    · simp
    · intro b hbi
      simp [hl, hbi]
    · intro b k' hk'
      simp at hk'
      exact hk'.2.1.symm
  | lastOut =>
    simp only [lockStep, Option.some.injEq, Prod.mk.injEq] at hs
    obtain ⟨rfl, rfl⟩ := hs
    have h0 := hb.lastOut t k hl
    simp [hl] at ha hle
    refine h.change (hb.change hR hW ?_ ?_ ?_ ?_ ?_) ?_ ?_ trivial
    · simp [hl]
    · simp [hl]
    · simp [hl]
      omega
    · simp
    · simp
    · intro b hbi
      simp [hl, hbi]
    · simp
  | unlock =>
    simp only [lockStep, Option.some.injEq, Prod.mk.injEq] at hs
    obtain ⟨rfl, rfl⟩ := hs
    refine h.change (hb.change hR hW ?_ ?_ ?_ ?_ ?_) ?_ ?_ trivial
    · simp [hl]
    · simp [hl]
    · simp [hl] at hle ⊢
      omega
    · simp
    · simp
    · intro b hbi
      simp [hl, hbi]
    · simp

theorem LockInv.writerPre (h : LockInv r w locks loc) (hl : loc t = .writerPre i k)
    (hs : lockStep locks (.writerPre i k) = some (locks', l')) :
    LockInv r w locks' (Function.update loc t l') := by
  have hb := h.block i
  have hpos : 0 < w k i := by
    have := h.ok t
    rwa [hl] at this
  have h3 := hb.wm
  have hle := le_sum (Loc.reg r i) loc t
  simp only [lockStep, Option.ite_none_right_eq_some, Option.some.injEq, Prod.mk.injEq] at hs
  obtain ⟨hp, rfl, rfl⟩ := hs
  refine h.change (hb.change rfl rfl ?_ ?_ ?_ ?_ ?_) ?_ ?_ trivial
  · simp [hl]
  · simp [hl]
  · simp only [hl, reg_writerPre, reg_point, wr_writerPre, wr_point, if_true] at hle ⊢
    omega
  · simp
  · simp
  · intro b hbi
    simp [hl, hbi]
  · simp

theorem LockInv.writerAfter (h : LockInv r w locks loc) (hl : loc t = .writerAfter i k)
    (hs : lockStep locks (.writerAfter i k) = some (locks', l')) :
    LockInv r w locks' (Function.update loc t l') := by
  have hb := h.block i
  have h3 := hb.wm
  have hle := le_sum (Loc.reg r i) loc t
  have hlew := le_sum (Loc.wr w i) loc t
  simp only [lockStep, Option.some.injEq, Prod.mk.injEq] at hs
  obtain ⟨rfl, rfl⟩ := hs
  refine h.change (hb.change rfl rfl ?_ ?_ ?_ ?_ ?_) ?_ ?_ trivial
  · simp [hl]
  · simp [hl]
  · simp only [hl, reg_writerAfter, reg_point, wr_writerAfter, wr_point, if_true] at hle hlew ⊢
    omega
  · simp
  · simp
  · intro b hbi
    simp [hl, hbi]
  · simp

theorem LockInv.lockStep (h : LockInv r w locks loc)
    (hs : lockStep locks (loc t) = some (locks', l')) : LockInv r w locks' (Function.update loc t l') := by
  cases hl : loc t with
  | point k =>
    rw [hl] at hs
    cases hs
  | readerPre m i k => exact h.readerPre hl (hl ▸ hs)
  | readerAfter m i k => exact h.readerAfter hl (hl ▸ hs)
  | writerPre i k => exact h.writerPre hl (hl ▸ hs)
  | writerAfter i k => exact h.writerAfter hl (hl ▸ hs)

theorem Loc.Entry.inRd (h : l.Entry) : l.inRd b = 0 := by
  cases l with
  | readerPre m i k =>
    have hm : m = .lock := h
    simp [hm]
  | readerAfter m i k =>
    have hm : m = .lock := h
    simp [hm]
  | _ => rfl

theorem LockInv.act {act : C → D → K → Option (D × Loc B K)} {ch : C} {d d' : D}
    (h : LockInv r w locks loc) (hbal : Balanced r w act) (hl : loc t = .point k)
    (hs : act ch d k = some (d', l')) : LockInv r w locks (Function.update loc t l') := by
  constructor
  · intro b
    have hin := (hbal.entry hs).inRd (b := b)
    refine (h.block b).frame ?_ ?_ ?_ ?_ ?_
    · rw [hl, hin]
      rfl
    · rw [hl, hbal.cnt hs]
      rfl
    · rw [hl, ← Loc.cnt_eq_reg hin, hbal.cnt hs]
      rfl
    · rw [hl, hbal.wr hs]
      rfl
    · rintro k' rfl
      cases hbal.entry hs
  · intro j
    by_cases hj : j = t
    · subst hj
      rw [Function.update_self]
      exact hbal.ok hs
    · rw [Function.update_of_ne hj]
      exact h.ok j

theorem step_cases {act : C → D → K → Option (D × Loc B K)} {ch : C} {s s' : Shared B D}
    (hs : step act ch s l = some (s', l')) :
    (∃ k d', l = .point k ∧ act ch s.data k = some (d', l') ∧ s' = ⟨s.locks, d'⟩) ∨
    ∃ locks', lockStep s.locks l = some (locks', l') ∧ s' = ⟨locks', s.data⟩ := by
  cases l with
  | point k =>
    simp only [step, Option.map_eq_some_iff] at hs
    obtain ⟨⟨d', l''⟩, hact, heq⟩ := hs
    cases heq
    exact .inl ⟨k, d', rfl, hact, rfl⟩
  | _ =>
    simp only [step, Option.map_eq_some_iff] at hs
    obtain ⟨⟨locks', l''⟩, hstep, heq⟩ := hs
    cases heq
    exact .inr ⟨locks', hstep, rfl⟩

theorem LockInv.step {act : C → D → K → Option (D × Loc B K)} {ch : C} {s s' : Shared B D}
    (h : LockInv r w s.locks loc) (hbal : Balanced r w act)
    (hs : step act ch s (loc t) = some (s', l')) : LockInv r w s'.locks (Function.update loc t l') := by
  rcases step_cases hs with ⟨k, d', hl, hact, rfl⟩ | ⟨locks', hstep, rfl⟩
  · exact h.act hbal hl hact
  · exact h.lockStep hstep

omit [DecidableEq T] in
theorem LockInv.init (hloc : ∀ t, ∃ k, loc t = .point k ∧ ∀ b, r k b = 0 ∧ w k b = 0) :
    LockInv r w (fun _ => Lock.init) loc := by
  refine ⟨fun b => ⟨?_, ?_, .inl ⟨?_, ?_⟩, ?_⟩, ?_⟩
  · rw [sum_eq_zero fun t => ?_]
    · rfl
    · obtain ⟨k, hk, -⟩ := hloc t
      rw [hk]
      rfl
  · rw [sum_eq_zero fun t => ?_]
    · rfl
    · obtain ⟨k, hk, h0⟩ := hloc t
      rw [hk]
      exact (h0 b).1
  · refine sum_eq_zero fun t => ?_
    obtain ⟨k, hk, h0⟩ := hloc t
    rw [hk]
    exact (h0 b).1
  · rw [sum_eq_zero fun t => ?_]
    · rfl
    · obtain ⟨k, hk, h0⟩ := hloc t
      rw [hk]
      exact (h0 b).2
  · intro t k ht
    obtain ⟨k', hk, -⟩ := hloc t
    rw [hk] at ht
    cases ht
  · intro t
    obtain ⟨k, hk, -⟩ := hloc t
    rw [hk]
    trivial

theorem Loc.writers_le (l : Loc B K) : l.writers w b ≤ l.wr w b := by
  cases l with
  | writerAfter i k =>
    simp only [Loc.writers, wr_writerAfter]
    split_ifs <;> omega
  | _ => exact le_rfl

theorem Loc.readers_le (l : Loc B K) : l.readers r b ≤ l.reg r b := by
  cases l with
  | readerPre m i k =>
    simp only [Loc.readers, reg_readerPre]
    split_ifs <;> first | omega | simp_all
  | readerAfter m i k =>
    simp only [Loc.readers, reg_readerAfter]
    split_ifs <;> omega
  | _ => exact le_rfl

theorem Loc.readers_le_cnt (l : Loc B K) : l.readers r b ≤ l.cnt r b := by
  cases l with
  | readerPre m i k =>
    simp only [Loc.readers, cnt_readerPre]
    split_ifs <;> first | omega | simp_all
  | readerAfter m i k =>
    simp only [Loc.readers, cnt_readerAfter]
    split_ifs <;> omega
  | _ => exact le_rfl

/-- **Exclusion.** Next to a writer there is no other writer and no reader. -/
theorem LockInv.exclusion (h : LockInv r w locks loc) (ht : 0 < (loc t).writers w b) (hj : j ≠ t) :
    (loc j).writers w b = 0 ∧ (loc j).readers r b = 0 := by
  have hb := (h.block b).wm
  have h1 := (loc t).writers_le (w := w) (b := b)
  have h2 := (loc j).writers_le (w := w) (b := b)
  have h3 := (loc j).readers_le (r := r) (b := b)
  have h4 := add_le_sum (Loc.wr w b) loc hj
  have h5 := le_sum (Loc.reg r b) loc j
  omega

omit [DecidableEq T] in
theorem LockInv.readcnt_pos (h : LockInv r w locks loc) (ht : 0 < (loc t).readers r b) :
    0 < (locks b).readcnt := by
  have hb := (h.block b).cnt
  have h1 := (loc t).readers_le_cnt (r := r) (b := b)
  have h2 := le_sum (Loc.cnt r b) loc t
  omega

end Inv

end CsappLab.Proxy
