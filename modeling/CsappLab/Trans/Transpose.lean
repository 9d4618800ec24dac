import CsappLab.Lib.Loop

/-!
# Matrix transposition `trans.c`

`transpose_submit` copies `A` into `B` in blocks, with the loop over a row of a block unrolled;
`trans` copies cell by cell. Every access is checked against the bounds of its matrix, and the
stores into each cell of `B` are counted. No counter exceeds `N` or `M`, so none wraps.
-/

namespace CsappLab.Trans

open Loop

/-- The two matrices, `int A[N][M]` and `int B[M][N]`. -/
@[ext]
structure Mats where
  a : Nat → Nat → BitVec 32
  b : Nat → Nat → BitVec 32
  writes : Nat → Nat → Nat

variable {M N : Nat} {s s' s'' : Mats} {R R' : Nat → Nat → Prop}

def setCell {α : Type} (m : Nat → Nat → α) (r c : Nat) (v : α) : Nat → Nat → α :=
  Function.update m r (Function.update (m r) c v)

/-- `A[r][c]`. -/
def load (M N : Nat) (s : Mats) (r c : Nat) : Option (BitVec 32) :=
  if r < N ∧ c < M then some (s.a r c) else none

def Mats.put (s : Mats) (r c : Nat) (v : BitVec 32) : Mats :=
  { s with b := setCell s.b r c v, writes := setCell s.writes r c (s.writes r c + 1) }

/-- `B[r][c] = v`. -/
def store (M N : Nat) (s : Mats) (r c : Nat) (v : BitVec 32) : Option Mats :=
  if r < M ∧ c < N then some (s.put r c v) else none

def copy8 (M N j k : Nat) (s : Mats) : Option Mats := do
  let t0 ← load M N s k j
  let t1 ← load M N s k (j + 1)
  let t2 ← load M N s k (j + 2)
  let t3 ← load M N s k (j + 3)
  let t4 ← load M N s k (j + 4)
  let t5 ← load M N s k (j + 5)
  let t6 ← load M N s k (j + 6)
  let t7 ← load M N s k (j + 7)
  let s ← store M N s j k t0
  let s ← store M N s (j + 1) k t1
  let s ← store M N s (j + 2) k t2
  let s ← store M N s (j + 3) k t3
  let s ← store M N s (j + 4) k t4
  let s ← store M N s (j + 5) k t5
  let s ← store M N s (j + 6) k t6
  store M N s (j + 7) k t7

def copy4 (M N j k : Nat) (s : Mats) : Option Mats := do
  let v0 ← load M N s k j
  let v1 ← load M N s k (j + 1)
  let v2 ← load M N s k (j + 2)
  let v3 ← load M N s k (j + 3)
  let s ← store M N s j k v0
  let s ← store M N s (j + 1) k v1
  let s ← store M N s (j + 2) k v2
  store M N s (j + 3) k v3

def transpose_submit (M N : Nat) (s : Mats) : Option Mats :=
  if M = 32 then
    forUp N 8 (fun i => forUp M 8 (fun j => forUp (i + 8) 1 (fun k => copy8 M N j k) i) 0) 0 s
  else if M = 64 then
    forUp N 4 (fun i => forUp M 4 (fun j => forUp (i + 4) 1 (fun k => copy4 M N j k) i) 0) 0 s
  else some s

def trans (M N : Nat) (s : Mats) : Option Mats :=
  forUp N 1 (fun i => forUp M 1 (fun j s => do
    let tmp ← load M N s i j
    store M N s j i tmp) 0) 0 s

theorem setCell_self {α : Type} (m : Nat → Nat → α) (r c : Nat) (v : α) : setCell m r c v r c = v := by
  simp [setCell]

theorem setCell_of_ne {α : Type} (m : Nat → Nat → α) {r c r' c' : Nat} (v : α) (h : ¬ (r' = r ∧ c' = c)) :
    setCell m r c v r' c' = m r' c' := by
  unfold setCell
  by_cases hr : r' = r
  · subst hr
    rw [Function.update_self, Function.update_of_ne fun hc => h ⟨rfl, hc⟩]
  · rw [Function.update_of_ne hr]

/-! ### Filled regions -/

/-- From `s` to `s'` every cell of `B` in the region was written once, with the cell of `A` that
belongs there, and nothing else changed. -/
structure Filled (R : Nat → Nat → Prop) (s s' : Mats) : Prop where
  a : s'.a = s.a
  cell : ∀ r c, R r c → s'.b r c = s.a c r ∧ s'.writes r c = s.writes r c + 1
  rest : ∀ r c, ¬ R r c → s'.b r c = s.b r c ∧ s'.writes r c = s.writes r c

/-- From every state `f` stays in the bounds and fills the region. -/
def Fills (f : Mats → Option Mats) (R : Nat → Nat → Prop) : Prop := ∀ s, ∃ s', f s = some s' ∧ Filled R s s'

theorem Filled.refl (h : ∀ r c, ¬ R r c) : Filled R s s :=
  ⟨rfl, fun r c hr => absurd hr (h r c), fun _ _ _ => ⟨rfl, rfl⟩⟩

theorem Filled.trans (h : Filled R s s') (h' : Filled R' s' s'') (hd : ∀ r c, R r c → ¬ R' r c) :
    Filled (fun r c => R r c ∨ R' r c) s s'' := by
  constructor
  case a => rw [h'.a, h.a]
  case cell =>
    rintro r c (hr | hr)
    · rw [(h'.rest r c (hd r c hr)).1, (h'.rest r c (hd r c hr)).2]
      exact h.cell r c hr
    · have hno : ¬ R r c := fun hr' => hd r c hr' hr
      rw [(h'.cell r c hr).1, (h'.cell r c hr).2, h.a, (h.rest r c hno).2]
      exact ⟨rfl, rfl⟩
  case rest =>
    intro r c hr
    rw [not_or] at hr
    rw [(h'.rest r c hr.2).1, (h'.rest r c hr.2).2]
    exact h.rest r c hr.1

theorem Filled.congr (h : Filled R s s') (he : ∀ r c, R r c ↔ R' r c) : Filled R' s s' := by
  obtain rfl : R = R' := by
    funext r c
    exact propext (he r c)
  exact h

theorem Filled.put {r c : Nat} : Filled (fun r' c' => r' = r ∧ c' = c) s (s.put r c (s.a c r)) := by
  constructor
  case a => rfl
  case cell =>
    rintro r' c' ⟨rfl, rfl⟩
    exact ⟨setCell_self .., setCell_self ..⟩
  case rest => exact fun r' c' h => ⟨setCell_of_ne _ _ h, setCell_of_ne _ _ h⟩

theorem Filled.unique (h : Filled R s s') (h' : Filled R s s'') : s' = s'' := by
  have hcell : ∀ r c, s'.b r c = s''.b r c ∧ s'.writes r c = s''.writes r c := by
    intro r c
    by_cases hr : R r c
    · rw [(h.cell r c hr).1, (h.cell r c hr).2, (h'.cell r c hr).1, (h'.cell r c hr).2]
      exact ⟨rfl, rfl⟩
    · rw [(h.rest r c hr).1, (h.rest r c hr).2, (h'.rest r c hr).1, (h'.rest r c hr).2]
      exact ⟨rfl, rfl⟩
  ext r c
  · rw [h.a, h'.a]
  · rw [(hcell r c).1]
  · rw [(hcell r c).2]

/-- **Loop rule.** The rounds fill the slices of a region along a coordinate. -/
theorem Fills.forUp (D : Nat → Nat → Prop) (key : Nat → Nat → Nat) (n : Nat) {start stop step : Nat}
    [NeZero step] {body : Nat → Mats → Option Mats} (hn : start + n * step = stop)
    (h : ∀ i, start ≤ i → i + step ≤ stop →
      Fills (body i) fun r c => D r c ∧ i ≤ key r c ∧ key r c < i + step) :
    Fills (forUp stop step body start) fun r c => D r c ∧ start ≤ key r c ∧ key r c < stop := by
  intro s
  refine forUp_rule (fun i s' => Filled (fun r c => D r c ∧ start ≤ key r c ∧ key r c < i) s s') ?_ hn
    (.refl fun r c hr => by omega)
  intro m t hm ht
  have hle : start + m * step + step ≤ stop := by
    have hmn : m < n := Nat.lt_of_mul_lt_mul_right (a := step) (by omega)
    have := Nat.mul_le_mul_right step (Nat.succ_le_of_lt hmn)
    rw [Nat.succ_mul] at this
    omega
  obtain ⟨t', ht', hf⟩ := h (start + m * step) (by omega) hle t
  refine ⟨t', ht', (ht.trans hf fun r c hr => by omega).congr fun r c => ?_⟩
  constructor
  · rintro (⟨hD, h1, h2⟩ | ⟨hD, h1, h2⟩)
    · exact ⟨hD, h1, by omega⟩
    · exact ⟨hD, by omega, h2⟩
  · rintro ⟨hD, h1, h2⟩
    by_cases hk : key r c < start + m * step
    · exact .inl ⟨hD, h1, hk⟩
    · exact .inr ⟨hD, by omega, h2⟩

/-! ### The blocks -/

/-- The stores of the unrolled loop over `n` cells of row `k` of `A`, from column `j`. -/
def copyRow (s : Mats) (k j : Nat) : Nat → Mats
  | 0 => s
  | n + 1 => (copyRow s k j n).put (j + n) k (s.a k (j + n))

theorem copyRow_filled (s : Mats) (k j n : Nat) :
    Filled (fun r c => c = k ∧ j ≤ r ∧ r < j + n) s (copyRow s k j n) := by
  induction n with
  | zero => exact .refl fun r c h => by omega
  | succ n ih =>
    have hput := Filled.put (s := copyRow s k j n) (r := j + n) (c := k)
    rw [ih.a] at hput
    refine (ih.trans hput fun r c h => by omega).congr fun r c => ?_
    omega

theorem load_eq {r c : Nat} (hr : r < N) (hc : c < M) : load M N s r c = some (s.a r c) := if_pos ⟨hr, hc⟩

theorem store_eq {r c : Nat} {v : BitVec 32} (hr : r < M) (hc : c < N) : store M N s r c v = some (s.put r c v) :=
  if_pos ⟨hr, hc⟩

theorem copy8_fills {j k : Nat} (hj : j + 8 ≤ M) (hk : k < N) :
    Fills (copy8 M N j k) fun r c => c = k ∧ j ≤ r ∧ r < j + 8 := by
  intro s
  refine ⟨copyRow s k j 8, ?_, copyRow_filled s k j 8⟩
  simp (disch := omega) only [copy8, load_eq, store_eq, Option.bind_eq_bind, Option.bind_some]
  rfl

theorem copy4_fills {j k : Nat} (hj : j + 4 ≤ M) (hk : k < N) :
    Fills (copy4 M N j k) fun r c => c = k ∧ j ≤ r ∧ r < j + 4 := by
  intro s
  refine ⟨copyRow s k j 4, ?_, copyRow_filled s k j 4⟩
  simp (disch := omega) only [copy4, load_eq, store_eq, Option.bind_eq_bind, Option.bind_some]
  rfl

theorem Fills.congr {f : Mats → Option Mats} (h : Fills f R) (he : ∀ r c, R r c ↔ R' r c) : Fills f R' := by
  intro s
  obtain ⟨s', hs', hf⟩ := h s
  exact ⟨s', hs', hf.congr he⟩

def Cell (M N r c : Nat) : Prop := r < M ∧ c < N

theorem blocks_fill {w : Nat} [NeZero w] {copy : Nat → Nat → Mats → Option Mats} (hM : w ∣ M) (hN : w ∣ N)
    (hcopy : ∀ j k, j + w ≤ M → k < N → Fills (copy j k) fun r c => c = k ∧ j ≤ r ∧ r < j + w) :
    Fills (Loop.forUp N w (fun i => Loop.forUp M w (fun j => Loop.forUp (i + w) 1 (fun k => copy j k) i) 0) 0)
      (Cell M N) := by
  obtain ⟨m, rfl⟩ := hM
  obtain ⟨n, rfl⟩ := hN
  have hk : ∀ i j, i + w ≤ w * n → j + w ≤ w * m → Fills (Loop.forUp (i + w) 1 (fun k => copy j k) i)
      fun r c => (j ≤ r ∧ r < j + w) ∧ i ≤ c ∧ c < i + w := by
    intro i j hi hj
    refine Fills.forUp (fun r _ => j ≤ r ∧ r < j + w) (fun _ c => c) w (by omega) fun k hik hkw => ?_
    refine (hcopy j k hj (by omega)).congr fun r c => ?_
    omega
  have hj : ∀ i, i + w ≤ w * n →
      Fills (Loop.forUp (w * m) w (fun j => Loop.forUp (i + w) 1 (fun k => copy j k) i) 0)
        fun r c => (i ≤ c ∧ c < i + w) ∧ 0 ≤ r ∧ r < w * m := by
    intro i hi
    refine Fills.forUp (fun _ c => i ≤ c ∧ c < i + w) (fun r _ => r) m (by ring) fun j _ hjm => ?_
    refine (hk i j hi hjm).congr fun r c => ?_
    omega
  refine (Fills.forUp (fun r _ => r < w * m) (fun _ c => c) n (by ring)
    fun i _ hin => ?_).congr fun r c => ?_
  · refine (hj i hin).congr fun r c => ?_
    omega
  · unfold Cell
    omega

theorem trans_fills (M N : Nat) : Fills (trans M N) (Cell M N) := by
  have hcopy : ∀ i j, i < N → j < M → Fills (fun s => do
      let tmp ← load M N s i j
      store M N s j i tmp) fun r c => r = j ∧ c = i := by
    intro i j hi hj s
    refine ⟨s.put j i (s.a i j), ?_, .put⟩
    simp only [load_eq hi hj, Option.bind_eq_bind, Option.bind_some, store_eq hj hi]
  refine (Fills.forUp (fun r _ => r < M) (fun _ c => c) N (by ring)
    fun i _ hi => ?_).congr fun r c => ?_
  · refine (Fills.forUp (fun _ c => c = i) (fun r _ => r) M (by ring)
      fun j _ hj => ?_).congr fun r c => ?_
    · refine (hcopy i j (by omega) (by omega)).congr fun r c => ?_
      omega
    · omega
  · unfold Cell
    omega

theorem transpose_submit_fills (h : M = 32 ∧ 8 ∣ N ∨ M = 64 ∧ 4 ∣ N) :
    Fills (transpose_submit M N) (Cell M N) := by
  rcases h with ⟨rfl, hN⟩ | ⟨rfl, hN⟩
  · exact blocks_fill (by norm_num) hN fun j k hj hk => copy8_fills hj hk
  · exact blocks_fill (by norm_num) hN fun j k hj hk => copy4_fills hj hk

/-- **Transposition.** `transpose_submit` stays in the bounds, writes every cell of `B` once, leaves `A`
as it is and computes what `trans` computes, the transpose of `A`. -/
theorem transpose_submit_eq_trans (h : M = 32 ∧ 8 ∣ N ∨ M = 64 ∧ 4 ∣ N) (s : Mats) :
    ∃ s', transpose_submit M N s = some s' ∧ trans M N s = some s' ∧ s'.a = s.a ∧
      ∀ r < M, ∀ c < N, s'.writes r c = s.writes r c + 1 ∧ s'.b r c = s.a c r := by
  obtain ⟨s', hs', hf⟩ := transpose_submit_fills h s
  obtain ⟨s'', hs'', hf'⟩ := trans_fills M N s
  obtain rfl := hf.unique hf'
  refine ⟨s', hs', hs'', hf.a, fun r hr c hc => ?_⟩
  exact (hf.cell r c ⟨hr, hc⟩).symm

/-- The 32 by 32 matrix of the driver that numbers its cells. -/
theorem transpose_submit_driver :
    let s : Mats := ⟨fun r c => BitVec.ofNat 32 (32 * r + c), fun _ _ => 0, fun _ _ => 0⟩
    ∃ s', transpose_submit 32 32 s = some s' ∧ trans 32 32 s = some s' ∧ s'.a = s.a ∧
      ∀ r < 32, ∀ c < 32, s'.writes r c = s.writes r c + 1 ∧ s'.b r c = s.a c r :=
  transpose_submit_eq_trans (.inl ⟨rfl, by norm_num⟩) _

end CsappLab.Trans
