import CsappLab.Proxy.Cache

/-!
# Insertions

`cache_eviction` tests and clears `isEmpty` under the reader lock, which two threads can hold at once. In
runs where no thread finds a block empty that another one has found empty and not yet cleared, every
thread gets a block of its own.
-/

namespace CsappLab.Proxy

section

variable {k : Nat}

/-- Threads that run `cache_url(url j, buf j)`. -/
def inserts (url buf : Fin k → Text) : Machine (ProxyConf (Fin k)) (Fin k × Choice) :=
  proxy fun j => .cacheUrl (url j) (buf j)

/-- A block is found empty only while no other thread is between finding it empty and clearing
`isEmpty`. -/
def SoleClaim (c : ProxyConf (Fin k)) (l : Fin k × Choice) : Prop :=
  ∀ url buf i maxStamp idx, c.loc l.1 = .point (.evictTest url buf i maxStamp idx) →
    (c.shared.data.blocks i).isEmpty = true →
      ∀ t, t ≠ l.1 → ∀ url' buf', (c.loc t).cont ≠ .claim url' buf' i

def Stored (url buf : Text) (block : Block) : Prop :=
  block.isEmpty = false ∧ block.cacheUrl = some url ∧ block.cacheObj = some buf

def Filled (url buf : Text) (block : Block) : Fill → Prop
  | .url | .urlEnd => True
  | .obj | .objEnd => block.cacheUrl = some url
  | .isEmpty => block.cacheUrl = some url ∧ block.cacheObj = some buf

/-- Where a thread that has got the block `own` can be. -/
def Phase (url buf : Text) (own : Option Index) (blocks : Index → Block) : Point → Prop
  | .cacheUrl u b => u = url ∧ b = buf ∧ own = none
  | .evict u b i _ _ => u = url ∧ b = buf ∧ own = none ∧ ∀ x : Index, x < i → (blocks x).isEmpty = false
  | .evictTest u b i _ _ => u = url ∧ b = buf ∧ own = none ∧ ∀ x, x < i → (blocks x).isEmpty = false
  | .evictStamp u b i _ _ => u = url ∧ b = buf ∧ own = none ∧ ∀ x, x ≤ i → (blocks x).isEmpty = false
  | .claim u b i => u = url ∧ b = buf ∧ own = some i
  | .evicted u b i => u = url ∧ b = buf ∧ own = some i ∧ (blocks i).isEmpty = false
  | .fill m u b i => u = url ∧ b = buf ∧ own = some i ∧ (blocks i).isEmpty = false ∧ Filled url buf (blocks i) m
  | .updateStamp x _ | .stampZero x _ | .stampLoop x _ _ | .stampInc x _ _ =>
    own = some x ∧ Stored url buf (blocks x)
  | .done _ => ∃ x, own = some x ∧ Stored url buf (blocks x)
  | _ => False

/-- The invariant; `own j` is the block of thread `j`. -/
structure InsertInv (url buf : Fin k → Text) (own : Fin k → Option Index) (c : ProxyConf (Fin k)) : Prop where
  phase : ∀ j, Phase (url j) (buf j) (own j) c.shared.data.blocks (c.loc j).cont
  distinct : ∀ i j j', own j = some i → own j' = some i → j = j'
  free : ∀ i, (∀ j, own j ≠ some i) → (c.shared.data.blocks i).isEmpty = true

variable {url buf : Fin k → Text} {own : Fin k → Option Index} {c c' : ProxyConf (Fin k)} {ch : Choice}
  {d d' : Data} {p : Point} {l : ProxyLoc} {t : Fin k} {i : Index} {u b : Text} {o : Option Index}
  {blocks blocks' : Index → Block}

/-! ### One statement -/

theorem Phase.frame (h : Phase u b o blocks p)
    (he : ∀ i, (blocks i).isEmpty = false → (blocks' i).isEmpty = false)
    (hu : ∀ i, o = some i → (blocks' i).cacheUrl = (blocks i).cacheUrl)
    (ho : ∀ i, o = some i → (blocks' i).cacheObj = (blocks i).cacheObj) : Phase u b o blocks' p := by
  have hst : ∀ x, o = some x → Stored u b (blocks x) → Stored u b (blocks' x) := fun x hx hs =>
    ⟨he x hs.1, (hu x hx).trans hs.2.1, (ho x hx).trans hs.2.2⟩
  cases p with
  | evict => exact ⟨h.1, h.2.1, h.2.2.1, fun x hx => he x (h.2.2.2 x hx)⟩
  | evictTest => exact ⟨h.1, h.2.1, h.2.2.1, fun x hx => he x (h.2.2.2 x hx)⟩
  | evictStamp => exact ⟨h.1, h.2.1, h.2.2.1, fun x hx => he x (h.2.2.2 x hx)⟩
  | evicted => exact ⟨h.1, h.2.1, h.2.2.1, he _ h.2.2.2⟩
  | fill m _ _ x =>
    obtain ⟨h1, h2, h3, h4, h5⟩ := h
    refine ⟨h1, h2, h3, he _ h4, ?_⟩
    cases m with
    | obj => exact (hu x h3).trans h5
    | objEnd => exact (hu x h3).trans h5
    | isEmpty => exact ⟨(hu x h3).trans h5.1, (ho x h3).trans h5.2⟩
    | _ => trivial
  | updateStamp => exact ⟨h.1, hst _ h.1 h.2⟩
  | stampZero => exact ⟨h.1, hst _ h.1 h.2⟩
  | stampLoop => exact ⟨h.1, hst _ h.1 h.2⟩
  | stampInc => exact ⟨h.1, hst _ h.1 h.2⟩
  | done =>
    obtain ⟨x, hx, hs⟩ := h
    exact ⟨x, hx, hst x hx hs⟩
  | cacheUrl => exact h
  | claim => exact h
  | _ => exact h.elim

/-- What the statements of a thread with block `o` do to the blocks. -/
structure Touches (o : Option Index) (blocks blocks' : Index → Block) : Prop where
  isEmpty : ∀ i, (blocks i).isEmpty = false → (blocks' i).isEmpty = false
  free : ∀ i, o ≠ some i → (blocks' i).isEmpty = (blocks i).isEmpty
  url : ∀ i, o ≠ some i → (blocks' i).cacheUrl = (blocks i).cacheUrl
  obj : ∀ i, o ≠ some i → (blocks' i).cacheObj = (blocks i).cacheObj

theorem Touches.rfl : Touches o blocks blocks :=
  ⟨fun _ h => h, fun _ _ => .refl _, fun _ _ => .refl _, fun _ _ => .refl _⟩

theorem touches_own (block : Block) (he : (d.blocks i).isEmpty = false → block.isEmpty = false) :
    Touches (some i) d.blocks (setBlock d i block).blocks := by
  refine ⟨fun j hj => ?_, fun j hj => ?_, fun j hj => ?_, fun j hj => ?_⟩
  · by_cases hji : j = i
    · subst hji
      simpa [setBlock] using he hj
    · simpa [setBlock, hji] using hj
  all_goals
    have hji : j ≠ i := fun h => hj (by rw [h])
    simp [setBlock, hji]

theorem touches_stamp (stamp : Int) :
    Touches o d.blocks (setBlock d i { d.blocks i with stamp := stamp }).blocks := by
  refine ⟨fun j hj => ?_, fun j _ => ?_, fun j _ => ?_, fun j _ => ?_⟩
  all_goals by_cases hji : j = i <;> simp_all [setBlock]

/-- **One statement** of a thread that does not find a block empty; not all blocks are taken. -/
theorem Act.phase (h : Act ch d p d' l) (hp : Phase u b o d.blocks p)
    (hroom : o = none → ∃ i, (d.blocks i).isEmpty = true)
    (hno : ∀ url buf i maxStamp idx, p = .evictTest url buf i maxStamp idx → (d.blocks i).isEmpty = false) :
    Phase u b o d'.blocks l.cont ∧ Touches o d.blocks d'.blocks := by
  cases h with
  | cacheUrl =>
    obtain ⟨rfl, rfl, ho⟩ := hp
    exact ⟨⟨rfl, rfl, ho, fun x hx => absurd hx (Nat.not_lt_zero _)⟩, .rfl⟩
  | evict hi => exact ⟨hp, .rfl⟩
  | evictEnd hi =>
    obtain ⟨-, -, ho, hall⟩ := hp
    obtain ⟨x, hx⟩ := hroom ho
    rw [hall x (by have := x.isLt; omega)] at hx
    cases hx
  | empty he =>
    rw [hno _ _ _ _ _ rfl] at he
    cases he
  | notEmpty he =>
    obtain ⟨h1, h2, h3, h4⟩ := hp
    refine ⟨⟨h1, h2, h3, fun x hx => ?_⟩, .rfl⟩
    rcases hx.eq_or_lt with rfl | hx
    · exact Bool.eq_false_iff.2 he
    · exact h4 x hx
  | evictStamp =>
    obtain ⟨h1, h2, h3, h4⟩ := hp
    exact ⟨⟨h1, h2, h3, fun x hx => h4 x (Nat.lt_succ_iff.1 hx)⟩, .rfl⟩
  | claim =>
    obtain ⟨rfl, rfl, rfl⟩ := hp
    exact ⟨⟨rfl, rfl, rfl, by simp [setBlock]⟩, touches_own _ fun _ => rfl⟩
  | evicted =>
    obtain ⟨h1, h2, h3, h4⟩ := hp
    exact ⟨⟨h1, h2, h3, h4, trivial⟩, .rfl⟩
  | @fill m u' b' i =>
    obtain ⟨rfl, rfl, rfl, h4, h5⟩ := hp
    refine ⟨?_, touches_own _ fun h => by cases m <;> first | exact h | rfl⟩
    have hself : (setBlock d i (fillBlock (d.blocks i) u' b' m)).blocks i =
        fillBlock (d.blocks i) u' b' m :=
      Function.update_self ..
    cases m with
    | url => exact ⟨rfl, rfl, rfl, by rw [hself]; exact h4, trivial⟩
    | urlEnd => exact ⟨rfl, rfl, rfl, by rw [hself]; exact h4, by rw [hself]; exact rfl⟩
    | obj => exact ⟨rfl, rfl, rfl, by rw [hself]; exact h4, by rw [hself]; exact h5⟩
    | objEnd => exact ⟨rfl, rfl, rfl, by rw [hself]; exact h4, by rw [hself]; exact ⟨h5, rfl⟩⟩
    | isEmpty => exact ⟨rfl, by rw [hself]; exact ⟨rfl, h5.1, h5.2⟩⟩
  | updateStamp => exact ⟨hp, .rfl⟩
  | stampZero =>
    have ht := touches_stamp (o := none) (d := d) (i := ‹Index›) 0
    exact ⟨hp.frame ht.isEmpty (fun i _ => ht.url i (by simp)) fun i _ => ht.obj i (by simp), touches_stamp 0⟩
  | stampOther => exact ⟨hp, .rfl⟩
  | stampSkip => exact ⟨hp, .rfl⟩
  | stampEnd => exact ⟨⟨_, hp⟩, .rfl⟩
  | @stampInc _ i =>
    have ht := touches_stamp (o := none) (d := d) (i := i) ((d.blocks i).stamp + 1)
    exact ⟨hp.frame ht.isEmpty (fun i _ => ht.url i (by simp)) fun i _ => ht.obj i (by simp), touches_stamp _⟩
  | _ => exact hp.elim

/-! ### Steps -/

/-- A thread without a block finds one: the others have at most `k - 1`. -/
theorem InsertInv.room (h : InsertInv url buf own c) (hk : k ≤ CACHE_OBJS_COUNT) (ht : own t = none) :
    ∃ i, (c.shared.data.blocks i).isEmpty = true := by
  by_contra hall
  have howner : ∀ i, ∃ j, own j = some i := by
    intro i
    by_contra hno
    push Not at hno
    exact hall ⟨i, h.free i hno⟩
  choose owner hown using howner
  have hinj : Function.Injective owner := by
    intro i i' hi
    have h1 := hown i
    rw [hi, hown i'] at h1
    exact (Option.some.inj h1).symm
  have hne : ∀ i, owner i ≠ t := by
    intro i hi
    have h1 := hown i
    rw [hi, ht] at h1
    cases h1
  have hsub : Finset.univ.image owner ⊆ Finset.univ.erase t := by
    intro j hj
    obtain ⟨i, -, rfl⟩ := Finset.mem_image.1 hj
    exact Finset.mem_erase.2 ⟨hne i, Finset.mem_univ _⟩
  have hcard := Finset.card_le_card hsub
  rw [Finset.card_image_of_injective _ hinj, Finset.card_erase_of_mem (Finset.mem_univ t), Finset.card_univ,
    Finset.card_univ, Fintype.card_fin, Fintype.card_fin] at hcard
  have : 0 < k := t.pos
  omega

theorem InsertInv.touch {s : Shared Index Data} (h : InsertInv url buf own c)
    (ht : Touches (own t) c.shared.data.blocks s.data.blocks)
    (hp : Phase (url t) (buf t) (own t) s.data.blocks l.cont) :
    InsertInv url buf own ⟨s, Function.update c.loc t l⟩ := by
  refine ⟨?_, h.distinct, ?_⟩
  · intro j
    by_cases hj : j = t
    · subst hj
      simp only [Function.update_self]
      exact hp
    · simp only [Function.update_of_ne hj]
      have hne : ∀ i, own j = some i → own t ≠ some i := fun i hi hti => hj (h.distinct i j t hi hti)
      exact (h.phase j).frame ht.isEmpty (fun i hi => ht.url i (hne i hi)) fun i hi => ht.obj i (hne i hi)
  · intro i hi
    exact (ht.free i (hi t)).trans (h.free i hi)

theorem InsertInv.claim {idx : Option Index} {maxStamp : Int} (h : InsertInv url buf own c)
    (hl : c.loc t = .point (.evictTest u b i maxStamp idx)) (he : (c.shared.data.blocks i).isEmpty = true)
    (hsole : ∀ j, j ≠ t → ∀ u' b', (c.loc j).cont ≠ .claim u' b' i) :
    InsertInv url buf (Function.update own t (some i))
      ⟨c.shared, Function.update c.loc t (.point (.claim u b i))⟩ := by
  have hphase := h.phase t
  rw [hl] at hphase
  obtain ⟨h1, h2, h3, -⟩ := hphase
  -- a thread that owns the block has cleared `isEmpty` or is about to
  have hfree : ∀ j, own j ≠ some i := by
    intro j hj
    have hjt : j ≠ t := by
      rintro rfl
      rw [h3] at hj
      cases hj
    have hp := h.phase j
    have hns := hsole j hjt
    rw [hj] at hp
    cases hc : (c.loc j).cont <;> rw [hc] at hp hns <;> simp_all [Phase, Stored]
  refine ⟨?_, ?_, fun i' hi' => h.free i' ?_⟩
  · intro j
    by_cases hj : j = t
    · subst hj
      simp only [Function.update_self]
      exact ⟨h1, h2, rfl⟩
    · simp only [Function.update_of_ne hj]
      exact h.phase j
  · intro i' j j' hj hj'
    by_cases hjt : j = t <;> by_cases hjt' : j' = t
    · rw [hjt, hjt']
    · rw [hjt, Function.update_self] at hj
      rw [Function.update_of_ne hjt', ← hj] at hj'
      exact absurd hj' (hfree j')
    · rw [hjt', Function.update_self] at hj'
      rw [Function.update_of_ne hjt, ← hj'] at hj
      exact absurd hj (hfree j)
    · rw [Function.update_of_ne hjt] at hj
      rw [Function.update_of_ne hjt'] at hj'
      exact h.distinct i' j j' hj hj'
  · intro j hj
    have hjt : j ≠ t := by
      rintro rfl
      rw [h3] at hj
      cases hj
    exact hi' j (by rw [Function.update_of_ne hjt]; exact hj)

theorem InsertInv.move (h : InsertInv url buf own c) (hk : k ≤ CACHE_OBJS_COUNT) (hok : SoleClaim c (t, ch))
    (hm : c.move (step act) t ch = some c') : ∃ own', InsertInv url buf own' c' := by
  obtain ⟨s, l, hs, rfl⟩ := Conf.move_eq_some.1 hm
  rcases step_cases hs with ⟨p, d', hl, hact, rfl⟩ | ⟨locks', hstep, rfl⟩
  · have ha := act_cases hact
    have hphase := h.phase t
    rw [hl] at hphase
    by_cases hno : ∀ u b i maxStamp idx, p = .evictTest u b i maxStamp idx →
        (c.shared.data.blocks i).isEmpty = false
    · obtain ⟨h1, h2⟩ := ha.phase hphase (h.room hk) hno
      exact ⟨own, h.touch h2 h1⟩
    · push Not at hno
      obtain ⟨u, b, i, maxStamp, idx, rfl, he⟩ := hno
      have he' : (c.shared.data.blocks i).isEmpty = true := by simpa using he
      cases ha with
      | empty _ => exact ⟨_, h.claim hl he' (hok u b i maxStamp idx hl he')⟩
      | notEmpty hne => exact absurd he' hne
  · refine ⟨own, h.touch .rfl ?_⟩
    rw [lockStep_cont hstep]
    exact h.phase t

theorem InsertInv.reach (hk : k ≤ CACHE_OBJS_COUNT) (h : (inserts url buf).Reach SoleClaim c) :
    ∃ own, InsertInv url buf own c := by
  refine h.invariant (I := fun c => ∃ own, InsertInv url buf own c) ?_ ?_
  · rintro c rfl
    refine ⟨fun _ => none, fun j => ⟨rfl, rfl, rfl⟩, fun i j j' hj => ?_, fun _ _ => rfl⟩
    cases hj
  · intro c l c' hi hok hst
    obtain ⟨own, hi⟩ := hi
    exact hi.move hk hok hst

/-- **No insertion is lost** in a run in which blocks are found empty by one thread at a time: at the end
every url is stored in exactly one block, with its own object. -/
theorem insertions (k : Nat) (hk : k ≤ CACHE_OBJS_COUNT) (url buf : Fin k → Text)
    (hurl : Function.Injective url) (c : ProxyConf (Fin k)) (h : (inserts url buf).Reach SoleClaim c)
    (hdone : ∀ j, ∃ leak, c.loc j = .point (.done leak)) (j : Fin k) :
    ∃ i, Stored (url j) (buf j) (c.shared.data.blocks i) ∧
      ∀ i', (c.shared.data.blocks i').isEmpty = false →
        (c.shared.data.blocks i').cacheUrl = some (url j) → i' = i := by
  obtain ⟨own, hinv⟩ := InsertInv.reach hk h
  have hstored : ∀ j, ∃ i, own j = some i ∧ Stored (url j) (buf j) (c.shared.data.blocks i) := by
    intro j
    obtain ⟨leak, hj⟩ := hdone j
    have hp := hinv.phase j
    rw [hj] at hp
    exact hp
  obtain ⟨i, hi, hs⟩ := hstored j
  refine ⟨i, hs, fun i' he hu => ?_⟩
  obtain ⟨j', hj'⟩ : ∃ j', own j' = some i' := by
    by_contra hno
    push Not at hno
    rw [hinv.free i' hno] at he
    cases he
  obtain ⟨i'', hi'', hs'⟩ := hstored j'
  rw [hj'] at hi''
  cases hi''
  have hjj : j' = j := hurl (Option.some.inj (hs'.2.1.symm.trans hu))
  rw [hjj, hi] at hj'
  exact (Option.some.inj hj').symm

def Point.claims : Point → Index → Bool
  | .claim _ _ i, b => i == b
  | _, _ => false

/-- The thread finds a block empty that another thread has found empty. -/
def contended (c : ProxyConf (Fin k)) (l : Fin k × Choice) : Bool :=
  match c.loc l.1 with
  | .point (.evictTest _ _ i _ _) =>
    (c.shared.data.blocks i).isEmpty && decide (∃ t, t ≠ l.1 ∧ (c.loc t).cont.claims i)
  | _ => false

theorem soleClaim_of_contended {l : Fin k × Choice} (h : (!contended c l) = true) : SoleClaim c l := by
  intro url buf i maxStamp idx hl he t ht url' buf' hclaim
  have hother : ∃ t, t ≠ l.1 ∧ (c.loc t).cont.claims i = true := by
    refine ⟨t, ht, ?_⟩
    rw [hclaim]
    exact beq_self_eq_true i
  unfold contended at h
  rw [hl] at h
  simp only [he, hother, decide_true, Bool.and_self, Bool.not_true, Bool.false_eq_true] at h

def statements {T : Type} (t : T) (n : Nat) : List (T × Choice) := List.replicate n (t, ⟨none, none, false⟩)

/-- Both threads read block 0 at the same time; thread `t` takes it, thread `u` goes on to block 1, and they
write to their blocks in turns. -/
def mixedSched {T : Type} (t u : T) : List (T × Choice) :=
  statements t 7 ++ statements u 6 ++ statements t 2 ++ statements u 1 ++ statements t 5 ++ statements u 16 ++
    statements t 4 ++ statements u 8 ++ statements t 9 ++ statements u 21 ++ statements t 12

theorem insertions_two : ∃ c : ProxyConf (Fin 2), (inserts ![[97], [98]] ![[120], [121]]).Reach SoleClaim c ∧
    (∀ j, c.loc j = .point (.done none)) ∧
    ∀ j : Fin 2, ∃ i, Stored (![[97], [98]] j) (![[120], [121]] j) (c.shared.data.blocks i) ∧
      ∀ i', (c.shared.data.blocks i').isEmpty = false →
        (c.shared.data.blocks i').cacheUrl = some (![[97], [98]] j) → i' = i := by
  obtain ⟨c, hc, hdone⟩ : ∃ c, (inserts ![[97], [98]] ![[120], [121]]).Reach SoleClaim c ∧
      ∀ j : Fin 2, c.loc j = .point (.done none) :=
    Conf.exists_reach (fun c l => !contended c l) (mixedSched 0 1) (.init rfl) (fun _ _ _ => soleClaim_of_contended)
      (by decide +kernel)
  exact ⟨c, hc, hdone, insertions 2 (by decide) _ _ (by decide) c hc fun j => ⟨none, hdone j⟩⟩

/-- Both threads find block 0 empty; thread `u` stores its object there, and thread `t` overwrites it. -/
def clashSched {T : Type} (t u : T) : List (T × Choice) :=
  statements t 8 ++ statements u 8 ++ statements t 6 ++ statements u 28 ++ statements t 22

theorem lost_insertion : ∃ (url buf : Fin 2 → Text) (c : ProxyConf (Fin 2)), Function.Injective url ∧
    (inserts url buf).Reachable c ∧ (∀ j, c.loc j = .point (.done none)) ∧
    ∀ i, (c.shared.data.blocks i).cacheUrl ≠ some (url 1) := by
  obtain ⟨c, hc, hdone, hlost⟩ : ∃ c, (inserts ![[97], [98]] fun _ => [98]).Reachable c ∧
      (∀ j : Fin 2, c.loc j = .point (.done none)) ∧ ∀ i, (c.shared.data.blocks i).cacheUrl ≠ some [98] :=
    Conf.exists_reach (fun _ _ => true) (clashSched 0 1) (.init rfl) (fun _ _ _ _ => trivial) (by decide +kernel)
  exact ⟨![[97], [98]], fun _ => [98], c, by decide, hc, hdone, hlost⟩

end

end CsappLab.Proxy
