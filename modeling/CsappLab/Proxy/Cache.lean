import CsappLab.Proxy.Locks

/-!
# The proxy cache

`doit` of `proxy.c` and the cache routines it calls, one step for each access of the shared cache. A
thread runs one `doit`. A buffer in the middle of a `strcpy` holds no string (`none`), and what a thread
reads there is a choice of its environment.
-/

namespace CsappLab.Proxy

def CACHE_OBJS_COUNT : Nat := 10

instance : NeZero CACHE_OBJS_COUNT := ⟨by decide⟩

abbrev Index := Fin CACHE_OBJS_COUNT

/-- A C string. -/
abbrev Text := List UInt8

/-- The data fields of a `cache_block`. -/
structure Block where
  cacheObj : Option Text
  cacheUrl : Option Text
  isEmpty : Bool
  stamp : Int
deriving DecidableEq

/-- The blocks, with the calls of `cache_url` so far. -/
structure Data where
  blocks : Index → Block
  calls : List (Text × Text)

def cacheInit : Data := ⟨fun _ => ⟨some [], some [], true, -1⟩, []⟩

/-- The next statement of `cache_url` that writes to the block. -/
inductive Fill
  | url
  | urlEnd
  | obj
  | objEnd
  | isEmpty
deriving DecidableEq

/-- The next statement of a thread; `leak` tells that `cache_update_stamp` was called on the hit path. -/
inductive Point
  | start
  | find (url : Text) (i : Nat)
  | findTest (url : Text) (i : Index)
  | hit (url : Text) (i : Index)
  | serve (url : Text) (i : Index)
  | miss (url : Text)
  | cacheUrl (url buf : Text)
  | evict (url buf : Text) (i : Nat) (maxStamp : Int) (maxStampIdx : Option Index)
  | evictTest (url buf : Text) (i : Index) (maxStamp : Int) (maxStampIdx : Option Index)
  | claim (url buf : Text) (i : Index)
  | evictStamp (url buf : Text) (i : Index) (maxStamp : Int) (maxStampIdx : Option Index)
  | evicted (url buf : Text) (i : Index)
  | fill (m : Fill) (url buf : Text) (i : Index)
  | updateStamp (index : Index) (leak : Bool)
  | stampZero (index : Index) (leak : Bool)
  | stampLoop (index : Index) (i : Nat) (leak : Bool)
  | stampInc (index i : Index) (leak : Bool)
  | done (leak : Option Index)
deriving DecidableEq

/-- What the environment of a step chooses: the request, the response to be cached, and the result of
a `strcmp` with a torn string. -/
structure Choice where
  request : Option Text
  response : Option Text
  equal : Bool

abbrev ProxyLoc := Loc Index Point

def setBlock (d : Data) (i : Index) (block : Block) : Data := { d with blocks := Function.update d.blocks i block }

/-- `cache.cache_objs[i].isEmpty == 0 && strcmp(url, cache.cache_objs[i].cache_url) == 0`. -/
def matchesUrl (ch : Choice) (block : Block) (url : Text) : Bool :=
  !block.isEmpty && match block.cacheUrl with
    | some cacheUrl => url == cacheUrl
    | none => ch.equal

/-- The statements that write to a block in `cache_url`. -/
def fillBlock (block : Block) (url buf : Text) : Fill → Block
  | .url => { block with cacheUrl := none }
  | .urlEnd => { block with cacheUrl := some url }
  | .obj => { block with cacheObj := none }
  | .objEnd => { block with cacheObj := some buf }
  | .isEmpty => { block with isEmpty := false }

def Fill.next (url buf : Text) (i : Index) : Fill → ProxyLoc
  | .url => .point (.fill .urlEnd url buf i)
  | .urlEnd => .point (.fill .obj url buf i)
  | .obj => .point (.fill .objEnd url buf i)
  | .objEnd => .point (.fill .isEmpty url buf i)
  | .isEmpty => .writerAfter i (.updateStamp i false)

/-- One statement of `doit` or of a cache routine. -/
def act (ch : Choice) (d : Data) : Point → Option (Data × ProxyLoc)
  | .start =>
    match ch.request with
    | some url => some (d, .point (.find url 0))
    | none => some (d, .point (.done none))
  | .find url i =>
    if h : i < CACHE_OBJS_COUNT then some (d, .readerPre .lock ⟨i, h⟩ (.findTest url ⟨i, h⟩))
    else some (d, .point (.miss url))
  | .findTest url i =>
    -- the `break` leaves the loop without `readerAfter`
    if matchesUrl ch (d.blocks i) url then some (d, .point (.hit url i))
    else some (d, .readerAfter .lock i (.find url (i + 1)))
  | .hit url i => some (d, .readerPre .lock i (.serve url i))
  | .serve _ i => some (d, .readerAfter .lock i (.updateStamp i true))
  | .miss url =>
    match ch.response with
    | some buf => some (d, .point (.cacheUrl url buf))
    | none => some (d, .point (.done none))
  | .cacheUrl url buf =>
    some ({ d with calls := (url, buf) :: d.calls }, .point (.evict url buf 0 (-2) none))
  | .evict url buf i maxStamp maxStampIdx =>
    if h : i < CACHE_OBJS_COUNT then
      some (d, .readerPre .lock ⟨i, h⟩ (.evictTest url buf ⟨i, h⟩ maxStamp maxStampIdx))
    else maxStampIdx.map fun i => (d, .point (.evicted url buf i))
  | .evictTest url buf i maxStamp maxStampIdx =>
    if (d.blocks i).isEmpty then some (d, .point (.claim url buf i))
    else some (d, .point (.evictStamp url buf i maxStamp maxStampIdx))
  | .claim url buf i =>
    some (setBlock d i { d.blocks i with isEmpty := false }, .readerAfter .lock i (.evicted url buf i))
  | .evictStamp url buf i maxStamp maxStampIdx =>
    if (d.blocks i).stamp > maxStamp then
      some (d, .readerAfter .lock i (.evict url buf (i + 1) (d.blocks i).stamp (some i)))
    else some (d, .readerAfter .lock i (.evict url buf (i + 1) maxStamp maxStampIdx))
  | .evicted url buf i => some (d, .writerPre i (.fill .url url buf i))
  | .fill m url buf i => some (setBlock d i (fillBlock (d.blocks i) url buf m), m.next url buf i)
  | .updateStamp index leak => some (d, .writerPre index (.stampZero index leak))
  | .stampZero index leak =>
    some (setBlock d index { d.blocks index with stamp := 0 }, .writerAfter index (.stampLoop index 0 leak))
  | .stampLoop index i leak =>
    if h : i < CACHE_OBJS_COUNT then
      if i ≠ index ∧ (d.blocks ⟨i, h⟩).isEmpty = false then
        some (d, .writerPre ⟨i, h⟩ (.stampInc index ⟨i, h⟩ leak))
      else some (d, .point (.stampLoop index (i + 1) leak))
    else some (d, .point (.done (if leak then some index else none)))
  | .stampInc index i leak =>
    some (setBlock d i { d.blocks i with stamp := (d.blocks i).stamp + 1 },
      .writerAfter i (.stampLoop index (i + 1) leak))
  | .done _ => none

abbrev ProxyConf (T : Type*) := Conf T (Shared Index Data) ProxyLoc

/-- The threads at their first points, and the cache as `cache_init` leaves it. -/
def begin {T : Type*} (first : T → Point) : ProxyConf T :=
  ⟨⟨fun _ => Lock.init, cacheInit⟩, fun t => .point (first t)⟩

def proxy {T : Type*} [DecidableEq T] (first : T → Point) : Machine (ProxyConf T) (T × Choice) :=
  Conf.threads (fun c => c = begin first) (step act)

def doit (T : Type*) [DecidableEq T] : Machine (ProxyConf T) (T × Choice) := proxy fun _ => .start

/-! ### What a point holds -/

/-- The outstanding calls of `readerPre(b)` at a point. -/
def Point.readers : Point → Index → Nat
  | .findTest _ i, b | .hit _ i, b | .evictTest _ _ i _ _, b | .claim _ _ i, b | .evictStamp _ _ i _ _, b =>
    if b = i then 1 else 0
  | .serve _ i, b => if b = i then 2 else 0
  | .updateStamp i leak, b | .stampZero i leak, b | .stampLoop i _ leak, b | .stampInc i _ leak, b =>
    if b = i ∧ leak then 1 else 0
  | .done leak, b => if leak = some b then 1 else 0
  | _, _ => 0

/-- The point is in a writer section of block `b`. -/
def Point.writers : Point → Index → Nat
  | .fill _ _ _ i, b | .stampZero i _, b | .stampInc _ i _, b => if b = i then 1 else 0
  | _, _ => 0

/-- What a statement can do. -/
inductive Act (ch : Choice) (d : Data) : Point → Data → ProxyLoc → Prop
  | request {url : Text} : ch.request = some url → Act ch d .start d (.point (.find url 0))
  | noRequest : ch.request = none → Act ch d .start d (.point (.done none))
  | find {url : Text} {i : Nat} (h : i < CACHE_OBJS_COUNT) :
      Act ch d (.find url i) d (.readerPre .lock ⟨i, h⟩ (.findTest url ⟨i, h⟩))
  | notFound {url : Text} {i : Nat} : ¬ i < CACHE_OBJS_COUNT → Act ch d (.find url i) d (.point (.miss url))
  | found {url : Text} {i : Index} : matchesUrl ch (d.blocks i) url = true →
      Act ch d (.findTest url i) d (.point (.hit url i))
  | notHere {url : Text} {i : Index} : ¬ matchesUrl ch (d.blocks i) url = true →
      Act ch d (.findTest url i) d (.readerAfter .lock i (.find url (i + 1)))
  | hit {url : Text} {i : Index} : Act ch d (.hit url i) d (.readerPre .lock i (.serve url i))
  | serve {url : Text} {i : Index} : Act ch d (.serve url i) d (.readerAfter .lock i (.updateStamp i true))
  | store {url buf : Text} : ch.response = some buf → Act ch d (.miss url) d (.point (.cacheUrl url buf))
  | noStore {url : Text} : ch.response = none → Act ch d (.miss url) d (.point (.done none))
  | cacheUrl {url buf : Text} : Act ch d (.cacheUrl url buf) { d with calls := (url, buf) :: d.calls }
      (.point (.evict url buf 0 (-2) none))
  | evict {url buf : Text} {i : Nat} {maxStamp : Int} {idx : Option Index} (h : i < CACHE_OBJS_COUNT) :
      Act ch d (.evict url buf i maxStamp idx) d
        (.readerPre .lock ⟨i, h⟩ (.evictTest url buf ⟨i, h⟩ maxStamp idx))
  | evictEnd {url buf : Text} {i : Nat} {maxStamp : Int} {x : Index} : ¬ i < CACHE_OBJS_COUNT →
      Act ch d (.evict url buf i maxStamp (some x)) d (.point (.evicted url buf x))
  | empty {url buf : Text} {i : Index} {maxStamp : Int} {idx : Option Index} : (d.blocks i).isEmpty = true →
      Act ch d (.evictTest url buf i maxStamp idx) d (.point (.claim url buf i))
  | notEmpty {url buf : Text} {i : Index} {maxStamp : Int} {idx : Option Index} :
      ¬ (d.blocks i).isEmpty = true →
      Act ch d (.evictTest url buf i maxStamp idx) d (.point (.evictStamp url buf i maxStamp idx))
  | claim {url buf : Text} {i : Index} :
      Act ch d (.claim url buf i) (setBlock d i { d.blocks i with isEmpty := false })
        (.readerAfter .lock i (.evicted url buf i))
  | evictStamp {url buf : Text} {i : Index} {maxStamp maxStamp' : Int} {idx idx' : Option Index} :
      Act ch d (.evictStamp url buf i maxStamp idx) d
        (.readerAfter .lock i (.evict url buf (i + 1) maxStamp' idx'))
  | evicted {url buf : Text} {i : Index} : Act ch d (.evicted url buf i) d (.writerPre i (.fill .url url buf i))
  | fill {m : Fill} {url buf : Text} {i : Index} : Act ch d (.fill m url buf i)
      (setBlock d i (fillBlock (d.blocks i) url buf m)) (m.next url buf i)
  | updateStamp {x : Index} {leak : Bool} :
      Act ch d (.updateStamp x leak) d (.writerPre x (.stampZero x leak))
  | stampZero {x : Index} {leak : Bool} : Act ch d (.stampZero x leak)
      (setBlock d x { d.blocks x with stamp := 0 }) (.writerAfter x (.stampLoop x 0 leak))
  | stampOther {x : Index} {i : Nat} {leak : Bool} (h : i < CACHE_OBJS_COUNT) : i ≠ x →
      (d.blocks ⟨i, h⟩).isEmpty = false →
      Act ch d (.stampLoop x i leak) d (.writerPre ⟨i, h⟩ (.stampInc x ⟨i, h⟩ leak))
  | stampSkip {x : Index} {i : Nat} {leak : Bool} :
      Act ch d (.stampLoop x i leak) d (.point (.stampLoop x (i + 1) leak))
  | stampEnd {x : Index} {i : Nat} {leak : Bool} :
      Act ch d (.stampLoop x i leak) d (.point (.done (if leak then some x else none)))
  | stampInc {x i : Index} {leak : Bool} : Act ch d (.stampInc x i leak)
      (setBlock d i { d.blocks i with stamp := (d.blocks i).stamp + 1 })
      (.writerAfter i (.stampLoop x (i + 1) leak))

theorem act_cases {ch : Choice} {d d' : Data} {k : Point} {l : ProxyLoc} (h : act ch d k = some (d', l)) :
    Act ch d k d' l := by
  cases k <;> simp only [act] at h
  case start =>
    split at h <;> cases h
    · exact .request ‹_›
    · exact .noRequest ‹_›
  case find =>
    split_ifs at h with hi <;> cases h
    · exact .find hi
    · exact .notFound hi
  case findTest =>
    split_ifs at h with hm <;> cases h
    · exact .found hm
    · exact .notHere hm
  case miss =>
    split at h <;> cases h
    · exact .store ‹_›
    · exact .noStore ‹_›
  case evict maxStampIdx =>
    split_ifs at h with hi
    · cases h
      exact .evict hi
    · cases maxStampIdx with
      | none => cases h
      | some x =>
        cases h
        exact .evictEnd hi
  case evictTest =>
    split_ifs at h with hm <;> cases h
    · exact .empty hm
    · exact .notEmpty hm
  case evictStamp => split_ifs at h <;> cases h <;> exact .evictStamp
  case stampLoop =>
    split at h
    · rename_i hi
      split at h <;> cases h
      · rename_i hm
        exact .stampOther hi hm.1 hm.2
      · exact .stampSkip
    · cases h
      exact .stampEnd
  case hit => cases h; exact .hit
  case serve => cases h; exact .serve
  case cacheUrl => cases h; exact .cacheUrl
  case claim => cases h; exact .claim
  case evicted => cases h; exact .evicted
  case fill => cases h; exact .fill
  case updateStamp => cases h; exact .updateStamp
  case stampZero => cases h; exact .stampZero
  case stampInc => cases h; exact .stampInc
  case done => cases h

/-- **The books.** Every statement agrees with what the points hold. -/
theorem act_books {ch : Choice} {d d' : Data} {k : Point} {l : ProxyLoc} (h : act ch d k = some (d', l)) :
    (∀ b, l.cnt Point.readers b = k.readers b) ∧ (∀ b, l.wr Point.writers b = k.writers b) ∧
      l.Ok Point.readers Point.writers ∧ l.Entry := by
  cases act_cases h with
  | find hi =>
    refine ⟨fun b => ?_, fun b => rfl, ?_, rfl⟩
    · by_cases hb : b = ⟨_, hi⟩ <;> simp [Point.readers, hb]
    · simp [Loc.Ok, Point.readers]
  | evict hi =>
    refine ⟨fun b => ?_, fun b => rfl, ?_, rfl⟩
    · by_cases hb : b = ⟨_, hi⟩ <;> simp [Point.readers, hb]
    · simp [Loc.Ok, Point.readers]
  | @hit _ i =>
    refine ⟨?_, fun b => rfl, ?_, rfl⟩
    · intro b
      by_cases hb : b = i <;> simp [Point.readers, hb]
    · simp [Loc.Ok, Point.readers]
  | @notHere _ i _ =>
    refine ⟨fun b => ?_, fun b => rfl, trivial, rfl⟩
    by_cases hb : b = i <;> simp [Point.readers, hb]
  | @serve _ i =>
    refine ⟨fun b => ?_, fun b => rfl, trivial, rfl⟩
    by_cases hb : b = i <;> simp [Point.readers, hb]
  | @claim _ _ i =>
    refine ⟨fun b => ?_, fun b => rfl, trivial, rfl⟩
    by_cases hb : b = i <;> simp [Point.readers, hb]
  | @evictStamp _ _ i =>
    refine ⟨fun b => ?_, fun b => rfl, trivial, rfl⟩
    by_cases hb : b = i <;> simp [Point.readers, hb]
  | @evicted _ _ i =>
    refine ⟨fun b => rfl, fun b => ?_, ?_, trivial⟩
    · by_cases hb : b = i <;> simp [Point.writers, hb]
    · simp [Loc.Ok, Point.writers]
  | @updateStamp i =>
    refine ⟨fun b => rfl, fun b => ?_, ?_, trivial⟩
    · by_cases hb : b = i <;> simp [Point.writers, hb]
    · simp [Loc.Ok, Point.writers]
  | stampOther hi _ _ =>
    refine ⟨fun b => rfl, ?_, ?_, trivial⟩
    · intro b
      by_cases hb : b = ⟨_, hi⟩ <;> simp [Point.writers, hb]
    · simp [Loc.Ok, Point.writers]
  | @stampZero i =>
    refine ⟨fun b => rfl, fun b => ?_, trivial, trivial⟩
    by_cases hb : b = i <;> simp [Point.writers, hb]
  | @stampInc _ i =>
    refine ⟨fun b => rfl, fun b => ?_, trivial, trivial⟩
    by_cases hb : b = i <;> simp [Point.writers, hb]
  | @fill m _ _ i =>
    cases m with
    | isEmpty =>
      refine ⟨?_, ?_, trivial, trivial⟩
      · intro b
        simp [Fill.next, Point.readers]
      · intro b
        by_cases hb : b = i <;> simp [Fill.next, Point.writers, hb]
    | _ => exact ⟨fun b => rfl, fun b => rfl, trivial, trivial⟩
  | @stampEnd _ _ leak =>
    refine ⟨fun b => ?_, fun b => rfl, trivial, trivial⟩
    cases leak <;> simp [Point.readers, eq_comm]
  | noRequest _ => exact ⟨fun b => by simp [Point.readers], fun b => rfl, trivial, trivial⟩
  | noStore _ => exact ⟨fun b => by simp [Point.readers], fun b => rfl, trivial, trivial⟩
  | request _ => exact ⟨fun b => rfl, fun b => rfl, trivial, trivial⟩
  | notFound _ => exact ⟨fun b => rfl, fun b => rfl, trivial, trivial⟩
  | found _ => exact ⟨fun b => rfl, fun b => rfl, trivial, trivial⟩
  | store _ => exact ⟨fun b => rfl, fun b => rfl, trivial, trivial⟩
  | cacheUrl => exact ⟨fun b => rfl, fun b => rfl, trivial, trivial⟩
  | evictEnd _ => exact ⟨fun b => rfl, fun b => rfl, trivial, trivial⟩
  | empty _ => exact ⟨fun b => rfl, fun b => rfl, trivial, trivial⟩
  | notEmpty _ => exact ⟨fun b => rfl, fun b => rfl, trivial, trivial⟩
  | stampSkip => exact ⟨fun b => rfl, fun b => rfl, trivial, trivial⟩

theorem act_balanced : Balanced Point.readers Point.writers act where
  cnt h := (act_books h).1
  wr h := (act_books h).2.1
  ok h := (act_books h).2.2.1
  entry h := (act_books h).2.2.2

/-! ### Exclusion -/

variable {T : Type*} [DecidableEq T] [Fintype T] {first : T → Point}
  {c c' : ProxyConf T} {ok : ProxyConf T → T × Choice → Prop}

def ProxyInv (c : ProxyConf T) : Prop :=
  LockInv Point.readers Point.writers c.shared.locks c.loc

theorem ProxyInv.move {t : T} {ch : Choice} (h : ProxyInv c) (hm : c.move (step act) t ch = some c') :
    ProxyInv c' := by
  obtain ⟨s, l, hs, rfl⟩ := Conf.move_eq_some.1 hm
  exact LockInv.step h act_balanced hs

theorem ProxyInv.reach (hfirst : ∀ t b, (first t).readers b = 0 ∧ (first t).writers b = 0)
    (h : (proxy first).Reach ok c) : ProxyInv c := by
  refine h.invariant ?_ fun c l c' hi _ hst => hi.move hst
  rintro c rfl
  exact LockInv.init fun t => ⟨first t, rfl, hfirst t⟩

/-- **Readers and writers.** In every reachable state of any number of request threads there is no other
writer and no reader of a block next to a writer of it, and `readcnt` is positive while there is a
reader. -/
theorem readers_writers (n : Nat) (c : ProxyConf (Fin n))
    (h : (doit (Fin n)).Reachable c) (i : Index) :
    (∀ t, 0 < (c.loc t).writers Point.writers i → ∀ t', t' ≠ t →
      (c.loc t').writers Point.writers i = 0 ∧ (c.loc t').readers Point.readers i = 0) ∧
    ∀ t, 0 < (c.loc t).readers Point.readers i → 0 < (c.shared.locks i).readcnt := by
  have hinv : ProxyInv c := ProxyInv.reach (fun _ _ => ⟨rfl, rfl⟩) h
  exact ⟨fun t ht t' ht' => hinv.exclusion ht ht', fun t ht => hinv.readcnt_pos ht⟩

/-- `n` statements of thread `t`, which asks for `url` and gets the response `buf`. -/
def turn {T : Type} (t : T) (url : Text) (buf : Option Text) (n : Nat) : List (T × Choice) :=
  List.replicate n (t, ⟨some url, buf, false⟩)

/-- Thread 0 writes to block 0, where thread 2 waits, while thread 1 reads block 1. -/
theorem readers_writers_three : ∃ c : ProxyConf (Fin 3), (doit (Fin 3)).Reachable c ∧
    0 < (c.loc 0).writers Point.writers 0 ∧ c.loc 2 = .readerPre .firstIn 0 (.findTest [97] 0) ∧
    0 < (c.loc 1).readers Point.readers 1 ∧
    (∀ t, t ≠ 0 → (c.loc t).writers Point.writers 0 = 0 ∧ (c.loc t).readers Point.readers 0 = 0) ∧
    0 < (c.shared.locks 1).readcnt := by
  obtain ⟨c, hc, hwriter, hwait, hreader⟩ : ∃ c : ProxyConf (Fin 3), (doit (Fin 3)).Reachable c ∧
      0 < (c.loc 0).writers Point.writers 0 ∧ c.loc 2 = .readerPre .firstIn 0 (.findTest [97] 0) ∧
      0 < (c.loc 1).readers Point.readers 1 :=
    Conf.exists_reach (fun _ _ => true)
      (turn 1 [98] none 19 ++ turn 0 [97] (some [120]) 139 ++ turn 2 [97] none 5)
      (.init rfl) (fun _ _ _ _ => trivial) (by decide +kernel)
  exact ⟨c, hc, hwriter, hwait, hreader, (readers_writers 3 c hc 0).1 0 hwriter,
    (readers_writers 3 c hc 1).2 1 hreader⟩

end CsappLab.Proxy
