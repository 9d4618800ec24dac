import CsappLab.Malloc.History

/-!
# Replaying a trace

`mdriver.c` replays one trace several times in a process, each time after `mem_reset_brk` and `mm_init`.
Two replays go in lockstep (`Twin`): the heaps have the same layout and the client holds the same pointers,
whatever else the earlier calls have left in memory. The one thing left that is ever read is
`previous_size`, so the replays agree when it agrees; and a trace in which some `mm_realloc` returns has
replays that do not.
-/

namespace CsappLab.Malloc
open ByteMem CInt Linked Fuel

/-- `traceop_t`. -/
inductive TraceOp
  | alloc (index size : Nat)
  | free (index : Nat)
  | realloc (index size : Nat)

/-- The call that `eval_mm_util` and `eval_mm_speed` make for a request. -/
def TraceOp.op (blocks : Nat → Nat) : TraceOp → Op
  | .alloc _ size => .malloc size
  | .free index => .free (blocks index)
  | .realloc index size => .realloc (blocks index) size

/-- `trace->blocks` after the call has returned `r`. -/
def TraceOp.blocks (r : Nat) (blocks : Nat → Nat) : TraceOp → Nat → Nat
  | .alloc index _ => Function.update blocks index r
  | .free _ => blocks
  | .realloc index _ => Function.update blocks index r

/-- The allocator with its live pointers, and `trace->blocks`. -/
structure Driver where
  client : Client
  blocks : Nat → Nat

namespace Driver

def step (d : Driver) (t : TraceOp) : Except Fault (Driver × Nat) := do
  let (c, r) ← d.client.exec (t.op d.blocks)
  .ok (⟨c, t.blocks r d.blocks⟩, r)

/-- The returned pointers; `none` stands for the fault that ends the process. -/
def outcome (d : Driver) : List TraceOp → List (Option Nat)
  | [] => []
  | t :: ts =>
    match d.step t with
    | .error _ => [none]
    | .ok (d, r) => some r :: d.outcome ts

/-- The trace frees and reallocates live blocks only. -/
def Valid (d : Driver) : List TraceOp → Prop
  | [] => True
  | t :: ts => d.client.Legal (t.op d.blocks) ∧ ∀ d' r, d.step t = .ok (d', r) → d'.Valid ts

def Fits (d : Driver) : List TraceOp → Prop
  | [] => True
  | t :: ts => d.client.Fits (t.op d.blocks) ∧ ∀ d' r, d.step t = .ok (d', r) → d'.Fits ts

def ReallocReturns (d : Driver) : List TraceOp → Prop
  | [] => False
  | t :: ts => ∃ d' r, d.step t = .ok (d', r) ∧ ((t.op d.blocks).IsRealloc ∨ d'.ReallocReturns ts)

end Driver

def TraceOp.AllocFits : TraceOp → Prop
  | .alloc _ size => size ≤ 2 ^ 32 - 16
  | _ => True

/-- `mem_reset_brk`, `mm_init` and the trace. -/
def replay (h : Heap) (ts : List TraceOp) : List (Option Nat) :=
  match h.memResetBrk.mmInit with
  | .error _ => [none]
  | .ok (h, _) => Driver.outcome ⟨⟨h, []⟩, fun _ => NULL⟩ ts

/-- The driver after `mem_reset_brk` and `mm_init`. -/
def Starts (h : Heap) (d : Driver) : Prop :=
  ∃ h', h.memResetBrk.mmInit = .ok (h', 0) ∧ d = ⟨⟨h', []⟩, fun _ => NULL⟩

/-- Two replays in lockstep. -/
structure Twin (a : Arena) (d₁ d₂ : Driver) : Prop where
  inv : ∃ e bs fl, Inv a d₁.client e bs fl ∧ Inv a d₂.client e bs fl
  live : d₂.client.live = d₁.client.live
  blocks : d₂.blocks = d₁.blocks

variable {a : Arena} {d d' d₁ d₂ : Driver} {t : TraceOp} {ts : List TraceOp} {h H₁ H₂ : Heap} {n n' size : Nat}

/-! ### One request -/

/-- **A request** that both replays make of equal states: both fail, or both return the same pointer. -/
theorem Twin.step (tw : Twin a d₁ d₂) (hl : d₁.client.Legal (t.op d₁.blocks))
    (hf : d₁.client.Fits (t.op d₁.blocks))
    (hp : (t.op d₁.blocks).IsRealloc → d₂.client.heap.previousSize = d₁.client.heap.previousSize) :
    ((t.op d₁.blocks).IsRealloc ∧ (∃ f, d₁.step t = .error f) ∧ ∃ f, d₂.step t = .error f) ∨
    ∃ d₁' d₂' r, d₁.step t = .ok (d₁', r) ∧ d₂.step t = .ok (d₂', r) ∧ Twin a d₁' d₂' ∧
      d₁'.client.heap.previousSize = (t.op d₁.blocks).previous d₁.client.heap.previousSize ∧
      d₂'.client.heap.previousSize = (t.op d₁.blocks).previous d₂.client.heap.previousSize := by
  obtain ⟨e, bs, fl, hi₁, hi₂⟩ := tw.inv
  unfold Driver.step
  rw [tw.blocks]
  rcases hi₁.exec hl hf with ⟨hre, f, hspec⟩ | ⟨r, live', e', bs', fl', hspec⟩
  · refine .inl ⟨hre, ⟨f, ?_⟩, f, ?_⟩
    · rw [hspec _ hi₁ rfl rfl]; rfl
    · rw [hspec _ hi₂ tw.live (hp hre)]; rfl
  · obtain ⟨c₁, hok₁, hi₁', hl₁, hp₁⟩ := hspec _ hi₁ rfl fun _ => rfl
    obtain ⟨c₂, hok₂, hi₂', hl₂, hp₂⟩ := hspec _ hi₂ tw.live hp
    refine .inr ⟨⟨c₁, _⟩, ⟨c₂, _⟩, r, by rw [hok₁]; rfl, by rw [hok₂]; rfl,
      ⟨⟨e', bs', fl', hi₁', hi₂'⟩, hl₂.trans hl₁.symm, rfl⟩, hp₁, hp₂⟩

theorem fits_of_not_realloc (hf : t.AllocFits) (ht : ¬ (t.op d.blocks).IsRealloc) :
    d.client.Fits (t.op d.blocks) := by
  cases t with
  | alloc i size => exact hf
  | free i => trivial
  | realloc i size => exact absurd trivial ht

theorem Twin.step_other (tw : Twin a d₁ d₂) (hl : d₁.client.Legal (t.op d₁.blocks)) (hf : t.AllocFits)
    (ht : ¬ (t.op d₁.blocks).IsRealloc) :
    ∃ d₁' d₂' r, d₁.step t = .ok (d₁', r) ∧ d₂.step t = .ok (d₂', r) ∧ Twin a d₁' d₂' ∧
      d₂'.client.heap.previousSize = d₂.client.heap.previousSize := by
  rcases tw.step hl (fits_of_not_realloc hf ht) fun h1 => absurd h1 ht with
    ⟨h1, -⟩ | ⟨d₁', d₂', r, h1, h2, tw', -, hp⟩
  · exact absurd h1 ht
  · refine ⟨d₁', d₂', r, h1, h2, tw', hp.trans ?_⟩
    cases t with
    | alloc i size => rfl
    | free i => rfl
    | realloc i size => exact absurd trivial ht

theorem outcome_error {f : Fault} (hs : d.step t = .error f) : d.outcome (t :: ts) = [none] := by
  unfold Driver.outcome
  rw [hs]

theorem outcome_ok {r : Nat} (hs : d.step t = .ok (d', r)) : d.outcome (t :: ts) = some r :: d'.outcome ts := by
  rw [Driver.outcome, hs]

/-! ### The whole trace -/

theorem Twin.outcome_eq (tw : Twin a d₁ d₂) (hv : d₁.Valid ts) (hf : d₁.Fits ts)
    (hp : d₂.client.heap.previousSize = d₁.client.heap.previousSize) : d₁.outcome ts = d₂.outcome ts := by
  induction ts generalizing d₁ d₂ with
  | nil => rfl
  | cons t ts ih =>
    rcases tw.step hv.1 hf.1 fun _ => hp with ⟨-, ⟨f, h1⟩, g, h2⟩ | ⟨d₁', d₂', r, h1, h2, tw', hp₁, hp₂⟩
    · rw [outcome_error h1, outcome_error h2]
    · rw [outcome_ok h1, outcome_ok h2, ih tw' (hv.2 _ _ h1) (hf.2 _ _ h1) (by rw [hp₁, hp₂, hp])]

/-- When no `mm_realloc` returns, neither replay ever looks at `previous_size` and survives. -/
theorem Twin.outcome_eq_of_no_realloc (tw : Twin a d₁ d₂) (hv : d₁.Valid ts) (hf : ∀ t ∈ ts, t.AllocFits)
    (h₁ : ¬ d₁.ReallocReturns ts) (h₂ : ¬ d₂.ReallocReturns ts) : d₁.outcome ts = d₂.outcome ts := by
  induction ts generalizing d₁ d₂ with
  | nil => rfl
  | cons t ts ih =>
    by_cases ht : (t.op d₁.blocks).IsRealloc
    · have herr : ∀ d : Driver, d.blocks = d₁.blocks → ¬ d.ReallocReturns (t :: ts) → d.outcome (t :: ts) = [none] :=
        fun d hb hno => by
          rcases hs : d.step t with f | ⟨d', r⟩
          · exact outcome_error hs
          · exact absurd ⟨d', r, hs, .inl (by rw [hb]; exact ht)⟩ hno
      rw [herr d₁ rfl h₁, herr d₂ tw.blocks h₂]
    · obtain ⟨d₁', d₂', r, hs₁, hs₂, tw', -⟩ := tw.step_other hv.1 (hf t (by simp)) ht
      rw [outcome_ok hs₁, outcome_ok hs₂, ih tw' (hv.2 _ _ hs₁) (fun t ht => hf t (by simp [ht]))
        (fun h => h₁ ⟨_, _, hs₁, .inr h⟩) fun h => h₂ ⟨_, _, hs₂, .inr h⟩]

theorem divisor_congr {g : Heap} (hg : g.previousSize = h.previousSize) : g.divisor size = h.divisor size := by
  unfold Heap.divisor
  rw [hg]

/-- When an `mm_realloc` returns in one replay, the first one that does divides by zero in another. -/
theorem exists_bad_size (hv : d₁.Valid ts) (hf : ∀ t ∈ ts, t.AllocFits) (hr : d₁.ReallocReturns ts) :
    ∃ size, ∀ d₂, Twin a d₁ d₂ → d₂.client.heap.divisor size = some 0 → d₁.outcome ts ≠ d₂.outcome ts := by
  induction ts generalizing d₁ with
  | nil => exact hr.elim
  | cons t ts ih =>
    obtain ⟨d₁', r, hs₁, hr⟩ := hr
    by_cases ht : (t.op d₁.blocks).IsRealloc
    · cases t with
      | alloc i size => exact ht.elim
      | free i => exact ht.elim
      | realloc i size =>
        refine ⟨size, fun d₂ tw hd heq => ?_⟩
        have hs₂ : d₂.step (.realloc i size) = .error .divideByZero := by
          simp only [Driver.step, Client.exec, Heap.perform, TraceOp.op, Heap.mmRealloc,
            bufferSize_error_iff.2 hd, bind, Except.bind]
        rw [outcome_ok hs₁, outcome_error hs₂] at heq
        simp at heq
    · obtain ⟨size, hall⟩ := ih (hv.2 _ _ hs₁) (fun t ht => hf t (by simp [ht])) (hr.resolve_left ht)
      refine ⟨size, fun d₂ tw hd heq => ?_⟩
      obtain ⟨g₁, d₂', r', hs₁', hs₂, tw', hp⟩ := tw.step_other hv.1 (hf t (by simp)) ht
      rw [hs₁] at hs₁'
      cases hs₁'
      rw [outcome_ok hs₁, outcome_ok hs₂, List.cons.injEq] at heq
      exact hall d₂' tw' ((divisor_congr hp).trans hd) heq.2

/-! ### Histories -/

theorem exists_starts (a : Arena) : ∃ e bs fl, ∀ H n, History a H n → ∃ h', H.memResetBrk.mmInit = .ok (h', 0) ∧
    Inv a ⟨h', []⟩ e bs fl ∧ h'.previousSize = H.previousSize := by
  obtain ⟨e, bs, fl, hspec⟩ := mmInit_spec a.start_pos a.fits
  refine ⟨e, bs, fl, fun H n hH => ?_⟩
  obtain ⟨hst, hmax, -⟩ := hH.spec
  obtain ⟨h', hok, z, hno, hprev⟩ := hspec H.memResetBrk hst hst hmax
  exact ⟨h', hok, ⟨z, fun p => by simp [hno]⟩, hprev⟩

theorem History.starts (hH : History a H₁ n) : ∃ d, Starts H₁ d := by
  obtain ⟨_, _, _, hall⟩ := exists_starts a
  obtain ⟨h', hok, -⟩ := hall H₁ n hH
  exact ⟨_, h', hok, rfl⟩

theorem Starts.replay_eq (hs : Starts h d) : replay h ts = d.outcome ts := by
  obtain ⟨h', hok, rfl⟩ := hs
  unfold replay
  rw [hok]

theorem Starts.previous (hH : History a h n) (hs : Starts h d) : d.client.heap.previousSize = h.previousSize := by
  obtain ⟨_, _, _, hall⟩ := exists_starts a
  obtain ⟨h', hok, -, hp⟩ := hall h n hH
  obtain ⟨h₁, hok', rfl⟩ := hs
  rw [hok] at hok'
  cases hok'
  exact hp

theorem Starts.twin (hH₁ : History a H₁ n) (hH₂ : History a H₂ n') (hs₁ : Starts H₁ d₁) (hs₂ : Starts H₂ d₂) :
    Twin a d₁ d₂ := by
  obtain ⟨e, bs, fl, hall⟩ := exists_starts a
  obtain ⟨h₁, hok₁, hi₁, -⟩ := hall H₁ n hH₁
  obtain ⟨h₂, hok₂, hi₂, -⟩ := hall H₂ n' hH₂
  obtain ⟨g₁, hg₁, rfl⟩ := hs₁
  obtain ⟨g₂, hg₂, rfl⟩ := hs₂
  rw [hok₁] at hg₁
  rw [hok₂] at hg₂
  cases hg₁
  cases hg₂
  exact ⟨⟨e, bs, fl, hi₁, hi₂⟩, rfl, rfl⟩

theorem exists_history (a : Arena) (size : Nat) : ∃ H n, History a H n ∧ H.divisor size = some 0 := by
  obtain ⟨H, hH⟩ : ∃ H, History a H 0 := ⟨_, .start (h := ⟨fun _ => 0, 0, 0, 0, 0, 0, 0⟩) rfl⟩
  by_cases hd : H.divisor size = some 0
  · exact ⟨H, 0, hH, hd⟩
  -- `mm_realloc(NULL, size)` returns and remembers the size
  · rcases hb : H.bufferSize size with f | k
    · rw [bufferSize_error hb] at hb
      exact absurd (bufferSize_error_iff.1 hb) hd
    · have hc : H.perform (.realloc NULL size) = .ok ({ H with previousSize := i32 size }, NULL) := by
        simp only [Heap.perform, mmRealloc_null, hb, Except.bind]
      exact ⟨_, size, hH.call hc, (hH.call hc).divisor_eq_zero_iff.2 rfl⟩

/-- **What a replay depends on.** For a trace that only frees and reallocates live blocks: it has the same
outcome after all histories exactly when no `mm_realloc` of it returns after any of them; and after two
histories that leave the same `previous_size` it has the same outcome as long as no size wraps. -/
theorem replay_depends_on (ts : List TraceOp) (hf : ∀ t ∈ ts, t.AllocFits)
    (hv : ∀ H n d, History a H n → Starts H d → d.Valid ts) :
    ((∀ H₁ H₂ n n', History a H₁ n → History a H₂ n' → replay H₁ ts = replay H₂ ts) ↔
      ∀ H n d, History a H n → Starts H d → ¬ d.ReallocReturns ts) ∧
    ∀ H₁ H₂ n n' d, History a H₁ n → History a H₂ n' → H₁.previousSize = H₂.previousSize → Starts H₁ d →
      d.Fits ts → replay H₁ ts = replay H₂ ts := by
  refine ⟨⟨?_, ?_⟩, ?_⟩
  · intro hall H n d hH hs hr
    obtain ⟨size, hbad⟩ := exists_bad_size (a := a) (hv H n d hH hs) hf hr
    obtain ⟨H', n', hH', hd⟩ := exists_history a size
    obtain ⟨d', hs'⟩ := hH'.starts
    refine hbad d' (hs.twin hH hH' hs') ((divisor_congr (hs'.previous hH')).trans hd) ?_
    rw [← hs.replay_eq, ← hs'.replay_eq]
    exact hall H H' n n' hH hH'
  · intro hno H₁ H₂ n n' h₁ h₂
    obtain ⟨d₁, hs₁⟩ := h₁.starts
    obtain ⟨d₂, hs₂⟩ := h₂.starts
    rw [hs₁.replay_eq, hs₂.replay_eq]
    exact (hs₁.twin h₁ h₂ hs₂).outcome_eq_of_no_realloc (hv H₁ n d₁ h₁ hs₁) hf (hno H₁ n d₁ h₁ hs₁)
      (hno H₂ n' d₂ h₂ hs₂)
  · intro H₁ H₂ n n' d h₁ h₂ hp hs hfit
    obtain ⟨d₂, hs₂⟩ := h₂.starts
    rw [hs.replay_eq, hs₂.replay_eq]
    refine (hs.twin h₁ h₂ hs₂).outcome_eq (hv H₁ n d h₁ hs) hfit ?_
    rw [hs.previous h₁, hs₂.previous h₂, hp]

def growOnce : List TraceOp := [.alloc 0 16, .realloc 0 100]

theorem replay_depends_on_growOnce :
    ((∀ H₁ H₂ n n', History smallArena H₁ n → History smallArena H₂ n' → replay H₁ growOnce = replay H₂ growOnce) ↔
      ∀ H n d, History smallArena H n → Starts H d → ¬ d.ReallocReturns growOnce) ∧
    ∀ H₁ H₂ n n' d, History smallArena H₁ n → History smallArena H₂ n' → H₁.previousSize = H₂.previousSize →
      Starts H₁ d → d.Fits growOnce → replay H₁ growOnce = replay H₂ growOnce := by
  refine replay_depends_on (a := smallArena) growOnce ?_ ?_
  · intro t ht
    rcases List.mem_cons.1 ht with rfl | ht
    · exact show (16 : Nat) ≤ 2 ^ 32 - 16 by decide
    · rw [List.mem_singleton.1 ht]
      trivial
  · rintro H n d - ⟨h', -, rfl⟩
    refine ⟨trivial, fun d' r hs => ⟨?_, fun _ _ _ => trivial⟩⟩
    obtain ⟨⟨c, r'⟩, hc, hs⟩ := bind_eq_ok.1 hs
    obtain ⟨⟨g, r''⟩, -, hg⟩ := bind_eq_ok.1 hc
    cases hg
    cases hs
    -- the pointer that `mm_malloc` has returned is `NULL` or live
    rcases eq_or_ne r NULL with h0 | h0
    · exact .inl h0
    · refine .inr ?_
      show r ∈ addLive r []
      unfold addLive
      rw [if_neg h0]
      exact List.mem_singleton_self r

/-- The heap after a run of the trace. -/
def afterGrowOnce (h : Heap) : Except Fault Heap := do
  let (h, _) ← (h.memInit smallArena).memResetBrk.mmInit
  let (h, p) ← h.mmMalloc 16
  let (h, _) ← h.mmRealloc p 100
  .ok h

/-- A second replay of the trace in the same process divides by zero, where the first returned. -/
theorem replay_differs : ∃ H₁ H₂, History smallArena H₁ 0 ∧ History smallArena H₂ 100 ∧
    replay H₁ growOnce = [some 224, some 224] ∧ replay H₂ growOnce = [some 224, none] := by
  obtain ⟨h₀, h0, hrun⟩ : ∃ h₀ : Heap, h₀.previousSize = 0 ∧ (afterGrowOnce h₀).toOption.map (fun H =>
      (replay (h₀.memInit smallArena) growOnce, replay H growOnce)) =
        some ([some 224, some 224], [some 224, none]) :=
    ⟨⟨fun _ => 0, 0, 0, 0, 0, 0, 0⟩, rfl, by decide +kernel⟩
  rcases hok : afterGrowOnce h₀ with f | H
  · rw [hok] at hrun; cases hrun
  rw [hok] at hrun
  simp only [Except.toOption, Option.map_some, Option.some.injEq, Prod.mk.injEq] at hrun
  unfold afterGrowOnce at hok
  simp only [bind_eq_ok, Except.ok.injEq, Prod.exists] at hok
  obtain ⟨h₁, _, h1, h₂, p, h2, h₃, q, h3, rfl⟩ := hok
  have c1 : h₁.perform (.malloc 16) = .ok (h₂, p) := h2
  have c2 : h₂.perform (.realloc p 100) = .ok (h₃, q) := h3
  exact ⟨_, _, .start h0, (((History.start h0).reset.init h1).call c1).call c2, hrun⟩

end CsappLab.Malloc
