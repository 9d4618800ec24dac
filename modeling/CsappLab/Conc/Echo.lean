import CsappLab.Conc.Pool

/-!
# What the select server writes back

`check_clients` reads a line into a copy of the client's `rio_t` and forgets the copy. Whatever the copy
still holds, the bytes behind the line in its last chunk, is lost. So a client gets everything back as
long as every line ends where a chunk ends, and two lines in one chunk are too many.
-/

namespace CsappLab.Echoservers
open Rio

/-- The next line of the stream, with room for `room` bytes, is a number of whole chunks. -/
def LineAligned (room : Nat) (fd : Fd) : Prop := ∃ n < fd.length + 1, rest (fd.take n) = nextLine room (rest fd)

instance (room : Nat) (fd : Fd) : Decidable (LineAligned room fd) :=
  inferInstanceAs (Decidable (∃ n < fd.length + 1, _))

/-! ### The unread bytes -/

variable {rp rp' : RioT} {fd fd' pre post : Fd} {k n : Nat} {c : UInt8} {rc : Int} {bytes : List UInt8}

/-- The unread bytes and then some whole chunks are the next line. -/
def Aligned (k : Nat) (rp : RioT) (fd : Fd) : Prop :=
  ∃ pre post, fd = pre ++ post ∧ unread rp ++ rest pre = nextLine k (left rp fd)

theorem lineAligned_iff (k : Nat) (rioBuf : List UInt8) (fd : Fd) :
    LineAligned k fd ↔ Aligned k (rioReadinitb rioBuf) fd := by
  have hun : unread (rioReadinitb rioBuf) = [] := rfl
  unfold Aligned
  rw [left_rioReadinitb, hun]
  constructor
  · rintro ⟨n, -, hn⟩
    exact ⟨fd.take n, fd.drop n, (List.take_append_drop n fd).symm, hn⟩
  · rintro ⟨pre, post, rfl, hpre⟩
    refine ⟨pre.length, ?_, by rw [List.take_left]; exact hpre⟩
    rw [List.length_append]
    omega

/-- The loop of `rio_read` takes a chunk only when the line has not ended before it. -/
theorem refill_aligned (h : rp.Ok) (hr : refill rp fd = (rp', fd', false)) (hne : nextLine k (left rp fd) ≠ [])
    (ha : Aligned k rp fd) : Aligned k rp' fd' := by
  induction fd generalizing rp with
  | nil =>
    unfold refill at hr
    split_ifs at hr
    · cases hr
      exact ha
    · cases hr
  | cons ev fd ih =>
    unfold refill at hr
    split_ifs at hr with hcnt
    · cases hr
      exact ha
    · obtain ⟨pre, post, hsplit, hpre⟩ := ha
      rw [unread_nil hcnt, List.nil_append] at hpre
      cases pre with
      | nil => exact absurd hpre.symm hne
      | cons ev' pre =>
        rw [List.cons_append, List.cons.injEq] at hsplit
        obtain ⟨rfl, rfl⟩ := hsplit
        have hleft : left rp (ev :: (pre ++ post)) = rest (ev :: (pre ++ post)) := by
          unfold left
          rw [unread_nil hcnt, List.nil_append]
        rw [hleft] at hne hpre
        cases ev with
        | eintr =>
          have hun : unread { rp with rioCnt := -1 } = [] := unread_nil (by simp)
          refine ih ?_ hr ?_ ⟨pre, post, rfl, ?_⟩
          · unfold RioT.Ok at h ⊢
            simp only
            omega
          · unfold left
            rw [hun]
            exact hne
          · unfold left
            rw [hun]
            exact hpre
        | chunk bytes pos le =>
          have hun : unread ⟨bytes.length, 0, bytes ++ rp.rioBuf.drop bytes.length⟩ = bytes := by simp [unread]
          refine ih ?_ hr ?_ ⟨pre, post, rfl, ?_⟩
          · simp [RioT.Ok]
          · unfold left
            rw [hun]
            exact hne
          · unfold left
            rw [hun]
            exact hpre

theorem rioRead_aligned (h : rp.Ok) (hr : rioRead rp fd 1 = (rc, [c], rp', fd'))
    (hne : nextLine k (left rp fd) ≠ []) (ha : Aligned k rp fd) :
    ∃ pre post, fd' = pre ++ post ∧ c :: (unread rp' ++ rest pre) = nextLine k (left rp fd) := by
  obtain ⟨rp₁, fd₁, eof, hf⟩ : ∃ rp₁ fd₁ eof, refill rp fd = (rp₁, fd₁, eof) := ⟨_, _, _, rfl⟩
  obtain ⟨hok, hl, he⟩ := refill_spec h hf
  unfold rioRead at hr
  rw [hf] at hr
  cases eof with
  | true => cases hr
  | false =>
    have hcnt : 0 < rp₁.rioCnt := he
    obtain ⟨pre, post, rfl, hpre⟩ := refill_aligned h hf hne ha
    have hone : (if rp₁.rioCnt < (1 : Nat) then rp₁.rioCnt else (1 : Nat)) = (1 : Nat) := if_neg (by omega)
    simp only [hone, Prod.mk.injEq, Int.toNat_natCast] at hr
    obtain ⟨-, hc, rfl, rfl⟩ := hr
    have hsplit : unread rp₁ = (rp₁.rioBuf.drop rp₁.rioBufptr).take 1 ++
        unread { rp₁ with rioBufptr := rp₁.rioBufptr + 1, rioCnt := rp₁.rioCnt - (1 : Nat) } :=
      unread_split (by omega)
    refine ⟨pre, post, rfl, ?_⟩
    rw [← hl, ← hpre, hsplit, hc]
    rfl

/-- **The loop of `rio_readlineb`** on an aligned line leaves nothing in the buffer. -/
theorem readlineLoop_aligned {usrbuf : List UInt8} (h : rp.Ok) (ha : Aligned k rp fd) :
    unread (readlineLoop rp fd usrbuf n k).rp = [] := by
  induction k generalizing rp fd usrbuf n with
  | zero =>
    obtain ⟨pre, post, -, hpre⟩ := ha
    exact (List.append_eq_nil_iff.1 hpre).1
  | succ k ih =>
    obtain ⟨r, hr⟩ : ∃ r, rioRead rp fd 1 = r := ⟨_, rfl⟩
    have hread := hr ▸ rioRead_byte h fd
    unfold readlineLoop
    rw [hr]
    cases hread with
    | @eof rp' fd' hok hl hl' =>
      have hun : unread rp' = [] := (List.append_eq_nil_iff.1 hl').1
      simp only
      split_ifs <;> exact hun
    | @byte c rp' fd' hok hl =>
      have hne : nextLine (k + 1) (left rp fd) ≠ [] := by
        rw [Ne, nextLine_eq_nil_iff k.succ_pos, hl]
        exact List.cons_ne_nil _ _
      obtain ⟨pre, post, rfl, hpre⟩ := rioRead_aligned h hr hne ha
      rw [hl] at hpre
      simp only
      split_ifs with hc
      · rw [hc, nextLine_newline, List.cons.injEq] at hpre
        exact (List.append_eq_nil_iff.1 hpre.2).1
      · rw [nextLine_cons hc, List.cons.injEq] at hpre
        exact ih hok ⟨pre, post, rfl, hpre.2⟩

/-! ### A client -/

/-- Every byte has been written back or is still to be read. -/
def Conn.Kept (c : Conn) : Prop := c.written ++ rest c.stream = c.sent

variable {listenfd : Int} {s s' t t' : Server} {l : Round} {i : Fin FD_SETSIZE} {is js : List (Fin FD_SETSIZE)}

theorem Conn.echoed_kept {c : Conn} (hc : c.Kept) (ha : LineAligned (MAXLINE - 1) c.stream) (rioBuf : List UInt8) :
    (c.echoed rioBuf).Kept := by
  obtain ⟨-, -, -, hleft⟩ := rioReadlineb_spec (rioReadinitb_ok rioBuf) c.stream MAXLINE
  have hun : unread (rioReadlineb (rioReadinitb rioBuf) c.stream MAXLINE).rp = [] :=
    readlineLoop_aligned (rioReadinitb_ok rioBuf) ((lineAligned_iff _ rioBuf _).1 ha)
  rw [left_rioReadinitb] at hleft
  unfold left at hleft
  rw [hun, List.nil_append] at hleft
  unfold Conn.Kept at hc ⊢
  rw [Conn.echoed_written, List.append_assoc]
  unfold Conn.echoed
  simp only
  rw [← hleft, hc]

theorem Conn.echoed_done {c : Conn} (hc : c.Kept) (hend : rest c.stream = []) (rioBuf : List UInt8) :
    (c.echoed rioBuf).written = (c.echoed rioBuf).sent := by
  unfold Conn.Kept at hc
  rw [hend, List.append_nil] at hc
  rw [Conn.echoed_written, hend, nextLine_nil, List.append_nil]
  exact hc

/-! ### Runs -/

/-- What the clients get: the open ones a prefix of what they send, and all of it when they are closed. -/
structure EchoOk (s : Server) : Prop where
  opened : ∀ i, 0 ≤ s.pool.clientfd i →
    (s.conns (s.pool.clientfd i)).written <+: (s.conns (s.pool.clientfd i)).sent
  closed : ∀ c ∈ s.closed, c.written = c.sent

structure Faithful (s : Server) : Prop where
  opened : ∀ i, 0 ≤ s.pool.clientfd i → (s.conns (s.pool.clientfd i)).Kept
  closed : ∀ c ∈ s.closed, c.written = c.sent

def RoundAligned (listenfd : Int) (s : Server) (l : Round) : Prop :=
  ∀ fd ∈ l.ready, fd ≠ listenfd → LineAligned (MAXLINE - 1) (s.conns fd).stream

instance (listenfd : Int) (s : Server) (l : Round) : Decidable (RoundAligned listenfd s l) :=
  inferInstanceAs (Decidable (∀ fd ∈ l.ready, _))

theorem Faithful.echoOk (hf : Faithful s) : EchoOk s := ⟨fun i hi => ⟨_, hf.opened i hi⟩, hf.closed⟩

theorem round_faithful (hi : Inv listenfd s.pool) (hl : s.Legal listenfd l) (ha : RoundAligned listenfd s l)
    (hf : Faithful s) (hround : s.round listenfd l = some s') : Inv listenfd s'.pool ∧ Faithful s' := by
  obtain ⟨s₁, hs₁, hi', hok⟩ := round_spec hi hl
  rw [hs₁] at hround
  cases hround
  have hold : ∀ fd ∈ s.pool.readSet, fd ≠ listenfd → (s.conns fd).Kept := by
    intro fd hfd hne
    rcases (hi.readSet fd).1 hfd with rfl | ⟨j, rfl, h0⟩
    · exact absurd rfl hne
    · exact hf.opened j h0
  have hready : ∀ fd ∈ s'.served, (s.conns fd).Kept ∧ LineAligned (MAXLINE - 1) (s.conns fd).stream := by
    intro fd hfd
    obtain ⟨hmem, hne⟩ := (hok.mem_served fd).1 hfd
    exact ⟨hold fd (hl.subset hmem) hne, ha fd hmem hne⟩
  refine ⟨hi', fun i h0 => ?_, fun c hc => ?_⟩
  · have hset : s'.pool.clientfd i ∈ s'.pool.readSet := (hi'.readSet _).2 (.inr ⟨i, rfl, h0⟩)
    have hne := (hi'.range i h0).2.2
    generalize s'.pool.clientfd i = fd at hset hne
    by_cases hfd : fd ∈ s'.served
    · obtain ⟨⟨rioBuf, hconn⟩, -, -⟩ := hok.once fd hfd
      obtain ⟨hkept, hal⟩ := hready fd hfd
      rw [hconn]
      exact Conn.echoed_kept hkept hal rioBuf
    · by_cases hnew : listenfd ∈ l.ready ∧ fd = l.connfd
      · rw [hnew.2, (hok.accepted hnew.1).2.2]
        exact List.nil_append _
      · obtain ⟨hconn, hmem⟩ := hok.other fd hfd fun hlisten he => hnew ⟨hlisten, he⟩
        rw [hconn]
        exact hold fd (hmem.1 hset) hne
  · rw [hok.closed, List.mem_append] at hc
    rcases hc with hc | hc
    · exact hf.closed c hc
    · obtain ⟨fd, hfd, rfl⟩ := List.mem_map.1 hc
      obtain ⟨hserved, hend⟩ := List.mem_filter.1 hfd
      obtain ⟨⟨rioBuf, hconn⟩, -, -⟩ := hok.once fd hserved
      rw [hconn]
      exact Conn.echoed_done (hready fd hserved).1 (of_decide_eq_true hend) rioBuf

/-- **The echo**: in every run in which no chunk reaches beyond the line that is read, every client gets
back what it sends, in order, and all of it before it is closed. -/
theorem echoes_aligned (hr : (server listenfd).Reach (RoundAligned listenfd) s) : EchoOk s := by
  refine Faithful.echoOk (hr.invariant (I := fun s => Inv listenfd s.pool ∧ Faithful s) ?_ ?_).2
  · rintro s ⟨⟨p, hp⟩, hclosed⟩
    have hi : Inv listenfd s.pool := hp ▸ initPool_inv listenfd p
    refine ⟨hi, fun i h0 => ?_, by simp [hclosed]⟩
    rw [hp] at h0
    exact absurd h0 (by simp [initPool])
  · rintro s l s' ⟨hi, hf⟩ ha ⟨hl, hround⟩
    exact round_faithful hi hl ha hf hround

/-! ### Two runs -/

instance : Decidable (s.Legal listenfd l) :=
  decidable_of_iff (l.ready.Nonempty ∧ l.ready ⊆ s.pool.readSet ∧
      (listenfd ∈ l.ready → l.connfd ∉ s.pool.readSet ∧ 0 < l.connfd ∧ l.connfd < FD_SETSIZE))
    ⟨fun ⟨h1, h2, h3⟩ => ⟨h1, h2, h3⟩, fun ⟨h1, h2, h3⟩ => ⟨h1, h2, h3⟩⟩

/-- The given rounds, as long as they are legal and satisfy the condition. -/
def Server.run (s : Server) (ok : Server → Round → Bool) : List Round → Option Server
  | [] => some s
  | l :: ls => if s.Legal 3 l ∧ ok s l then (s.round 3 l).bind fun s => s.run ok ls else none

theorem run_reach {ok : Server → Round → Bool} {ls : List Round} (hr : (server 3).Reach (fun s l => ok s l) s)
    (hrun : s.run ok ls = some s') : (server 3).Reach (fun s l => ok s l) s' := by
  induction ls generalizing s with
  | nil =>
    cases hrun
    exact hr
  | cons l ls ih =>
    unfold Server.run at hrun
    split_ifs at hrun with hl
    obtain ⟨s₁, hround, hrun⟩ := Option.bind_eq_some_iff.1 hrun
    exact ih (.step hr hl.2 ⟨hl.1, hround⟩) hrun

/-- A client connects, sends a stream, and is ready twice. -/
def oneClient (stream : Fd) : List Round := [⟨{3}, 4, stream⟩, ⟨{4}, 0, []⟩, ⟨{4}, 0, []⟩]

/-- A line in two chunks comes back. -/
theorem echoes_aligned_line : ∃ s, (s.closed.map Conn.sent = [[97, 98, 10]]) ∧ EchoOk s := by
  obtain ⟨s, hrun, hsent⟩ : ∃ s, start.run (fun s l => RoundAligned 3 s l) (oneClient
      [.chunk [97] (by decide) (by decide), .chunk [98, 10] (by decide) (by decide)]) = some s ∧
        s.closed.map Conn.sent = [[97, 98, 10]] := by
    rw [← Option.map_eq_some_iff]
    decide +kernel
  have hr : (server 3).Reach (RoundAligned 3) s :=
    (run_reach start_reach hrun).mono fun s l h => of_decide_eq_true h
  exact ⟨s, hsent, echoes_aligned hr⟩

/-- Of two lines in one chunk the client gets back the first only. -/
theorem second_line_lost : ¬ ∀ s, (server 3).Reachable s → EchoOk s := by
  intro hall
  obtain ⟨s, hrun, hclosed⟩ : ∃ s, start.run (fun _ _ => true) (oneClient
      [.chunk [97, 10, 98, 10] (by decide) (by decide)]) = some s ∧
        s.closed.map (fun c => (c.sent, c.written)) = [([97, 10, 98, 10], [97, 10])] := by
    rw [← Option.map_eq_some_iff]
    decide +kernel
  obtain ⟨c, hc, heq⟩ := List.mem_map.1 (hclosed ▸ List.mem_singleton_self _ :
    ([97, 10, 98, 10], [97, 10]) ∈ s.closed.map fun c => (c.sent, c.written))
  have hw := (hall s (run_reach start_reach hrun).reachable).closed c hc
  rw [Prod.mk.injEq] at heq
  rw [heq.1, heq.2] at hw
  exact absurd hw (by decide)

end CsappLab.Echoservers
