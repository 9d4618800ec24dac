import CsappLab.Lib.Machine
import CsappLab.Rio.Buffered

/-!
# The descriptor pool of the select server

`echoservers.c`: one server process, a pool of connected clients, and one round for each return of
`select`. Three views of the clients have to agree: the bit set `read_set`, the array `clientfd`, and the
marks `maxfd` and `maxi`; and the countdown `nready` must not end the scan of `check_clients` too early.

A connection has the results that `read` will give on its descriptor. `accept` returns a descriptor that
is not open, positive and below `FD_SETSIZE`; `select` may report any of the descriptors it watches.
-/

namespace CsappLab.Echoservers
open Rio

def FD_SETSIZE : Nat := 1024

def MAXLINE : Nat := 8192

theorem maxline_le : MAXLINE ≤ 2 ^ 31 := by decide

/-- An element of `clientrio`. -/
structure ClientRio where
  rioFd : Int
  rio : RioT

structure Pool where
  maxfd : Int
  readSet : Finset Int
  readySet : Finset Int
  nready : Int
  maxi : Int
  clientfd : Fin FD_SETSIZE → Int
  clientrio : Fin FD_SETSIZE → ClientRio

def initPool (listenfd : Int) (p : Pool) : Pool :=
  { p with maxi := -1, clientfd := fun _ => -1, maxfd := listenfd, readSet := {listenfd} }

/-- The body of `add_client` for the slot that it has found. -/
def Pool.add (p : Pool) (i : Fin FD_SETSIZE) (connfd : Int) : Pool :=
  { p with
    clientfd := Function.update p.clientfd i connfd
    clientrio := Function.update p.clientrio i ⟨connfd, rioReadinitb (p.clientrio i).rio.rioBuf⟩
    readSet := insert connfd p.readSet
    maxfd := if connfd > p.maxfd then connfd else p.maxfd
    maxi := if (i : Int) > p.maxi then i else p.maxi }

/-- `add_client`; `none` is the `app_error`. -/
def addClient (connfd : Int) (p : Pool) : Option Pool :=
  let p := { p with nready := p.nready - 1 }
  match Fin.find? fun i => p.clientfd i < 0 with
  | some i => some (p.add i connfd)
  | none => none

/-- `FD_CLR`, and the slot is free again. -/
def Pool.remove (p : Pool) (i : Fin FD_SETSIZE) : Pool :=
  { p with
    readSet := p.readSet.erase (p.clientfd i)
    clientfd := Function.update p.clientfd i (-1) }

/-- A connection: all the bytes its client sends, what is still to be read, and what was written back. -/
structure Conn where
  sent : List UInt8
  stream : Fd
  written : List UInt8

/-- The pool, the open connections by descriptor, those closed so far, and the descriptors served in this round. -/
structure Server where
  pool : Pool
  conns : Int → Conn
  closed : List Conn
  served : List Int

namespace Server

/-- `nready--`, and `Rio_readlineb` has read from the descriptor of the `rio_t`. -/
def receive (s : Server) (i : Fin FD_SETSIZE) (stream : Fd) : Server :=
  let rioFd := (s.pool.clientrio i).rioFd
  { s with
    pool := { s.pool with nready := s.pool.nready - 1 }
    conns := Function.update s.conns rioFd { s.conns rioFd with stream := stream }
    served := s.served ++ [s.pool.clientfd i] }

/-- `Rio_writen(connfd, buf, n)`. -/
def writen (s : Server) (connfd : Int) (buf : List UInt8) : Server :=
  let c := s.conns connfd
  { s with conns := Function.update s.conns connfd { c with written := c.written ++ buf } }

/-- `Close(connfd)`, and the client leaves the pool. -/
def close (s : Server) (i : Fin FD_SETSIZE) : Server :=
  { s with pool := s.pool.remove i, closed := s.closed ++ [s.conns (s.pool.clientfd i)] }

/-- The body of `check_clients` for a ready client. It reads into a copy of the `rio_t`, which is not stored
back; `none` is the `unix_error` of `Rio_readlineb`. -/
def serve (s : Server) (i : Fin FD_SETSIZE) : Option Server :=
  let connfd := s.pool.clientfd i
  let rio := s.pool.clientrio i
  let r := rioReadlineb rio.rio (s.conns rio.rioFd).stream MAXLINE
  let s := s.receive i r.fd
  if r.ret < 0 then none
  else if r.ret ≠ 0 then some (s.writen connfd r.delivered)
  else some (s.close i)

def Ready (s : Server) (i : Fin FD_SETSIZE) : Prop := 0 < s.pool.clientfd i ∧ s.pool.clientfd i ∈ s.pool.readySet

instance (s : Server) (i : Fin FD_SETSIZE) : Decidable (s.Ready i) := inferInstanceAs (Decidable (_ ∧ _))

/-- The loop of `check_clients` over the slots `is`. -/
def checkLoop (s : Server) : List (Fin FD_SETSIZE) → Option Server
  | [] => some s
  | i :: is =>
    if (i : Int) ≤ s.pool.maxi ∧ 0 < s.pool.nready then
      if s.Ready i then (s.serve i).bind fun s => s.checkLoop is else s.checkLoop is
    else some s

def checkClients (s : Server) : Option Server := s.checkLoop (List.finRange FD_SETSIZE)

end Server

/-- What `select` and `accept` return in a round. -/
structure Round where
  ready : Finset Int
  connfd : Int
  stream : Fd

namespace Server

def select (s : Server) (l : Round) : Server :=
  { s with pool := { s.pool with readySet := l.ready, nready := l.ready.card }, served := [] }

def accept (s : Server) (l : Round) : Option Server :=
  (addClient l.connfd s.pool).map fun pool =>
    { s with pool := pool, conns := Function.update s.conns l.connfd ⟨rest l.stream, l.stream, []⟩ }

/-- A round of the loop in `main` up to `check_clients`. -/
def begin (s : Server) (listenfd : Int) (l : Round) : Option Server :=
  if listenfd ∈ l.ready then (s.select l).accept l else some (s.select l)

def round (s : Server) (listenfd : Int) (l : Round) : Option Server := (s.begin listenfd l).bind checkClients

/-- What the kernel may return. -/
structure Legal (s : Server) (listenfd : Int) (l : Round) : Prop where
  nonempty : l.ready.Nonempty
  subset : l.ready ⊆ s.pool.readSet
  fresh : listenfd ∈ l.ready → l.connfd ∉ s.pool.readSet ∧ 0 < l.connfd ∧ l.connfd < FD_SETSIZE

end Server

/-- The server, one step for each round. -/
def server (listenfd : Int) : Machine Server Round where
  init s := (∃ p, s.pool = initPool listenfd p) ∧ s.closed = []
  step s l s' := s.Legal listenfd l ∧ s.round listenfd l = some s'

/-! ### The pool -/

/-- The views of the clients agree. -/
structure PoolOk (listenfd : Int) (p : Pool) : Prop where
  readSet : ∀ fd, fd ∈ p.readSet ↔ fd = listenfd ∨ ∃ i, p.clientfd i = fd ∧ 0 ≤ fd
  distinct : ∀ i j, 0 ≤ p.clientfd i → p.clientfd i = p.clientfd j → i = j
  maxfd : ∀ fd ∈ p.readSet, fd ≤ p.maxfd
  maxi : ∀ i, 0 ≤ p.clientfd i → (i : Int) ≤ p.maxi

/-- The invariant of the pool. No bytes are ever left in an element of `clientrio`. -/
structure Inv (listenfd : Int) (p : Pool) : Prop extends PoolOk listenfd p where
  range : ∀ i, 0 ≤ p.clientfd i → 0 < p.clientfd i ∧ p.clientfd i < FD_SETSIZE ∧ p.clientfd i ≠ listenfd
  fresh : ∀ i, 0 ≤ p.clientfd i → p.clientrio i = ⟨p.clientfd i, rioReadinitb (p.clientrio i).rio.rioBuf⟩

variable {listenfd connfd : Int} {p : Pool} {s s' t t' : Server} {l : Round} {i j : Fin FD_SETSIZE}
  {is js : List (Fin FD_SETSIZE)}

/-! ### Adding and removing a client -/

theorem Pool.add_slot (hj : 0 ≤ (p.add i connfd).clientfd j) :
    (j = i ∧ (p.add i connfd).clientfd j = connfd ∧
      (p.add i connfd).clientrio j = ⟨connfd, rioReadinitb (p.clientrio i).rio.rioBuf⟩) ∨
    (j ≠ i ∧ 0 ≤ p.clientfd j ∧ (p.add i connfd).clientfd j = p.clientfd j ∧
      (p.add i connfd).clientrio j = p.clientrio j) := by
  rcases eq_or_ne j i with rfl | hne
  · exact .inl ⟨rfl, Function.update_self .., Function.update_self ..⟩
  · have hfd : (p.add i connfd).clientfd j = p.clientfd j := Function.update_of_ne hne ..
    exact .inr ⟨hne, hfd ▸ hj, hfd, Function.update_of_ne hne ..⟩

theorem Pool.remove_slot (hj : 0 ≤ (p.remove i).clientfd j) :
    j ≠ i ∧ 0 ≤ p.clientfd j ∧ (p.remove i).clientfd j = p.clientfd j := by
  rcases eq_or_ne j i with rfl | hne
  · have hfd : (p.remove j).clientfd j = -1 := Function.update_self ..
    omega
  · have hfd : (p.remove i).clientfd j = p.clientfd j := Function.update_of_ne hne ..
    exact ⟨hne, hfd ▸ hj, hfd⟩

theorem initPool_inv (listenfd : Int) (p : Pool) : Inv listenfd (initPool listenfd p) where
  readSet fd := by simp [initPool]; omega
  distinct i j hi := absurd hi (by simp [initPool])
  maxfd fd hfd := (Finset.mem_singleton.1 hfd).le
  maxi i hi := absurd hi (by simp [initPool])
  range i hi := absurd hi (by simp [initPool])
  fresh i hi := absurd hi (by simp [initPool])

namespace Inv

/-- There are more slots than descriptors. -/
theorem exists_free (hi : Inv listenfd p) : ∃ i, p.clientfd i < 0 := by
  by_contra hall
  simp only [not_exists, not_lt] at hall
  have hcard : (Finset.Ioo (0 : Int) FD_SETSIZE).card < (Finset.univ : Finset (Fin FD_SETSIZE)).card := by
    rw [Finset.card_univ, Fintype.card_fin, Int.card_Ioo]
    decide
  obtain ⟨i, -, j, -, hne, heq⟩ := Finset.exists_ne_map_eq_of_card_lt_of_maps_to hcard (f := p.clientfd)
    fun i _ => Finset.mem_coe.2 (Finset.mem_Ioo.2 ⟨(hi.range i (hall i)).1, (hi.range i (hall i)).2.1⟩)
  exact hne (hi.distinct i j (hall i) heq)

theorem congr (hi : Inv listenfd p) (readySet : Finset Int) (nready : Int) :
    Inv listenfd { p with readySet := readySet, nready := nready } :=
  ⟨⟨hi.readSet, hi.distinct, hi.maxfd, hi.maxi⟩, hi.range, hi.fresh⟩

theorem slot_ne (hi : Inv listenfd p) (hnew : connfd ∉ p.readSet) (hj : 0 ≤ p.clientfd j) : p.clientfd j ≠ connfd :=
  fun h => hnew ((hi.readSet connfd).2 (.inr ⟨j, h, h ▸ hj⟩))

theorem add (hi : Inv listenfd p) (hfree : p.clientfd i < 0) (hnew : connfd ∉ p.readSet) (h0 : 0 < connfd)
    (h1 : connfd < FD_SETSIZE) : Inv listenfd (p.add i connfd) where
  readSet fd := by
    show fd ∈ insert connfd p.readSet ↔ _
    rw [Finset.mem_insert, hi.readSet]
    constructor
    · rintro (rfl | rfl | ⟨j, rfl, hfd⟩)
      · exact .inr ⟨i, Function.update_self .., h0.le⟩
      · exact .inl rfl
      · have hne : j ≠ i := fun h => by rw [h] at hfd; omega
        exact .inr ⟨j, Function.update_of_ne hne .., hfd⟩
    · rintro (rfl | ⟨j, rfl, hfd⟩)
      · exact .inr (.inl rfl)
      · rcases Pool.add_slot hfd with ⟨-, hj, -⟩ | ⟨-, h, hj, -⟩
        · exact .inl hj
        · exact .inr (.inr ⟨j, hj.symm, hfd⟩)
  distinct j k hj hjk := by
    rcases Pool.add_slot hj with ⟨rfl, hfd, -⟩ | ⟨-, h, hfd, -⟩ <;>
      rcases Pool.add_slot (hjk ▸ hj) with ⟨rfl, hfd', -⟩ | ⟨-, h', hfd', -⟩
    · rfl
    · exact absurd (hfd'.symm.trans (hjk.symm.trans hfd)) (hi.slot_ne hnew h')
    · exact absurd (hfd.symm.trans (hjk.trans hfd')) (hi.slot_ne hnew h)
    · exact hi.distinct j k h (hfd.symm.trans (hjk.trans hfd'))
  maxfd fd hfd := by
    show fd ≤ if connfd > p.maxfd then connfd else p.maxfd
    rcases Finset.mem_insert.1 hfd with rfl | hfd
    · split_ifs <;> omega
    · have := hi.maxfd fd hfd
      split_ifs <;> omega
  maxi j hj := by
    show (j : Int) ≤ if (i : Int) > p.maxi then (i : Int) else p.maxi
    rcases Pool.add_slot hj with ⟨rfl, -⟩ | ⟨-, h, -⟩
    · split_ifs <;> omega
    · have := hi.maxi j h
      split_ifs <;> omega
  range j hj := by
    rcases Pool.add_slot hj with ⟨-, hfd, -⟩ | ⟨-, h, hfd, -⟩
    · rw [hfd]
      exact ⟨h0, h1, fun h => hnew ((hi.readSet connfd).2 (.inl h))⟩
    · rw [hfd]
      exact hi.range j h
  fresh j hj := by
    rcases Pool.add_slot hj with ⟨-, hfd, hrio⟩ | ⟨-, h, hfd, hrio⟩
    · rw [hfd, hrio]
      rfl
    · rw [hfd, hrio]
      exact hi.fresh j h

theorem remove (hi : Inv listenfd p) (h0 : 0 ≤ p.clientfd i) : Inv listenfd (p.remove i) where
  readSet fd := by
    show fd ∈ p.readSet.erase (p.clientfd i) ↔ _
    rw [Finset.mem_erase, hi.readSet]
    constructor
    · rintro ⟨hne, rfl | ⟨j, rfl, hfd⟩⟩
      · exact .inl rfl
      · have hji : j ≠ i := fun h => hne (by rw [h])
        exact .inr ⟨j, Function.update_of_ne hji .., hfd⟩
    · rintro (rfl | ⟨j, rfl, hfd⟩)
      · exact ⟨(hi.range i h0).2.2.symm, .inl rfl⟩
      · obtain ⟨hne, h, hj⟩ := Pool.remove_slot hfd
        rw [hj]
        exact ⟨fun heq => hne (hi.distinct j i h heq), .inr ⟨j, rfl, h⟩⟩
  distinct j k hj hjk := by
    obtain ⟨-, h, hfd⟩ := Pool.remove_slot hj
    obtain ⟨-, -, hfd'⟩ := Pool.remove_slot (hjk ▸ hj)
    exact hi.distinct j k h (hfd.symm.trans (hjk.trans hfd'))
  maxfd fd hfd := hi.maxfd fd (Finset.mem_of_mem_erase hfd)
  maxi j hj := hi.maxi j (Pool.remove_slot hj).2.1
  range j hj := by
    obtain ⟨-, h, hfd⟩ := Pool.remove_slot hj
    rw [hfd]
    exact hi.range j h
  fresh j hj := by
    obtain ⟨-, h, hfd⟩ := Pool.remove_slot hj
    rw [hfd]
    exact hi.fresh j h

end Inv

theorem addClient_spec (hi : Inv listenfd p) (hnew : connfd ∉ p.readSet) (h0 : 0 < connfd)
    (h1 : connfd < FD_SETSIZE) : ∃ i, p.clientfd i < 0 ∧
      addClient connfd p = some (Pool.add { p with nready := p.nready - 1 } i connfd) ∧
      Inv listenfd (Pool.add { p with nready := p.nready - 1 } i connfd) := by
  obtain ⟨k, hk⟩ := hi.exists_free
  rcases hfind : (Fin.find? fun i => p.clientfd i < 0) with _ | i
  · have := Fin.find?_eq_none_iff.1 hfind k
    simp at this
    omega
  · have hfree : p.clientfd i < 0 := by simpa using (Fin.find?_eq_some_iff.1 hfind).1
    refine ⟨i, hfree, ?_, (hi.congr p.readySet (p.nready - 1)).add hfree hnew h0 h1⟩
    unfold addClient
    simp only [hfind]

/-! ### Serving a client -/

/-- The connection after a line has been read with a new `rio_t` and written back. -/
def Conn.echoed (c : Conn) (rioBuf : List UInt8) : Conn :=
  let r := rioReadlineb (rioReadinitb rioBuf) c.stream MAXLINE
  { c with stream := r.fd, written := c.written ++ r.delivered }

/-- What one service of the client in slot `i` does. -/
structure Serves (listenfd : Int) (s : Server) (i : Fin FD_SETSIZE) (s' : Server) : Prop where
  inv : Inv listenfd s'.pool
  others : ∀ j ≠ i, s'.pool.clientfd j = s.pool.clientfd j
  readySet : s'.pool.readySet = s.pool.readySet
  nready : s'.pool.nready = s.pool.nready - 1
  served : s'.served = s.served ++ [s.pool.clientfd i]
  conn : ∃ rioBuf, s'.conns = Function.update s.conns (s.pool.clientfd i)
      ((s.conns (s.pool.clientfd i)).echoed rioBuf) ∧
    ((rest (s.conns (s.pool.clientfd i)).stream ≠ [] ∧ s'.pool.clientfd i = s.pool.clientfd i ∧
        s'.pool.readSet = s.pool.readSet ∧ s'.closed = s.closed) ∨
      (rest (s.conns (s.pool.clientfd i)).stream = [] ∧ s'.pool.clientfd i < 0 ∧
        s'.pool.readSet = s.pool.readSet.erase (s.pool.clientfd i) ∧
        s'.closed = s.closed ++ [(s.conns (s.pool.clientfd i)).echoed rioBuf]))

theorem Conn.echoed_written (c : Conn) (rioBuf : List UInt8) :
    (c.echoed rioBuf).written = c.written ++ nextLine (MAXLINE - 1) (rest c.stream) := by
  have hdel := (rioReadlineb_small (rioReadinitb_ok rioBuf) c.stream maxline_le).2
  rw [left_rioReadinitb] at hdel
  simp only [Conn.echoed, hdel]

/-- **One client**: a line comes back, or the client is closed at the end of its stream. -/
theorem serve_spec (hi : Inv listenfd s.pool) (h0 : 0 ≤ s.pool.clientfd i) :
    ∃ s', s.serve i = some s' ∧ Serves listenfd s i s' := by
  have hpool := hi.congr s.pool.readySet (s.pool.nready - 1)
  have hrio := hi.fresh i h0
  generalize (s.pool.clientrio i).rio.rioBuf = rioBuf at hrio
  obtain ⟨hret, hdel⟩ :=
    rioReadlineb_small (rioReadinitb_ok rioBuf) (s.conns (s.pool.clientfd i)).stream maxline_le
  rw [left_rioReadinitb] at hret hdel
  have hzero : (rioReadlineb (rioReadinitb rioBuf) (s.conns (s.pool.clientfd i)).stream MAXLINE).ret = 0 ↔
      rest (s.conns (s.pool.clientfd i)).stream = [] := by
    rw [hret, Int.natCast_eq_zero, List.length_eq_zero_iff, nextLine_eq_nil_iff (by decide)]
  unfold Server.serve Server.receive
  simp only [hrio]
  rw [if_neg (by omega)]
  split_ifs with h1
  · refine ⟨_, rfl, hpool, fun _ _ => rfl, rfl, rfl, rfl, rioBuf, ?_, .inl ⟨mt hzero.2 h1, rfl, rfl, rfl⟩⟩
    simp only [Server.writen, Function.update_self, Function.update_idem, Conn.echoed]
  · have hend := hzero.1 (not_not.1 h1)
    have hecho : (s.conns (s.pool.clientfd i)).echoed rioBuf =
        { s.conns (s.pool.clientfd i) with
          stream := (rioReadlineb (rioReadinitb rioBuf) (s.conns (s.pool.clientfd i)).stream MAXLINE).fd } := by
      simp only [Conn.echoed, hdel, hend, nextLine_nil, List.append_nil]
    refine ⟨_, rfl, hpool.remove h0, fun j hj => Function.update_of_ne hj .., rfl, rfl, rfl, rioBuf, ?_,
      .inr ⟨hend, ?_, rfl, ?_⟩⟩
    · rw [hecho]
      rfl
    · show Function.update s.pool.clientfd i (-1) i < 0
      rw [Function.update_self]
      decide
    · rw [hecho]
      simp only [Server.close, Function.update_self]

/-- One service of the client `fd` between the states `s` and `t`: a line is read and written back, and the client
stays in the pool exactly if there was something to read. -/
structure Served (s t : Server) (fd : Int) : Prop where
  conn : ∃ rioBuf, t.conns fd = (s.conns fd).echoed rioBuf
  written : (t.conns fd).written = (s.conns fd).written ++ nextLine (MAXLINE - 1) (rest (s.conns fd).stream)
  readSet : fd ∈ t.pool.readSet ↔ rest (s.conns fd).stream ≠ []

/-- The clients among `fds` whose streams have ended. -/
def Server.ended (s : Server) (fds : List Int) : List Int := fds.filter fun fd => rest (s.conns fd).stream = []

/-! ### The loop of `check_clients` -/

namespace Server

def pending (s : Server) : List (Fin FD_SETSIZE) := (List.finRange FD_SETSIZE).filter fun i => s.Ready i

/-- The clients in the given slots are served, whatever `nready` and `maxi` are. -/
def serveAll (s : Server) : List (Fin FD_SETSIZE) → Option Server
  | [] => some s
  | i :: is => (s.serve i).bind fun s => s.serveAll is

end Server

theorem Serves.ready (hs : Serves listenfd s i s') (hj : j ≠ i) : s'.Ready j ↔ s.Ready j := by
  unfold Server.Ready
  rw [hs.others j hj, hs.readySet]

theorem Serves.other (hs : Serves listenfd s i s') {fd : Int} (hne : fd ≠ s.pool.clientfd i) :
    s'.conns fd = s.conns fd ∧ (fd ∈ s'.pool.readSet ↔ fd ∈ s.pool.readSet) := by
  obtain ⟨rioBuf, hconns, hend⟩ := hs.conn
  refine ⟨by rw [hconns, Function.update_of_ne hne], ?_⟩
  rcases hend with ⟨-, -, hset, -⟩ | ⟨-, -, hset, -⟩
  · rw [hset]
  · rw [hset, Finset.mem_erase, and_iff_right hne]

theorem Serves.served_once (hi : Inv listenfd s.pool) (h0 : 0 ≤ s.pool.clientfd i) (hs : Serves listenfd s i s') :
    Served s s' (s.pool.clientfd i) := by
  obtain ⟨rioBuf, hconns, hend⟩ := hs.conn
  have hconn : s'.conns (s.pool.clientfd i) = (s.conns (s.pool.clientfd i)).echoed rioBuf := by
    rw [hconns, Function.update_self]
  refine ⟨⟨rioBuf, hconn⟩, by rw [hconn, Conn.echoed_written], ?_⟩
  rcases hend with ⟨hne, -, hset, -⟩ | ⟨heof, -, hset, -⟩
  · rw [hset]
    exact iff_of_true ((hi.readSet _).2 (.inr ⟨i, rfl, h0⟩)) hne
  · rw [hset]
    exact iff_of_false (Finset.notMem_erase _ _) (not_not.2 heof)

/-- **The scan** serves all ready clients: neither `maxi` nor `nready` ends it early. -/
theorem checkLoop_eq (hi : Inv listenfd s.pool) (hs : is.Pairwise (· < ·))
    (hn : s.pool.nready = (is.filter fun i => s.Ready i).length) :
    s.checkLoop is = s.serveAll (is.filter fun i => s.Ready i) := by
  induction is generalizing s with
  | nil => rfl
  | cons i is ih =>
    obtain ⟨hlt, hs⟩ := List.pairwise_cons.1 hs
    unfold Server.checkLoop
    split_ifs with hgo hr
    · rw [List.filter_cons_of_pos (by simpa using hr)] at hn ⊢
      obtain ⟨s', hserve, hs'⟩ := serve_spec hi hr.1.le
      have hfilter : is.filter (fun j => s.Ready j) = is.filter fun j => s'.Ready j :=
        List.filter_congr fun j hj => by simp only [hs'.ready (hlt j hj).ne']
      unfold Server.serveAll
      rw [hserve, Option.bind_some, Option.bind_some, hfilter]
      refine ih hs'.inv hs ?_
      rw [hs'.nready, hn, List.length_cons, hfilter]
      omega
    · rw [List.filter_cons_of_neg (by simpa using hr)] at hn ⊢
      exact ih hi hs hn
    · have hnil : (i :: is).filter (fun j => s.Ready j) = [] := by
        by_contra hne
        have hpos := List.length_pos_of_ne_nil hne
        obtain ⟨j, hj⟩ := List.exists_mem_of_ne_nil _ hne
        obtain ⟨hj, hr⟩ := List.mem_filter.1 hj
        have hmaxi := hi.maxi j (of_decide_eq_true hr).1.le
        have hle : i ≤ j := by
          rcases List.mem_cons.1 hj with rfl | hj
          · exact le_refl j
          · exact (hlt j hj).le
        have := Fin.le_def.1 hle
        omega
      rw [hnil]
      rfl

theorem pending_nonneg (s : Server) : ∀ i ∈ s.pending, 0 ≤ s.pool.clientfd i := fun _ hi =>
  (of_decide_eq_true (List.mem_filter.1 hi).2 : s.Ready _).1.le

theorem pending_nodup (s : Server) : s.pending.Nodup := (List.nodup_finRange _).filter _

/-- The clients in the slots `is` are served from the state `s` on; those in `js` are left. -/
structure Progress (s : Server) (is js : List (Fin FD_SETSIZE)) (t : Server) : Prop where
  nodup : ((is ++ js).map s.pool.clientfd).Nodup
  same : ∀ i ∈ js, 0 ≤ s.pool.clientfd i ∧ t.pool.clientfd i = s.pool.clientfd i
  served : t.served = s.served ++ is.map s.pool.clientfd
  nready : t.pool.nready = s.pool.nready - is.length
  once : ∀ fd ∈ is.map s.pool.clientfd, Served s t fd
  other : ∀ fd ∉ is.map s.pool.clientfd, t.conns fd = s.conns fd ∧ (fd ∈ t.pool.readSet ↔ fd ∈ s.pool.readSet)
  closed : t.closed = s.closed ++ (s.ended (is.map s.pool.clientfd)).map t.conns

theorem Progress.start (h0 : ∀ i ∈ js, 0 ≤ s.pool.clientfd i) (hnd : (js.map s.pool.clientfd).Nodup) :
    Progress s [] js s :=
  ⟨hnd, fun i hi => ⟨h0 i hi, rfl⟩, by simp, by simp, fun _ h => absurd h List.not_mem_nil, fun _ _ => ⟨rfl, Iff.rfl⟩,
    by simp [Server.ended]⟩

theorem Progress.step (hi : Inv listenfd t.pool) (hp : Progress s is (i :: js) t) (ht : Serves listenfd t i t') :
    Progress s (is ++ [i]) js t' := by
  obtain ⟨hi0, hfd⟩ := hp.same i (List.mem_cons_self ..)
  have hnd := hp.nodup
  rw [List.map_append, List.map_cons, List.nodup_append] at hnd
  obtain ⟨-, hnd', hdisj⟩ := hnd
  have hdone : s.pool.clientfd i ∉ is.map s.pool.clientfd := fun h => hdisj _ h _ (List.mem_cons_self ..) rfl
  have hmem (fd : Int) : fd ∈ (is ++ [i]).map s.pool.clientfd ↔ fd ∈ is.map s.pool.clientfd ∨ fd = s.pool.clientfd i := by
    rw [List.map_append, List.mem_append, List.map_singleton, List.mem_singleton]
  have hother (fd : Int) (hne : fd ≠ s.pool.clientfd i) :=
    @Serves.other listenfd t t' i ht fd (hfd ▸ hne)
  obtain ⟨hconn, hset⟩ := hp.other _ hdone
  constructor
  · rw [List.append_assoc]
    exact hp.nodup
  · intro j hj
    obtain ⟨hj0, hsame⟩ := hp.same j (List.mem_cons_of_mem i hj)
    have hji : j ≠ i := fun h => (List.nodup_cons.1 hnd').1 (h ▸ List.mem_map_of_mem hj)
    exact ⟨hj0, (ht.others j hji).trans hsame⟩
  · rw [ht.served, hp.served, hfd, List.map_append, List.append_assoc, List.map_singleton]
  · rw [ht.nready, hp.nready, List.length_append, List.length_singleton]
    omega
  · intro fd h
    rcases (hmem fd).1 h with h | rfl
    · have hne : fd ≠ s.pool.clientfd i := fun he => hdone (he ▸ h)
      obtain ⟨⟨rioBuf, hc⟩, hw, hr⟩ := hp.once fd h
      obtain ⟨hc', hr'⟩ := hother fd hne
      exact ⟨⟨rioBuf, hc'.trans hc⟩, by rw [hc', hw], hr'.trans hr⟩
    · obtain ⟨hc, hw, hr⟩ := ht.served_once hi (hfd ▸ hi0)
      rw [hfd, hconn] at hc hw hr
      exact ⟨hc, hw, hr⟩
  · intro fd h
    rw [hmem, not_or] at h
    obtain ⟨hc', hr'⟩ := hother fd h.2
    obtain ⟨hc, hr⟩ := hp.other fd h.1
    exact ⟨hc'.trans hc, hr'.trans hr⟩
  · have hkeep : (s.ended (is.map s.pool.clientfd)).map t'.conns = (s.ended (is.map s.pool.clientfd)).map t.conns := by
      refine List.map_congr_left fun fd h => (hother fd ?_).1
      exact fun he => hdone (he ▸ (List.mem_filter.1 h).1)
    have hsplit : s.ended ((is ++ [i]).map s.pool.clientfd) =
        s.ended (is.map s.pool.clientfd) ++ s.ended [s.pool.clientfd i] := by
      simp only [Server.ended, List.map_append, List.filter_append, List.map_singleton]
    obtain ⟨rioBuf, hconns, hend⟩ := ht.conn
    rw [hfd, hconn] at hconns hend
    rw [hsplit, List.map_append, hkeep, ← List.append_assoc, ← hp.closed]
    rcases hend with ⟨hne, -, -, hcl⟩ | ⟨heof, -, -, hcl⟩
    · rw [hcl, Server.ended, List.filter_cons_of_neg (by simpa using hne), List.filter_nil, List.map_nil,
        List.append_nil]
    · rw [hcl, Server.ended, List.filter_cons_of_pos (by simpa using heof), List.filter_nil, List.map_singleton, hconns,
        Function.update_self]

theorem Progress.serveAll (hi : Inv listenfd t.pool) (hp : Progress s is js t) :
    ∃ s', t.serveAll js = some s' ∧ Inv listenfd s'.pool ∧ Progress s (is ++ js) [] s' := by
  induction js generalizing is t with
  | nil => exact ⟨t, rfl, hi, by rwa [List.append_nil]⟩
  | cons i js ih =>
    obtain ⟨h0, hfd⟩ := hp.same i (List.mem_cons_self ..)
    obtain ⟨t', hserve, ht⟩ := serve_spec hi (hfd ▸ h0)
    obtain ⟨s', hall, hi', hp'⟩ := ih ht.inv (hp.step hi ht)
    refine ⟨s', ?_, hi', by rwa [List.append_cons]⟩
    unfold Server.serveAll
    rw [hserve, Option.bind_some, hall]

/-! ### A round -/

/-- The state after `select`, `accept` and `add_client`. -/
structure Begun (listenfd : Int) (l : Round) (s s' : Server) : Prop where
  inv : Inv listenfd s'.pool
  readySet : s'.pool.readySet = l.ready
  subset : l.ready ⊆ s'.pool.readSet
  nready : s'.pool.nready = (l.ready.erase listenfd).card
  served : s'.served = []
  closed : s'.closed = s.closed
  accepted : listenfd ∈ l.ready → s'.conns l.connfd = ⟨rest l.stream, l.stream, []⟩ ∧ l.connfd ∈ s'.pool.readSet
  other : ∀ fd, (listenfd ∈ l.ready → fd ≠ l.connfd) →
    s'.conns fd = s.conns fd ∧ (fd ∈ s'.pool.readSet ↔ fd ∈ s.pool.readSet)

theorem begin_spec (hi : Inv listenfd s.pool) (hl : s.Legal listenfd l) :
    ∃ s', s.begin listenfd l = some s' ∧ Begun listenfd l s s' := by
  unfold Server.begin
  split_ifs with hlisten
  · obtain ⟨hnew, h0, h1⟩ := hl.fresh hlisten
    obtain ⟨i, hfree, hadd, hi'⟩ := addClient_spec (hi.congr l.ready l.ready.card) hnew h0 h1
    refine ⟨⟨_, Function.update s.conns l.connfd ⟨rest l.stream, l.stream, []⟩, s.closed, []⟩, ?_, hi', rfl, ?_, ?_,
      rfl, rfl, fun _ => ⟨Function.update_self .., Finset.mem_insert_self ..⟩, ?_⟩
    · unfold Server.accept Server.select
      simp only [hadd, Option.map_some]
      rfl
    · exact fun fd hfd => Finset.mem_insert_of_mem (hl.subset hfd)
    · show (l.ready.card : Int) - 1 = _
      have := Finset.card_pos.2 hl.nonempty
      rw [Finset.card_erase_of_mem hlisten]
      omega
    · intro fd hne
      refine ⟨Function.update_of_ne (hne hlisten) .., ?_⟩
      show fd ∈ insert l.connfd s.pool.readSet ↔ _
      rw [Finset.mem_insert, or_iff_right (hne hlisten)]
  · refine ⟨_, rfl, hi.congr l.ready l.ready.card, rfl, hl.subset, ?_, rfl, rfl, fun h => absurd h hlisten,
      fun _ _ => ⟨rfl, Iff.rfl⟩⟩
    rw [Finset.erase_eq_of_notMem hlisten]
    rfl

theorem pending_spec (hi : Inv listenfd s.pool) (hsub : s.pool.readySet ⊆ s.pool.readSet) :
    (s.pending.map s.pool.clientfd).Nodup ∧
      ∀ fd, fd ∈ s.pending.map s.pool.clientfd ↔ fd ∈ s.pool.readySet ∧ fd ≠ listenfd := by
  have hmem (i : Fin FD_SETSIZE) : i ∈ s.pending ↔ s.Ready i := by simp [Server.pending]
  constructor
  · exact List.Nodup.map_on (fun i h j _ heq => hi.distinct i j (pending_nonneg s i h) heq) (pending_nodup s)
  · intro fd
    rw [List.mem_map]
    constructor
    · rintro ⟨i, h, rfl⟩
      obtain ⟨hpos, hready⟩ := (hmem i).1 h
      exact ⟨hready, (hi.range i hpos.le).2.2⟩
    · rintro ⟨hfd, hne⟩
      rcases (hi.readSet fd).1 (hsub hfd) with rfl | ⟨i, rfl, h0⟩
      · exact absurd rfl hne
      · exact ⟨i, (hmem i).2 ⟨(hi.range i h0).1, hfd⟩, rfl⟩

/-- The countdown begins at the number of the ready clients. -/
theorem Begun.pending (hb : Begun listenfd l s t) : (t.pending.map t.pool.clientfd).Nodup ∧
    (∀ fd, fd ∈ t.pending.map t.pool.clientfd ↔ fd ∈ l.ready ∧ fd ≠ listenfd) ∧
    t.pool.nready = t.pending.length := by
  obtain ⟨hnd, hmem⟩ := pending_spec hb.inv (hb.readySet ▸ hb.subset)
  rw [hb.readySet] at hmem
  have hset : (t.pending.map t.pool.clientfd).toFinset = l.ready.erase listenfd := by
    ext fd
    rw [List.mem_toFinset, hmem, Finset.mem_erase, and_comm]
  exact ⟨hnd, hmem, by rw [hb.nready, ← hset, List.toFinset_card_of_nodup hnd, List.length_map]⟩

/-- **A round** serves all ready clients. -/
theorem round_eq (hi : Inv listenfd s.pool) (hl : s.Legal listenfd l) :
    ∃ s₁, Begun listenfd l s s₁ ∧ s.round listenfd l = s₁.serveAll s₁.pending := by
  obtain ⟨s₁, hbegin, hs₁⟩ := begin_spec hi hl
  refine ⟨s₁, hs₁, ?_⟩
  unfold Server.round Server.checkClients
  rw [hbegin, Option.bind_some]
  exact checkLoop_eq hs₁.inv (List.pairwise_lt_finRange _) hs₁.pending.2.2

/-- What a round must do: the views of the clients agree again, every ready client is served once, the streams that
have ended are closed, the new client is not read, and nothing else happens. -/
structure RoundOk (listenfd : Int) (l : Round) (s s' : Server) : Prop where
  pool : PoolOk listenfd s'.pool
  nodup : s'.served.Nodup
  mem_served : ∀ fd, fd ∈ s'.served ↔ fd ∈ l.ready ∧ fd ≠ listenfd
  once : ∀ fd ∈ s'.served, Served s s' fd
  closed : s'.closed = s.closed ++ (s.ended s'.served).map s'.conns
  accepted : listenfd ∈ l.ready → l.connfd ∉ s'.served ∧ l.connfd ∈ s'.pool.readSet ∧
    s'.conns l.connfd = ⟨rest l.stream, l.stream, []⟩
  other : ∀ fd ∉ s'.served, (listenfd ∈ l.ready → fd ≠ l.connfd) →
    s'.conns fd = s.conns fd ∧ (fd ∈ s'.pool.readSet ↔ fd ∈ s.pool.readSet)
  nready : s'.pool.nready = 0

/-- **A round** comes to its end. -/
theorem round_spec (hi : Inv listenfd s.pool) (hl : s.Legal listenfd l) :
    ∃ s', s.round listenfd l = some s' ∧ Inv listenfd s'.pool ∧ RoundOk listenfd l s s' := by
  obtain ⟨s₁, hb, hround⟩ := round_eq hi hl
  obtain ⟨hnd, hmem, hcard⟩ := hb.pending
  obtain ⟨s', hall, hi', hp⟩ := Progress.serveAll hb.inv (.start (pending_nonneg s₁) hnd)
  rw [List.nil_append] at hp
  have hserved : s'.served = s₁.pending.map s₁.pool.clientfd := by rw [hp.served, hb.served, List.nil_append]
  -- a ready client is not the new one, so that `accept` has not touched it
  have hconn : ∀ fd ∈ s'.served, s₁.conns fd = s.conns fd := by
    intro fd hfd
    rw [hserved, hmem] at hfd
    exact (hb.other fd fun hlisten he => (hl.fresh hlisten).1 (he ▸ hl.subset hfd.1)).1
  have hended : s₁.ended s'.served = s.ended s'.served :=
    List.filter_congr fun fd hfd => by rw [hconn fd hfd]
  refine ⟨s', hround.trans hall, hi', hi'.toPoolOk, hserved ▸ hnd, hserved ▸ hmem, ?_, ?_, ?_, ?_, ?_⟩
  · intro fd hfd
    obtain ⟨hc, hw, hr⟩ := hp.once fd (hserved ▸ hfd)
    rw [hconn fd hfd] at hc hw hr
    exact ⟨hc, hw, hr⟩
  · rw [hp.closed, hb.closed, ← hserved, hended]
  · intro hlisten
    have hnew : l.connfd ∉ s₁.pending.map s₁.pool.clientfd := fun h =>
      (hl.fresh hlisten).1 (hl.subset ((hmem _).1 h).1)
    obtain ⟨hc, hr⟩ := hp.other _ hnew
    obtain ⟨hacc, hin⟩ := hb.accepted hlisten
    exact ⟨hserved ▸ hnew, hr.2 hin, hc.trans hacc⟩
  · intro fd hfd hne
    obtain ⟨hc, hr⟩ := hp.other fd (hserved ▸ hfd)
    obtain ⟨hc', hr'⟩ := hb.other fd hne
    exact ⟨hc.trans hc', hr.trans hr'⟩
  · rw [hp.nready, hcard]
    omega

theorem reachable_inv (hr : (server listenfd).Reachable s) : Inv listenfd s.pool := by
  refine hr.invariant (I := fun s => Inv listenfd s.pool) ?_ ?_
  · rintro s ⟨⟨p, hp⟩, -⟩
    rw [hp]
    exact initPool_inv listenfd p
  · rintro s l s' hi - ⟨hl, hround⟩
    obtain ⟨s₁, hs₁, hi', -⟩ := round_spec hi hl
    rw [hs₁] at hround
    cases hround
    exact hi'

/-- The server that listens on descriptor 3, before its first round. -/
def start : Server :=
  ⟨initPool 3 ⟨0, ∅, ∅, 0, 0, fun _ => 0, fun _ => ⟨0, 0, 0, []⟩⟩, fun _ => ⟨[], [], []⟩, [], []⟩

theorem start_reach {ok : Server → Round → Prop} : (server 3).Reach ok start := .init ⟨⟨_, rfl⟩, rfl⟩

/-- **The pool** in all reachable states, and what the next round does. -/
theorem pool_invariant (hr : (server listenfd).Reachable s) : PoolOk listenfd s.pool ∧
    ∀ l, s.Legal listenfd l → ∃ s', s.round listenfd l = some s' ∧ RoundOk listenfd l s s' := by
  have hi := reachable_inv hr
  refine ⟨hi.toPoolOk, fun l hl => ?_⟩
  obtain ⟨s', hround, -, hok⟩ := round_spec hi hl
  exact ⟨s', hround, hok⟩

/-- The second client connects while the first is served. -/
theorem pool_invariant_two : ∃ s s', (server 3).Reachable s ∧ s.round 3 ⟨{3, 4}, 5, []⟩ = some s' ∧
    RoundOk 3 ⟨{3, 4}, 5, []⟩ s s' ∧ (s'.conns 4).written = [10] ∧ 4 ∈ s'.pool.readSet ∧ 5 ∈ s'.pool.readSet := by
  have hfirst : (start.round 3 ⟨{3}, 4, [.chunk [10] (by decide) (by decide)]⟩).map
      (fun s => (s.pool.readSet, rest (s.conns 4).stream, (s.conns 4).written)) = some ({3, 4}, [10], []) := by
    decide +kernel
  obtain ⟨s, hs, hview⟩ := Option.map_eq_some_iff.1 hfirst
  simp only [Prod.mk.injEq] at hview
  obtain ⟨hset, hstream, hnone⟩ := hview
  have hr : (server 3).Reachable s :=
    .step start_reach trivial ⟨⟨by decide, by decide, fun _ => by decide⟩, hs⟩
  obtain ⟨s', hround, hok⟩ := (pool_invariant hr).2 ⟨{3, 4}, 5, []⟩
    ⟨by decide, by rw [hset], fun _ => by rw [hset]; decide⟩
  obtain ⟨-, hwritten, hstays⟩ := hok.once 4 ((hok.mem_served 4).2 (by decide))
  rw [hstream] at hwritten hstays
  refine ⟨s, s', hr, hround, hok, ?_, hstays.2 (by decide), (hok.accepted (by decide)).2.1⟩
  rw [hwritten, hnone]
  decide

end CsappLab.Echoservers
