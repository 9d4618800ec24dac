import CsappLab.Proxy.Request
import CsappLab.Lib.CInt

/-!
# The response and the copy of it

The second half of `connect_to_server`: what the origin sends goes to the client piece by piece, by the
count of its bytes, and to `cache_buf` with `strcat`. A counter of the bytes decides what is appended and
whether `cache_url` is called; it is an `int`.
-/

namespace CsappLab.Proxy
open CStr CInt Rio Fuel

def MAX_OBJECT_SIZE : Nat := 102400

/-- `buf_client`, `cache_buf`, `HTTP_reponse_size`, and what has been written to the client. -/
structure Relay where
  buf : List UInt8
  cacheBuf : List UInt8
  size : Int
  relayed : List UInt8

/-- The body of the loop, when `Rio_readlineb` has written `usrbuf` and returned `n`. -/
def Relay.receive (s : Relay) (usrbuf : List UInt8) (n : Nat) : Relay :=
  let buf := overwrite s.buf usrbuf
  let size := i32 (s.size + n)
  ⟨buf, if size < MAX_OBJECT_SIZE then strcat s.cacheBuf buf else s.cacheBuf, size, s.relayed ++ buf.take n⟩

def responseLoop (rp : RioT) (fd : Fd) (s : Relay) : Nat → Except Stuck Relay
  | 0 => .error .endlessLoop
  | fuel + 1 =>
    let r := rioReadlineb rp fd MAXLINE
    if r.ret ≠ 0 then responseLoop r.rp r.fd (s.receive r.usrbuf r.ret.toNat) fuel else .ok s

/-- The loop, when `Rio_readlineb` delivers `pieces` and then returns 0. -/
def Relay.run (s : Relay) (pieces : List (List UInt8)) : Relay :=
  pieces.foldl (fun s piece => s.receive (piece ++ [0]) piece.length) s

/-- Before the loop; `cache_buf` is a local variable that nobody has written to. -/
def relayStart (buf cacheBuf : List UInt8) : Relay := ⟨buf, cacheBuf, 0, []⟩

/-- The buffer that `cache_url` is called with. -/
def Relay.cached (s : Relay) : Option (List UInt8) :=
  if s.size < MAX_OBJECT_SIZE then some s.cacheBuf else none

/-- What a hit writes to the client after `strcpy(cache_obj, buf)`. -/
def hitWrites (cacheObj buf : List UInt8) : List UInt8 :=
  let obj := strcpy cacheObj buf
  obj.take (strlen obj)

variable {rp : RioT} {fd : Fd} {s : Relay} {buf cacheBuf cacheObj piece : List UInt8}
  {pieces : List (List UInt8)} {T : Nat}

theorem i32_lt_iff (hT : T < 2 ^ 31) : i32 T < MAX_OBJECT_SIZE ↔ T < MAX_OBJECT_SIZE := by
  rw [i32_natCast hT, Nat.cast_lt]

/-! ### The loop -/

theorem responseLoop_halts (h : rp.Ok) (s : Relay) :
    Halts (responseLoop rp fd s) (s.run (lines (MAXLINE - 1) (left rp fd))) := by
  generalize hls : lines (MAXLINE - 1) (left rp fd) = ls
  induction ls generalizing rp fd s with
  | nil =>
    obtain ⟨-, hret, -, -⟩ := rioReadlineb_nil h two_le_maxline maxline_le hls
    exact ⟨1, if_neg (not_not.2 hret)⟩
  | cons l ls ih =>
    obtain ⟨hok, hret, hu, hrest⟩ := rioReadlineb_cons h two_le_maxline maxline_le hls
    have hne : l ≠ [] := (of_mem_lines (hls ▸ List.mem_cons_self : l ∈ lines _ _)).1
    obtain ⟨n, hn⟩ := ih hok (s.receive (l ++ [0]) l.length) hrest
    refine ⟨n + 1, ?_⟩
    unfold responseLoop
    simp only [hret, hu, Int.toNat_natCast]
    rw [if_pos (by simpa using hne)]
    exact hn

theorem take_overwrite (buf piece : List UInt8) : (overwrite buf (piece ++ [0])).take piece.length = piece := by
  unfold overwrite
  rw [List.append_assoc, List.take_left]

theorem run_relayed (s : Relay) (pieces : List (List UInt8)) :
    (s.run pieces).relayed = s.relayed ++ pieces.flatten := by
  induction pieces generalizing s with
  | nil => simp [Relay.run]
  | cons piece pieces ih =>
    refine (ih _).trans ?_
    simp only [Relay.receive, take_overwrite, List.flatten_cons, List.append_assoc]

/-- **The loop** ends on every stream, and the client has got all of it. -/
theorem responseLoop_relays (h : rp.Ok) (fd : Fd) (s : Relay) :
    ∃ s', Halts (responseLoop rp fd s) s' ∧ s'.relayed = s.relayed ++ left rp fd := by
  refine ⟨_, responseLoop_halts h s, ?_⟩
  rw [run_relayed, flatten_lines (show 0 < MAXLINE - 1 by decide)]

theorem receive_size (hs : s.size = i32 T) (piece : List UInt8) :
    (s.receive (piece ++ [0]) piece.length).size = i32 (T + piece.length : Nat) := by
  simp only [Relay.receive, hs]
  rw [i32_add, Nat.cast_add]

theorem run_size (hs : s.size = i32 T) (pieces : List (List UInt8)) :
    (s.run pieces).size = i32 (T + pieces.flatten.length : Nat) := by
  induction pieces generalizing s T with
  | nil => simpa [Relay.run] using hs
  | cons piece pieces ih =>
    refine (ih (receive_size hs piece)).trans ?_
    rw [List.flatten_cons, List.length_append, Nat.add_assoc]

theorem cached_eq (buf cacheBuf : List UInt8) (pieces : List (List UInt8)) :
    ((relayStart buf cacheBuf).run pieces).cached = if i32 pieces.flatten.length < MAX_OBJECT_SIZE then
      some ((relayStart buf cacheBuf).run pieces).cacheBuf else none := by
  unfold Relay.cached
  rw [run_size (T := 0) rfl pieces, Nat.zero_add]

/-! ### The copy -/

theorem run_cacheBuf (hs : s.size = i32 T) (hlen : T + pieces.flatten.length < MAX_OBJECT_SIZE) :
    str (s.run pieces).cacheBuf = str s.cacheBuf ++ (pieces.map str).flatten := by
  induction pieces generalizing s T with
  | nil => simp [Relay.run]
  | cons piece pieces ih =>
    rw [List.flatten_cons, List.length_append, ← Nat.add_assoc] at hlen
    have hT : i32 (i32 T + piece.length) < MAX_OBJECT_SIZE := by
      rw [i32_add, ← Nat.cast_add, i32_lt_iff (by unfold MAX_OBJECT_SIZE at hlen; omega)]
      omega
    refine (ih (receive_size hs piece) hlen).trans ?_
    simp only [Relay.receive, hs, if_pos hT]
    rw [str_strcat, str_overwrite, List.map_cons, List.flatten_cons, List.append_assoc]

theorem flatten_map_str (h0 : 0 ∉ pieces.flatten) : (pieces.map str).flatten = pieces.flatten := by
  have hmap : pieces.map str = pieces.map id := List.map_congr_left fun piece hpiece =>
    str_eq_self_iff.2 fun hmem => h0 (List.mem_flatten.2 ⟨piece, hpiece, hmem⟩)
  rw [hmap, List.map_id]

theorem hitWrites_eq (cacheObj buf : List UInt8) : hitWrites cacheObj buf = str buf := by
  unfold hitWrites
  rw [take_strlen, str_strcpy]

/-- What `cache_url` is called with is what the client got, and so is what a hit writes. -/
def Relay.CachesRelayed (cacheObj : List UInt8) (s : Relay) : Prop :=
  ∃ buf, s.cached = some buf ∧ str buf = s.relayed ∧ hitWrites cacheObj buf = s.relayed

/-- **The copy.** The proxy caches what it has relayed exactly when `cache_buf` happened to hold the empty
string and there is no zero byte in the response. -/
theorem caches_relayed_iff (buf cacheBuf cacheObj : List UInt8)
    (hlen : pieces.flatten.length < MAX_OBJECT_SIZE) :
    ((relayStart buf cacheBuf).run pieces).CachesRelayed cacheObj ↔ str cacheBuf = [] ∧ 0 ∉ pieces.flatten := by
  have hrelayed : ((relayStart buf cacheBuf).run pieces).relayed = pieces.flatten := run_relayed _ pieces
  have hcopy : str ((relayStart buf cacheBuf).run pieces).cacheBuf = str cacheBuf ++ (pieces.map str).flatten :=
    run_cacheBuf (T := 0) rfl (by rwa [Nat.zero_add])
  have hcached : ((relayStart buf cacheBuf).run pieces).cached =
      some ((relayStart buf cacheBuf).run pieces).cacheBuf := by
    rw [cached_eq, if_pos]
    exact (i32_lt_iff (by unfold MAX_OBJECT_SIZE at hlen; omega)).2 hlen
  simp only [Relay.CachesRelayed, hcached, Option.some.injEq, exists_eq_left', hitWrites_eq, hrelayed, and_self]
  constructor
  · intro heq
    have h0 : 0 ∉ pieces.flatten := by
      rw [← heq]
      exact zero_not_mem_str _
    refine ⟨?_, h0⟩
    rw [hcopy, flatten_map_str h0] at heq
    exact List.append_left_eq_self.1 heq
  · rintro ⟨hempty, h0⟩
    rw [hcopy, hempty, flatten_map_str h0, List.nil_append]

theorem caches_relayed_iff_line :
    ((relayStart [] [0]).run [[97, 10]]).CachesRelayed [] ↔ str [0] = [] ∧ 0 ∉ ([[97, 10]] : List (List UInt8)).flatten :=
  caches_relayed_iff [] [0] [] (by decide)

/-- What was on the stack comes first, and what follows a zero byte in its piece is lost. -/
theorem cached_differs : ¬ ((relayStart [] [120, 0]).run [[97, 10]]).CachesRelayed [] ∧
    ¬ ((relayStart [] [0]).run [[97, 0, 10]]).CachesRelayed [] := by
  constructor
  · rintro ⟨buf, hbuf, hstr, -⟩
    obtain rfl : [120, 97, 10, 0] = buf := Option.some.inj ((by decide : _ = _).trans hbuf)
    exact absurd hstr (by decide)
  · rintro ⟨buf, hbuf, hstr, -⟩
    obtain rfl : [97, 0] = buf := Option.some.inj ((by decide : _ = _).trans hbuf)
    exact absurd hstr (by decide)

/-! ### The guard -/

/-- As a 32-bit `int` the length is negative, or below `MAX_OBJECT_SIZE`. -/
def LooksSmall (length : Nat) : Prop := 2 ^ 31 ≤ length % 2 ^ 32 ∨ length % 2 ^ 32 < MAX_OBJECT_SIZE

instance : DecidablePred LooksSmall := fun _ => inferInstanceAs (Decidable (_ ∨ _))

theorem looksSmall_iff : LooksSmall T ↔ i32 T < MAX_OBJECT_SIZE := by
  have hmod := i32_emod T
  obtain ⟨hlo, hhi⟩ := i32_range T
  unfold LooksSmall MAX_OBJECT_SIZE
  omega

/-- The bytes in front of the first zero bytes of those pieces behind which the length looks small; `T` bytes
come before the first piece. -/
def stringBytes (T : Nat) : List (List UInt8) → Nat
  | [] => 0
  | piece :: pieces =>
    (if LooksSmall (T + piece.length) then strlen piece else 0) + stringBytes (T + piece.length) pieces

theorem stringBytes_append (ps qs : List (List UInt8)) :
    stringBytes T (ps ++ qs) = stringBytes T ps + stringBytes (T + ps.flatten.length) qs := by
  induction ps generalizing T with
  | nil => simp [stringBytes]
  | cons p ps ih =>
    rw [List.cons_append, stringBytes, stringBytes, ih, List.flatten_cons, List.length_append, Nat.add_assoc,
      Nat.add_assoc]

theorem run_strlen (hs : s.size = i32 T) (pieces : List (List UInt8)) :
    strlen (s.run pieces).cacheBuf = strlen s.cacheBuf + stringBytes T pieces := by
  induction pieces generalizing s T with
  | nil => rfl
  | cons piece pieces ih =>
    refine (ih (receive_size hs piece)).trans ?_
    have hsize : i32 (i32 T + piece.length) = i32 (T + piece.length : Nat) := by rw [i32_add, Nat.cast_add]
    simp only [Relay.receive, hs, hsize, ← looksSmall_iff, stringBytes]
    split_ifs
    · simp only [strlen]
      rw [str_strcat, str_overwrite, List.length_append, Nat.add_assoc]
    · rw [Nat.zero_add]

/-- As long as the counter does not wrap, the guard holds. -/
theorem stringBytes_lt (hlen : T + pieces.flatten.length < 2 ^ 31) :
    (T < MAX_OBJECT_SIZE → T + stringBytes T pieces < MAX_OBJECT_SIZE) ∧
      (MAX_OBJECT_SIZE ≤ T → stringBytes T pieces = 0) := by
  induction pieces generalizing T with
  | nil => exact ⟨id, fun _ => rfl⟩
  | cons piece pieces ih =>
    rw [List.flatten_cons, List.length_append, ← Nat.add_assoc] at hlen
    obtain ⟨hlt, hge⟩ := ih hlen
    have hpiece := strlen_le piece
    simp only [stringBytes, looksSmall_iff, i32_lt_iff (show T + piece.length < 2 ^ 31 by omega)]
    split_ifs with h1
    · specialize hlt h1
      omega
    · specialize hge (by omega)
      omega

/-- The string in `cache_buf` has room after every piece, and `cache_url` is called for the responses below
`MAX_OBJECT_SIZE`. -/
def Guarded (s : Relay) (pieces : List (List UInt8)) : Prop :=
  (∀ ps, ps <+: pieces → strlen (s.run ps).cacheBuf + 1 ≤ MAX_OBJECT_SIZE) ∧
    ((s.run pieces).cached.isSome ↔ pieces.flatten.length < MAX_OBJECT_SIZE)

/-- **The guard** works exactly when the counter does not wrap, or does not look small at the end and there
were few bytes to append while it did. -/
theorem guarded_iff (buf : List UInt8) (pieces : List (List UInt8)) (hbuf : str cacheBuf = []) :
    Guarded (relayStart buf cacheBuf) pieces ↔ pieces.flatten.length < 2 ^ 31 ∨
      ¬ LooksSmall pieces.flatten.length ∧ stringBytes 0 pieces < MAX_OBJECT_SIZE := by
  have hstr : ∀ ps, strlen ((relayStart buf cacheBuf).run ps).cacheBuf = stringBytes 0 ps := by
    intro ps
    refine (run_strlen (T := 0) rfl ps).trans ?_
    simp [relayStart, strlen, hbuf]
  have hroom : (∀ ps, ps <+: pieces → strlen ((relayStart buf cacheBuf).run ps).cacheBuf + 1 ≤ MAX_OBJECT_SIZE) ↔
      stringBytes 0 pieces < MAX_OBJECT_SIZE := by
    simp only [hstr]
    constructor
    · exact fun h => h pieces List.prefix_rfl
    · rintro h ps ⟨qs, rfl⟩
      rw [stringBytes_append] at h
      omega
  have hcached : ((relayStart buf cacheBuf).run pieces).cached.isSome ↔ LooksSmall pieces.flatten.length := by
    rw [cached_eq, looksSmall_iff]
    split_ifs with h
    · exact iff_of_true rfl h
    · exact iff_of_false nofun h
  rw [Guarded, hroom, hcached]
  constructor
  · rintro ⟨happ, hiff⟩
    by_cases hlen : pieces.flatten.length < 2 ^ 31
    · exact .inl hlen
    · refine .inr ⟨fun h => ?_, happ⟩
      have := hiff.1 h
      unfold MAX_OBJECT_SIZE at this
      omega
  · rintro (hlen | ⟨hlarge, happ⟩)
    · have happ := (stringBytes_lt (T := 0) (by rwa [Nat.zero_add])).1 (by decide)
      rw [Nat.zero_add] at happ
      exact ⟨happ, looksSmall_iff.trans (i32_lt_iff hlen)⟩
    · refine ⟨happ, iff_of_false hlarge fun hlt => hlarge (looksSmall_iff.2 ?_)⟩
      exact (i32_lt_iff (by unfold MAX_OBJECT_SIZE at hlt; omega)).2 hlt

theorem guarded_iff_line : Guarded (relayStart [] [0]) [[97, 10]] ↔
    ([[97, 10]] : List (List UInt8)).flatten.length < 2 ^ 31 ∨
      ¬ LooksSmall ([[97, 10]] : List (List UInt8)).flatten.length ∧ stringBytes 0 [[97, 10]] < MAX_OBJECT_SIZE :=
  guarded_iff [] [[97, 10]] (by decide)

/-- A response of 2 ^ 31 + 8159 bytes, in full pieces: the counter is negative at the end. -/
theorem guard_fails : let pieces := List.replicate 262177 (List.replicate (MAXLINE - 1) (97 : UInt8))
    (∀ piece ∈ pieces, 1 ≤ piece.length ∧ piece.length ≤ MAXLINE - 1) ∧ ¬ Guarded (relayStart [] [0]) pieces := by
  intro pieces
  have hlen : pieces.flatten.length = 2 ^ 31 + 8159 := by
    simp only [pieces, List.length_flatten, List.map_replicate, List.length_replicate, List.sum_replicate, MAXLINE,
      smul_eq_mul]
    norm_num
  have hneg := i32_neg (show 2 ^ 31 ≤ pieces.flatten.length by omega) (by omega)
  refine ⟨fun piece hpiece => ?_, fun hg => ?_⟩
  · rw [List.eq_of_mem_replicate hpiece, List.length_replicate]
    decide
  · have hlt := hg.2.1 ?_
    · unfold MAX_OBJECT_SIZE at hlt
      omega
    · rw [cached_eq, if_pos (by unfold MAX_OBJECT_SIZE; omega)]
      rfl

end CsappLab.Proxy
