import Mathlib
import TorrentProof.MsgRoundTrip
import TorrentProof.Receive

/-! # What the receive section makes of a stream

Three questions about the bytes a peer sends: whether messages are delivered one by one
(`delivered_iff`), whether reading one of them comes to an end (`readsToEnd_iff`), and
whether a handshake is read as one (`not_readAsHandshake`).  In each the answer is in
the numbers `receive_spec` gives: a section whose length prefix announces `L` bytes takes
`max 4 L` bytes off the connection, which is `4 + L` for no other `L` than 0.
-/
namespace TorrentClient
open Bytes CText Fallible Framing Socket

/-! ## Sections that read a zero length -/

/-- The string found at the pointer to an empty block is empty. -/
def Memory.Quiet (mem : Memory) : Prop := mem.behind.head? = some 0

/-- `strcat` has room for the string found there, that of the stack behind `buf_length`
included: a string of four bytes or more overruns the array, and does no harm to what is
received. -/
def Memory.Fits (mem : Memory) : Prop :=
  0 ∈ mem.behind ∧ (cstr mem.behind).length < 4 + mem.stack.length

section Zero
variable {mem : Memory}

theorem strcat_zero_of_fits (h : mem.Fits) :
    strcat ([0, 0, 0, 0] ++ mem.stack) mem.behind = some (cstr mem.behind ++
      0 :: ([0, 0, 0, 0] ++ mem.stack).drop ((cstr mem.behind).length + 1)) := by
  have hdst : cstr ([0, 0, 0, 0] ++ mem.stack) = [] := rfl
  unfold strcat
  rw [hdst]
  dsimp only
  rw [List.nil_append, if_pos ⟨h.1, by simp, by
    have := h.2
    simp only [List.length_append, List.length_cons, List.length_nil]
    omega⟩]

theorem fits_of_strcat_zero {joined : List UInt8}
    (h : strcat ([0, 0, 0, 0] ++ mem.stack) mem.behind = some joined) : mem.Fits := by
  have hdst : cstr ([0, 0, 0, 0] ++ mem.stack) = [] := rfl
  unfold strcat at h
  rw [hdst] at h
  dsimp only at h
  rw [List.nil_append] at h
  split at h
  next hfits =>
    refine ⟨hfits.1, ?_⟩
    have := hfits.2.2
    simp only [List.length_append, List.length_cons, List.length_nil] at this
    omega
  · cases h

theorem Memory.Quiet.cstr_eq_nil (h : mem.Quiet) : cstr mem.behind = [] := by
  obtain ⟨rest, hrest⟩ := List.head?_eq_some_iff.mp h
  rw [hrest, cstr]
  rfl

theorem Memory.Quiet.fits (h : mem.Quiet) : mem.Fits := by
  refine ⟨List.mem_of_mem_head? h, ?_⟩
  rw [h.cstr_eq_nil, List.length_nil]
  omega

/-- An empty string behind the block leaves the four zeros alone. -/
theorem Memory.Quiet.strcat_eq (h : mem.Quiet) :
    strcat ([0, 0, 0, 0] ++ mem.stack) mem.behind = some ([0, 0, 0, 0] ++ mem.stack) := by
  rw [strcat_zero_of_fits h.fits, h.cstr_eq_nil]
  rfl

/-- Only with an empty string behind the block the four zeros stay zeros. -/
theorem quiet_of_strcat_zero {joined : List UInt8}
    (h : strcat ([0, 0, 0, 0] ++ mem.stack) mem.behind = some joined)
    (hzero : joined.take 4 = [0, 0, 0, 0]) : mem.Quiet := by
  have hfits := fits_of_strcat_zero h
  obtain rfl := Option.some.inj ((strcat_zero_of_fits hfits).symm.trans h)
  cases hbehind : mem.behind with
  | nil =>
    have := hfits.1
    rw [hbehind] at this
    cases this
  | cons b behind =>
    rw [Memory.Quiet, hbehind]
    by_cases hb : b = 0
    · rw [hb]
      rfl
    · -- a byte of the string would stand where the length prefix was
      have hcstr : cstr mem.behind = b :: cstr behind := by
        rw [hbehind, cstr, List.takeWhile_cons_of_pos (by simpa using hb)]
        rfl
      rw [hcstr, List.cons_append, List.take_succ_cons] at hzero
      exact absurd (List.cons.inj hzero).1 hb

theorem announced_eq_zero {s : List UInt8} (h4 : 4 ≤ s.length) (h : announced s = 0) :
    s.take 4 = [0, 0, 0, 0] := by
  revert h
  match s, h4 with
  | a :: b :: c :: d :: s, _ =>
    intro h
    rw [announced_eq, Mem.wordBE_toNat] at h
    have ha : a = 0 := UInt8.toNat_inj.mp (show a.toNat = 0 by omega)
    have hb : b = 0 := UInt8.toNat_inj.mp (show b.toNat = 0 by omega)
    have hc : c = 0 := UInt8.toNat_inj.mp (show c.toNat = 0 by omega)
    have hd : d = 0 := UInt8.toNat_inj.mp (show d.toNat = 0 by omega)
    rw [ha, hb, hc, hd]
    rfl

/-- A section takes a round of its first loop. -/
theorem exists_fuel_of_receive {fuel : Nat} {conn : Conn} {s : Section}
    (h : receive mem fuel conn = .ok s) : ∃ n, fuel = n + 1 := by
  unfold receive at h
  obtain ⟨head, hhead, -⟩ := bind_eq_ok.mp h
  obtain ⟨n, -, hn, -⟩ := recvLoop_step (show (0 : Int) < (4 : Nat) by decide) hhead
  exact ⟨n, hn⟩

end Zero

/-! ## Message by message -/

/-- Messages that arrive on a connection, cut by `recv` as it likes. -/
structure Arrival where
  payloads : List (List UInt8)
  length_lt : ∀ p ∈ payloads, p.length < 2 ^ 31 - 4
  conn : Conn
  bytes_eq : conn.bytes = (payloads.map frame).flatten

/-- `n` sections one after the other, from number `k` on: the arguments of the calls of
`decode`, and what is left on the connection. -/
def receiveAll (mem : Nat → Memory) (fuel : Nat) :
    Nat → Nat → Conn → Except Stop (List (List UInt8 × Nat) × Conn)
  | _, 0, conn => .ok ([], conn)
  | k, n + 1, conn => do
    let s ← receive (mem k) fuel conn
    let rest ← receiveAll mem fuel (k + 1) n s.conn
    pure ((s.msg, s.msgLength) :: rest.1, rest.2)

/-- **The messages are delivered**: as many sections as there are messages call `decode` on
exactly these, in order, and leave nothing on the connection. -/
def Arrival.Delivered (a : Arrival) (mem : Nat → Memory) : Prop :=
  ∃ fuel conn, receiveAll mem fuel 0 a.payloads.length a.conn =
    .ok (a.payloads.map fun p => (frame p, p.length + 4), conn) ∧ conn.bytes = []

section Runs
variable {mem : Nat → Memory} {fuel : Nat}

/-- The sections take `max 4 L` bytes for each message. -/
theorem receiveAll_consumes {k n : Nat} {conn conn' : Conn} {calls : List (List UInt8 × Nat)}
    (h : receiveAll mem fuel k n conn = .ok (calls, conn')) :
    conn.bytes.length = conn'.bytes.length + (calls.map fun c => max 4 (c.2 - 4)).sum := by
  induction n generalizing k conn calls with
  | zero =>
    obtain ⟨rfl, rfl⟩ := Prod.mk.inj (Except.ok.inj h)
    rfl
  | succ n ih =>
    rw [receiveAll] at h
    obtain ⟨s, hs, h⟩ := bind_eq_ok.mp h
    obtain ⟨⟨calls', rest⟩, hrest, h⟩ := bind_eq_ok.mp h
    obtain ⟨rfl, rfl⟩ := Prod.mk.inj (Except.ok.inj h)
    obtain ⟨hlen, -, hbytes, -⟩ := receive_spec hs
    have := ih hrest
    rw [List.map_cons, List.sum_cons]
    dsimp only at this ⊢
    rw [hlen, Nat.add_sub_cancel]
    omega

/-- What the messages are long, and what the sections take: the same only for empty ones. -/
theorem nil_of_sum_eq {payloads : List (List UInt8)} :
    (payloads.map fun p => max 4 p.length).sum ≤ (payloads.map fun p => p.length + 4).sum ∧
      ((payloads.map fun p => p.length + 4).sum = (payloads.map fun p => max 4 p.length).sum →
        ∀ p ∈ payloads, p = []) := by
  induction payloads with
  | nil =>
    refine ⟨Nat.le_refl 0, ?_⟩
    intro _ p hp
    exact absurd hp List.not_mem_nil
  | cons p payloads ih =>
    obtain ⟨hle, hall⟩ := ih
    simp only [List.map_cons, List.sum_cons, List.forall_mem_cons]
    refine ⟨by omega, fun heq => ⟨List.eq_nil_of_length_eq_zero (by omega), hall (by omega)⟩⟩

theorem flatten_frame_length (payloads : List (List UInt8)) :
    (payloads.map frame).flatten.length = (payloads.map fun p => p.length + 4).sum := by
  rw [List.length_flatten, List.map_map]
  exact congrArg List.sum (List.map_congr_left fun p _ => frame_length p)

/-- The sections of a stream of zero lengths, where they come out right. -/
theorem quiet_of_receiveAll {k n : Nat} {conn conn' : Conn}
    (hbytes : conn.bytes = (List.replicate n [0, 0, 0, 0]).flatten)
    (h : receiveAll mem fuel k n conn = .ok (List.replicate n ([0, 0, 0, 0], 4), conn')) :
    (∀ seg ∈ conn.segments, 4 ∣ seg.length) ∧ ∀ j < n, (mem (k + j)).Quiet := by
  induction n generalizing k conn with
  | zero =>
    have hnil : ∀ seg ∈ conn.segments, seg = [] := List.flatten_eq_nil_iff.mp hbytes
    constructor
    · intro seg hseg
      rw [hnil seg hseg]
      exact Nat.dvd_zero 4
    · intro j hj
      exact absurd hj (Nat.not_lt_zero j)
  | succ n ih =>
    rw [List.replicate_succ, List.flatten_cons] at hbytes
    rw [receiveAll] at h
    obtain ⟨s, hs, h⟩ := bind_eq_ok.mp h
    obtain ⟨⟨calls, last⟩, hlast, h⟩ := bind_eq_ok.mp h
    rw [List.replicate_succ] at h
    obtain ⟨hcalls, rfl⟩ := Prod.mk.inj (Except.ok.inj h)
    obtain ⟨hcall, rfl⟩ := List.cons.inj hcalls
    obtain ⟨-, -, -, rest, hrecv⟩ := receive_spec hs
    obtain ⟨m, rfl⟩ := exists_fuel_of_receive hs
    rw [show conn.bytes.take 4 = [0, 0, 0, 0] by rw [hbytes]; rfl] at hrecv
    rw [receive_zero hrecv] at hs
    split at hs
    · cases hs
    next joined hjoined =>
    obtain rfl := Except.ok.inj hs
    have hsplit := bytes_of_recv hrecv (show (0 : Int) < 4 by decide)
    have hrest : rest.bytes = (List.replicate n [0, 0, 0, 0]).flatten :=
      List.append_cancel_left (hsplit.symm.trans hbytes)
    obtain ⟨hdvd, hquiets⟩ := ih hrest hlast
    refine ⟨(dvd_segments_of_recv (by decide) hrecv).mpr hdvd, ?_⟩
    intro j hj
    cases j with
    | zero => exact quiet_of_strcat_zero hjoined (Prod.mk.inj hcall).1
    | succ j =>
      rw [show k + (j + 1) = k + 1 + j from by omega]
      exact hquiets j (by omega)

/-- The converse: one round of the first loop is enough for each. -/
theorem receiveAll_of_quiet {k n : Nat} {conn : Conn}
    (hbytes : conn.bytes = (List.replicate n [0, 0, 0, 0]).flatten)
    (hdvd : ∀ seg ∈ conn.segments, 4 ∣ seg.length) (hquiet : ∀ j < n, (mem (k + j)).Quiet) :
    ∃ conn', receiveAll mem 1 k n conn = .ok (List.replicate n ([0, 0, 0, 0], 4), conn') ∧
      conn'.bytes = [] := by
  induction n generalizing k conn with
  | zero => exact ⟨conn, rfl, hbytes⟩
  | succ n ih =>
    rw [List.replicate_succ, List.flatten_cons] at hbytes
    obtain ⟨rest, hrecv, hrest⟩ := recv_of_dvd (by decide) hdvd (by rw [hbytes]; simp)
    rw [show conn.bytes.take 4 = [0, 0, 0, 0] by rw [hbytes]; rfl] at hrecv
    have hzero : (mem k).Quiet := hquiet 0 (by omega)
    have hs : receive (mem k) 1 conn = .ok ⟨[0, 0, 0, 0], 4, rest, [(4, 4)]⟩ := by
      rw [receive_zero hrecv, hzero.strcat_eq]
      rfl
    rw [hbytes] at hrest
    obtain ⟨conn', hlast, hend⟩ := ih hrest ((dvd_segments_of_recv (by decide) hrecv).mp hdvd)
      fun j hj => by
        rw [show k + 1 + j = k + (j + 1) from by omega]
        exact hquiet (j + 1) (by omega)
    refine ⟨conn', ?_, hend⟩
    rw [receiveAll, hs, ok_bind]
    dsimp only
    rw [hlast]
    rfl

end Runs

/-- **Exactly when messages are delivered**: when they are all keep-alives, come in segments
of whole length prefixes, and no string lies behind the empty block of any of them. -/
theorem delivered_iff (a : Arrival) (mem : Nat → Memory) :
    a.Delivered mem ↔ (∀ p ∈ a.payloads, p = []) ∧
      (∀ seg ∈ a.conn.segments, 4 ∣ seg.length) ∧ ∀ k < a.payloads.length, (mem k).Quiet := by
  have hkeep : (∀ p ∈ a.payloads, p = []) →
      a.conn.bytes = (List.replicate a.payloads.length [0, 0, 0, 0]).flatten ∧
        (a.payloads.map fun p => (frame p, p.length + 4)) =
          List.replicate a.payloads.length ([0, 0, 0, 0], 4) := by
    intro hnil
    rw [a.bytes_eq]
    constructor
    · refine congrArg List.flatten (List.map_eq_replicate_iff.mpr ?_)
      intro p hp
      rw [hnil p hp]
      rfl
    · apply List.map_eq_replicate_iff.mpr
      intro p hp
      rw [hnil p hp]
      rfl
  constructor
  · rintro ⟨fuel, conn, h, hend⟩
    have hconsumed := receiveAll_consumes h
    rw [hend, a.bytes_eq, flatten_frame_length, List.map_map, List.length_nil,
      Nat.zero_add] at hconsumed
    have hnil : ∀ p ∈ a.payloads, p = [] := nil_of_sum_eq.2 hconsumed
    obtain ⟨hbytes, hcalls⟩ := hkeep hnil
    rw [hcalls] at h
    obtain ⟨hdvd, hquiet⟩ := quiet_of_receiveAll hbytes h
    exact ⟨hnil, hdvd, fun k hk => by simpa using hquiet k hk⟩
  · rintro ⟨hnil, hdvd, hquiet⟩
    obtain ⟨hbytes, hcalls⟩ := hkeep hnil
    obtain ⟨conn, h, hend⟩ := receiveAll_of_quiet (k := 0) hbytes hdvd fun j hj => by
      rw [Nat.zero_add]
      exact hquiet j hj
    exact ⟨1, conn, by rw [h, hcalls], hend⟩

/-- A choke that arrives in one segment. -/
def chokeArrival : Arrival where
  payloads := [[0]]
  length_lt := by decide
  conn := ⟨[[0, 0, 0, 1, 0]], by decide, .blocks⟩
  bytes_eq := by decide

/-- Memory in which everything is zero. -/
def zeroMemory : Memory := ⟨Vector.replicate 4 0, [0], fun _ => 0, [0]⟩

/-- Its last byte is still on the connection when `decode` is called. -/
theorem not_delivered_choke : ¬ chokeArrival.Delivered fun _ => zeroMemory := by
  rintro ⟨fuel, conn, h, hend⟩
  have := receiveAll_consumes h
  rw [hend] at this
  exact absurd this (by decide)

/-! ## One message -/

/-- **Reading the message ends**: `decode` is called after finitely many rounds, with no
`recv` asked for more than its buffer holds, when all bytes of the message have come. -/
def ReadsToEnd (mem : Memory) (conn : Conn) : Prop :=
  ∃ fuel s, receive mem fuel conn = .ok s ∧ (∀ ask ∈ s.asks, ask.1 ≤ ask.2) ∧
    4 + announced conn.bytes + s.conn.bytes.length ≤ conn.bytes.length

/-- **Exactly when reading a message ends**: when its first segment starts with four zeros,
and `strcat` has room for what it finds behind the empty block. -/
theorem readsToEnd_iff (mem : Memory) (conn : Conn) :
    ReadsToEnd mem conn ↔
      (∃ seg ∈ conn.segments.head?, [0, 0, 0, 0] <+: seg) ∧ mem.Fits := by
  have hhead := recv_full_iff conn [0, 0, 0, 0] (show 0 < 4 by decide) rfl
  constructor
  · rintro ⟨fuel, s, hs, -, hall⟩
    obtain ⟨-, -, hlen, rest, hrecv⟩ := receive_spec hs
    have hzero : announced conn.bytes = 0 := by omega
    rw [announced_eq_zero (by omega) hzero] at hrecv
    refine ⟨hhead.mp ⟨rest, hrecv⟩, ?_⟩
    obtain ⟨n, rfl⟩ := exists_fuel_of_receive hs
    rw [receive_zero hrecv] at hs
    split at hs
    · cases hs
    next joined hjoined => exact fits_of_strcat_zero hjoined
  · rintro ⟨hseg, hfits⟩
    obtain ⟨rest, hrecv⟩ := hhead.mpr hseg
    have hbytes : conn.bytes = [0, 0, 0, 0] ++ rest.bytes :=
      bytes_of_recv hrecv (show (0 : Int) < 4 by decide)
    obtain ⟨msg, hs⟩ : ∃ msg, receive mem 1 conn = .ok ⟨msg, 4, rest, [(4, 4)]⟩ := by
      rw [receive_zero hrecv, strcat_zero_of_fits hfits]
      exact ⟨_, rfl⟩
    refine ⟨1, _, hs, ?_, ?_⟩
    · intro ask hask
      obtain rfl := List.mem_singleton.mp hask
      exact Nat.le_refl 4
    · have hann : announced conn.bytes = 0 := by
        exact congrArg announced hbytes |>.trans (announced_append (by decide) _)
      rw [hann, hbytes, List.length_append]
      exact Nat.le_refl _

/-- A peer that closes the connection inside the length prefix. -/
theorem not_readsToEnd_closed : ¬ ReadsToEnd zeroMemory ⟨[[0, 0]], by decide, .closed⟩ := by
  rintro ⟨fuel, s, hs, -, -⟩
  obtain ⟨-, -, hlen, -⟩ := receive_spec hs
  have : (Conn.bytes ⟨[[0, 0]], by decide, .closed⟩).length = 2 := rfl
  omega

/-! ## The handshake -/

/-- A connection on which a handshake arrives, and messages behind it. -/
structure Greeted where
  buffer : Mem
  hash : Mem
  peerId : Mem
  payloads : List (List UInt8)
  conn : Conn
  bytes_eq : conn.bytes =
    (MSG.handshake buffer hash peerId).bytes ++ (payloads.map frame).flatten

/-- **The handshake is read as a handshake**: the first section calls `decode` on its 68
bytes, and leaves the messages behind it on the connection. -/
def Greeted.ReadAsHandshake (g : Greeted) (mem : Memory) : Prop :=
  ∃ fuel s, receive mem fuel g.conn = .ok s ∧
    s.msg = (MSG.handshake g.buffer g.hash g.peerId).bytes ∧ s.msgLength = 68 ∧
    s.conn.bytes = (g.payloads.map frame).flatten

/-- The first four bytes of a handshake, taken for a length prefix. -/
theorem announced_handshake (buffer hash peerId : Mem) (rest : List UInt8) :
    announced ((MSG.handshake buffer hash peerId).bytes ++ rest) = 323119476 := by
  have hlen : (MSG.handshake buffer hash peerId).bytes.length = 68 := Mem.slice_length _ _ _
  have hname := MSG.handshake_name buffer hash peerId
  have hbyte : ∀ i < 19, (MSG.handshake buffer hash peerId).msg (1 + i) =
      (Mem.ofList MSG.protocolName fun _ => 0) (0 + i) := by
    intro i hi
    refine Mem.eq_of_slice_eq (hname.trans (Eq.symm ?_)) hi
    exact Mem.slice_ofList MSG.protocolName fun _ => 0
  rw [announced_append (by omega), Encoded.bytes,
    show (MSG.handshake buffer hash peerId).msgByte = 68 from rfl, announced_slice _ (by decide),
    Mem.load32, MSG.handshake_zero, hbyte 0 (by omega), hbyte 1 (by omega), hbyte 2 (by omega)]
  decide

/-- **No handshake is read as one**: the section waits for the 323119476 bytes that its first
four bytes announce. -/
theorem not_readAsHandshake (g : Greeted) (mem : Memory) : ¬ g.ReadAsHandshake mem := by
  rintro ⟨fuel, s, hs, -, hlen, -⟩
  obtain ⟨hspec, -⟩ := receive_spec hs
  rw [g.bytes_eq, announced_handshake] at hspec
  omega

/-- A handshake that arrives in one segment, with nothing behind it. -/
def plainGreeting (buffer hash peerId : Mem) : Greeted where
  buffer := buffer
  hash := hash
  peerId := peerId
  payloads := []
  conn := {
    segments := [(MSG.handshake buffer hash peerId).bytes]
    nonempty := by
      intro seg hseg hnil
      have hlen : (MSG.handshake buffer hash peerId).bytes.length = 68 := Mem.slice_length _ _ _
      rw [← List.mem_singleton.mp hseg, hnil] at hlen
      cases hlen
    ending := .blocks }
  bytes_eq := rfl

theorem plainGreeting_not_readAsHandshake :
    ¬ (plainGreeting (fun _ => 0) (fun _ => 1) fun _ => 2).ReadAsHandshake zeroMemory := by
  rintro ⟨fuel, s, hs, -, hlen, -⟩
  obtain ⟨hspec, -⟩ := receive_spec hs
  rw [(plainGreeting (fun _ => 0) (fun _ => 1) fun _ => 2).bytes_eq, announced_handshake] at hspec
  omega

end TorrentClient
