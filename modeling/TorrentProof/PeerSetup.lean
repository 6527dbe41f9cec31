import Mathlib
import TorrentProof.CText
import TorrentProof.Connect

/-! # Setting up a peer, again and again

`peers::setup` may be called any number of times on one object.  It fills in the port of
the address from the member, before the member is set, so a call goes to the port of the
call before it (`connectsRight_iff`).  The members are changed before `connect` has
succeeded, and the socket stays when it has not, so the object is left half set up
(`setupSound_iff`).
-/
namespace TorrentClient
open CText TrackerConnector

/-! ## Calls and what they are about -/

/-- A call of `peers::setup`, with what `socket` and `connect` return and what `h.sin_addr`
holds at first. -/
structure SetupCall where
  addr : List UInt8
  p : Int32
  id : List UInt8
  socket : Int
  connect : Int
  stale : Vector UInt8 4

/-- The call on an object. -/
def SetupCall.on (c : SetupCall) (this : peers) : Setup :=
  this.setup c.socket c.connect c.addr c.p c.id

/-- A `sockaddr_in`, the port as a number. -/
structure sockaddr_in where
  sin_addr : Vector UInt8 4
  sin_port : UInt16

/-- What a call hands to `connect`, if it does.  Where `inet_pton` cannot read the address it
leaves `h.sin_addr` alone. -/
def SetupCall.handed (inet_pton : List UInt8 → Option (Vector UInt8 4)) (c : SetupCall)
    (this : peers) : Option sockaddr_in :=
  (c.on this).endpoint.map fun e => ⟨(inet_pton (cstr e.1)).getD c.stale, e.2⟩

/-- One object over a sequence of calls: the calls that were made, and what `connect` returned
in those that came so far. -/
structure Session where
  this : peers
  made : List SetupCall
  connects : List Int

namespace Session

/-- A new object. -/
def new : Session := ⟨peers.new, [], []⟩

def call (s : Session) (c : SetupCall) : Session where
  this := (c.on s.this).after
  made := s.made ++ [c]
  connects := s.connects ++ if (c.on s.this).endpoint.isSome then [c.connect] else []

/-- `P` holds at every call of a sequence. -/
def EveryCall (P : Session → SetupCall → Prop) : Session → List SetupCall → Prop
  | _, [] => True
  | s, c :: cs => P s c ∧ EveryCall P (s.call c) cs

end Session

/-- The calls from the first one that gets a socket on. -/
def reaching (calls : List SetupCall) : List SetupCall := calls.dropWhile (·.socket = -1)

/-! ## What a call does -/

section Call
variable {this : peers} {c : SetupCall}

/-- Without a socket nothing is done. -/
theorem on_of_no_socket (h : this.sock = -1) (hc : c.socket = -1) :
    c.on this = ⟨false, this, none⟩ := by
  obtain ⟨sock, _, _, _, _, _, _, _⟩ := this
  obtain rfl : sock = -1 := h
  simp [SetupCall.on, peers.setup, hc]

/-- With one, `connect` is called with the port the object had. -/
theorem on_of_socket (h : this.sock ≠ -1 ∨ c.socket ≠ -1) :
    ∃ sock, sock ≠ -1 ∧ c.on this =
      ⟨c.connect ≠ -1, { this with
          sock, port := c.p, address := c.addr
          peer_id := if c.connect = -1 then this.peer_id else c.id },
        some (c.addr, this.port.toUInt32.toUInt16)⟩ := by
  have hsock : (if this.sock = -1 then c.socket else this.sock) ≠ -1 := by
    by_cases hs : this.sock = -1
    · simpa [hs] using h
    · simp [hs]
  refine ⟨_, hsock, ?_⟩
  by_cases hc : c.connect = -1
  · simp [SetupCall.on, peers.setup, hsock, hc]
  · simp [SetupCall.on, peers.setup, hsock, hc]

end Call

/-! ## The endpoint -/

section Endpoint
variable (inet_pton : List UInt8 → Option (Vector UInt8 4))

/-- The address is the one `addr` is the text of, and the port is `p`. -/
def Own (h : sockaddr_in) (addr : List UInt8) (p : Int32) : Prop :=
  inet_pton (cstr addr) = some h.sin_addr ∧ (h.sin_port.toNat : Int) = p.toInt

/-- A call connects to its own address and port, if it connects. -/
def ConnectsOwn (s : Session) (c : SetupCall) : Prop :=
  ∀ h ∈ c.handed inet_pton s.this, Own inet_pton h c.addr c.p

/-- The call in a round of the loop over the tracker's peers. -/
def Round.call (r : Round) (q : peer) (stale : Vector UInt8 4) : SetupCall :=
  ⟨q.ip, q.port, q.peer_id, r.socket, r.connect, stale⟩

/-- What the rounds of that loop hand to `connect`, as far as it gets: with the null pointer
the handshake in the first round ends the program. -/
def connections (size : SizePtr) (rounds : Nat → Round) (stale : Nat → Vector UInt8 4) :
    Nat → List peer → List (Option sockaddr_in)
  | _, [] => []
  | i, q :: qs =>
    ((rounds i).call q (stale i)).handed inet_pton peers.new ::
      match size with
      | .null => []
      | .cell => connections size rounds stale (i + 1) qs

/-- The loop connects to every peer for which there is a socket. -/
def LoopConnects (size : SizePtr) (rounds : Nat → Round) (stale : Nat → Vector UInt8 4)
    (qs : List peer) : Prop :=
  ∀ k (hk : k < qs.length), (rounds k).socket ≠ -1 →
    ∃ h, (connections inet_pton size rounds stale 0 qs)[k]? = some (some h) ∧
      Own inet_pton h qs[k].ip qs[k].port

/-- **The connection goes to the endpoint that was given**, in every call on one object and
in every round of the loop over the peers. -/
def ConnectsRight (calls : List SetupCall) (size : SizePtr) (rounds : Nat → Round)
    (stale : Nat → Vector UInt8 4) (qs : List peer) : Prop :=
  Session.new.EveryCall (ConnectsOwn inet_pton) calls ∧
    LoopConnects inet_pton size rounds stale qs

/-- A port and an address a call can be right about. -/
def AtZero (addr : List UInt8) (p : Int32) : Prop := p = 0 ∧ (inet_pton (cstr addr)).isSome

/-- Wherever `connect` is called, the port is 0 and the address can be read; and in the loop
the pointer leads to a size, or there is only the first round. -/
structure ZeroPorts (calls : List SetupCall) (size : SizePtr) (rounds : Nat → Round)
    (qs : List peer) : Prop where
  calls : ∀ c ∈ reaching calls, AtZero inet_pton c.addr c.p
  rounds : ∀ k (hk : k < qs.length), (rounds k).socket ≠ -1 →
    AtZero inet_pton qs[k].ip qs[k].port ∧ (k = 0 ∨ size = .cell)

variable {inet_pton} {this : peers} {c : SetupCall} {s : Session} {cs : List SetupCall}

/-- On an object with port 0, a call that connects is right about port 0 only. -/
theorem own_iff (hport : this.port = 0) (h : this.sock ≠ -1 ∨ c.socket ≠ -1) :
    ∃ a, c.handed inet_pton this = some a ∧
      (Own inet_pton a c.addr c.p ↔ AtZero inet_pton c.addr c.p) := by
  obtain ⟨sock, -, hon⟩ := on_of_socket h
  refine ⟨⟨(inet_pton (cstr c.addr)).getD c.stale, 0⟩, ?_, ?_⟩
  · rw [SetupCall.handed, hon, hport]
    rfl
  · have hp : ((0 : UInt16).toNat : Int) = c.p.toInt ↔ c.p = 0 := by
      rw [← Int32.toInt_inj]
      exact eq_comm
    unfold Own AtZero
    rw [hp, and_comm]
    refine and_congr_right fun _ => ?_
    cases inet_pton (cstr c.addr) with
    | none => simp
    | some a => simp

theorem connectsOwn_iff (hport : s.this.port = 0) (h : s.this.sock ≠ -1 ∨ c.socket ≠ -1) :
    ConnectsOwn inet_pton s c ↔ AtZero inet_pton c.addr c.p := by
  obtain ⟨a, ha, hiff⟩ : ∃ a, c.handed inet_pton s.this = some a ∧
      (Own inet_pton a c.addr c.p ↔ AtZero inet_pton c.addr c.p) := own_iff hport h
  rw [← hiff]
  simp [ConnectsOwn, ha]

/-- Once there is a socket it stays, with the port of the last call. -/
theorem call_of_socket (h : s.this.sock ≠ -1 ∨ c.socket ≠ -1) :
    (s.call c).this.sock ≠ -1 ∧ (s.call c).this.port = c.p := by
  obtain ⟨sock, hsock, hon⟩ := on_of_socket h
  rw [Session.call, hon]
  exact ⟨hsock, rfl⟩

theorem everyCall_connectsOwn_of_socket (hsock : s.this.sock ≠ -1) (hport : s.this.port = 0) :
    s.EveryCall (ConnectsOwn inet_pton) cs ↔ ∀ c ∈ cs, AtZero inet_pton c.addr c.p := by
  induction cs generalizing s with
  | nil => simp [Session.EveryCall]
  | cons c cs ih =>
    obtain ⟨hsock', hport'⟩ := call_of_socket (.inl hsock)
    rw [Session.EveryCall, List.forall_mem_cons, connectsOwn_iff hport (.inl hsock)]
    refine and_congr_right fun hc => ih hsock' ?_
    rw [hport', hc.1]

/-- **In the calls on an object without a socket**, the first one that connects is to port 0,
and so are the others. -/
theorem everyCall_connectsOwn_iff (hsock : s.this.sock = -1) (hport : s.this.port = 0) :
    s.EveryCall (ConnectsOwn inet_pton) cs ↔ ∀ c ∈ reaching cs, AtZero inet_pton c.addr c.p := by
  induction cs generalizing s with
  | nil => simp [Session.EveryCall, reaching]
  | cons c cs ih =>
    rw [Session.EveryCall, reaching, List.dropWhile_cons]
    by_cases hc : c.socket = -1
    · have hon := on_of_no_socket hsock hc
      have hthis : (s.call c).this = s.this := by rw [Session.call, hon]
      have hown : ConnectsOwn inet_pton s c := by simp [ConnectsOwn, SetupCall.handed, hon]
      rw [if_pos (by simpa using hc), ← reaching,
        ← ih (by rw [hthis, hsock]) (by rw [hthis, hport])]
      exact and_iff_right hown
    · obtain ⟨hsock', hport'⟩ := call_of_socket (.inr hc)
      rw [if_neg (by simpa using hc), List.forall_mem_cons, connectsOwn_iff hport (.inr hc)]
      refine and_congr_right fun h => everyCall_connectsOwn_of_socket hsock' ?_
      rw [hport', h.1]

/-! ## The loop over the peers -/

section Loop
variable {size : SizePtr} {rounds : Nat → Round} {stale : Nat → Vector UInt8 4} {qs : List peer}

/-- The rounds that are made: all, or the first. -/
theorem getElem?_connections {i k : Nat} (hk : k < qs.length) :
    (connections inet_pton size rounds stale i qs)[k]? =
      if k = 0 ∨ size = .cell then
        some (((rounds (i + k)).call qs[k] (stale (i + k))).handed inet_pton peers.new)
      else none := by
  induction qs generalizing i k with
  | nil => exact absurd hk (Nat.not_lt_zero k)
  | cons q qs ih =>
    cases k with
    | zero => simp [connections]
    | succ k =>
      cases size with
      | null => simp [connections]
      | cell =>
        have hrest := ih (i := i + 1) (Nat.lt_of_succ_lt_succ hk)
        simp only [or_true, if_true] at hrest
        simp [connections, hrest, Nat.add_assoc, Nat.add_comm 1 k]

theorem loopConnects_iff : LoopConnects inet_pton size rounds stale qs ↔
    ∀ k (hk : k < qs.length), (rounds k).socket ≠ -1 →
      AtZero inet_pton qs[k].ip qs[k].port ∧ (k = 0 ∨ size = .cell) := by
  refine forall_congr' fun k => forall_congr' fun hk => forall_congr' fun hsock => ?_
  rw [getElem?_connections hk, Nat.zero_add]
  obtain ⟨a, ha, hiff⟩ :
      ∃ a, ((rounds k).call qs[k] (stale k)).handed inet_pton peers.new = some a ∧
        (Own inet_pton a qs[k].ip qs[k].port ↔ AtZero inet_pton qs[k].ip qs[k].port) :=
    own_iff rfl (.inr hsock)
  by_cases hmade : k = 0 ∨ size = .cell
  · rw [if_pos hmade, ha]
    simp only [Option.some.injEq, exists_eq_left', hmade, and_true]
    exact hiff
  · simp [hmade]

/-- **Exactly when the connection goes to the endpoint that was given.** -/
theorem connectsRight_iff {calls : List SetupCall} :
    ConnectsRight inet_pton calls size rounds stale qs ↔
      ZeroPorts inet_pton calls size rounds qs := by
  rw [ConnectsRight, everyCall_connectsOwn_iff rfl rfl, loopConnects_iff]
  constructor
  · intro h
    exact ⟨h.1, h.2⟩
  · intro h
    exact ⟨h.calls, h.rounds⟩

end Loop
end Endpoint

/-- The first call, to port 6881, connects to port 0. -/
theorem not_connectsRight_first : ¬ ∃ inet_pton size rounds stale qs, ConnectsRight inet_pton
    [⟨ascii "10.0.0.7", 6881, [], 3, 0, Vector.replicate 4 0⟩] size rounds stale qs := by
  rintro ⟨inet_pton, size, rounds, stale, qs, h⟩
  have hzero := (everyCall_connectsOwn_iff rfl rfl).mp h.1 _ List.mem_cons_self
  exact absurd hzero.1 (by decide)

/-! ## Failed calls -/

/-- The object says the same of its peer, and counts as connected as before. -/
structure Kept (this after : peers) : Prop where
  port : after.port = this.port
  address : after.address = this.address
  peer_id : after.peer_id = this.peer_id
  connected : after.sock = -1 ↔ this.sock = -1

/-- A call that returns false keeps the object. -/
def KeepsOnFailure (this : peers) (c : SetupCall) : Prop :=
  (c.on this).ok = false → Kept this (c.on this).after

/-- The socket `peers::Send` calls `send` on. -/
def peers.sendsOn (this : peers) : Option Int := if this.sock ≠ -1 then some this.sock else none

/-- Without such a socket it returns false. -/
theorem send_of_sendsOn {this : peers} {ret : Int} (h : this.sendsOn = none) :
    Send this.sock ret = false := by
  by_cases hs : this.sock = -1
  · simp [Send, hs]
  · simp [peers.sendsOn, hs] at h

namespace Session

/-- All fields are about the same peer: that of one call, or the constructor's. -/
def Describes (s : Session) : Prop :=
  (s.this.port = peers.new.port ∧ s.this.address = peers.new.address ∧
      s.this.peer_id = peers.new.peer_id) ∨
    ∃ c ∈ s.made, s.this.port = c.p ∧ s.this.address = c.addr ∧ s.this.peer_id = c.id

/-- What is sent on is a socket whose last `connect` has succeeded. -/
def SendsConnected (s : Session) : Prop :=
  ∀ sock ∈ s.this.sendsOn, ∃ ret ∈ s.connects.getLast?, ret ≠ -1

/-- A call keeps the object if it fails, and leaves it fit for use. -/
structure Sound (s : Session) (c : SetupCall) : Prop where
  keeps : KeepsOnFailure s.this c
  describes : (s.call c).Describes
  sends : (s.call c).SendsConnected

variable {s : Session} {c : SetupCall} {cs : List SetupCall}

/-- A call with a socket is sound if `connect` succeeds. -/
theorem sound_iff_of_socket (h : s.this.sock ≠ -1 ∨ c.socket ≠ -1) :
    s.Sound c ↔ c.connect ≠ -1 := by
  obtain ⟨sock, hsock, hon⟩ := on_of_socket h
  have hlast : (s.call c).connects.getLast? = some c.connect := by
    rw [call, hon]
    simp
  have hsends : (s.call c).this.sendsOn = some sock := by
    rw [call, hon]
    simp [peers.sendsOn, hsock]
  constructor
  · intro hsound
    obtain ⟨ret, hret, hne⟩ := hsound.sends sock hsends
    rw [hlast] at hret
    rwa [Option.some.inj hret]
  · intro hc
    refine ⟨?_, .inr ⟨c, ?_, ?_⟩, ?_⟩
    · intro hok
      simp [hon, hc] at hok
    · rw [call]
      exact List.mem_append_right _ List.mem_cons_self
    · rw [call, hon]
      simp [hc]
    · intro sock' _
      exact ⟨c.connect, hlast, hc⟩

theorem everyCall_sound_of_socket (hsock : s.this.sock ≠ -1) :
    s.EveryCall Sound cs ↔ ∀ c ∈ cs, c.connect ≠ -1 := by
  induction cs generalizing s with
  | nil => simp [EveryCall]
  | cons c cs ih =>
    rw [EveryCall, List.forall_mem_cons, sound_iff_of_socket (.inl hsock),
      ih (call_of_socket (.inl hsock)).1]

/-- A call without a socket is sound, and changes nothing. -/
theorem sound_of_no_socket (hsock : s.this.sock = -1) (hc : c.socket = -1) (hs : s.Describes) :
    s.Sound c ∧ (s.call c).this = s.this := by
  have hon := on_of_no_socket hsock hc
  have hthis : (s.call c).this = s.this := by rw [call, hon]
  refine ⟨⟨?_, ?_, ?_⟩, hthis⟩
  · intro _
    rw [hon]
    exact ⟨rfl, rfl, rfl, Iff.rfl⟩
  · rcases hs with hnew | ⟨c', hc', heq⟩
    · left
      rwa [hthis]
    · right
      refine ⟨c', List.mem_append_left _ hc', ?_⟩
      rwa [hthis]
  · intro sock hmem
    simp [hthis, peers.sendsOn, hsock] at hmem

/-- **In the calls on an object without a socket**, all goes well until a `connect` fails. -/
theorem everyCall_sound_iff (hsock : s.this.sock = -1) (hs : s.Describes) :
    s.EveryCall Sound cs ↔ ∀ c ∈ reaching cs, c.connect ≠ -1 := by
  induction cs generalizing s with
  | nil => simp [EveryCall, reaching]
  | cons c cs ih =>
    rw [EveryCall, reaching, List.dropWhile_cons]
    by_cases hc : c.socket = -1
    · obtain ⟨hsound, hthis⟩ := sound_of_no_socket hsock hc hs
      rw [if_pos (by simpa using hc), ← reaching, ← ih (by rw [hthis, hsock]) hsound.describes]
      exact and_iff_right hsound
    · rw [if_neg (by simpa using hc), List.forall_mem_cons, sound_iff_of_socket (.inr hc),
        everyCall_sound_of_socket (call_of_socket (.inr hc)).1]

end Session

/-- **A call fails without a trace** if `connect` is not called, or succeeds, or there was a
connection to the same endpoint. -/
theorem keepsOnFailure_iff {this : peers} {c : SetupCall} : KeepsOnFailure this c ↔
    (this.sock ≠ -1 ∨ c.socket ≠ -1 → c.connect = -1 →
      this.sock ≠ -1 ∧ this.port = c.p ∧ this.address = c.addr) := by
  by_cases h : this.sock ≠ -1 ∨ c.socket ≠ -1
  · obtain ⟨sock, hsock, hon⟩ := on_of_socket h
    by_cases hc : c.connect = -1
    · constructor
      · intro hkeep _ _
        have hkept := hkeep (by simp [hon, hc])
        rw [hon] at hkept
        exact ⟨fun hs => hsock (hkept.connected.mpr hs), hkept.port.symm, hkept.address.symm⟩
      · intro hsame _
        obtain ⟨hs, hport, haddress⟩ := hsame h hc
        rw [hon]
        exact ⟨hport.symm, haddress.symm, if_pos hc, iff_of_false hsock hs⟩
    · simp [KeepsOnFailure, hon, hc]
  · have hnot := h
    rw [not_or, not_not, not_not] at hnot
    have hon := on_of_no_socket hnot.1 hnot.2
    simp only [h, false_imp_iff, iff_true]
    intro _
    rw [hon]
    exact ⟨rfl, rfl, rfl, Iff.rfl⟩

/-- **A failed setup leaves the peer as it was**: a call on any object, and the calls of a
sequence on a new one, after each of which the object is fit for use. -/
def SetupSound (this : peers) (c : SetupCall) (calls : List SetupCall) : Prop :=
  KeepsOnFailure this c ∧ Session.new.EveryCall Session.Sound calls

/-- `connect` fails in no call of the sequence, and in the single one only where the object
was connected to the same endpoint already. -/
structure ConnectSucceeds (this : peers) (c : SetupCall) (calls : List SetupCall) : Prop where
  single : this.sock ≠ -1 ∨ c.socket ≠ -1 → c.connect = -1 →
    this.sock ≠ -1 ∧ this.port = c.p ∧ this.address = c.addr
  calls : ∀ c ∈ reaching calls, c.connect ≠ -1

/-- **Exactly when a failed setup leaves the peer as it was.** -/
theorem setupSound_iff {this : peers} {c : SetupCall} {calls : List SetupCall} :
    SetupSound this c calls ↔ ConnectSucceeds this c calls := by
  have hnew : Session.new.Describes := .inl ⟨rfl, rfl, rfl⟩
  rw [SetupSound, keepsOnFailure_iff, Session.everyCall_sound_iff rfl hnew]
  constructor
  · intro h
    exact ⟨h.1, h.2⟩
  · intro h
    exact ⟨h.single, h.calls⟩

/-- A connection that is refused leaves port, address and a socket to send on. -/
theorem not_setupSound_refused : ¬ ∃ calls, SetupSound peers.new
    ⟨ascii "10.0.0.7", 6881, [], 3, -1, Vector.replicate 4 0⟩ calls := by
  rintro ⟨calls, h⟩
  exact (keepsOnFailure_iff.mp h.1 (by decide) rfl).1 rfl

end TorrentClient
