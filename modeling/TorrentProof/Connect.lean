import Mathlib
import TorrentProof.Decimal
import TorrentProof.Dispatch
import TorrentProof.MsgRoundTrip
import TorrentProof.Send
import TorrentProof.TrackerPeers

/-! # Connecting to the peers of the tracker

`Torrent::Torrent` makes up an id, gives it to the tracker, and then goes through the
peers it gets back: it connects to each and sends a handshake.  The id in the handshake
is the one the tracker gave for the peer.  `identified_iff` says when it is the client's
own nevertheless.
-/
namespace TorrentClient
open Bytes Decimal TrackerConnector

/-- `make_peer_id()`, where the calls of `rand` return `rand 0`, `rand 1`, … -/
def make_peer_id (rand : Nat → Nat) : List UInt8 :=
  (List.range 20).flatMap fun i => render (rand i % 10)

/-- The id is as long as the tracker and the handshake take it to be. -/
theorem length_make_peer_id (rand : Nat → Nat) : (make_peer_id rand).length = 20 := by
  have hone : ∀ i, (render (rand i % 10)).length = 1 := fun i => by
    rw [render_of_lt (Nat.mod_lt _ (by decide)), List.length_singleton]
  rw [make_peer_id, List.length_flatMap]
  simp only [hone, List.map_const', List.length_range, List.sum_replicate, smul_eq_mul]

/-! ## `class peers` -/

/-- The members of `class peers` that are initialised. -/
structure peers where
  sock : Int
  port : Int32
  address : List UInt8
  am_choking : Bool
  peer_choking : Bool
  am_interested : Bool
  peer_interested : Bool
  peer_id : List UInt8

/-- `peers::peers()`. -/
def peers.new : peers := ⟨-1, 0, [], true, true, false, false, []⟩

/-- What `peers::setup` returns, the object afterwards, and the address and port it handed
to `connect`, if it came so far. -/
structure Setup where
  ok : Bool
  after : peers
  endpoint : Option (List UInt8 × UInt16)

/-- `peers::setup(addr, p, id)`, where `socket` and `connect` return what they are called. -/
def peers.setup (this : peers) (socket connect : Int) (addr : List UInt8) (p : Int32)
    (id : List UInt8) : Setup :=
  let sock := if this.sock = -1 then socket else this.sock
  if sock = -1 then ⟨false, { this with sock }, none⟩
  else
    let endpoint := (addr, this.port.toUInt32.toUInt16)
    let this := { this with sock, port := p, address := addr }
    if connect = -1 then ⟨false, this, some endpoint⟩
    else ⟨true, { this with peer_id := id }, some endpoint⟩

/-! ## The handshakes -/

/-- What a round of the loop over the peers finds. -/
structure Round where
  socket : Int
  connect : Int
  /-- what the memory for `msg` holds at first -/
  msg : Mem
  /-- what the memory for `peerid` holds at first -/
  peerid : Mem

/-- `for (j …) peerid[j] = p.peer_id[j];` -/
def Round.peerId (r : Round) (p : peers) : Mem :=
  r.peerid.memcpy 0 (Mem.ofList p.peer_id fun _ => 0) 0 p.peer_id.length

/-- The handshakes given to `Send`, in order, and what ended the loop before its end. -/
structure Handshakes where
  sent : List (List UInt8)
  halt : Option Fault

/-- The loop over the peers. -/
def handshakeLoop (size : SizePtr) (info_hash : Mem) (rounds : Nat → Round) :
    Nat → List peer → Handshakes
  | _, [] => ⟨[], none⟩
  | i, q :: qs =>
    let r := rounds i
    let p := (peers.new.setup r.socket r.connect q.ip q.port q.peer_id).after
    match size with
    -- `*msgByte = 68`
    | .null => ⟨[], some .nullPointer⟩
    | .cell =>
      let rest := handshakeLoop size info_hash rounds (i + 1) qs
      ⟨(MSG.handshake r.msg info_hash (r.peerId p)).bytes :: rest.sent, rest.halt⟩

/-- The id given to the tracker, and the handshakes given to the peers. -/
structure Identity where
  announced : List UInt8
  handshakes : Handshakes

/-- The constructor up to the event loop, for a metafile with the hash `info_hash` and a
tracker that returns `qs`. -/
def identify (size : SizePtr) (rand : Nat → Nat) (info_hash : Vector UInt8 20)
    (rounds : Nat → Round) (qs : List peer) : Identity :=
  let peer_id := make_peer_id rand
  ⟨peer_id, handshakeLoop size (Mem.ofList info_hash.toList fun _ => 0) rounds 0 qs⟩

/-- **One identity everywhere**: every peer is sent a handshake with the hash of the metafile
and the id that was given to the tracker. -/
def Identified (size : SizePtr) (rand : Nat → Nat) (info_hash : Vector UInt8 20)
    (rounds : Nat → Round) (qs : List peer) : Prop :=
  let identity := identify size rand info_hash rounds qs
  identity.handshakes.sent = qs.map fun _ => 19 :: MSG.protocolName ++ List.replicate 8 0 ++
    info_hash.toList ++ identity.announced

/-! ## The bytes of a handshake -/

/-- The reserved bytes stay cleared. -/
theorem handshake_reserved (msg hash peerId : Mem) :
    (MSG.handshake msg hash peerId).msg.slice 20 8 = List.replicate 8 0 := by
  refine List.eq_replicate_iff.mpr ⟨Mem.slice_length _ _ _, ?_⟩
  intro b hb
  obtain ⟨i, hi, rfl⟩ := List.mem_map.mp hb
  have hi := List.mem_range.mp hi
  have hname : MSG.protocolName.length = 19 := rfl
  rw [MSG.handshake]
  dsimp only
  rw [Mem.memcpy_of_not_mem _ _ (by omega), Mem.memcpy_of_not_mem _ _ (by omega),
    Mem.memcpy_of_not_mem _ _ (by omega), Mem.write_of_ne _ _ (by omega),
    Mem.bzero_of_lt _ (by omega)]

theorem handshake_bytes (msg hash peerId : Mem) :
    (MSG.handshake msg hash peerId).bytes = 19 :: MSG.protocolName ++ List.replicate 8 0 ++
      hash.slice 0 20 ++ peerId.slice 0 20 := by
  have h68 : (MSG.handshake msg hash peerId).msgByte = 1 + 19 + 8 + 20 + 20 := rfl
  rw [Encoded.bytes, h68, Mem.slice_add, Mem.slice_add, Mem.slice_add, Mem.slice_add]
  simp only [Nat.zero_add, Nat.reduceAdd]
  rw [MSG.handshake_name, handshake_reserved, MSG.handshake_hash, MSG.handshake_peerId,
    Mem.slice_succ, MSG.handshake_zero]
  rfl

/-! ## Whose id is sent -/

/-- The id that goes into the handshake: the tracker's for the peer, if the connection was
made, and what the memory held behind it. -/
def Round.remoteId (r : Round) (q : peer) : List UInt8 :=
  (r.peerId (peers.new.setup r.socket r.connect q.ip q.port q.peer_id).after).slice 0 20

section Identified
variable {rand : Nat → Nat} {info_hash : Vector UInt8 20} {rounds : Nat → Round} {qs : List peer}

/-- With a size to write to, every peer is sent a handshake, with the id meant for it. -/
theorem sent_handshakeLoop_cell {hash : Mem} {own : List UInt8} {i : Nat} :
    (handshakeLoop .cell hash rounds i qs).sent =
        (qs.map fun _ => 19 :: MSG.protocolName ++ List.replicate 8 0 ++ hash.slice 0 20 ++ own) ↔
      ∀ k (h : k < qs.length), (rounds (i + k)).remoteId qs[k] = own := by
  induction qs generalizing i with
  | nil =>
    constructor
    · intro _ k hk
      exact absurd hk (Nat.not_lt_zero k)
    · intro _
      rfl
  | cons q qs ih =>
    rw [handshakeLoop, List.map_cons]
    dsimp only
    rw [handshake_bytes, List.cons_eq_cons, List.append_cancel_left_eq, ih]
    constructor
    · rintro ⟨hhead, htail⟩ k hk
      cases k with
      | zero => exact hhead
      | succ k =>
        rw [List.getElem_cons_succ, show i + (k + 1) = i + 1 + k from by omega]
        exact htail k (Nat.lt_of_succ_lt_succ hk)
    · intro hall
      refine ⟨hall 0 (Nat.succ_pos _), ?_⟩
      intro k hk
      have := hall (k + 1) (Nat.succ_lt_succ hk)
      rwa [List.getElem_cons_succ, show i + (k + 1) = i + 1 + k from by omega] at this

/-- Without one, the first handshake ends the program. -/
theorem sent_handshakeLoop_null {hash : Mem} {i : Nat} :
    (handshakeLoop .null hash rounds i qs).sent = [] := by
  cases qs with
  | nil => rfl
  | cons q qs => rfl

theorem identified_cell : Identified .cell rand info_hash rounds qs ↔
    ∀ k (h : k < qs.length), (rounds k).remoteId qs[k] = make_peer_id rand := by
  have hhash : (Mem.ofList info_hash.toList fun _ => 0).slice 0 20 = info_hash.toList := by
    have := Mem.slice_ofList info_hash.toList fun _ => 0
    rwa [Vector.length_toList] at this
  have hcell : (handshakeLoop .cell (Mem.ofList info_hash.toList fun _ => 0) rounds 0 qs).sent =
      (qs.map fun _ => 19 :: MSG.protocolName ++ List.replicate 8 0 ++
        (Mem.ofList info_hash.toList fun _ => 0).slice 0 20 ++ make_peer_id rand) ↔
      ∀ k (h : k < qs.length), (rounds (0 + k)).remoteId qs[k] = make_peer_id rand :=
    sent_handshakeLoop_cell
  rw [hhash] at hcell
  simp only [Nat.zero_add] at hcell
  exact hcell

/-- **Exactly when the handshakes carry the client's own id**: when there are none, or the
pointer leads to a size and every peer has the id that was made up. -/
theorem identified_iff (size : SizePtr) : Identified size rand info_hash rounds qs ↔
    qs = [] ∨ size = .cell ∧
      ∀ k (h : k < qs.length), (rounds k).remoteId qs[k] = make_peer_id rand := by
  cases size with
  | null =>
    rw [Identified, identify]
    dsimp only
    rw [sent_handshakeLoop_null]
    constructor
    · intro h
      exact .inl (List.map_eq_nil_iff.mp h.symm)
    · rintro (rfl | ⟨h, -⟩)
      · rfl
      · cases h
  | cell =>
    rw [identified_cell]
    constructor
    · intro h
      exact .inr ⟨rfl, h⟩
    · rintro (rfl | ⟨-, h⟩)
      · intro k hk
        exact absurd hk (Nat.not_lt_zero k)
      · exact h

end Identified

/-- A peer the tracker knows by an id of letters, and a connection that succeeds: the id that
was made up has digits. -/
theorem not_identified_letters : ¬ ∃ size, Identified size (fun _ => 7)
    (Vector.replicate 20 0) (fun _ => ⟨3, 0, fun _ => 0, fun _ => 0⟩)
    [⟨[49, 48, 46, 48, 46, 48, 46, 55], List.replicate 20 65, 6881⟩] := by
  rintro ⟨size, h⟩
  cases size with
  | null => exact absurd (congrArg List.length h) (by decide)
  | cell => exact absurd (identified_cell.mp h 0 (by decide)) (by decide)

end TorrentClient
