import Mathlib
import TorrentProof.Overwrites
import TorrentProof.Send

/-! # The footprint of the encoders

Ten encoders clear a range of the buffer, put their fields into it and report a length.
Which bytes they overwrite follows from where their fields end (`overwrites_encode`).  It
is the length they report for all of them but `piece`, whose fields lie one byte further
on than in the others (`footprint_iff`).
-/
namespace TorrentClient
open Bytes

/-- The offset and the length of each field of a message, as its encoder writes them. -/
def Outgoing.fields : Outgoing → List (Nat × Nat)
  | handshake _ _ => [(0, 1), (1, 19), (28, 20), (48, 20)]
  | framed .keepAlive => [(0, 4)]
  | framed .choke => [(0, 4), (4, 1)]
  | framed .unchoke => [(0, 4), (4, 1)]
  | framed .interested => [(0, 4), (4, 1)]
  | framed .notInterested => [(0, 4), (4, 1)]
  | framed (.have _) => [(0, 4), (4, 1), (5, 4)]
  | framed (.request _ _ _) => [(0, 4), (4, 1), (5, 4), (9, 4), (13, 4)]
  | framed (.cancel _ _ _) => [(0, 4), (4, 1), (5, 4), (9, 4), (13, 4)]
  | framed (.piece a) => [(0, 4), (5, 1), (6, 4), (10, 4), (14, a.blockLen.toInt.toNat)]

/-- Where the last field ends. -/
def Outgoing.extent (o : Outgoing) : Nat := (o.fields.map fun f => f.1 + f.2).foldr max 0

/-- **The encoder keeps to what it reports**: the bytes below `*msgByte` are determined by
the arguments, every field is among them, and the bytes from `*msgByte` on stay. -/
structure Footprint (o : Outgoing) : Prop where
  determined : ∀ msg msg' i, i < (o.encode msg).msgByte →
    (o.encode msg).msg i = (o.encode msg').msg i
  fields : ∀ msg, ∀ f ∈ o.fields, f.1 + f.2 ≤ (o.encode msg).msgByte
  frame : ∀ msg i, (o.encode msg).msgByte ≤ i → (o.encode msg).msg i = msg i

/-! ## What each encoder overwrites -/

theorem overwrites_handshake (hash peerId : Mem) :
    Overwrites (fun msg => (MSG.handshake msg hash peerId).msg) 0 68 :=
  have h0 := overwrites_bzero 68
  have h1 := (overwrites_write 0 19).comp h0 (k := 68) (by omega) (by omega)
  have h2 := (overwrites_memcpy 1 (Mem.ofList MSG.protocolName fun _ => 0) 0
    MSG.protocolName.length).comp h1 (k := 68) (by omega) (by decide)
  have h3 := (overwrites_memcpy 28 hash 0 20).comp h2 (k := 68) (by omega) (by omega)
  (overwrites_memcpy 48 peerId 0 20).comp h3 (by omega) (by omega)

theorem overwrites_choke : Overwrites (fun msg => (MSG.choke msg).msg) 0 5 :=
  (overwrites_store32 0 1).comp (overwrites_bzero 5) (by omega) (by omega)

theorem overwrites_stateMessage (id : UInt8) :
    Overwrites (fun msg => (MSG.stateMessage id msg).msg) 0 5 :=
  (overwrites_write 4 id).comp overwrites_choke (by omega) (by omega)

theorem overwrites_have (index : Int32) :
    Overwrites (fun msg => (MSG.«have» msg index).msg) 0 9 :=
  have h0 := overwrites_bzero 9
  have h1 := (overwrites_store32 0 5).comp h0 (k := 9) (by omega) (by omega)
  have h2 := (overwrites_write 4 4).comp h1 (k := 9) (by omega) (by omega)
  (overwrites_store32 5 index.toUInt32).comp h2 (by omega) (by omega)

/-- The last of the 17 bytes lie behind the 13 that are cleared. -/
theorem overwrites_rangeMessage (id : UInt8) (index begin length : Int32) :
    Overwrites (fun msg => (MSG.rangeMessage id msg index begin length).msg) 0 17 :=
  have h0 := overwrites_bzero 13
  have h1 := (overwrites_store32 0 13).comp h0 (k := 13) (by omega) (by omega)
  have h2 := (overwrites_write 4 id).comp h1 (k := 13) (by omega) (by omega)
  have h3 := (overwrites_store32 5 index.toUInt32).comp h2 (k := 13) (by omega) (by omega)
  have h4 := (overwrites_store32 9 begin.toUInt32).comp h3 (k := 13) (by omega) (by omega)
  (overwrites_store32 13 length.toUInt32).comp h4 (by omega) (by omega)

/-- The loop of `piece` overwrites a byte in each round. -/
theorem overwrites_pieceLoop (block : Mem) (i n : Nat) (begin : Int32) :
    Overwrites (MSG.pieceLoop block i n begin) (14 + i) n := by
  induction n generalizing i begin with
  | zero => exact overwrites_id _
  | succ n ih =>
    exact (ih (i + 1) (begin + 1)).comp
      (overwrites_write (14 + i) (block begin.toInt.toNat)) (by omega) (by omega)

/-- The block of `piece` ends behind its fields. -/
theorem extent_piece_eq (a : MSG.PieceArgs) :
    (Outgoing.framed (.piece a)).extent = 14 + a.blockLen.toInt.toNat := by
  simp only [Outgoing.extent, Outgoing.fields, List.map_cons, List.map_nil, List.foldr_cons,
    List.foldr_nil]
  omega

theorem overwrites_piece (a : MSG.PieceArgs) :
    Overwrites (fun msg => (a.encode msg).msg) 0 (14 + a.blockLen.toInt.toNat) := by
  have hn : (a.blockLen + 13).toInt.toNat = a.blockLen.toInt.toNat + 13 := by
    have h0 := a.blockLen_nonneg
    have hreported : (((a.blockLen + 13).toInt.toNat : Nat) : Int) = a.blockLen.toInt + 13 :=
      a.msgByte_eq fun _ => 0
    omega
  have h0 : Overwrites (Mem.bzero · (a.blockLen + 13).toInt.toNat) 0
      (a.blockLen.toInt.toNat + 13) := by
    rw [← hn]
    exact overwrites_bzero _
  have h1 := (overwrites_store32 0 (a.blockLen + 9).toUInt32).comp h0
    (k := a.blockLen.toInt.toNat + 13) (by omega) (by omega)
  have h2 := (overwrites_write 5 7).comp h1
    (k := a.blockLen.toInt.toNat + 13) (by omega) (by omega)
  have h3 := (overwrites_store32 6 a.index.toUInt32).comp h2
    (k := a.blockLen.toInt.toNat + 13) (by omega) (by omega)
  have h4 := (overwrites_store32 10 a.begin.toUInt32).comp h3
    (k := max 14 (a.blockLen.toInt.toNat + 13)) (by omega) (by omega)
  exact (overwrites_pieceLoop a.block 0 a.blockLen.toInt.toNat a.begin).comp h4
    (by omega) (by omega)

/-- **An encoder overwrites the bytes up to the end of its last field.** -/
theorem overwrites_encode (o : Outgoing) :
    Overwrites (fun msg => (o.encode msg).msg) 0 o.extent := by
  cases o with
  | handshake hash peerId => exact overwrites_handshake hash peerId
  | framed call =>
    cases call with
    | keepAlive => exact overwrites_bzero 4
    | choke => exact overwrites_choke
    | unchoke => exact overwrites_stateMessage 1
    | interested => exact overwrites_stateMessage 2
    | notInterested => exact overwrites_stateMessage 3
    | «have» index => exact overwrites_have index
    | request index begin length => exact overwrites_rangeMessage 6 index begin length
    | cancel index begin length => exact overwrites_rangeMessage 8 index begin length
    | piece a =>
      rw [extent_piece_eq]
      exact overwrites_piece a

/-! ## What is reported -/

/-- The number of bytes reported does not depend on the buffer. -/
theorem msgByte_encode_eq (o : Outgoing) (msg msg' : Mem) :
    (o.encode msg).msgByte = (o.encode msg').msgByte := by
  cases o with
  | handshake hash peerId => rfl
  | framed call => cases call <;> rfl

theorem le_extent {o : Outgoing} {f : Nat × Nat} (h : f ∈ o.fields) : f.1 + f.2 ≤ o.extent :=
  List.le_max_of_le (List.mem_map_of_mem h) (Nat.le_refl _)

/-- The footprint is right exactly if the number of bytes reported is where the last field
ends. -/
theorem footprint_iff_extent (o : Outgoing) :
    Footprint o ↔ ∀ msg, (o.encode msg).msgByte = o.extent := by
  have hover := overwrites_encode o
  constructor
  · intro h msg
    have hreported : Overwrites (fun msg => (o.encode msg).msg) 0 (o.encode msg).msgByte := by
      constructor
      · intro m m' i hi
        have := msgByte_encode_eq o msg m
        exact h.determined m m' i (by omega)
      · intro m i hi
        have := msgByte_encode_eq o msg m
        exact h.frame m i (by omega)
    exact hreported.unique hover
  · intro h
    constructor
    · intro msg msg' i hi
      rw [h] at hi
      exact hover.determined msg msg' i (by omega)
    · intro msg f hf
      rw [h]
      exact le_extent hf
    · intro msg i hi
      rw [h] at hi
      exact hover.frame msg i (by omega)

/-- `piece` reports one byte less than it overwrites. -/
theorem extent_piece (a : MSG.PieceArgs) (msg : Mem) :
    (Outgoing.framed (.piece a)).extent =
      ((Outgoing.framed (.piece a)).encode msg).msgByte + 1 := by
  have h0 := a.blockLen_nonneg
  have hreported := a.msgByte_eq msg
  show _ = (a.encode msg).msgByte + 1
  rw [extent_piece_eq]
  omega

/-- **Exactly which encoders keep to what they report.** -/
theorem footprint_iff (o : Outgoing) : Footprint o ↔ ∀ a, o ≠ .framed (.piece a) := by
  rw [footprint_iff_extent]
  constructor
  · rintro h a rfl
    have hextent := extent_piece a fun _ => 0
    rw [h] at hextent
    omega
  · intro hne msg
    cases o with
    | handshake hash peerId => rfl
    | framed call =>
      cases call with
      | piece a => exact absurd rfl (hne a)
      | _ => rfl

/-- Of a block of two bytes the second is not reported. -/
theorem not_footprint_twoZeros : ¬ Footprint (.framed (.piece MSG.twoZeros)) := by
  intro h
  have hextent := extent_piece MSG.twoZeros fun _ => 0
  rw [(footprint_iff_extent _).mp h] at hextent
  omega

end TorrentClient
