import Mathlib
import TorrentProof.Framing
import TorrentProof.MsgDecode

/-! # What the encoders put on the wire

Every encoder but `handshake` stores a length prefix and reports a number of bytes.
The two agree for each of them (`framed_encoded`), so the bytes of any sequence of
calls can be cut back into the messages (`split_encoded`).  That does not make
every message decodable: `piece` puts its id one byte further on than `decode` looks
for it, and what it encodes comes back as a choke (`decode_piece_msgType`).
-/
namespace TorrentClient
open Bytes Framing
namespace MSG

/-! ## The encoders with a fixed length -/

theorem load32_keepAlive (msg : Mem) : (keepAlive msg).msg.load32 0 = 0 := by
  show (msg.bzero 4).load32 0 = 0
  rw [Mem.load32, Mem.bzero_of_lt _ (by omega), Mem.bzero_of_lt _ (by omega),
    Mem.bzero_of_lt _ (by omega), Mem.bzero_of_lt _ (by omega)]
  rfl

theorem load32_choke (msg : Mem) : (choke msg).msg.load32 0 = 1 := Mem.load32_store32 _ _ _

theorem load32_stateMessage (id : UInt8) (msg : Mem) : (stateMessage id msg).msg.load32 0 = 1 := by
  rw [stateMessage, Mem.load32_write_of_disjoint _ _ (by omega), Mem.load32_store32]

theorem load32_have (msg : Mem) (index : Int32) : («have» msg index).msg.load32 0 = 5 := by
  rw [«have», Mem.load32_store32_of_disjoint _ _ (by omega),
    Mem.load32_write_of_disjoint _ _ (by omega), Mem.load32_store32]

theorem load32_rangeMessage (id : UInt8) (msg : Mem) (index begin length : Int32) :
    (rangeMessage id msg index begin length).msg.load32 0 = 13 := by
  rw [rangeMessage, Mem.load32_store32_of_disjoint _ _ (by omega),
    Mem.load32_store32_of_disjoint _ _ (by omega), Mem.load32_store32_of_disjoint _ _ (by omega),
    Mem.load32_write_of_disjoint _ _ (by omega), Mem.load32_store32]

/-! ## `piece` -/

/-- The arguments of `piece` for a block inside a buffer of `begin + blockLen` bytes,
with `begin` and the sizes computed without overflow. -/
structure PieceArgs where
  index : Int32
  begin : Int32
  block : Mem
  blockLen : Int32
  begin_nonneg : 0 ≤ begin.toInt
  blockLen_nonneg : 0 ≤ blockLen.toInt
  blockLen_le : blockLen.toInt ≤ 2 ^ 31 - 14
  end_lt : begin.toInt + blockLen.toInt < 2 ^ 31

/-- `MSG::piece` on these arguments. -/
def PieceArgs.encode (a : PieceArgs) (msg : Mem) : Encoded :=
  piece msg a.index a.begin a.block a.blockLen

/-- The loop of `piece` writes from offset 14 on. -/
theorem pieceLoop_of_lt (block : Mem) (i n : Nat) (begin : Int32) (msg : Mem) {j : Nat}
    (h : j < 14) : pieceLoop block i n begin msg j = msg j := by
  induction n generalizing i begin msg with
  | zero => rfl
  | succ n ih =>
    rw [pieceLoop, ih]
    exact Mem.write_of_ne msg _ (by omega)

/-- At offset 4 `piece` leaves the zero of its `bzero`. -/
theorem piece_four (msg : Mem) (index begin : Int32) (block : Mem) (blockLen : Int32)
    (h : 4 < (blockLen + 13).toInt.toNat) : (piece msg index begin block blockLen).msg 4 = 0 := by
  rw [piece]
  dsimp only
  rw [pieceLoop_of_lt _ _ _ _ _ (by omega), Mem.store32_of_not_mem _ _ (by omega),
    Mem.store32_of_not_mem _ _ (by omega), Mem.write_of_ne _ _ (by omega),
    Mem.store32_of_not_mem _ _ (by omega), Mem.bzero_of_lt _ h]

section Piece
variable (a : PieceArgs) (msg : Mem)

/-- The message before its block is copied in. -/
def PieceArgs.header : Mem :=
  ((((msg.bzero (a.blockLen + 13).toInt.toNat).store32 0 (a.blockLen + 9).toUInt32).write 5
    7).store32 6 a.index.toUInt32).store32 10 a.begin.toUInt32

/-- The number of bytes `piece` reports. -/
theorem PieceArgs.msgByte_eq : ((a.encode msg).msgByte : Int) = a.blockLen.toInt + 13 := by
  have h0 := a.blockLen_nonneg
  have h1 := a.blockLen_le
  have h13 : (13 : Int32).toInt = 13 := rfl
  have hsum : (a.blockLen + 13).toInt = a.blockLen.toInt + 13 :=
    toInt_add_of_lt (by omega) (by omega)
  show (((a.blockLen + 13).toInt.toNat : Nat) : Int) = _
  rw [hsum]
  omega

/-- The length it stores, four less. -/
theorem PieceArgs.load32_eq :
    (((a.encode msg).msg.load32 0).toNat : Int) = a.blockLen.toInt + 9 := by
  have h0 := a.blockLen_nonneg
  have h1 := a.blockLen_le
  have h9 : (9 : Int32).toInt = 9 := rfl
  have hsum : (a.blockLen + 9).toInt = a.blockLen.toInt + 9 :=
    toInt_add_of_lt (by omega) (by omega)
  have hloop : (a.encode msg).msg.load32 0 = (a.header msg).load32 0 :=
    Mem.load32_congr fun i hi => pieceLoop_of_lt _ _ _ _ _ (by omega)
  have hload : (a.encode msg).msg.load32 0 = (a.blockLen + 9).toUInt32 := by
    rw [hloop, header, Mem.load32_store32_of_disjoint _ _ (by omega),
      Mem.load32_store32_of_disjoint _ _ (by omega), Mem.load32_write_of_disjoint _ _ (by omega),
      Mem.load32_store32]
  rw [hload, toNat_toUInt32 (by omega), hsum]

/-- Where `decode` looks for the id there is a zero. -/
theorem PieceArgs.id_eq_zero : (a.encode msg).msg 4 = 0 := by
  have h0 := a.blockLen_nonneg
  have hn := a.msgByte_eq msg
  have hlt : 4 < (a.blockLen + 13).toInt.toNat := by
    have : (a.encode msg).msgByte = (a.blockLen + 13).toInt.toNat := rfl
    omega
  exact piece_four msg a.index a.begin a.block a.blockLen hlt

end Piece

/-! ## Decoding an encoded piece -/

section Decoded
variable (a : PieceArgs) (msg behind : Mem) (retMsg : MSG) (chr : Mem)

/-- `decode` applied to the bytes `piece` wrote.  `msg` is what the buffer of `piece`
held before, `behind` follows the message it is copied to, and `retMsg` and `chr` are
the locals of `decode`. -/
def PieceArgs.decoded : MSG :=
  (decode retMsg chr (Mem.ofList (a.encode msg).bytes behind) (a.encode msg).msgByte).val

/-- The decoded message is a piece with the encoded index, offset and block. -/
def PieceArgs.RoundTrips (decoded : MSG) : Prop :=
  decoded.msgType = 7 ∧ decoded.index = a.index ∧ decoded.begin = a.begin ∧
    decoded.blockLen = a.blockLen ∧
    ∀ i, i < a.blockLen.toInt.toNat → decoded.block i = a.block (a.begin.toInt.toNat + i)

/-- An encoded piece is decoded as a choke, whatever its length prefix makes `decode`
branch to. -/
theorem decode_piece_msgType (h : a.blockLen.toInt ≤ MAX_BLOCK) :
    (a.decoded msg behind retMsg chr).msgType = 0 := by
  have h0 := a.blockLen_nonneg
  have hmax : MAX_BLOCK = 16384 := rfl
  have hn := a.msgByte_eq msg
  have hbyte : ∀ i, i < 13 →
      Mem.ofList (a.encode msg).bytes behind i = (a.encode msg).msg i :=
    fun i hi => Mem.ofList_slice _ _ (by omega)
  have hload : (((Mem.ofList (a.encode msg).bytes behind).load32 0).toNat : Int) =
      a.blockLen.toInt + 9 := by
    rw [Mem.load32_congr fun i hi => hbyte (0 + i) (by omega), a.load32_eq msg]
  have hid : Mem.ofList (a.encode msg).bytes behind 4 = 0 := by
    rw [hbyte 4 (by omega), a.id_eq_zero msg]
  have h19 : Mem.ofList (a.encode msg).bytes behind 0 ≠ 19 := by
    intro e
    have := load32_ge_of_nineteen e
    omega
  rw [PieceArgs.decoded]
  by_cases h4 : a.blockLen.toInt = 4
  · have h13 : (Mem.ofList (a.encode msg).bytes behind).load32 0 = 13 :=
      UInt32.toNat_inj.mp (show _ = 13 by omega)
    rw [val_decode_thirteen h19 h13, hid]
    rfl
  · have hother : Other (Mem.ofList (a.encode msg).bytes behind) := by
      refine other_of_not_mem h19 ?_
      simp only [List.mem_cons, List.not_mem_nil, or_false]
      omega
    rw [val_decode_other_of_ne hother (by rw [hid]; decide), hid]
    rfl

/-- **No encoded piece is decoded as the piece it was.** -/
theorem piece_never_round_trips (h : a.blockLen.toInt ≤ MAX_BLOCK) :
    ¬ a.RoundTrips (a.decoded msg behind retMsg chr) := by
  rintro ⟨htype, -⟩
  rw [decode_piece_msgType a msg behind retMsg chr h] at htype
  exact absurd htype (by decide)

end Decoded

/-- The first two bytes of a buffer of zeros, as block of piece 1. -/
def twoZeros : PieceArgs where
  index := 1
  begin := 0
  block := fun _ => 0
  blockLen := 2
  begin_nonneg := by decide
  blockLen_nonneg := by decide
  blockLen_le := by decide
  end_lt := by decide

theorem twoZeros_never_round_trips :
    ¬ twoZeros.RoundTrips (twoZeros.decoded (fun _ => 0) (fun _ => 0) default fun _ => 0) :=
  piece_never_round_trips twoZeros _ _ _ _ (by decide)

theorem twoZeros_not_round_trips :
    ¬ ∀ msg behind retMsg chr, twoZeros.RoundTrips (twoZeros.decoded msg behind retMsg chr) := by
  intro hall
  have htype := (hall (fun _ => 0) (fun _ => 0) default fun _ => 0).1
  rw [decode_piece_msgType _ _ _ _ _ (by decide)] at htype
  exact absurd htype (by decide)

/-! ## Streams of encoded messages -/

/-- A call of an encoder that frames its message. -/
inductive Call where
  | keepAlive
  | choke
  | unchoke
  | interested
  | notInterested
  | «have» (index : Int32)
  | request (index begin length : Int32)
  | cancel (index begin length : Int32)
  | piece (args : PieceArgs)

/-- What the call leaves in a buffer that held `msg`. -/
def Call.encode (msg : Mem) : Call → Encoded
  | keepAlive => MSG.keepAlive msg
  | choke => MSG.choke msg
  | unchoke => MSG.unchoke msg
  | interested => MSG.interested msg
  | notInterested => MSG.notInterested msg
  | «have» index => MSG.«have» msg index
  | request index begin length => MSG.request msg index begin length
  | cancel index begin length => MSG.cancel msg index begin length
  | piece args => args.encode msg

/-- **Every encoder reports four bytes more than it announces.** -/
theorem msgByte_encode (msg : Mem) (c : Call) :
    (c.encode msg).msgByte = 4 + ((c.encode msg).msg.load32 0).toNat := by
  cases c with
  | keepAlive => rw [Call.encode, load32_keepAlive]; rfl
  | choke => rw [Call.encode, load32_choke]; rfl
  | unchoke => rw [Call.encode, unchoke, load32_stateMessage]; rfl
  | interested => rw [Call.encode, interested, load32_stateMessage]; rfl
  | notInterested => rw [Call.encode, notInterested, load32_stateMessage]; rfl
  | «have» index => rw [Call.encode, load32_have]; rfl
  | request index begin length => rw [Call.encode, request, load32_rangeMessage]; rfl
  | cancel index begin length => rw [Call.encode, cancel, load32_rangeMessage]; rfl
  | piece args =>
    have hn := args.msgByte_eq msg
    have hl := args.load32_eq msg
    rw [Call.encode]
    omega

theorem framed_encoded (msg : Mem) (c : Call) : Framed (c.encode msg).bytes := by
  have hn := msgByte_encode msg c
  refine ⟨?_, ?_⟩
  · rw [Encoded.bytes, Mem.slice_length]
    omega
  · rw [Encoded.bytes, announced_slice _ (by omega), Mem.slice_length]
    exact hn

/-- **The encoders produce a self-delimiting stream**: the bytes of any calls, each
into a buffer with any contents, are split back into the messages, in order and
with nothing left over. -/
theorem split_encoded (calls : List (Call × Mem)) :
    split (calls.map fun c => (c.1.encode c.2).bytes).flatten =
      (calls.map fun c => (c.1.encode c.2).bytes, []) := by
  apply split_flatten
  intro m hm
  obtain ⟨c, -, rfl⟩ := List.mem_map.mp hm
  exact framed_encoded c.2 c.1

end MSG
end TorrentClient
