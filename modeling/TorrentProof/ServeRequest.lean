import Mathlib
import TorrentProof.BlockStore
import TorrentProof.Dispatch
import TorrentProof.Footprint

/-! # The answer to a request

A request is answered with `MSG::piece`, which is handed the vector of the blocks of the
piece where it takes a pointer to bytes, and as the number of bytes the block length of the
decoded message.  `decode` sets no block length for a request, so it is the stack that says
how many bytes are copied (`dispatch_received_request`, `slice_requestBranch`).  Whatever it
says, and whatever is found behind the pointer, the message is none that carries the bytes
asked for: its id is not where the protocol has it (`not_served`).
-/
namespace TorrentClient
open Bytes Framing

/-- The branch for `msgType == 6`, up to the loop that sends: what it builds in a buffer that
held `msg`.  `view` is the memory a vector of blocks is read as. -/
def requestBranch (size : SizePtr) (view : List block_t → Mem) (pieces : Store) (msg : Mem)
    (index begin blockLen : Int32) : Except Stop Encoded :=
  match size with
  -- `*msgByte = 13 + blockLen` through a null pointer
  | .null => .error .fault
  | .cell =>
    if index.toInt < 0 then .error .fault
    else
      -- `pieces[retMsg.index]`
      match pieces[index.toInt.toNat]? with
      | none => .error .fault
      | some blocks =>
        -- as the size of what is cleared, a negative number is a huge one
        if (blockLen + 13).toInt < 0 then .error .fault
        else .ok (MSG.piece msg index begin (view blocks) blockLen)

/-- The stored bytes of a piece: the data of its blocks in the order of their offsets. -/
def storedBytes (blocks : List block_t) : List UInt8 :=
  (blocks.insertionSort fun b b' => b.offset.toInt ≤ b'.offset.toInt).flatMap block_t.data

/-- A request for bytes that are stored. -/
structure StoredRequest where
  pieces : Store
  index : UInt32
  begin : UInt32
  length : UInt32
  /-- the blocks of the piece -/
  blocks : List block_t
  index_lt : index.toNat < 2 ^ 31
  begin_lt : begin.toNat < 2 ^ 31
  blocks_eq : pieces[index.toNat]? = some blocks
  length_pos : 0 < length.toNat
  length_le : length.toNat ≤ MAX_BLOCK
  end_le : begin.toNat + length.toNat ≤ (storedBytes blocks).length

namespace StoredRequest

/-- The bytes asked for. -/
def bytes (r : StoredRequest) : List UInt8 :=
  ((storedBytes r.blocks).drop r.begin.toNat).take r.length.toNat

theorem length_bytes (r : StoredRequest) : r.bytes.length = r.length.toNat := by
  have := r.end_le
  rw [bytes, List.length_take, List.length_drop]
  omega

/-- The message that carries them. -/
def reply (r : StoredRequest) : PeerMessage :=
  .piece r.index r.begin r.bytes (by rw [length_bytes]; exact r.length_le)

/-- **The request is served**: it is received and dispatched to the branch, and what the
branch builds is the message with the index, the offset and the bytes asked for. -/
def Served (r : StoredRequest) (size : SizePtr) (view : List block_t → Mem) (msg behind : Mem)
    (l : Locals) : Prop :=
  ∃ index begin blockLen e,
    dispatch (received behind l (.request r.index r.begin r.length)) =
        .request index begin blockLen ∧
      requestBranch size view r.pieces msg index begin blockLen = .ok e ∧ e.bytes = r.reply.wire

end StoredRequest

/-! ## What the branch builds -/

section Built
variable {size : SizePtr} {view : List block_t → Mem} {pieces : Store} {msg : Mem}
  {index begin blockLen : Int32} {e : Encoded}

/-- What the branch needs to build a message. -/
theorem requestBranch_eq_ok (h : requestBranch size view pieces msg index begin blockLen = .ok e) :
    size = .cell ∧ 0 ≤ index.toInt ∧ 0 ≤ (blockLen + 13).toInt ∧
      ∃ blocks ∈ pieces[index.toInt.toNat]?,
        e = MSG.piece msg index begin (view blocks) blockLen := by
  unfold requestBranch at h
  cases size with
  | null => cases h
  | cell =>
    dsimp only at h
    split at h
    · cases h
    next hneg =>
      split at h
      · cases h
      next blocks hblocks =>
        split at h
        · cases h
        next hlen =>
          refine ⟨rfl, Int.not_lt.mp hneg, Int.not_lt.mp hlen, blocks, hblocks, ?_⟩
          exact (Except.ok.inj h).symm

/-- What `piece` copies is as many bytes as it is told, from the offset on. -/
theorem slice_pieceLoop (block : Mem) (i n : Nat) (begin : Int32) (msg : Mem)
    (h0 : 0 ≤ begin.toInt) (h : begin.toInt + n < 2 ^ 31) :
    (MSG.pieceLoop block i n begin msg).slice (14 + i) n = block.slice begin.toInt.toNat n := by
  induction n generalizing i begin msg with
  | zero => rfl
  | succ n ih =>
    have h1 : (1 : Int32).toInt = 1 := rfl
    have hnext : (begin + 1).toInt = begin.toInt + 1 := toInt_add_of_lt (by omega) (by omega)
    have hfirst : MSG.pieceLoop block (i + 1) n (begin + 1)
        (msg.write (14 + i) (block begin.toInt.toNat)) (14 + i) = block begin.toInt.toNat := by
      rw [(overwrites_pieceLoop _ _ _ _).frame _ _ (by omega), Mem.write_same]
    have hrest := ih (i + 1) (begin + 1) (msg.write (14 + i) (block begin.toInt.toNat))
      (by omega) (by omega)
    have hsucc : (begin + 1).toInt.toNat = begin.toInt.toNat + 1 := by omega
    rw [hsucc] at hrest
    rw [Mem.slice_succ, Mem.slice_succ, MSG.pieceLoop, hfirst, Nat.add_assoc, hrest]

/-- **The block of the message is what is found behind the pointer**, as many bytes of it as
the block length says. -/
theorem slice_requestBranch (h : requestBranch size view pieces msg index begin blockLen = .ok e)
    (h0 : 0 ≤ begin.toInt) (hlen : 0 ≤ blockLen.toInt)
    (hend : begin.toInt + blockLen.toInt < 2 ^ 31) :
    ∃ blocks ∈ pieces[index.toInt.toNat]?, e.msg.slice 14 blockLen.toInt.toNat =
      (view blocks).slice begin.toInt.toNat blockLen.toInt.toNat := by
  obtain ⟨-, -, -, blocks, hblocks, rfl⟩ := requestBranch_eq_ok h
  refine ⟨blocks, hblocks, ?_⟩
  exact slice_pieceLoop _ 0 _ _ _ h0 (by omega)

end Built

/-! ## No request is served -/

/-- The id of a piece is its fifth byte. -/
theorem wire_piece_four {index begin : UInt32} {block : List UInt8}
    {hle : block.length ≤ MAX_BLOCK} :
    (PeerMessage.piece index begin block hle).wire[4]? = some 7 := rfl

/-- What `MSG::piece` writes has another byte there. -/
theorem bytes_piece_ne {msg block : Mem} {index begin blockLen : Int32} {i b : UInt32}
    {data : List UInt8} {hle : data.length ≤ MAX_BLOCK} :
    (MSG.piece msg index begin block blockLen).bytes ≠ (PeerMessage.piece i b data hle).wire := by
  intro hbytes
  have hid : ((MSG.piece msg index begin block blockLen).msg.slice 0
      (blockLen + 13).toInt.toNat)[4]? = some 7 := by
    show (MSG.piece msg index begin block blockLen).bytes[4]? = some 7
    rw [hbytes]
    exact wire_piece_four
  obtain ⟨hlt, hfour⟩ := List.getElem?_eq_some_iff.mp hid
  rw [Mem.slice_length] at hlt
  rw [Mem.getElem_slice, Nat.zero_add, MSG.piece_four _ _ _ _ _ hlt] at hfour
  exact absurd hfour (by decide)

/-- **No request is served.** -/
theorem not_served (r : StoredRequest) (size : SizePtr) (view : List block_t → Mem)
    (msg behind : Mem) (l : Locals) : ¬ r.Served size view msg behind l := by
  rintro ⟨index, begin, blockLen, e, -, hok, hbytes⟩
  obtain ⟨-, -, -, blocks, -, rfl⟩ := requestBranch_eq_ok hok
  exact bytes_piece_ne hbytes

/-- A store of one piece with one byte, which is asked for. -/
def askedByte : StoredRequest where
  pieces := [[⟨0, 0, [65]⟩]]
  index := 0
  begin := 0
  length := 1
  blocks := [⟨0, 0, [65]⟩]
  index_lt := by decide
  begin_lt := by decide
  blocks_eq := rfl
  length_pos := by decide
  length_le := by decide
  end_le := by decide

theorem not_served_askedByte :
    ¬ ∃ size view msg behind l, askedByte.Served size view msg behind l := by
  rintro ⟨size, view, msg, behind, l, index, begin, blockLen, e, -, hok, hbytes⟩
  obtain ⟨-, -, -, blocks, -, rfl⟩ := requestBranch_eq_ok hok
  exact bytes_piece_ne hbytes

end TorrentClient
