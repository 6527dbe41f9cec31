import Mathlib
import TorrentProof.Framing
import TorrentProof.MsgDecode

/-! # From a received message to a branch of the event loop

The event loop looks at `retMsg.msgType` and, in the branch it takes, at some of the
other fields.  `decode` starts from a local `MSG` nobody initialised, so a field it
does not assign is whatever the stack held.  `dispatch` is the loop's choice of
branch and arguments, `PeerMessage` and `wire` are the messages of the protocol as
bytes, and `dispatch_determined_iff` says for which of them that choice depends on the message
alone.  `received_iff` says when the fields of a piece come out as they were sent.
-/
namespace TorrentClient
open Bytes CText Framing

/-- The branch the event loop takes, with the values it takes from `retMsg`. -/
inductive Action where
  /-- `msgType == 4`: request the blocks of piece `index` -/
  | «have» (index : Int32)
  /-- `msgType == 6`: `m.piece(msg, size, index, begin, pieces[index], blockLen)` -/
  | request (index begin blockLen : Int32)
  /-- `msgType == 7`: `block_t p(index, begin, block)` -/
  | piece (index begin : Int32) (block : List UInt8)
  | ignore
  deriving DecidableEq

/-- The dispatch on `retMsg.msgType` in `Torrent::Torrent`. -/
def dispatch (retMsg : MSG) : Action :=
  if retMsg.msgType = 4 then .«have» retMsg.index
  else if retMsg.msgType = 6 then .request retMsg.index retMsg.begin retMsg.blockLen
  else if retMsg.msgType = 7 then
    .piece retMsg.index retMsg.begin (retMsg.block.slice 0 MAX_BLOCK)
  else .ignore

/-- The messages of the peer protocol. -/
inductive PeerMessage where
  | handshake (reserved : Vector UInt8 8) (infoHash peerId : Vector UInt8 20)
  | keepAlive
  | choke
  | unchoke
  | interested
  | notInterested
  | «have» (index : UInt32)
  | bitfield (bits : List UInt8) (length_lt : bits.length + 1 < 2 ^ 31 - 4)
  | request (index begin length : UInt32)
  | piece (index begin : UInt32) (block : List UInt8) (length_le : block.length ≤ MAX_BLOCK)
  | cancel (index begin length : UInt32)

namespace PeerMessage

/-- The bytes behind the length prefix; the handshake has none. -/
def payload : PeerMessage → List UInt8
  | handshake _ _ _ => []
  | keepAlive => []
  | choke => [0]
  | unchoke => [1]
  | interested => [2]
  | notInterested => [3]
  | «have» index => 4 :: Mem.be32 index
  | bitfield bits _ => 5 :: bits
  | request index begin length => 6 :: (Mem.be32 index ++ Mem.be32 begin ++ Mem.be32 length)
  | piece index begin block _ => 7 :: (Mem.be32 index ++ Mem.be32 begin ++ block)
  | cancel index begin length => 8 :: (Mem.be32 index ++ Mem.be32 begin ++ Mem.be32 length)

/-- The message as it comes over the wire. -/
def wire : PeerMessage → List UInt8
  | handshake reserved infoHash peerId =>
    19 :: MSG.protocolName ++ reserved.toList ++ infoHash.toList ++ peerId.toList
  | m => frame m.payload

end PeerMessage

/-- The indeterminate contents of the locals of `decode`. -/
structure Locals where
  retMsg : MSG
  chr : Mem

/-- `m.decode` on a received message, with `behind` the memory after it. -/
def received (behind : Mem) (l : Locals) (m : PeerMessage) : MSG :=
  (MSG.decode l.retMsg l.chr (Mem.ofList m.wire behind) m.wire.length).val

/-- **The dispatch of `m` depends on `m` only**: whatever the locals held before, the
message type is the same and so is the branch with its arguments, and a keep-alive
or a handshake is not acted on. -/
def Determined (m : PeerMessage) : Prop :=
  ∀ behind,
    (∀ l l', (received behind l m).msgType = (received behind l' m).msgType ∧
      dispatch (received behind l m) = dispatch (received behind l' m)) ∧
    ∀ l, m = .keepAlive ∨ (∃ r h p, m = .handshake r h p) →
      dispatch (received behind l m) = .ignore

/-- The messages for which `decode` assigns everything the event loop reads: none of
handshake, keep-alive, have and request, no piece with a block of 4 bytes, and no
bitfield whose length begins with the byte 19. -/
def Assigned : PeerMessage → Prop
  | .handshake _ _ _ | .keepAlive | .«have» _ | .request _ _ _ => False
  | .piece _ _ block _ => block.length ≠ 4
  | .bitfield bits _ => bits.length + 1 < 19 * 2 ^ 24 ∨ 20 * 2 ^ 24 ≤ bits.length + 1
  | _ => True

/-! ## The first bytes of a framed message -/

section Wire
variable {m : PeerMessage} {behind : Mem} {l : Locals}

/-- A length prefix begins with 19 exactly for the lengths from `19 · 2 ^ 24` on. -/
theorem frame_zero_eq_nineteen (payload : List UInt8) (h : payload.length < 2 ^ 32) :
    Mem.ofList (frame payload) behind 0 = 19 ↔
      19 * 2 ^ 24 ≤ payload.length ∧ payload.length < 20 * 2 ^ 24 := by
  rw [ofList_frame_zero, ← UInt8.toNat_inj, Mem.byteBE, UInt8.toNat_ofNat', UInt32.toNat_ofNat',
    Nat.mod_eq_of_lt h]
  have h19 : (19 : UInt8).toNat = 19 := rfl
  omega

/-- No message of ordinary length begins with 19. -/
theorem frame_zero_ne_nineteen {payload : List UInt8} (h : payload.length < 19 * 2 ^ 24) :
    Mem.ofList (frame payload) behind 0 ≠ 19 := by
  intro heq
  have := ((frame_zero_eq_nineteen payload (by omega)).mp heq).1
  omega

/-- The id is the byte behind the prefix. -/
theorem frame_id (id : UInt8) (rest : List UInt8) :
    Mem.ofList (frame (id :: rest)) behind 4 = id :=
  ofList_frame_payload (id :: rest) behind (Nat.succ_pos rest.length)

/-- The field behind the id. -/
theorem load32_frame_five (id : UInt8) (w : UInt32) (rest : List UInt8) :
    (Mem.ofList (frame (id :: (Mem.be32 w ++ rest))) behind).load32 5 = w := by
  simp [frame, Mem.be32, Mem.load32, Mem.ofList]

/-- The field behind that. -/
theorem load32_frame_nine (id : UInt8) (w w' : UInt32) (rest : List UInt8) :
    (Mem.ofList (frame (id :: (Mem.be32 w ++ Mem.be32 w' ++ rest))) behind).load32 9 = w' := by
  simp [frame, Mem.be32, Mem.load32, Mem.ofList]

/-- The lengths `decode` has no branch of its own for. -/
theorem other_frame (payload : List UInt8) (h : payload.length < 2 ^ 32)
    (h19 : ¬ (19 * 2 ^ 24 ≤ payload.length ∧ payload.length < 20 * 2 ^ 24))
    (hne : payload.length ∉ [0, 1, 5, 13]) : MSG.Other (Mem.ofList (frame payload) behind) := by
  refine MSG.other_of_not_mem (fun e => h19 ((frame_zero_eq_nineteen payload h).mp e)) ?_
  rwa [load32_frame, UInt32.toNat_ofNat', Nat.mod_eq_of_lt h]

/-- A framed message with an id, whose length does not begin with 19, has this id
for its type, whatever branch its length selects. -/
theorem msgType_received (id : UInt8) {rest : List UInt8} (hw : m.wire = frame (id :: rest))
    (hlt : rest.length + 1 < 2 ^ 32)
    (h19 : ¬ (19 * 2 ^ 24 ≤ rest.length + 1 ∧ rest.length + 1 < 20 * 2 ^ 24)) :
    (received behind l m).msgType = intOfByte id := by
  have hfirst : Mem.ofList (frame (id :: rest)) behind 0 ≠ 19 :=
    fun e => h19 ((frame_zero_eq_nineteen (id :: rest) hlt).mp e)
  have hid : Mem.ofList (frame (id :: rest)) behind 4 = id := frame_id id rest
  have hload := load32_frame (id :: rest) behind
  rw [received, hw]
  by_cases hlen : (id :: rest).length ∈ [0, 1, 5, 13]
  · rw [List.length_cons] at hlen hload
    simp only [List.mem_cons, List.not_mem_nil, or_false] at hlen
    rcases hlen with h0 | h1 | h5 | h13
    · omega
    · rw [MSG.val_decode_one hfirst (by rw [hload, h1]; rfl), hid]
    · rw [MSG.val_decode_five hfirst (by rw [hload, h5]; rfl), hid]
    · rw [MSG.val_decode_thirteen hfirst (by rw [hload, h13]; rfl), hid]
  have hother : MSG.Other (Mem.ofList (frame (id :: rest)) behind) :=
    other_frame (id :: rest) hlt h19 hlen
  by_cases h7 : id = 7
  · subst h7
    rw [MSG.val_decode_other_piece hother hid]
    rfl
  · rw [MSG.val_decode_other_of_ne hother (by rwa [hid]), hid]

/-! ## Messages the event loop ignores -/

theorem dispatch_eq_ignore {retMsg : MSG} (h : retMsg.msgType ∉ [4, 6, 7]) :
    dispatch retMsg = .ignore := by
  simp only [List.mem_cons, List.not_mem_nil, or_false, not_or] at h
  obtain ⟨h4, h6, h7⟩ := h
  rw [dispatch, if_neg h4, if_neg h6, if_neg h7]

/-- A message whose type is read off the wire and is none the event loop handles. -/
theorem determined_of_ignored {t : Int32} (ht : t ∉ [4, 6, 7])
    (h : ∀ behind l, (received behind l m).msgType = t) : Determined m := by
  intro behind
  have hig : ∀ l, dispatch (received behind l m) = .ignore := by
    intro l
    apply dispatch_eq_ignore
    rwa [h]
  constructor
  · intro l l'
    exact ⟨by rw [h, h], by rw [hig, hig]⟩
  · intro l _
    exact hig l

/-! ## Messages whose dispatch is left to the stack -/

/-- A message whose type `decode` does not assign. -/
theorem not_determined_of_msgType
    (h : ∀ behind l, (received behind l m).msgType = l.retMsg.msgType) : ¬ Determined m := by
  intro hdet
  have := ((hdet fun _ => 0).1 ⟨{ (default : MSG) with msgType := 4 }, fun _ => 0⟩
    ⟨{ (default : MSG) with msgType := 0 }, fun _ => 0⟩).1
  rw [h, h] at this
  exact absurd this (by decide)

/-- What begins with 19 goes to the handshake branch, which assigns no type. -/
theorem msgType_received_nineteen (h : Mem.ofList m.wire behind 0 = 19) :
    (received behind l m).msgType = l.retMsg.msgType := by
  rw [received, MSG.val_decode_handshake h]
  split
  · rfl
  · rfl

theorem msgType_received_keepAlive :
    (received behind l .keepAlive).msgType = l.retMsg.msgType := by
  rw [received, MSG.val_decode_zero]
  · apply frame_zero_ne_nineteen
    decide
  · exact load32_frame [] behind

/-- `have` leaves the index to the stack. -/
theorem dispatch_received_have (index : UInt32) :
    dispatch (received behind l (.«have» index)) = .«have» l.retMsg.index := by
  rw [received, MSG.val_decode_five]
  · have hid : Mem.ofList (PeerMessage.wire (.«have» index)) behind 4 = 4 :=
      frame_id 4 (Mem.be32 index)
    rw [hid]
    rfl
  · apply frame_zero_ne_nineteen
    simp [PeerMessage.payload]
  · exact load32_frame (4 :: Mem.be32 index) behind

/-- `request` leaves the block length to the stack. -/
theorem dispatch_received_request (index begin length : UInt32) :
    dispatch (received behind l (.request index begin length)) =
      .request index.toInt32 begin.toInt32 l.retMsg.blockLen := by
  rw [received, MSG.val_decode_thirteen]
  · have hid : Mem.ofList (PeerMessage.wire (.request index begin length)) behind 4 = 6 :=
      frame_id 6 _
    have hindex : (Mem.ofList (PeerMessage.wire (.request index begin length)) behind).load32 5 =
        index := by
      rw [PeerMessage.wire, PeerMessage.payload, List.append_assoc, load32_frame_five]
      nofun
    have hbegin : (Mem.ofList (PeerMessage.wire (.request index begin length)) behind).load32 9 =
        begin := load32_frame_nine 6 index begin (Mem.be32 length)
    rw [hid, hindex, hbegin]
    rfl
  · apply frame_zero_ne_nineteen
    simp [PeerMessage.payload]
  · exact load32_frame (6 :: (Mem.be32 index ++ Mem.be32 begin ++ Mem.be32 length)) behind

/-! ## Pieces, field by field -/

theorem payload_piece_length (index begin : UInt32) (block : List UInt8) :
    (7 :: (Mem.be32 index ++ Mem.be32 begin ++ block)).length = block.length + 9 := by
  simp only [List.length_cons, List.length_append, Mem.be32_length]
  omega

/-- **The piece is received**: type, index, offset and the whole block. -/
def Received (behind : Mem) (l : Locals) (index begin : UInt32) (block : List UInt8)
    (hle : block.length ≤ MAX_BLOCK) : Prop :=
  (received behind l (.piece index begin block hle)).msgType = 7 ∧
    (received behind l (.piece index begin block hle)).index = index.toInt32 ∧
    (received behind l (.piece index begin block hle)).begin = begin.toInt32 ∧
    (received behind l (.piece index begin block hle)).blockLen.toInt = block.length ∧
    (received behind l (.piece index begin block hle)).block.slice 0 block.length = block

variable {index begin : UInt32} {block : List UInt8} {hle : block.length ≤ MAX_BLOCK}

theorem wire_piece_length :
    (PeerMessage.piece index begin block hle).wire.length = block.length + 13 :=
  (frame_length _).trans (by rw [PeerMessage.payload, payload_piece_length])

/-- A piece with a block of any length but four is read by the last branch. -/
theorem other_wire_piece (h : block.length ≠ 4) :
    MSG.Other (Mem.ofList (PeerMessage.wire (.piece index begin block hle)) behind) := by
  have hlen := payload_piece_length index begin block
  have hmax : MAX_BLOCK = 16384 := rfl
  refine other_frame (7 :: _) (by omega) (by omega) ?_
  simp only [hlen, List.mem_cons, List.not_mem_nil, or_false]
  omega

/-- In the branch of its own a piece gets a block length that is one too small. -/
theorem blockLen_received_piece (h : block.length ≠ 4) :
    (received behind l (.piece index begin block hle)).blockLen.toInt = block.length - 1 := by
  have hmax : MAX_BLOCK = 16384 := rfl
  rw [received, MSG.val_decode_other_piece (other_wire_piece h) (frame_id 7 _)]
  dsimp only
  rw [wire_piece_length, Int32.toInt_ofInt_of_le (by omega) (by omega)]
  omega

/-- A piece of 13 payload bytes has its index and its offset read as a request has, and
its block is the one of the stack. -/
theorem received_piece_four (h : block.length = 4) :
    received behind l (.piece index begin block hle) =
      { l.retMsg with
        lenPayload := 13, msgType := 7, index := index.toInt32, begin := begin.toInt32,
        reqLen := ((Mem.ofList (PeerMessage.wire (.piece index begin block hle))
          behind).load32 13).toInt32 } := by
  have hlen := payload_piece_length index begin block
  rw [received, MSG.val_decode_thirteen]
  · have hid : Mem.ofList (PeerMessage.wire (.piece index begin block hle)) behind 4 = 7 :=
      frame_id 7 _
    have hindex : (Mem.ofList (PeerMessage.wire (.piece index begin block hle)) behind).load32 5 =
        index := by
      rw [PeerMessage.wire, PeerMessage.payload, List.append_assoc, load32_frame_five]
      nofun
    have hbegin : (Mem.ofList (PeerMessage.wire (.piece index begin block hle)) behind).load32 9 =
        begin := load32_frame_nine 7 index begin block
    rw [hid, hindex, hbegin]
    rfl
  · apply frame_zero_ne_nineteen
    rw [PeerMessage.payload, hlen, h]
    decide
  · exact (load32_frame (7 :: _) behind).trans (by rw [hlen, h]; rfl)

/-- **Exactly when a piece is received**: when its block has four bytes, and the stack
happens to hold this block and its length already. -/
theorem received_iff : Received behind l index begin block hle ↔
    block.length = 4 ∧ l.retMsg.blockLen = 4 ∧ l.retMsg.block.slice 0 4 = block := by
  by_cases h : block.length = 4
  · rw [Received, received_piece_four h, h]
    constructor
    · rintro ⟨-, -, -, hlen, hblock⟩
      exact ⟨rfl, Int32.toInt_inj.mp hlen, hblock⟩
    · rintro ⟨-, hlen, hblock⟩
      exact ⟨rfl, rfl, rfl, congrArg Int32.toInt hlen, hblock⟩
  · constructor
    · rintro ⟨-, -, -, hlen, -⟩
      rw [blockLen_received_piece h] at hlen
      omega
    · rintro ⟨h4, -⟩
      exact absurd h4 h

/-- Four zero bytes, on a stack that is cleared but for the length of the block. -/
theorem received_four_zeros : Received (fun _ => 0) ⟨{ (default : MSG) with blockLen := 4 },
    fun _ => 0⟩ 1 0 (List.replicate 4 0) (by decide) :=
  received_iff.mpr ⟨rfl, rfl, by decide⟩

/-- One byte of piece 1: its length is set to 0. -/
theorem not_received_one_byte :
    ¬ Received (fun _ => 0) ⟨default, fun _ => 0⟩ 1 0 [65] (by decide) := by
  rintro ⟨-, -, -, hlen, -⟩
  rw [blockLen_received_piece (by decide)] at hlen
  exact absurd hlen (by decide)

/-- Such a piece is dispatched with the block of the stack. -/
theorem dispatch_received_piece_four (h : block.length = 4) :
    ∃ i b, dispatch (received behind l (.piece index begin block hle)) =
      .piece i b (l.retMsg.block.slice 0 MAX_BLOCK) := by
  rw [received_piece_four h]
  exact ⟨_, _, rfl⟩

/-- **Any other piece is dispatched by what it carries**, cut down: the first byte of
the index and of the offset, and the block without its first byte, zeros behind it. -/
theorem dispatch_received_piece (h : block.length ≠ 4) :
    dispatch (received behind l (.piece index begin block hle)) =
      .piece (intOfByte (Mem.byteBE index 0)) (intOfByte (Mem.byteBE begin 0))
        (block.tail ++ List.replicate (MAX_BLOCK - block.tail.length) 0) := by
  have hlen := payload_piece_length index begin block
  have hmax : MAX_BLOCK = 16384 := rfl
  have hwire : (PeerMessage.piece index begin block hle).wire =
      frame (7 :: (Mem.be32 index ++ Mem.be32 begin ++ block)) := rfl
  have hindex : Mem.ofList (PeerMessage.wire (.piece index begin block hle)) behind 5 =
      Mem.byteBE index 0 := ofList_frame_payload (7 :: _) behind (i := 1) (by omega)
  have hbegin : Mem.ofList (PeerMessage.wire (.piece index begin block hle)) behind 9 =
      Mem.byteBE begin 0 := ofList_frame_payload (7 :: _) behind (i := 5) (by omega)
  have hcount : ((Int32.ofNat (PeerMessage.wire (.piece index begin block hle)).length).toInt
      - 14).toNat = (PeerMessage.wire (.piece index begin block hle)).length - 14 := by
    rw [Int32.toInt_ofNat_of_lt (by rw [wire_piece_length]; omega)]
    omega
  have hblock : (PeerMessage.wire (.piece index begin block hle)).drop 14 = block.tail := by
    simp [hwire, frame, Mem.be32]
  have htail : (PeerMessage.wire (.piece index begin block hle)).length - 14 =
      block.tail.length := by
    rw [wire_piece_length, List.length_tail]
    omega
  rw [received, MSG.val_decode_other_piece (other_wire_piece h) (frame_id 7 _), hindex, hbegin,
    hcount]
  -- the type just assigned selects the piece branch
  show Action.piece _ _ _ = _
  rw [Mem.slice_memcpy_bzero _ _ _ (by rw [htail, List.length_tail]; omega),
    Mem.slice_ofList_drop, hblock, htail]

/-! ## The messages dispatched by their contents -/

/-- Two contents of the stack are dispatched alike. -/
theorem Determined.dispatch_eq (h : Determined m) (behind : Mem) (l l' : Locals) :
    dispatch (received behind l m) = dispatch (received behind l' m) :=
  ((h behind).1 l l').2

theorem not_determined_have (index : UInt32) : ¬ Determined (.«have» index) := by
  intro hdet
  have heq := hdet.dispatch_eq (fun _ => 0) ⟨{ (default : MSG) with index := 1 }, fun _ => 0⟩
    ⟨{ (default : MSG) with index := 0 }, fun _ => 0⟩
  rw [dispatch_received_have, dispatch_received_have] at heq
  exact absurd heq (by decide)

theorem not_determined_request (index begin length : UInt32) :
    ¬ Determined (.request index begin length) := by
  intro hdet
  have heq := hdet.dispatch_eq (fun _ => 0) ⟨{ (default : MSG) with blockLen := 1 }, fun _ => 0⟩
    ⟨{ (default : MSG) with blockLen := 0 }, fun _ => 0⟩
  rw [dispatch_received_request, dispatch_received_request] at heq
  obtain ⟨-, -, hlen⟩ := Action.request.inj heq
  exact absurd hlen (by decide)

/-- A block of 4 bytes is not read off the message, any other is. -/
theorem determined_piece_iff :
    Determined (.piece index begin block hle) ↔ block.length ≠ 4 := by
  constructor
  · intro hdet h4
    have heq := hdet.dispatch_eq (fun _ => 0)
      ⟨{ (default : MSG) with block := fun _ => 1 }, fun _ => 0⟩
      ⟨{ (default : MSG) with block := fun _ => 0 }, fun _ => 0⟩
    obtain ⟨i, b, h1⟩ := dispatch_received_piece_four h4
    obtain ⟨i', b', h0⟩ := dispatch_received_piece_four h4
    rw [h1, h0] at heq
    obtain ⟨-, -, hblock⟩ := Action.piece.inj heq
    have hbyte := Mem.eq_of_slice_eq (i := 0) hblock (by decide)
    exact absurd hbyte (by decide)
  · intro h4 behind
    refine ⟨fun l l' => ⟨?_, ?_⟩, ?_⟩
    · have hlen : (Mem.be32 index ++ Mem.be32 begin ++ block).length + 1 = block.length + 9 :=
        payload_piece_length index begin block
      have hmax : MAX_BLOCK = 16384 := rfl
      rw [msgType_received 7 rfl (by omega) (by omega),
        msgType_received 7 rfl (by omega) (by omega)]
    · rw [dispatch_received_piece h4, dispatch_received_piece h4]
    · rintro l (h | ⟨_, _, _, h⟩)
      · cases h
      · cases h

/-- A bitfield is taken for a handshake when its length begins with 19. -/
theorem determined_bitfield_iff {bits : List UInt8} {hlt : bits.length + 1 < 2 ^ 31 - 4} :
    Determined (.bitfield bits hlt) ↔
      bits.length + 1 < 19 * 2 ^ 24 ∨ 20 * 2 ^ 24 ≤ bits.length + 1 := by
  constructor
  · intro hdet
    by_contra hnot
    refine not_determined_of_msgType (fun behind l => msgType_received_nineteen ?_) hdet
    refine (frame_zero_eq_nineteen (5 :: bits) (by rw [List.length_cons]; omega)).mpr ?_
    rw [List.length_cons]
    omega
  · intro hbits
    exact determined_of_ignored (t := 5) (by decide) fun _ _ =>
      msgType_received 5 rfl (by omega) (by omega)

/-- **Exactly which messages are dispatched by their contents alone.** -/
theorem dispatch_determined_iff (m : PeerMessage) : Determined m ↔ Assigned m := by
  cases m with
  | handshake r h p =>
    exact iff_of_false (not_determined_of_msgType fun _ _ => msgType_received_nineteen rfl) id
  | keepAlive =>
    exact iff_of_false (not_determined_of_msgType fun _ _ => msgType_received_keepAlive) id
  | «have» index => exact iff_of_false (not_determined_have index) id
  | request index begin length =>
    exact iff_of_false (not_determined_request index begin length) id
  | piece index begin block hle => exact determined_piece_iff
  | bitfield bits hlt => exact determined_bitfield_iff
  | choke =>
    refine iff_of_true (determined_of_ignored (t := 0) (by decide) fun _ _ => ?_) trivial
    exact msgType_received 0 rfl (by decide) (by decide)
  | unchoke =>
    refine iff_of_true (determined_of_ignored (t := 1) (by decide) fun _ _ => ?_) trivial
    exact msgType_received 1 rfl (by decide) (by decide)
  | interested =>
    refine iff_of_true (determined_of_ignored (t := 2) (by decide) fun _ _ => ?_) trivial
    exact msgType_received 2 rfl (by decide) (by decide)
  | notInterested =>
    refine iff_of_true (determined_of_ignored (t := 3) (by decide) fun _ _ => ?_) trivial
    exact msgType_received 3 rfl (by decide) (by decide)
  | cancel index begin length =>
    refine iff_of_true (determined_of_ignored (t := 8) (by decide) fun _ _ => ?_) trivial
    exact msgType_received 8 rfl (by simp) (by simp)

end Wire

/-- The type of a keep-alive is whatever the stack held. -/
theorem keepAlive_not_determined : ¬ Determined .keepAlive :=
  not_determined_of_msgType fun _ _ => msgType_received_keepAlive

end TorrentClient
