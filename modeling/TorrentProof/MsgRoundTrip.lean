import Mathlib
import TorrentProof.MsgEncode

/-! # Encoded messages, decoded

The messages of one or thirteen bytes of payload come back from `decode` as they were
encoded (`fixed_round_trip`), and so no two of them have the same encoding.  The
handshake is taken apart exactly when the comparison of its protocol name, made on
twenty bytes of which nineteen were copied, comes out as different
(`handled_iff`).
-/
namespace TorrentClient
open Bytes CText
namespace MSG

/-! ## The fixed formats -/

/-- A message whose format leaves `decode` no choice. -/
inductive Fixed where
  | choke
  | unchoke
  | interested
  | notInterested
  | request (index begin length : Int32)
  | cancel (index begin length : Int32)

namespace Fixed

/-- The call that encodes it. -/
def call : Fixed → Call
  | choke => .choke
  | unchoke => .unchoke
  | interested => .interested
  | notInterested => .notInterested
  | request index begin length => .request index begin length
  | cancel index begin length => .cancel index begin length

/-- What the encoder leaves in a buffer that held `msg`. -/
def encode (m : Fixed) (msg : Mem) : Encoded := m.call.encode msg

/-- Its id. -/
def msgType : Fixed → Int32
  | choke => 0
  | unchoke => 1
  | interested => 2
  | notInterested => 3
  | request _ _ _ => 6
  | cancel _ _ _ => 8

/-- Its index, offset and length, if it has them. -/
def range : Fixed → Option (Int32 × Int32 × Int32)
  | request index begin length => some (index, begin, length)
  | cancel index begin length => some (index, begin, length)
  | _ => none

/-- `decode` applied to the encoded bytes. -/
def decoded (m : Fixed) (msg behind : Mem) (retMsg : MSG) (chr : Mem) : MSG :=
  (decode retMsg chr (Mem.ofList (m.encode msg).bytes behind) (m.encode msg).msgByte).val

/-- **The message survives encoding and decoding**: whatever the buffers and the locals of
`decode` held, it is not taken for a handshake, and length, type and range are read
back. -/
def RoundTrips (m : Fixed) : Prop :=
  ∀ msg behind retMsg chr,
    Mem.ofList (m.encode msg).bytes behind 0 ≠ 19 ∧
      (m.decoded msg behind retMsg chr).lenPayload.toInt = (m.encode msg).msgByte - 4 ∧
      (m.decoded msg behind retMsg chr).msgType = m.msgType ∧
      ∀ range ∈ m.range, ((m.decoded msg behind retMsg chr).index,
        (m.decoded msg behind retMsg chr).begin, (m.decoded msg behind retMsg chr).reqLen) = range

/-- The type and the range make up the message. -/
theorem eq_of_range {m m' : Fixed} (ht : m.msgType = m'.msgType)
    (hr : ∀ r ∈ m.range, ∀ r' ∈ m'.range, r = r') : m = m' := by
  cases m with
  | choke => cases m' <;> first | rfl | simp [msgType] at ht
  | unchoke => cases m' <;> first | rfl | simp [msgType] at ht
  | interested => cases m' <;> first | rfl | simp [msgType] at ht
  | notInterested => cases m' <;> first | rfl | simp [msgType] at ht
  | request i b l =>
    cases m' with
    | request i' b' l' =>
      obtain ⟨rfl, rfl, rfl⟩ : i = i' ∧ b = b' ∧ l = l' := by simpa using hr _ rfl _ rfl
      rfl
    | _ => simp [msgType] at ht
  | cancel i b l =>
    cases m' with
    | cancel i' b' l' =>
      obtain ⟨rfl, rfl, rfl⟩ : i = i' ∧ b = b' ∧ l = l' := by simpa using hr _ rfl _ rfl
      rfl
    | _ => simp [msgType] at ht

end Fixed

section Copied
variable {e : Encoded} {behind : Mem}

/-- A field of an encoded message, wherever the bytes are copied to. -/
theorem load32_bytes {off : Nat} (h : off + 4 ≤ e.msgByte) :
    (Mem.ofList e.bytes behind).load32 off = e.msg.load32 off :=
  Mem.load32_congr fun i hi => Mem.ofList_slice _ _ (by omega)

/-- The first bytes of an encoded message whose length is small, wherever they are copied
to: the first is not 19, and the length and the id are the encoded ones. -/
theorem bytes_head (e : Encoded) (behind : Mem) (h5 : 5 ≤ e.msgByte)
    (h : (e.msg.load32 0).toNat < 19 * 2 ^ 24) :
    Mem.ofList e.bytes behind 0 ≠ 19 ∧
      (Mem.ofList e.bytes behind).load32 0 = e.msg.load32 0 ∧
      Mem.ofList e.bytes behind 4 = e.msg 4 := by
  have hL : (Mem.ofList e.bytes behind).load32 0 = e.msg.load32 0 := load32_bytes (by omega)
  refine ⟨?_, hL, Mem.ofList_slice _ _ (by omega)⟩
  intro h19
  have := load32_ge_of_nineteen h19
  rw [hL] at this
  omega

end Copied

/-! ## One byte of payload -/

theorem roundTrips_state (m : Fixed) (hrange : m.range = none)
    (hn : ∀ msg, (m.encode msg).msgByte = 5) (hload : ∀ msg, (m.encode msg).msg.load32 0 = 1)
    (hid : ∀ msg, intOfByte ((m.encode msg).msg 4) = m.msgType) : m.RoundTrips := by
  intro msg behind retMsg chr
  obtain ⟨h19, hL, h4⟩ := bytes_head (m.encode msg) behind (by rw [hn])
    (by rw [hload]; decide)
  rw [hload] at hL
  refine ⟨h19, ?_, ?_, fun r hr => ?_⟩
  · rw [Fixed.decoded, val_decode_one h19 hL, hn]
    rfl
  · rw [Fixed.decoded, val_decode_one h19 hL, ← hid msg, h4]
  · rw [hrange] at hr
    cases hr

theorem stateMessage_four (id : UInt8) (msg : Mem) : (stateMessage id msg).msg 4 = id := by
  show ((msg.bzero 5).store32 0 1).write 4 id 4 = id
  rw [Mem.write_same]

theorem choke_four (msg : Mem) : (choke msg).msg 4 = 0 := by
  show ((msg.bzero 5).store32 0 1) 4 = 0
  rw [Mem.store32_of_not_mem _ _ (by omega), Mem.bzero_of_lt _ (by omega)]

/-! ## Thirteen bytes of payload -/

section Range
variable (id : UInt8) (msg : Mem) (index begin length : Int32)

theorem rangeMessage_four : (rangeMessage id msg index begin length).msg 4 = id := by
  rw [rangeMessage]
  dsimp only
  rw [Mem.store32_of_not_mem _ _ (by omega), Mem.store32_of_not_mem _ _ (by omega),
    Mem.store32_of_not_mem _ _ (by omega), Mem.write_same]

theorem load32_rangeMessage_five :
    (rangeMessage id msg index begin length).msg.load32 5 = index.toUInt32 := by
  rw [rangeMessage, Mem.load32_store32_of_disjoint _ _ (by omega),
    Mem.load32_store32_of_disjoint _ _ (by omega), Mem.load32_store32]

theorem load32_rangeMessage_nine :
    (rangeMessage id msg index begin length).msg.load32 9 = begin.toUInt32 := by
  rw [rangeMessage, Mem.load32_store32_of_disjoint _ _ (by omega), Mem.load32_store32]

theorem load32_rangeMessage_thirteen :
    (rangeMessage id msg index begin length).msg.load32 13 = length.toUInt32 := by
  rw [rangeMessage, Mem.load32_store32]

end Range

theorem roundTrips_range (m : Fixed) (id : UInt8) (index begin length : Int32)
    (hencode : ∀ msg, m.encode msg = rangeMessage id msg index begin length)
    (hid : intOfByte id = m.msgType) (hrange : m.range = some (index, begin, length)) :
    m.RoundTrips := by
  intro msg behind retMsg chr
  have hn : (rangeMessage id msg index begin length).msgByte = 17 := rfl
  rw [Fixed.decoded, hencode msg]
  have hload := load32_rangeMessage id msg index begin length
  obtain ⟨h19, hL, h4⟩ := bytes_head (rangeMessage id msg index begin length) behind
    (by rw [hn]; omega) (by rw [hload]; decide)
  rw [hload] at hL
  rw [rangeMessage_four] at h4
  rw [val_decode_thirteen h19 hL]
  refine ⟨h19, by rw [hn]; rfl, by rw [h4, hid], ?_⟩
  intro r hr
  rw [hrange] at hr
  obtain rfl := Option.some.inj hr
  rw [load32_bytes (by rw [hn]; omega), load32_bytes (by rw [hn]; omega),
    load32_bytes (by rw [hn]), load32_rangeMessage_five, load32_rangeMessage_nine,
    load32_rangeMessage_thirteen]
  rfl

/-- Every fixed format, by the branch of `decode` that reads it. -/
theorem roundTrips (m : Fixed) : m.RoundTrips := by
  cases m with
  | choke =>
    exact roundTrips_state _ rfl (fun _ => rfl) load32_choke fun msg =>
      congrArg intOfByte (choke_four msg)
  | unchoke =>
    exact roundTrips_state _ rfl (fun _ => rfl) (load32_stateMessage 1) fun msg =>
      congrArg intOfByte (stateMessage_four 1 msg)
  | interested =>
    exact roundTrips_state _ rfl (fun _ => rfl) (load32_stateMessage 2) fun msg =>
      congrArg intOfByte (stateMessage_four 2 msg)
  | notInterested =>
    exact roundTrips_state _ rfl (fun _ => rfl) (load32_stateMessage 3) fun msg =>
      congrArg intOfByte (stateMessage_four 3 msg)
  | request index begin length =>
    exact roundTrips_range _ 6 index begin length (fun _ => rfl) rfl rfl
  | cancel index begin length =>
    exact roundTrips_range _ 8 index begin length (fun _ => rfl) rfl rfl

/-- **Messages of a fixed format are read back as they were encoded**, so no two of them
have the same bytes. -/
theorem fixed_round_trip : (∀ m : Fixed, m.RoundTrips) ∧
    ∀ (m m' : Fixed) (msg msg' : Mem), (m.encode msg).bytes = (m'.encode msg').bytes → m = m' := by
  refine ⟨roundTrips, ?_⟩
  intro m m' msg msg' h
  obtain ⟨-, -, htype, hrange⟩ := roundTrips m msg (fun _ => 0) default fun _ => 0
  obtain ⟨-, -, htype', hrange'⟩ := roundTrips m' msg' (fun _ => 0) default fun _ => 0
  have hn : (m.encode msg).msgByte = (m'.encode msg').msgByte := by
    have := congrArg List.length h
    rwa [Encoded.bytes, Mem.slice_length, Encoded.bytes, Mem.slice_length] at this
  have hdecoded : m.decoded msg (fun _ => 0) default (fun _ => 0) =
      m'.decoded msg' (fun _ => 0) default fun _ => 0 := by
    rw [Fixed.decoded, Fixed.decoded, h, hn]
  refine Fixed.eq_of_range (htype ▸ htype' ▸ congrArg MSG.msgType hdecoded) ?_
  intro r hr r' hr'
  rw [← hrange r hr, ← hrange' r' hr', hdecoded]

/-! ## The handshake -/

/-- A message of 68 bytes that begins with 19: one `handshake` wrote, or one with another
protocol name. -/
inductive Greeting where
  | encoded (buffer hash peerId : Mem)
  | misnamed (msg : Vector UInt8 68) (first : msg[0] = 19)
      (name : (msg.toList.drop 1).take 19 ≠ protocolName)

namespace Greeting

/-- Its bytes. -/
def bytes : Greeting → List UInt8
  | encoded buffer hash peerId => (handshake buffer hash peerId).bytes
  | misnamed msg _ _ => msg.toList

/-- `decode` applied to it. -/
def decoded (g : Greeting) (behind : Mem) (retMsg : MSG) (chr : Mem) : MSG :=
  (decode retMsg chr (Mem.ofList g.bytes behind) 68).val

/-- **The handshake is handled**, with `chr` in the local buffer: a proper one gives the
hash and the id it was made from, and from another neither is taken. -/
def Handled (chr : Mem) : Greeting → Prop
  | encoded buffer hash peerId => ∀ behind retMsg,
    ((encoded buffer hash peerId).decoded behind retMsg chr).hash.slice 0 20 = hash.slice 0 20 ∧
      ((encoded buffer hash peerId).decoded behind retMsg chr).peerId.slice 0 20 =
        peerId.slice 0 20
  | misnamed msg first name => ∀ behind retMsg,
    ((misnamed msg first name).decoded behind retMsg chr).hash.slice 0 20 =
        retMsg.hash.slice 0 20 ∧
      ((misnamed msg first name).decoded behind retMsg chr).peerId.slice 0 20 =
        retMsg.peerId.slice 0 20

end Greeting

section Handshake
variable {msg chr : Mem}

/-- The comparison is made on nineteen bytes of the message and one of the stack. -/
theorem strEq_chr : strEq (chr.memcpy 0 msg 1 19) protocolName = true ↔
    msg.slice 1 19 = protocolName ∧ chr 19 = 0 := by
  have hname : (chr.memcpy 0 msg 1 19).slice 0 19 = msg.slice 1 19 := Mem.slice_memcpy _ _ _ _
  have hlast : chr.memcpy 0 msg 1 19 19 = chr 19 := Mem.memcpy_of_not_mem _ _ (by omega)
  rw [strEq, Bool.and_eq_true, beq_iff_eq, beq_iff_eq, show protocolName.length = 19 from rfl,
    hname, hlast]

end Handshake

section Encoded
variable (buffer hash peerId : Mem)

theorem handshake_zero : (handshake buffer hash peerId).msg 0 = 19 := by
  rw [handshake]
  dsimp only
  rw [Mem.memcpy_of_not_mem _ _ (by omega), Mem.memcpy_of_not_mem _ _ (by omega),
    Mem.memcpy_of_not_mem _ _ (by omega), Mem.write_same]

theorem handshake_name : (handshake buffer hash peerId).msg.slice 1 19 = protocolName := by
  have hname : (handshake buffer hash peerId).msg.slice 1 19 =
      (Mem.ofList protocolName fun _ => 0).slice 0 19 := by
    apply Mem.slice_congr
    intro i hi
    have hlen : protocolName.length = 19 := rfl
    rw [handshake]
    dsimp only
    rw [Mem.memcpy_of_not_mem _ _ (by omega), Mem.memcpy_of_not_mem _ _ (by omega),
      Mem.memcpy_of_mem _ _ (by omega), Nat.add_sub_cancel_left]
  rw [hname]
  exact Mem.slice_ofList protocolName fun _ => 0

theorem handshake_hash :
    (handshake buffer hash peerId).msg.slice 28 20 = hash.slice 0 20 := by
  apply Mem.slice_congr
  intro i hi
  rw [handshake]
  dsimp only
  rw [Mem.memcpy_of_not_mem _ _ (by omega), Mem.memcpy_of_mem _ _ (by omega),
    Nat.add_sub_cancel_left]

theorem handshake_peerId :
    (handshake buffer hash peerId).msg.slice 48 20 = peerId.slice 0 20 := by
  apply Mem.slice_congr
  intro i hi
  rw [handshake]
  dsimp only
  rw [Mem.memcpy_of_mem _ _ (by omega), Nat.add_sub_cancel_left]

/-- The bytes of a handshake, wherever they are copied to. -/
theorem slice_handshake_bytes (behind : Mem) {off n : Nat} (h : off + n ≤ 68) :
    (Mem.ofList (handshake buffer hash peerId).bytes behind).slice off n =
      (handshake buffer hash peerId).msg.slice off n :=
  Mem.slice_congr fun i hi => Mem.ofList_slice _ _ (show off + i < 68 by omega)

end Encoded

/-- A handshake is taken apart when the byte behind the copied name is not zero. -/
theorem handled_encoded_iff (buffer hash peerId chr : Mem) :
    (Greeting.encoded buffer hash peerId).Handled chr ↔ chr 19 ≠ 0 := by
  have hfirst : ∀ behind, Mem.ofList (Greeting.encoded buffer hash peerId).bytes behind 0 = 19 :=
    fun behind => (Mem.ofList_slice _ _ (show 0 < 68 by omega)).trans (handshake_zero _ _ _)
  have hstr : ∀ behind, strEq (chr.memcpy 0
      (Mem.ofList (Greeting.encoded buffer hash peerId).bytes behind) 1 19) protocolName = true ↔
        chr 19 = 0 := fun behind =>
    strEq_chr.trans (and_iff_right ((slice_handshake_bytes _ _ _ _ (by omega)).trans
      (handshake_name _ _ _)))
  constructor
  · intro h h0
    -- with a zero behind the name the fields stay what they were
    obtain ⟨hhash, -⟩ := h (fun _ => 0) { (default : MSG) with hash := fun _ => hash 0 + 1 }
    rw [Greeting.decoded, val_decode_handshake (hfirst _), if_pos ((hstr _).mpr h0)] at hhash
    have := Mem.eq_of_slice_eq (i := 0) hhash (by omega)
    dsimp only at this
    exact absurd this (by simp)
  · intro h behind retMsg
    rw [Greeting.decoded, val_decode_handshake (hfirst behind),
      if_neg fun e => h ((hstr behind).mp e)]
    refine ⟨?_, ?_⟩
    · rw [Mem.slice_memcpy]
      exact (slice_handshake_bytes _ _ _ _ (by omega)).trans (handshake_hash _ _ _)
    · rw [Mem.slice_memcpy]
      exact (slice_handshake_bytes _ _ _ _ (by omega)).trans (handshake_peerId _ _ _)

/-- A handshake of another protocol is taken apart whatever the stack held. -/
theorem not_handled_misnamed (msg : Vector UInt8 68) (first : msg[0] = 19)
    (name : (msg.toList.drop 1).take 19 ≠ protocolName) (chr : Mem) :
    ¬ (Greeting.misnamed msg first name).Handled chr := by
  intro h
  have hlen : msg.toList.length = 68 := msg.length_toList
  have hbyte : ∀ i (hi : i < 68), Mem.ofList msg.toList (fun _ => 0) i = msg[i] := fun i hi => by
    rw [Mem.ofList_of_lt (by omega), Vector.getElem_toList]
  have hname : (Mem.ofList msg.toList fun _ => 0).slice 1 19 = (msg.toList.drop 1).take 19 := by
    refine List.ext_getElem (by rw [Mem.slice_length, List.length_take, List.length_drop]; omega)
      fun i hi _ => ?_
    rw [Mem.slice_length] at hi
    rw [Mem.getElem_slice, hbyte _ (by omega), List.getElem_take, List.getElem_drop,
      Vector.getElem_toList]
  obtain ⟨hhash, -⟩ := h (fun _ => 0) { (default : MSG) with hash := fun _ => msg[28] + 1 }
  rw [Greeting.decoded, Greeting.bytes, val_decode_handshake ((hbyte 0 (by omega)).trans first),
    if_neg fun e => name (hname ▸ (strEq_chr.mp e).1)] at hhash
  have := Mem.eq_of_slice_eq (i := 0) hhash (by omega)
  dsimp only at this
  rw [Mem.memcpy_of_mem _ _ (by omega), hbyte 28 (by omega)] at this
  exact absurd this (by simp)

/-- **Exactly which handshakes are handled**, and with what in the local buffer. -/
theorem handled_iff (g : Greeting) (chr : Mem) :
    g.Handled chr ↔ (∃ buffer hash peerId, g = .encoded buffer hash peerId) ∧ chr 19 ≠ 0 := by
  cases g with
  | encoded buffer hash peerId =>
    rw [handled_encoded_iff]
    constructor
    · intro h
      exact ⟨⟨_, _, _, rfl⟩, h⟩
    · rintro ⟨-, h⟩
      exact h
  | misnamed msg first name =>
    refine ⟨fun h => absurd h (not_handled_misnamed msg first name chr), ?_⟩
    rintro ⟨⟨_, _, _, h⟩, -⟩
    cases h

/-- With a zero byte where the stack is not overwritten, the id of a peer is lost. -/
theorem not_handled_terminated :
    ¬ ∀ chr, (Greeting.encoded (fun _ => 0) (fun _ => 1) fun _ => 2).Handled chr := by
  intro h
  exact (handled_encoded_iff _ _ _ _).mp (h fun _ => 0) rfl

end MSG
end TorrentClient
