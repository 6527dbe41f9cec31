import Mathlib
import TorrentProof.CText
import TorrentProof.Traced

/-! # The peer messages: `MSG`

`MSG::decode` and the encoders of `msg_protocol.cpp`.  A buffer argument is the
memory behind the pointer, so an encoder maps what the buffer held before to what it
holds after, next to the value left in `*msgByte`; `decode` takes the indeterminate
contents of its locals `retMsg` and `chr` as arguments and records its accesses to
the message and to `retMsg.block`.
-/
namespace TorrentClient
open Bytes CText

/-- `MAX_BLOCK`. -/
def MAX_BLOCK : Nat := 16384

/-- `class MSG`.  An array member is the memory from its first byte on: `hash` and
`peerId` have 20 bytes, `block`, the last member, has `MAX_BLOCK`. -/
structure MSG where
  lenPayload : Int32
  msgType : Int32
  index : Int32
  begin : Int32
  blockLen : Int32
  reqLen : Int32
  hash : Mem
  peerId : Mem
  block : Mem
  deriving Inhabited

/-- What an encoder leaves behind: the output buffer, and `*msgByte`. -/
structure Encoded where
  msg : Mem
  msgByte : Nat

/-- The first `*msgByte` bytes of the buffer, which are the message. -/
def Encoded.bytes (e : Encoded) : List UInt8 := e.msg.slice 0 e.msgByte

namespace MSG

/-- The arrays of `decode` whose size its input decides about. -/
inductive Region where
  /-- the buffer `msg` of `msgLength` bytes -/
  | msg
  /-- `retMsg.block`, of `MAX_BLOCK` bytes -/
  | block
  deriving DecidableEq

/-- `"BitTorrent protocol"`. -/
def protocolName : List UInt8 := ascii "BitTorrent protocol"

/-! ## `MSG::decode` -/

/-- `MSG::decode(msg, msgLength)`.  `retMsg` and `chr` are the contents the two
locals happen to have. -/
def decode (retMsg : MSG) (chr : Mem) (msg : Mem) (msgLength : Nat) : Traced Region MSG := do
  if (← Traced.read .msg msg 0) = 19 then
    let chr ← Traced.memcpyFrom .msg chr msg 1 19
    if strEq chr protocolName then
      pure retMsg
    else
      -- `strcmp(chr, handshake) != 0`
      let hash ← Traced.memcpyFrom .msg retMsg.hash msg 28 20
      let peerId ← Traced.memcpyFrom .msg retMsg.peerId msg 48 20
      pure { retMsg with hash, peerId }
  else
    let lenPayload := (← Traced.load32 .msg msg 0).toInt32
    let retMsg := { retMsg with lenPayload }
    if lenPayload = 0 then
      pure retMsg
    else if lenPayload = 1 then
      let msgType := intOfByte (← Traced.read .msg msg 4)
      pure { retMsg with msgType }
    else if lenPayload = 5 then
      let msgType := intOfByte (← Traced.read .msg msg 4)
      pure { retMsg with msgType }
    else if lenPayload = 13 then
      let msgType := intOfByte (← Traced.read .msg msg 4)
      let index := (← Traced.load32 .msg msg 5).toInt32
      let begin := (← Traced.load32 .msg msg 9).toInt32
      let reqLen := (← Traced.load32 .msg msg 13).toInt32
      pure { retMsg with msgType, index, begin, reqLen }
    else
      let msgType := intOfByte (← Traced.read .msg msg 4)
      let index := intOfByte (← Traced.read .msg msg 5)
      let begin := intOfByte (← Traced.read .msg msg 9)
      let retMsg := { retMsg with msgType, index, begin }
      if msgType = 5 then
        pure retMsg
      else if msgType = 7 then
        let block ← Traced.bzero .block retMsg.block MAX_BLOCK
        -- `for (int i = 14; i < (int)msgLength; i++) block[i - 14] = msg[i];`
        let block ← Traced.copyLoop .msg .block msg 14 14
          ((Int32.ofNat msgLength).toInt - 14).toNat block
        -- `msgLength - 14` is computed in `size_t` and cut down to an `int`
        pure { retMsg with block, blockLen := Int32.ofInt (msgLength - 14) }
      else
        pure retMsg

/-! ## The encoders -/

/-- `MSG::handshake(msg, msgByte, hash, peerId)`. -/
def handshake (msg hash peerId : Mem) : Encoded :=
  let msg := msg.bzero 68
  let msg := msg.write 0 19
  let msg := msg.memcpy 1 (Mem.ofList protocolName fun _ => 0) 0 protocolName.length
  let msg := msg.memcpy 28 hash 0 20
  let msg := msg.memcpy 48 peerId 0 20
  ⟨msg, 68⟩

/-- `MSG::keepAlive(msg, msgByte)`. -/
def keepAlive (msg : Mem) : Encoded := ⟨msg.bzero 4, 4⟩

/-- `MSG::choke(msg, msgByte)`: the id stays the zero `bzero` left. -/
def choke (msg : Mem) : Encoded :=
  let msg := msg.bzero 5
  let msg := msg.store32 0 1
  ⟨msg, 5⟩

/-- The body of `unchoke`, `interested` and `notInterested`. -/
def stateMessage (id : UInt8) (msg : Mem) : Encoded :=
  let msg := msg.bzero 5
  let msg := msg.store32 0 1
  let msg := msg.write 4 id
  ⟨msg, 5⟩

/-- `MSG::unchoke(msg, msgByte)`. -/
def unchoke (msg : Mem) : Encoded := stateMessage 1 msg

/-- `MSG::interested(msg, msgByte)`. -/
def interested (msg : Mem) : Encoded := stateMessage 2 msg

/-- `MSG::notInterested(msg, msgByte)`. -/
def notInterested (msg : Mem) : Encoded := stateMessage 3 msg

/-- `MSG::have(msg, msgByte, index)`. -/
def «have» (msg : Mem) (index : Int32) : Encoded :=
  let msg := msg.bzero 9
  let msg := msg.store32 0 5
  let msg := msg.write 4 4
  let msg := msg.store32 5 index.toUInt32
  ⟨msg, 9⟩

/-- The body of `request` and `cancel`: 13 bytes are cleared and 17 are written. -/
def rangeMessage (id : UInt8) (msg : Mem) (index begin length : Int32) : Encoded :=
  let msg := msg.bzero 13
  let msg := msg.store32 0 13
  let msg := msg.write 4 id
  let msg := msg.store32 5 index.toUInt32
  let msg := msg.store32 9 begin.toUInt32
  let msg := msg.store32 13 length.toUInt32
  ⟨msg, 17⟩

/-- `MSG::request(msg, msgByte, index, begin, length)`. -/
def request (msg : Mem) (index begin length : Int32) : Encoded :=
  rangeMessage 6 msg index begin length

/-- `MSG::cancel(msg, msgByte, index, begin, length)`. -/
def cancel (msg : Mem) (index begin length : Int32) : Encoded :=
  rangeMessage 8 msg index begin length

/-- The loop of `piece` from round `i` on, `n` rounds to go:
`msg[14 + i] = block[begin]; begin++;`. -/
def pieceLoop (block : Mem) : Nat → Nat → Int32 → Mem → Mem
  | _, 0, _, msg => msg
  | i, n + 1, begin, msg =>
    pieceLoop block (i + 1) n (begin + 1) (msg.write (14 + i) (block begin.toInt.toNat))

/-- `MSG::piece(msg, msgByte, index, begin, block, blockLen)`.  The id goes to offset
5 and everything behind it one byte further on than in the other encoders. -/
def piece (msg : Mem) (index begin : Int32) (block : Mem) (blockLen : Int32) : Encoded :=
  let msg := msg.bzero (blockLen + 13).toInt.toNat
  let msg := msg.store32 0 (blockLen + 9).toUInt32
  let msg := msg.write 5 7
  let msg := msg.store32 6 index.toUInt32
  let msg := msg.store32 10 begin.toUInt32
  let msg := pieceLoop block 0 blockLen.toInt.toNat begin msg
  ⟨msg, (blockLen + 13).toInt.toNat⟩

end MSG
end TorrentClient
