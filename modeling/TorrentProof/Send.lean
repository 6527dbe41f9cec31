import Mathlib
import TorrentProof.MsgEncode
import TorrentProof.Receive

/-! # Sending a message

The event loop sends what an encoder wrote in a loop around `send`, three times over in
the same words, and `peers::Send` sends with a single call.  The loop offers the message
from its first byte on in every round, and reads its size through a pointer that is
null.  `sentWhole_iff` says that it sends a message byte for byte only if the pointer
leads somewhere and the first `send` takes everything.
-/
namespace TorrentClient
open Bytes Fallible

/-- What `size_t *size` holds. -/
inductive SizePtr where
  /-- `NULL`, the value it is declared with -/
  | null
  /-- the address of a `size_t` -/
  | cell
  deriving DecidableEq

/-- A peer that takes at most `want k` bytes of what the `k`-th call of `send` offers, but
at least one. -/
structure Taker where
  want : Nat → Nat
  pos : ∀ k, 0 < want k

/-- What the `k`-th call of `send` returns for `offered` bytes. -/
def Taker.taken (t : Taker) (k offered : Nat) : Nat := min (t.want k) offered

/-- `while (numBytes < n) numBytes += send(fd, msg, n - numBytes, 0);` from call `k` on: the
offsets in `msg` of the bytes that are sent, in order. -/
def sendLoop (t : Taker) (n : Int) : Nat → Nat → Int → Except Stop (List Nat)
  | fuel, k, numBytes =>
    if numBytes < n then
      match fuel with
      | 0 => .error .running
      | fuel + 1 => do
        let ret := t.taken k (n - numBytes).toNat
        let rest ← sendLoop t n fuel (k + 1) (numBytes + ret)
        pure (List.range ret ++ rest)
    else .ok []

/-- The loop for a message whose length the encoder left in `*size`. -/
def sendMessage (size : SizePtr) (t : Taker) (fuel : Nat) (e : Encoded) :
    Except Stop (List Nat) :=
  match size with
  | .null => .error .fault
  | .cell => sendLoop t (Int32.ofNat e.msgByte).toInt fuel 0 0

/-- `peers::Send(data, size)` on the socket `sock`, where `send` returns `ret`. -/
def Send (sock ret : Int) : Bool :=
  if sock ≠ -1 then
    if ret < 0 then false else true
  else false

/-! ## Messages to send -/

/-- A message an encoder writes. -/
inductive Outgoing where
  | handshake (hash peerId : Mem)
  | framed (call : MSG.Call)

/-- What its encoder leaves in a buffer that held `msg`. -/
def Outgoing.encode (msg : Mem) : Outgoing → Encoded
  | handshake hash peerId => MSG.handshake msg hash peerId
  | framed call => call.encode msg

theorem MSG.PieceArgs.msgByte_lt (a : MSG.PieceArgs) (msg : Mem) :
    (a.encode msg).msgByte < 2 ^ 31 := by
  have := a.msgByte_eq msg
  have := a.blockLen_le
  omega

/-- A message is not empty, and its length is an `int`. -/
theorem Outgoing.msgByte_bounds (m : Outgoing) (msg : Mem) :
    0 < (m.encode msg).msgByte ∧ (m.encode msg).msgByte < 2 ^ 31 := by
  cases m with
  | handshake hash peerId => exact ⟨show 0 < 68 by decide, show 68 < 2 ^ 31 by decide⟩
  | framed call =>
    refine ⟨?_, ?_⟩
    · have := MSG.msgByte_encode msg call
      show 0 < (call.encode msg).msgByte
      omega
    · cases call with
      | piece args => exact args.msgByte_lt msg
      | keepAlive => exact show 4 < 2 ^ 31 by decide
      | choke => exact show 5 < 2 ^ 31 by decide
      | unchoke => exact show 5 < 2 ^ 31 by decide
      | interested => exact show 5 < 2 ^ 31 by decide
      | notInterested => exact show 5 < 2 ^ 31 by decide
      | «have» index => exact show 9 < 2 ^ 31 by decide
      | request index begin length => exact show 17 < 2 ^ 31 by decide
      | cancel index begin length => exact show 17 < 2 ^ 31 by decide

/-! ## The loop -/

section Loop
variable (t : Taker) {n : Int}

/-- Every call of `send` takes something. -/
theorem Taker.taken_pos (k : Nat) {offered : Nat} (h : 0 < offered) : 0 < t.taken k offered := by
  rw [Taker.taken, Nat.lt_min]
  exact ⟨t.pos k, h⟩

/-- So the loop comes to its end. -/
theorem sendLoop_ok (fuel k : Nat) (numBytes : Int) (h : n - numBytes ≤ fuel) :
    ∃ sent, sendLoop t n fuel k numBytes = .ok sent := by
  induction fuel generalizing k numBytes with
  | zero =>
    unfold sendLoop
    rw [if_neg (by omega)]
    exact ⟨[], rfl⟩
  | succ fuel ih =>
    unfold sendLoop
    by_cases hlt : numBytes < n
    · rw [if_pos hlt]
      have hpos : 0 < t.taken k (n - numBytes).toNat := t.taken_pos k (by omega)
      obtain ⟨rest, hrest⟩ := ih (k + 1) (numBytes + t.taken k (n - numBytes).toNat) (by omega)
      dsimp only
      rw [hrest, ok_bind]
      exact ⟨_, rfl⟩
    · rw [if_neg hlt]
      exact ⟨[], rfl⟩

/-- A round of the loop sends the message from its start. -/
theorem sendLoop_step {fuel k : Nat} {numBytes : Int} {sent : List Nat} (h : numBytes < n)
    (hok : sendLoop t n fuel k numBytes = .ok sent) :
    ∃ m rest, sendLoop t n m (k + 1) (numBytes + t.taken k (n - numBytes).toNat) = .ok rest ∧
      sent = List.range (t.taken k (n - numBytes).toNat) ++ rest := by
  unfold sendLoop at hok
  rw [if_pos h] at hok
  cases fuel with
  | zero => cases hok
  | succ m =>
    dsimp only at hok
    obtain ⟨rest, hrest, hok⟩ := bind_eq_ok.mp hok
    exact ⟨m, rest, hrest, (Except.ok.inj hok).symm⟩

/-- The first round of the loop offers the whole message. -/
theorem sendLoop_start {fuel len : Nat} {sent : List Nat} (h : 0 < len)
    (hok : sendLoop t len fuel 0 0 = .ok sent) :
    ∃ m rest, sendLoop t len m 1 (t.taken 0 len) = .ok rest ∧
      sent = List.range (t.taken 0 len) ++ rest := by
  obtain ⟨m, rest, hrest, hsent⟩ := sendLoop_step t (by omega) hok
  rw [Int.sub_zero, Int.toNat_natCast] at hrest hsent
  rw [Int.zero_add] at hrest
  exact ⟨m, rest, hrest, hsent⟩

theorem sendLoop_of_le {fuel k : Nat} {numBytes : Int} (h : n ≤ numBytes) :
    sendLoop t n fuel k numBytes = .ok [] := by
  unfold sendLoop
  rw [if_neg (by omega)]

/-- What is sent with bytes left to send starts with the first byte again. -/
theorem head?_of_sendLoop {fuel k : Nat} {numBytes : Int} {sent : List Nat} (h : numBytes < n)
    (hok : sendLoop t n fuel k numBytes = .ok sent) : sent.head? = some 0 := by
  obtain ⟨m, rest, -, rfl⟩ := sendLoop_step t h hok
  have hpos : 0 < t.taken k (n - numBytes).toNat := t.taken_pos k (by omega)
  obtain ⟨r, hr⟩ := Nat.exists_eq_succ_of_ne_zero (Nat.pos_iff_ne_zero.mp hpos)
  rw [hr, Nat.succ_eq_add_one, List.range_succ_eq_map, List.cons_append]
  rfl

end Loop

/-! ## What is lost -/

/-- **The loop sends the message**: each of its bytes once, in order. -/
def SentWhole (size : SizePtr) (t : Taker) (e : Encoded) : Prop :=
  ∃ fuel sent, sendMessage size t fuel e = .ok sent ∧ sent = List.range e.msgByte

/-- **`peers::Send` is honest**: it returns true only if `send` took the whole message. -/
def SendHonest (sock : Int) (t : Taker) (e : Encoded) : Prop :=
  Send sock (t.taken 0 e.msgByte) = true → t.taken 0 e.msgByte = e.msgByte

/-- Neither loses a byte without saying so. -/
def Lossless (size : SizePtr) (sock : Int) (t : Taker) (e : Encoded) : Prop :=
  SentWhole size t e ∧ SendHonest sock t e

section Lossless
variable (size : SizePtr) (sock : Int) (t : Taker) (m : Outgoing) (msg : Mem)

/-- The loop sends the message if the first call of `send` takes all of it, and otherwise
sends its start again. -/
theorem sentWhole_iff :
    SentWhole size t (m.encode msg) ↔ size = .cell ∧ (m.encode msg).msgByte ≤ t.want 0 := by
  obtain ⟨hpos, hlt⟩ := m.msgByte_bounds msg
  generalize m.encode msg = e at hpos hlt
  have hn : (Int32.ofNat e.msgByte).toInt = e.msgByte := Int32.toInt_ofNat_of_lt hlt
  constructor
  · rintro ⟨fuel, sent, hok, hsent⟩
    cases size with
    | null => cases hok
    | cell =>
      refine ⟨rfl, ?_⟩
      rw [sendMessage, hn] at hok
      obtain ⟨k, rest, hrest, hsplit⟩ := sendLoop_start t hpos hok
      by_contra hshort
      have htaken : t.taken 0 e.msgByte = t.want 0 := Nat.min_eq_left (by omega)
      have hwant := t.pos 0
      rw [htaken] at hrest hsplit
      -- the byte sent after the first `want 0` ones is the first of the message
      have hhead := head?_of_sendLoop t (by omega) hrest
      have hbyte : (List.range e.msgByte)[t.want 0]? = rest.head? := by
        rw [← hsent, hsplit, List.getElem?_append_right (by rw [List.length_range]),
          List.length_range, Nat.sub_self, List.head?_eq_getElem?]
      rw [hhead, List.getElem?_range (by omega)] at hbyte
      have := Option.some.inj hbyte
      omega
  · rintro ⟨rfl, hle⟩
    obtain ⟨sent, hok⟩ := sendLoop_ok t (n := e.msgByte) e.msgByte 0 0 (by omega)
    refine ⟨e.msgByte, sent, by rw [sendMessage, hn, hok], ?_⟩
    obtain ⟨k, rest, hrest, hsplit⟩ := sendLoop_start t hpos hok
    have htaken : t.taken 0 e.msgByte = e.msgByte := Nat.min_eq_right hle
    rw [htaken] at hrest hsplit
    rw [sendLoop_of_le t (Int.le_refl _)] at hrest
    rw [hsplit, ← Except.ok.inj hrest, List.append_nil]

/-- `Send` reports success for whatever `send` took. -/
theorem sendHonest_iff :
    SendHonest sock t (m.encode msg) ↔ sock = -1 ∨ (m.encode msg).msgByte ≤ t.want 0 := by
  have hret : ¬ ((t.taken 0 (m.encode msg).msgByte : Nat) : Int) < 0 := by omega
  rw [SendHonest, Send, if_neg hret]
  by_cases hsock : sock = -1
  · rw [if_neg (not_not.mpr hsock)]
    constructor
    · intro _
      exact .inl hsock
    · intro _ h
      cases h
  · rw [if_pos hsock]
    constructor
    · intro h
      exact .inr (min_eq_right_iff.mp (h rfl))
    · intro h _
      exact min_eq_right_iff.mpr (h.resolve_left hsock)

/-- **Exactly when nothing is lost**: the pointer leads to a size, and the first call of `send`
takes the whole message. -/
theorem lossless_iff : Lossless size sock t (m.encode msg) ↔
    size = .cell ∧ (m.encode msg).msgByte ≤ t.want 0 := by
  rw [Lossless, sentWhole_iff, sendHonest_iff]
  constructor
  · rintro ⟨hwhole, -⟩
    exact hwhole
  · intro h
    exact ⟨h, .inr h.2⟩

end Lossless

/-- A choke to a peer that takes a byte at a time: five times the first byte. -/
theorem choke_not_lossless : ¬ ∃ size, Lossless size 3 ⟨fun _ => 1, fun _ => Nat.one_pos⟩
    ((Outgoing.framed .choke).encode fun _ => 0) := by
  rintro ⟨size, hwhole, -⟩
  have := ((sentWhole_iff _ _ _ _).mp hwhole).2
  exact absurd this (show ¬ 5 ≤ 1 by decide)

end TorrentClient
