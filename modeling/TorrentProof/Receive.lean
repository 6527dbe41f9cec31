import Mathlib
import TorrentProof.CText
import TorrentProof.Fallible
import TorrentProof.Framing
import TorrentProof.Socket

/-! # The receive section of the event loop

`Torrent::Torrent` reads a message in two loops around `recv`: four bytes for the length,
then the rest, and puts the two buffers together with `strcat`.  Both loops receive to
the start of their buffer in every round, the first one forgets what it has counted, and
the second one starts from the count of the first.  `receive_spec` says what a section
that gets as far as calling `MSG::decode` has read: its first `recv` returned the whole
length prefix, and with `L` the announced length it took `max 4 L` bytes from the
connection, not `4 + L`.
-/
namespace TorrentClient
open Bytes CText Fallible Framing Socket

/-- Why a section does not get as far as calling `decode`. -/
inductive Stop where
  /-- `recv` does not return -/
  | blocked
  /-- the loop is still running -/
  | running
  /-- an access outside the memory a pointer leads to -/
  | fault
  deriving DecidableEq

/-- The state of one of the two loops. -/
structure Reading where
  numBytes : Int
  /-- the buffer it receives to -/
  buffer : List UInt8
  conn : Conn
  /-- for each call of `recv`, the number of bytes asked for and the size of the buffer -/
  asks : List (Nat × Nat)

/-- `while (numBytes < target)`, with `recv(fd, buffer, target - numBytes, 0)` in each
round and `next` the new value of `numBytes`. -/
def recvLoop (next : Int → Int → Int) (target : Nat) : Nat → Reading → Except Stop Reading
  | fuel, r =>
    if r.numBytes < target then
      match fuel with
      | 0 => .error .running
      | fuel + 1 =>
        match recv (target - r.numBytes).toNat r.conn with
        | none => .error .blocked
        | some o => recvLoop next target fuel
            { numBytes := next r.numBytes o.ret
              buffer := o.bytes ++ r.buffer.drop o.bytes.length
              conn := o.rest
              asks := r.asks ++ [((target - r.numBytes).toNat, target)] }
    else .ok r

/-- `numBytes = recv(fd, buf_length, 4 - numBytes, 0)` in each round. -/
def headerLoop : Nat → Reading → Except Stop Reading := recvLoop (fun _ ret => ret) 4

/-- `numBytes += recv(fd, buffer, length - numBytes, 0)` in each round. -/
def payloadLoop (length : Nat) : Nat → Reading → Except Stop Reading :=
  recvLoop (fun numBytes ret => numBytes + ret) length

/-- What the section finds in memory. -/
structure Memory where
  /-- what `buf_length` holds at first -/
  buf_length : Vector UInt8 4
  /-- behind `buf_length` -/
  stack : List UInt8
  /-- what the memory that `malloc(length)` returns holds at first -/
  block : Mem
  /-- behind that -/
  behind : List UInt8

/-- The call of `decode` a section ends with, and what it leaves on the connection. -/
structure Section where
  msg : List UInt8
  msgLength : Nat
  conn : Conn
  asks : List (Nat × Nat)

/-- The receive section, with at most `fuel` rounds of each loop. -/
def receive (mem : Memory) (fuel : Nat) (conn : Conn) : Except Stop Section := do
  let head ← headerLoop fuel ⟨0, mem.buf_length.toList, conn, []⟩
  let length := ((Mem.ofList head.buffer fun _ => 0).load32 0).toInt32
  -- `malloc(length)` is the null pointer then, which `strcat` reads
  if length.toInt < 0 then throw .fault
  let body ← payloadLoop length.toInt.toNat fuel
    ⟨head.numBytes, mem.block.slice 0 length.toInt.toNat, head.conn, head.asks⟩
  let msgLength := (length + 4).toInt
  match strcat (head.buffer ++ mem.stack) (body.buffer ++ mem.behind) with
  | none => throw .fault
  | some joined =>
    if msgLength < 0 ∨ (joined.length : Int) < msgLength then throw .fault
    pure ⟨joined.take msgLength.toNat, msgLength.toNat, body.conn, body.asks⟩

/-! ## The loops -/

section Loops
variable {next : Int → Int → Int} {target fuel : Nat} {r r' : Reading}

theorem recvLoop_of_le (h : (target : Int) ≤ r.numBytes) :
    recvLoop next target fuel r = .ok r := by
  unfold recvLoop
  rw [if_neg (by omega)]

/-- One round of a loop that comes to its end. -/
theorem recvLoop_step (h : r.numBytes < target) (hok : recvLoop next target fuel r = .ok r') :
    ∃ n o, fuel = n + 1 ∧ recv (target - r.numBytes).toNat r.conn = some o ∧
      recvLoop next target n
        { numBytes := next r.numBytes o.ret, buffer := o.bytes ++ r.buffer.drop o.bytes.length,
          conn := o.rest, asks := r.asks ++ [((target - r.numBytes).toNat, target)] } = .ok r' := by
  unfold recvLoop at hok
  rw [if_pos h] at hok
  cases fuel with
  | zero => cases hok
  | succ n =>
    dsimp only at hok
    cases ho : recv (target - r.numBytes).toNat r.conn with
    | none =>
      rw [ho] at hok
      cases hok
    | some o =>
      rw [ho] at hok
      exact ⟨n, o, rfl, rfl, hok⟩

/-- The first loop does not end when it has read some bytes but not four, and not when
nothing is left to read. -/
theorem headerLoop_stuck (h4 : r.numBytes < (4 : Nat))
    (h : 0 < r.numBytes ∨ r.conn.segments = []) : headerLoop fuel r ≠ .ok r' := by
  induction fuel generalizing r with
  | zero =>
    intro hok
    obtain ⟨n, o, hn, -⟩ := recvLoop_step h4 hok
    cases hn
  | succ n ih =>
    intro hok
    obtain ⟨m, o, hm, ho, hok⟩ := recvLoop_step h4 hok
    obtain rfl : n = m := Nat.succ.inj hm
    rcases recv_cases ho with ⟨hnil, hret, -, hrest⟩ | ⟨hret, hle, hpos, hbytes⟩
    · -- the end or an error: the count is not positive, and nothing has changed
      refine ih (show o.ret < (4 : Nat) by omega) (.inr ?_) hok
      rw [hrest, hnil]
    · have hlt : 0 < r.numBytes := by
        rcases h with h | h
        · exact h
        · by_contra hneg
          exact hpos (by omega) (eq_nil_of_segments_eq_nil h hbytes)
      have := List.length_pos_iff.mpr (hpos (by omega))
      exact ih (show o.ret < (4 : Nat) by omega) (.inl (show 0 < o.ret by omega)) hok

/-- **The first loop ends when its first `recv` returns four bytes**, and only then. -/
theorem headerLoop_ok {buf : List UInt8} {conn : Conn} (hbuf : buf.length = 4)
    (hok : headerLoop fuel ⟨0, buf, conn, []⟩ = .ok r') :
    r'.numBytes = 4 ∧ r'.buffer = conn.bytes.take 4 ∧ r'.asks = [(4, 4)] ∧
      4 ≤ conn.bytes.length ∧ r'.conn.bytes = conn.bytes.drop 4 ∧
      recv 4 conn = some ⟨4, conn.bytes.take 4, r'.conn⟩ := by
  obtain ⟨n, o, -, ho, hok⟩ := recvLoop_step (show (0 : Int) < (4 : Nat) by decide) hok
  rw [show ((4 : Nat) - (0 : Int)).toNat = 4 from rfl] at ho hok
  rcases recv_cases ho with ⟨hnil, hret, -, hrest⟩ | ⟨hret, hle, hpos, hbytes⟩
  · exact absurd hok (headerLoop_stuck (show o.ret < (4 : Nat) by omega)
      (.inr (by rw [hrest, hnil])))
  have hne := List.length_pos_iff.mpr (hpos (by omega))
  by_cases h4 : o.bytes.length < 4
  · exact absurd hok (headerLoop_stuck (show o.ret < (4 : Nat) by omega)
      (.inl (show 0 < o.ret by omega)))
  have hlen : o.bytes.length = 4 := by omega
  have htake : conn.bytes.take 4 = o.bytes := by rw [hbytes, List.take_left' hlen]
  rw [recvLoop_of_le (show ((4 : Nat) : Int) ≤ o.ret by omega)] at hok
  obtain rfl := Except.ok.inj hok
  obtain ⟨ret, bytes, rest⟩ := o
  dsimp only at hret hlen htake hbytes ⊢
  refine ⟨by omega, ?_, rfl, ?_, ?_, ?_⟩
  · rw [htake, hlen, List.drop_eq_nil_of_le (by omega), List.append_nil]
  · rw [hbytes, List.length_append]
    omega
  · rw [hbytes, List.drop_left' hlen]
  · rw [ho, htake, hret, hlen]
    rfl

/-- The converse. -/
theorem headerLoop_of_recv {buf : List UInt8} {conn rest : Conn} {bs : List UInt8}
    (hbuf : buf.length = 4) (hbs : bs.length = 4) (ho : recv 4 conn = some ⟨4, bs, rest⟩) :
    headerLoop (fuel + 1) ⟨0, buf, conn, []⟩ = .ok ⟨4, bs, rest, [(4, 4)]⟩ := by
  rw [headerLoop, recvLoop, if_pos (show (0 : Int) < (4 : Nat) by decide)]
  dsimp only
  rw [show ((4 : Nat) - (0 : Int)).toNat = 4 from rfl, ho]
  dsimp only
  rw [recvLoop_of_le (show ((4 : Nat) : Int) ≤ 4 by decide), hbs,
    List.drop_eq_nil_of_le (by omega), List.append_nil]
  rfl

/-- The second loop does not end when bytes are missing and nothing is left to read. -/
theorem payloadLoop_stuck (hlt : r.numBytes < target) (h : r.conn.segments = []) :
    payloadLoop target fuel r ≠ .ok r' := by
  induction fuel generalizing r with
  | zero =>
    intro hok
    obtain ⟨n, o, hn, -⟩ := recvLoop_step hlt hok
    cases hn
  | succ n ih =>
    intro hok
    obtain ⟨m, o, hm, ho, hok⟩ := recvLoop_step hlt hok
    obtain rfl : n = m := Nat.succ.inj hm
    rcases recv_cases ho with ⟨hnil, hret, -, hrest⟩ | ⟨hret, hle, hpos, hbytes⟩
    · refine ih (show r.numBytes + o.ret < target by omega) ?_ hok
      rw [hrest, hnil]
    · exact absurd (eq_nil_of_segments_eq_nil h hbytes) (hpos (by omega))

/-- **The second loop takes from the connection what is missing to `length`**, the count
of the first loop taken off. -/
theorem payloadLoop_ok (hok : payloadLoop target fuel r = .ok r') :
    r.conn.bytes.length = r'.conn.bytes.length + (target - r.numBytes).toNat := by
  induction fuel generalizing r with
  | zero =>
    by_cases hlt : r.numBytes < target
    · obtain ⟨n, o, hn, -⟩ := recvLoop_step hlt hok
      cases hn
    · rw [payloadLoop, recvLoop_of_le (by omega)] at hok
      obtain rfl := Except.ok.inj hok
      omega
  | succ n ih =>
    by_cases hlt : r.numBytes < target
    · obtain ⟨m, o, hm, ho, hok⟩ := recvLoop_step hlt hok
      obtain rfl : n = m := Nat.succ.inj hm
      rcases recv_cases ho with ⟨hnil, hret, -, hrest⟩ | ⟨hret, hle, hpos, hbytes⟩
      · exact absurd hok (payloadLoop_stuck (show r.numBytes + o.ret < target by omega)
          (by rw [hrest, hnil]))
      · have hrest := ih hok
        dsimp only at hrest
        rw [hbytes, List.length_append, hrest]
        omega
    · rw [payloadLoop, recvLoop_of_le (by omega)] at hok
      obtain rfl := Except.ok.inj hok
      omega

end Loops

/-! ## One section -/

/-- The length prefix is in the first four bytes. -/
theorem announced_take {s : List UInt8} (h : 4 ≤ s.length) :
    announced (s.take 4) = announced s := by
  have := announced_append (m := s.take 4) (by rw [List.length_take]; omega) (s.drop 4)
  rwa [List.take_append_drop, eq_comm] at this

/-- A size computed as an `int` and not negative has not overflowed. -/
theorem toInt_add_four {length : Int32} (h0 : 0 ≤ length.toInt) (h : 0 ≤ (length + 4).toInt) :
    (length + 4).toInt = length.toInt + 4 := by
  have hlt := length.toInt_lt
  have hsum : (length + 4).toInt = (length.toInt + 4).bmod (2 ^ 32) := Int32.toInt_add _ _
  rw [Int.bmod_def] at hsum
  split at hsum <;> omega

section Spec
variable {mem : Memory} {fuel : Nat} {conn : Conn} {s : Section}

/-- **What a section has read when it calls `decode`.** -/
theorem receive_spec (hok : receive mem fuel conn = .ok s) :
    s.msgLength = announced conn.bytes + 4 ∧ s.msg.length = s.msgLength ∧
      conn.bytes.length = s.conn.bytes.length + max 4 (announced conn.bytes) ∧
      ∃ rest, recv 4 conn = some ⟨4, conn.bytes.take 4, rest⟩ := by
  unfold receive at hok
  obtain ⟨head, hhead, hok⟩ := bind_eq_ok.mp hok
  obtain ⟨hnum, hbuf, -, hlen, hconn, hrecv⟩ := headerLoop_ok mem.buf_length.length_toList hhead
  have hann : ((Mem.ofList head.buffer fun _ => 0).load32 0).toNat = announced conn.bytes := by
    rw [hbuf]
    exact announced_take hlen
  generalize ((Mem.ofList head.buffer fun _ => 0).load32 0) = w at hok hann
  dsimp only at hok
  split at hok
  · cases hok
  next hneg =>
  have hword : (w.toNat : Int) = w.toInt32.toInt := by
    rw [← toNat_toUInt32 (by omega)]
    rfl
  obtain ⟨body, hbody, hok⟩ := bind_eq_ok.mp hok
  have hread := payloadLoop_ok hbody
  split at hok
  · cases hok
  next joined hjoined =>
  split at hok
  · cases hok
  next hfits =>
  rw [not_or, Int.not_lt, Int.not_lt] at hfits
  obtain rfl := Except.ok.inj hok
  have hsum := toInt_add_four (by omega) hfits.1
  dsimp only at hread ⊢
  rw [hconn, List.length_drop] at hread
  refine ⟨by omega, ?_, by omega, _, hrecv⟩
  rw [List.length_take]
  omega

/-- A section that reads a zero length. -/
theorem receive_zero {rest : Conn} (ho : recv 4 conn = some ⟨4, [0, 0, 0, 0], rest⟩) :
    receive mem (fuel + 1) conn =
      match strcat ([0, 0, 0, 0] ++ mem.stack) mem.behind with
      | none => .error .fault
      | some joined => .ok ⟨joined.take 4, 4, rest, [(4, 4)]⟩ := by
  have hword : (Mem.ofList [0, 0, 0, 0] fun _ => 0).load32 0 = 0 := by decide
  have hsum : ((UInt32.toInt32 0 : Int32) + 4).toInt = 4 := by decide
  rw [receive, headerLoop_of_recv mem.buf_length.length_toList rfl ho, ok_bind]
  dsimp only
  rw [hword, hsum, if_neg (by decide), payloadLoop,
    recvLoop_of_le (show (((UInt32.toInt32 0).toInt.toNat : Nat) : Int) ≤ 4 by decide)]
  rw [show (UInt32.toInt32 0).toInt.toNat = 0 from rfl, Mem.slice_zero, ok_bind]
  dsimp only
  rw [List.nil_append]
  cases hcat : strcat ([0, 0, 0, 0] ++ mem.stack) mem.behind with
  | none => rfl
  | some joined =>
    have hlen := length_strcat hcat
    rw [List.length_append] at hlen
    simp only [List.length_cons, List.length_nil] at hlen
    dsimp only
    rw [if_neg (by omega)]
    rfl

end Spec

end TorrentClient
