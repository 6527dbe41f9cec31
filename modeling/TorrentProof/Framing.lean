import Mathlib
import TorrentProof.Bytes

/-! # Length-prefixed streams

A stream of messages, each preceded by the number of its remaining bytes as four
bytes in network order, can be cut back into the messages by looking at the
prefixes only.  `split` does so, `Framed` is what a message must satisfy for it,
and `split_flatten` is the law: a concatenation of framed messages is split into
exactly these, with nothing left over.
-/
namespace Framing
open Bytes

/-- The length a message announces in its first four bytes. -/
def announced (s : List UInt8) : Nat := ((Mem.ofList s fun _ => 0).load32 0).toNat

/-- A message is as long as its prefix says. -/
def Framed (m : List UInt8) : Prop := 4 ≤ m.length ∧ m.length = 4 + announced m

/-- `payload` behind its length. -/
def frame (payload : List UInt8) : List UInt8 :=
  Mem.be32 (UInt32.ofNat payload.length) ++ payload

/-- Split off a message at a time, each `4 +` the announced length, at most `fuel`
of them; the bytes no whole message can be taken from are left over. -/
def splitAux : Nat → List UInt8 → List (List UInt8) × List UInt8
  | 0, s => ([], s)
  | fuel + 1, s =>
    if 4 + announced s ≤ s.length then
      let rest := splitAux fuel (s.drop (4 + announced s))
      (s.take (4 + announced s) :: rest.1, rest.2)
    else ([], s)

/-- Split off messages until no whole one is left.  Each takes at least four bytes,
so the length of the stream is fuel enough. -/
def split (s : List UInt8) : List (List UInt8) × List UInt8 := splitAux s.length s

theorem announced_eq (a b c d : UInt8) (s : List UInt8) :
    announced (a :: b :: c :: d :: s) = (Mem.wordBE a b c d).toNat := by
  simp [announced, Mem.load32, Mem.ofList]

/-- The prefix does not depend on what follows the message. -/
theorem announced_append {m : List UInt8} (h : 4 ≤ m.length) (s : List UInt8) :
    announced (m ++ s) = announced m := by
  match m, h with
  | a :: b :: c :: d :: m, _ => simp only [List.cons_append, announced_eq]

/-- The length prefix of a message read off memory is the word stored there. -/
theorem announced_slice (m : Mem) {n : Nat} (h : 4 ≤ n) :
    announced (m.slice 0 n) = (m.load32 0).toNat := by
  obtain ⟨k, rfl⟩ := Nat.exists_eq_add_of_le' h
  rw [Mem.slice_succ, Mem.slice_succ, Mem.slice_succ, Mem.slice_succ, announced_eq]
  rfl

theorem frame_length (payload : List UInt8) : (frame payload).length = payload.length + 4 := by
  simp [frame, Nat.add_comm]

/-- The announced length of a framed payload, wherever the message lies. -/
theorem load32_frame (payload : List UInt8) (behind : Mem) :
    (Mem.ofList (frame payload) behind).load32 0 = UInt32.ofNat payload.length := by
  simp [frame, Mem.be32, Mem.load32, Mem.ofList]

theorem ofList_frame_zero (payload : List UInt8) (behind : Mem) :
    Mem.ofList (frame payload) behind 0 = Mem.byteBE (UInt32.ofNat payload.length) 0 := by
  simp [frame, Mem.be32, Mem.ofList]

/-- Byte `i` of the payload is byte `4 + i` of the message. -/
theorem ofList_frame_payload (payload : List UInt8) (behind : Mem) {i : Nat}
    (h : i < payload.length) : Mem.ofList (frame payload) behind (4 + i) = payload[i] := by
  rw [Mem.ofList_of_lt (by rw [frame_length]; omega)]
  simp only [frame]
  rw [List.getElem_append_right (by simp)]
  simp only [Mem.be32_length, Nat.add_sub_cancel_left]

theorem splitAux_cons {m : List UInt8} (hm : Framed m) (fuel : Nat) (s : List UInt8) :
    splitAux (fuel + 1) (m ++ s) = (m :: (splitAux fuel s).1, (splitAux fuel s).2) := by
  have hlen : 4 + announced (m ++ s) = m.length := by
    rw [announced_append hm.1, ← hm.2]
  rw [splitAux, hlen, if_pos (by simp), List.take_left, List.drop_left]

theorem splitAux_flatten {ms : List (List UInt8)} (h : ∀ m ∈ ms, Framed m) {fuel : Nat}
    (hfuel : ms.flatten.length ≤ fuel) : splitAux fuel ms.flatten = (ms, []) := by
  induction ms generalizing fuel with
  | nil => cases fuel <;> simp [splitAux]
  | cons m ms ih =>
    have hm := h m List.mem_cons_self
    rw [List.flatten_cons, List.length_append] at hfuel
    have h4 := hm.1
    cases fuel with
    | zero => omega
    | succ fuel =>
      rw [List.flatten_cons, splitAux_cons hm,
        ih (fun m' hm' => h m' (List.mem_cons_of_mem m hm')) (by omega)]

/-- **A framed stream delimits itself**: splitting the concatenation of framed
messages gives these messages in order and leaves nothing over. -/
theorem split_flatten {ms : List (List UInt8)} (h : ∀ m ∈ ms, Framed m) :
    split ms.flatten = (ms, []) := splitAux_flatten h (Nat.le_refl _)

end Framing
