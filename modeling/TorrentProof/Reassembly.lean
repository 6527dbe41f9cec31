import Mathlib
import TorrentProof.BlockStore
import TorrentProof.KeyedInsert
import TorrentProof.Insertion

/-! # The check of a piece

When a block has been stored the branch puts the blocks of the piece together in `buf` and
hashes what is there.  The loop over the blocks has no step in its header, so it copies the
first block again and again until it has left the buffer, or for ever if the block is empty:
it ends only where there is nothing to copy (`reassembled_iff`).  The number of bytes that
are hashed is `strlen(buf)`, which is the length of the piece only if it has no zero byte and
one follows it (`verified_iff`).
-/
namespace TorrentClient
open CText Fallible Keyed

/-! ## Reassembly -/

/-- The vector of a piece: blocks in the order of their offsets that fit the piece together. -/
structure PieceVector where
  piece_length : UInt32
  blocks : List block_t
  increasing : Increasing block_t.position blocks
  data_le : ∀ b ∈ blocks, b.data.length ≤ MAX_BLOCK
  length_le : (blocks.flatMap block_t.data).length ≤ piece_length.toNat

/-- **The blocks are put together**: the loop comes to its end inside the buffer, which holds
their data one after the other. -/
def PieceVector.Reassembled (v : PieceVector) : Prop :=
  ∃ fuel, reassembleLoop v.piece_length.toNat v.blocks 0 fuel [] =
    .ok (v.blocks.flatMap block_t.data)

section Loop
variable {n : Nat} {b : block_t} {bs : List block_t}

/-- A round of the loop, which starts over with the same block. -/
theorem reassembleLoop_succ (fuel : Nat) (buf : List UInt8) :
    reassembleLoop n (b :: bs) 0 (fuel + 1) buf =
      if n < buf.length + b.data.length then .error .fault
      else reassembleLoop n (b :: bs) 0 fuel (buf ++ b.data) := rfl

/-- **With a block to copy the loop does not come to its end.** -/
theorem reassembleLoop_ne_ok (fuel : Nat) (buf result : List UInt8) :
    reassembleLoop n (b :: bs) 0 fuel buf ≠ .ok result := by
  induction fuel generalizing buf with
  | zero => nofun
  | succ fuel ih =>
    rw [reassembleLoop_succ]
    by_cases hover : n < buf.length + b.data.length
    · rw [if_pos hover]
      nofun
    · rw [if_neg hover]
      exact ih _

/-- Unless the first block is empty the loop writes behind the buffer. -/
theorem reassembleLoop_overruns (h : b.data ≠ []) (fuel : Nat) {buf : List UInt8}
    (hfuel : n < buf.length + fuel) (hbuf : buf.length ≤ n) :
    reassembleLoop n (b :: bs) 0 fuel buf = .error .fault := by
  have hpos : 0 < b.data.length := List.length_pos_iff.mpr h
  induction fuel generalizing buf with
  | zero => omega
  | succ fuel ih =>
    rw [reassembleLoop_succ]
    by_cases hover : n < buf.length + b.data.length
    · rw [if_pos hover]
    · rw [if_neg hover]
      have hlength : (buf ++ b.data).length = buf.length + b.data.length := List.length_append
      exact ih (by omega) (by omega)

/-- If it is empty the loop runs for ever. -/
theorem reassembleLoop_running (h : b.data = []) (fuel : Nat) {buf : List UInt8}
    (hbuf : buf.length ≤ n) : reassembleLoop n (b :: bs) 0 fuel buf = .error .running := by
  induction fuel with
  | zero => rfl
  | succ fuel ih =>
    rw [reassembleLoop_succ, h, List.append_nil, if_neg (by rw [List.length_nil]; omega)]
    exact ih

end Loop

/-- **Exactly when the blocks are put together**: when there are none. -/
theorem reassembled_iff (v : PieceVector) : v.Reassembled ↔ v.blocks = [] := by
  unfold PieceVector.Reassembled
  cases hblocks : v.blocks with
  | nil =>
    constructor
    · intro _
      rfl
    · intro _
      exact ⟨0, rfl⟩
  | cons b bs =>
    constructor
    · rintro ⟨fuel, hok⟩
      exact absurd hok (reassembleLoop_ne_ok fuel _ _)
    · intro hnil
      cases hnil

/-- With blocks the loop leaves the buffer, or runs for ever. -/
theorem PieceVector.overruns_or_runs (v : PieceVector) {b : block_t} {bs : List block_t}
    (hblocks : v.blocks = b :: bs) :
    if b.data = [] then ∀ fuel,
      reassembleLoop v.piece_length.toNat v.blocks 0 fuel [] = .error .running
    else ∃ fuel, reassembleLoop v.piece_length.toNat v.blocks 0 fuel [] = .error .fault := by
  rw [hblocks]
  by_cases hdata : b.data = []
  · rw [if_pos hdata]
    intro fuel
    exact reassembleLoop_running hdata fuel (Nat.zero_le _)
  · rw [if_neg hdata]
    refine ⟨v.piece_length.toNat + 1, ?_⟩
    exact reassembleLoop_overruns hdata _ (by rw [List.length_nil]; omega) (Nat.zero_le _)

/-- A piece of one byte. -/
def oneBlock : PieceVector where
  piece_length := 1
  blocks := [⟨0, 0, [65]⟩]
  increasing := List.pairwise_singleton _ _
  data_le := by decide
  length_le := by decide

theorem not_reassembled_oneBlock : ¬ oneBlock.Reassembled := by
  intro h
  obtain ⟨fuel, hok⟩ := h
  exact reassembleLoop_ne_ok fuel _ _ hok

/-! ## The digest -/

/-- What has been gathered in `buf`, and what lies behind it. -/
structure Gathered where
  bytes : List UInt8
  behind : List UInt8

namespace Gathered

/-- `SHA1(buf, strlen(buf), hsh)`. -/
def digest (SHA1 : List UInt8 → List UInt8) (g : Gathered) : Except Stop (List UInt8) :=
  if 0 ∉ g.bytes ++ g.behind then .error .fault else .ok (SHA1 (cstr (g.bytes ++ g.behind)))

/-- The digest is that of the bytes, whatever the hash function. -/
def Covered (g : Gathered) : Prop := ∀ SHA1, g.digest SHA1 = .ok (SHA1 g.bytes)

/-- Two contents of the same length that are accepted for the same hash have the same
digest. -/
def Separated (g g' : Gathered) : Prop :=
  g.bytes.length = g'.bytes.length → ∀ SHA1 hash,
    g.digest SHA1 = .ok hash → g'.digest SHA1 = .ok hash → SHA1 g.bytes = SHA1 g'.bytes

/-- **Verification covers the whole piece**, for each of two contents and for the two
together. -/
def Verified (g g' : Gathered) : Prop := g.Covered ∧ g'.Covered ∧ Separated g g'

/-- The bytes are a C string: no zero among them, and one right behind them. -/
def Terminated (g : Gathered) : Prop := 0 ∉ g.bytes ∧ g.behind.head? = some 0

variable {g g' : Gathered}

theorem digest_eq_ok {SHA1 : List UInt8 → List UInt8} {hash : List UInt8} :
    g.digest SHA1 = .ok hash ↔
      0 ∈ g.bytes ++ g.behind ∧ SHA1 (cstr (g.bytes ++ g.behind)) = hash := by
  unfold digest
  by_cases h : 0 ∈ g.bytes ++ g.behind
  · rw [if_neg (not_not.mpr h), Except.ok.injEq]
    exact (and_iff_right h).symm
  · rw [if_pos h]
    constructor
    · nofun
    · rintro ⟨h', -⟩
      exact absurd h' h

/-- What `checkPiece` hashes is what the digest is taken of. -/
theorem digest_of_checkPiece {ctx : PieceContext} {fuel : Nat} {b : block_t} {bs : List block_t}
    {hashed : Hashed} (h : checkPiece ctx fuel (b :: bs) = .ok hashed) :
    ∃ buf bytes, reassembleLoop ctx.piece_length.toNat (b :: bs) 0 fuel [] = .ok buf ∧
      hashed = [(b.piece_index, bytes)] ∧
      ∀ SHA1, digest SHA1 ⟨buf, ctx.behind⟩ = .ok (SHA1 bytes) := by
  obtain ⟨buf, hbuf, hzero, -, -, rfl⟩ := checkPiece_eq_ok h
  exact ⟨buf, _, hbuf, rfl, fun SHA1 => digest_eq_ok.mpr ⟨hzero, rfl⟩⟩

/-- A hash function that tells all contents apart shows what is hashed. -/
theorem covered_iff : g.Covered ↔ g.Terminated := by
  constructor
  · intro h
    exact cstr_append_eq_iff.mp (digest_eq_ok.mp (h id))
  · intro h SHA1
    obtain ⟨hzero, heq⟩ := cstr_append_eq_iff.mpr h
    exact digest_eq_ok.mpr ⟨hzero, congrArg SHA1 heq⟩

/-- Contents that are covered are told apart by their digests. -/
theorem separated_of_covered (h : g.Covered) (h' : g'.Covered) : Separated g g' := by
  intro _ SHA1 hash haccept haccept'
  rw [h SHA1] at haccept
  rw [h' SHA1] at haccept'
  exact (Except.ok.inj haccept).trans (Except.ok.inj haccept').symm

/-- **Exactly when verification covers the whole piece.** -/
theorem verified_iff : Verified g g' ↔ g.Terminated ∧ g'.Terminated := by
  rw [← covered_iff, ← covered_iff]
  constructor
  · rintro ⟨h, h', -⟩
    exact ⟨h, h'⟩
  · rintro ⟨h, h'⟩
    exact ⟨h, h', separated_of_covered h h'⟩

end Gathered

/-- Two contents that differ behind a zero byte are accepted together. -/
theorem not_verified_behind_zero :
    ¬ Gathered.Verified ⟨[65, 0, 66], [0]⟩ ⟨[65, 0, 67], [0]⟩ ∧
      ¬ Gathered.Separated ⟨[65, 0, 66], [0]⟩ ⟨[65, 0, 67], [0]⟩ := by
  constructor
  · intro h
    exact (Gathered.verified_iff.mp h).1.1 (by decide)
  · intro h
    exact absurd (h rfl id [65] rfl rfl) (by decide)

end TorrentClient
