import Mathlib
import TorrentProof.CText
import TorrentProof.Fallible
import TorrentProof.MsgProtocol
import TorrentProof.Receive

/-! # The store of blocks

`Torrent::Torrent` keeps the blocks it has received in a vector for each piece, and starts
with empty vectors.  The branch for a piece message looks, in every vector up to the one
of the piece, at the first block, which an empty vector does not have.  So the first block
that arrives ends the program, and no piece is ever put together (`not_assembled`).

Where the source has slips that do not compile it is read as it is meant: `temp[j]` is
`pieces[i][j]`, `index` is `piece_index`, and `shar_string` is `sha_string`.
-/
namespace TorrentClient
open CText Fallible

/-- `class block_t`. -/
structure block_t where
  piece_index : Int32
  offset : Int32
  data : List UInt8
  deriving DecidableEq

/-- `pieces`. -/
abbrev Store := List (List block_t)

/-- `vector<vector<block_t>> pieces(n)`. -/
def Store.new (n : Nat) : Store := List.replicate n []

/-! ## The branch for a piece message -/

/-- The loop over the blocks of a piece: `p` goes in front of the first block with a larger
offset, unless a block with its own comes before. -/
def insertLoop (p : block_t) : List block_t → List block_t × Bool
  | [] => ([], false)
  | b :: bs =>
    if b.offset = p.offset then (b :: bs, false)
    else if p.offset < b.offset then (p :: b :: bs, true)
    else
      let r := insertLoop p bs
      (b :: r.1, r.2)

/-- `for (size_t x = 0; x < blocks.size();)`, which copies the data of block `x` behind what
`buf`, an array of `piece_length` bytes, holds already. -/
def reassembleLoop (piece_length : Nat) (blocks : List block_t) (x : Nat) :
    Nat → List UInt8 → Except Stop (List UInt8)
  | fuel, buf =>
    match blocks[x]? with
    | none => .ok buf
    | some b =>
      match fuel with
      | 0 => .error .running
      | fuel + 1 =>
        if piece_length < buf.length + b.data.length then .error .fault
        else reassembleLoop piece_length blocks x fuel (buf ++ b.data)

/-- What the branch has to do with the metafile and with memory. -/
structure PieceContext where
  /-- `meta.pieces` -/
  hashes : List (List UInt8)
  /-- `meta.piece_length` -/
  piece_length : UInt32
  /-- what lies in memory behind the bytes copied to `buf` -/
  behind : List UInt8

/-- The bytes a hash is taken of, with the number of the piece. -/
abbrev Hashed := List (Int32 × List UInt8)

/-- The check of a piece a block has been added to. -/
def checkPiece (ctx : PieceContext) (fuel : Nat) (blocks : List block_t) :
    Except Stop Hashed :=
  match blocks with
  | [] => .error .fault
  | b :: _ => do
    let piece := b.piece_index
    let buf ← reassembleLoop ctx.piece_length.toNat blocks 0 fuel []
    -- `SHA1(buf, strlen(buf), hsh)`
    if 0 ∉ buf ++ ctx.behind then throw .fault
    -- `meta.pieces[piece]`; nothing is done with the outcome of the comparison
    if piece.toInt < 0 ∨ (ctx.hashes.length : Int) ≤ piece.toInt then throw .fault
    pure [(piece, cstr (buf ++ ctx.behind))]

/-- The loop over the pieces. -/
def storeLoop (ctx : PieceContext) (fuel : Nat) (p : block_t) :
    Bool → Store → Except Stop (Store × Hashed)
  | _, [] => pure ([], [])
  -- `pieces[i][0]`
  | _, [] :: _ => .error .fault
  | inserted, (b :: bs) :: pieces =>
    if b.piece_index = p.piece_index then do
      let (blocks, inserted) := if inserted then (b :: bs, true) else insertLoop p (b :: bs)
      let hashed ← if inserted then checkPiece ctx fuel blocks else pure []
      let (pieces, rest) ← storeLoop ctx fuel p inserted pieces
      pure (blocks :: pieces, hashed ++ rest)
    else do
      let (pieces, rest) ← storeLoop ctx fuel p inserted pieces
      pure ((b :: bs) :: pieces, rest)

/-- The branch for `msgType == 7`. -/
def pieceBranch (ctx : PieceContext) (fuel : Nat) (p : block_t) (pieces : Store) :
    Except Stop (Store × Hashed) := storeLoop ctx fuel p false pieces

/-! ## What it takes to come to the end of the branch -/

section Ends
variable {ctx : PieceContext} {fuel : Nat} {p b : block_t} {bs : List block_t}

/-- What becomes of the vector of the piece, and whether the block is stored now or has been
before. -/
def insertInto (p : block_t) (inserted : Bool) (blocks : List block_t) : List block_t × Bool :=
  if inserted then (blocks, true) else insertLoop p blocks

/-- The check comes to its end when the piece is put together, a zero byte follows, and the
piece has a hash. -/
theorem checkPiece_eq_ok {hashed : Hashed} (h : checkPiece ctx fuel (b :: bs) = .ok hashed) :
    ∃ buf, reassembleLoop ctx.piece_length.toNat (b :: bs) 0 fuel [] = .ok buf ∧
      0 ∈ buf ++ ctx.behind ∧ 0 ≤ b.piece_index.toInt ∧
      b.piece_index.toInt < ctx.hashes.length ∧
      hashed = [(b.piece_index, cstr (buf ++ ctx.behind))] := by
  unfold checkPiece at h
  dsimp only at h
  obtain ⟨buf, hbuf, h⟩ := bind_eq_ok.mp h
  split at h
  · cases h
  next hzero =>
    split at h
    · cases h
    next hpiece =>
      exact ⟨buf, hbuf, not_not.mp hzero, by omega, by omega, (Except.ok.inj h).symm⟩

/-- The loop over the pieces comes to its end when the rest of it does, and before that the
check if the block is stored. -/
theorem storeLoop_eq_ok {inserted : Bool} {pieces : Store} {r : Store × Hashed}
    (h : storeLoop ctx fuel p inserted ((b :: bs) :: pieces) = .ok r) :
    if b.piece_index = p.piece_index then
      ∃ hashed pieces' rest,
        (if (insertInto p inserted (b :: bs)).2 then
          checkPiece ctx fuel (insertInto p inserted (b :: bs)).1 else pure []) = .ok hashed ∧
        storeLoop ctx fuel p (insertInto p inserted (b :: bs)).2 pieces = .ok (pieces', rest) ∧
        r = ((insertInto p inserted (b :: bs)).1 :: pieces', hashed ++ rest)
    else
      ∃ pieces' rest, storeLoop ctx fuel p inserted pieces = .ok (pieces', rest) ∧
        r = ((b :: bs) :: pieces', rest) := by
  unfold storeLoop at h
  split at h
  next heq =>
    have hinto : (if inserted = true then (b :: bs, true) else insertLoop p (b :: bs)) =
        insertInto p inserted (b :: bs) := rfl
    rw [if_pos heq]
    rw [hinto] at h
    generalize insertInto p inserted (b :: bs) = v at h ⊢
    obtain ⟨blocks, stored⟩ := v
    cases stored
    all_goals
      obtain ⟨hashed, hcheck, h⟩ := bind_eq_ok.mp h
      obtain ⟨⟨pieces', rest⟩, hloop, h⟩ := bind_eq_ok.mp h
      exact ⟨hashed, pieces', rest, hcheck, hloop, (Except.ok.inj h).symm⟩
  next hne =>
    rw [if_neg hne]
    obtain ⟨⟨pieces', rest⟩, hloop, h⟩ := bind_eq_ok.mp h
    exact ⟨pieces', rest, hloop, (Except.ok.inj h).symm⟩

/-- The store keeps its number of vectors. -/
theorem length_storeLoop {inserted : Bool} {pieces : Store} {r : Store × Hashed}
    (h : storeLoop ctx fuel p inserted pieces = .ok r) : r.1.length = pieces.length := by
  induction pieces generalizing inserted r with
  | nil =>
    obtain rfl := Except.ok.inj h
    rfl
  | cons blocks pieces ih =>
    cases blocks with
    | nil => cases h
    | cons b bs =>
      have hcases := storeLoop_eq_ok h
      split at hcases
      · obtain ⟨hashed, pieces', rest, -, hloop, rfl⟩ := hcases
        exact congrArg (· + 1) (ih hloop)
      · obtain ⟨pieces', rest, hloop, rfl⟩ := hcases
        exact congrArg (· + 1) (ih hloop)

end Ends

/-- Blocks one after the other. -/
def receiveBlocks (ctx : PieceContext) (fuel : Nat) :
    List block_t → Store → Except Stop (Store × Hashed)
  | [], pieces => pure (pieces, [])
  | p :: ps, pieces => do
    let (pieces, hashed) ← pieceBranch ctx fuel p pieces
    let (pieces, rest) ← receiveBlocks ctx fuel ps pieces
    pure (pieces, hashed ++ rest)

/-! ## Downloads -/

/-- The number of blocks of a piece. -/
def blockCount (content : List UInt8) : Nat := (content.length + 16383) / 16384

/-- Block `j` of piece `k`, as it is decoded: its bytes in an array of `MAX_BLOCK`. -/
def blockOf (k : Nat) (content : List UInt8) (j : Nat) : block_t where
  piece_index := Int32.ofNat k
  offset := Int32.ofNat (16384 * j)
  data :=
    let payload := (content.drop (16384 * j)).take 16384
    payload ++ List.replicate (MAX_BLOCK - payload.length) 0

/-- Blocks of the pieces of a torrent, as they arrive. -/
structure Download where
  ctx : PieceContext
  /-- the pieces -/
  contents : List (List UInt8)
  count_eq : contents.length = ctx.hashes.length
  count_lt : contents.length < 2 ^ 31
  length_le : ∀ c ∈ contents, 0 < c.length ∧ c.length ≤ ctx.piece_length.toNat
  piece_length_lt : ctx.piece_length.toNat < 2 ^ 31
  /-- the piece and the number of each block that arrives -/
  arrivals : List (Nat × Nat)
  arrivals_lt : ∀ a ∈ arrivals, ∃ c ∈ contents[a.1]?, a.2 < blockCount c

namespace Download

/-- The blocks, as the branch gets them. -/
def blocks (d : Download) : List block_t :=
  d.arrivals.map fun a => blockOf a.1 (d.contents.getD a.1 []) a.2

/-- Every block of piece `i` has arrived. -/
def Complete (d : Download) (i : Nat) : Prop :=
  ∃ c ∈ d.contents[i]?, ∀ j < blockCount c, (i, j) ∈ d.arrivals

/-- **Piece `i` is put together**: starting from the empty store the blocks are received, and
the last hash taken for the piece is of its content. -/
def Assembled (d : Download) (i : Nat) : Prop :=
  ∃ fuel pieces hashed, receiveBlocks d.ctx fuel d.blocks (Store.new d.ctx.hashes.length) =
      .ok (pieces, hashed) ∧
    (hashed.filter (·.1 = Int32.ofNat i)).getLast? =
      some (Int32.ofNat i, d.contents.getD i [])

/-- The first block that arrives finds no block to be compared with. -/
theorem pieceBranch_new (ctx : PieceContext) (fuel : Nat) (p : block_t) {n : Nat} (h : 0 < n) :
    pieceBranch ctx fuel p (Store.new n) = .error .fault := by
  obtain ⟨m, rfl⟩ := Nat.exists_eq_succ_of_ne_zero (Nat.pos_iff_ne_zero.mp h)
  rfl

theorem blockCount_pos {c : List UInt8} (h : 0 < c.length) : 0 < blockCount c := by
  rw [blockCount]
  omega

/-- **No piece is put together.** -/
theorem not_assembled (d : Download) (i : Nat) (h : d.Complete i) : ¬ d.Assembled i := by
  rintro ⟨fuel, pieces, hashed, hrun, -⟩
  obtain ⟨c, hc, hall⟩ := h
  have hmem : c ∈ d.contents := List.mem_of_getElem? hc
  have hfirst := hall 0 (blockCount_pos (d.length_le c hmem).1)
  have hcount : 0 < d.ctx.hashes.length := by
    rw [← d.count_eq]
    exact List.length_pos_of_mem hmem
  cases harrivals : d.arrivals with
  | nil =>
    rw [harrivals] at hfirst
    cases hfirst
  | cons a as =>
    rw [blocks, harrivals, List.map_cons, receiveBlocks, pieceBranch_new _ _ _ hcount] at hrun
    cases hrun

/-- A torrent of one piece of one byte, which arrives. -/
def oneByte : Download where
  ctx := ⟨[List.replicate 20 0], 1, [0]⟩
  contents := [[65]]
  count_eq := rfl
  count_lt := by decide
  length_le := by decide
  piece_length_lt := by decide
  arrivals := [(0, 0)]
  arrivals_lt := by
    intro a ha
    obtain rfl := List.mem_singleton.mp ha
    exact ⟨[65], rfl, by decide⟩

theorem oneByte_complete : oneByte.Complete 0 :=
  ⟨[65], rfl, fun j hj => by
    obtain rfl : j = 0 := Nat.lt_one_iff.mp hj
    exact List.mem_singleton.mpr rfl⟩

theorem oneByte_never_assembled : ¬ oneByte.Assembled 0 := not_assembled oneByte 0 oneByte_complete

theorem oneByte_not_assembled : ¬ (oneByte.Complete 0 → oneByte.Assembled 0) := by
  intro h
  obtain ⟨fuel, pieces, hashed, hrun, -⟩ := h oneByte_complete
  cases hrun

end Download
end TorrentClient
