import Mathlib
import TorrentProof.BlockStore
import TorrentProof.KeyedInsert

/-! # The insertion of a block

In the branch for a piece message the loop over the pieces puts the block into the vector of
its piece, in the order of the offsets.  Without the check that follows an insertion it is
`insertPass`.  The loop compares the block with the first of every vector, and has no place
for a block behind the last one, so it inserts as into an ordered set exactly if no vector is
empty and the block is not the last of its piece (`orderedInsertion_iff`).
-/
namespace TorrentClient
open Fallible Keyed

/-- The loop over the pieces, without the check: the store and `inserted` when it ends. -/
def insertPass (p : block_t) : Bool → Store → Except Stop (Store × Bool)
  | inserted, [] => pure ([], inserted)
  -- `pieces[i][0]`
  | _, [] :: _ => .error .fault
  | inserted, (b :: bs) :: pieces => do
    let (blocks, inserted) :=
      if b.piece_index = p.piece_index then insertInto p inserted (b :: bs)
      else (b :: bs, inserted)
    let (pieces, inserted) ← insertPass p inserted pieces
    pure (blocks :: pieces, inserted)

/-- A branch that comes to its end leaves the store the pass leaves. -/
theorem insertPass_of_storeLoop {ctx : PieceContext} {fuel : Nat} {p : block_t} {inserted : Bool}
    {pieces : Store} {r : Store × Hashed} (h : storeLoop ctx fuel p inserted pieces = .ok r) :
    ∃ inserted', insertPass p inserted pieces = .ok (r.1, inserted') := by
  induction pieces generalizing inserted r with
  | nil =>
    obtain rfl := Except.ok.inj h
    exact ⟨inserted, rfl⟩
  | cons blocks pieces ih =>
    cases blocks with
    | nil => cases h
    | cons b bs =>
      have hcases := storeLoop_eq_ok h
      unfold insertPass
      by_cases heq : b.piece_index = p.piece_index
      · rw [if_pos heq] at hcases ⊢
        obtain ⟨hashed, pieces', rest, -, hloop, rfl⟩ := hcases
        obtain ⟨inserted', hpass⟩ := ih hloop
        dsimp only at hpass ⊢
        rw [hpass]
        exact ⟨inserted', rfl⟩
      · rw [if_neg heq] at hcases ⊢
        obtain ⟨pieces', rest, hloop, rfl⟩ := hcases
        obtain ⟨inserted', hpass⟩ := ih hloop
        dsimp only at hpass ⊢
        rw [hpass]
        exact ⟨inserted', rfl⟩

/-- The offset a vector is ordered by. -/
def block_t.position (b : block_t) : Int := b.offset.toInt

/-- The loop over the blocks inserts in front of the first larger offset. -/
theorem insertLoop_eq (p : block_t) (blocks : List block_t) :
    insertLoop p blocks = insertFirst block_t.position p blocks := by
  induction blocks with
  | nil => rfl
  | cons b bs ih =>
    have heq : b.offset = p.offset ↔ b.position = p.position := Int32.toInt_inj.symm
    have hlt : p.offset < b.offset ↔ p.position < b.position := Int32.lt_iff_toInt_lt
    simp only [insertLoop, insertFirst, heq, hlt, ih]

/-! ## The pass over the pieces -/

section Pass
variable {p b : block_t} {bs : List block_t} {inserted : Bool}

/-- A vector without a first block ends the program. -/
theorem insertPass_fault {pieces : Store} (h : [] ∈ pieces) :
    insertPass p inserted pieces = .error .fault := by
  induction pieces generalizing inserted with
  | nil => exact absurd h List.not_mem_nil
  | cons blocks pieces ih =>
    cases blocks with
    | nil => rfl
    | cons b bs =>
      have hrest : [] ∈ pieces := (List.mem_cons.mp h).resolve_left nofun
      unfold insertPass
      dsimp only
      rw [ih hrest]
      rfl

/-- The blocks of `pieces` are of other pieces than `p`, and no vector is empty. -/
def Foreign (p : block_t) (pieces : Store) : Prop :=
  ∀ blocks ∈ pieces, ∃ b bs, blocks = b :: bs ∧ b.piece_index ≠ p.piece_index

/-- Vectors of other pieces are passed over. -/
theorem insertPass_append {before rest pieces : Store} {inserted' : Bool} (h : Foreign p before)
    (hrest : insertPass p inserted rest = .ok (pieces, inserted')) :
    insertPass p inserted (before ++ rest) = .ok (before ++ pieces, inserted') := by
  induction before with
  | nil => exact hrest
  | cons blocks before ih =>
    obtain ⟨b, bs, rfl, hne⟩ := h blocks List.mem_cons_self
    have hbefore := ih fun blocks hb => h blocks (List.mem_cons_of_mem _ hb)
    rw [List.cons_append]
    unfold insertPass
    rw [if_neg hne]
    dsimp only
    rw [hbefore]
    rfl

/-- **The pass inserts into the vector of the piece, and only there.** -/
theorem insertPass_eq {before after : Store} (hbefore : Foreign p before)
    (hafter : Foreign p after) (heq : b.piece_index = p.piece_index) :
    insertPass p false (before ++ (b :: bs) :: after) =
      .ok (before ++ (insertLoop p (b :: bs)).1 :: after, (insertLoop p (b :: bs)).2) := by
  refine insertPass_append hbefore ?_
  have hrest : insertPass p (insertLoop p (b :: bs)).2 (after ++ []) =
      .ok (after ++ [], (insertLoop p (b :: bs)).2) := insertPass_append hafter rfl
  rw [List.append_nil] at hrest
  unfold insertPass
  rw [if_pos heq]
  dsimp only [insertInto]
  rw [if_neg Bool.false_ne_true, hrest]
  rfl

end Pass

/-! ## Ordered sets -/

/-- A block that arrives at a store in order: each vector holds blocks of its piece only, in
the strict order of their offsets, and the block is of one of the pieces. -/
structure BlockArrival where
  pieces : Store
  p : block_t
  piece_index_eq : ∀ (k : Nat), ∀ blocks ∈ pieces[k]?, ∀ b ∈ blocks, b.piece_index.toInt = k
  increasing : ∀ blocks ∈ pieces, Increasing block_t.position blocks
  index_nonneg : 0 ≤ p.piece_index.toInt
  index_lt : p.piece_index.toInt < pieces.length

namespace BlockArrival
variable (a : BlockArrival)

/-- The piece of the block. -/
def index : Nat := a.p.piece_index.toInt.toNat

theorem index_lt_length : a.index < a.pieces.length := by
  have h0 := a.index_nonneg
  have hlt := a.index_lt
  rw [index]
  omega

/-- The blocks of it that are stored. -/
def blocks : List block_t := a.pieces.get ⟨a.index, a.index_lt_length⟩

/-- No block with the same offset is stored. -/
def New : Prop := ∀ b ∈ a.blocks, b.offset ≠ a.p.offset

/-- The store and `inserted` after the insertion of the block into an ordered set: its piece
holds the old blocks, and the block if it is new. -/
structure InsertedInto (pieces : Store) (inserted : Bool) : Prop where
  others : ∀ k, k ≠ a.index → pieces[k]? = a.pieces[k]?
  inserted_iff : inserted = true ↔ a.New
  blocks : ∃ blocks ∈ pieces[a.index]?, Increasing block_t.position blocks ∧
    ∀ b, b ∈ blocks ↔ b ∈ a.blocks ∨ b = a.p ∧ a.New

/-- **The insertion is that into an ordered set.** -/
def OrderedInsertion : Prop :=
  ∃ pieces inserted, insertPass a.p false a.pieces = .ok (pieces, inserted) ∧
    a.InsertedInto pieces inserted

/-- No vector is empty, and the block does not go behind the last one of its piece. -/
def HasPlace : Prop :=
  (∀ blocks ∈ a.pieces, blocks ≠ []) ∧ ∃ b ∈ a.blocks, a.p.offset.toInt ≤ b.offset.toInt

/-! ## The pass over a store in order -/

variable {a}

/-- A vector of another piece that is not empty begins with a block of that piece. -/
theorem head_of_ne {k : Nat} {blocks : List block_t} (hk : a.pieces[k]? = some blocks)
    (hne : blocks ≠ []) (hindex : k ≠ a.index) :
    ∃ b bs, blocks = b :: bs ∧ b.piece_index ≠ a.p.piece_index := by
  obtain ⟨b, bs, rfl⟩ := List.exists_cons_of_ne_nil hne
  refine ⟨b, bs, rfl, ?_⟩
  intro heq
  have hb := a.piece_index_eq k (b :: bs) hk b List.mem_cons_self
  apply hindex
  rw [index, ← heq, hb, Int.toNat_natCast]

/-- The pass over a store without empty vectors. -/
theorem insertPass_set (h : ∀ blocks ∈ a.pieces, blocks ≠ []) :
    insertPass a.p false a.pieces =
      .ok (a.pieces.set a.index (insertLoop a.p a.blocks).1, (insertLoop a.p a.blocks).2) := by
  obtain ⟨before, after, heq, hlength, hset⟩ : ∃ before after,
      a.pieces = before ++ a.blocks :: after ∧ before.length = a.index ∧
        a.pieces.set a.index (insertLoop a.p a.blocks).1 =
          before ++ (insertLoop a.p a.blocks).1 :: after := List.exists_of_set a.index_lt_length
  have hbefore : Foreign a.p before := by
    intro blocks hmem
    obtain ⟨k, hk, rfl⟩ := List.getElem_of_mem hmem
    have hget : a.pieces[k]? = some before[k] := by
      rw [heq, List.getElem?_append_left hk, List.getElem?_eq_getElem hk]
    exact head_of_ne hget (h _ (List.mem_of_getElem? hget)) (by omega)
  have hafter : Foreign a.p after := by
    intro blocks hmem
    obtain ⟨k, hk, rfl⟩ := List.getElem_of_mem hmem
    have hget : a.pieces[before.length + (k + 1)]? = some after[k] := by
      rw [heq, List.getElem?_append_right (by omega), Nat.add_sub_cancel_left,
        List.getElem?_cons_succ, List.getElem?_eq_getElem hk]
    exact head_of_ne hget (h _ (List.mem_of_getElem? hget)) (by omega)
  have hmem : a.blocks ∈ a.pieces := List.get_mem _ _
  obtain ⟨b, bs, hblocks⟩ := List.exists_cons_of_ne_nil (h _ hmem)
  have hindex : b.piece_index = a.p.piece_index := by
    have hget : a.pieces[a.index]? = some a.blocks := List.getElem?_eq_getElem _
    have hb := a.piece_index_eq a.index a.blocks hget b (by rw [hblocks]; exact List.mem_cons_self)
    have h0 := a.index_nonneg
    rw [index] at hb
    exact Int32.toInt_inj.mp (by omega)
  rw [hset]
  conv_lhs => rw [heq]
  rw [hblocks]
  exact insertPass_eq hbefore hafter hindex

theorem increasing_blocks : Increasing block_t.position a.blocks :=
  a.increasing a.blocks (List.get_mem _ _)

/-- A block that has a place is inserted if it is new. -/
theorem inserts_iff_new (h : a.HasPlace) : (insertLoop a.p a.blocks).2 = true ↔ a.New := by
  rw [insertLoop_eq, inserts_iff increasing_blocks]
  constructor
  · rintro ⟨hfree, -⟩ b hb heq
    exact hfree b hb (congrArg Int32.toInt heq)
  · intro hnew
    have hfree : ∀ b ∈ a.blocks, b.position ≠ a.p.position := by
      intro b hb heq
      exact hnew b hb (Int32.toInt_inj.mp heq)
    obtain ⟨b, hb, hle⟩ := h.2
    exact ⟨hfree, b, hb, lt_of_le_of_ne hle (hfree b hb).symm⟩

/-- What the vector of the piece holds afterwards. -/
theorem mem_insertLoop (h : a.HasPlace) (b : block_t) :
    b ∈ (insertLoop a.p a.blocks).1 ↔ b ∈ a.blocks ∨ b = a.p ∧ a.New := by
  have hiff := inserts_iff_new h
  by_cases hnew : a.New
  · have hperm := hiff.mpr hnew
    rw [insertLoop_eq] at hperm ⊢
    rw [(perm_insertFirst hperm).mem_iff, List.mem_cons, or_comm]
    simp only [hnew, and_true]
  · have hnot : (insertLoop a.p a.blocks).2 = false := by
      rw [← hiff] at hnew
      exact Bool.eq_false_iff.mpr hnew
    rw [insertLoop_eq] at hnot ⊢
    rw [insertFirst_eq_of_not hnot]
    simp only [hnew, and_false, or_false]

/-- **Exactly when the insertion is that into an ordered set.** -/
theorem orderedInsertion_iff : a.OrderedInsertion ↔ a.HasPlace := by
  constructor
  · rintro ⟨pieces, inserted, hpass, hspec⟩
    have hnonempty : ∀ blocks ∈ a.pieces, blocks ≠ [] := by
      rintro blocks hmem rfl
      rw [insertPass_fault hmem] at hpass
      cases hpass
    refine ⟨hnonempty, ?_⟩
    by_contra hnone
    have hnew : a.New := by
      intro b hb heq
      exact hnone ⟨b, hb, by rw [heq]⟩
    obtain ⟨-, hflag⟩ := Prod.mk.inj (Except.ok.inj (hpass.symm.trans (insertPass_set hnonempty)))
    have hinserted := hspec.inserted_iff.mpr hnew
    rw [hflag, insertLoop_eq, inserts_iff increasing_blocks] at hinserted
    obtain ⟨-, b, hb, hlt⟩ := hinserted
    exact hnone ⟨b, hb, Int.le_of_lt hlt⟩
  · intro h
    refine ⟨_, _, insertPass_set h.1, ?_, inserts_iff_new h, ?_⟩
    · intro k hk
      exact List.getElem?_set_ne hk.symm
    · refine ⟨_, List.getElem?_set_self a.index_lt_length, ?_, mem_insertLoop h⟩
      rw [insertLoop_eq]
      exact increasing_blocks.insertFirst

end BlockArrival

/-- The first block of a torrent of one piece. -/
def firstBlock : BlockArrival where
  pieces := [[]]
  p := ⟨0, 0, []⟩
  piece_index_eq := by
    intro k blocks hk b hb
    obtain rfl := List.mem_singleton.mp (List.mem_of_getElem? hk)
    cases hb
  increasing := by
    intro blocks hmem
    obtain rfl := List.mem_singleton.mp hmem
    exact List.Pairwise.nil
  index_nonneg := by decide
  index_lt := by decide

/-- The block behind the one that is stored. -/
def nextBlock : BlockArrival where
  pieces := [[⟨0, 0, []⟩]]
  p := ⟨0, 16384, []⟩
  piece_index_eq := by
    intro k blocks hk b hb
    obtain ⟨hlt, rfl⟩ := List.getElem?_eq_some_iff.mp hk
    obtain rfl : k = 0 := Nat.lt_one_iff.mp hlt
    obtain rfl := List.mem_singleton.mp hb
    rfl
  increasing := by
    intro blocks hmem
    obtain rfl := List.mem_singleton.mp hmem
    exact List.pairwise_singleton _ _
  index_nonneg := by decide
  index_lt := by decide

/-- Neither is inserted. -/
theorem not_orderedInsertion_first :
    ¬ (firstBlock.OrderedInsertion ∨ nextBlock.OrderedInsertion) := by
  rintro (h | h)
  · exact absurd rfl ((BlockArrival.orderedInsertion_iff.mp h).1 [] List.mem_cons_self)
  · obtain ⟨-, b, hb, hle⟩ := BlockArrival.orderedInsertion_iff.mp h
    obtain rfl := List.mem_singleton.mp hb
    exact absurd hle (by decide)

end TorrentClient
