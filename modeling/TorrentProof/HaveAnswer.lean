import Mathlib
import TorrentProof.HaveBranch
import TorrentProof.MsgRoundTrip
import TorrentProof.Dispatch
import TorrentProof.ReadMetafile

/-! # What a have is answered with

A have is answered with requests, and two things are to be expected of them: that they are
for the piece the peer announced, and that they stay inside the data.  `decode` does not
read the index of a have, so the first holds only by chance (`answeredFor_iff`).  For the
second, the branch asks for a piece of full length, whatever its index: the requests stay
inside the data if the whole piece does (`requestsInside_iff`).
-/
namespace TorrentClient
open Bytes

/-! ## The index -/

/-- The requests in answer to the bytes `MSG::have` writes for `index` into a buffer that
held `msg`. -/
def answerToHave (size : SizePtr) (piece_length : UInt32) (index : Int32) (msg behind : Mem)
    (l : Locals) (fuel : Nat) : List Range :=
  let e := MSG.«have» msg index
  match dispatch (MSG.decode l.retMsg l.chr (Mem.ofList e.bytes behind) e.msgByte).val with
  | .«have» i => (haveBranch size piece_length i fuel).ranges
  | _ => []

/-- **A have is answered for the announced piece**: whatever the buffers held, every request
in answer carries its index. -/
def AnsweredFor (size : SizePtr) (piece_length : UInt32) (l : Locals) (index : Int32) : Prop :=
  ∀ msg behind fuel, ∀ r ∈ answerToHave size piece_length index msg behind l fuel,
    r.index = index

section Index
variable {size : SizePtr} {piece_length : UInt32} {index : Int32} {l : Locals}

theorem mem_request {r r' : Range} {rest : Calls} :
    r' ∈ (request size r rest).ranges ↔ r' = r ∨ size = .cell ∧ r' ∈ rest.ranges := by
  cases size with
  | null => simp [request]
  | cell => simp [request]

/-- The branch is the loop from the start of a piece of `piece_length` bytes, as an `int`. -/
theorem haveBranch_eq (fuel : Nat) : haveBranch size piece_length index fuel =
    requestLoop size index fuel 0 piece_length.toInt32.toInt := by
  unfold haveBranch
  by_cases hlt : 16384 < piece_length
  · rw [if_pos hlt]
  · have hle : piece_length.toNat ≤ 16384 := by
      rw [UInt32.lt_iff_toNat_lt] at hlt
      exact Nat.not_lt.mp hlt
    have hleft : piece_length.toInt32.toInt = piece_length.toNat := toInt_toInt32 (by omega)
    rw [if_neg hlt]
    unfold requestLoop
    rw [if_neg (by omega), Int32.ofInt_toInt]
    rfl

/-- When no more than a block is left the loop makes one request. -/
theorem mem_requestLoop_last {fuel : Nat} {acc left : Int} (h : ¬ 16384 < left) {r : Range} :
    r ∈ (requestLoop size index fuel acc left).ranges ↔
      r = ⟨index, Int32.ofInt acc, Int32.ofInt left⟩ := by
  unfold requestLoop
  rw [if_neg h, mem_request]
  constructor
  · rintro (rfl | ⟨-, hrest⟩)
    · rfl
    · exact absurd hrest List.not_mem_nil
  · intro hr
    exact .inl hr

/-- Otherwise it makes one for a block, and goes on if the first call has returned. -/
theorem mem_requestLoop_succ {fuel : Nat} {acc left : Int} (h : 16384 < left) {r : Range} :
    r ∈ (requestLoop size index (fuel + 1) acc left).ranges ↔
      r = ⟨index, Int32.ofInt acc, 16384⟩ ∨
        size = .cell ∧ (IsInt (left - 16384) ∧ IsInt (acc + 16384)) ∧
          r ∈ (requestLoop size index fuel (acc + 16384) (left - 16384)).ranges := by
  conv_lhs => unfold requestLoop
  rw [if_pos h]
  dsimp only
  rw [mem_request]
  by_cases hints : IsInt (left - 16384) ∧ IsInt (acc + 16384)
  · rw [if_pos hints]
    simp only [hints, and_self, true_and]
  · rw [if_neg hints]
    simp only [hints, List.not_mem_nil, false_and]

/-- Without rounds left it makes none. -/
theorem not_mem_requestLoop_zero {acc left : Int} (h : 16384 < left) (r : Range) :
    r ∉ (requestLoop size index 0 acc left).ranges := by
  unfold requestLoop
  rw [if_pos h]
  exact List.not_mem_nil

/-- Every request of the loop is for the piece it is entered with. -/
theorem index_of_mem_requestLoop (fuel : Nat) (acc left : Int) {r : Range}
    (h : r ∈ (requestLoop size index fuel acc left).ranges) : r.index = index := by
  by_cases hlt : 16384 < left
  · induction fuel generalizing acc left with
    | zero => exact absurd h (not_mem_requestLoop_zero hlt r)
    | succ fuel ih =>
      rcases (mem_requestLoop_succ hlt).mp h with rfl | ⟨-, -, hrest⟩
      · rfl
      · by_cases hlt' : 16384 < left - 16384
        · exact ih _ _ hrest hlt'
        · rw [(mem_requestLoop_last hlt').mp hrest]
  · rw [(mem_requestLoop_last hlt).mp h]

/-- The first call of the loop. -/
theorem first_mem_requestLoop (left : Int) : ∃ (length : Int32),
    ⟨index, 0, length⟩ ∈ (requestLoop size index 1 0 left).ranges := by
  by_cases hlt : 16384 < left
  · exact ⟨16384, (mem_requestLoop_succ hlt).mpr (.inl rfl)⟩
  · exact ⟨Int32.ofInt left, (mem_requestLoop_last hlt).mpr rfl⟩

/-- The branch makes a call or does not come to its end. -/
theorem haveBranch_acts (fuel : Nat) :
    (∃ r, r ∈ (haveBranch size piece_length index fuel).ranges) ∨
      (haveBranch size piece_length index fuel).halt.isSome = true := by
  rw [haveBranch_eq]
  by_cases hlt : 16384 < piece_length.toInt32.toInt
  · cases fuel with
    | zero =>
      right
      unfold requestLoop
      rw [if_pos hlt]
      rfl
    | succ fuel =>
      left
      exact ⟨_, (mem_requestLoop_succ hlt).mpr (.inl rfl)⟩
  · left
    exact ⟨_, (mem_requestLoop_last hlt).mpr rfl⟩

/-- What is decoded from the bytes of a have is dispatched with the index of the stack. -/
theorem answerToHave_eq (msg behind : Mem) (fuel : Nat) :
    answerToHave size piece_length index msg behind l fuel =
      (requestLoop size l.retMsg.index fuel 0 piece_length.toInt32.toInt).ranges := by
  have hload := MSG.load32_have msg index
  obtain ⟨h19, hL, h4⟩ := MSG.bytes_head (MSG.«have» msg index) behind
    (show 5 ≤ 9 by decide) (by rw [hload]; simp)
  have hid : (MSG.«have» msg index).msg 4 = 4 := by
    rw [MSG.«have»]
    dsimp only
    rw [Mem.store32_of_not_mem _ _ (by omega), Mem.write_same]
  rw [hload] at hL
  rw [hid] at h4
  have hact : dispatch (MSG.decode l.retMsg l.chr
      (Mem.ofList (MSG.«have» msg index).bytes behind) (MSG.«have» msg index).msgByte).val =
      .«have» l.retMsg.index := by
    rw [MSG.val_decode_five h19 hL, h4]
    rfl
  unfold answerToHave
  dsimp only
  rw [hact]
  dsimp only
  rw [haveBranch_eq]

/-- The first request is for the index `retMsg` holds already. -/
theorem index_of_answeredFor (h : AnsweredFor size piece_length l index) :
    l.retMsg.index = index := by
  obtain ⟨length, hmem⟩ : ∃ (length : Int32), ⟨l.retMsg.index, 0, length⟩ ∈
      (requestLoop size l.retMsg.index 1 0 piece_length.toInt32.toInt).ranges :=
    first_mem_requestLoop _
  have hall := h (fun _ => 0) (fun _ => 0) 1
  rw [answerToHave_eq] at hall
  exact hall _ hmem

/-- **Exactly when a have is answered for the announced piece**: when the stack happens to
hold its index.  A request counts when it is passed to `m.request`. -/
theorem answeredFor_iff : AnsweredFor size piece_length l index ↔ l.retMsg.index = index := by
  constructor
  · intro h
    exact index_of_answeredFor h
  · intro h msg behind fuel r hr
    rw [answerToHave_eq] at hr
    rw [index_of_mem_requestLoop fuel _ _ hr, h]

end Index

/-- Piece 1 is announced, and piece 0 is asked for. -/
theorem not_answeredFor_one :
    ¬ ∃ size, AnsweredFor size 16384 ⟨default, fun _ => 0⟩ 1 := by
  rintro ⟨size, h⟩
  exact absurd (index_of_answeredFor h) (by decide)

/-! ## The data -/

/-- How many bytes of a piece the branch asks for: with the null pointer the first call is
the last. -/
def reach (size : SizePtr) (left : Int) : Int :=
  match size with
  | .null => min left 16384
  | .cell => left

/-- A metafile for a single file, with the integers it states. -/
structure SingleFile where
  piece_length : Int64
  length : Int64
  piece_length_pos : 1 ≤ piece_length.toInt
  length_nonneg : 0 ≤ length.toInt

namespace SingleFile

/-- The number of pieces, the last of which may be shorter. -/
def pieceCount (f : SingleFile) : Int :=
  (f.length.toInt + f.piece_length.toInt - 1) / f.piece_length.toInt

/-- A request for a block of at most 16384 bytes of the data. -/
structure Inside (f : SingleFile) (r : Range) : Prop where
  index_nonneg : 0 ≤ r.index.toInt
  index_lt : r.index.toInt < f.pieceCount
  begin_nonneg : 0 ≤ r.begin.toInt
  length_pos : 1 ≤ r.length.toInt
  length_le : r.length.toInt ≤ 16384
  end_le : r.index.toInt * f.piece_length.toInt + r.begin.toInt + r.length.toInt ≤ f.length.toInt

/-- **The requests stay inside the torrent**: however far the branch gets in answer to a
have for `index`.  The piece length it goes by is the one `create_metafile` stores. -/
def RequestsInside (f : SingleFile) (size : SizePtr) (index : Int32) : Prop :=
  ∀ fuel, ∀ r ∈ (haveBranch size (unsignedOf f.piece_length) index fuel).ranges, f.Inside r

/-- The piece length is stored as a positive `int`, and what is asked for of piece `index`
is all inside the data. -/
structure Fits (f : SingleFile) (size : SizePtr) (index : Int32) : Prop where
  stored_pos : 1 ≤ (unsignedOf f.piece_length).toNat
  stored_lt : (unsignedOf f.piece_length).toNat < 2 ^ 31
  index_nonneg : 0 ≤ index.toInt
  end_le : index.toInt * f.piece_length.toInt + reach size (unsignedOf f.piece_length).toNat ≤
    f.length.toInt

section Bounds
variable {f : SingleFile} {size : SizePtr} {index : Int32}

/-- A piece that has data is one of the pieces. -/
theorem index_lt_pieceCount (h : index.toInt * f.piece_length.toInt < f.length.toInt) :
    index.toInt < f.pieceCount := by
  have hp := f.piece_length_pos
  rw [pieceCount, Int.lt_iff_add_one_le, Int.le_ediv_iff_mul_le (by omega), Int.add_mul]
  omega

theorem reach_of_le {left : Int} (h : ¬ 16384 < left) : reach size left = left := by
  cases size with
  | null => exact min_eq_left (Int.not_lt.mp h)
  | cell => rfl

theorem le_reach {left : Int} (h : 16384 < left) : 16384 ≤ reach size left := by
  cases size with
  | null => exact le_min (by omega) (le_refl _)
  | cell => exact Int.le_of_lt h

section Loop
variable {acc left : Int} (h0 : 0 ≤ acc) (h1 : 1 ≤ left) (hsum : acc + left < 2 ^ 31)
include h0 h1 hsum

theorem toInt_last : (Int32.ofInt acc).toInt = acc ∧
    (left ≤ 16384 → (Int32.ofInt left).toInt = left) := by
  refine ⟨Int32.toInt_ofInt_of_le (by omega) (by omega), ?_⟩
  intro hle
  exact Int32.toInt_ofInt_of_le (by omega) (by omega)

/-- What the loop asks for, from a state with `acc + left` in the range of an `int`: blocks
between `acc` and where the branch gets. -/
theorem requestLoop_bounds (fuel : Nat) {r : Range}
    (h : r ∈ (requestLoop size index fuel acc left).ranges) :
    acc ≤ r.begin.toInt ∧ 1 ≤ r.length.toInt ∧ r.length.toInt ≤ 16384 ∧
      r.begin.toInt + r.length.toInt ≤ acc + reach size left := by
  have hblock : (16384 : Int32).toInt = 16384 := rfl
  induction fuel generalizing acc left with
  | zero =>
    obtain ⟨hacc, hleft⟩ := toInt_last h0 h1 hsum
    by_cases hlt : 16384 < left
    · exact absurd h (not_mem_requestLoop_zero hlt r)
    · rw [(mem_requestLoop_last hlt).mp h, reach_of_le hlt]
      dsimp only
      omega
  | succ fuel ih =>
    obtain ⟨hacc, hleft⟩ := toInt_last h0 h1 hsum
    by_cases hlt : 16384 < left
    · rcases (mem_requestLoop_succ hlt).mp h with rfl | ⟨rfl, -, hrest⟩
      · have hreach : 16384 ≤ reach size left := le_reach hlt
        dsimp only
        omega
      · have hcell : ∀ x, reach .cell x = x := fun _ => rfl
        obtain ⟨hlo, hpos, hle, hhi⟩ := ih (by omega) (by omega) (by omega) hrest
        rw [hcell] at hhi ⊢
        omega
    · rw [(mem_requestLoop_last hlt).mp h, reach_of_le hlt]
      dsimp only
      omega

/-- The single request for what is left gets there. -/
theorem requestLoop_reaches_last (fuel : Nat) (h : ¬ 16384 < left) :
    ∃ r ∈ (requestLoop size index fuel acc left).ranges,
      r.begin.toInt + r.length.toInt = acc + reach size left := by
  obtain ⟨hacc, hleft⟩ := toInt_last h0 h1 hsum
  refine ⟨_, (mem_requestLoop_last h).mpr rfl, ?_⟩
  rw [reach_of_le h, hacc, hleft (Int.not_lt.mp h)]

/-- With rounds enough the loop comes to the end of what it asks for. -/
theorem requestLoop_reaches (fuel : Nat) (hfuel : left ≤ 16384 * (fuel + 1)) :
    ∃ r ∈ (requestLoop size index fuel acc left).ranges,
      r.begin.toInt + r.length.toInt = acc + reach size left := by
  induction fuel generalizing acc left with
  | zero => exact requestLoop_reaches_last h0 h1 hsum 0 (by omega)
  | succ fuel ih =>
    by_cases hlt : 16384 < left
    · cases size with
      | null =>
        refine ⟨_, (mem_requestLoop_succ hlt).mpr (.inl rfl), ?_⟩
        rw [(toInt_last h0 h1 hsum).1]
        exact congrArg (acc + ·) (min_eq_right (Int.le_of_lt hlt)).symm
      | cell =>
        have hints : IsInt (left - 16384) ∧ IsInt (acc + 16384) := by
          unfold IsInt
          omega
        have hcell : ∀ x, reach .cell x = x := fun _ => rfl
        obtain ⟨r, hr, hend⟩ := @ih (acc + 16384) (left - 16384) (by omega) (by omega)
          (by omega) (by omega)
        rw [hcell] at hend ⊢
        refine ⟨r, (mem_requestLoop_succ hlt).mpr (.inr ⟨rfl, hints, hr⟩), ?_⟩
        omega
    · exact requestLoop_reaches_last h0 h1 hsum (fuel + 1) hlt

end Loop

/-- A word that is a positive `int` is below `2 ^ 31`. -/
theorem toInt32_pos_iff {w : UInt32} :
    1 ≤ w.toInt32.toInt ↔ 1 ≤ w.toNat ∧ w.toNat < 2 ^ 31 := by
  constructor
  · intro h
    have hw : (w.toInt32.toUInt32.toNat : Int) = w.toInt32.toInt := toNat_toUInt32 (by omega)
    have hlt := w.toInt32.toInt_lt
    rw [UInt32.toUInt32_toInt32] at hw
    omega
  · rintro ⟨h1, h⟩
    rw [toInt_toInt32 h]
    omega

/-- The first request shows that the index is not negative. -/
theorem index_nonneg_of_inside (h : f.RequestsInside size index) : 0 ≤ index.toInt := by
  obtain ⟨length, hmem⟩ : ∃ (length : Int32), ⟨index, 0, length⟩ ∈ (requestLoop size index 1 0
      (unsignedOf f.piece_length).toInt32.toInt).ranges := first_mem_requestLoop _
  rw [← haveBranch_eq] at hmem
  exact (h 1 _ hmem).index_nonneg

/-- A piece length that is not a positive `int` makes the only request one for no more than
0 bytes. -/
theorem piece_length_pos_of_inside (h : f.RequestsInside size index) :
    1 ≤ (unsignedOf f.piece_length).toInt32.toInt := by
  by_contra hneg
  have hmem : ⟨index, Int32.ofInt 0, Int32.ofInt (unsignedOf f.piece_length).toInt32.toInt⟩ ∈
      (requestLoop size index 0 0 (unsignedOf f.piece_length).toInt32.toInt).ranges :=
    (mem_requestLoop_last (by omega)).mpr rfl
  rw [← haveBranch_eq] at hmem
  have hpos := (h 0 _ hmem).length_pos
  rw [Int32.ofInt_toInt] at hpos
  exact hneg hpos

/-- Requests that stay inside reach no further than the data. -/
theorem fits_of_inside (h : f.RequestsInside size index) : f.Fits size index := by
  have h1 := piece_length_pos_of_inside h
  obtain ⟨hpos, hlt⟩ := toInt32_pos_iff.mp h1
  have hint := toInt_toInt32 hlt
  obtain ⟨r, hr, hend⟩ : ∃ r ∈ (requestLoop size index (unsignedOf f.piece_length).toNat 0
      (unsignedOf f.piece_length).toInt32.toInt).ranges, r.begin.toInt + r.length.toInt =
        0 + reach size (unsignedOf f.piece_length).toInt32.toInt :=
    requestLoop_reaches (le_refl 0) h1 (by omega) _ (by omega)
  have hi := index_of_mem_requestLoop _ _ _ hr
  rw [← haveBranch_eq] at hr
  have hinside := (h _ r hr).end_le
  rw [hi] at hinside
  rw [hint] at hend
  exact ⟨hpos, hlt, index_nonneg_of_inside h, by omega⟩

/-- If all that is asked for is inside the data, every request is. -/
theorem inside_of_fits (h : f.Fits size index) : f.RequestsInside size index := by
  intro fuel r hr
  have hp := f.piece_length_pos
  have h1 := toInt32_pos_iff.mpr ⟨h.stored_pos, h.stored_lt⟩
  have hint := toInt_toInt32 h.stored_lt
  have hlt := h.stored_lt
  have hend := h.end_le
  rw [haveBranch_eq] at hr
  have hi := index_of_mem_requestLoop fuel _ _ hr
  obtain ⟨hlo, hpos, hle, hhi⟩ := requestLoop_bounds (le_refl 0) h1 (by omega) fuel hr
  rw [hint] at hhi
  refine ⟨?_, ?_, hlo, hpos, hle, ?_⟩
  · rw [hi]
    exact h.index_nonneg
  · rw [hi]
    exact index_lt_pieceCount (by omega)
  · rw [hi]
    omega

/-- **Exactly when the requests stay inside the torrent.**  A request counts when it is passed
to `m.request`. -/
theorem requestsInside_iff : f.RequestsInside size index ↔ f.Fits size index :=
  ⟨fits_of_inside, inside_of_fits⟩

end Bounds

/-- A piece of one block and a last piece of one byte. -/
def oneMore : SingleFile where
  piece_length := 16384
  length := 16385
  piece_length_pos := by decide
  length_nonneg := by decide

/-- The last piece is asked for as if it had the length of the others. -/
theorem not_requestsInside_oneMore : ¬ ∃ size, oneMore.RequestsInside size 1 := by
  rintro ⟨size, h⟩
  have hend := (fits_of_inside h).end_le
  cases size with
  | null => exact absurd hend (by decide)
  | cell => exact absurd hend (by decide)

end SingleFile
end TorrentClient
