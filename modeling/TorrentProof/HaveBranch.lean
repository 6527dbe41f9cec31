import Mathlib
import TorrentProof.Send

/-! # The answer to a have

The branch for a have message asks the peer for the piece in blocks of at most 16384
bytes.  A call of `MSG::request` stores the length of the message through `size`, so with
the null pointer it is declared with the first call is the last; with a pointer that
leads somewhere the calls tile the piece.  `tiled_iff` says so.
-/
namespace TorrentClient
open Bytes

/-- The arguments of a call `m.request(msg, size, index, begin, length)`. -/
structure Range where
  index : Int32
  begin : Int32
  length : Int32
  deriving DecidableEq

/-- Why the branch does not come to its end. -/
inductive Halt where
  /-- it is still running -/
  | running
  /-- `*msgByte = 17` through a null pointer -/
  | nullPointer
  /-- `acc` or `left` leaves the range of an `int` -/
  | overflow
  deriving DecidableEq

/-- The calls of `m.request` the branch makes, in order. -/
structure Calls where
  ranges : List Range
  halt : Option Halt

/-- `m.request(msg, size, …)`, the loop that sends the message, and `rest`. -/
def request (size : SizePtr) (r : Range) (rest : Calls) : Calls :=
  match size with
  | .null => ⟨[r], some .nullPointer⟩
  | .cell => ⟨r :: rest.ranges, rest.halt⟩

/-- The value fits an `int`. -/
def IsInt (x : Int) : Prop := -2 ^ 31 ≤ x ∧ x < 2 ^ 31

instance (x : Int) : Decidable (IsInt x) := inferInstanceAs (Decidable (_ ∧ _))

/-- `while (left > 16384)` and the request for the remainder, at most `fuel` rounds. -/
def requestLoop (size : SizePtr) (index : Int32) : Nat → Int → Int → Calls
  | fuel, acc, left =>
    if 16384 < left then
      match fuel with
      | 0 => ⟨[], some .running⟩
      | fuel + 1 =>
        request size ⟨index, Int32.ofInt acc, 16384⟩
          (if IsInt (left - 16384) ∧ IsInt (acc + 16384) then
            requestLoop size index fuel (acc + 16384) (left - 16384)
          else ⟨[], some .overflow⟩)
    else request size ⟨index, Int32.ofInt acc, Int32.ofInt left⟩ ⟨[], none⟩

/-- The branch for `msgType == 4`, where `retMsg.index` is `index`. -/
def haveBranch (size : SizePtr) (piece_length : UInt32) (index : Int32) (fuel : Nat) : Calls :=
  if 16384 < piece_length then requestLoop size index fuel 0 piece_length.toInt32.toInt
  else request size ⟨index, 0, piece_length.toInt32⟩ ⟨[], none⟩

/-! ## Tilings -/

/-- The ranges cover `total` bytes of the piece `index` from `start` on, without gap and
overlap, all but the last of full size. -/
structure Tiling (index : Int32) (start total : Int) (rs : List Range) : Prop where
  index_eq : ∀ r ∈ rs, r.index = index
  first : ∃ r ∈ rs.head?, r.begin.toInt = start
  next : rs.IsChain fun r r' => r'.begin.toInt = r.begin.toInt + r.length.toInt
  bounds : ∀ r ∈ rs, 1 ≤ r.length.toInt ∧ r.length.toInt ≤ 16384
  full : ∀ r ∈ rs.dropLast, r.length.toInt = 16384
  sum_eq : (rs.map fun r => r.length.toInt).sum = total

section Tiling
variable {index : Int32} {start total : Int} {r : Range} {rs : List Range}

theorem tiling_singleton (hi : r.index = index) (hb : r.begin.toInt = start)
    (hl : r.length.toInt = total) (h1 : 1 ≤ total) (h2 : total ≤ 16384) :
    Tiling index start total [r] where
  index_eq := by
    intro r' hr
    rw [List.mem_singleton.mp hr, hi]
  first := ⟨r, rfl, hb⟩
  next := List.isChain_singleton r
  bounds := by
    intro r' hr
    rw [List.mem_singleton.mp hr]
    omega
  full := by
    intro r' hr
    exact absurd hr List.not_mem_nil
  sum_eq := by
    rw [List.map_singleton, List.sum_singleton, hl]

/-- A full block in front of a tiling. -/
theorem Tiling.cons (h : Tiling index (start + 16384) total rs) (hi : r.index = index)
    (hb : r.begin.toInt = start) (hl : r.length.toInt = 16384) :
    Tiling index start (total + 16384) (r :: rs) where
  index_eq := by
    intro r' hr
    rcases List.mem_cons.mp hr with rfl | hr
    · exact hi
    · exact h.index_eq r' hr
  first := ⟨r, rfl, hb⟩
  next := by
    obtain ⟨r', hr', hb'⟩ := h.first
    refine List.isChain_cons.mpr ⟨?_, h.next⟩
    intro y hy
    obtain rfl := Option.some.inj (hr'.symm.trans hy)
    rw [hb', hb, hl]
  bounds := by
    intro r' hr
    rcases List.mem_cons.mp hr with rfl | hr
    · omega
    · exact h.bounds r' hr
  full := by
    intro r' hr
    obtain ⟨r₁, hr₁, -⟩ := h.first
    obtain ⟨rs', rfl⟩ := List.head?_eq_some_iff.mp hr₁
    rw [List.dropLast_cons_cons] at hr
    rcases List.mem_cons.mp hr with rfl | hr
    · exact hl
    · exact h.full r' hr
  sum_eq := by
    rw [List.map_cons, List.sum_cons, h.sum_eq, hl]
    omega

end Tiling

/-- **The requests tile the piece**: the branch makes finitely many calls, without leaving
the range of an `int`, and they tile the piece. -/
def Tiled (size : SizePtr) (piece_length : UInt32) (index : Int32) : Prop :=
  ∃ fuel, (haveBranch size piece_length index fuel).halt ≠ some .running ∧
    (haveBranch size piece_length index fuel).halt ≠ some .overflow ∧
    Tiling index 0 piece_length.toNat (haveBranch size piece_length index fuel).ranges

/-! ## The loop -/

section Loop
variable {index : Int32}

/-- The request for the remainder. -/
theorem requestLoop_last (fuel : Nat) {acc left : Int} (h0 : 0 ≤ acc) (h1 : 1 ≤ left)
    (hsum : acc + left < 2 ^ 31) (hle : left ≤ 16384) :
    (requestLoop .cell index fuel acc left).halt = none ∧
      Tiling index acc left (requestLoop .cell index fuel acc left).ranges := by
  unfold requestLoop
  rw [if_neg (by omega)]
  exact ⟨rfl, tiling_singleton rfl (Int32.toInt_ofInt_of_le (by omega) (by omega))
    (Int32.toInt_ofInt_of_le (by omega) (by omega)) h1 hle⟩

/-- The loop, from a state with `acc + left` in the range of an `int`: what is left is
requested from `acc` on. -/
theorem requestLoop_cell (fuel : Nat) (acc left : Int) (h0 : 0 ≤ acc) (h1 : 1 ≤ left)
    (hsum : acc + left < 2 ^ 31) (hfuel : left ≤ 16384 * (fuel + 1)) :
    (requestLoop .cell index fuel acc left).halt = none ∧
      Tiling index acc left (requestLoop .cell index fuel acc left).ranges := by
  induction fuel generalizing acc left with
  | zero => exact requestLoop_last 0 h0 h1 hsum (by omega)
  | succ fuel ih =>
    by_cases hle : left ≤ 16384
    · exact requestLoop_last (fuel + 1) h0 h1 hsum hle
    · have hints : IsInt (left - 16384) ∧ IsInt (acc + 16384) := by
        unfold IsInt
        omega
      obtain ⟨hhalt, htiling⟩ := ih (acc + 16384) (left - 16384) (by omega) (by omega) (by omega)
        (by omega)
      unfold requestLoop
      rw [if_pos (by omega)]
      dsimp only
      rw [if_pos hints]
      refine ⟨hhalt, ?_⟩
      have := htiling.cons (r := ⟨index, Int32.ofInt acc, 16384⟩) rfl
        (Int32.toInt_ofInt_of_le (by omega) (by omega)) rfl
      rwa [Int.sub_add_cancel] at this

end Loop

section Branch
variable {size : SizePtr} {piece_length : UInt32} {index : Int32}

/-- A piece of one block needs one request, which is made whatever comes of it. -/
theorem tiled_of_le (h1 : 1 ≤ piece_length.toNat) (h : piece_length.toNat ≤ 16384) :
    Tiled size piece_length index := by
  have hlen : piece_length.toInt32.toInt = piece_length.toNat := toInt_toInt32 (by omega)
  have hcond : ¬ 16384 < piece_length := by
    rw [UInt32.lt_iff_toNat_lt]
    exact Nat.not_lt.mpr h
  refine ⟨0, ?_⟩
  rw [haveBranch, if_neg hcond]
  cases size with
  | null => exact ⟨nofun, nofun, tiling_singleton rfl rfl hlen (by omega) (by omega)⟩
  | cell => exact ⟨nofun, nofun, tiling_singleton rfl rfl hlen (by omega) (by omega)⟩

/-- A piece of several blocks is asked for in the loop, from its start on. -/
theorem haveBranch_of_lt (h : 16384 < piece_length.toNat) (hlt : piece_length.toNat < 2 ^ 31)
    (fuel : Nat) : haveBranch size piece_length index fuel =
      requestLoop size index fuel 0 piece_length.toNat := by
  have hlen : piece_length.toInt32.toInt = piece_length.toNat := toInt_toInt32 hlt
  have hcond : 16384 < piece_length := by
    rw [UInt32.lt_iff_toNat_lt]
    exact h
  rw [haveBranch, if_pos hcond, hlen]

/-- With a size to write to, all requests are made. -/
theorem tiled_cell (h1 : 1 ≤ piece_length.toNat) (h : piece_length.toNat < 2 ^ 31) :
    Tiled .cell piece_length index := by
  by_cases hle : piece_length.toNat ≤ 16384
  · exact tiled_of_le h1 hle
  · obtain ⟨hhalt, htiling⟩ : (requestLoop .cell index piece_length.toNat 0
        piece_length.toNat).halt = none ∧ Tiling index 0 piece_length.toNat
          (requestLoop .cell index piece_length.toNat 0 piece_length.toNat).ranges :=
      requestLoop_cell _ _ _ (by omega) (by omega) (by omega) (by omega)
    refine ⟨piece_length.toNat, ?_⟩
    rw [haveBranch_of_lt (Nat.not_le.mp hle) h, hhalt]
    exact ⟨nofun, nofun, htiling⟩

/-- Without one, a piece of several blocks is asked for its first block only. -/
theorem not_tiled_null (h : 16384 < piece_length.toNat) (hlt : piece_length.toNat < 2 ^ 31) :
    ¬ Tiled .null piece_length index := by
  rintro ⟨fuel, hrunning, -, htiling⟩
  rw [haveBranch_of_lt h hlt] at hrunning htiling
  unfold requestLoop at hrunning htiling
  rw [if_pos (by omega)] at hrunning htiling
  cases fuel with
  | zero => exact hrunning rfl
  | succ fuel =>
    have hsum : (16384 : Int) + 0 = piece_length.toNat := htiling.sum_eq
    omega

/-- **Exactly when the requests tile the piece.** -/
theorem tiled_iff (h1 : 1 ≤ piece_length.toNat) (h : piece_length.toNat ≤ 2 ^ 31 - 1) :
    Tiled size piece_length index ↔ size = .cell ∨ piece_length.toNat ≤ 16384 := by
  cases size with
  | null =>
    constructor
    · intro htiled
      by_contra hnot
      rw [not_or, Nat.not_le] at hnot
      exact not_tiled_null hnot.2 (by omega) htiled
    · rintro (hsize | hle)
      · cases hsize
      · exact tiled_of_le h1 hle
  | cell =>
    constructor
    · intro _
      exact .inl rfl
    · intro _
      exact tiled_cell h1 (by omega)

theorem tiled_two_and_a_half : Tiled .cell 40960 3 :=
  (tiled_iff (by decide) (by decide)).mpr (.inl rfl)

/-- A piece of one byte more than a block. -/
theorem not_tiled_one_more : ¬ Tiled .null 16385 0 := not_tiled_null (by decide) (by decide)

end Branch

end TorrentClient
