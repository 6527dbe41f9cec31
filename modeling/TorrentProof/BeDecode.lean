import Mathlib
import TorrentProof.BeNode
import TorrentProof.Fuelled
import TorrentProof.Numerals

/-! # `be_decoden`

The decoder of `bencode.c` walks a pointer through the text and counts down the bytes it has
left.  It looks at the count where a value begins and where a string is copied, and nowhere
else: a number or a list is read until something ends it, and a read behind the memory is a
fault.  An element that cannot be decoded ends its list as the closing `e` would, and a
dictionary whose entry fails goes on until a test of the wrong word of its array stops it.
-/
namespace TorrentClient
open Bencode Decimal Fallible Fuelled Numerals

/-- `*data` and `*data_len`: the memory from the pointer on, and the count.  With them, how
many blocks of the heap are allocated. -/
structure Cursor where
  data : List UInt8
  data_len : Int
  live : Nat
  deriving DecidableEq

namespace Cursor

/-- `**data`. -/
def peek (c : Cursor) : Except Fault UInt8 :=
  match c.data with
  | [] => .error .outOfBounds
  | b :: _ => .ok b

/-- `*data += n; *data_len -= n`. -/
def eat (c : Cursor) (n : Nat) : Cursor :=
  { c with data := c.data.drop n, data_len := c.data_len - n }

/-- A call of `malloc`, or of `realloc` with the null pointer. -/
def alloc (c : Cursor) : Cursor := { c with live := c.live + 1 }

/-- A call of `free`. -/
def free (c : Cursor) : Cursor := { c with live := c.live - 1 }

end Cursor

/-- `_be_decode_int(data, data_len)`. -/
def _be_decode_int (c : Cursor) : Except Fault (Int64 × Cursor) :=
  match strtoll c.data with
  | none => .error .outOfBounds
  | some (ret, endp) => .ok (ret, c.eat (c.data.length - endp.length))

/-- `_be_decode_str(data, data_len)`, where a `long` has the size of a `long long`. -/
def _be_decode_str (c : Cursor) : Except Fault (Option (List UInt8) × Cursor) := do
  let (sllen, c) ← _be_decode_int c
  if sllen < 0 then pure (none, c)
  else if c.data_len - 1 < sllen.toInt then pure (none, c)
  else
    let len := sllen.toInt.toNat
    if (← c.peek) = 58 then
      -- `memcpy(ret, *data + 1, len)`
      if c.data.length < len + 1 then throw .outOfBounds
      pure (some ((c.data.drop 1).take len), c.alloc.eat (len + 1))
    else pure (none, c)

/-- The array `val.d` while it is filled: the keys and values as they are stored. -/
abbrev DictArray := List (Option (List UInt8) × Option be_node)

/-- `realloc(ret->val.d, …)`: a new block where the array is still the null pointer. -/
def Cursor.grow (c : Cursor) (d : DictArray) : Cursor := if d = [] then c.alloc else c

/-- `!ret->val.l[i]` for the array of a dictionary.  Read as an array of pointers it holds a
key and a value for each entry, so word `i` belongs to entry `i / 2`. -/
def nullWord (d : DictArray) (i : Nat) : Bool :=
  match d[i / 2]? with
  | none => true
  | some (key, val) => if i % 2 = 0 then key.isNone else val.isNone

/-- The entries in front of the first null value. -/
def entriesOf : DictArray → List (Option (List UInt8) × be_node)
  | [] => []
  | (_, none) :: _ => []
  | (key, some val) :: d => (key, val) :: entriesOf d

section Loops
variable (decode : Cursor → Except (Stop Fault) (Option be_node × Cursor))

/-- The loop over the elements of a list, at most so many rounds of it. -/
def listLoop : Nat → Cursor → List be_node → Except (Stop Fault) (List be_node × Cursor)
  | 0, _, _ => .error .fuel
  | rounds + 1, c, l => do
    if (← lift c.peek) = 101 then pure (l, c)
    else
      let (val, c) ← decode c
      match val with
      | none => pure (l, c)
      | some val => listLoop rounds c (l ++ [val])

/-- The loop over the entries of a dictionary: the array and `i` after it. -/
def dictLoop : Nat → Cursor → DictArray → Except (Stop Fault) (DictArray × Nat × Cursor)
  | 0, _, _ => .error .fuel
  | rounds + 1, c, d => do
    let i := d.length
    if (← lift c.peek) = 101 then pure (d, i, c)
    else
      let (key, c) ← lift (_be_decode_str (c.grow d))
      let (val, c) ← decode c
      let d := d ++ [(key, val)]
      if nullWord d i then pure (d, i, c) else dictLoop rounds c d

end Loops

/-- `_be_decode(data, data_len)`, nested less than `fuel` deep. -/
def _be_decode : Nat → Cursor → Except (Stop Fault) (Option be_node × Cursor)
  | 0, _ => .error .fuel
  | fuel + 1, c => do
    if c.data_len = 0 then pure (none, c)
    else
      let b ← lift c.peek
      if b = 108 then
        -- one block for the node, one for the array, which an empty list has as well
        let (l, c) ← listLoop (_be_decode fuel) fuel (c.alloc.eat 1) []
        pure (some (.BE_LIST l), c.alloc.eat 1)
      else if b = 100 then
        let (d, i, c) ← dictLoop (_be_decode fuel) fuel (c.alloc.eat 1) []
        -- `ret->val.d[i].val = NULL`, where without a round of the loop there is no array
        if d = [] then throw (.err .nullPointer)
        pure (some (.BE_DICT (entriesOf (d.take i))), c.eat 1)
      else if b = 105 then
        let (i, c) ← lift (_be_decode_int (c.alloc.eat 1))
        if (← lift c.peek) ≠ 101 then pure (none, c.free)
        else pure (some (.BE_INT i), c.eat 1)
      else if 48 ≤ b ∧ b ≤ 57 then
        let (s, c) ← lift (_be_decode_str c.alloc)
        pure (some (.BE_STR s), c)
      else pure (none, c)

/-! ## Numbers and strings -/

section Reads
variable {c : Cursor} {i : Int64} {endp t : List UInt8}

/-- The pointer moved to `endp`, the count with it. -/
def Cursor.moveTo (c : Cursor) (endp : List UInt8) : Cursor :=
  { c with data := endp, data_len := c.data_len - (c.data.length - endp.length : Nat) }

theorem moveTo_of_suffix (h : endp <:+ c.data) :
    c.eat (c.data.length - endp.length) = c.moveTo endp := by
  obtain ⟨t, ht⟩ := h
  rw [Cursor.eat, Cursor.moveTo, ← ht, List.length_append, Nat.add_sub_cancel,
    List.drop_left]

theorem decode_int_eq (h : strtoll c.data = some (i, endp)) :
    _be_decode_int c = .ok (i, c.moveTo endp) := by
  rw [_be_decode_int, h, ← moveTo_of_suffix (suffix_of_strtoll h).1]

theorem decode_int_none (h : strtoll c.data = none) :
    _be_decode_int c = .error .outOfBounds := by
  rw [_be_decode_int, h]

theorem decode_int_eq_ok {c' : Cursor} :
    _be_decode_int c = .ok (i, c') ↔
      ∃ endp, strtoll c.data = some (i, endp) ∧ c.moveTo endp = c' := by
  rcases h : strtoll c.data with _ | ⟨i', endp⟩
  · simp [decode_int_none h]
  · simp [decode_int_eq h]

/-- What a call of `_be_decode_str` does. -/
inductive StrCase (c : Cursor) : Prop where
  /-- the memory ends before the length does -/
  | endless (h : strtoll c.data = none) (e : _be_decode_str c = .error .outOfBounds)
  | null (i : Int64) (endp : List UInt8) (h : strtoll c.data = some (i, endp))
    (e : _be_decode_str c = .ok (none, c.moveTo endp))
  /-- the memory ends before the string does -/
  | behind (i : Int64) (t : List UInt8) (h : strtoll c.data = some (i, 58 :: t))
    (hi : 0 ≤ i.toInt) (hleft : i.toInt ≤ (c.moveTo (58 :: t)).data_len - 1)
    (hmem : t.length < i.toInt) (e : _be_decode_str c = .error .outOfBounds)
  | read (i : Int64) (t : List UInt8) (h : strtoll c.data = some (i, 58 :: t))
    (hi : 0 ≤ i.toInt) (hleft : i.toInt ≤ (c.moveTo (58 :: t)).data_len - 1)
    (hmem : i.toInt ≤ t.length)
    (e : _be_decode_str c = .ok (some (t.take i.toInt.toNat),
      (c.moveTo (58 :: t)).alloc.eat (i.toInt.toNat + 1)))

theorem lt_zero_iff : i < 0 ↔ i.toInt < 0 := Int64.lt_iff_toInt_lt

theorem decode_str_null (h : strtoll c.data = some (i, endp))
    (hnull : i.toInt < 0 ∨ (c.moveTo endp).data_len - 1 < i.toInt ∨ endp.head? ≠ some 58) :
    _be_decode_str c = .ok (none, c.moveTo endp) := by
  rw [_be_decode_str, decode_int_eq h, ok_bind]
  dsimp only
  by_cases hneg : i < 0
  · rw [if_pos hneg]
    rfl
  by_cases hshort : (c.moveTo endp).data_len - 1 < i.toInt
  · rw [if_neg hneg, if_pos hshort]
    rfl
  rw [if_neg hneg, if_neg hshort]
  obtain ⟨b, t, rfl⟩ := List.exists_cons_of_ne_nil (suffix_of_strtoll h).2
  have hb : b ≠ 58 := by
    rintro rfl
    rcases hnull with h | h | h
    · exact hneg (lt_zero_iff.mpr h)
    · exact hshort h
    · exact h rfl
  simp [Cursor.peek, Cursor.moveTo, hb]
  rfl

theorem decode_str_read (h : strtoll c.data = some (i, 58 :: t)) (hi : 0 ≤ i.toInt)
    (hleft : i.toInt ≤ (c.moveTo (58 :: t)).data_len - 1) :
    _be_decode_str c = if t.length < i.toInt then .error .outOfBounds
      else .ok (some (t.take i.toInt.toNat),
        (c.moveTo (58 :: t)).alloc.eat (i.toInt.toNat + 1)) := by
  have hneg : ¬ i < 0 := by
    rw [lt_zero_iff]
    omega
  have hpeek : (c.moveTo (58 :: t)).peek = .ok 58 := rfl
  have hdata : (c.moveTo (58 :: t)).data = 58 :: t := rfl
  rw [_be_decode_str, decode_int_eq h, ok_bind]
  dsimp only
  rw [if_neg hneg, if_neg (by omega), hpeek, ok_bind, if_pos rfl, hdata]
  by_cases hmem : t.length < i.toInt
  · rw [if_pos hmem, if_pos (by rw [List.length_cons]; omega)]
    rfl
  · rw [if_neg hmem, if_neg (by rw [List.length_cons]; omega)]
    rfl

theorem str_case (c : Cursor) : StrCase c := by
  rcases h : strtoll c.data with _ | ⟨i, endp⟩
  · refine .endless h ?_
    rw [_be_decode_str, decode_int_none h]
    rfl
  by_cases hnull : i.toInt < 0 ∨ (c.moveTo endp).data_len - 1 < i.toInt ∨ endp.head? ≠ some 58
  · exact .null i endp h (decode_str_null h hnull)
  rw [not_or, not_or] at hnull
  obtain ⟨hi, hleft, hhead⟩ := hnull
  obtain ⟨t, rfl⟩ := List.head?_eq_some_iff.mp (not_not.mp hhead)
  have e := decode_str_read h (by omega) (by omega)
  by_cases hmem : t.length < i.toInt
  · exact .behind i t h (by omega) (by omega) hmem (e.trans (if_pos hmem))
  · exact .read i t h (by omega) (by omega) (by omega) (e.trans (if_neg hmem))

end Reads

/-! ## Rounds of the loops -/

section Rounds
variable {decode : Cursor → Except (Stop Fault) (Option be_node × Cursor)} {rounds : Nat}
  {c : Cursor} {b : UInt8} {s : List UInt8} {l : List be_node} {d : DictArray}

theorem listLoop_behind (hd : c.data = []) :
    listLoop decode (rounds + 1) c l = .error (.err .outOfBounds) := by
  simp [listLoop, Cursor.peek, hd]
  rfl

theorem listLoop_end (hd : c.data = 101 :: s) :
    listLoop decode (rounds + 1) c l = .ok (l, c) := by
  simp [listLoop, Cursor.peek, hd]
  rfl

theorem listLoop_round (hd : c.data = b :: s) (hb : b ≠ 101) :
    listLoop decode (rounds + 1) c l = (decode c >>= fun r =>
      match r.1 with
      | none => .ok (l, r.2)
      | some val => listLoop decode rounds r.2 (l ++ [val])) := by
  simp [listLoop, Cursor.peek, hd, hb]
  rfl

theorem dictLoop_behind (hd : c.data = []) :
    dictLoop decode (rounds + 1) c d = .error (.err .outOfBounds) := by
  simp [dictLoop, Cursor.peek, hd]
  rfl

theorem dictLoop_end (hd : c.data = 101 :: s) :
    dictLoop decode (rounds + 1) c d = .ok (d, d.length, c) := by
  simp [dictLoop, Cursor.peek, hd]
  rfl

theorem dictLoop_round (hd : c.data = b :: s) (hb : b ≠ 101) :
    dictLoop decode (rounds + 1) c d = (lift (_be_decode_str (c.grow d)) >>= fun k =>
      decode k.2 >>= fun v =>
        if nullWord (d ++ [(k.1, v.1)]) d.length then .ok (d ++ [(k.1, v.1)], d.length, v.2)
        else dictLoop decode rounds v.2 (d ++ [(k.1, v.1)])) := by
  simp [dictLoop, Cursor.peek, hd, hb]
  rfl

end Rounds

/-! ## The cases of a call -/

section Cases
variable {c : Cursor} {fuel : Nat} {b : UInt8} {s : List UInt8}

/-- What a value may begin with. -/
inductive Begins (c : Cursor) : Prop where
  | none_left (h : c.data_len = 0)
  | behind (h : c.data_len ≠ 0) (hd : c.data = [])
  | list (s : List UInt8) (h : c.data_len ≠ 0) (hd : c.data = 108 :: s)
  | dict (s : List UInt8) (h : c.data_len ≠ 0) (hd : c.data = 100 :: s)
  | int (s : List UInt8) (h : c.data_len ≠ 0) (hd : c.data = 105 :: s)
  | str (b : UInt8) (s : List UInt8) (h : c.data_len ≠ 0) (hd : c.data = b :: s)
    (hb : isDigit b = true)
  | other (b : UInt8) (s : List UInt8) (h : c.data_len ≠ 0) (hd : c.data = b :: s)
    (hlist : b ≠ 108) (hdict : b ≠ 100) (hint : b ≠ 105) (hb : isDigit b = false)

theorem begins (c : Cursor) : Begins c := by
  by_cases h : c.data_len = 0
  · exact .none_left h
  rcases hd : c.data with _ | ⟨b, s⟩
  · exact .behind h hd
  by_cases hlist : b = 108
  · exact .list s h (hlist ▸ hd)
  by_cases hdict : b = 100
  · exact .dict s h (hdict ▸ hd)
  by_cases hint : b = 105
  · exact .int s h (hint ▸ hd)
  by_cases hb : isDigit b = true
  · exact .str b s h hd hb
  · exact .other b s h hd hlist hdict hint (by simpa using hb)

theorem decode_none_left (h : c.data_len = 0) : _be_decode (fuel + 1) c = .ok (none, c) := by
  rw [_be_decode, if_pos h]
  rfl

theorem decode_behind (h : c.data_len ≠ 0) (hd : c.data = []) :
    _be_decode (fuel + 1) c = .error (.err .outOfBounds) := by
  simp [_be_decode, h, Cursor.peek, hd]
  rfl

theorem decode_list (h : c.data_len ≠ 0) (hd : c.data = 108 :: s) :
    _be_decode (fuel + 1) c =
      (listLoop (_be_decode fuel) fuel (c.alloc.eat 1) [] >>= fun r =>
        .ok (some (.BE_LIST r.1), r.2.alloc.eat 1)) := by
  simp [_be_decode, h, Cursor.peek, hd]
  rfl

theorem decode_dict (h : c.data_len ≠ 0) (hd : c.data = 100 :: s) :
    _be_decode (fuel + 1) c =
      (dictLoop (_be_decode fuel) fuel (c.alloc.eat 1) [] >>= fun r =>
        if r.1 = [] then .error (.err .nullPointer)
        else .ok (some (.BE_DICT (entriesOf (r.1.take r.2.1))), r.2.2.eat 1)) := by
  simp [_be_decode, h, Cursor.peek, hd]
  rfl

theorem decode_int (h : c.data_len ≠ 0) (hd : c.data = 105 :: s) :
    _be_decode (fuel + 1) c =
      (lift (_be_decode_int (c.alloc.eat 1)) >>= fun r => lift r.2.peek >>= fun b =>
        if b ≠ 101 then .ok (none, r.2.free) else .ok (some (.BE_INT r.1), r.2.eat 1)) := by
  simp [_be_decode, h, Cursor.peek, hd]
  rfl

theorem decode_str (h : c.data_len ≠ 0) (hd : c.data = b :: s) (hb : isDigit b = true) :
    _be_decode (fuel + 1) c =
      (lift (_be_decode_str c.alloc) >>= fun r => .ok (some (.BE_STR r.1), r.2)) := by
  have hne : b ≠ 108 ∧ b ≠ 100 ∧ b ≠ 105 := by
    refine ⟨?_, ?_, ?_⟩ <;>
      · rintro rfl
        exact absurd hb (by decide)
  have hrange : 48 ≤ b ∧ b ≤ 57 := by simpa [isDigit] using hb
  simp [_be_decode, h, Cursor.peek, hd, hne, hrange]
  rfl

theorem decode_other (h : c.data_len ≠ 0) (hd : c.data = b :: s) (hlist : b ≠ 108)
    (hdict : b ≠ 100) (hint : b ≠ 105) (hb : isDigit b = false) :
    _be_decode (fuel + 1) c = .ok (none, c) := by
  have hrange : ¬ (48 ≤ b ∧ b ≤ 57) := by
    intro hin
    simp [isDigit, hin] at hb
  rw [_be_decode, if_neg h]
  simp only [Cursor.peek, hd, lift_ok, ok_bind]
  rw [if_neg hlist, if_neg hdict, if_neg hint, if_neg hrange]
  rfl

end Cases

end TorrentClient
