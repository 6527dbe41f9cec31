import Mathlib
import TorrentProof.BeNode

/-! # The size `be_encode` reports

Called with the null pointer for its buffer, `be_encode` writes nothing and returns the size of
the buffer that is needed.  It adds the sizes up in an `int`.  For texts of less than 2 GiB the
size is exact: it is that of the text, and a buffer is large enough if and only if it has so
many bytes.  Of a longer text neither call returns the length.
-/
namespace TorrentClient
open Bencode Decimal Fallible

/-! ## The call without a buffer -/

/-- `be_encode_str(str, NULL, …)`. -/
def be_encode_str_size (str : Option (List UInt8)) : Except Fault Int := do
  let str ← deref str
  let sz := (render str.length ++ [58]).length
  pure (sz + str.length)

mutual

/-- `be_encode(node, NULL, …)`. -/
def be_encode_size : be_node → Except Fault Int
  | .BE_INT i =>
    let sz := Int32.ofNat (105 :: renderInt i.toInt ++ [101]).length
    pure sz.toInt
  | .BE_STR s => do
    let sz := Int32.ofInt (← be_encode_str_size s)
    if sz < 0 then pure (-1) else pure sz.toInt
  | .BE_LIST l => do
    match ← be_encode_list_size l 1 with
    | none => pure (-1)
    | some sz => pure (sz + 1).toInt
  | .BE_DICT d => do
    match ← be_encode_dict_size d 1 with
    | none => pure (-1)
    | some sz => pure (sz + 1).toInt

/-- The loop over a list, from `sz` on: `none` where it returns -1. -/
def be_encode_list_size : List be_node → Int32 → Except Fault (Option Int32)
  | [], sz => pure (some sz)
  | node :: l, sz => do
    let r ← be_encode_size node
    if r < 0 then pure none else be_encode_list_size l (Int32.ofInt (sz.toInt + r))

/-- The loop over a dictionary. -/
def be_encode_dict_size :
    List (Option (List UInt8) × be_node) → Int32 → Except Fault (Option Int32)
  | [], sz => pure (some sz)
  | (key, val) :: d, sz => do
    let r ← be_encode_str_size key
    if r < 0 then pure none
    else
      let sz := Int32.ofInt (sz.toInt + r)
      let r ← be_encode_size val
      if r < 0 then pure none else be_encode_dict_size d (Int32.ofInt (sz.toInt + r))

end

/-! ## The size of a text -/

theorem be_encode_str_size_some (s : List UInt8) :
    be_encode_str_size (some s) = .ok ((encodeStr s).length : Int) := by
  simp [be_encode_str_size, encodeStr]
  omega

mutual

/-- The size of a text of less than 2 GiB. -/
theorem be_encode_size_node (v : Value) (h : (encode v).length < 2 ^ 31) :
    be_encode_size (node v) = .ok ((encode v).length : Int) := by
  match v with
  | .str s =>
    rw [encode] at h ⊢
    have hsz : (Int32.ofNat (encodeStr s).length).toInt = (encodeStr s).length :=
      Int32.toInt_ofNat_of_lt (by omega)
    rw [node, be_encode_size, be_encode_str_size_some, ok_bind, Int32.ofInt_eq_ofNat, if_neg, hsz]
    · rfl
    · rw [Int32.lt_iff_toInt_lt, hsz]
      simp
  | .int i =>
    rw [encode] at h ⊢
    rw [node, be_encode_size, Int32.toInt_ofNat_of_lt (by omega)]
    rfl
  | .list l =>
    rw [encode, List.length_append, List.length_cons, List.length_singleton] at h ⊢
    have hloop : be_encode_list_size (nodes l) 1 = _ :=
      be_encode_list_size_nodes l (show 1 + (encodeList l).length < 2 ^ 31 by omega)
    rw [node, be_encode_size, hloop, ok_bind]
    dsimp only
    rw [toInt_succ (by omega), Nat.add_comm 1]
    rfl
  | .dict d =>
    rw [encode, List.length_append, List.length_cons, List.length_singleton] at h ⊢
    have hloop : be_encode_dict_size (entries d) 1 = _ :=
      be_encode_dict_size_entries d (show 1 + (encodeDict d).length < 2 ^ 31 by omega)
    rw [node, be_encode_size, hloop, ok_bind]
    dsimp only
    rw [toInt_succ (by omega), Nat.add_comm 1]
    rfl

theorem be_encode_list_size_nodes (l : List Value) {sz : Nat}
    (h : sz + (encodeList l).length < 2 ^ 31) :
    be_encode_list_size (nodes l) (Int32.ofNat sz) =
      .ok (some (Int32.ofNat (sz + (encodeList l).length))) := by
  match l with
  | [] => rfl
  | v :: l =>
    rw [encodeList, List.length_append] at h ⊢
    rw [nodes, be_encode_list_size, be_encode_size_node v (by omega), ok_bind, if_neg (by omega),
      ofInt_add_natCast (by omega), be_encode_list_size_nodes l (by omega), Nat.add_assoc]

theorem be_encode_dict_size_entries (d : List (List UInt8 × Value)) {sz : Nat}
    (h : sz + (encodeDict d).length < 2 ^ 31) :
    be_encode_dict_size (entries d) (Int32.ofNat sz) =
      .ok (some (Int32.ofNat (sz + (encodeDict d).length))) := by
  match d with
  | [] => rfl
  | (k, v) :: d =>
    rw [encodeDict, List.length_append, List.length_append] at h ⊢
    rw [entries, be_encode_dict_size, be_encode_str_size_some, ok_bind, if_neg (by omega)]
    dsimp only
    rw [ofInt_add_natCast (by omega), be_encode_size_node v (by omega), ok_bind,
      if_neg (by omega), ofInt_add_natCast (by omega), be_encode_dict_size_entries d (by omega)]
    simp only [Nat.add_assoc]

end

/-! ## No size is larger than an `int` -/

mutual

theorem be_encode_size_le (v : Value) :
    ∃ r, be_encode_size (node v) = .ok r ∧ r < 2 ^ 31 := by
  match v with
  | .str s =>
    rw [node, be_encode_size, be_encode_str_size_some, ok_bind]
    dsimp only
    split
    · exact ⟨-1, rfl, by decide⟩
    · exact ⟨_, rfl, Int32.toInt_lt _⟩
  | .int i =>
    rw [node, be_encode_size]
    exact ⟨_, rfl, Int32.toInt_lt _⟩
  | .list l =>
    obtain ⟨sz, hsz⟩ := be_encode_list_size_total l 1
    rw [node, be_encode_size, hsz, ok_bind]
    cases sz with
    | none => exact ⟨-1, rfl, by decide⟩
    | some sz => exact ⟨_, rfl, Int32.toInt_lt _⟩
  | .dict d =>
    obtain ⟨sz, hsz⟩ := be_encode_dict_size_total d 1
    rw [node, be_encode_size, hsz, ok_bind]
    cases sz with
    | none => exact ⟨-1, rfl, by decide⟩
    | some sz => exact ⟨_, rfl, Int32.toInt_lt _⟩

theorem be_encode_list_size_total (l : List Value) (sz : Int32) :
    ∃ r, be_encode_list_size (nodes l) sz = .ok r := by
  match l with
  | [] => exact ⟨some sz, rfl⟩
  | v :: l =>
    obtain ⟨r, hr, -⟩ := be_encode_size_le v
    rw [nodes, be_encode_list_size, hr, ok_bind]
    split
    · exact ⟨none, rfl⟩
    · exact be_encode_list_size_total l _

theorem be_encode_dict_size_total (d : List (List UInt8 × Value)) (sz : Int32) :
    ∃ r, be_encode_dict_size (entries d) sz = .ok r := by
  match d with
  | [] => exact ⟨some sz, rfl⟩
  | (k, v) :: d =>
    obtain ⟨r, hr, -⟩ := be_encode_size_le v
    rw [entries, be_encode_dict_size, be_encode_str_size_some, ok_bind, if_neg (by omega)]
    dsimp only
    rw [hr, ok_bind]
    split
    · exact ⟨none, rfl⟩
    · exact be_encode_dict_size_total d _

end

/-! ## What goes through is the text -/

namespace Encoding

theorem fits_after (text : List UInt8) (room : Nat) :
    (after text room).Fits (text.length + room) where
  outBuf_le := Nat.le_refl _
  bytes_le := Nat.le_add_right _ _
  room := rfl
  sz := Int32.ofInt_eq_ofNat.symm

theorem le_length_close {e : Encoding} (he : e.outBuf ≤ e.bytes.length) :
    e.bytes.length ≤ e.close.bytes.length := by
  rw [close]
  split
  · exact Nat.le_refl _
  · exact le_length_put _ he

end Encoding

/-- No call of a loop takes back what has been written before it. -/
theorem le_length_be_encode_list {l : List be_node} {e : Encoding} {outBufLen : Nat} {w : Written}
    (he : e.Fits outBufLen) (h : be_encode_list l e = .ok w) :
    e.bytes.length ≤ w.bytes.length := by
  induction l generalizing e with
  | nil =>
    obtain rfl := Except.ok.inj h
    exact Encoding.le_length_close he.outBuf_le
  | cons n l ih =>
    obtain ⟨w₁, hw₁, h⟩ := bind_eq_ok.mp h
    have hput := Encoding.le_length_put w₁.bytes he.outBuf_le
    split at h
    · obtain rfl := Except.ok.inj h
      exact hput
    next hret => exact Nat.le_trans hput (ih (Encoding.fits_update he (be_encode_fits hw₁) hret) h)

theorem le_length_be_encode_dict {d : List (Option (List UInt8) × be_node)} {e : Encoding}
    {outBufLen : Nat} {w : Written} (he : e.Fits outBufLen) (h : be_encode_dict d e = .ok w) :
    e.bytes.length ≤ w.bytes.length := by
  induction d generalizing e with
  | nil =>
    obtain rfl := Except.ok.inj h
    exact Encoding.le_length_close he.outBuf_le
  | cons entry d ih =>
    obtain ⟨w₁, hw₁, h⟩ := bind_eq_ok.mp h
    have hput₁ := Encoding.le_length_put w₁.bytes he.outBuf_le
    split at h
    · obtain rfl := Except.ok.inj h
      exact hput₁
    next hret₁ =>
      have he₁ := Encoding.fits_update he (be_encode_str_fits hw₁) hret₁
      obtain ⟨w₂, hw₂, h⟩ := bind_eq_ok.mp h
      have hput₂ := Encoding.le_length_put w₂.bytes he₁.outBuf_le
      refine Nat.le_trans hput₁ ?_
      split at h
      · obtain rfl := Except.ok.inj h
        exact hput₂
      next hret₂ =>
        exact Nat.le_trans hput₂ (ih (Encoding.fits_update he₁ (be_encode_fits hw₂) hret₂) h)

theorem neg_one_neg : ¬ (0 : Int) ≤ -1 := by decide

theorem whole_be_encode_str {s : List UInt8} {outBufLen : Nat} {w : Written}
    (h : be_encode_str (some s) outBufLen = .ok w) (hret : 0 ≤ w.ret) :
    w = ⟨encodeStr s, (encodeStr s).length⟩ := by
  rw [be_encode_str, deref_some, ok_bind] at h
  dsimp only at h
  split at h
  · obtain rfl := Except.ok.inj h
    exact absurd hret neg_one_neg
  · exact (Except.ok.inj h).symm

theorem whole_close {text : List UInt8} {room : Nat}
    (hret : 0 ≤ (Encoding.after text room).close.ret)
    (hbytes : (Encoding.after text room).close.bytes.length < 2 ^ 31) :
    (Encoding.after text room).close = ⟨text ++ [101], (text ++ [101]).length⟩ := by
  rcases Nat.eq_zero_or_pos room with rfl | hroom
  · exact absurd hret neg_one_neg
  · rw [Encoding.close, Encoding.after_outBufLen, if_neg (Nat.ne_of_gt hroom),
      Encoding.put_after, List.length_append, List.length_singleton] at hbytes
    exact Encoding.close_after hroom hbytes

mutual

/-- **Where `be_encode` does not fail and has written less than 2 GiB it has written the whole
text.** -/
theorem whole_be_encode (v : Value) {outBufLen : Nat} {w : Written}
    (h : be_encode (node v) outBufLen = .ok w) (hret : 0 ≤ w.ret)
    (hbytes : w.bytes.length < 2 ^ 31) : w = ⟨encode v, (encode v).length⟩ := by
  by_cases h0 : outBufLen = 0
  · subst h0
    obtain rfl := Except.ok.inj (be_encode_no_room _ ▸ h)
    exact absurd hret neg_one_neg
  match v with
  | .str s =>
    rw [node, be_encode, if_neg h0] at h
    obtain ⟨w₁, h₁, h⟩ := bind_eq_ok.mp h
    dsimp only at h
    split at h
    · obtain rfl := Except.ok.inj h
      exact absurd hret neg_one_neg
    next hsz =>
      obtain rfl := Except.ok.inj h
      have hret₁ : 0 ≤ w₁.ret := by
        by_contra hneg
        have := be_encode_str_ret h₁
        rw [show w₁.ret = -1 by omega] at hsz
        exact hsz (by decide)
      obtain rfl := whole_be_encode_str h₁ hret₁
      rw [encode, Int32.ofInt_eq_ofNat, Int32.toInt_ofNat_of_lt hbytes]
  | .int i =>
    rw [node, be_encode, if_neg h0] at h
    dsimp only at h
    split at h
    · obtain rfl := Except.ok.inj h
      exact absurd hret neg_one_neg
    · obtain rfl := Except.ok.inj h
      rw [encode, Int32.toInt_ofNat_of_lt hbytes]
  | .list l =>
    rw [node, be_encode, if_neg h0, Encoding.start_eq] at h
    rw [encode]
    exact whole_be_encode_list l h hret hbytes
  | .dict d =>
    rw [node, be_encode, if_neg h0, Encoding.start_eq] at h
    rw [encode]
    exact whole_be_encode_dict d h hret hbytes

theorem whole_be_encode_list (l : List Value) {text : List UInt8} {room : Nat} {w : Written}
    (h : be_encode_list (nodes l) (.after text room) = .ok w) (hret : 0 ≤ w.ret)
    (hbytes : w.bytes.length < 2 ^ 31) :
    w = ⟨text ++ encodeList l ++ [101], (text ++ encodeList l ++ [101]).length⟩ := by
  match l with
  | [] =>
    obtain rfl := Except.ok.inj h
    rw [encodeList, List.append_nil]
    exact whole_close hret hbytes
  | v :: l =>
    obtain ⟨w₁, h₁, h⟩ := bind_eq_ok.mp h
    split at h
    · obtain rfl := Except.ok.inj h
      exact absurd hret neg_one_neg
    next hret₁ =>
      have he := Encoding.fits_update (Encoding.fits_after text room) (be_encode_fits h₁) hret₁
      have hle := le_length_be_encode_list he h
      rw [Encoding.update, Encoding.put_after, List.length_append] at hle
      obtain rfl := whole_be_encode v h₁ (by omega) (by omega)
      dsimp only at hle
      rw [Encoding.update_after (by rw [List.length_append]; omega)] at h
      rw [whole_be_encode_list l h hret hbytes, encodeList, List.append_assoc text]

theorem whole_be_encode_dict (d : List (List UInt8 × Value)) {text : List UInt8} {room : Nat}
    {w : Written} (h : be_encode_dict (entries d) (.after text room) = .ok w) (hret : 0 ≤ w.ret)
    (hbytes : w.bytes.length < 2 ^ 31) :
    w = ⟨text ++ encodeDict d ++ [101], (text ++ encodeDict d ++ [101]).length⟩ := by
  match d with
  | [] =>
    obtain rfl := Except.ok.inj h
    rw [encodeDict, List.append_nil]
    exact whole_close hret hbytes
  | (k, v) :: d =>
    obtain ⟨w₁, h₁, h⟩ := bind_eq_ok.mp h
    split at h
    · obtain rfl := Except.ok.inj h
      exact absurd hret neg_one_neg
    next hret₁ =>
      obtain rfl := whole_be_encode_str h₁ (by omega)
      have he := Encoding.fits_update (Encoding.fits_after text room) (be_encode_str_fits h₁) hret₁
      obtain ⟨w₂, h₂, h⟩ := bind_eq_ok.mp h
      split at h
      · obtain rfl := Except.ok.inj h
        exact absurd hret neg_one_neg
      next hret₂ =>
        have hle := le_length_be_encode_dict
          (Encoding.fits_update he (be_encode_fits h₂) hret₂) h
        have hput := Encoding.le_length_put w₂.bytes he.outBuf_le
        have hkey : (text ++ encodeStr k).length < 2 ^ 31 := by
          refine Nat.lt_of_le_of_lt (Nat.le_trans ?_ (Nat.le_trans hput hle)) hbytes
          rw [Encoding.update, Encoding.put_after]
        rw [Encoding.update_after hkey] at h₂ h hle
        rw [Encoding.update, Encoding.put_after, List.length_append] at hle
        obtain rfl := whole_be_encode v h₂ (by omega) (by omega)
        dsimp only at hle
        rw [Encoding.update_after (by rw [List.length_append]; omega)] at h
        rw [whole_be_encode_dict d h hret hbytes, encodeDict]
        simp only [List.append_assoc]

end

/-! ## No more than an `int` is returned -/

theorem neg_one_lt : (-1 : Int) < 2 ^ 31 := by decide

theorem ret_close_lt (e : Encoding) : e.close.ret < 2 ^ 31 := by
  rw [Encoding.close]
  split
  · exact neg_one_lt
  · exact Int32.toInt_lt _

mutual

theorem be_encode_ret_lt (v : Value) {outBufLen : Nat} {w : Written}
    (h : be_encode (node v) outBufLen = .ok w) : w.ret < 2 ^ 31 := by
  by_cases h0 : outBufLen = 0
  · subst h0
    obtain rfl := Except.ok.inj (be_encode_no_room _ ▸ h)
    exact neg_one_lt
  match v with
  | .str s =>
    rw [node, be_encode, if_neg h0] at h
    obtain ⟨w', -, h⟩ := bind_eq_ok.mp h
    dsimp only at h
    split at h
    · obtain rfl := Except.ok.inj h
      exact neg_one_lt
    · obtain rfl := Except.ok.inj h
      exact Int32.toInt_lt _
  | .int i =>
    rw [node, be_encode, if_neg h0] at h
    dsimp only at h
    split at h
    · obtain rfl := Except.ok.inj h
      exact neg_one_lt
    · obtain rfl := Except.ok.inj h
      exact Int32.toInt_lt _
  | .list l =>
    rw [node, be_encode, if_neg h0] at h
    exact be_encode_list_ret_lt l h
  | .dict d =>
    rw [node, be_encode, if_neg h0] at h
    exact be_encode_dict_ret_lt d h

theorem be_encode_list_ret_lt (l : List Value) {e : Encoding} {w : Written}
    (h : be_encode_list (nodes l) e = .ok w) : w.ret < 2 ^ 31 := by
  match l with
  | [] =>
    obtain rfl := Except.ok.inj h
    exact ret_close_lt e
  | v :: l =>
    obtain ⟨w₁, -, h⟩ := bind_eq_ok.mp h
    split at h
    · obtain rfl := Except.ok.inj h
      exact neg_one_lt
    · exact be_encode_list_ret_lt l h

theorem be_encode_dict_ret_lt (d : List (List UInt8 × Value)) {e : Encoding} {w : Written}
    (h : be_encode_dict (entries d) e = .ok w) : w.ret < 2 ^ 31 := by
  match d with
  | [] =>
    obtain rfl := Except.ok.inj h
    exact ret_close_lt e
  | (k, v) :: d =>
    obtain ⟨w₁, -, h⟩ := bind_eq_ok.mp h
    split at h
    · obtain rfl := Except.ok.inj h
      exact neg_one_lt
    · obtain ⟨w₂, -, h⟩ := bind_eq_ok.mp h
      split at h
      · obtain rfl := Except.ok.inj h
        exact neg_one_lt
      · exact be_encode_dict_ret_lt d h

end

/-! ## The size is exact -/

/-- **A buffer is filled with the text, and the length of the text returned, if and only if the
text fits both the buffer and an `int`.** -/
theorem be_encode_text_iff {v : Value} {outBufLen : Nat} :
    be_encode (node v) outBufLen = .ok ⟨encode v, (encode v).length⟩ ↔
      (encode v).length ≤ outBufLen ∧ (encode v).length < 2 ^ 31 := by
  constructor
  · intro h
    have hret := be_encode_ret_lt v h
    exact ⟨(be_encode_fits h).bytes_le, by dsimp only at hret; omega⟩
  · rintro ⟨hroom, hint⟩
    exact be_encode_node v hroom hint

/-- **The size that is reported is right if and only if the text has less than 2 GiB**, and of
such a text a buffer of that size is the smallest with which `be_encode` does not fail; the
buffer is filled with the whole text, and its size returned, if and only if it has room for it
and the text has less than 2 GiB. -/
theorem be_encode_size_exact (v : Value) : ∃ r, be_encode_size (node v) = .ok r ∧
    (r = (encode v).length ↔ (encode v).length < 2 ^ 31) ∧
    ∀ outBufLen, ∃ w, be_encode (node v) outBufLen = .ok w ∧
      (w = ⟨encode v, (encode v).length⟩ ↔
        (encode v).length ≤ outBufLen ∧ (encode v).length < 2 ^ 31) ∧
      ((encode v).length < 2 ^ 31 → (w.ret < 0 ↔ outBufLen < (encode v).length)) := by
  obtain ⟨r, hr, hle⟩ := be_encode_size_le v
  refine ⟨r, hr, ?_, fun outBufLen => ?_⟩
  · constructor
    · intro h
      omega
    · intro h
      rw [be_encode_size_node v h] at hr
      exact (Except.ok.inj hr).symm
  · obtain ⟨w, hw⟩ := be_encode_total v outBufLen
    refine ⟨w, hw, ?_, ?_⟩
    · rw [← be_encode_text_iff, hw]
      exact ⟨congrArg _, Except.ok.inj⟩
    · intro hint
      constructor
      · intro hneg
        by_contra hroom
        rw [be_encode_node v (Nat.le_of_not_lt hroom) hint] at hw
        obtain rfl := Except.ok.inj hw
        exact absurd hneg (by dsimp only; omega)
      · intro hroom
        by_contra hret
        -- it would have written more than there is room for
        have hle := (be_encode_fits hw).bytes_le
        obtain rfl := whole_be_encode v hw (by omega) (by omega)
        exact absurd hle (Nat.not_le.mpr hroom)

end TorrentClient
