import Mathlib
import TorrentProof.Decimal

/-! # Bencode

The values of the format, how they are written (`encode`), and a decoder that accepts
exactly what is so written.  The two laws are `decode_encode`, from which the format
is prefix-free (`encode_append_inj`), and `encode_of_decode`.
-/
namespace Bencode
open Decimal

/-- A bencoded value.  An integer is one a 64-bit variable holds. -/
inductive Value where
  | str (s : List UInt8)
  | int (i : Int64)
  | list (l : List Value)
  | dict (d : List (List UInt8 × Value))
  deriving Inhabited

/-- A byte string behind its length. -/
def encodeStr (s : List UInt8) : List UInt8 := render s.length ++ 58 :: s

mutual

/-- The text of a value. -/
def encode : Value → List UInt8
  | .str s => encodeStr s
  | .int i => 105 :: renderInt i.toInt ++ [101]
  | .list l => 108 :: encodeList l ++ [101]
  | .dict d => 100 :: encodeDict d ++ [101]

/-- The elements of a list, one after the other. -/
def encodeList : List Value → List UInt8
  | [] => []
  | v :: l => encode v ++ encodeList l

/-- The entries of a dictionary, each key before its value. -/
def encodeDict : List (List UInt8 × Value) → List UInt8
  | [] => []
  | (k, v) :: d => encodeStr k ++ encode v ++ encodeDict d

end

/-! ## The decoder -/

/-- A byte string at the start of `s`, and what follows it. -/
def decodeStr (s : List UInt8) : Option (List UInt8 × List UInt8) :=
  let len := s.takeWhile (· != 58)
  match s.dropWhile (· != 58) with
  | [] => none
  | _ :: rest =>
    if render (value len) = len ∧ value len ≤ rest.length then
      some (rest.take (value len), rest.drop (value len))
    else none

/-- The digits and the closing `e` of an integer at the start of `s`. -/
def decodeInt (s : List UInt8) : Option (Int64 × List UInt8) :=
  let text := s.takeWhile (· != 101)
  match s.dropWhile (· != 101) with
  | [] => none
  | _ :: rest =>
    let i := Int64.ofInt (valueInt text)
    if renderInt i.toInt = text then some (i, rest) else none

mutual

/-- A value at the start of the text, nested less than `fuel` deep. -/
def decodeAux : Nat → List UInt8 → Option (Value × List UInt8)
  | 0, _ => none
  | _ + 1, [] => none
  | fuel + 1, b :: s =>
    if b = 105 then (decodeInt s).map fun (i, rest) => (.int i, rest)
    else if b = 108 then (decodeList fuel s).map fun (l, rest) => (.list l, rest)
    else if b = 100 then (decodeDict fuel s).map fun (d, rest) => (.dict d, rest)
    else (decodeStr (b :: s)).map fun (str, rest) => (.str str, rest)

/-- The elements of a list up to its closing `e`. -/
def decodeList : Nat → List UInt8 → Option (List Value × List UInt8)
  | 0, _ => none
  | _ + 1, [] => none
  | fuel + 1, b :: s =>
    if b = 101 then some ([], s)
    else do
      let (v, s) ← decodeAux fuel (b :: s)
      let (l, s) ← decodeList fuel s
      some (v :: l, s)

/-- The entries of a dictionary up to its closing `e`. -/
def decodeDict : Nat → List UInt8 → Option (List (List UInt8 × Value) × List UInt8)
  | 0, _ => none
  | _ + 1, [] => none
  | fuel + 1, b :: s =>
    if b = 101 then some ([], s)
    else do
      let (k, s) ← decodeStr (b :: s)
      let (v, s) ← decodeAux fuel s
      let (d, s) ← decodeDict fuel s
      some ((k, v) :: d, s)

end

/-- The value at the start of `s`, and what follows it. -/
def decode (s : List UInt8) : Option (Value × List UInt8) := decodeAux (s.length + 1) s

/-! ## What is written is read back -/

theorem takeWhile_append_stop {p : UInt8 → Bool} {a : List UInt8} {b : UInt8} (rest : List UInt8)
    (ha : ∀ c ∈ a, p c = true) (hb : p b = false) :
    (a ++ b :: rest).takeWhile p = a ∧ (a ++ b :: rest).dropWhile p = b :: rest := by
  rw [List.takeWhile_append_of_pos ha, List.dropWhile_append_of_pos ha]
  simp [hb]

theorem ne_of_isDigit {b c : UInt8} (h : isDigit b = true) (hc : isDigit c = false) :
    (b != c) = true := by
  rw [bne_iff_ne]
  rintro rfl
  rw [h] at hc
  cases hc

@[simp] theorem decodeStr_encodeStr (s rest : List UInt8) :
    decodeStr (encodeStr s ++ rest) = some (s, rest) := by
  have hstop := takeWhile_append_stop (p := (· != 58)) (a := render s.length) (b := 58)
    (s ++ rest) (fun c hc => ne_of_isDigit (isDigit_render hc) (by decide)) (by decide)
  rw [encodeStr, List.append_assoc, List.cons_append, decodeStr, hstop.1, hstop.2]
  simp

@[simp] theorem decodeInt_renderInt (i : Int64) (rest : List UInt8) :
    decodeInt (renderInt i.toInt ++ 101 :: rest) = some (i, rest) := by
  have hstop := takeWhile_append_stop (p := (· != 101)) (a := renderInt i.toInt) (b := 101)
    rest (fun c hc => by
      rcases isDigit_or_minus_of_mem hc with hd | rfl
      · exact ne_of_isDigit hd (by decide)
      · decide) (by decide)
  rw [decodeInt, hstop.1, hstop.2]
  simp

/-- A byte string begins with a digit. -/
theorem encodeStr_cons (s : List UInt8) : ∃ b rest, encodeStr s = b :: rest ∧ isDigit b = true := by
  obtain ⟨b, ds, hds⟩ := List.exists_cons_of_ne_nil (render_ne_nil s.length)
  refine ⟨b, ds ++ 58 :: s, by rw [encodeStr, hds, List.cons_append], ?_⟩
  exact isDigit_render (hds ▸ List.mem_cons_self)

/-- The text of a value is not empty and does not begin with `e`. -/
theorem encode_cons (v : Value) : ∃ b rest, encode v = b :: rest ∧ b ≠ 101 := by
  cases v with
  | str s =>
    obtain ⟨b, rest, hs, hb⟩ := encodeStr_cons s
    refine ⟨b, rest, by rw [encode, hs], ?_⟩
    rintro rfl
    exact absurd hb (by decide)
  | int i => exact ⟨105, _, by rw [encode, List.cons_append], by decide⟩
  | list l => exact ⟨108, _, by rw [encode, List.cons_append], by decide⟩
  | dict d => exact ⟨100, _, by rw [encode, List.cons_append], by decide⟩

theorem encode_length_pos (v : Value) : 0 < (encode v).length := by
  obtain ⟨b, rest, hv, -⟩ := encode_cons v
  rw [hv, List.length_cons]
  omega

mutual

/-- The text of a value decodes to it, whatever follows. -/
theorem decodeAux_encode (v : Value) (rest : List UInt8) {fuel : Nat}
    (h : (encode v).length ≤ fuel) : decodeAux fuel (encode v ++ rest) = some (v, rest) := by
  match fuel, v, h with
  | 0, v, h =>
    have := encode_length_pos v
    omega
  | fuel + 1, .str s, _ =>
    obtain ⟨b, tail, hs, hb⟩ := encodeStr_cons s
    have hdec := decodeStr_encodeStr s rest
    rw [encode]
    rw [hs, List.cons_append] at hdec ⊢
    have hne : ∀ c, isDigit c = false → b ≠ c := fun c hc => by
      simpa using ne_of_isDigit hb hc
    rw [decodeAux, if_neg (hne 105 (by decide)), if_neg (hne 108 (by decide)),
      if_neg (hne 100 (by decide)), hdec]
    rfl
  | fuel + 1, .int i, _ =>
    rw [encode, List.append_assoc, List.cons_append, List.cons_append, List.nil_append,
      decodeAux, if_pos rfl, decodeInt_renderInt]
    rfl
  | fuel + 1, .list l, h =>
    rw [encode, List.length_append, List.length_cons, List.length_singleton] at h
    rw [encode, List.append_assoc, List.cons_append, List.cons_append, List.nil_append,
      decodeAux, if_neg (by decide), if_pos rfl, decodeList_encodeList l rest (by omega)]
    rfl
  | fuel + 1, .dict d, h =>
    rw [encode, List.length_append, List.length_cons, List.length_singleton] at h
    rw [encode, List.append_assoc, List.cons_append, List.cons_append, List.nil_append,
      decodeAux, if_neg (by decide), if_neg (by decide), if_pos rfl,
      decodeDict_encodeDict d rest (by omega)]
    rfl

theorem decodeList_encodeList (l : List Value) (rest : List UInt8) {fuel : Nat}
    (h : (encodeList l).length + 1 ≤ fuel) :
    decodeList fuel (encodeList l ++ 101 :: rest) = some (l, rest) := by
  match fuel, l, h with
  | fuel + 1, [], _ => rw [encodeList, List.nil_append, decodeList, if_pos rfl]
  | fuel + 1, v :: l, h =>
    rw [encodeList, List.length_append] at h
    obtain ⟨b, tail, hv, hb⟩ := encode_cons v
    have hpos := encode_length_pos v
    have hdec : decodeAux fuel (encode v ++ (encodeList l ++ 101 :: rest)) = some (v, _) :=
      decodeAux_encode v _ (by omega)
    have htail : decodeList fuel (encodeList l ++ 101 :: rest) = some (l, rest) :=
      decodeList_encodeList l rest (by omega)
    rw [encodeList, List.append_assoc]
    rw [hv, List.cons_append] at hdec ⊢
    rw [decodeList, if_neg hb, hdec]
    simp only [Option.bind_eq_bind, Option.bind_some, htail]

theorem decodeDict_encodeDict (d : List (List UInt8 × Value)) (rest : List UInt8) {fuel : Nat}
    (h : (encodeDict d).length + 1 ≤ fuel) :
    decodeDict fuel (encodeDict d ++ 101 :: rest) = some (d, rest) := by
  match fuel, d, h with
  | fuel + 1, [], _ => rw [encodeDict, List.nil_append, decodeDict, if_pos rfl]
  | fuel + 1, (k, v) :: d, h =>
    rw [encodeDict, List.length_append, List.length_append] at h
    obtain ⟨b, tail, hk, hb⟩ := encodeStr_cons k
    have hne : b ≠ 101 := by simpa using ne_of_isDigit (c := 101) hb (by decide)
    have hpos : 0 < (encodeStr k).length := by rw [hk, List.length_cons]; omega
    have hkey := decodeStr_encodeStr k (encode v ++ (encodeDict d ++ 101 :: rest))
    have hdec : decodeAux fuel (encode v ++ (encodeDict d ++ 101 :: rest)) = some (v, _) :=
      decodeAux_encode v _ (by omega)
    have htail : decodeDict fuel (encodeDict d ++ 101 :: rest) = some (d, rest) :=
      decodeDict_encodeDict d rest (by omega)
    rw [encodeDict, List.append_assoc, List.append_assoc]
    rw [hk, List.cons_append] at hkey ⊢
    rw [decodeDict, if_neg hne, hkey]
    simp only [Option.bind_eq_bind, Option.bind_some, hdec, htail]

end

/-- **What was encoded is decoded**, whatever follows it. -/
theorem decode_encode (v : Value) (rest : List UInt8) :
    decode (encode v ++ rest) = some (v, rest) :=
  decodeAux_encode v rest (by rw [List.length_append]; omega)

/-- **The format is prefix-free**: a text determines the value it begins with. -/
theorem encode_append_inj {v v' : Value} {rest rest' : List UInt8}
    (h : encode v ++ rest = encode v' ++ rest') : v = v' ∧ rest = rest' := by
  have hdec := decode_encode v rest
  rw [h, decode_encode v' rest'] at hdec
  exact ⟨(Prod.mk.inj (Option.some.inj hdec)).1.symm, (Prod.mk.inj (Option.some.inj hdec)).2.symm⟩

/-! ## What is read back was written -/

/-- A text up to the first byte `b`, which `dropWhile` stops at. -/
theorem eq_takeWhile_append {b c : UInt8} {s rest : List UInt8}
    (h : s.dropWhile (· != b) = c :: rest) : s = s.takeWhile (· != b) ++ b :: rest := by
  have hstop : (c != b) = false := by
    have := List.head_dropWhile_not (· != b) (l := s) (by rw [h]; simp)
    simpa [h] using this
  obtain rfl : c = b := by simpa using hstop
  rw [← h, List.takeWhile_append_dropWhile]

theorem encodeStr_of_decodeStr {s k rest : List UInt8} (h : decodeStr s = some (k, rest)) :
    s = encodeStr k ++ rest := by
  rw [decodeStr] at h
  split at h
  · cases h
  next c tail hdrop =>
    split at h
    next hlen =>
      obtain ⟨rfl, rfl⟩ := Prod.mk.inj (Option.some.inj h)
      rw [encodeStr, List.length_take, Nat.min_eq_left hlen.2, hlen.1, List.append_assoc,
        List.cons_append, List.take_append_drop]
      exact eq_takeWhile_append hdrop
    · cases h

theorem renderInt_of_decodeInt {s rest : List UInt8} {i : Int64}
    (h : decodeInt s = some (i, rest)) : s = renderInt i.toInt ++ 101 :: rest := by
  rw [decodeInt] at h
  split at h
  · cases h
  next c tail hdrop =>
    dsimp only at h
    split at h
    next htext =>
      obtain ⟨rfl, rfl⟩ := Prod.mk.inj (Option.some.inj h)
      rw [htext]
      exact eq_takeWhile_append hdrop
    · cases h

mutual

theorem encode_of_decodeAux {fuel : Nat} {s rest : List UInt8} {v : Value}
    (h : decodeAux fuel s = some (v, rest)) : s = encode v ++ rest := by
  match fuel, s with
  | 0, _ => cases h
  | fuel + 1, [] => cases h
  | fuel + 1, b :: s =>
    rw [decodeAux] at h
    split at h
    next hb =>
      obtain ⟨⟨i, r⟩, hdec, heq⟩ := Option.map_eq_some_iff.mp h
      obtain ⟨rfl, rfl⟩ := Prod.mk.inj heq
      rw [hb, renderInt_of_decodeInt hdec, encode]
      simp
    split at h
    next hb =>
      obtain ⟨⟨l, r⟩, hdec, heq⟩ := Option.map_eq_some_iff.mp h
      obtain ⟨rfl, rfl⟩ := Prod.mk.inj heq
      rw [hb, encodeList_of_decodeList hdec, encode]
      simp
    split at h
    next hb =>
      obtain ⟨⟨d, r⟩, hdec, heq⟩ := Option.map_eq_some_iff.mp h
      obtain ⟨rfl, rfl⟩ := Prod.mk.inj heq
      rw [hb, encodeDict_of_decodeDict hdec, encode]
      simp
    · obtain ⟨⟨k, r⟩, hdec, heq⟩ := Option.map_eq_some_iff.mp h
      obtain ⟨rfl, rfl⟩ := Prod.mk.inj heq
      rw [encode]
      exact encodeStr_of_decodeStr hdec

theorem encodeList_of_decodeList {fuel : Nat} {s rest : List UInt8} {l : List Value}
    (h : decodeList fuel s = some (l, rest)) : s = encodeList l ++ 101 :: rest := by
  match fuel, s with
  | 0, _ => cases h
  | fuel + 1, [] => cases h
  | fuel + 1, b :: s =>
    rw [decodeList] at h
    split at h
    next hb =>
      obtain ⟨rfl, rfl⟩ := Prod.mk.inj (Option.some.inj h)
      rw [hb, encodeList, List.nil_append]
    · obtain ⟨⟨v, s'⟩, hv, h⟩ := Option.bind_eq_some_iff.mp h
      obtain ⟨⟨l', s''⟩, hl, h⟩ := Option.bind_eq_some_iff.mp h
      obtain ⟨rfl, rfl⟩ := Prod.mk.inj (Option.some.inj h)
      rw [encode_of_decodeAux hv, encodeList_of_decodeList hl, encodeList, List.append_assoc]

theorem encodeDict_of_decodeDict {fuel : Nat} {s rest : List UInt8}
    {d : List (List UInt8 × Value)} (h : decodeDict fuel s = some (d, rest)) :
    s = encodeDict d ++ 101 :: rest := by
  match fuel, s with
  | 0, _ => cases h
  | fuel + 1, [] => cases h
  | fuel + 1, b :: s =>
    rw [decodeDict] at h
    split at h
    next hb =>
      obtain ⟨rfl, rfl⟩ := Prod.mk.inj (Option.some.inj h)
      rw [hb, encodeDict, List.nil_append]
    · obtain ⟨⟨k, s'⟩, hk, h⟩ := Option.bind_eq_some_iff.mp h
      obtain ⟨⟨v, s''⟩, hv, h⟩ := Option.bind_eq_some_iff.mp h
      obtain ⟨⟨d', s₃⟩, hd, h⟩ := Option.bind_eq_some_iff.mp h
      obtain ⟨rfl, rfl⟩ := Prod.mk.inj (Option.some.inj h)
      rw [encodeStr_of_decodeStr hk, encode_of_decodeAux hv, encodeDict_of_decodeDict hd,
        encodeDict, List.append_assoc, List.append_assoc]

end

/-- **The decoder accepts nothing but encoded values.** -/
theorem encode_of_decode {s rest : List UInt8} {v : Value} (h : decode s = some (v, rest)) :
    s = encode v ++ rest := encode_of_decodeAux h

/-! ## Texts without a certain byte -/

theorem not_mem_encodeStr {b : UInt8} {s : List UInt8} (h : b ∉ encodeStr s) : b ∉ s :=
  fun hs => h (List.mem_append_right _ (List.mem_cons_of_mem _ hs))

/-- The text of an element is part of the text of the list. -/
theorem encode_subset_of_mem {l : List Value} {v : Value} (h : v ∈ l) :
    encode v ⊆ encodeList l := by
  induction l with
  | nil => exact absurd h List.not_mem_nil
  | cons w l ih =>
    rw [encodeList]
    rcases List.mem_cons.mp h with rfl | h
    · exact List.subset_append_left _ _
    · exact fun b hb => List.mem_append_right _ (ih h hb)

/-- The text of an entry stands in the text of the dictionary. -/
theorem entry_infix_of_mem {d : List (List UInt8 × Value)} {k : List UInt8} {v : Value}
    (h : (k, v) ∈ d) : encodeStr k ++ encode v <:+: encodeDict d := by
  induction d with
  | nil => exact absurd h List.not_mem_nil
  | cons e d ih =>
    obtain ⟨k', v'⟩ := e
    rw [encodeDict]
    rcases List.mem_cons.mp h with heq | h
    · obtain ⟨rfl, rfl⟩ := Prod.mk.inj heq
      exact (List.prefix_append _ _).isInfix
    · exact (ih h).trans (List.suffix_append _ _).isInfix

theorem infix_encodeDict (d : List (List UInt8 × Value)) : encodeDict d <:+: encode (.dict d) :=
  ⟨[100], [101], by rw [encode]; rfl⟩

/-- A string stands in its text. -/
theorem infix_encodeStr (s : List UInt8) : s <:+: encodeStr s :=
  ⟨render s.length ++ [58], [], by rw [encodeStr]; simp⟩

end Bencode
