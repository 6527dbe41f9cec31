import Mathlib
import TorrentProof.ItemSpelling

/-! # The two libraries

`cpp-bencoding` decodes what its encoder writes (`decode_encode_iff`), and a text it decodes is
decoded by `bencode.c` as well, to the tree of the same value (`decoders_agree`).  The encoders
write the same if the keys are in order (`encoders_agree_iff`), unless the `Encoder` has been
used before (`decode_encodeAll`).
-/
namespace TorrentClient.bencoding
open Bencode CText Decimal Keyed

section RoundTrip
variable {max_size : UInt64} {i : BItem}

theorem decode_encode (hmax : (encode i).length ≤ max_size.toNat) :
    Decoder.decode max_size (encode i) = .ok (itemOf i.value) := by
  rw [encode_eq] at hmax ⊢
  exact decode_of_strict (strict_encode i.value) hmax

/-- **What the encoder writes is decoded to the item it was given if and only if every map in
the item is in the order of its keys**, as `std::map` keeps it. -/
theorem decode_encode_iff (hmax : (encode i).length ≤ max_size.toNat) :
    Decoder.decode max_size (encode i) = .ok i ↔ Ordered i.value := by
  rw [decode_encode hmax]
  constructor
  · rintro h
    have hi : itemOf i.value = i := Except.ok.inj h
    rw [← value_itemOf_iff, hi]
  · rintro h
    rw [itemOf_value i h]

/-- A map that is not in order, as none is built. -/
theorem decode_encode_iff_unsorted :
    Decoder.decode 64 (encode (.BDictionary [([98], .BInteger 2), ([97], .BInteger 1)])) =
        .ok (.BDictionary [([98], .BInteger 2), ([97], .BInteger 1)]) ↔
      Ordered (.dict [([98], .int 2), ([97], .int 1)]) :=
  decode_encode_iff (by decide)

end RoundTrip

section Agreement
variable {max_size : UInt64} {data : List UInt8} {i : BItem}

/-- A dictionary whose keys are not in order. -/
def unsorted : List UInt8 := ascii "d1:bi2e1:a1:xe"

theorem decode_unsorted : Decoder.decode 64 unsorted =
    .ok (.BDictionary [([97], .BString [120]), ([98], .BInteger 2)]) := rfl

/-- **Where both have decoded a text, both encoders write the same if and only if the keys of
the value are in order**, and its text fits an `int`. -/
theorem encoders_agree_iff {n : be_node} (h : Decoder.decode max_size data = .ok i)
    (hn : be_decoden data data.length = .ok (some n)) (hmax : data.length < 2 ^ 63) :
    ∃ v, itemOf v = i ∧ node v = n ∧
      ((∀ m, (Bencode.encode v).length ≤ m →
          be_encode n m = .ok ⟨encode i, (encode i).length⟩) ↔
        Ordered v ∧ (Bencode.encode v).length < 2 ^ 31) := by
  obtain ⟨v, hv, rfl⟩ := strict_of_decode h
  have hcall := be_decoden_strict hv [] (Int.le_refl _) (by omega)
  rw [List.append_nil, hn] at hcall
  by_cases hfilled : filled v = true
  · rw [if_pos hfilled] at hcall
    obtain rfl := Option.some.inj (Except.ok.inj hcall)
    refine ⟨v, rfl, rfl, ?_⟩
    rw [encode_eq]
    constructor
    · rintro hwrites
      have hwrite := hwrites _ (Nat.le_refl _)
      have hret := be_encode_ret_lt v hwrite
      dsimp only at hret
      have hwhole := whole_be_encode v hwrite (Int.natCast_nonneg _) (by dsimp only; omega)
      have htext : Bencode.encode (itemOf v).value = Bencode.encode v :=
        congrArg Written.bytes hwhole
      have hvalue := (encode_append_inj (congrArg (· ++ []) htext)).1
      exact ⟨value_itemOf_iff.mp hvalue, by rw [← htext]; omega⟩
    · rintro ⟨hv, hint⟩ m hm
      rw [value_itemOf v hv]
      exact be_encode_node v hm hint
  · rw [if_neg hfilled] at hcall
    cases hcall

/-- The tree `bencode.c` builds for it. -/
def unsortedNode : be_node :=
  .BE_DICT [(some [98], .BE_INT 2), (some [97], .BE_STR (some [120]))]

theorem encoders_agree_iff_unsorted : ∃ v,
    itemOf v = .BDictionary [([97], .BString [120]), ([98], .BInteger 2)] ∧
      node v = unsortedNode ∧
      ((∀ m, (Bencode.encode v).length ≤ m → be_encode unsortedNode m =
          .ok ⟨encode (.BDictionary [([97], .BString [120]), ([98], .BInteger 2)]),
            (encode (.BDictionary [([97], .BString [120]), ([98], .BInteger 2)])).length⟩) ↔
        Ordered v ∧ (Bencode.encode v).length < 2 ^ 31) :=
  encoders_agree_iff (n := unsortedNode) decode_unsorted rfl (by decide)

end Agreement

/-! ## An encoder that is used again -/

section Again
variable {encoder : Encoder} {items : List BItem} {n : Nat} {text : List UInt8}

theorem length_encodeAll : (encoder.encodeAll items).length = items.length := by
  induction items generalizing encoder with
  | nil => rfl
  | cons i items ih => rw [Encoder.encodeAll, List.length_cons, List.length_cons, ih]

/-- It returns the texts of all items so far. -/
theorem encodeAll_eq (h : n < items.length) : (encoder.encodeAll items)[n]? =
    some (encoder.encodedData ++
      (items.take (n + 1)).flatMap fun i => Bencode.encode i.value) := by
  induction items generalizing encoder n with
  | nil => cases h
  | cons i items ih =>
    rw [Encoder.encodeAll, List.take_succ_cons, List.flatMap_cons, ← List.append_assoc]
    have hfirst : (encoder.encode i).1 = encoder.encodedData ++ Bencode.encode i.value :=
      visit_eq i _
    cases n with
    | zero =>
      rw [List.getElem?_cons_zero, hfirst]
      simp
    | succ n =>
      rw [List.getElem?_cons_succ, ih (Nat.lt_of_succ_lt_succ h), ← hfirst]
      rfl

/-- **Only the first text an encoder returns is decoded.**  Behind it stands what it returned
before. -/
theorem decode_encodeAll {max_size : UInt64} (i : BItem) (items : List BItem)
    (h : (Encoder.create.encodeAll (i :: items))[n]? = some text)
    (hmax : text.length ≤ max_size.toNat) : Decoder.decode max_size text =
      if n = 0 then .ok (itemOf i.value)
      else .error (.DecodingError (ascii "input contains undecoded characters")) := by
  have hn : n < (i :: items).length := by
    have hlt := (List.getElem?_eq_some_iff.mp h).1
    rwa [length_encodeAll] at hlt
  rw [encodeAll_eq hn, List.take_succ_cons, List.flatMap_cons] at h
  obtain rfl := Option.some.inj h
  rw [Encoder.create, List.nil_append] at hmax ⊢
  rw [decode_append (strict_encode i.value) hmax]
  cases n with
  | zero => rfl
  | succ n =>
    rw [List.length_cons] at hn
    obtain ⟨j, items, rfl⟩ := List.exists_cons_of_length_pos (show 0 < items.length by omega)
    have hpos := encode_length_pos j.value
    have hne : (((j :: items).take (n + 1)).flatMap fun i => Bencode.encode i.value) ≠ [] := by
      rw [List.take_succ_cons, List.flatMap_cons]
      intro hnil
      rw [(List.append_eq_nil_iff.mp hnil).1] at hpos
      exact Nat.lt_irrefl 0 hpos
    rw [if_neg hne, if_neg (Nat.succ_ne_zero n)]

/-- The number 7, twice. -/
theorem decode_encodeAll_twice : Decoder.decode 64 (ascii "i7ei7e") =
    .error (.DecodingError (ascii "input contains undecoded characters")) :=
  decode_encodeAll (.BInteger 7) [.BInteger 7]
    (show (Encoder.create.encodeAll [.BInteger 7, .BInteger 7])[1]? = _ from rfl) (by decide)

end Again

end TorrentClient.bencoding
