import Mathlib
import TorrentProof.BeSpelling
import TorrentProof.ItemDecoder

/-! # What the decoder of `cpp-bencoding` reads

It reads the strict spellings and nothing else (`decode_iff`): no white space, no zeros in
front of an integer, and every list and dictionary up to its `e`.
-/
namespace TorrentClient.bencoding
open Bencode CText Decimal Fallible Fuelled Keyed Numerals

/-! ## Numbers -/

section Numbers
variable {N : Type} {extract : Int → Option N}

theorem toInt64_eq_some {n : Int} {i : Int64} : toInt64 n = some i ↔ n = i.toInt := by
  have := Int64.le_toInt i
  have := Int64.toInt_lt i
  rw [toInt64]
  constructor
  · intro h
    split at h
    next hrange =>
      rw [← Option.some.inj h, Int64.toInt_ofInt_of_le]
      · omega
      · omega
    · cases h
  · rintro rfl
    rw [if_pos (by omega), Int64.ofInt_toInt]

theorem toSize_natCast {k : Nat} (h : k < 2 ^ 64) : toSize k = some k := by
  rw [toSize, if_pos (by simpa using h)]
  congr 1
  omega

/-- A numeral is extracted. -/
theorem strToNum_text (n : Numeral) : strToNum extract n.text = extract n.number := by
  obtain ⟨sign, hsign, hnumber⟩ := n.signOf_text []
  have hspace := n.dropWhile_text []
  have htake : n.digits.takeWhile isDigit = n.digits :=
    List.takeWhile_eq_self_iff.mpr n.isDigit_of_mem
  have hdrop : n.digits.dropWhile isDigit = [] := List.dropWhile_eq_nil_iff.mpr n.isDigit_of_mem
  simp only [List.append_nil] at hsign hspace
  rw [strToNum, hspace, hsign]
  dsimp only
  rw [htake, hdrop, if_neg n.digits_ne_nil, if_pos rfl, hnumber]

/-- The digits a length is extracted from. -/
theorem strToNum_digit {b : UInt8} {s : List UInt8} {k : Nat} (hb : isDigit b = true)
    (h : strToNum toSize (b :: s) = some k) :
    ∃ n : Numeral, n.space = [] ∧ n.sign = none ∧ n.number = k ∧ n.text = b :: s := by
  have hspace : (b :: s).dropWhile isSpace = b :: s :=
    List.dropWhile_cons_of_neg (by simp [not_isSpace_of_isDigit hb])
  rw [strToNum, hspace, signOf_digit hb] at h
  dsimp only at h
  split at h
  · cases h
  next hdigits =>
    split at h
    next hdrop =>
      rw [List.dropWhile_eq_nil_iff] at hdrop
      refine ⟨⟨[], none, b :: s, by simp, hdrop, List.cons_ne_nil b s⟩, rfl, rfl, ?_, rfl⟩
      rw [toSize] at h
      split at h
      next hsize =>
        have hk := Option.some.inj h
        show (value (b :: s) : Int) = k
        omega
      · cases h
    · cases h

end Numbers

/-! ## Single characters -/

/-- A character is read exactly where it stands. -/
theorem readExpectedChar_eq_ok {input rest : List UInt8} {c : UInt8} :
    Decoder.readExpectedChar input c = .ok rest ↔ input = c :: rest := by
  rw [Decoder.readExpectedChar]
  constructor
  · intro h
    split at h
    next hhead =>
      rw [← Except.ok.inj h]
      exact (List.cons_head?_tail (Option.mem_def.mpr hhead)).symm
    · cases h
  · rintro rfl
    exact if_pos rfl

/-! ## Integers -/

section Integers
variable {n : Numeral} {i : Int64} {input rest : List UInt8} {item : BItem}

/-- A byte that no number has in it. -/
theorem not_mem_text (h : n.space = []) {b : UInt8} (hb : isDigit b = false) (hplus : b ≠ 43)
    (hminus : b ≠ 45) : ∀ c ∈ n.text, (c != b) = true := by
  intro c hc
  rw [bne_iff_ne]
  rintro rfl
  rw [Numeral.text, h, List.nil_append, List.mem_append] at hc
  rcases hc with hc | hc
  · rcases hsign : n.sign with _ | _ | _
    · rw [hsign] at hc
      cases hc
    · rw [hsign] at hc
      exact hplus (List.mem_singleton.mp hc)
    · rw [hsign] at hc
      exact hminus (List.mem_singleton.mp hc)
  · rw [n.isDigit_of_mem c hc] at hb
    cases hb

theorem integerRegex_text (h : n.Plain) :
    Decoder.integerRegex (105 :: n.text ++ [101]) = some n.text := by
  obtain ⟨hspace, hzeros⟩ := h
  obtain ⟨sign, hsign, -⟩ := n.signOf_text []
  have htext : n.text = signText n.sign ++ n.digits := by rw [Numeral.text, hspace]; rfl
  simp only [List.append_nil] at hsign
  rw [List.cons_append, Decoder.integerRegex, List.dropLast_concat, List.getLast?_concat, htext,
    hsign]
  exact if_pos ⟨rfl, n.digits_ne_nil, List.all_eq_true.mpr n.isDigit_of_mem, hzeros⟩

theorem integerRegex_eq_some {s number : List UInt8} (h : Decoder.integerRegex s = some number) :
    ∃ n : Numeral, n.Plain ∧ n.text = number ∧ s = 105 :: number ++ [101] := by
  rw [Decoder.integerRegex.eq_def] at h
  split at h
  next text =>
    dsimp only at h
    split at h
    next hmatch =>
      obtain ⟨hlast, hne, hdigits, hzeros⟩ := hmatch
      obtain rfl := Option.some.inj h
      obtain ⟨sign, hsign, -⟩ := exists_sign text.dropLast
      refine ⟨⟨[], sign, _, by simp, List.all_eq_true.mp hdigits, hne⟩, ⟨rfl, hzeros⟩,
        hsign.symm, ?_⟩
      rw [List.cons_append, List.dropLast_append_getLast? 101 hlast]
    · cases h
  · cases h

/-- An integer is read up to its `e`. -/
theorem decodeInteger_plain (h : n.Plain) (hi : n.number = i.toInt) (rest : List UInt8) :
    Decoder.decodeInteger (105 :: n.text ++ [101] ++ rest) = .ok (.BInteger i, rest) := by
  have htext : 105 :: n.text ++ [101] ++ rest = (105 :: n.text) ++ 101 :: rest := by simp
  have hno := not_mem_text h.1 (b := 101) (by decide) (by decide) (by decide)
  have hstop := takeWhile_append_stop (p := (· != 101)) (a := 105 :: n.text) (b := 101) rest
    (by simpa using hno) (by decide)
  have hread : Decoder.readEncodedInteger (105 :: n.text ++ [101] ++ rest) =
      .ok (105 :: n.text ++ [101], rest) := by
    rw [Decoder.readEncodedInteger, readUntil, htext, hstop.1, hstop.2]
    rfl
  have hdecode : Decoder.decodeEncodedInteger (105 :: n.text ++ [101]) = .ok i := by
    rw [Decoder.decodeEncodedInteger, integerRegex_text h]
    dsimp only
    rw [strToNum_text, toInt64_eq_some.mpr hi]
    rfl
  rw [Decoder.decodeInteger, hread, ok_bind]
  dsimp only
  rw [hdecode]
  rfl

/-- And nothing else is read as an integer. -/
theorem strict_of_decodeInteger (h : Decoder.decodeInteger input = .ok (item, rest)) :
    ∃ i t, Strict (.int i) t ∧ input = t ++ rest ∧ item = .BInteger i := by
  obtain ⟨⟨encodedInteger, input'⟩, hread, h⟩ := bind_eq_ok.mp h
  obtain ⟨i, hdecode, h⟩ := bind_eq_ok.mp h
  obtain ⟨rfl, rfl⟩ := Prod.mk.inj (Except.ok.inj h)
  rw [Decoder.decodeEncodedInteger] at hdecode
  split at hdecode
  · cases hdecode
  next number hregex =>
    obtain ⟨n, hplain, rfl, rfl⟩ := integerRegex_eq_some hregex
    rw [strToNum_text] at hdecode
    split at hdecode
    · cases hdecode
    next i' hi =>
      obtain rfl := Except.ok.inj hdecode
      refine ⟨i', _, ⟨n, hplain, toInt64_eq_some.mp hi, rfl⟩, ?_, rfl⟩
      rw [Decoder.readEncodedInteger, readUntil] at hread
      split at hread
      next encodedInteger' input'' heq =>
        obtain ⟨rfl, rfl⟩ := Prod.mk.inj (Except.ok.inj hread)
        split at heq
        · cases heq
        next c rest' hdrop =>
          obtain ⟨-, heq⟩ := Prod.mk.inj heq
          obtain ⟨htake, rfl⟩ := Prod.mk.inj heq
          rw [← htake, List.append_assoc, List.singleton_append, ← hdrop,
            List.takeWhile_append_dropWhile]
      · cases hread

end Integers

/-! ## Strings -/

section Strings
variable {max_size : UInt64} {s t input rest : List UInt8} {item : BItem} {b : UInt8}

/-- A string is read, if `std::string` may be so long. -/
theorem decodeString_strict (h : StrictStr s t) (hmax : s.length ≤ max_size.toNat)
    (rest : List UInt8) :
    Decoder.decodeString max_size (t ++ rest) = .ok (.BString s, rest) := by
  obtain ⟨n, hspace, hsign, hn, rfl⟩ := h
  have hsize := max_size.toNat_lt
  have htext : n.text ++ 58 :: s ++ rest = n.text ++ 58 :: (s ++ rest) := by simp
  have hno := not_mem_text hspace (b := 58) (by decide) (by decide) (by decide)
  have hstop := takeWhile_append_stop (p := (· != 58)) (b := 58) (s ++ rest) hno (by decide)
  have hread : Decoder.readStringLength (n.text ++ 58 :: s ++ rest) =
      .ok (s.length, 58 :: (s ++ rest)) := by
    rw [Decoder.readStringLength, readUpTo, htext, hstop.1, hstop.2, List.isEmpty_cons,
      Bool.not_false]
    dsimp only
    rw [strToNum_text, hn, toSize_natCast (by omega)]
    rfl
  have hstr : Decoder.readStringOfGivenLength max_size (s ++ rest) s.length = .ok (s, rest) := by
    rw [Decoder.readStringOfGivenLength, if_neg (by omega), if_neg (by simp), List.take_left,
      List.drop_left]
    rfl
  rw [Decoder.decodeString, hread, ok_bind]
  dsimp only
  rw [readExpectedChar_eq_ok.mpr rfl, ok_bind, hstr]
  rfl

/-- And what is read behind a digit is spelled so. -/
theorem strict_of_decodeString (hb : isDigit b = true)
    (h : Decoder.decodeString max_size (b :: input) = .ok (item, rest)) :
    ∃ s t, StrictStr s t ∧ b :: input = t ++ rest ∧ item = .BString s := by
  obtain ⟨⟨stringLength, input'⟩, hlength, h⟩ := bind_eq_ok.mp h
  obtain ⟨input'', hcolon, h⟩ := bind_eq_ok.mp h
  obtain ⟨⟨str, rest'⟩, hstr, h⟩ := bind_eq_ok.mp h
  obtain ⟨rfl, rfl⟩ := Prod.mk.inj (Except.ok.inj h)
  -- the length, and the colon behind it
  have hne : (b != 58) = true := ne_of_isDigit hb (by decide)
  rw [Decoder.readStringLength, readUpTo, List.takeWhile_cons_of_pos (p := (· != 58)) hne,
    List.dropWhile_cons_of_pos (p := (· != 58)) hne] at hlength
  split at hlength
  next stringLengthInASCII rest'' heq =>
    obtain ⟨-, heq⟩ := Prod.mk.inj heq
    obtain ⟨rfl, rfl⟩ := Prod.mk.inj heq
    split at hlength
    · cases hlength
    next k hk =>
      obtain ⟨rfl, rfl⟩ := Prod.mk.inj (Except.ok.inj hlength)
      obtain ⟨n, hspace, hsign, hn, htext⟩ := strToNum_digit hb hk
      have htail := readExpectedChar_eq_ok.mp hcolon
      -- the string
      rw [Decoder.readStringOfGivenLength] at hstr
      split at hstr
      · cases hstr
      split at hstr
      · cases hstr
      next hlen =>
        obtain ⟨rfl, rfl⟩ := Prod.mk.inj (Except.ok.inj hstr)
        refine ⟨_, _, ⟨n, hspace, hsign, ?_, rfl⟩, ?_, rfl⟩
        · rw [hn, List.length_take, Nat.min_eq_left (Nat.le_of_not_lt hlen)]
        · rw [htext, List.append_assoc, List.cons_append, List.cons_append,
            List.take_append_drop, ← htail, List.takeWhile_append_dropWhile]
  · cases hlength

end Strings

/-! ## Lists and dictionaries -/

/-- What is read of `input`, up to `rest`, is a strict spelling of a value, and the item is its. -/
def Reads (input : List UInt8) (item : BItem) (rest : List UInt8) : Prop :=
  ∃ v t, Strict v t ∧ input = t ++ rest ∧ itemOf v = item

theorem Reads.length_lt {input rest : List UInt8} {item : BItem} (h : Reads input item rest) :
    rest.length < input.length := by
  obtain ⟨v, t, hv, rfl, -⟩ := h
  have := hv.length_pos
  rw [List.length_append]
  omega

section Loops
variable {decode : List UInt8 → Except (Stop Thrown) (BItem × List UInt8)}
  (hdecode : ∀ {input item rest}, decode input = .ok (item, rest) → Reads input item rest)
include hdecode

/-- What the loop over a list has read when it ends. -/
theorem reads_of_listItems {rounds : Nat} {input rest : List UInt8} {bList items : List BItem}
    (h : Decoder.decodeListItemsIntoList decode rounds input bList = .ok (items, rest)) :
    ∃ l ts, StrictList l ts ∧ input = ts ++ rest ∧ items = bList ++ itemsOf l := by
  induction rounds generalizing input bList with
  | zero => cases h
  | succ rounds ih =>
    rw [Decoder.decodeListItemsIntoList] at h
    split at h
    · obtain ⟨rfl, rfl⟩ := Prod.mk.inj (Except.ok.inj h)
      exact ⟨[], [], rfl, rfl, (List.append_nil _).symm⟩
    · obtain ⟨⟨item, input'⟩, hitem, h⟩ := bind_eq_ok.mp h
      obtain ⟨v, t, hv, rfl, rfl⟩ := hdecode hitem
      obtain ⟨l, ts, hl, rfl, rfl⟩ := ih h
      refine ⟨v :: l, t ++ ts, ⟨t, ts, hv, hl, rfl⟩, ?_, ?_⟩
      · rw [List.append_assoc]
      · rw [List.append_assoc]
        rfl

/-- A key is a string. -/
theorem strict_of_key {input key rest : List UInt8}
    (h : Decoder.decodeDictionaryKey decode input = .ok (key, rest)) :
    ∃ t, StrictStr key t ∧ input = t ++ rest := by
  obtain ⟨⟨item, input'⟩, hitem, h⟩ := bind_eq_ok.mp h
  obtain ⟨v, t, hv, rfl, rfl⟩ := hdecode hitem
  cases v with
  | str s =>
    obtain ⟨rfl, rfl⟩ := Prod.mk.inj (Except.ok.inj h)
    rw [Strict] at hv
    exact ⟨t, hv, rfl⟩
  | int i => cases h
  | list l => cases h
  | dict d => cases h

/-- What the loop over a dictionary has read when it ends. -/
theorem reads_of_dictionaryItems {rounds : Nat} {input rest : List UInt8}
    {bDictionary itemMap : List (List UInt8 × BItem)}
    (h : Decoder.decodeDictionaryItemsIntoDictionary decode rounds input bDictionary =
      .ok (itemMap, rest)) :
    ∃ d ts, StrictDict d ts ∧ input = ts ++ rest ∧ itemMap = assignAll bDictionary (pairsOf d) := by
  induction rounds generalizing input bDictionary with
  | zero => cases h
  | succ rounds ih =>
    rw [Decoder.decodeDictionaryItemsIntoDictionary] at h
    split at h
    · obtain ⟨rfl, rfl⟩ := Prod.mk.inj (Except.ok.inj h)
      exact ⟨[], [], rfl, rfl, rfl⟩
    · obtain ⟨⟨key, input'⟩, hkey, h⟩ := bind_eq_ok.mp h
      obtain ⟨⟨item, input''⟩, hitem, h⟩ := bind_eq_ok.mp h
      obtain ⟨tk, hk, rfl⟩ := strict_of_key hdecode hkey
      obtain ⟨v, t, hv, rfl, rfl⟩ := hdecode hitem
      obtain ⟨d, ts, hd, rfl, rfl⟩ := ih h
      refine ⟨(key, v) :: d, tk ++ t ++ ts, ⟨tk, t, ts, hk, hv, hd, rfl⟩, ?_, rfl⟩
      rw [List.append_assoc, List.append_assoc]

end Loops

/-- **Whatever is read is a strict spelling.** -/
theorem reads_of_decodeStream {max_size : UInt64} {fuel : Nat} {input rest : List UInt8}
    {item : BItem} (h : Decoder.decodeStream max_size fuel input = .ok (item, rest)) :
    Reads input item rest := by
  induction fuel generalizing input item rest with
  | zero => cases h
  | succ fuel ih =>
    rw [Decoder.decodeStream] at h
    split at h
    · -- a dictionary
      obtain ⟨input', hopen, h⟩ := bind_eq_ok.mp h
      obtain ⟨⟨itemMap, input''⟩, hloop, h⟩ := bind_eq_ok.mp h
      obtain ⟨rest', hclose, h⟩ := bind_eq_ok.mp h
      obtain ⟨rfl, rfl⟩ := Prod.mk.inj (Except.ok.inj h)
      obtain rfl := readExpectedChar_eq_ok.mp (lift_eq_ok.mp hopen)
      obtain rfl := readExpectedChar_eq_ok.mp (lift_eq_ok.mp hclose)
      obtain ⟨d, ts, hd, rfl, rfl⟩ := reads_of_dictionaryItems ih hloop
      refine ⟨.dict d, 100 :: ts ++ [101], ?_, by simp, rfl⟩
      rw [Strict]
      exact ⟨ts, hd, rfl⟩
    split at h
    · -- an integer
      obtain ⟨i, t, hi, rfl, rfl⟩ := strict_of_decodeInteger (lift_eq_ok.mp h)
      exact ⟨.int i, t, hi, rfl, rfl⟩
    split at h
    · -- a list
      obtain ⟨input', hopen, h⟩ := bind_eq_ok.mp h
      obtain ⟨⟨items, input''⟩, hloop, h⟩ := bind_eq_ok.mp h
      obtain ⟨rest', hclose, h⟩ := bind_eq_ok.mp h
      obtain ⟨rfl, rfl⟩ := Prod.mk.inj (Except.ok.inj h)
      obtain rfl := readExpectedChar_eq_ok.mp (lift_eq_ok.mp hopen)
      obtain rfl := readExpectedChar_eq_ok.mp (lift_eq_ok.mp hclose)
      obtain ⟨l, ts, hl, rfl, rfl⟩ := reads_of_listItems ih hloop
      refine ⟨.list l, 108 :: ts ++ [101], ?_, by simp, rfl⟩
      rw [Strict]
      exact ⟨ts, hl, rfl⟩
    split at h
    next hdigit =>
      cases input with
      | nil => exact absurd hdigit (by decide)
      | cons b input =>
        obtain ⟨s, t, hs, heq, rfl⟩ := strict_of_decodeString hdigit (lift_eq_ok.mp h)
        refine ⟨.str s, t, ?_, heq, rfl⟩
        rw [Strict]
        exact hs
    · cases h

/-! ## The decoder comes to an end -/

section Ends
variable {decode : List UInt8 → Except (Stop Thrown) (BItem × List UInt8)} {n : Nat}
  (hdecode : ∀ {input item rest}, decode input = .ok (item, rest) → Reads input item rest)
  (hends : ∀ {input}, input.length < n → decode input ≠ .error .fuel)
include hdecode hends

/-- Every round takes a byte off the stream. -/
theorem listItems_ends {rounds : Nat} {input : List UInt8} (hlen : input.length < n)
    (hrounds : input.length < rounds) (bList : List BItem) :
    Decoder.decodeListItemsIntoList decode rounds input bList ≠ .error .fuel := by
  induction rounds generalizing input bList with
  | zero => omega
  | succ rounds ih =>
    rw [Decoder.decodeListItemsIntoList]
    split
    · rintro h
      cases h
    · refine bind_ne_fuel (hends hlen) ?_
      rintro ⟨item, input'⟩ hitem
      have := (hdecode hitem).length_lt
      exact ih (by omega) (by omega) _

omit hdecode in
theorem key_ends {input : List UInt8} (hlen : input.length < n) :
    Decoder.decodeDictionaryKey decode input ≠ .error .fuel := by
  refine bind_ne_fuel (hends hlen) ?_
  rintro ⟨item, input'⟩ -
  cases item with
  | BString key =>
    rintro h
    cases h
  | BInteger i =>
    rintro h
    cases h
  | BList items =>
    rintro h
    cases h
  | BDictionary m =>
    rintro h
    cases h

theorem dictionaryItems_ends {rounds : Nat} {input : List UInt8} (hlen : input.length < n)
    (hrounds : input.length < rounds) (bDictionary : List (List UInt8 × BItem)) :
    Decoder.decodeDictionaryItemsIntoDictionary decode rounds input bDictionary ≠
      .error .fuel := by
  induction rounds generalizing input bDictionary with
  | zero => omega
  | succ rounds ih =>
    rw [Decoder.decodeDictionaryItemsIntoDictionary]
    split
    · rintro h
      cases h
    · refine bind_ne_fuel (key_ends hends hlen) ?_
      rintro ⟨key, input'⟩ hkey
      obtain ⟨t, ht, rfl⟩ := strict_of_key hdecode hkey
      rw [List.length_append] at hlen hrounds
      refine bind_ne_fuel (hends (by omega)) ?_
      rintro ⟨value, input''⟩ hvalue
      have := (hdecode hvalue).length_lt
      exact ih (by omega) (by omega) _

end Ends

/-- With more fuel than there are bytes the run ends. -/
theorem decodeStream_ends {max_size : UInt64} {fuel : Nat} {input : List UInt8}
    (h : input.length < fuel) : Decoder.decodeStream max_size fuel input ≠ .error .fuel := by
  induction fuel generalizing input with
  | zero => omega
  | succ fuel ih =>
    have hsound : ∀ {input item rest},
        Decoder.decodeStream max_size fuel input = .ok (item, rest) → Reads input item rest :=
      reads_of_decodeStream
    rw [Decoder.decodeStream]
    split
    · refine bind_ne_fuel (lift_ne_fuel _) ?_
      rintro input' hopen
      obtain rfl := readExpectedChar_eq_ok.mp (lift_eq_ok.mp hopen)
      rw [List.length_cons] at h
      refine bind_ne_fuel (dictionaryItems_ends hsound ih (by omega) (by omega) _) ?_
      rintro ⟨m, input''⟩ -
      exact bind_ne_fuel (lift_ne_fuel _) fun _ _ h => by cases h
    split
    · exact lift_ne_fuel _
    split
    · refine bind_ne_fuel (lift_ne_fuel _) ?_
      rintro input' hopen
      obtain rfl := readExpectedChar_eq_ok.mp (lift_eq_ok.mp hopen)
      rw [List.length_cons] at h
      refine bind_ne_fuel (listItems_ends hsound ih (by omega) (by omega) _) ?_
      rintro ⟨items, input''⟩ -
      exact bind_ne_fuel (lift_ne_fuel _) fun _ _ h => by cases h
    split
    · exact lift_ne_fuel _
    · rintro h
      cases h

/-- `decode(const std::string &data)`. -/
def Decoder.decode (max_size : UInt64) (data : List UInt8) : Except Thrown BItem := do
  let (decodedData, input) ←
    result (decodeStream max_size (data.length + 1) data) (decodeStream_ends (Nat.lt_succ_self _))
  validateInput input
  pure decodedData

/-! ## Every strict spelling is read -/

section Equations
variable {max_size : UInt64} {fuel : Nat} {input : List UInt8}

theorem decodeStream_dictionary : Decoder.decodeStream max_size (fuel + 1) (100 :: input) =
    (Decoder.decodeDictionaryItemsIntoDictionary (Decoder.decodeStream max_size fuel) fuel input []
      >>= fun r => lift (Decoder.readExpectedChar r.2 101) >>= fun rest =>
        .ok (.BDictionary r.1, rest)) := rfl

theorem decodeStream_list : Decoder.decodeStream max_size (fuel + 1) (108 :: input) =
    (Decoder.decodeListItemsIntoList (Decoder.decodeStream max_size fuel) fuel input []
      >>= fun r => lift (Decoder.readExpectedChar r.2 101) >>= fun rest =>
        .ok (.BList r.1, rest)) := rfl

theorem decodeStream_integer : Decoder.decodeStream max_size (fuel + 1) (105 :: input) =
    lift (Decoder.decodeInteger (105 :: input)) := rfl

theorem decodeStream_string {b : UInt8} (hb : isDigit b = true) :
    Decoder.decodeStream max_size (fuel + 1) (b :: input) =
      lift (Decoder.decodeString max_size (b :: input)) := by
  have hne : ∀ {c : UInt8}, isDigit c = false → b ≠ c := by
    rintro c hc rfl
    rw [hb] at hc
    cases hc
  have h100 : b ≠ 100 := hne (by decide)
  have h105 : b ≠ 105 := hne (by decide)
  have h108 : b ≠ 108 := hne (by decide)
  simp only [Decoder.decodeStream, List.headD_cons, h100, h105, h108, hb, if_true, if_false]

end Equations

mutual

/-- **Every strict spelling is read**, up to its end, whatever comes behind it. -/
theorem decodeStream_strict {max_size : UInt64} (v : Value) {t : List UInt8} (h : Strict v t)
    (hmax : t.length ≤ max_size.toNat) (rest : List UInt8) {fuel : Nat}
    (hfuel : (t ++ rest).length < fuel) :
    Decoder.decodeStream max_size fuel (t ++ rest) = .ok (itemOf v, rest) := by
  obtain ⟨fuel, rfl⟩ := Nat.exists_eq_succ_of_ne_zero (show fuel ≠ 0 by omega)
  match v with
  | .str s =>
    rw [Strict] at h
    obtain ⟨b, t', rfl, hb⟩ := h.cons
    have hlen : s.length ≤ max_size.toNat := by
      obtain ⟨n, -, -, -, ht⟩ := h
      rw [ht, List.length_append, List.length_cons] at hmax
      omega
    rw [List.cons_append, decodeStream_string hb, ← List.cons_append,
      decodeString_strict h hlen]
    rfl
  | .int i =>
    rw [Strict] at h
    obtain ⟨n, hn, hi, rfl⟩ := h
    have hread := decodeInteger_plain hn hi rest
    rw [List.cons_append, List.cons_append] at hread ⊢
    rw [decodeStream_integer, hread]
    rfl
  | .list l =>
    rw [Strict] at h
    obtain ⟨ts, hl, rfl⟩ := h
    have htext : 108 :: ts ++ [101] ++ rest = 108 :: (ts ++ 101 :: rest) := by simp
    simp only [List.length_append, List.length_cons, List.length_nil] at hmax hfuel
    rw [htext, decodeStream_list, listItems_strict l hl (by omega) rest (by simp; omega)
      (by simp; omega), ok_bind, readExpectedChar_eq_ok.mpr rfl]
    rfl
  | .dict d =>
    rw [Strict] at h
    obtain ⟨ts, hd, rfl⟩ := h
    have htext : 100 :: ts ++ [101] ++ rest = 100 :: (ts ++ 101 :: rest) := by simp
    simp only [List.length_append, List.length_cons, List.length_nil] at hmax hfuel
    rw [htext, decodeStream_dictionary, dictionaryItems_strict d hd (by omega) rest
      (by simp; omega) (by simp; omega), ok_bind, readExpectedChar_eq_ok.mpr rfl]
    rfl

theorem listItems_strict {max_size : UInt64} (l : List Value) {ts : List UInt8}
    (h : StrictList l ts) (hmax : ts.length ≤ max_size.toNat) (rest : List UInt8)
    {fuel rounds : Nat} (hfuel : (ts ++ 101 :: rest).length < fuel)
    (hrounds : (ts ++ 101 :: rest).length ≤ rounds) (bList : List BItem) :
    Decoder.decodeListItemsIntoList (Decoder.decodeStream max_size fuel) rounds
      (ts ++ 101 :: rest) bList = .ok (bList ++ itemsOf l, 101 :: rest) := by
  obtain ⟨rounds, rfl⟩ := Nat.exists_eq_succ_of_ne_zero
    (show rounds ≠ 0 by simp at hrounds; omega)
  match l with
  | [] =>
    rw [StrictList] at h
    subst h
    rw [List.nil_append, Decoder.decodeListItemsIntoList, if_pos List.head?_cons, itemsOf,
      List.append_nil]
    rfl
  | v :: l =>
    obtain ⟨t, ts', hv, hl, rfl⟩ := h
    obtain ⟨b, s, ht, hb⟩ := hv.cons
    have hpos := hv.length_pos
    have hhead : (t ++ (ts' ++ 101 :: rest)).head? ≠ some 101 := by
      rw [ht]
      simpa using hb
    simp only [List.append_assoc, List.length_append, List.length_cons] at hmax hfuel hrounds ⊢
    rw [Decoder.decodeListItemsIntoList, if_neg hhead,
      decodeStream_strict v hv (by omega) _ (by simp; omega), ok_bind]
    dsimp only
    rw [listItems_strict l hl (by omega) rest (by simp; omega) (by simp; omega),
      List.append_assoc]
    rfl

theorem dictionaryItems_strict {max_size : UInt64} (d : List (List UInt8 × Value))
    {ts : List UInt8} (h : StrictDict d ts) (hmax : ts.length ≤ max_size.toNat)
    (rest : List UInt8) {fuel rounds : Nat} (hfuel : (ts ++ 101 :: rest).length < fuel)
    (hrounds : (ts ++ 101 :: rest).length ≤ rounds) (bDictionary : List (List UInt8 × BItem)) :
    Decoder.decodeDictionaryItemsIntoDictionary (Decoder.decodeStream max_size fuel) rounds
      (ts ++ 101 :: rest) bDictionary = .ok (assignAll bDictionary (pairsOf d), 101 :: rest) := by
  obtain ⟨rounds, rfl⟩ := Nat.exists_eq_succ_of_ne_zero
    (show rounds ≠ 0 by simp at hrounds; omega)
  match d with
  | [] =>
    rw [StrictDict] at h
    subst h
    rw [List.nil_append, Decoder.decodeDictionaryItemsIntoDictionary, if_pos List.head?_cons]
    rfl
  | (k, v) :: d =>
    obtain ⟨tk, t, ts', hk, hv, hd, rfl⟩ := h
    obtain ⟨b, s, ht, hb⟩ := hk.cons
    have hne : b ≠ 101 := by
      rintro rfl
      exact absurd hb (by decide)
    have hkpos : 0 < tk.length := by
      rw [ht]
      exact Nat.succ_pos _
    have hpos := hv.length_pos
    have hhead : (tk ++ (t ++ (ts' ++ 101 :: rest))).head? ≠ some 101 := by
      rw [ht]
      simpa using hne
    have hstr : Strict (.str k) tk := by
      rw [Strict]
      exact hk
    simp only [List.append_assoc, List.length_append, List.length_cons] at hmax hfuel hrounds ⊢
    have hkey : Decoder.decodeDictionaryKey (Decoder.decodeStream max_size fuel)
        (tk ++ (t ++ (ts' ++ 101 :: rest))) = .ok (k, t ++ (ts' ++ 101 :: rest)) := by
      rw [Decoder.decodeDictionaryKey,
        decodeStream_strict (.str k) hstr (by omega) _ (by simp; omega)]
      rfl
    rw [Decoder.decodeDictionaryItemsIntoDictionary, if_neg hhead, hkey, ok_bind]
    dsimp only
    rw [decodeStream_strict v hv (by omega) _ (by simp; omega), ok_bind]
    dsimp only
    rw [dictionaryItems_strict d hd (by omega) rest (by simp; omega) (by simp; omega)]
    rfl

end

/-! ## `decode` -/

section Decode
variable {max_size : UInt64} {data rest : List UInt8} {v : Value} {i : BItem}

/-- What becomes of a text that begins with a strict spelling. -/
theorem decode_append (h : Strict v data) (hmax : (data ++ rest).length ≤ max_size.toNat) :
    Decoder.decode max_size (data ++ rest) =
      if rest = [] then .ok (itemOf v)
      else .error (.DecodingError (ascii "input contains undecoded characters")) := by
  have hlen : data.length ≤ max_size.toNat := by
    rw [List.length_append] at hmax
    omega
  have hread := decodeStream_strict v h hlen rest (Nat.lt_succ_self _)
  rw [Decoder.decode, result_eq_ok.mpr hread, ok_bind]
  dsimp only
  rw [Decoder.validateInput]
  split
  · rfl
  · rfl

theorem decode_of_strict (h : Strict v data) (hmax : data.length ≤ max_size.toNat) :
    Decoder.decode max_size data = .ok (itemOf v) := by
  have happend := decode_append h (show (data ++ []).length ≤ _ by rwa [List.append_nil])
  rwa [List.append_nil, if_pos rfl] at happend

theorem strict_of_decode (h : Decoder.decode max_size data = .ok i) :
    ∃ v, Strict v data ∧ itemOf v = i := by
  obtain ⟨⟨item, input⟩, hread, h⟩ := bind_eq_ok.mp h
  obtain ⟨⟨⟩, hend, h⟩ := bind_eq_ok.mp h
  obtain rfl := Except.ok.inj h
  obtain ⟨v, t, hv, rfl, hitem⟩ := reads_of_decodeStream (result_eq_ok.mp hread)
  rw [Decoder.validateInput] at hend
  split at hend
  next hnil =>
    obtain rfl : input = [] := hnil
    exact ⟨v, by rwa [List.append_nil], hitem⟩
  · cases hend

/-- **The decoder accepts the strict spellings and nothing else**, and gives the item of the
value. -/
theorem decode_iff (hmax : data.length ≤ max_size.toNat) :
    Decoder.decode max_size data = .ok i ↔ ∃ v, Strict v data ∧ itemOf v = i := by
  constructor
  · exact strict_of_decode
  · rintro ⟨v, hv, rfl⟩
    exact decode_of_strict hv hmax

/-- A dictionary whose keys are not in order. -/
theorem decode_iff_unsorted :
    Decoder.decode 64 (ascii "d1:bi2e1:a1:xe") =
        .ok (.BDictionary [([97], .BString [120]), ([98], .BInteger 2)]) ↔
      ∃ v, Strict v (ascii "d1:bi2e1:a1:xe") ∧
        itemOf v = .BDictionary [([97], .BString [120]), ([98], .BInteger 2)] :=
  decode_iff (by decide)

/-- **A dictionary that is decoded has its keys in order, and at each the item of its last
entry.** -/
theorem decode_dictionary {m : List (List UInt8 × BItem)}
    (h : Decoder.decode max_size data = .ok (.BDictionary m)) : Increasing Prod.fst m ∧
      ∃ d, Strict (.dict d) data ∧ ∀ k, m.lookup k = (d.reverse.lookup k).map itemOf := by
  obtain ⟨v, hv, hi⟩ := strict_of_decode h
  cases v with
  | str s => cases hi
  | int i => cases hi
  | list l => cases hi
  | dict d =>
    obtain rfl : assignAll [] (pairsOf d) = m := BItem.BDictionary.inj hi
    refine ⟨Increasing.assignAll List.Pairwise.nil, d, hv, ?_⟩
    intro k
    rw [lookup_assignAll, List.append_nil, pairsOf_eq_map, ← List.map_reverse, lookup_map_snd]

/-- A key that is given twice. -/
theorem decode_dictionary_twice : Increasing Prod.fst [(ascii "a", BItem.BInteger 2)] ∧
    ∃ d, Strict (.dict d) (ascii "d1:ai1e1:ai2ee") ∧
      ∀ k, [(ascii "a", BItem.BInteger 2)].lookup k = (d.reverse.lookup k).map itemOf :=
  decode_dictionary
    (show Decoder.decode 64 _ = .ok (.BDictionary [(ascii "a", .BInteger 2)]) from rfl)

end Decode

end TorrentClient.bencoding
