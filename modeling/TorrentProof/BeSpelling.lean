import Mathlib
import TorrentProof.BeDecodeRun
import TorrentProof.BeEncodeSize

/-! # What the decoder reads as a value

A value may be spelled in more ways than `encode` writes it: numbers as `strtoll` takes them,
and at the end of a list or a dictionary any byte nothing can begin with.  `decode_spells`
says that every spelling is decoded to the tree of the value, and `be_decoden_encode` what
becomes of the text `encode` writes: it is decoded if it has no empty dictionary in it, and
with one the decoder writes through a null pointer.  Between the two are the strict spellings,
whose lists and dictionaries end at `e`, an empty dictionary too (`be_decoden_strict`).
-/
namespace TorrentClient
open Bencode CText Decimal Fallible Fuelled Numerals

/-! ## Spellings -/

/-- A list ends at `e`, and at any other byte no value begins with. -/
def endsList (b : UInt8) : Bool := b != 108 && b != 100 && b != 105 && !isDigit b

/-- A dictionary ends at `e`, and at any other byte no value and no key begins with. -/
def endsDict (b : UInt8) : Bool :=
  endsList b && b != 58 && b != 45 && b != 43 && !isSpace b

/-- A string behind a numeral for its length. -/
def SpellsStr (s t : List UInt8) : Prop :=
  ∃ n : Numeral, n.number = s.length ∧ t = n.text ++ 58 :: s

mutual

/-- `t` is a spelling of a value. -/
def Spells : Value → List UInt8 → Prop
  | .str s, t => SpellsStr s t ∧ ∃ b t', t = b :: t' ∧ isDigit b = true
  | .int i, t => ∃ n : Numeral, n.read = i ∧ t = 105 :: n.text ++ [101]
  | .list l, t => ∃ ts b, SpellsList l ts ∧ endsList b = true ∧ t = 108 :: ts ++ [b]
  | .dict d, t => ∃ ts b, SpellsDict d ts ∧ endsDict b = true ∧ (d = [] → b ≠ 101) ∧
      t = 100 :: ts ++ [b]

/-- `ts` is a spelling of the elements of a list. -/
def SpellsList : List Value → List UInt8 → Prop
  | [], ts => ts = []
  | v :: l, ts => ∃ t ts', Spells v t ∧ SpellsList l ts' ∧ ts = t ++ ts'

/-- `ts` is a spelling of the entries of a dictionary. -/
def SpellsDict : List (List UInt8 × Value) → List UInt8 → Prop
  | [], ts => ts = []
  | (k, v) :: d, ts => ∃ tk t ts', SpellsStr k tk ∧ Spells v t ∧ SpellsDict d ts' ∧
      ts = tk ++ t ++ ts'

end

/-! ## Moving along a text -/

section Moving
variable {t endp rest : List UInt8} {len : Int} {live : Nat}

@[simp] theorem moveTo_append :
    Cursor.moveTo ⟨t ++ endp, len, live⟩ endp = ⟨endp, len - t.length, live⟩ := by
  simp [Cursor.moveTo]

@[simp] theorem eat_append (h : n = t.length) :
    Cursor.eat ⟨t ++ rest, len, live⟩ n = ⟨rest, len - t.length, live⟩ := by
  subst h
  simp [Cursor.eat]

@[simp] theorem eat_one (b : UInt8) :
    Cursor.eat ⟨b :: rest, len, live⟩ 1 = ⟨rest, len - 1, live⟩ := rfl

@[simp] theorem alloc_mk : Cursor.alloc ⟨t, len, live⟩ = ⟨t, len, live + 1⟩ := rfl

end Moving

/-! ## Strings and integers -/

section Leaves
variable {s t : List UInt8} {len : Int}

theorem SpellsStr.length_pos (h : SpellsStr s t) : 0 < t.length := by
  obtain ⟨n, -, rfl⟩ := h
  have := n.length_text_pos
  rw [List.length_append]
  omega

/-- The string that is spelled is read. -/
theorem decode_spellsStr (h : SpellsStr s t) (rest : List UInt8) (hlen : t.length ≤ len)
    (hmax : len < 2 ^ 63) (live : Nat) :
    _be_decode_str ⟨t ++ rest, len, live⟩ = .ok (some s, ⟨rest, len - t.length, live + 1⟩) := by
  obtain ⟨n, hn, rfl⟩ := h
  have htext : n.text ++ 58 :: s ++ rest = n.text ++ (58 :: (s ++ rest)) := by simp
  have hnum := n.strtoll_text (b := 58) (by decide) (s ++ rest)
  rw [List.length_append, List.length_cons] at hlen ⊢
  push_cast at hlen ⊢
  have hi : n.read.toInt = s.length := by
    rw [Numeral.read, hn]
    exact toInt_saturate (by omega) (by omega)
  rw [htext, decode_str_read hnum (by omega)]
  · rw [hi, if_neg (by simp)]
    simp only [moveTo_append, alloc_mk, Int.toNat_natCast, List.take_left]
    simp [Cursor.eat]
    omega
  · rw [moveTo_append, hi]
    dsimp only
    omega

end Leaves

/-! ## Where a list or a dictionary ends -/

section Ends
variable {b : UInt8} {rest : List UInt8} {len : Int} {live fuel : Nat}

/-- At a byte that ends a list there is no value. -/
theorem decode_of_endsList (hb : endsList b = true) (hlen : len ≠ 0) (hfuel : 0 < fuel) :
    _be_decode fuel ⟨b :: rest, len, live⟩ = .ok (none, ⟨b :: rest, len, live⟩) := by
  obtain ⟨fuel, rfl⟩ := Nat.exists_eq_succ_of_ne_zero (Nat.ne_of_gt hfuel)
  simp only [endsList, Bool.and_eq_true, bne_iff_ne, ne_eq, Bool.not_eq_true'] at hb
  exact decode_other hlen rfl hb.1.1.1 hb.1.1.2 hb.1.2 hb.2

/-- At a byte that ends a dictionary there is no key. -/
theorem decode_str_of_endsDict (hb : endsDict b = true) :
    _be_decode_str ⟨b :: rest, len, live⟩ = .ok (none, ⟨b :: rest, len, live⟩) := by
  simp only [endsDict, endsList, Bool.and_eq_true, bne_iff_ne, ne_eq, Bool.not_eq_true'] at hb
  have hnum : strtoll (b :: rest) = some (0, b :: rest) :=
    strtoll_of_not_begin hb.2 hb.1.1.2 hb.1.2 hb.1.1.1.1.2 rest
  rw [decode_str_null (c := ⟨b :: rest, len, live⟩) hnum (.inr (.inr (by simpa using hb.1.1.1.2)))]
  simp [Cursor.moveTo]

theorem endsList_of_endsDict (hb : endsDict b = true) : endsList b = true := by
  simp only [endsDict, Bool.and_eq_true] at hb
  exact hb.1.1.1.1

end Ends

/-- Entries as they are stored. -/
def stored (es : List (Option (List UInt8) × be_node)) : DictArray :=
  es.map fun e => (e.1, some e.2)

section Stored
variable {es : List (Option (List UInt8) × be_node)} {d : DictArray} {w : Nat}

@[simp] theorem length_stored : (stored es).length = es.length := by simp [stored]

theorem stored_append (es' : List (Option (List UInt8) × be_node)) :
    stored (es ++ es') = stored es ++ stored es' := by simp [stored]

theorem entriesOf_stored_append (es : List (Option (List UInt8) × be_node)) (d : DictArray) :
    entriesOf (stored es ++ d) = es ++ entriesOf d := by
  induction es with
  | nil => rfl
  | cons e es ih =>
    rw [List.cons_append, ← ih]
    rfl

/-- Where the entries that are stored stop, so does the dictionary. -/
theorem entriesOf_take_stops (es : List (Option (List UInt8) × be_node)) (n : Nat) :
    entriesOf ((stored es ++ List.replicate n (none, none)).take (2 * es.length)) = es := by
  rw [List.take_append, List.take_of_length_le (by simp; omega), entriesOf_stored_append,
    List.take_replicate]
  cases min (2 * es.length - (stored es).length) n with
  | zero => exact List.append_nil es
  | succ m => exact List.append_nil es

/-- Where no key is null no word is. -/
theorem nullWord_stored (hkeys : ∀ e ∈ es, e.1.isSome = true) (hw : w / 2 < es.length) :
    nullWord (stored es ++ d) w = false := by
  rw [nullWord_append (by simpa using hw), nullWord, stored, List.getElem?_map,
    List.getElem?_eq_getElem hw]
  dsimp only [Option.map_some]
  split
  · have := hkeys _ (List.getElem_mem hw)
    simpa [Option.isSome_iff_ne_none] using this
  · rfl

end Stored

section Stops
variable {decode : Cursor → Except (Stop Fault) (Option be_node × Cursor)} {b : UInt8}
  {rest : List UInt8} {len : Int} {es : List (Option (List UInt8) × be_node)}
  (hb : endsDict b = true) (hb101 : b ≠ 101) (hkeys : ∀ e ∈ es, e.1.isSome = true)
  (hdecode : ∀ live, decode ⟨b :: rest, len, live⟩ = .ok (none, ⟨b :: rest, len, live⟩))
include hb hb101 hkeys hdecode

/-- At a byte that ends it, and is not `e`, a dictionary of `k` entries gets `k + 1` entries
without a key and a value, until the test comes to word `2 * k`. -/
theorem dictLoop_stops {rounds j : Nat} (hj : j ≤ es.length)
    (hrounds : es.length < rounds + j) (live : Nat) :
    dictLoop decode rounds ⟨b :: rest, len, live⟩ (stored es ++ List.replicate j (none, none)) =
      .ok (stored es ++ List.replicate (es.length + 1) (none, none), 2 * es.length,
        ⟨b :: rest, len, live + if es = [] then 1 else 0⟩) := by
  induction rounds generalizing j live with
  | zero => omega
  | succ rounds ih =>
    have hgrow : Cursor.grow ⟨b :: rest, len, live⟩ (stored es ++ List.replicate j (none, none)) =
        ⟨b :: rest, len, live + if es = [] ∧ j = 0 then 1 else 0⟩ := by
      by_cases h : es = [] ∧ j = 0
      · simp [Cursor.grow, stored, h]
      · have : stored es ++ List.replicate j (none, none) ≠ [] := by
          simpa [stored] using h
        simp [Cursor.grow, this, h]
    have hsnoc : stored es ++ List.replicate j (none, none) ++ [(none, none)] =
        stored es ++ List.replicate (j + 1) (none, none) := by
      rw [List.append_assoc, ← List.replicate_succ']
    rw [dictLoop_round rfl hb101, hgrow, decode_str_of_endsDict hb, lift_ok, ok_bind]
    dsimp only
    rw [hdecode, ok_bind]
    dsimp only
    rw [hsnoc, List.length_append, length_stored, List.length_replicate]
    by_cases hlast : j = es.length
    · -- word `2 * k` is the key of the first entry that has none
      subst hlast
      have hword : nullWord (stored es ++ List.replicate (es.length + 1) (none, none))
          (es.length + es.length) = true := by
        rw [nullWord, show (es.length + es.length) / 2 = es.length by omega,
          List.getElem?_append_right (by simp)]
        simp [show (es.length + es.length) % 2 = 0 by omega]
      rw [if_pos hword, Nat.two_mul]
      simp
    · rw [nullWord_stored hkeys (by omega), if_neg (by simp), ih (by omega) (by omega) _]
      by_cases hes : es = []
      · subst hes
        simp at hj hlast
        omega
      · simp [hes]

end Stops

/-! ## Every spelling is decoded -/

theorem keys_entries (d : List (List UInt8 × Value)) :
    ∀ e ∈ entries d, e.1.isSome = true := by
  rw [entries_eq_map]
  intro e he
  obtain ⟨kv, -, rfl⟩ := List.mem_map.mp he
  rfl

/-- A spelling begins with a byte no list ends at. -/
theorem Spells.cons {v : Value} {t : List UInt8} (h : Spells v t) :
    ∃ b s, t = b :: s ∧ b ≠ 101 := by
  cases v with
  | str s =>
    rw [Spells] at h
    obtain ⟨-, b, t', rfl, hb⟩ := h
    refine ⟨b, t', rfl, ?_⟩
    rintro rfl
    exact absurd hb (by decide)
  | int i =>
    rw [Spells] at h
    obtain ⟨n, -, rfl⟩ := h
    exact ⟨105, _, rfl, by decide⟩
  | list l =>
    rw [Spells] at h
    obtain ⟨ts, b, -, -, rfl⟩ := h
    exact ⟨108, _, rfl, by decide⟩
  | dict d =>
    rw [Spells] at h
    obtain ⟨ts, b, -, -, -, rfl⟩ := h
    exact ⟨100, _, rfl, by decide⟩

theorem Spells.length_pos {v : Value} {t : List UInt8} (h : Spells v t) : 0 < t.length := by
  obtain ⟨b, s, rfl, -⟩ := h.cons
  simp

/-- A key begins with a byte no dictionary ends at. -/
theorem SpellsStr.cons {s t : List UInt8} (h : SpellsStr s t) : ∃ b t', t = b :: t' ∧ b ≠ 101 := by
  obtain ⟨n, -, rfl⟩ := h
  obtain ⟨b, t', ht⟩ := List.exists_cons_of_ne_nil (List.ne_nil_of_length_pos n.length_text_pos)
  refine ⟨b, t' ++ 58 :: s, by rw [ht]; rfl, ?_⟩
  rintro rfl
  have hmem : 101 ∈ n.text := ht ▸ List.mem_cons_self
  rw [Numeral.text, List.mem_append, List.mem_append] at hmem
  rcases hmem with (hmem | hmem) | hmem
  · exact absurd (n.isSpace_of_mem _ hmem) (by decide)
  · rcases hsign : n.sign with _ | _ | _ <;> simp [signText, hsign] at hmem
  · exact absurd (n.isDigit_of_mem _ hmem) (by decide)

/-- A round of the loop over a dictionary in which the key is read. -/
theorem dictLoop_key {decode : Cursor → Except (Stop Fault) (Option be_node × Cursor)}
    {k tk : List UInt8} (hk : SpellsStr k tk) (rest : List UInt8) {len : Int}
    (hlen : tk.length ≤ len) (hmax : len < 2 ^ 63) (live rounds : Nat)
    (es : List (Option (List UInt8) × be_node)) :
    dictLoop decode (rounds + 1) ⟨tk ++ rest, len, live⟩ (stored es) =
      (decode ⟨rest, len - tk.length, live + (if es = [] then 1 else 0) + 1⟩ >>= fun v =>
        if nullWord (stored es ++ [(some k, v.1)]) es.length then
          .ok (stored es ++ [(some k, v.1)], es.length, v.2)
        else dictLoop decode rounds v.2 (stored es ++ [(some k, v.1)])) := by
  obtain ⟨b, s, htk, hb⟩ := hk.cons
  have hgrow : Cursor.grow ⟨tk ++ rest, len, live⟩ (stored es) =
      ⟨tk ++ rest, len, live + if es = [] then 1 else 0⟩ := by
    by_cases hes : es = []
    · simp [Cursor.grow, stored, hes]
    · simp [Cursor.grow, stored, hes]
  rw [dictLoop_round (b := b) (s := s ++ rest) (by simp [htk]) hb, hgrow,
    decode_spellsStr hk rest hlen hmax, lift_ok, ok_bind, length_stored]

/-- Its test finds the value of an entry that is complete. -/
theorem nullWord_entry {es : List (Option (List UInt8) × be_node)}
    (hkeys : ∀ e ∈ es, e.1.isSome = true) (k : List UInt8) (val : be_node) :
    nullWord (stored es ++ [(some k, some val)]) es.length = false := by
  have hkeys' : ∀ e ∈ es ++ [(some k, val)], e.1.isSome = true := by
    simpa [or_imp, forall_and] using hkeys
  have hword := nullWord_stored (d := []) hkeys' (show es.length / 2 < _ by simp; omega)
  rwa [List.append_nil, stored_append] at hword

/-- Every element takes a byte of the text. -/
theorem SpellsList.length_le {l : List Value} {ts : List UInt8} (h : SpellsList l ts) :
    l.length ≤ ts.length := by
  induction l generalizing ts with
  | nil => exact Nat.zero_le _
  | cons v l ih =>
    obtain ⟨t, ts', hv, hl, rfl⟩ := h
    have := hv.length_pos
    have := ih hl
    rw [List.length_append, List.length_cons]
    omega

/-- Every entry takes two bytes of the text. -/
theorem SpellsDict.length_le {d : List (List UInt8 × Value)} {ts : List UInt8}
    (h : SpellsDict d ts) : 2 * d.length ≤ ts.length := by
  induction d generalizing ts with
  | nil => exact Nat.zero_le _
  | cons e d ih =>
    obtain ⟨k, v⟩ := e
    obtain ⟨tk, t, ts', hk, hv, hd, rfl⟩ := h
    have := hk.length_pos
    have := hv.length_pos
    have := ih hd
    rw [List.length_append, List.length_append, List.length_cons]
    omega

section Close
variable {b : UInt8} {len : Int} {fuel rounds : Nat}

/-- The end of a list. -/
theorem listLoop_close (hb : endsList b = true) (rest : List UInt8) (hlen : len ≠ 0) (live : Nat)
    (hfuel : 0 < fuel) (l : List be_node) :
    listLoop (_be_decode fuel) (rounds + 1) ⟨b :: rest, len, live⟩ l =
      .ok (l, ⟨b :: rest, len, live⟩) := by
  by_cases hb101 : b = 101
  · subst hb101
    exact listLoop_end rfl
  · rw [listLoop_round rfl hb101, decode_of_endsList hb hlen hfuel, ok_bind]

/-- The end of a dictionary, which has an array unless it is empty and ends with `e`. -/
theorem dictLoop_close (hb : endsDict b = true) (rest : List UInt8) (hlen : len ≠ 0) (live : Nat)
    (hfuel : 0 < fuel) {es : List (Option (List UInt8) × be_node)}
    (hkeys : ∀ e ∈ es, e.1.isSome = true)
    (hne : es = [] → b ≠ 101) (hrounds : es.length < rounds) :
    ∃ d i, dictLoop (_be_decode fuel) rounds ⟨b :: rest, len, live⟩ (stored es) =
        .ok (d, i, ⟨b :: rest, len, live + if es = [] then 1 else 0⟩) ∧
      d ≠ [] ∧ entriesOf (d.take i) = es := by
  by_cases hb101 : b = 101
  · have hes : es ≠ [] := fun hes => hne hes hb101
    obtain ⟨rounds, rfl⟩ := Nat.exists_eq_succ_of_ne_zero (show rounds ≠ 0 by omega)
    subst hb101
    refine ⟨stored es, (stored es).length, ?_, by simpa [stored] using hes, ?_⟩
    · rw [dictLoop_end rfl, if_neg hes]
      rfl
    · have hall := entriesOf_stored_append es []
      rw [List.append_nil] at hall
      rw [List.take_length, hall]
      exact List.append_nil es
  · have hnone : ∀ live, _be_decode fuel ⟨b :: rest, len, live⟩ =
        .ok (none, ⟨b :: rest, len, live⟩) :=
      fun live => decode_of_endsList (endsList_of_endsDict hb) hlen hfuel
    have hstops := dictLoop_stops hb hb101 hkeys hnone (Nat.zero_le _)
      (show es.length < rounds + 0 by omega) live
    rw [List.replicate_zero, List.append_nil] at hstops
    exact ⟨_, _, hstops, by simp, entriesOf_take_stops es _⟩

end Close

/-- The block of an array that is allocated for the entries `d`. -/
def grown (es : List (Option (List UInt8) × be_node)) (d : List (List UInt8 × Value)) : Nat :=
  if es = [] ∧ d ≠ [] then 1 else 0

mutual

/-- **Every spelling of a value is decoded to its tree**, with the pointer behind it, whatever
is there. -/
theorem decode_spells (v : Value) {t : List UInt8} (h : Spells v t) (rest : List UInt8)
    {len : Int} (hlen : t.length ≤ len) (hmax : len < 2 ^ 63) (live : Nat) {fuel : Nat}
    (hfuel : (t ++ rest).length + 2 ≤ fuel) :
    _be_decode fuel ⟨t ++ rest, len, live⟩ =
      .ok (some (node v), ⟨rest, len - t.length, live + blocks (node v)⟩) := by
  obtain ⟨fuel, rfl⟩ := Nat.exists_eq_succ_of_ne_zero (show fuel ≠ 0 by omega)
  have hpos := h.length_pos
  have hlen0 : len ≠ 0 := by omega
  match v with
  | .str s =>
    rw [Spells] at h
    obtain ⟨hs, b, t', rfl, hb⟩ := h
    rw [List.cons_append, decode_str hlen0 rfl hb, alloc_mk, ← List.cons_append,
      decode_spellsStr hs rest hlen hmax]
    simp [node, blocks, strBlocks, Nat.add_comm, Nat.add_left_comm]
  | .int i =>
    rw [Spells] at h
    obtain ⟨n, rfl, rfl⟩ := h
    have htext : 105 :: n.text ++ [101] ++ rest = 105 :: (n.text ++ 101 :: rest) := by simp
    have hnum := n.strtoll_text (b := 101) (by decide) rest
    rw [htext, decode_int hlen0 rfl, alloc_mk, eat_one, decode_int_eq hnum, moveTo_append,
      lift_ok, ok_bind]
    simp only [Cursor.peek, lift_ok, ok_bind, ne_eq, not_true, if_false, eat_one]
    simp [node, blocks]
    omega
  | .list l =>
    rw [Spells] at h
    obtain ⟨ts, b, hl, hb, rfl⟩ := h
    have hcount := hl.length_le
    have htext : 108 :: ts ++ [b] ++ rest = 108 :: (ts ++ b :: rest) := by simp
    simp only [List.length_append, List.length_cons, List.length_nil] at hlen hfuel
    have hloop := listLoop_elements l hl (b :: rest) (show (ts.length : Int) ≤ len - 1 by omega)
      (by omega) (live + 1) (show _ ≤ fuel by simp; omega) (fuel - l.length - 1 + 1) []
    rw [listLoop_close hb rest (by omega) _ (by omega),
      show fuel - l.length - 1 + 1 + l.length = fuel by omega] at hloop
    rw [htext, decode_list hlen0 rfl, alloc_mk, eat_one, hloop, ok_bind]
    simp [node, blocks]
    omega
  | .dict d =>
    rw [Spells] at h
    obtain ⟨ts, b, hd, hb, hne, rfl⟩ := h
    have hcount := hd.length_le
    have hcount' : (entries d).length = d.length := by simp [entries_eq_map]
    have hgrown : grown [] d + (if entries d = [] then 1 else 0) = 1 := by
      cases d with
      | nil => rfl
      | cons e d => simp [grown, entries_eq_map]
    have htext : 100 :: ts ++ [b] ++ rest = 100 :: (ts ++ b :: rest) := by simp
    simp only [List.length_append, List.length_cons, List.length_nil] at hlen hfuel
    have hloop := dictLoop_entries d hd (b :: rest) (show (ts.length : Int) ≤ len - 1 by omega)
      (by omega) (live + 1) (show _ ≤ fuel by simp; omega) (fuel - d.length) [] (by simp)
    obtain ⟨d', i, hclose, hd', hview⟩ := dictLoop_close hb rest
      (show len - 1 - ts.length ≠ 0 by omega)
      (live + 1 + blocksDict (entries d) + grown [] d) (show 0 < fuel by omega) (keys_entries d)
      (fun he => hne (by simpa [entries_eq_map] using he))
      (show (entries d).length < fuel - d.length by omega)
    rw [stored, List.map_nil, List.nil_append, hclose,
      show fuel - d.length + d.length = fuel by omega] at hloop
    rw [htext, decode_dict hlen0 rfl, alloc_mk, eat_one, hloop, ok_bind]
    simp only [hd', if_false, hview, eat_one]
    simp [node, blocks]
    omega

theorem listLoop_elements (l : List Value) {ts : List UInt8} (h : SpellsList l ts)
    (rest : List UInt8) {len : Int} (hlen : ts.length ≤ len) (hmax : len < 2 ^ 63) (live : Nat)
    {fuel : Nat} (hfuel : (ts ++ rest).length + 2 ≤ fuel) (rounds : Nat) (acc : List be_node) :
    listLoop (_be_decode fuel) (rounds + l.length) ⟨ts ++ rest, len, live⟩ acc =
      listLoop (_be_decode fuel) rounds
        ⟨rest, len - ts.length, live + blocksList (nodes l)⟩ (acc ++ nodes l) := by
  match l with
  | [] =>
    rw [SpellsList] at h
    subst h
    simp [nodes, blocksList]
  | v :: l =>
    rw [SpellsList] at h
    obtain ⟨t, ts', hv, hl, rfl⟩ := h
    obtain ⟨b, s, ht, hb⟩ := hv.cons
    simp only [List.append_assoc, List.length_append] at hlen hfuel ⊢
    push_cast at hlen
    have hval := decode_spells v hv (ts' ++ rest) (show (t.length : Int) ≤ len by omega) hmax
      live (show _ ≤ fuel by simp; omega)
    have hrest := listLoop_elements l hl rest (show (ts'.length : Int) ≤ len - t.length by omega)
      (by omega) (live + blocks (node v)) (show _ ≤ fuel by simp; omega) rounds
      (acc ++ [node v])
    rw [List.length_cons, ← Nat.add_assoc,
      listLoop_round (b := b) (s := s ++ (ts' ++ rest)) (by simp [ht]) hb, hval, ok_bind]
    dsimp only
    rw [hrest]
    simp [nodes, blocksList, Nat.add_assoc, Int.sub_sub]

theorem dictLoop_entries (d : List (List UInt8 × Value)) {ts : List UInt8} (h : SpellsDict d ts)
    (rest : List UInt8) {len : Int} (hlen : ts.length ≤ len) (hmax : len < 2 ^ 63) (live : Nat)
    {fuel : Nat} (hfuel : (ts ++ rest).length + 2 ≤ fuel) (rounds : Nat)
    (es : List (Option (List UInt8) × be_node)) (hkeys : ∀ e ∈ es, e.1.isSome = true) :
    dictLoop (_be_decode fuel) (rounds + d.length) ⟨ts ++ rest, len, live⟩ (stored es) =
      dictLoop (_be_decode fuel) rounds
        ⟨rest, len - ts.length, live + blocksDict (entries d) + grown es d⟩
        (stored (es ++ entries d)) := by
  match d with
  | [] =>
    rw [SpellsDict] at h
    subst h
    simp [entries, blocksDict, grown]
  | (k, v) :: d =>
    rw [SpellsDict] at h
    obtain ⟨tk, t, ts', hk, hv, hd, rfl⟩ := h
    simp only [List.append_assoc, List.length_append] at hlen hfuel ⊢
    push_cast at hlen
    have hval := fun live => decode_spells v hv (ts' ++ rest)
      (show (t.length : Int) ≤ len - tk.length by omega) (by omega) live
      (show _ ≤ fuel by simp; omega)
    have hrest := dictLoop_entries d hd rest
      (show (ts'.length : Int) ≤ len - tk.length - t.length by omega) (by omega)
      (live + (if es = [] then 1 else 0) + 1 + blocks (node v)) (show _ ≤ fuel by simp; omega)
      rounds (es ++ [(some k, node v)]) (by simpa [or_imp, forall_and] using hkeys)
    rw [List.length_cons, ← Nat.add_assoc, dictLoop_key hk _ (by omega) hmax, hval, ok_bind]
    dsimp only
    rw [nullWord_entry hkeys, if_neg Bool.false_ne_true]
    rw [stored_append] at hrest
    refine hrest.trans ?_
    have hlive : live + (if es = [] then 1 else 0) + 1 + blocks (node v) + blocksDict (entries d) +
        grown (es ++ [(some k, node v)]) d =
        live + blocksDict (entries ((k, v) :: d)) + grown es ((k, v) :: d) := by
      simp [entries, blocksDict, strBlocks, grown]
      omega
    rw [hlive]
    simp [entries, Int.sub_sub, Int.add_assoc]

end

/-! ## The text that is written -/

mutual

/-- No dictionary in the value is empty. -/
def filled : Value → Bool
  | .str _ => true
  | .int _ => true
  | .list l => filledList l
  | .dict d => !d.isEmpty && filledDict d

def filledList : List Value → Bool
  | [] => true
  | v :: l => filled v && filledList l

def filledDict : List (List UInt8 × Value) → Bool
  | [] => true
  | (_, v) :: d => filled v && filledDict d

end

/-! ## Strict spellings -/

/-- A string behind the digits of its length. -/
def StrictStr (s t : List UInt8) : Prop :=
  ∃ n : Numeral, n.space = [] ∧ n.sign = none ∧ n.number = s.length ∧ t = n.text ++ 58 :: s

mutual

/-- `t` spells a value without white space, without zeros in front of an integer, and with an
`e` at the end of every list and dictionary, which may be empty. -/
def Strict : Value → List UInt8 → Prop
  | .str s, t => StrictStr s t
  | .int i, t => ∃ n : Numeral, n.Plain ∧ n.number = i.toInt ∧ t = 105 :: n.text ++ [101]
  | .list l, t => ∃ ts, StrictList l ts ∧ t = 108 :: ts ++ [101]
  | .dict d, t => ∃ ts, StrictDict d ts ∧ t = 100 :: ts ++ [101]

/-- `ts` spells the elements of a list so. -/
def StrictList : List Value → List UInt8 → Prop
  | [], ts => ts = []
  | v :: l, ts => ∃ t ts', Strict v t ∧ StrictList l ts' ∧ ts = t ++ ts'

/-- `ts` spells the entries of a dictionary so. -/
def StrictDict : List (List UInt8 × Value) → List UInt8 → Prop
  | [], ts => ts = []
  | (k, v) :: d, ts => ∃ tk t ts', StrictStr k tk ∧ Strict v t ∧ StrictDict d ts' ∧
      ts = tk ++ t ++ ts'

end

theorem StrictStr.spells {s t : List UInt8} (h : StrictStr s t) : SpellsStr s t := by
  obtain ⟨n, -, -, hn, rfl⟩ := h
  exact ⟨n, hn, rfl⟩

/-- It begins with a digit. -/
theorem StrictStr.cons {s t : List UInt8} (h : StrictStr s t) :
    ∃ b t', t = b :: t' ∧ isDigit b = true := by
  obtain ⟨n, hspace, hsign, -, rfl⟩ := h
  obtain ⟨b, ds, hds, hb⟩ := n.exists_digit
  refine ⟨b, ds ++ 58 :: s, ?_, hb⟩
  rw [Numeral.text, hspace, hsign, hds]
  rfl

/-- A strict spelling does not begin with `e`. -/
theorem Strict.cons {v : Value} {t : List UInt8} (h : Strict v t) :
    ∃ b s, t = b :: s ∧ b ≠ 101 := by
  cases v with
  | str s =>
    rw [Strict] at h
    obtain ⟨b, t', rfl, hb⟩ := h.cons
    refine ⟨b, t', rfl, ?_⟩
    rintro rfl
    exact absurd hb (by decide)
  | int i =>
    rw [Strict] at h
    obtain ⟨n, -, -, rfl⟩ := h
    exact ⟨105, _, rfl, by decide⟩
  | list l =>
    rw [Strict] at h
    obtain ⟨ts, -, rfl⟩ := h
    exact ⟨108, _, rfl, by decide⟩
  | dict d =>
    rw [Strict] at h
    obtain ⟨ts, -, rfl⟩ := h
    exact ⟨100, _, rfl, by decide⟩

theorem Strict.length_pos {v : Value} {t : List UInt8} (h : Strict v t) : 0 < t.length := by
  obtain ⟨b, s, rfl, -⟩ := h.cons
  simp

mutual

/-- A strict spelling without an empty dictionary is one the decoder takes. -/
theorem Strict.spells {v : Value} {t : List UInt8} (h : Strict v t) (hv : filled v = true) :
    Spells v t := by
  match v with
  | .str s =>
    rw [Strict] at h
    rw [Spells]
    exact ⟨h.spells, h.cons⟩
  | .int i =>
    rw [Strict] at h
    obtain ⟨n, -, hn, rfl⟩ := h
    rw [Spells]
    exact ⟨n, by rw [Numeral.read, hn, saturate_toInt], rfl⟩
  | .list l =>
    rw [Strict] at h
    obtain ⟨ts, hl, rfl⟩ := h
    rw [filled] at hv
    rw [Spells]
    exact ⟨ts, 101, hl.spells hv, by decide, rfl⟩
  | .dict d =>
    rw [Strict] at h
    obtain ⟨ts, hd, rfl⟩ := h
    rw [filled, Bool.and_eq_true] at hv
    rw [Spells]
    refine ⟨ts, 101, hd.spells hv.2, by decide, ?_, rfl⟩
    rintro rfl
    simp at hv

theorem StrictList.spells {l : List Value} {ts : List UInt8} (h : StrictList l ts)
    (hl : filledList l = true) : SpellsList l ts := by
  match l with
  | [] => exact h
  | v :: l =>
    obtain ⟨t, ts', hv, hrest, rfl⟩ := h
    rw [filledList, Bool.and_eq_true] at hl
    exact ⟨t, ts', hv.spells hl.1, hrest.spells hl.2, rfl⟩

theorem StrictDict.spells {d : List (List UInt8 × Value)} {ts : List UInt8}
    (h : StrictDict d ts) (hd : filledDict d = true) : SpellsDict d ts := by
  match d with
  | [] => exact h
  | (k, v) :: d =>
    obtain ⟨tk, t, ts', hk, hv, hrest, rfl⟩ := h
    rw [filledDict, Bool.and_eq_true] at hd
    exact ⟨tk, t, ts', hk.spells, hv.spells hd.1, hrest.spells hd.2, rfl⟩

end

theorem strictStr_encodeStr (s : List UInt8) : StrictStr s (encodeStr s) :=
  ⟨ofNat s.length, rfl, rfl, number_ofNat _, rfl⟩

mutual

/-- What `encode` writes is spelled strictly. -/
theorem strict_encode (v : Value) : Strict v (encode v) := by
  match v with
  | .str s =>
    rw [Strict, encode]
    exact strictStr_encodeStr s
  | .int i =>
    rw [Strict, encode]
    exact ⟨ofInt i.toInt, plain_ofInt _, number_ofInt _, by rw [text_ofInt]⟩
  | .list l =>
    rw [Strict, encode]
    exact ⟨encodeList l, strictList_encode l, rfl⟩
  | .dict d =>
    rw [Strict, encode]
    exact ⟨encodeDict d, strictDict_encode d, rfl⟩

theorem strictList_encode (l : List Value) : StrictList l (encodeList l) := by
  match l with
  | [] => rfl
  | v :: l => exact ⟨encode v, encodeList l, strict_encode v, strictList_encode l, rfl⟩

theorem strictDict_encode (d : List (List UInt8 × Value)) : StrictDict d (encodeDict d) := by
  match d with
  | [] => rfl
  | (k, v) :: d =>
    exact ⟨encodeStr k, encode v, encodeDict d, strictStr_encodeStr k, strict_encode v,
      strictDict_encode d, rfl⟩

end

mutual

/-- **In front of an empty dictionary the decoder writes through the null pointer.** -/
theorem decode_not_filled (v : Value) (h : filled v = false) {t : List UInt8} (hv : Strict v t)
    (rest : List UInt8) {len : Int} (hlen : t.length ≤ len) (hmax : len < 2 ^ 63) (live : Nat)
    {fuel : Nat} (hfuel : (t ++ rest).length + 2 ≤ fuel) :
    _be_decode fuel ⟨t ++ rest, len, live⟩ = .error (.err .nullPointer) := by
  obtain ⟨fuel, rfl⟩ := Nat.exists_eq_succ_of_ne_zero (show fuel ≠ 0 by omega)
  have hpos := hv.length_pos
  have hlen0 : len ≠ 0 := by omega
  match v with
  | .str s => rw [filled] at h; cases h
  | .int i => rw [filled] at h; cases h
  | .list l =>
    rw [filled] at h
    rw [Strict] at hv
    obtain ⟨ts, hl, rfl⟩ := hv
    have htext : 108 :: ts ++ [101] ++ rest = 108 :: (ts ++ 101 :: rest) := by simp
    simp only [List.length_append, List.length_cons, List.length_nil] at hlen hfuel
    have hloop := listLoop_not_filled l h hl rest (show (ts.length : Int) + 1 ≤ len - 1 by omega)
      (by omega) (live + 1) (show _ ≤ fuel by simp; omega) (show _ < fuel by simp; omega) []
    rw [htext, decode_list hlen0 rfl, alloc_mk, eat_one, hloop]
    rfl
  | .dict d =>
    rw [Strict] at hv
    obtain ⟨ts, hd, rfl⟩ := hv
    have htext : 100 :: ts ++ [101] ++ rest = 100 :: (ts ++ 101 :: rest) := by simp
    simp only [List.length_append, List.length_cons, List.length_nil] at hlen hfuel
    rw [htext, decode_dict hlen0 rfl, alloc_mk, eat_one]
    by_cases hnil : d = []
    · subst hnil
      rw [StrictDict] at hd
      obtain ⟨fuel, rfl⟩ := Nat.exists_eq_succ_of_ne_zero (show fuel ≠ 0 by omega)
      rw [hd, List.nil_append, dictLoop_end rfl, ok_bind, if_pos rfl]
    · have hd' : filledDict d = false := by simpa [filled, hnil] using h
      have hloop := dictLoop_not_filled d hd' hd rest
        (show (ts.length : Int) + 1 ≤ len - 1 by omega) (by omega) (live + 1)
        (show _ ≤ fuel by simp; omega) [] (by simp) (show _ ≤ fuel by simp; omega)
      rw [stored, List.map_nil] at hloop
      rw [hloop]
      rfl

theorem listLoop_not_filled (l : List Value) (h : filledList l = false) {ts : List UInt8}
    (hl : StrictList l ts) (rest : List UInt8) {len : Int} (hlen : ts.length + 1 ≤ len)
    (hmax : len < 2 ^ 63) (live : Nat) {fuel rounds : Nat}
    (hfuel : (ts ++ 101 :: rest).length + 2 ≤ fuel)
    (hrounds : (ts ++ 101 :: rest).length < rounds) (acc : List be_node) :
    listLoop (_be_decode fuel) rounds ⟨ts ++ 101 :: rest, len, live⟩ acc =
      .error (.err .nullPointer) := by
  obtain ⟨rounds, rfl⟩ := Nat.exists_eq_succ_of_ne_zero (show rounds ≠ 0 by omega)
  match l with
  | [] => rw [filledList] at h; cases h
  | v :: l =>
    rw [StrictList] at hl
    obtain ⟨t, ts', hv, hrest, rfl⟩ := hl
    obtain ⟨b', s, ht, hb'⟩ := hv.cons
    have hpos := hv.length_pos
    simp only [List.append_assoc, List.length_append, List.length_cons] at hlen hfuel hrounds ⊢
    push_cast at hlen
    rw [listLoop_round (b := b') (s := s ++ (ts' ++ 101 :: rest)) (by simp [ht]) hb']
    by_cases hfilled : filled v = true
    · have hl' : filledList l = false := by simpa [filledList, hfilled] using h
      rw [decode_spells v (hv.spells hfilled) _ (by omega) hmax live (by simp; omega), ok_bind]
      exact listLoop_not_filled l hl' hrest rest (by omega) (by omega) _ (by simp; omega)
        (by simp; omega) _
    · rw [decode_not_filled v (by simpa using hfilled) hv _ (by omega) hmax live
        (by simp; omega)]
      rfl

theorem dictLoop_not_filled (d : List (List UInt8 × Value)) (h : filledDict d = false)
    {ts : List UInt8} (hd : StrictDict d ts) (rest : List UInt8) {len : Int}
    (hlen : ts.length + 1 ≤ len) (hmax : len < 2 ^ 63) (live : Nat) {fuel rounds : Nat}
    (hfuel : (ts ++ 101 :: rest).length + 2 ≤ fuel)
    (es : List (Option (List UInt8) × be_node)) (hkeys : ∀ e ∈ es, e.1.isSome = true)
    (hrounds : es.length + (ts ++ 101 :: rest).length + 2 ≤ rounds) :
    dictLoop (_be_decode fuel) rounds ⟨ts ++ 101 :: rest, len, live⟩ (stored es) =
      .error (.err .nullPointer) := by
  obtain ⟨rounds, rfl⟩ := Nat.exists_eq_succ_of_ne_zero (show rounds ≠ 0 by omega)
  match d with
  | [] => rw [filledDict] at h; cases h
  | (k, v) :: d =>
    rw [StrictDict] at hd
    obtain ⟨tk, t, ts', hk, hv, hrest, rfl⟩ := hd
    have hkpos := hk.spells.length_pos
    have hvpos := hv.length_pos
    simp only [List.append_assoc, List.length_append, List.length_cons] at hlen hfuel hrounds ⊢
    push_cast at hlen
    rw [dictLoop_key hk.spells _ (by omega) hmax]
    by_cases hfilled : filled v = true
    · have hd' : filledDict d = false := by simpa [filledDict, hfilled] using h
      have hloop := dictLoop_not_filled d hd' hrest rest
        (show (ts'.length : Int) + 1 ≤ len - tk.length - t.length by omega)
        (by omega) (live + (if es = [] then 1 else 0) + 1 + blocks (node v))
        (show _ ≤ fuel by simp; omega) (es ++ [(some k, node v)])
        (by simpa [or_imp, forall_and] using hkeys) (show _ ≤ rounds by simp; omega)
      rw [decode_spells v (hv.spells hfilled) _ (by omega) (by omega) _ (by simp; omega), ok_bind]
      dsimp only
      rw [nullWord_entry hkeys, if_neg Bool.false_ne_true]
      rwa [stored_append] at hloop
    · rw [decode_not_filled v (by simpa using hfilled) hv _ (by omega) (by omega) _
        (by simp; omega)]
      rfl

end

/-! ## `be_decoden` -/

section Results
variable {v : Value} {t : List UInt8} {len : Int}

/-- The call on a spelling: the tree, the pointer behind it, and no block but those of the
tree. -/
theorem decodeCall_spells (h : Spells v t) (rest : List UInt8) (hlen : t.length ≤ len)
    (hmax : len < 2 ^ 63) : decodeCall (t ++ rest) len =
      .ok (some (node v), ⟨rest, len - t.length, blocks (node v)⟩) := by
  have hdecode := decode_spells v h rest hlen hmax 0 (Nat.le_refl _)
  rw [Nat.zero_add] at hdecode
  exact decodeCall_eq_ok.mpr hdecode

/-- A strict spelling is decoded if no dictionary in it is empty: with one the decoder writes
through a null pointer. -/
theorem be_decoden_strict (h : Strict v t) (rest : List UInt8) (hlen : t.length ≤ len)
    (hmax : len < 2 ^ 63) : be_decoden (t ++ rest) len =
      if filled v = true then .ok (some (node v)) else .error .nullPointer := by
  by_cases hv : filled v = true
  · have hdecode := decode_spells v (h.spells hv) rest hlen hmax 0 (Nat.le_refl _)
    rw [if_pos hv]
    exact be_decoden_eq_ok.mpr ⟨_, hdecode⟩
  · have hdecode := decode_not_filled v (by simpa using hv) h rest hlen hmax 0 (Nat.le_refl _)
    rw [if_neg hv]
    exact be_decoden_eq_error.mpr hdecode

/-- **What `encode` writes is decoded if and only if no dictionary in it is empty.** -/
theorem be_decoden_encode (v : Value) (rest : List UInt8) (hlen : (encode v).length ≤ len)
    (hmax : len < 2 ^ 63) : be_decoden (encode v ++ rest) len =
      if filled v = true then .ok (some (node v)) else .error .nullPointer :=
  be_decoden_strict (strict_encode v) rest hlen hmax

theorem be_decoden_encode_metafile :
    be_decoden (encode (.dict [([97], .dict [])]) ++ []) 7 = .error .nullPointer :=
  be_decoden_encode (.dict [([97], .dict [])]) [] (by decide) (by decide)

/-- A text that the decoder answers with the null pointer. -/
inductive Refused (len : Int) : List UInt8 → Prop where
  | nothing {data : List UInt8} (h : len = 0) : Refused len data
  /-- no value begins so -/
  | byte {b : UInt8} {s : List UInt8} (hb : endsList b = true) : Refused len (b :: s)
  /-- a number that is not followed by `e` -/
  | number {s rest : List UInt8} {i : Int64} {b : UInt8} (h : strtoll s = some (i, b :: rest))
    (hb : b ≠ 101) : Refused len (105 :: s)

theorem not_refused {b : UInt8} {s : List UInt8} (hlen : len ≠ 0) (hb : endsList b = false)
    (hint : b ≠ 105) : ¬ Refused len (b :: s) := by
  intro h
  cases h with
  | nothing h => exact hlen h
  | byte h => simp [hb] at h
  | number => exact hint rfl

/-- A call that returns a node whatever comes before does not return the null pointer. -/
theorem not_exists_bind_some {α : Type} {x : Except (Stop Fault) α} {f : α → be_node}
    {g : α → Cursor} : ¬ ∃ c, (x >>= fun r => .ok (some (f r), g r)) = .ok (none, c) := by
  rintro ⟨c, h⟩
  obtain ⟨r, -, h⟩ := bind_eq_ok.mp h
  cases h

/-- **Only two kinds of text are refused**: those that begin with a byte no value begins with,
and numbers without their `e`.  Every other text gives a tree, whatever comes behind its first
byte, or faults. -/
theorem be_decoden_eq_none {data : List UInt8} :
    be_decoden data len = .ok none ↔ Refused len data := by
  rw [be_decoden_eq_ok]
  cases begins ⟨data, len, 0⟩ with
  | none_left hlen => exact iff_of_true ⟨_, decode_none_left hlen⟩ (.nothing hlen)
  | behind hlen hd =>
    obtain rfl : data = [] := hd
    rw [decode_behind hlen rfl]
    refine iff_of_false (by simp) ?_
    rintro ⟨h⟩
    exact hlen h
  | list s hlen hd =>
    obtain rfl : data = 108 :: s := hd
    rw [decode_list hlen rfl]
    exact iff_of_false not_exists_bind_some (not_refused hlen (by decide) (by decide))
  | dict s hlen hd =>
    obtain rfl : data = 100 :: s := hd
    rw [decode_dict hlen rfl]
    refine iff_of_false ?_ (not_refused hlen (by decide) (by decide))
    rintro ⟨c, h⟩
    obtain ⟨r, -, h⟩ := bind_eq_ok.mp h
    split at h
    · cases h
    · cases h
  | int s hlen hd =>
    obtain rfl : data = 105 :: s := hd
    rw [decode_int hlen rfl, alloc_mk, eat_one]
    rcases hnum : strtoll s with _ | ⟨i, endp⟩
    · rw [decode_int_none hnum]
      refine iff_of_false (by rintro ⟨c, h⟩; cases h) ?_
      rintro (h | hb | ⟨h, hb⟩)
      · exact hlen h
      · exact absurd hb (by decide)
      · simp [hnum] at h
    · obtain ⟨b, rest, rfl⟩ := List.exists_cons_of_ne_nil (suffix_of_strtoll hnum).2
      rw [decode_int_eq hnum, lift_ok, ok_bind]
      simp only [Cursor.peek, Cursor.moveTo, lift_ok, ok_bind]
      by_cases hb : b = 101
      · refine iff_of_false (by simp [hb]) ?_
        rintro (h | hb' | ⟨h, hb'⟩)
        · exact hlen h
        · exact absurd hb' (by decide)
        · rw [hnum] at h
          obtain ⟨-, hend⟩ := Prod.mk.inj (Option.some.inj h)
          exact hb' ((List.cons.inj hend).1.symm.trans hb)
      · exact iff_of_true (by simp [hb]) (.number hnum hb)
  | str b s hlen hd hb =>
    obtain rfl : data = b :: s := hd
    rw [decode_str hlen rfl hb]
    refine iff_of_false not_exists_bind_some (not_refused hlen (by simp [endsList, hb]) ?_)
    rintro rfl
    exact absurd hb (by decide)
  | other b s hlen hd hlist hdict hint hb =>
    obtain rfl : data = b :: s := hd
    refine iff_of_true ⟨_, decode_other hlen rfl hlist hdict hint hb⟩ (.byte ?_)
    simp [endsList, hlist, hdict, hint, hb]

mutual

/-- A tree is the tree of one value. -/
theorem node_injective {v v' : Value} (h : node v = node v') : v = v' := by
  match v, v', h with
  | .str s, v', h => exact (node_eq_BE_STR.mp h.symm).symm
  | .int i, v', h => exact (node_eq_BE_INT.mp h.symm).symm
  | .list l, .list l', h => rw [nodes_injective (be_node.BE_LIST.inj h)]
  | .dict d, .dict d', h => rw [entries_injective (be_node.BE_DICT.inj h)]

theorem nodes_injective {l l' : List Value} (h : nodes l = nodes l') : l = l' := by
  match l, l', h with
  | [], [], _ => rfl
  | v :: l, v' :: l', h =>
    obtain ⟨hv, hl⟩ := List.cons.inj h
    rw [node_injective hv, nodes_injective hl]

theorem entries_injective {d d' : List (List UInt8 × Value)} (h : entries d = entries d') :
    d = d' := by
  match d, d', h with
  | [], [], _ => rfl
  | (k, v) :: d, (k', v') :: d', h =>
    obtain ⟨he, hd⟩ := List.cons.inj h
    obtain ⟨hk, hv⟩ := Prod.mk.inj he
    rw [Option.some.inj hk, node_injective hv, entries_injective hd]

end

/-- A list of the number 7, spelled with a plus sign and zeros, and ended by an `x`. -/
def seven : List UInt8 := [108, 105, 43, 48, 55, 101, 120]

theorem spells_seven : Spells (.list [.int 7]) seven := by
  rw [Spells]
  refine ⟨[105, 43, 48, 55, 101], 120, ?_, by decide, rfl⟩
  rw [SpellsList]
  refine ⟨[105, 43, 48, 55, 101], [], ?_, by rw [SpellsList], rfl⟩
  have hvalue : value [48, 55] = 7 := by decide
  rw [Spells]
  refine ⟨⟨[], some false, [48, 55], by simp, by simp [isDigit], by simp⟩, ?_, rfl⟩
  rw [Numeral.read, Numeral.number, if_neg (by decide), hvalue]
  exact saturate_toInt 7

/-- **No text begins with spellings of two values.** -/
theorem spells_unique {v' : Value} {t' rest rest' : List UInt8} (h : Spells v t)
    (h' : Spells v' t') (heq : t ++ rest = t' ++ rest') (hmax : (t ++ rest).length < 2 ^ 63) :
    v = v' ∧ t = t' ∧ rest = rest' := by
  have hlen : (t.length : Int) ≤ (t ++ rest).length := by simp
  have hlen' : (t'.length : Int) ≤ (t ++ rest).length := by simp [heq]
  have hcall := decodeCall_spells h rest hlen (by omega)
  rw [heq, decodeCall_spells h' rest' (heq ▸ hlen') (by rw [← heq]; omega)] at hcall
  obtain ⟨hnode, hcursor⟩ := Prod.mk.inj (Except.ok.inj hcall)
  obtain rfl : rest' = rest := congrArg Cursor.data hcursor
  exact ⟨(node_injective (Option.some.inj hnode)).symm, List.append_cancel_right heq, rfl⟩

theorem spells_unique_seven : Value.list [.int 7] = .list [.int 7] ∧ seven = seven ∧
    ([] : List UInt8) = [] :=
  spells_unique spells_seven spells_seven rfl (by decide)

/-- **`be_free` never gives back more than the decoder has allocated**, whatever the text, and
the decoder allocates at most two blocks for a byte. -/
theorem be_free_decoden {data : List UInt8} {n : be_node} {c : Cursor}
    (h : decodeCall data len = .ok (some n, c)) : ∃ left, be_free n c.live = some left ∧
      left + blocks n = c.live ∧ c.live + 2 * c.data.length ≤ 2 * data.length := by
  have hdecoded := decoded (decodeCall_eq_ok.mp h)
  have hroom := hdecoded.moved.room
  have hlive := hdecoded.live_ge
  simp only [Option.elim_some, Nat.zero_add, Nat.add_zero] at hroom hlive
  obtain ⟨left, hleft⟩ := Nat.exists_eq_add_of_le' hlive
  exact ⟨left, by rw [hleft, be_free_add], hleft.symm, hroom⟩

/-- A dictionary that breaks off behind its first key, which nothing gives back. -/
theorem be_free_decoden_leak : ∃ left, be_free (.BE_DICT []) 3 = some left ∧
    left + blocks (.BE_DICT []) = 3 ∧ 3 + 2 * 0 ≤ 2 * 5 := by
  have h : decodeCall [100, 49, 58, 97, 120] 5 = .ok (some (.BE_DICT []), ⟨[], 0, 3⟩) := rfl
  exact be_free_decoden h

end Results

end TorrentClient
