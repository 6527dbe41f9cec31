import Mathlib
import TorrentProof.ReadMetafile

/-! # What `create_metafile` makes of a well-formed file

A `TorrentFile` is a dictionary in which every key the code knows holds a value of the
type it expects.  On such a file the loops of `create_metafile` can only fail in the two
places that go back to the text of the file, and `create_metafile_iff` reduces a
statement about its hash and its pieces to these.
-/
namespace TorrentClient
open Bytes Bencode CText Decimal Fallible

/-! ## Well-formed files -/

/-- The types the code expects its keys to hold. -/
inductive Kind where
  | str
  | int
  /-- a list with at least one string -/
  | path
  /-- lists of strings -/
  | lists
  /-- the dictionaries of several files -/
  | files
  | dict

/-- The keys of one file in `files`. -/
def fileKind (key : List UInt8) : Option Kind :=
  if key = ascii "length" then some .int
  else if key = ascii "md5sum" ∨ key = ascii "md5" then some .str
  else if key = ascii "path" then some .path
  else none

/-- The keys of the info dictionary. -/
def infoKind (key : List UInt8) : Option Kind :=
  if key = ascii "piece length" then some .int
  else if key = ascii "pieces" then some .str
  else if key = ascii "private" then some .int
  else if key = ascii "name" then some .str
  else if key = ascii "length" then some .int
  else if key = ascii "files" then some .files
  else if key = ascii "md5sum" then some .str
  else none

/-- The keys of the file. -/
def topKind (key : List UInt8) : Option Kind :=
  if key = ascii "announce" then some .str
  else if key = ascii "announce-list" then some .lists
  else if key = ascii "creation date" then some .int
  else if key = ascii "created by" then some .str
  else if key = ascii "comment" then some .str
  else if key = ascii "encoding" then some .str
  else if key = ascii "info" then some .dict
  else none

/-- A list of strings. -/
def AllStr (l : List Value) : Prop := ∀ v ∈ l, ∃ s, v = .str s

/-- The values that hold no files. -/
def Kind.HoldsFlat : Kind → Value → Prop
  | .str, v => ∃ s, v = .str s
  | .int, v => ∃ i, v = .int i
  | .path, v => ∃ l, v = .list l ∧ l ≠ [] ∧ AllStr l
  | .lists, v => ∃ l, v = .list l ∧ ∀ w ∈ l, ∃ l', w = .list l' ∧ AllStr l'
  | .files, _ => False
  | .dict, v => ∃ d, v = .dict d

/-- The keys of a dictionary, as the code reads them, hold what they should. -/
def Typed (kindOf : List UInt8 → Option Kind) (holds : Kind → Value → Prop)
    (d : List (List UInt8 × Value)) : Prop :=
  ∀ k v, (k, v) ∈ d → ∀ kind, kindOf (cstr k) = some kind → holds kind v

/-- A value has the type of its key. -/
def Kind.Holds : Kind → Value → Prop
  | .files, v => ∃ l, v = .list l ∧ ∀ w ∈ l, ∃ d, w = .dict d ∧ Typed fileKind Kind.HoldsFlat d
  | kind, v => kind.HoldsFlat v

/-- Of the keys of `d` only `key` reads as `key`, up to a zero byte. -/
def ReadsAlone (key : List UInt8) (d : List (List UInt8 × Value)) : Prop :=
  ∀ e ∈ d, cstr e.1 = key → e.1 = key

/-- A metafile: a dictionary with an info dictionary that holds the pieces string.  The keys of
either are distinct, and keys the code knows hold values of the right type; other keys hold
anything.  Keys are known by what they read as up to a zero byte, so a second key may read as
`length`, say; but none begins with `info` and a zero byte, nor in the info dictionary with
`pieces` and a zero byte. -/
structure TorrentFile where
  dict : List (List UInt8 × Value)
  info : List (List UInt8 × Value)
  pieces : List UInt8
  has_info : (ascii "info", .dict info) ∈ dict
  has_pieces : (ascii "pieces", .str pieces) ∈ info
  nodup : (dict.map Prod.fst).Nodup
  info_nodup : (info.map Prod.fst).Nodup
  info_alone : ReadsAlone (ascii "info") dict
  pieces_alone : ReadsAlone (ascii "pieces") info
  typed : Typed topKind Kind.Holds dict
  info_typed : Typed infoKind Kind.Holds info

/-- The contents of the file. -/
def TorrentFile.text (f : TorrentFile) : List UInt8 := encode (.dict f.dict)

/-- The encoded value of its key `info`. -/
def TorrentFile.infoText (f : TorrentFile) : List UInt8 := encode (.dict f.info)

/-! ## The lists are read without a fault -/

theorem strings_ok {l : List Value} (h : AllStr l) : ∃ r, strings (nodes l) = .ok r := by
  induction l with
  | nil => exact ⟨[], rfl⟩
  | cons v l ih =>
    obtain ⟨s, rfl⟩ := h v List.mem_cons_self
    obtain ⟨r, hr⟩ := ih fun w hw => h w (List.mem_cons_of_mem _ hw)
    exact ⟨cstr s :: r, by rw [nodes, node, strings, be_node.s_BE_STR, ok_bind, hr]; rfl⟩

theorem parse_list_list_ok {l : List Value} (h : ∀ w ∈ l, ∃ l', w = .list l' ∧ AllStr l') :
    ∃ r, parse_list_list (nodes l) = .ok r := by
  induction l with
  | nil => exact ⟨[], rfl⟩
  | cons v l ih =>
    obtain ⟨l', rfl, hl'⟩ := h v List.mem_cons_self
    obtain ⟨r, hr⟩ := ih fun w hw => h w (List.mem_cons_of_mem _ hw)
    obtain ⟨r', hr'⟩ := strings_ok hl'
    refine ⟨r' :: r, ?_⟩
    rw [nodes, node, parse_list_list, be_node.l_BE_LIST, ok_bind, hr', ok_bind, hr]
    rfl

/-- A path of at least one string ends with a slash to take off. -/
theorem pathLoop_ok {l : List Value} (h : AllStr l) (path : List UInt8)
    (hne : path ≠ [] ∨ l ≠ []) : ∃ r, pathLoop path (nodes l) = .ok r ∧ r ≠ [] := by
  induction l generalizing path with
  | nil => exact ⟨path, rfl, hne.resolve_right fun h => h rfl⟩
  | cons v l ih =>
    obtain ⟨s, rfl⟩ := h v List.mem_cons_self
    obtain ⟨r, hr, hr0⟩ := ih (fun w hw => h w (List.mem_cons_of_mem _ hw))
      (path ++ cstr s ++ [47]) (.inl (by simp))
    exact ⟨r, by rw [nodes, node, pathLoop, be_node.s_BE_STR, ok_bind, hr], hr0⟩

theorem fileLoop_ok {d : List (List UInt8 × Value)} (h : Typed fileKind Kind.HoldsFlat d)
    (dict : StringMap) : ∃ r, fileLoop dict (entries d) = .ok r := by
  induction d generalizing dict with
  | nil => exact ⟨dict, rfl⟩
  | cons e d ih =>
    obtain ⟨k, v⟩ := e
    have ih := ih fun k' v' hmem => h k' v' (List.mem_cons_of_mem _ hmem)
    have hv := h k v List.mem_cons_self
    rw [fileKind] at hv
    rw [entries, fileLoop, deref_some, ok_bind]
    dsimp only
    split
    next hk =>
      obtain ⟨i, rfl⟩ := hv .int (by rw [if_pos hk])
      rw [node, be_node.i_BE_INT, ok_bind]
      exact ih _
    split
    next hk₁ hk =>
      obtain ⟨s, rfl⟩ := hv .str (by rw [if_neg hk₁, if_pos hk])
      rw [node, be_node.s_BE_STR, ok_bind]
      exact ih _
    split
    next hk₁ hk₂ hk =>
      obtain ⟨l, rfl, hne, hl⟩ := hv .path (by rw [if_neg hk₁, if_neg hk₂, if_pos hk])
      obtain ⟨r, hr, hr0⟩ := pathLoop_ok hl [] (.inr hne)
      rw [node, be_node.l_BE_LIST, ok_bind, hr, ok_bind, if_neg hr0]
      exact ih _
    · exact ih _

theorem parse_dict_ok {l : List Value}
    (h : ∀ w ∈ l, ∃ d, w = .dict d ∧ Typed fileKind Kind.HoldsFlat d) :
    ∃ r, parse_dict (nodes l) = .ok r := by
  induction l with
  | nil => exact ⟨[], rfl⟩
  | cons v l ih =>
    obtain ⟨d, rfl, hd⟩ := h v List.mem_cons_self
    obtain ⟨r, hr⟩ := ih fun w hw => h w (List.mem_cons_of_mem _ hw)
    obtain ⟨r', hr'⟩ := fileLoop_ok hd fun _ => none
    refine ⟨r' :: r, ?_⟩
    rw [nodes, node, parse_dict, be_node.d_BE_DICT, ok_bind, hr', ok_bind, hr]
    rfl

/-! ## The keys that leave hash, pieces and size alone -/

/-- What the key `info` and the key `pieces` are about. -/
def kept (st : Metafile × Int) : Vector UInt8 20 × List (List UInt8) × Int :=
  (st.1.info_hash, st.1.pieces, st.2)

/-- An entry with the value `v` sets a field, if `c` says so, and leaves it alone otherwise. -/
def Sets (c : Prop) (v : Value) (old new : UInt32) : Prop :=
  (c → ∃ i, v = .int i ∧ new = unsignedOf i) ∧ (¬ c → new = old)

theorem sets_of_not {c : Prop} {v : Value} {n : UInt32} (h : ¬ c) : Sets c v n n :=
  ⟨fun hc => absurd hc h, fun _ => rfl⟩

theorem sets_int {c : Prop} {i : Int64} {n : UInt32} (h : c) : Sets c (.int i) n (unsignedOf i) :=
  ⟨fun _ => ⟨i, rfl, rfl⟩, fun hc => absurd h hc⟩

/-- The integer fields of the info dictionary. -/
def infoFields (st : Metafile × Int) : UInt32 × UInt32 × UInt32 :=
  (st.1.length, st.1.piece_length, st.1.private_field)

/-- What an entry of the info dictionary with the key `k` does to the integer fields. -/
structure SetsInfo (k : List UInt8) (v : Value) (st st' : Metafile × Int) : Prop where
  length : Sets (k = ascii "length") v st.1.length st'.1.length
  piece_length : Sets (k = ascii "piece length") v st.1.piece_length st'.1.piece_length
  private_field : Sets (k = ascii "private") v st.1.private_field st'.1.private_field
  creation_date : st'.1.creation_date = st.1.creation_date

section Entries
variable {SHA1 : List UInt8 → Vector UInt8 20} {heap : Mem} {memblock k : List UInt8} {v : Value}

/-- An entry with another key. -/
theorem setsInfo_of_ne {st st' : Metafile × Int}
    (hkeys : k ∉ [ascii "length", ascii "piece length", ascii "private"])
    (hinfo : infoFields st' = infoFields st)
    (hdate : st'.1.creation_date = st.1.creation_date) : SetsInfo k v st st' := by
  simp only [List.mem_cons, List.not_mem_nil, or_false, not_or] at hkeys
  obtain ⟨hlength, hrest⟩ := Prod.mk.inj hinfo
  obtain ⟨hpiece, hprivate⟩ := Prod.mk.inj hrest
  constructor
  · rw [hlength]
    exact sets_of_not hkeys.1
  · rw [hpiece]
    exact sets_of_not hkeys.2.1
  · rw [hprivate]
    exact sets_of_not hkeys.2.2
  · exact hdate

/-- What a well-typed entry of the info dictionary does. -/
theorem infoEntry_spec (hv : ∀ kind, infoKind (cstr k) = some kind → kind.Holds v)
    (hk : cstr k ≠ ascii "pieces") (st : Metafile × Int) :
    ∃ st', infoEntry memblock st (some k, node v) = .ok st' ∧ kept st' = kept st ∧
      SetsInfo (cstr k) v st st' := by
  obtain ⟨«meta», size⟩ := st
  rw [infoKind] at hv
  rw [infoEntry, deref_some, ok_bind]
  dsimp only
  split
  next h₁ =>
    obtain ⟨i, rfl⟩ := hv .int (by rw [if_pos h₁])
    refine ⟨_, rfl, rfl, ?_⟩
    rw [h₁]
    exact ⟨sets_of_not (by decide), sets_int rfl, sets_of_not (by decide), rfl⟩
  next h₁ =>
  split
  next h₃ =>
    obtain ⟨i, rfl⟩ := hv .int (by rw [if_neg h₁, if_neg hk, if_pos h₃])
    refine ⟨_, rfl, rfl, ?_⟩
    rw [h₃]
    exact ⟨sets_of_not (by decide), sets_of_not (by decide), sets_int rfl, rfl⟩
  next h₃ =>
  split
  next h₄ =>
    obtain ⟨s, rfl⟩ := hv .str (by rw [if_neg h₁, if_neg hk, if_neg h₃, if_pos h₄])
    exact ⟨_, rfl, rfl, setsInfo_of_ne (by rw [h₄]; decide) rfl rfl⟩
  next h₄ =>
  split
  next h₅ =>
    obtain ⟨i, rfl⟩ := hv .int (by rw [if_neg h₁, if_neg hk, if_neg h₃, if_neg h₄, if_pos h₅])
    refine ⟨_, rfl, rfl, ?_⟩
    rw [h₅]
    exact ⟨sets_int rfl, sets_of_not (by decide), sets_of_not (by decide), rfl⟩
  next h₅ =>
  have hne : cstr k ∉ [ascii "length", ascii "piece length", ascii "private"] := by
    simp only [List.mem_cons, List.not_mem_nil, or_false, not_or]
    exact ⟨h₅, h₁, h₃⟩
  split
  next h₆ =>
    obtain ⟨l, rfl, hl⟩ := hv .files (by
      rw [if_neg h₁, if_neg hk, if_neg h₃, if_neg h₄, if_neg h₅, if_pos h₆])
    obtain ⟨r, hr⟩ := parse_dict_ok hl
    refine ⟨({ «meta» with files := r }, size), ?_, rfl, setsInfo_of_ne hne rfl rfl⟩
    rw [node, be_node.l_BE_LIST, ok_bind, hr]
    rfl
  next h₆ =>
  split
  next h₇ =>
    obtain ⟨s, rfl⟩ := hv .str (by
      rw [if_neg h₁, if_neg hk, if_neg h₃, if_neg h₄, if_neg h₅, if_neg h₆, if_pos h₇])
    exact ⟨_, rfl, rfl, setsInfo_of_ne hne rfl rfl⟩
  · exact ⟨_, rfl, rfl, setsInfo_of_ne hne rfl rfl⟩

/-- What a well-typed entry of the file does. -/
theorem topEntry_spec (hv : ∀ kind, topKind (cstr k) = some kind → kind.Holds v)
    (hk : cstr k ≠ ascii "info") (st : Metafile × Int) :
    ∃ st', topEntry SHA1 heap memblock st (some k, node v) = .ok st' ∧ kept st' = kept st ∧
      infoFields st' = infoFields st ∧
      Sets (cstr k = ascii "creation date") v st.1.creation_date st'.1.creation_date := by
  obtain ⟨«meta», size⟩ := st
  rw [topKind] at hv
  rw [topEntry, deref_some, ok_bind]
  dsimp only
  split
  next h₁ =>
    obtain ⟨s, rfl⟩ := hv .str (by rw [if_pos h₁])
    exact ⟨_, rfl, rfl, rfl, sets_of_not (by rw [h₁]; decide)⟩
  next h₁ =>
  split
  next h₂ =>
    obtain ⟨l, rfl, hl⟩ := hv .lists (by rw [if_neg h₁, if_pos h₂])
    obtain ⟨r, hr⟩ := parse_list_list_ok hl
    refine ⟨({ «meta» with announce_list := r }, size), ?_, rfl, rfl,
      sets_of_not (by rw [h₂]; decide)⟩
    rw [node, be_node.l_BE_LIST, ok_bind, hr]
    rfl
  next h₂ =>
  split
  next h₃ =>
    obtain ⟨i, rfl⟩ := hv .int (by rw [if_neg h₁, if_neg h₂, if_pos h₃])
    exact ⟨_, rfl, rfl, rfl, sets_int h₃⟩
  next h₃ =>
  split
  next h₄ =>
    obtain ⟨s, rfl⟩ := hv .str (by rw [if_neg h₁, if_neg h₂, if_neg h₃, if_pos h₄])
    exact ⟨_, rfl, rfl, rfl, sets_of_not h₃⟩
  next h₄ =>
  split
  next h₅ =>
    obtain ⟨s, rfl⟩ := hv .str (by rw [if_neg h₁, if_neg h₂, if_neg h₃, if_neg h₄, if_pos h₅])
    exact ⟨_, rfl, rfl, rfl, sets_of_not h₃⟩
  next h₅ =>
  split
  next h₆ =>
    obtain ⟨s, rfl⟩ := hv .str (by
      rw [if_neg h₁, if_neg h₂, if_neg h₃, if_neg h₄, if_neg h₅, if_pos h₆])
    exact ⟨_, rfl, rfl, rfl, sets_of_not h₃⟩
  · exact ⟨_, rfl, rfl, rfl, sets_of_not h₃⟩

/-- The key `pieces`, in a string that has the hashes asked for. -/
theorem infoEntry_pieces {s : List UInt8} {«meta» : Metafile} {size : Int}
    {st : Metafile × Int} :
    infoEntry memblock («meta», size) (some (ascii "pieces"), node (.str s)) = .ok st ↔
      ∃ text n ps, assign memblock size = .ok text ∧
        numberAt memblock (endOf (ascii "pieces") text) = .ok n ∧
        piecesLoop (node (.str s)) 0 (n.toInt.tdiv 20).toNat «meta».pieces = .ok ps ∧
        st = ({ «meta» with pieces := ps }, n.toInt) := by
  have hkey : cstr (ascii "pieces") = ascii "pieces" := by decide
  rw [infoEntry, deref_some, ok_bind]
  dsimp only
  rw [hkey, if_neg (by decide), if_pos rfl]
  constructor
  · intro h
    obtain ⟨text, htext, h⟩ := bind_eq_ok.mp h
    obtain ⟨n, hn, h⟩ := bind_eq_ok.mp h
    obtain ⟨ps, hps, h⟩ := bind_eq_ok.mp h
    exact ⟨text, n, ps, htext, hn, hps, (Except.ok.inj h).symm⟩
  · rintro ⟨text, n, ps, htext, hn, hps, rfl⟩
    rw [htext, ok_bind, hn, ok_bind, hps]
    rfl

end Entries

/-! ## The whole run -/

section Alone
variable {d : List (List UInt8 × Value)} {key : List UInt8} {v : Value}
  (hnodup : (d.map Prod.fst).Nodup) (halone : ReadsAlone key d)
include hnodup halone

/-- A key that no other one reads like stands in one place. -/
theorem split_of_mem (h : (key, v) ∈ d) :
    ∃ before after, d = before ++ (key, v) :: after ∧ ∀ e ∈ before ++ after, cstr e.1 ≠ key := by
  obtain ⟨before, after, rfl⟩ := List.append_of_mem h
  refine ⟨before, after, rfl, ?_⟩
  intro e he hek
  have hmem : e ∈ before ++ (key, v) :: after := by
    rcases List.mem_append.mp he with hbefore | hafter
    · exact List.mem_append_left _ hbefore
    · exact List.mem_append_right _ (List.mem_cons_of_mem _ hafter)
  rw [List.map_append, List.map_cons] at hnodup
  have hnot := List.nodup_middle.mp hnodup
  rw [← List.map_append, List.nodup_cons] at hnot
  exact hnot.1 (List.mem_map.mpr ⟨e, he, halone e hmem hek⟩)

/-- What reads as such a key is its entry. -/
theorem eq_of_cstr_eq {k : List UInt8} {v' : Value} (h : (k, v') ∈ d) (hk : cstr k = key)
    (hkey : (key, v) ∈ d) : (k, v') = (key, v) :=
  List.inj_on_of_nodup_map hnodup h hkey (halone (k, v') h hk)

end Alone

theorem entries_append (d₁ : List (List UInt8 × Value)) (k : List UInt8) (v : Value)
    (d₂ : List (List UInt8 × Value)) :
    entries (d₁ ++ (k, v) :: d₂) = entries d₁ ++ (some k, node v) :: entries d₂ := by
  rw [entries_eq_map, List.map_append, List.map_cons, entries_eq_map, entries_eq_map]

/-- An entry of the tree around the one at `k` comes from one of the dictionary. -/
theorem mem_around {before after : List (List UInt8 × Value)} {k : List UInt8} {v : Value}
    {e : Option (List UInt8) × be_node} (h : e ∈ entries before ++ entries after) :
    ∃ k' v', (k', v') ∈ before ++ after ∧ (k', v') ∈ before ++ (k, v) :: after ∧
      e = (some k', node v') := by
  rw [entries_eq_map, entries_eq_map, ← List.map_append] at h
  obtain ⟨⟨k', v'⟩, hmem, rfl⟩ := List.mem_map.mp h
  refine ⟨k', v', hmem, ?_, rfl⟩
  rcases List.mem_append.mp hmem with hbefore | hafter
  · exact List.mem_append_left _ hbefore
  · exact List.mem_append_right _ (List.mem_cons_of_mem _ hafter)

/-- Where each entry but the one at `k` keeps hash, pieces and size, the entries around that
one do. -/
theorem keeps_around {step : Metafile × Int → Option (List UInt8) × be_node →
      Except Fault (Metafile × Int)} {d before after : List (List UInt8 × Value)}
    {k : List UInt8} {v : Value} (hsplit : d = before ++ (k, v) :: after)
    (hother : ∀ e ∈ before ++ after, cstr e.1 ≠ k)
    (h : ∀ k' v', (k', v') ∈ d → cstr k' ≠ k → ∀ st, ∃ st',
      step st (some k', node v') = .ok st' ∧ kept st' = kept st) :
    ∀ e ∈ entries before ++ entries after,
      ∀ st, ∃ st', step st e = .ok st' ∧ kept st' = kept st := by
  intro e he
  obtain ⟨k', v', hmem, hd, rfl⟩ := mem_around he
  exact h k' v' (by rw [hsplit]; exact hd) (hother (k', v') hmem)

section Run
variable {SHA1 : List UInt8 → Vector UInt8 20} {heap : Mem} (f : TorrentFile)

theorem assign_text : assign f.text f.text.length = .ok f.text := by
  rw [assign, if_neg (by omega), if_neg (Int.lt_irrefl _), Int.toNat_natCast, List.take_length]

/-- The loop over the info dictionary, started on the whole file. -/
theorem infoLoop_iff (Q : Vector UInt8 20 → List (List UInt8) → Prop) {st : Metafile × Int}
    (hpieces : st.1.pieces = []) (hsize : st.2 = f.text.length) :
    (∃ st', (entries f.info).foldlM (infoEntry f.text) st = .ok st' ∧
        Q st'.1.info_hash st'.1.pieces) ↔
      ∃ n ps, numberAt f.text (endOf (ascii "pieces") f.text) = .ok n ∧
        piecesLoop (node (.str f.pieces)) 0 (n.toInt.tdiv 20).toNat [] = .ok ps ∧
        Q st.1.info_hash ps := by
  obtain ⟨before, after, hsplit, hother⟩ := split_of_mem f.info_nodup f.pieces_alone f.has_pieces
  have hkeeps : ∀ e ∈ entries before ++ entries after, ∀ st, ∃ st',
      infoEntry f.text st e = .ok st' ∧ kept st' = kept st := by
    apply keeps_around hsplit hother
    intro k v hmem hk st
    obtain ⟨st', hst', hkept, -⟩ := infoEntry_spec (f.info_typed k v hmem) hk st
    exact ⟨st', hst', hkept⟩
  obtain ⟨st₁, hst₁, hiff⟩ := foldlM_one (a := (some (ascii "pieces"), node (.str f.pieces)))
    hkeeps st fun t => Q t.1 t.2.1
  rw [← entries_append, ← hsplit] at hiff
  refine hiff.trans ?_
  obtain ⟨«meta», size⟩ := st₁
  obtain ⟨hhash, hps⟩ := Prod.mk.inj hst₁
  obtain ⟨hps, hsz⟩ := Prod.mk.inj hps
  dsimp only at hhash hps hsz
  constructor
  · rintro ⟨st₂, h₂, hQ⟩
    obtain ⟨text, n, ps, htext, hn, hloop, rfl⟩ := infoEntry_pieces.mp h₂
    rw [hsz, hsize, assign_text] at htext
    obtain rfl := Except.ok.inj htext
    rw [hps, hpieces] at hloop
    exact ⟨n, ps, hn, hloop, hhash ▸ hQ⟩
  · rintro ⟨n, ps, hn, hloop, hQ⟩
    refine ⟨({ «meta» with pieces := ps }, n.toInt), infoEntry_pieces.mpr
      ⟨f.text, n, ps, by rw [hsz, hsize, assign_text], hn, by rw [hps, hpieces, hloop], rfl⟩, ?_⟩
    exact hhash.symm ▸ hQ

/-- The key `info`: the hash, then the loop over its dictionary. -/
theorem topEntry_info (st : Metafile × Int) (d : List (List UInt8 × Value)) :
    topEntry SHA1 heap f.text st (some (ascii "info"), node (.dict d)) =
      (infoHash SHA1 heap f.text st.2 (node (.dict d)) >>= fun info_hash =>
        (entries d).foldlM (infoEntry f.text) ({ st.1 with info_hash }, st.2)) := by
  obtain ⟨«meta», size⟩ := st
  have hkey : cstr (ascii "info") = ascii "info" := by decide
  rw [topEntry, deref_some, ok_bind]
  dsimp only
  rw [hkey, if_neg (by decide), if_neg (by decide), if_neg (by decide), if_neg (by decide),
    if_neg (by decide), if_neg (by decide), if_pos rfl]
  rfl

/-- **A run of `create_metafile` on a well-formed file** gives the hash of the key `info`
and the pieces of the key `pieces`, where neither computation fails. -/
theorem create_metafile_iff {be_decoden : List UInt8 → Option be_node}
    (hdec : be_decoden f.text = some (node (.dict f.dict))) (stale : Metafile)
    (Q : Vector UInt8 20 → List (List UInt8) → Prop) :
    (∃ m, create_metafile SHA1 heap f.text be_decoden stale = .ok m ∧ Q m.info_hash m.pieces) ↔
      ∃ h n ps, infoHash SHA1 heap f.text f.text.length (node (.dict f.info)) = .ok h ∧
        numberAt f.text (endOf (ascii "pieces") f.text) = .ok n ∧
        piecesLoop (node (.str f.pieces)) 0 (n.toInt.tdiv 20).toNat [] = .ok ps ∧ Q h ps := by
  obtain ⟨before, after, hsplit, hother⟩ := split_of_mem f.nodup f.info_alone f.has_info
  have hkeeps : ∀ e ∈ entries before ++ entries after, ∀ st, ∃ st',
      topEntry SHA1 heap f.text st e = .ok st' ∧ kept st' = kept st := by
    apply keeps_around hsplit hother
    intro k v hmem hk st
    obtain ⟨st', hst', hkept, -⟩ := topEntry_spec (f.typed k v hmem) hk st
    exact ⟨st', hst', hkept⟩
  obtain ⟨st₁, hst₁, hiff⟩ := foldlM_one (a := (some (ascii "info"), node (.dict f.info)))
    hkeeps (stale.new, (f.text.length : Int)) fun t => Q t.1 t.2.1
  obtain ⟨hps, hsz⟩ := Prod.mk.inj (Prod.mk.inj hst₁).2
  dsimp only at hps hsz
  rw [← entries_append, ← hsplit, topEntry_info, hsz] at hiff
  have hinfo : ∀ h, (∃ st', (entries f.info).foldlM (infoEntry f.text)
      ({ st₁.1 with info_hash := h }, (f.text.length : Int)) = .ok st' ∧
        Q st'.1.info_hash st'.1.pieces) ↔
      ∃ n ps, numberAt f.text (endOf (ascii "pieces") f.text) = .ok n ∧
        piecesLoop (node (.str f.pieces)) 0 (n.toInt.tdiv 20).toNat [] = .ok ps ∧ Q h ps :=
    fun h => infoLoop_iff f Q hps rfl
  have hrun : create_metafile SHA1 heap f.text be_decoden stale =
      ((entries f.dict).foldlM (topEntry SHA1 heap f.text) (stale.new, (f.text.length : Int)) >>=
        fun st => .ok st.1) := by
    rw [create_metafile, hdec]
    rfl
  constructor
  · rintro ⟨m, hm, hQ⟩
    rw [hrun] at hm
    obtain ⟨st, hst, hm⟩ := bind_eq_ok.mp hm
    obtain rfl := Except.ok.inj hm
    obtain ⟨st₂, h₂, hQ₂⟩ := hiff.mp ⟨st, hst, hQ⟩
    obtain ⟨h, hh, h₂⟩ := bind_eq_ok.mp h₂
    obtain ⟨n, ps, hn, hloop, hQ'⟩ := (hinfo h).mp ⟨st₂, h₂, hQ₂⟩
    exact ⟨h, n, ps, hh, hn, hloop, hQ'⟩
  · rintro ⟨h, n, ps, hh, hn, hloop, hQ⟩
    obtain ⟨st₂, h₂, hQ₂⟩ := (hinfo h).mpr ⟨n, ps, hn, hloop, hQ⟩
    obtain ⟨st, hst, hQ'⟩ := hiff.mpr ⟨st₂, bind_eq_ok.mpr ⟨h, hh, h₂⟩, hQ₂⟩
    exact ⟨st.1, by rw [hrun, hst]; rfl, hQ'⟩

end Run

end TorrentClient
