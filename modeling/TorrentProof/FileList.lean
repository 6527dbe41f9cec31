import Mathlib
import TorrentProof.MetafileRun

/-! # The lists of files and of announce URLs

`parse_dict` makes a map of each dictionary in `files`, and `parse_list_list` a list of each
list in `announce-list`.  `foldl_written` says what the map holds: for each of its fields,
what was read under the last key that is one of the field's up to a zero byte.  A path without
elements has no slash to take off, and strings end at a zero byte; `extracts_iff` says when
what is extracted is what is there.
-/
namespace TorrentClient
open Bencode CText Decimal Fallible

/-! ## Trees that can be read -/

/-- A list of strings that are not null. -/
def AllStrings (l : List be_node) : Prop := ∀ n ∈ l, ∃ s, n = .BE_STR (some s)

/-- A list of such lists. -/
def AllLists (l : List be_node) : Prop := ∀ n ∈ l, ∃ l', n = .BE_LIST l' ∧ AllStrings l'

/-- The trees of a kind that holds no files. -/
def Kind.FitsFlat : Kind → be_node → Prop
  | .str, n => ∃ s, n = .BE_STR (some s)
  | .int, n => ∃ i, n = .BE_INT i
  | .path, n => ∃ l, n = .BE_LIST l ∧ l ≠ [] ∧ AllStrings l
  | .lists, n => ∃ l, n = .BE_LIST l ∧ AllLists l
  | .files, _ => False
  | .dict, n => ∃ d, n = .BE_DICT d

/-- The entry has a key, and under it what the code expects there. -/
def EntryFits (kindOf : List UInt8 → Option Kind) (fits : Kind → be_node → Prop)
    (e : Option (List UInt8) × be_node) : Prop :=
  ∃ k, e.1 = some k ∧ ∀ kind, kindOf (cstr k) = some kind → fits kind e.2

/-- A string as it is read. -/
def stringText : be_node → List UInt8
  | .BE_STR (some s) => cstr s
  | _ => []

/-- The lists of an announce list as they are read. -/
def listTexts : be_node → List (List UInt8)
  | .BE_LIST l => l.map stringText
  | _ => []

/-- What is put in the map for a value. -/
def readText : be_node → List UInt8
  | .BE_INT i => renderInt i.toInt
  | .BE_LIST l => (l.flatMap fun n => stringText n ++ [47]).dropLast
  | n => stringText n

section Lists
variable {n : be_node} {l : List be_node}

theorem strings_eq_ok {r : List (List UInt8)} :
    strings l = .ok r ↔ AllStrings l ∧ l.map stringText = r := by
  induction l generalizing r with
  | nil => simp [strings, AllStrings, pure, Except.pure]
  | cons n l ih =>
    rw [strings, AllStrings, List.forall_mem_cons, List.map_cons]
    constructor
    · intro h
      obtain ⟨s, hs, h⟩ := bind_eq_ok.mp h
      obtain ⟨list, hlist, h⟩ := bind_eq_ok.mp h
      obtain rfl := be_node.s_eq_ok.mp hs
      obtain ⟨hall, rfl⟩ := ih.mp hlist
      exact ⟨⟨⟨s, rfl⟩, hall⟩, Except.ok.inj h⟩
    · intro h
      obtain ⟨⟨⟨s, rfl⟩, hall⟩, rfl⟩ := h
      rw [be_node.s_BE_STR, ok_bind, ih.mpr ⟨hall, rfl⟩]
      rfl

theorem parse_list_list_eq_ok {r : List (List (List UInt8))} :
    parse_list_list l = .ok r ↔ AllLists l ∧ l.map listTexts = r := by
  induction l generalizing r with
  | nil => simp [parse_list_list, AllLists, pure, Except.pure]
  | cons n l ih =>
    rw [parse_list_list, AllLists, List.forall_mem_cons, List.map_cons]
    constructor
    · intro h
      obtain ⟨l', hl', h⟩ := bind_eq_ok.mp h
      obtain ⟨list, hlist, h⟩ := bind_eq_ok.mp h
      obtain ⟨list_list, hrest, h⟩ := bind_eq_ok.mp h
      obtain rfl := be_node.l_eq_ok.mp hl'
      obtain ⟨hstrings, rfl⟩ := strings_eq_ok.mp hlist
      obtain ⟨hall, rfl⟩ := ih.mp hrest
      exact ⟨⟨⟨l', rfl, hstrings⟩, hall⟩, Except.ok.inj h⟩
    · intro h
      obtain ⟨⟨⟨l', rfl, hstrings⟩, hall⟩, rfl⟩ := h
      rw [be_node.l_BE_LIST, ok_bind, strings_eq_ok.mpr ⟨hstrings, rfl⟩, ok_bind,
        ih.mpr ⟨hall, rfl⟩]
      rfl

theorem pathLoop_eq_ok {path r : List UInt8} :
    pathLoop path l = .ok r ↔
      AllStrings l ∧ path ++ l.flatMap (fun n => stringText n ++ [47]) = r := by
  induction l generalizing path with
  | nil => simp [pathLoop, AllStrings, pure, Except.pure]
  | cons n l ih =>
    rw [pathLoop, AllStrings, List.forall_mem_cons, List.flatMap_cons]
    constructor
    · intro h
      obtain ⟨s, hs, h⟩ := bind_eq_ok.mp h
      obtain rfl := be_node.s_eq_ok.mp hs
      obtain ⟨hall, rfl⟩ := ih.mp h
      exact ⟨⟨⟨s, rfl⟩, hall⟩, by simp [stringText]⟩
    · intro h
      obtain ⟨⟨⟨s, rfl⟩, hall⟩, rfl⟩ := h
      rw [be_node.s_BE_STR, ok_bind]
      exact ih.mpr ⟨hall, by simp [stringText]⟩

/-- There is a slash to take off when there is an element. -/
theorem path_eq_nil : [] ++ l.flatMap (fun n => stringText n ++ [47]) = [] ↔ l = [] := by
  cases l with
  | nil => simp
  | cons n l => simp

/-- The slashes behind the elements, but the last one, are the separators. -/
theorem dropLast_flatMap (ss : List (List UInt8)) :
    (ss.flatMap fun s => s ++ [47]).dropLast = [47].intercalate ss := by
  induction ss with
  | nil => rfl
  | cons s ss ih =>
    cases ss with
    | nil => simp
    | cons s' ss =>
      rw [List.intercalate_cons_cons, ← ih, List.flatMap_cons,
        List.dropLast_append_of_ne_nil (by simp)]

end Lists

/-! ## One file -/

/-- The field of the map a key is for. -/
def fieldOf (key : List UInt8) : Option (List UInt8) :=
  if key = ascii "length" then some (ascii "length")
  else if key = ascii "md5sum" ∨ key = ascii "md5" then some (ascii "md5sum")
  else if key = ascii "path" then some (ascii "path")
  else none

/-- The map with what is read under the key. -/
def written (dict : StringMap) (key : List UInt8) (n : be_node) : StringMap :=
  match fieldOf key with
  | none => dict
  | some name => Function.update dict name (some (readText n))

section Branch
variable {n : be_node} {g : List UInt8 → Except Fault StringMap} {m : StringMap}

/-- An integer is read, and the loop goes on with its text. -/
theorem int_branch : (n.i >>= fun i => g (renderInt i.toInt)) = .ok m ↔
    Kind.int.FitsFlat n ∧ g (readText n) = .ok m := by
  constructor
  · intro h
    obtain ⟨i, hi, h⟩ := bind_eq_ok.mp h
    obtain rfl := be_node.i_eq_ok.mp hi
    exact ⟨⟨i, rfl⟩, h⟩
  · intro h
    obtain ⟨⟨i, rfl⟩, h⟩ := h
    exact h

theorem str_branch : (n.s >>= fun s => g (cstr s)) = .ok m ↔
    Kind.str.FitsFlat n ∧ g (readText n) = .ok m := by
  constructor
  · intro h
    obtain ⟨s, hs, h⟩ := bind_eq_ok.mp h
    obtain rfl := be_node.s_eq_ok.mp hs
    exact ⟨⟨s, rfl⟩, h⟩
  · intro h
    obtain ⟨⟨s, rfl⟩, h⟩ := h
    exact h

/-- A path is read, and its last slash taken off. -/
theorem path_branch : (n.l >>= fun l => pathLoop [] l >>= fun path =>
      if path = [] then .error .outOfBounds else g path.dropLast) = .ok m ↔
    Kind.path.FitsFlat n ∧ g (readText n) = .ok m := by
  constructor
  · intro h
    obtain ⟨l, hl, h⟩ := bind_eq_ok.mp h
    obtain ⟨path, hpath, h⟩ := bind_eq_ok.mp h
    obtain rfl := be_node.l_eq_ok.mp hl
    obtain ⟨hall, rfl⟩ := pathLoop_eq_ok.mp hpath
    have hne : l ≠ [] := by
      rintro rfl
      cases h
    rw [if_neg (path_eq_nil.not.mpr hne)] at h
    exact ⟨⟨l, rfl, hne, hall⟩, h⟩
  · intro h
    obtain ⟨⟨l, rfl, hne, hall⟩, h⟩ := h
    rw [be_node.l_BE_LIST, ok_bind, pathLoop_eq_ok.mpr ⟨hall, rfl⟩, ok_bind,
      if_neg (path_eq_nil.not.mpr hne)]
    exact h

end Branch

section File
variable {d : List (Option (List UInt8) × be_node)} {dict m : StringMap}

/-- A round of the loop with a key that is not null. -/
theorem fileLoop_some {k : List UInt8} {n : be_node} :
    fileLoop dict ((some k, n) :: d) = .ok m ↔
      (∀ kind, fileKind (cstr k) = some kind → kind.FitsFlat n) ∧
        fileLoop (written dict (cstr k) n) d = .ok m := by
  rw [fileLoop, deref_some, ok_bind, fileKind, written, fieldOf]
  dsimp only
  by_cases h₁ : cstr k = ascii "length"
  · simp only [if_pos h₁, Option.some.injEq, forall_eq']
    exact int_branch (g := fun text => fileLoop (Function.update dict _ (some text)) d)
  simp only [if_neg h₁]
  by_cases h₂ : cstr k = ascii "md5sum" ∨ cstr k = ascii "md5"
  · simp only [if_pos h₂, Option.some.injEq, forall_eq']
    exact str_branch (g := fun text => fileLoop (Function.update dict _ (some text)) d)
  simp only [if_neg h₂]
  by_cases h₃ : cstr k = ascii "path"
  · simp only [if_pos h₃, Option.some.injEq, forall_eq']
    exact path_branch (g := fun text => fileLoop (Function.update dict _ (some text)) d)
  · simp [if_neg h₃]

/-- **When the loop over a file succeeds, and what it makes of it.** -/
theorem fileLoop_eq_ok : fileLoop dict d = .ok m ↔
    (∀ e ∈ d, EntryFits fileKind Kind.FitsFlat e) ∧
      d.foldl (fun dict e => written dict (cstr (e.1.getD [])) e.2) dict = m := by
  induction d generalizing dict with
  | nil => simp [fileLoop, pure, Except.pure]
  | cons e d ih =>
    obtain ⟨key, n⟩ := e
    rw [List.forall_mem_cons, List.foldl_cons]
    cases key with
    | none =>
      constructor
      · intro h
        cases h
      · intro h
        obtain ⟨k, hk, -⟩ := h.1.1
        cases hk
    | some k =>
      rw [fileLoop_some, ih, and_assoc]
      refine and_congr_left fun _ => ?_
      constructor
      · intro h
        exact ⟨k, rfl, h⟩
      · intro h
        obtain ⟨k', hk, hfits⟩ := h
        obtain rfl := Option.some.inj hk
        exact hfits

end File

theorem parse_dict_eq_ok {l : List be_node} {ms : List StringMap} : parse_dict l = .ok ms ↔
    List.Forall₂ (fun n m => ∃ d, n = .BE_DICT d ∧ fileLoop (fun _ => none) d = .ok m) l ms := by
  induction l generalizing ms with
  | nil => simp [parse_dict, pure, Except.pure, eq_comm]
  | cons n l ih =>
    rw [parse_dict]
    constructor
    · intro h
      obtain ⟨d, hd, h⟩ := bind_eq_ok.mp h
      obtain ⟨m, hm, h⟩ := bind_eq_ok.mp h
      obtain ⟨ms', hms, h⟩ := bind_eq_ok.mp h
      obtain rfl := Except.ok.inj h
      exact .cons ⟨d, be_node.d_eq_ok.mp hd, hm⟩ (ih.mp hms)
    · intro h
      cases h with
      | cons hhead htail =>
        obtain ⟨d, rfl, hm⟩ := hhead
        rw [be_node.d_BE_DICT, ok_bind, hm, ok_bind, ih.mpr htail]
        rfl

theorem exists_forall₂ {α β : Type} {R : α → β → Prop} {l : List α} :
    (∃ l', List.Forall₂ R l l') ↔ ∀ a ∈ l, ∃ b, R a b := by
  induction l with
  | nil => simp
  | cons a l ih =>
    rw [List.forall_mem_cons, ← ih]
    constructor
    · intro h
      obtain ⟨_, hall⟩ := h
      cases hall with
      | cons hhead htail => exact ⟨⟨_, hhead⟩, _, htail⟩
    · intro h
      obtain ⟨⟨b, hhead⟩, l', htail⟩ := h
      exact ⟨b :: l', .cons hhead htail⟩

/-- **When the list of files can be read.** -/
theorem parse_dict_ok_iff {l : List be_node} : (∃ ms, parse_dict l = .ok ms) ↔
    ∀ n ∈ l, ∃ d, n = .BE_DICT d ∧ ∀ e ∈ d, EntryFits fileKind Kind.FitsFlat e := by
  simp only [parse_dict_eq_ok, exists_forall₂]
  refine forall₂_congr fun n _ => ?_
  rw [exists_comm]
  refine exists_congr fun d => ?_
  rw [exists_and_left]
  refine and_congr_right fun _ => ?_
  simp only [fileLoop_eq_ok, exists_and_left, exists_eq', and_true]

/-! ## What a list of files says -/

/-- A string of a value. -/
def stringOf : Value → List UInt8
  | .str s => s
  | _ => []

/-- The text of a value in the map: decimal for an integer, joined by slashes for a path. -/
def fieldText : Value → List UInt8
  | .str s => s
  | .int i => renderInt i.toInt
  | .list l => [47].intercalate (l.map stringOf)
  | .dict _ => []

/-- The dictionary of a file: its path is a list of strings without zero bytes, its length an
integer, and its hash a string.  Other keys hold anything. -/
structure FileDict where
  dict : List (List UInt8 × Value)
  nodup : (dict.map Prod.fst).Nodup
  path : ∀ v, (ascii "path", v) ∈ dict →
    ∃ ss : List (List UInt8), v = .list (ss.map .str) ∧ ∀ s ∈ ss, 0 ∉ s
  length : ∀ v, (ascii "length", v) ∈ dict → ∃ i, v = .int i
  md5sum : ∀ k v, k = ascii "md5sum" ∨ k = ascii "md5" → (k, v) ∈ dict → ∃ s, v = .str s

/-- A field of the map: the text of a value under one of its keys, if there is one. -/
def HasText (dict : List (List UInt8 × Value)) (name : List UInt8) :
    Option (List UInt8) → Prop
  | none => ∀ e ∈ dict, fieldOf e.1 ≠ some name
  | some s => ∃ e ∈ dict, fieldOf e.1 = some name ∧ fieldText e.2 = s

/-- The map of a file. -/
def Extracted (f : FileDict) (m : StringMap) : Prop := ∀ name, HasText f.dict name (m name)

/-- The value of an announce list. -/
def announceList (ls : List (List (List UInt8))) : List Value := ls.map fun l => .list (l.map .str)

/-- **The lists are extracted as they are**: a map for each file in order, and the strings of
the announce list. -/
structure Extracts (fs : List FileDict) (ls : List (List (List UInt8))) : Prop where
  files : ∃ ms, parse_dict (nodes (fs.map fun f => .dict f.dict)) = .ok ms ∧
    List.Forall₂ Extracted fs ms
  announce_list : parse_list_list (nodes (announceList ls)) = .ok ls

/-- The last entry that is read as the field. -/
def lastFor (dict : List (List UInt8 × Value)) (name : List UInt8) : Option (List UInt8 × Value) :=
  (dict.filter fun e => fieldOf (cstr e.1) = some name).getLast?

/-- No path is empty, what is read as a key that is known holds what it should, and the last
entry that is read as a field gives the text of one that is for the field. -/
structure RightFile (f : FileDict) : Prop where
  typed : Typed fileKind Kind.HoldsFlat f.dict
  last : ∀ name, ∀ e ∈ lastFor f.dict name, HasText f.dict name (some (readText (node e.2)))

/-- Files that are right, and announce URLs without a zero byte. -/
structure RightLists (fs : List FileDict) (ls : List (List (List UInt8))) : Prop where
  files : ∀ f ∈ fs, RightFile f
  announce_list : ∀ l ∈ ls, ∀ s ∈ l, 0 ∉ s

/-! ## The trees of these values -/

theorem allStrings_nodes {l : List Value} : AllStrings (nodes l) ↔ AllStr l := by
  simp only [AllStrings, AllStr, nodes_eq_map, List.forall_mem_map, node_eq_BE_STR]

theorem node_eq_BE_LIST {v : Value} {l : List be_node} :
    node v = .BE_LIST l ↔ ∃ l', v = .list l' ∧ nodes l' = l := by
  constructor
  · intro h
    match v, h with
    | .list l', h => exact ⟨l', rfl, be_node.BE_LIST.inj h⟩
  · intro h
    obtain ⟨l', rfl, rfl⟩ := h
    rfl

theorem node_eq_BE_DICT {v : Value} {d : List (Option (List UInt8) × be_node)} :
    node v = .BE_DICT d ↔ ∃ d', v = .dict d' ∧ entries d' = d := by
  constructor
  · intro h
    match v, h with
    | .dict d', h => exact ⟨d', rfl, be_node.BE_DICT.inj h⟩
  · intro h
    obtain ⟨d', rfl, rfl⟩ := h
    rfl

theorem allLists_nodes {l : List Value} :
    AllLists (nodes l) ↔ ∀ w ∈ l, ∃ l', w = .list l' ∧ AllStr l' := by
  rw [AllLists, nodes_eq_map, List.forall_mem_map]
  refine forall₂_congr fun w _ => ?_
  constructor
  · intro h
    obtain ⟨l', hnode, hall⟩ := h
    obtain ⟨l', rfl, rfl⟩ := node_eq_BE_LIST.mp hnode
    exact ⟨l', rfl, allStrings_nodes.mp hall⟩
  · intro h
    obtain ⟨l', rfl, hall⟩ := h
    exact ⟨nodes l', rfl, allStrings_nodes.mpr hall⟩

/-- The tree of a value fits where the value does. -/
theorem fitsFlat_node {kind : Kind} {v : Value} : kind.FitsFlat (node v) ↔ kind.HoldsFlat v := by
  cases kind with
  | str => exact exists_congr fun s => node_eq_BE_STR
  | int => exact exists_congr fun i => node_eq_BE_INT
  | path =>
    constructor
    · intro h
      obtain ⟨l, hnode, hne, hall⟩ := h
      obtain ⟨l, rfl, rfl⟩ := node_eq_BE_LIST.mp hnode
      exact ⟨l, rfl, by rintro rfl; exact hne rfl, allStrings_nodes.mp hall⟩
    · intro h
      obtain ⟨l, rfl, hne, hall⟩ := h
      exact ⟨nodes l, rfl, by simpa [nodes_eq_map] using hne, allStrings_nodes.mpr hall⟩
  | lists =>
    constructor
    · intro h
      obtain ⟨l, hnode, hall⟩ := h
      obtain ⟨l, rfl, rfl⟩ := node_eq_BE_LIST.mp hnode
      exact ⟨l, rfl, allLists_nodes.mp hall⟩
    · intro h
      obtain ⟨l, rfl, hall⟩ := h
      exact ⟨nodes l, rfl, allLists_nodes.mpr hall⟩
  | files => exact Iff.rfl
  | dict =>
    constructor
    · intro h
      obtain ⟨d, hnode⟩ := h
      obtain ⟨d, rfl, -⟩ := node_eq_BE_DICT.mp hnode
      exact ⟨d, rfl⟩
    · intro h
      obtain ⟨d, rfl⟩ := h
      exact ⟨entries d, rfl⟩

/-- The entries of a dictionary fit where it is well typed. -/
theorem entriesFit_iff {kindOf : List UInt8 → Option Kind} {d : List (List UInt8 × Value)} :
    (∀ e ∈ entries d, EntryFits kindOf Kind.FitsFlat e) ↔ Typed kindOf Kind.HoldsFlat d := by
  rw [entries_eq_map, List.forall_mem_map]
  constructor
  · intro h k v hmem kind hkind
    obtain ⟨k', hk, hfits⟩ := h (k, v) hmem
    obtain rfl := Option.some.inj hk
    exact fitsFlat_node.mp (hfits kind hkind)
  · intro h e hmem
    exact ⟨e.1, rfl, fun kind hkind => fitsFlat_node.mpr (h e.1 e.2 hmem kind hkind)⟩

/-! ## What the loop extracts -/

section Extract
variable {dict : List (List UInt8 × Value)} {name : List UInt8} {f : FileDict}

/-- A field of the map: what was read last for it. -/
theorem foldl_written (dict : List (List UInt8 × Value)) (m : StringMap) (name : List UInt8) :
    (entries dict).foldl (fun m e => written m (cstr (e.1.getD [])) e.2) m name =
      ((lastFor dict name).map fun e => readText (node e.2)).or (m name) := by
  induction dict generalizing m with
  | nil => rfl
  | cons e dict ih =>
    obtain ⟨k, v⟩ := e
    rw [entries, List.foldl_cons, ih, lastFor, lastFor, List.filter_cons]
    by_cases hk : fieldOf (cstr k) = some name
    · have hset : written m (cstr k) (node v) name = some (readText (node v)) := by
        simp [written, hk]
      rw [if_pos (by simpa using hk), List.getLast?_cons]
      show Option.or _ (written m (cstr k) (node v) name) = _
      rw [hset]
      cases (dict.filter fun e => fieldOf (cstr e.1) = some name).getLast? with
      | none => rfl
      | some e => rfl
    · have hset : written m (cstr k) (node v) name = m name := by
        rw [written]
        cases hfield : fieldOf (cstr k) with
        | none => rfl
        | some name' =>
          have hne : name ≠ name' := by
            rintro rfl
            exact hk hfield
          simp [hne]
      rw [if_neg (by simpa using hk)]
      exact congrArg _ hset

/-- A key that is for a field is read as it is. -/
theorem cstr_of_fieldOf {k : List UInt8} (h : fieldOf k = some name) : cstr k = k := by
  rw [fieldOf] at h
  by_cases h₁ : k = ascii "length"
  · rw [h₁]
    decide
  rw [if_neg h₁] at h
  by_cases h₂ : k = ascii "md5sum" ∨ k = ascii "md5"
  · rcases h₂ with rfl | rfl
    · decide
    · decide
  rw [if_neg h₂] at h
  by_cases h₃ : k = ascii "path"
  · rw [h₃]
    decide
  · rw [if_neg h₃] at h
    cases h

/-- Where nothing is read for a field, no entry is for it. -/
theorem hasText_none (h : lastFor dict name = none) : HasText dict name none := by
  intro e he hfield
  rw [lastFor, List.getLast?_eq_none_iff, List.filter_eq_nil_iff] at h
  refine h e he ?_
  rw [cstr_of_fieldOf hfield]
  simpa using hfield

/-- **Exactly when the map of a file is right.** -/
theorem fileLoop_extracts_iff :
    (∃ m, fileLoop (fun _ => none) (entries f.dict) = .ok m ∧ Extracted f m) ↔ RightFile f := by
  constructor
  · intro h
    obtain ⟨m, hm, hex⟩ := h
    obtain ⟨hfits, rfl⟩ := fileLoop_eq_ok.mp hm
    refine ⟨entriesFit_iff.mp hfits, ?_⟩
    intro name e he
    have htext := hex name
    rw [foldl_written, he] at htext
    exact htext
  · intro h
    refine ⟨_, fileLoop_eq_ok.mpr ⟨entriesFit_iff.mpr h.typed, rfl⟩, ?_⟩
    intro name
    rw [foldl_written]
    cases hlast : lastFor f.dict name with
    | none => exact hasText_none hlast
    | some e => exact h.last name e hlast

/-- A path of strings without zero bytes is read as it is. -/
theorem readText_path {ss : List (List UInt8)} (h : ∀ s ∈ ss, 0 ∉ s) :
    readText (node (.list (ss.map .str))) = fieldText (.list (ss.map .str)) := by
  have hflat : (nodes (ss.map .str)).flatMap (fun n => stringText n ++ [47]) =
      ss.flatMap fun s => s ++ [47] := by
    rw [nodes_eq_map, List.map_map, List.flatMap_map]
    refine List.flatMap_congr fun s hs => ?_
    show cstr s ++ [47] = _
    rw [cstr_eq_self (h s hs)]
  rw [node, readText, hflat, dropLast_flatMap, fieldText, List.map_map]
  simp [Function.comp_def, stringOf]

/-- A value under a key for a field is read as it is, if it is no hash with a zero byte. -/
theorem readText_of_mem {e : List UInt8 × Value} (he : e ∈ f.dict)
    (hfield : fieldOf e.1 = some name)
    (hmd5 : ∀ s, e.2 = .str s → 0 ∉ s) : readText (node e.2) = fieldText e.2 := by
  obtain ⟨k, v⟩ := e
  rw [fieldOf] at hfield
  by_cases h₁ : k = ascii "length"
  · obtain ⟨i, rfl⟩ := f.length v (h₁ ▸ he)
    rfl
  rw [if_neg h₁] at hfield
  by_cases h₂ : k = ascii "md5sum" ∨ k = ascii "md5"
  · obtain ⟨s, rfl⟩ := f.md5sum k v h₂ he
    exact cstr_eq_self (hmd5 s rfl)
  rw [if_neg h₂] at hfield
  by_cases h₃ : k = ascii "path"
  · obtain ⟨ss, rfl, hss⟩ := f.path v (h₃ ▸ he)
    exact readText_path hss
  · rw [if_neg h₃] at hfield
    cases hfield

/-- **Ordinary files are right**: no key and no string outside the path has a zero byte, and
the path has an element. -/
theorem rightFile_of_plain (hkeys : ∀ e ∈ f.dict, 0 ∉ e.1)
    (hpath : (ascii "path", .list []) ∉ f.dict) (hmd5 : ∀ k s, (k, .str s) ∈ f.dict → 0 ∉ s) :
    RightFile f := by
  refine ⟨?_, ?_⟩
  · intro k v hmem kind hkind
    rw [cstr_eq_self (hkeys _ hmem), fileKind] at hkind
    by_cases h₁ : k = ascii "length"
    · rw [if_pos h₁] at hkind
      obtain rfl := Option.some.inj hkind
      exact f.length v (h₁ ▸ hmem)
    rw [if_neg h₁] at hkind
    by_cases h₂ : k = ascii "md5sum" ∨ k = ascii "md5"
    · rw [if_pos h₂] at hkind
      obtain rfl := Option.some.inj hkind
      exact f.md5sum k v h₂ hmem
    rw [if_neg h₂] at hkind
    by_cases h₃ : k = ascii "path"
    · rw [if_pos h₃] at hkind
      obtain rfl := Option.some.inj hkind
      obtain ⟨ss, rfl, -⟩ := f.path v (h₃ ▸ hmem)
      have hne : ss.map Value.str ≠ [] := by
        intro hnil
        exact hpath (by rwa [h₃, hnil] at hmem)
      exact ⟨_, rfl, hne, by simp [AllStr]⟩
    · rw [if_neg h₃] at hkind
      cases hkind
  · intro name e he
    rw [lastFor] at he
    obtain ⟨hmem, hfield⟩ := List.mem_filter.mp (List.mem_of_getLast? he)
    rw [cstr_eq_self (hkeys e hmem), decide_eq_true_eq] at hfield
    exact ⟨e, hmem, hfield, (readText_of_mem hmem hfield fun s hs => hmd5 e.1 s (hs ▸ hmem)).symm⟩

/-- The list of files is extracted where each of them is. -/
theorem parse_dict_extracts_iff {fs : List FileDict} :
    (∃ ms, parse_dict (nodes (fs.map fun f => .dict f.dict)) = .ok ms ∧
      List.Forall₂ Extracted fs ms) ↔ ∀ f ∈ fs, RightFile f := by
  simp only [parse_dict_eq_ok]
  induction fs with
  | nil =>
    constructor
    · intro _ f hf
      exact absurd hf List.not_mem_nil
    · intro _
      exact ⟨[], .nil, .nil⟩
  | cons f fs ih =>
    rw [List.forall_mem_cons, ← fileLoop_extracts_iff, ← ih]
    constructor
    · intro h
      obtain ⟨ms, hparse, hex⟩ := h
      cases hex with
      | @cons _ m _ ms hm hms =>
        obtain ⟨⟨d, hd, hloop⟩, hparse⟩ := List.forall₂_cons.mp hparse
        obtain rfl := be_node.BE_DICT.inj hd
        exact ⟨⟨m, hloop, hm⟩, ms, hparse, hms⟩
    · intro h
      obtain ⟨⟨m, hloop, hm⟩, ms, hparse, hms⟩ := h
      exact ⟨m :: ms, .cons ⟨_, rfl, hloop⟩ hparse, .cons hm hms⟩

end Extract

theorem map_eq_self {α : Type} {f : α → α} {l : List α} : l.map f = l ↔ ∀ a ∈ l, f a = a := by
  simpa using List.map_inj_left (f := f) (g := id) (l := l)

/-- The strings of an announce list are read whole if they have no zero byte. -/
theorem parse_list_list_iff {ls : List (List (List UInt8))} :
    parse_list_list (nodes (announceList ls)) = .ok ls ↔ ∀ l ∈ ls, ∀ s ∈ l, 0 ∉ s := by
  have hlists : AllLists (nodes (announceList ls)) := by
    rw [allLists_nodes, announceList, List.forall_mem_map]
    intro l _
    refine ⟨l.map .str, rfl, ?_⟩
    rw [AllStr, List.forall_mem_map]
    intro s _
    exact ⟨s, rfl⟩
  have htexts : (nodes (announceList ls)).map listTexts = ls.map fun l => l.map cstr := by
    rw [announceList, nodes_eq_map, List.map_map, List.map_map]
    refine List.map_congr_left fun l _ => ?_
    simp [listTexts, node, nodes_eq_map, stringText, Function.comp_def]
  rw [parse_list_list_eq_ok, htexts, map_eq_self, and_iff_right hlists]
  simp only [map_eq_self, cstr_eq_self_iff]

/-- **Exactly when the lists are extracted.** -/
theorem extracts_iff (fs : List FileDict) (ls : List (List (List UInt8))) :
    Extracts fs ls ↔ RightLists fs ls := by
  constructor
  · intro h
    exact ⟨parse_dict_extracts_iff.mp h.files, parse_list_list_iff.mp h.announce_list⟩
  · intro h
    exact ⟨parse_dict_extracts_iff.mpr h.files, parse_list_list_iff.mpr h.announce_list⟩

/-- A file whose path has no elements. -/
def noElements : FileDict where
  dict := [(ascii "length", .int 1), (ascii "path", .list [])]
  nodup := by decide
  path := by
    intro v hmem
    have hv : v = .list [] := by simpa [ascii] using hmem
    exact ⟨[], hv, nofun⟩
  length := by
    intro v hmem
    exact ⟨1, by simpa [ascii] using hmem⟩
  md5sum := by
    intro k v hk hmem
    simp [ascii] at hk hmem
    grind

/-- Its slash is taken off an empty string. -/
theorem not_extracts_noElements : ¬ Extracts [noElements] [] := by
  intro h
  obtain ⟨ms, hms, -⟩ := h.files
  have hfault : parse_dict (nodes ([noElements].map fun f => .dict f.dict)) =
      .error .outOfBounds := rfl
  rw [hfault] at hms
  cases hms

end TorrentClient
