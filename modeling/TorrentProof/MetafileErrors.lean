import Mathlib
import TorrentProof.FileList
import TorrentProof.MetafileInfo

/-! # `create_metafile` on any file

`create_metafile` looks neither for the null pointer nor at the tags of the tree, and it goes
by numbers in the text of the file.  What it can reject is a negative size: `new` and
`string::assign` throw there.  `safelyRead_iff` says which files are read safely, by what their
tree holds and, for `info` and `pieces`, by the numbers in the text.
-/
namespace TorrentClient
open Bytes Bencode CText Fallible

/-- The exception thrown for a negative size. -/
def Thrown (fault : Fault) : Prop := fault = .badAlloc

/-- The number behind the word `pieces`. -/
def pieceNumber (memblock : List UInt8) (size : Int) : Except Fault Int32 := do
  let s ← assign memblock size
  numberAt memblock (endOf (ascii "pieces") s)

/-- The rounds of the loop over the hashes for `n` bytes. -/
def rounds (n : Int32) : Nat := (n.toInt.tdiv 20).toNat

/-- A `memcpy` of 20 bytes out of a string. -/
structure Copy where
  offset : Nat
  length : Nat

/-- No byte behind the string is copied, not even its terminator. -/
def Copy.Inside (c : Copy) : Prop := c.offset + 20 ≤ c.length

/-- The copies of `n` hashes. -/
def hashCopies (val : be_node) (n : Nat) : List Copy :=
  match val.s with
  | .ok s => (List.range n).map fun k => ⟨k * 20, s.length⟩
  | .error _ => []

section Run
variable (SHA1 : List UInt8 → Vector UInt8 20) (heap : Mem) (memblock : List UInt8)

/-- The copies for an entry of the info dictionary. -/
def infoCopies (size : Int) : Option (List UInt8) × be_node → List Copy
  | (key, val) =>
    if key.map cstr = some (ascii "pieces") then
      match pieceNumber memblock size with
      | .ok n => hashCopies val (rounds n)
      | .error _ => []
    else []

/-- The copies in the loop over the info dictionary. -/
def loopCopies (st : Metafile × Int) (val : be_node) : List Copy :=
  match val.d with
  | .ok d => (reached (infoEntry memblock) st d).flatMap fun p => infoCopies memblock p.1.2 p.2
  | .error _ => []

/-- The copies for an entry of the dictionary of the file. -/
def topCopies : Metafile × Int → Option (List UInt8) × be_node → List Copy
  | («meta», size), (key, val) =>
    if key.map cstr = some (ascii "info") then
      match infoHash SHA1 heap memblock size val with
      | .ok info_hash => loopCopies memblock ({ «meta» with info_hash }, size) val
      | .error _ => []
    else []

/-- The copies out of the pieces string in a run of `create_metafile`. -/
def copies (be_decoden : List UInt8 → Option be_node) (stale : Metafile) : List Copy :=
  match be_decoden memblock with
  | some (.BE_DICT d) =>
    (reached (topEntry SHA1 heap memblock) (stale.new, memblock.length) d).flatMap fun p =>
      topCopies SHA1 heap memblock p.1 p.2
  | _ => []

/-- **The file is read safely**: `create_metafile` returns or throws, and copies only bytes inside
the pieces string. -/
structure SafelyRead (be_decoden : List UInt8 → Option be_node) (stale : Metafile) : Prop where
  ends : Ends Thrown (create_metafile SHA1 heap memblock be_decoden stale) fun _ => True
  inside : ∀ c ∈ copies SHA1 heap memblock be_decoden stale, c.Inside

end Run

/-! ## Trees that can be read -/

/-- The trees of a kind. -/
def Kind.Fits : Kind → be_node → Prop
  | .files, n => ∃ l, n = .BE_LIST l ∧
      ∀ w ∈ l, ∃ d, w = .BE_DICT d ∧ ∀ e ∈ d, EntryFits fileKind Kind.FitsFlat e
  | kind, n => kind.FitsFlat n

/-- A string with at least `k` whole hashes, or anything where there are none to copy. -/
def HasHashes (val : be_node) (k : Nat) : Prop :=
  k = 0 ∨ ∃ s, val = .BE_STR (some s) ∧ k * 20 ≤ s.length

/-- The entries of a dictionary, with the size the loop has got to: `atWord` is about the value
of the key `word`, and what has to hold of the size behind it; `next` about the size behind the
last entry. -/
def EntriesReadable (word : List UInt8) (kindOf : List UInt8 → Option Kind)
    (atWord : Int → be_node → (Int → Prop) → Prop) (next : Int → Prop) :
    Int → List (Option (List UInt8) × be_node) → Prop
  | size, [] => next size
  | size, e :: d =>
    if e.1.map cstr = some word then
      atWord size e.2 fun size => EntriesReadable word kindOf atWord next size d
    else EntryFits kindOf Kind.Fits e ∧ EntriesReadable word kindOf atWord next size d

section Readable
variable (memblock : List UInt8)

/-- The value of `pieces` has as many hashes as the number in the text says, unless the size
is negative already. -/
def PiecesReadable (size : Int) (val : be_node) (next : Int → Prop) : Prop :=
  size < 0 ∨ ∃ n, pieceNumber memblock size = .ok n ∧ HasHashes val (rounds n) ∧ next n.toInt

/-- The entries of an info dictionary. -/
def InfoReadable (next : Int → Prop) (size : Int) (d : List (Option (List UInt8) × be_node)) :
    Prop :=
  EntriesReadable (ascii "pieces") infoKind (PiecesReadable memblock) next size d

/-- The value of `info` is a dictionary that can be read, and be encoded as far as it is
hashed, unless the size or that of the hashed bytes is negative. -/
def InfoValueReadable (size : Int) (val : be_node) (next : Int → Prop) : Prop :=
  size < 0 ∨ ∃ info_size, infoSize memblock size = .ok info_size ∧
    (info_size.toInt < 0 ∨ (∃ w, be_encode val info_size.toInt.toNat = .ok w) ∧
      ∃ d, val = .BE_DICT d ∧ InfoReadable memblock next size d)

/-- The entries of the dictionary of the file. -/
def TopReadable (size : Int) (d : List (Option (List UInt8) × be_node)) : Prop :=
  EntriesReadable (ascii "info") topKind (InfoValueReadable memblock) (fun _ => True) size d

end Readable

/-! ## What throws nothing -/

section Silent
variable {val : be_node}

theorem pure_ne {α : Type} {a : α} : (pure a : Except Fault α) ≠ .error .badAlloc := by
  intro h
  cases h

theorem deref_ne {s : Option (List UInt8)} : deref s ≠ .error .badAlloc := by
  cases s with
  | none => simp [deref]
  | some s => exact pure_ne

theorem s_ne : val.s ≠ .error .badAlloc := by
  cases val with
  | BE_STR s => exact deref_ne
  | _ => simp [be_node.s]

theorem i_ne : val.i ≠ .error .badAlloc := by
  cases val <;> simp [be_node.i]

theorem l_ne : val.l ≠ .error .badAlloc := by
  cases val <;> simp [be_node.l]

theorem d_ne : val.d ≠ .error .badAlloc := by
  cases val <;> simp [be_node.d]

theorem strings_ne (l : List be_node) : strings l ≠ .error .badAlloc := by
  induction l with
  | nil => exact pure_ne
  | cons n l ih => exact bind_ne_error s_ne fun s => bind_ne_error ih fun _ => pure_ne

theorem parse_list_list_ne (l : List be_node) : parse_list_list l ≠ .error .badAlloc := by
  induction l with
  | nil => exact pure_ne
  | cons n l ih =>
    exact bind_ne_error l_ne fun l' => bind_ne_error (strings_ne l') fun list =>
      bind_ne_error ih fun _ => pure_ne

theorem pathLoop_ne (l : List be_node) (path : List UInt8) :
    pathLoop path l ≠ .error .badAlloc := by
  induction l generalizing path with
  | nil => exact pure_ne
  | cons n l ih => exact bind_ne_error s_ne fun s => ih _

theorem fileLoop_ne (d : List (Option (List UInt8) × be_node)) (dict : StringMap) :
    fileLoop dict d ≠ .error .badAlloc := by
  induction d generalizing dict with
  | nil => exact pure_ne
  | cons e d ih =>
    obtain ⟨key, val⟩ := e
    rw [fileLoop]
    refine bind_ne_error deref_ne fun key => ?_
    dsimp only
    split
    · exact bind_ne_error i_ne fun i => ih _
    split
    · exact bind_ne_error s_ne fun s => ih _
    split
    · refine bind_ne_error l_ne fun l => bind_ne_error (pathLoop_ne l _) fun path => ?_
      by_cases hpath : path = []
      · rw [if_pos hpath]
        intro h
        cases h
      · rw [if_neg hpath]
        exact ih _
    · exact ih _

theorem parse_dict_ne (l : List be_node) : parse_dict l ≠ .error .badAlloc := by
  induction l with
  | nil => exact pure_ne
  | cons n l ih =>
    exact bind_ne_error d_ne fun d => bind_ne_error (fileLoop_ne d _) fun dict =>
      bind_ne_error ih fun _ => pure_ne

theorem be_encode_str_ne (str : Option (List UInt8)) (outBufLen : Nat) :
    be_encode_str str outBufLen ≠ .error .badAlloc := by
  refine bind_ne_error deref_ne fun s => ?_
  dsimp only
  split
  · exact pure_ne
  · exact pure_ne

mutual

theorem be_encode_ne (n : be_node) (outBufLen : Nat) :
    be_encode n outBufLen ≠ .error .badAlloc := by
  by_cases h0 : outBufLen = 0
  · subst h0
    rw [be_encode_no_room]
    exact pure_ne
  match n with
  | .BE_STR s =>
    rw [be_encode, if_neg h0]
    refine bind_ne_error (be_encode_str_ne s outBufLen) fun w => ?_
    dsimp only
    split
    · exact pure_ne
    · exact pure_ne
  | .BE_INT i =>
    rw [be_encode, if_neg h0]
    dsimp only
    split
    · exact pure_ne
    · exact pure_ne
  | .BE_LIST l =>
    rw [be_encode, if_neg h0]
    exact be_encode_list_ne l _
  | .BE_DICT d =>
    rw [be_encode, if_neg h0]
    exact be_encode_dict_ne d _

theorem be_encode_list_ne (l : List be_node) (e : Encoding) :
    be_encode_list l e ≠ .error .badAlloc := by
  match l with
  | [] => exact pure_ne
  | n :: l =>
    rw [be_encode_list]
    refine bind_ne_error (be_encode_ne n _) fun w => ?_
    split
    · exact pure_ne
    · exact be_encode_list_ne l _

theorem be_encode_dict_ne (d : List (Option (List UInt8) × be_node)) (e : Encoding) :
    be_encode_dict d e ≠ .error .badAlloc := by
  match d with
  | [] => exact pure_ne
  | (key, val) :: d =>
    rw [be_encode_dict]
    refine bind_ne_error (be_encode_str_ne key _) fun w => ?_
    split
    · exact pure_ne
    · refine bind_ne_error (be_encode_ne val _) fun w' => ?_
      split
      · exact pure_ne
      · exact be_encode_dict_ne d _

end

end Silent

/-! ## The fields -/

section Fields
variable {val : be_node} {α : Type} {x : Except Fault α}

/-- What throws nothing has to return. -/
theorem ends_iff {P : α → Prop} (h : x ≠ .error .badAlloc) :
    Ends Thrown x P ↔ ∃ a, x = .ok a ∧ P a := by
  refine ends_iff_of_ne fun e he hthrown => h ?_
  rw [he, show e = .badAlloc from hthrown]

theorem i_fits : (∃ i, val.i = .ok i) ↔ Kind.int.Fits val :=
  exists_congr fun _ => be_node.i_eq_ok

theorem s_fits : (∃ s, val.s = .ok s) ↔ Kind.str.Fits val :=
  exists_congr fun _ => be_node.s_eq_ok

theorem lists_fits : (∃ r, (val.l >>= parse_list_list) = .ok r) ↔ Kind.lists.Fits val := by
  constructor
  · intro h
    obtain ⟨r, h⟩ := h
    obtain ⟨l, hl, h⟩ := bind_eq_ok.mp h
    exact ⟨l, be_node.l_eq_ok.mp hl, (parse_list_list_eq_ok.mp h).1⟩
  · intro h
    obtain ⟨l, rfl, hall⟩ := h
    exact ⟨_, parse_list_list_eq_ok.mpr ⟨hall, rfl⟩⟩

theorem files_fits : (∃ r, (val.l >>= parse_dict) = .ok r) ↔ Kind.files.Fits val := by
  constructor
  · intro h
    obtain ⟨ms, h⟩ := h
    obtain ⟨l, hl, h⟩ := bind_eq_ok.mp h
    exact ⟨l, be_node.l_eq_ok.mp hl, parse_dict_ok_iff.mp ⟨ms, h⟩⟩
  · intro h
    obtain ⟨l, rfl, hall⟩ := h
    exact parse_dict_ok_iff.mpr hall

/-- A branch that reads a value of some kind into a field. -/
theorem field_ends {kind : Kind} {f : α → Metafile × Int} {size : Int} {next : Int → Prop}
    (hne : x ≠ .error .badAlloc) (hfits : (∃ a, x = .ok a) ↔ kind.Fits val)
    (hsize : ∀ a, (f a).2 = size) :
    Ends Thrown (x >>= fun a => pure (f a)) (fun st => next st.2) ↔
      (∀ kind', some kind = some kind' → kind'.Fits val) ∧ next size := by
  have hkind : (∀ kind', some kind = some kind' → kind'.Fits val) ↔ ∃ a, x = .ok a := by
    rw [hfits]
    simp
  rw [ends_bind, ends_iff hne, hkind, ← exists_and_right]
  refine exists_congr fun a => and_congr_right fun _ => ?_
  rw [← hsize a]
  rfl

end Fields

/-! ## A loop over a dictionary -/

/-- What the body of a loop over a dictionary does with an entry: the key `word` is read as
`atWord` says, other keys by their kinds, and without copying. -/
structure ReadsEntries (word : List UInt8) (kindOf : List UInt8 → Option Kind)
    (atWord : Int → be_node → (Int → Prop) → Prop)
    (step : Metafile × Int → Option (List UInt8) × be_node → Except Fault (Metafile × Int))
    (copies : Metafile × Int → Option (List UInt8) × be_node → List Copy) : Prop where
  null : ∀ st val, step st (none, val) = .error .nullPointer
  at_word : ∀ st k val next, cstr k = word →
    ((∀ c ∈ copies st (some k, val), c.Inside) ∧
        Ends Thrown (step st (some k, val)) (fun st => next st.2) ↔ atWord st.2 val next)
  no_copies : ∀ st k val, cstr k ≠ word → copies st (some k, val) = []
  other : ∀ st k val (next : Int → Prop), cstr k ≠ word →
    (Ends Thrown (step st (some k, val)) (fun st => next st.2) ↔
      (∀ kind, kindOf (cstr k) = some kind → kind.Fits val) ∧ next st.2)

section Loop
variable {word : List UInt8} {kindOf : List UInt8 → Option Kind}
  {atWord : Int → be_node → (Int → Prop) → Prop} {st : Metafile × Int}
  {step : Metafile × Int → Option (List UInt8) × be_node → Except Fault (Metafile × Int)}
  {copies : Metafile × Int → Option (List UInt8) × be_node → List Copy}

/-- One entry. -/
theorem ReadsEntries.entry (h : ReadsEntries word kindOf atWord step copies) (next : Int → Prop)
    (e : Option (List UInt8) × be_node) :
    (∀ c ∈ copies st e, c.Inside) ∧ Ends Thrown (step st e) (fun st => next st.2) ↔
      if e.1.map cstr = some word then atWord st.2 e.2 next
      else EntryFits kindOf Kind.Fits e ∧ next st.2 := by
  obtain ⟨key, val⟩ := e
  cases key with
  | none =>
    rw [h.null, if_neg (by simp)]
    constructor
    · intro hends
      cases hends.2
    · intro hfits
      obtain ⟨k, hk, -⟩ := hfits.1
      cases hk
  | some k =>
    by_cases hk : cstr k = word
    · rw [if_pos (by rw [Option.map_some, hk])]
      exact h.at_word st k val next hk
    · have hkey : ¬ (some k).map cstr = some word := by simpa using hk
      rw [if_neg hkey, h.no_copies st k val hk, h.other st k val next hk]
      constructor
      · intro hends
        exact ⟨⟨k, rfl, hends.2.1⟩, hends.2.2⟩
      · intro hfits
        obtain ⟨⟨k', hk', hfits⟩, hnext⟩ := hfits
        obtain rfl := Option.some.inj hk'
        exact ⟨by simp, hfits, hnext⟩

/-- **The whole loop.** -/
theorem ReadsEntries.loop (h : ReadsEntries word kindOf atWord step copies) (next : Int → Prop)
    (d : List (Option (List UInt8) × be_node)) :
    (∀ c ∈ (reached step st d).flatMap fun p => copies p.1 p.2, c.Inside) ∧
        Ends Thrown (d.foldlM step st) (fun st => next st.2) ↔
      EntriesReadable word kindOf atWord next st.2 d := by
  rw [← runs_flatMap]
  induction d generalizing st with
  | nil => exact runs_nil
  | cons e d ih =>
    rw [runs_cons, EntriesReadable]
    simp only [ih]
    exact h.entry (fun size => EntriesReadable word kindOf atWord next size d) e

end Loop

section Entries
variable {memblock : List UInt8} {next : Int → Prop} {st : Metafile × Int} {k : List UInt8}
  {val : be_node}

theorem infoEntry_ends (hk : cstr k ≠ ascii "pieces") :
    Ends Thrown (infoEntry memblock st (some k, val)) (fun st => next st.2) ↔
      (∀ kind, infoKind (cstr k) = some kind → kind.Fits val) ∧ next st.2 := by
  obtain ⟨«meta», size⟩ := st
  rw [infoEntry, deref_some, ok_bind, infoKind]
  dsimp only
  by_cases h₁ : cstr k = ascii "piece length"
  · rw [if_pos h₁, if_pos h₁]
    exact field_ends i_ne i_fits fun _ => rfl
  rw [if_neg h₁, if_neg h₁, if_neg hk, if_neg hk]
  by_cases h₂ : cstr k = ascii "private"
  · rw [if_pos h₂, if_pos h₂]
    exact field_ends i_ne i_fits fun _ => rfl
  rw [if_neg h₂, if_neg h₂]
  by_cases h₃ : cstr k = ascii "name"
  · rw [if_pos h₃, if_pos h₃]
    exact field_ends s_ne s_fits fun _ => rfl
  rw [if_neg h₃, if_neg h₃]
  by_cases h₄ : cstr k = ascii "length"
  · rw [if_pos h₄, if_pos h₄]
    exact field_ends i_ne i_fits fun _ => rfl
  rw [if_neg h₄, if_neg h₄]
  by_cases h₅ : cstr k = ascii "files"
  · rw [if_pos h₅, if_pos h₅, ← bind_assoc]
    exact field_ends (bind_ne_error l_ne parse_dict_ne) files_fits fun _ => rfl
  rw [if_neg h₅, if_neg h₅]
  by_cases h₆ : cstr k = ascii "md5sum"
  · rw [if_pos h₆, if_pos h₆]
    exact field_ends s_ne s_fits fun _ => rfl
  · rw [if_neg h₆, if_neg h₆]
    constructor
    · intro h
      refine ⟨?_, h⟩
      intro kind hkind
      cases hkind
    · intro h
      exact h.2

theorem topEntry_ends {SHA1 : List UInt8 → Vector UInt8 20} {heap : Mem}
    (hk : cstr k ≠ ascii "info") :
    Ends Thrown (topEntry SHA1 heap memblock st (some k, val)) (fun st => next st.2) ↔
      (∀ kind, topKind (cstr k) = some kind → kind.Fits val) ∧ next st.2 := by
  obtain ⟨«meta», size⟩ := st
  rw [topEntry, deref_some, ok_bind, topKind]
  dsimp only
  by_cases h₁ : cstr k = ascii "announce"
  · rw [if_pos h₁, if_pos h₁]
    exact field_ends s_ne s_fits fun _ => rfl
  rw [if_neg h₁, if_neg h₁]
  by_cases h₂ : cstr k = ascii "announce-list"
  · rw [if_pos h₂, if_pos h₂, ← bind_assoc]
    exact field_ends (bind_ne_error l_ne parse_list_list_ne) lists_fits fun _ => rfl
  rw [if_neg h₂, if_neg h₂]
  by_cases h₃ : cstr k = ascii "creation date"
  · rw [if_pos h₃, if_pos h₃]
    exact field_ends i_ne i_fits fun _ => rfl
  rw [if_neg h₃, if_neg h₃]
  by_cases h₄ : cstr k = ascii "created by"
  · rw [if_pos h₄, if_pos h₄]
    exact field_ends s_ne s_fits fun _ => rfl
  rw [if_neg h₄, if_neg h₄]
  by_cases h₅ : cstr k = ascii "comment"
  · rw [if_pos h₅, if_pos h₅]
    exact field_ends s_ne s_fits fun _ => rfl
  rw [if_neg h₅, if_neg h₅]
  by_cases h₆ : cstr k = ascii "encoding"
  · rw [if_pos h₆, if_pos h₆]
    exact field_ends s_ne s_fits fun _ => rfl
  · rw [if_neg h₆, if_neg h₆, if_neg hk, if_neg hk]
    constructor
    · intro h
      refine ⟨?_, h⟩
      intro kind hkind
      cases hkind
    · intro h
      exact h.2

/-! ### The keys that go back to the text -/

variable {SHA1 : List UInt8 → Vector UInt8 20} {heap : Mem} {size : Int}

/-- What starts with the text of the file throws for a negative size only. -/
theorem assign_bind_eq_badAlloc {α : Type} {f : List UInt8 → Except Fault α}
    (hf : ∀ s, f s ≠ .error .badAlloc) :
    (assign memblock size >>= f) = .error .badAlloc ↔ size < 0 := by
  rw [assign]
  by_cases hneg : size < 0
  · simp [hneg, bind, Except.bind]
  by_cases hlong : memblock.length < size
  · simp [hlong, hneg, bind, Except.bind]
  · simp [hlong, hneg, hf]

theorem numberAt_ne (pos : Nat) : numberAt memblock pos ≠ .error .badAlloc := by
  rw [numberAt]
  split
  · simp
  · simp

theorem pieceNumber_eq_badAlloc : pieceNumber memblock size = .error .badAlloc ↔ size < 0 :=
  assign_bind_eq_badAlloc fun _ => numberAt_ne _

theorem infoSize_eq_badAlloc : infoSize memblock size = .error .badAlloc ↔ size < 0 :=
  assign_bind_eq_badAlloc fun _ => bind_ne_error (numberAt_ne _) fun _ => pure_ne

theorem ends_iff_of_size {α : Type} {x : Except Fault α} {P : α → Prop}
    (h : x = .error .badAlloc ↔ size < 0) :
    Ends Thrown x P ↔ size < 0 ∨ ∃ a, x = .ok a ∧ P a := by
  cases x with
  | error e => simp [← h, Thrown]
  | ok a =>
    have hneg : ¬ size < 0 := by
      simp [← h]
    simp [hneg]

/-- The copies are inside a string that has the hashes. -/
theorem inside_iff {s : List UInt8} {n : Nat} :
    (∀ c ∈ hashCopies (.BE_STR (some s)) n, c.Inside) ↔ n * 20 ≤ s.length := by
  rw [hashCopies, be_node.s_BE_STR]
  dsimp only
  rw [List.forall_mem_map]
  constructor
  · intro h
    cases n with
    | zero => omega
    | succ n =>
      have hlast : n * 20 + 20 ≤ s.length := h n (List.mem_range.mpr (Nat.lt_succ_self n))
      omega
  · intro h k hk
    have := List.mem_range.mp hk
    show k * 20 + 20 ≤ s.length
    omega

theorem hashCopies_zero : hashCopies val 0 = [] := by
  rw [hashCopies]
  cases val.s with
  | error e => rfl
  | ok s => rfl

/-- The loop over the hashes. -/
theorem piecesLoop_ends {n : Nat} {acc : List (List UInt8)} {P : Prop} :
    (∀ c ∈ hashCopies val n, c.Inside) ∧ Ends Thrown (piecesLoop val 0 n acc) (fun _ => P) ↔
      HasHashes val n ∧ P := by
  cases n with
  | zero =>
    rw [hashCopies_zero]
    constructor
    · intro h
      exact ⟨.inl rfl, h.2⟩
    · intro h
      exact ⟨by simp, h.2⟩
  | succ n =>
    cases hs : val.s with
    | error e =>
      have hloop : piecesLoop val 0 (n + 1) acc = .error e := by
        rw [piecesLoop, hs]
        rfl
      rw [hloop]
      constructor
      · intro h
        have he : e = .badAlloc := h.2
        exact absurd (he ▸ hs) s_ne
      · intro h
        rcases h.1 with h0 | ⟨s, rfl, -⟩
        · cases h0
        · cases hs
    | ok s =>
      obtain rfl := be_node.s_eq_ok.mp hs
      have hhas : HasHashes (.BE_STR (some s)) (n + 1) ↔ (n + 1) * 20 ≤ s.length := by
        simp [HasHashes]
      rw [inside_iff, hhas]
      refine and_congr_right fun hle => ?_
      obtain ⟨ps, hps, -⟩ : ∃ ps, piecesLoop (node (.str s)) 0 (n + 1) acc = .ok ps ∧ _ :=
        piecesLoop_of_le acc (by omega)
      rw [show piecesLoop (.BE_STR (some s)) 0 (n + 1) acc = .ok ps from hps]
      rfl

/-- **The key `pieces`.** -/
theorem piecesEntry_ends (hk : cstr k = ascii "pieces") :
    (∀ c ∈ infoCopies memblock st.2 (some k, val), c.Inside) ∧
        Ends Thrown (infoEntry memblock st (some k, val)) (fun st => next st.2) ↔
      PiecesReadable memblock st.2 val next := by
  obtain ⟨«meta», size⟩ := st
  have hentry : infoEntry memblock («meta», size) (some k, val) =
      (pieceNumber memblock size >>= fun n =>
        piecesLoop val 0 (rounds n) «meta».pieces >>= fun pieces =>
          pure ({ «meta» with pieces }, n.toInt)) := by
    rw [infoEntry, deref_some, ok_bind, pieceNumber, bind_assoc]
    dsimp only
    rw [hk, if_neg (by decide), if_pos rfl]
    rfl
  rw [hentry, PiecesReadable, infoCopies, if_pos (by rw [Option.map_some, hk]), ends_bind,
    ends_iff_of_size pieceNumber_eq_badAlloc]
  cases hnumber : pieceNumber memblock size with
  | error e => simp
  | ok n =>
    have hneg : ¬ size < 0 := by
      rw [← pieceNumber_eq_badAlloc, hnumber]
      exact pure_ne
    have hloop : (∀ c ∈ hashCopies val (rounds n), c.Inside) ∧
        Ends Thrown (piecesLoop val 0 (rounds n) «meta».pieces) (fun _ => next n.toInt) ↔
          HasHashes val (rounds n) ∧ next n.toInt := piecesLoop_ends
    simp only [hneg, false_or, Except.ok.injEq, exists_eq_left', ends_bind]
    exact hloop

/-- **The loop over the info dictionary.** -/
theorem readsEntries_info : ReadsEntries (ascii "pieces") infoKind (PiecesReadable memblock)
    (infoEntry memblock) (fun st e => infoCopies memblock st.2 e) where
  null _ _ := rfl
  at_word _ _ _ _ hk := piecesEntry_ends hk
  no_copies _ k _ hk := if_neg (by simpa using hk)
  other _ _ _ _ hk := infoEntry_ends hk

/-- The loop behind the hash. -/
theorem hashedLoop_ends {«meta» : Metafile} :
    (∀ c ∈ loopCopies memblock («meta», size) val, c.Inside) ∧
        Ends Thrown (val.d >>= fun d => d.foldlM (infoEntry memblock) («meta», size))
          (fun st => next st.2) ↔
      ∃ d, val = .BE_DICT d ∧ InfoReadable memblock next size d := by
  cases hd : val.d with
  | error e =>
    constructor
    · intro h
      have he : e = .badAlloc := h.2
      exact absurd (he ▸ hd) d_ne
    · intro h
      obtain ⟨d, rfl, -⟩ := h
      cases hd
  | ok d =>
    obtain rfl := be_node.d_eq_ok.mp hd
    refine (readsEntries_info.loop next d).trans ?_
    constructor
    · intro h
      exact ⟨d, rfl, h⟩
    · intro h
      obtain ⟨d', heq, hread⟩ := h
      obtain rfl := be_node.BE_DICT.inj heq
      exact hread

/-- The hash. -/
theorem infoHash_ends (SHA1 : List UInt8 → Vector UInt8 20) (heap : Mem) {P : Prop} :
    Ends Thrown (infoHash SHA1 heap memblock size val) (fun _ => P) ↔
      size < 0 ∨ ∃ info_size, infoSize memblock size = .ok info_size ∧
        (info_size.toInt < 0 ∨ (∃ w, be_encode val info_size.toInt.toNat = .ok w) ∧ P) := by
  rw [infoHash, ends_bind, ends_iff_of_size infoSize_eq_badAlloc]
  refine or_congr_right (exists_congr fun info_size => and_congr_right fun _ => ?_)
  by_cases hneg : info_size.toInt < 0
  · rw [if_pos hneg]
    exact ⟨fun _ => .inl hneg, fun _ => rfl⟩
  · rw [if_neg hneg, ends_bind, ends_iff (be_encode_ne _ _), or_iff_right hneg]
    exact exists_and_right

/-- **The key `info`.** -/
theorem infoValue_ends (hk : cstr k = ascii "info") :
    (∀ c ∈ topCopies SHA1 heap memblock st (some k, val), c.Inside) ∧
        Ends Thrown (topEntry SHA1 heap memblock st (some k, val)) (fun st => next st.2) ↔
      InfoValueReadable memblock st.2 val next := by
  obtain ⟨«meta», size⟩ := st
  have hentry : topEntry SHA1 heap memblock («meta», size) (some k, val) =
      (infoHash SHA1 heap memblock size val >>= fun info_hash =>
        val.d >>= fun d => d.foldlM (infoEntry memblock) ({ «meta» with info_hash }, size)) := by
    rw [topEntry, deref_some, ok_bind]
    dsimp only
    rw [hk, if_neg (by decide), if_neg (by decide), if_neg (by decide), if_neg (by decide),
      if_neg (by decide), if_neg (by decide), if_pos rfl]
  rw [hentry, InfoValueReadable, ← infoHash_ends SHA1 heap, topCopies,
    if_pos (by rw [Option.map_some, hk]), ends_bind]
  cases hhash : infoHash SHA1 heap memblock size val with
  | error e => simp
  | ok info_hash => exact hashedLoop_ends

/-- **The loop over the dictionary of the file.** -/
theorem readsEntries_top : ReadsEntries (ascii "info") topKind (InfoValueReadable memblock)
    (topEntry SHA1 heap memblock) (topCopies SHA1 heap memblock) where
  null _ _ := rfl
  at_word _ _ _ _ hk := infoValue_ends hk
  no_copies _ k _ hk := if_neg (by simpa using hk)
  other _ _ _ _ hk := topEntry_ends hk

end Entries

/-! ## Files that are read safely -/

/-- The file decodes to a dictionary that can be read. -/
def Readable (memblock : List UInt8) (be_decoden : List UInt8 → Option be_node) : Prop :=
  ∃ d, be_decoden memblock = some (.BE_DICT d) ∧ TopReadable memblock memblock.length d

section Root
variable {SHA1 : List UInt8 → Vector UInt8 20} {heap : Mem} {memblock : List UInt8}
  {be_decoden : List UInt8 → Option be_node} {stale : Metafile}

/-- A run that does not go wrong at the root has found a dictionary there. -/
theorem dict_of_ends
    (h : Ends Thrown (create_metafile SHA1 heap memblock be_decoden stale) fun _ => True) :
    ∃ d, be_decoden memblock = some (.BE_DICT d) := by
  rw [create_metafile] at h
  cases hdec : be_decoden memblock with
  | none =>
    rw [hdec] at h
    cases h
  | some n =>
    rw [hdec] at h
    dsimp only at h
    rw [ends_bind, ends_iff d_ne] at h
    obtain ⟨d, hd, -⟩ := h
    exact ⟨d, congrArg some (be_node.d_eq_ok.mp hd)⟩

/-- From the dictionary on, the run is the loop over it. -/
theorem safelyRead_dict_iff {d : List (Option (List UInt8) × be_node)}
    (hdec : be_decoden memblock = some (.BE_DICT d)) :
    SafelyRead SHA1 heap memblock be_decoden stale ↔ TopReadable memblock memblock.length d := by
  have hcopies : copies SHA1 heap memblock be_decoden stale =
      (reached (topEntry SHA1 heap memblock) (stale.new, (memblock.length : Int)) d).flatMap
        fun p => topCopies SHA1 heap memblock p.1 p.2 := by
    rw [copies, hdec]
  have hends : Ends Thrown (create_metafile SHA1 heap memblock be_decoden stale)
      (fun _ => True) ↔ Ends Thrown (d.foldlM (topEntry SHA1 heap memblock)
        (stale.new, (memblock.length : Int))) fun _ => True := by
    rw [create_metafile, hdec]
    dsimp only
    rw [be_node.d_BE_DICT, ok_bind, ends_bind]
    rfl
  have hloop : (∀ c ∈ copies SHA1 heap memblock be_decoden stale, c.Inside) ∧
      Ends Thrown (d.foldlM (topEntry SHA1 heap memblock) (stale.new, (memblock.length : Int)))
        (fun _ => True) ↔ TopReadable memblock memblock.length d := by
    rw [hcopies]
    exact readsEntries_top.loop (fun _ => True) d
  rw [← hloop, ← hends]
  constructor
  · intro h
    exact ⟨h.inside, h.ends⟩
  · intro h
    exact ⟨h.2, h.1⟩

end Root

/-- **Exactly when a file is read safely.** -/
theorem safelyRead_iff (SHA1 : List UInt8 → Vector UInt8 20) (heap : Mem) (memblock : List UInt8)
    (be_decoden : List UInt8 → Option be_node) (stale : Metafile) :
    SafelyRead SHA1 heap memblock be_decoden stale ↔ Readable memblock be_decoden := by
  constructor
  · intro h
    obtain ⟨d, hdec⟩ := dict_of_ends h.ends
    exact ⟨d, hdec, (safelyRead_dict_iff hdec).mp h⟩
  · intro h
    obtain ⟨d, hdec, hread⟩ := h
    exact (safelyRead_dict_iff hdec).mpr hread

/-! ### Torrent files -/

/-- A value of the right type has a tree that can be read. -/
theorem fits_of_holds {kind : Kind} {v : Value} (h : kind.Holds v) : kind.Fits (node v) := by
  cases kind with
  | files =>
    obtain ⟨l, rfl, hall⟩ := h
    refine ⟨nodes l, rfl, ?_⟩
    rw [nodes_eq_map, List.forall_mem_map]
    intro w hw
    obtain ⟨d, rfl, htyped⟩ := hall w hw
    exact ⟨entries d, rfl, entriesFit_iff.mpr htyped⟩
  | str => exact fitsFlat_node.mpr (show Kind.str.HoldsFlat v from h)
  | int => exact fitsFlat_node.mpr (show Kind.int.HoldsFlat v from h)
  | path => exact fitsFlat_node.mpr (show Kind.path.HoldsFlat v from h)
  | lists => exact fitsFlat_node.mpr (show Kind.lists.HoldsFlat v from h)
  | dict => exact fitsFlat_node.mpr (show Kind.dict.HoldsFlat v from h)

theorem entryFits_of_typed {kindOf : List UInt8 → Option Kind} {k : List UInt8} {v : Value}
    (h : ∀ kind, kindOf (cstr k) = some kind → kind.Holds v) :
    EntryFits kindOf Kind.Fits (some k, node v) :=
  ⟨k, rfl, fun kind hkind => fits_of_holds (h kind hkind)⟩

/-- Entries in front of the key. -/
theorem entriesReadable_skip {word : List UInt8} {kindOf : List UInt8 → Option Kind}
    {atWord : Int → be_node → (Int → Prop) → Prop} {next : Int → Prop} {size : Int}
    {before : List (List UInt8 × Value)} {rest : List (Option (List UInt8) × be_node)}
    (htyped : Typed kindOf Kind.Holds before) (hne : ∀ e ∈ before, cstr e.1 ≠ word) :
    EntriesReadable word kindOf atWord next size (entries before ++ rest) ↔
      EntriesReadable word kindOf atWord next size rest := by
  induction before with
  | nil => rfl
  | cons e before ih =>
    obtain ⟨k, v⟩ := e
    rw [List.forall_mem_cons] at hne
    have hkey : ¬ (some k).map cstr = some word := by simpa using hne.1
    have hfits : EntryFits kindOf Kind.Fits (some k, node v) :=
      entryFits_of_typed (htyped k v List.mem_cons_self)
    rw [entries, List.cons_append, EntriesReadable, if_neg hkey, and_iff_right hfits]
    exact ih (fun k v hmem => htyped k v (List.mem_cons_of_mem _ hmem)) hne.2

/-- A dictionary in which the key stands once. -/
theorem entriesReadable_of_mem {word : List UInt8} {kindOf : List UInt8 → Option Kind}
    {atWord : Int → be_node → (Int → Prop) → Prop} {next : Int → Prop} {size : Int}
    {d : List (List UInt8 × Value)} {v : Value} (hword : cstr word = word)
    (hnodup : (d.map Prod.fst).Nodup) (halone : ReadsAlone word d) (hmem : (word, v) ∈ d)
    (htyped : Typed kindOf Kind.Holds d) :
    ∃ rest, (∀ size, next size → EntriesReadable word kindOf atWord next size rest) ∧
      (EntriesReadable word kindOf atWord next size (entries d) ↔
        atWord size (node v) fun size => EntriesReadable word kindOf atWord next size rest) := by
  obtain ⟨before, after, rfl, hother⟩ := split_of_mem hnodup halone hmem
  have hbefore : Typed kindOf Kind.Holds before := fun k v hmem =>
    htyped k v (List.mem_append_left _ hmem)
  have hafter : Typed kindOf Kind.Holds after := fun k v hmem =>
    htyped k v (List.mem_append_right _ (List.mem_cons_of_mem _ hmem))
  refine ⟨entries after, ?_, ?_⟩
  · intro size hnext
    rw [← List.append_nil (entries after), entriesReadable_skip hafter fun e he =>
      hother e (List.mem_append_right _ he)]
    exact hnext
  · rw [entries_append, entriesReadable_skip hbefore fun e he =>
      hother e (List.mem_append_left _ he), EntriesReadable]
    dsimp only
    rw [if_pos (by rw [Option.map_some, hword])]

namespace TorrentFile
variable {f : TorrentFile} {p q : Nat} {n : Int32} {next : Int → Prop}

theorem pieceNumber_of_found (h : f.Found p q n) :
    pieceNumber f.text f.text.length = .ok n := by
  rw [pieceNumber, assign_text, ok_bind]
  exact (numberAt_eq_ok h.1 h.2.1).mpr h

/-- The info dictionary can be read if the pieces string has the hashes. -/
theorem infoReadable (h : f.Found p q n) (hlen : rounds n * 20 ≤ f.pieces.length)
    (hnext : next n.toInt) : InfoReadable f.text next f.text.length (entries f.info) := by
  obtain ⟨rest, hrest, hiff⟩ :=
    entriesReadable_of_mem (by decide) f.info_nodup f.pieces_alone f.has_pieces f.info_typed
  refine hiff.mpr (.inr ⟨n, pieceNumber_of_found h, .inr ⟨f.pieces, rfl, hlen⟩, ?_⟩)
  exact hrest n.toInt hnext

/-- **A torrent file is read safely** if its pieces string has as many whole hashes as the
number found behind the first `pieces` says. -/
theorem readable (h : f.Found p q n) (hlen : rounds n * 20 ≤ f.pieces.length)
    {be_decoden : List UInt8 → Option be_node}
    (hdec : be_decoden f.text = some (node (.dict f.dict))) : Readable f.text be_decoden := by
  obtain ⟨rest, hrest, hiff⟩ :=
    entriesReadable_of_mem (by decide) f.nodup f.info_alone f.has_info f.typed
  refine ⟨entries f.dict, hdec, hiff.mpr ?_⟩
  refine .inr ⟨_, infoSize_of_found h, .inr ⟨be_encode_total (.dict f.info) _, ?_⟩⟩
  exact ⟨entries f.info, rfl, infoReadable h hlen (hrest n.toInt trivial)⟩

end TorrentFile

/-- The empty file: the null pointer is dereferenced. -/
theorem not_safelyRead_empty :
    ¬ ∃ SHA1 heap stale, SafelyRead SHA1 heap [] decoder stale := by
  intro h
  obtain ⟨SHA1, heap, stale, h⟩ := h
  cases h.ends

end TorrentClient
