import Mathlib
import TorrentProof.MetafileRun

/-! # The info hash and the piece hashes

Both depend on a number and on positions read off the text of the file.  With `p` and
`q` the first places of the words `pieces` and `info`, and `n` the number behind the
former, the info dictionary is taken to be `p - q + n + 9` bytes long and the pieces
string to hold `n / 20` hashes.  `hashed_iff_measured` says for which files the former is
right, `counted_of_create_metafile` and `create_metafile_of_counted` for which the latter.
-/
namespace TorrentClient
open Bytes Bencode CText Decimal Fallible

namespace TorrentFile
variable (f : TorrentFile)

/-- The first `pieces` of the file is at `p`, the first `info` at `q`, and behind the
former is the number `n`. -/
def Found (p q : Nat) (n : Int32) : Prop :=
  find (ascii "pieces") f.text = some p ∧ find (ascii "info") f.text = some q ∧
    atoi (f.text.drop (p + 6)) = some n

/-- The word `info` is in the file, and so is `pieces`. -/
theorem exists_find : (∃ p, find (ascii "pieces") f.text = some p) ∧
    ∃ q, find (ascii "info") f.text = some q := by
  have hinfo : encodeStr (ascii "info") ++ encode (.dict f.info) <:+: f.text :=
    (entry_infix_of_mem f.has_info).trans (infix_encodeDict f.dict)
  have hpieces : encodeStr (ascii "pieces") ++ encode (.str f.pieces) <:+: encode (.dict f.info) :=
    (entry_infix_of_mem f.has_pieces).trans (infix_encodeDict f.info)
  constructor
  · refine Option.isSome_iff_exists.mp (find_isSome ?_)
    refine (infix_encodeStr _).trans ((List.prefix_append _ _).isInfix.trans (hpieces.trans ?_))
    exact (List.suffix_append _ _).isInfix.trans hinfo
  · refine Option.isSome_iff_exists.mp (find_isSome ?_)
    exact (infix_encodeStr _).trans ((List.prefix_append _ _).isInfix.trans hinfo)

/-- `info_size` is computed modulo 2 ^ 32. -/
theorem ofInt_infoSize (p q : Nat) (n : Int) :
    Int32.ofInt (((p + 6 : Nat) : Int) - (Int32.ofNat (q + 4)).toInt + n + 7) =
      Int32.ofInt (p - q + n + 9) := by
  have hq : Int32.ofInt (Int32.ofNat (q + 4)).toInt = Int32.ofInt (q + 4 : Nat) := by
    rw [Int32.ofInt_toInt, Int32.ofInt_eq_ofNat]
  rw [Int32.ofInt_add, Int32.ofInt_add, Int32.ofInt_sub, hq, ← Int32.ofInt_sub,
    ← Int32.ofInt_add, ← Int32.ofInt_add]
  refine congrArg Int32.ofInt ?_
  push_cast
  omega

variable {f}

theorem numberAt_eq_ok {p q : Nat} {n : Int32} (hp : find (ascii "pieces") f.text = some p)
    (hq : find (ascii "info") f.text = some q) :
    numberAt f.text (endOf (ascii "pieces") f.text) = .ok n ↔ f.Found p q n := by
  rw [endOf, hp]
  dsimp only
  rw [show (ascii "pieces").length = 6 from rfl, numberAt]
  constructor
  · intro h
    refine ⟨hp, hq, ?_⟩
    split at h
    · cases h
    next m hm => exact hm.trans (congrArg some (Except.ok.inj h))
  · rintro ⟨-, -, hn⟩
    rw [hn]

theorem infoSize_of_found {p q : Nat} {n : Int32} (h : f.Found p q n) :
    infoSize f.text f.text.length = .ok (Int32.ofInt (p - q + n.toInt + 9)) := by
  have hn := (numberAt_eq_ok h.1 h.2.1).mpr h
  rw [infoSize, assign_text, ok_bind]
  dsimp only
  rw [hn, ok_bind, ← ofInt_infoSize, endOf, h.1, endOf, h.2.1]
  rfl

end TorrentFile

/-! ## The loop over the hashes -/

theorem piecesLoop_succ (s : List UInt8) (k n : Nat) (acc : List (List UInt8)) :
    piecesLoop (node (.str s)) k (n + 1) acc =
      if s.length + 1 < k * 20 + 20 then .error .outOfBounds
      else piecesLoop (node (.str s)) (k + 1) n (acc ++ [((s ++ [0]).drop (k * 20)).take 20]) := by
  rw [piecesLoop, node, be_node.s_BE_STR, ok_bind]
  by_cases h : s.length + 1 < k * 20 + 20
  · rw [if_pos h, if_pos h]
    rfl
  · rw [if_neg h, if_neg h]

theorem piecesLoop_of_le {s : List UInt8} {k n : Nat} (acc : List (List UInt8))
    (h : (k + n) * 20 ≤ s.length + 1) : ∃ ps, piecesLoop (node (.str s)) k n acc = .ok ps ∧
      ps = acc ++ (List.range n).map fun j => ((s ++ [0]).drop ((k + j) * 20)).take 20 := by
  induction n generalizing k acc with
  | zero => exact ⟨acc, rfl, by simp⟩
  | succ n ih =>
    obtain ⟨ps, hps, rfl⟩ := ih (k := k + 1) (acc ++ [((s ++ [0]).drop (k * 20)).take 20])
      (by omega)
    refine ⟨_, by rw [piecesLoop_succ, if_neg (by omega), hps], ?_⟩
    rw [List.range_succ_eq_map, List.map_cons, List.map_map, List.append_assoc]
    refine congrArg (acc ++ ·) (congrArg₂ List.cons (by rw [Nat.add_zero]) ?_)
    apply List.map_congr_left
    intro j _
    rw [Function.comp_apply, Nat.succ_eq_add_one, show k + 1 + j = k + (j + 1) from by omega]

/-- A round behind the end of the string does not succeed. -/
theorem le_of_piecesLoop {s : List UInt8} {k n : Nat} {acc ps : List (List UInt8)}
    (h : piecesLoop (node (.str s)) k n acc = .ok ps) (hn : n ≠ 0) :
    (k + n) * 20 ≤ s.length + 1 := by
  induction n generalizing k acc with
  | zero => exact absurd rfl hn
  | succ n ih =>
    rw [piecesLoop_succ] at h
    split at h
    · cases h
    next hlt =>
      by_cases h0 : n = 0
      · subst h0
        omega
      · have := ih h h0
        omega

theorem length_of_piecesLoop {s : List UInt8} {k n : Nat} {acc ps : List (List UInt8)}
    (h : piecesLoop (node (.str s)) k n acc = .ok ps) : ps.length = acc.length + n := by
  induction n generalizing k acc with
  | zero =>
    obtain rfl := Except.ok.inj h
    rfl
  | succ n ih =>
    rw [piecesLoop_succ] at h
    split at h
    · cases h
    · rw [ih h, List.length_append, List.length_singleton]
      omega

/-! ## The run, in terms of what is found -/

section Run
variable (f : TorrentFile) {be_decoden : List UInt8 → Option be_node}
  (hdec : be_decoden f.text = some (node (.dict f.dict)))
include hdec

/-- With what is found in the text, a run succeeds when the size is not negative and
the hashes asked for are in the string. -/
theorem create_metafile_found_iff {p q : Nat} {n : Int32} (h : f.Found p q n)
    (SHA1 : List UInt8 → Vector UInt8 20) (heap : Mem) (stale : Metafile)
    (Q : Vector UInt8 20 → List (List UInt8) → Prop) :
    (∃ m, create_metafile SHA1 heap f.text be_decoden stale = .ok m ∧ Q m.info_hash m.pieces) ↔
      0 ≤ (Int32.ofInt (p - q + n.toInt + 9)).toInt ∧ ∃ w ps,
        be_encode (node (.dict f.info)) (Int32.ofInt (p - q + n.toInt + 9)).toInt.toNat = .ok w ∧
        piecesLoop (node (.str f.pieces)) 0 (n.toInt.tdiv 20).toNat [] = .ok ps ∧
        Q (SHA1 (w.bytes ++ heap.slice w.bytes.length
          ((Int32.ofInt (p - q + n.toInt + 9)).toInt.toNat - w.bytes.length))) ps := by
  rw [create_metafile_iff f hdec stale Q]
  have hsize := TorrentFile.infoSize_of_found h
  constructor
  · rintro ⟨hash, n', ps, hhash, hn', hloop, hQ⟩
    have hfound := (TorrentFile.numberAt_eq_ok h.1 h.2.1).mp hn'
    obtain rfl := Option.some.inj (h.2.2.symm.trans hfound.2.2)
    rw [infoHash, hsize, ok_bind] at hhash
    split at hhash
    · cases hhash
    next hneg =>
      obtain ⟨w, hw, hhash⟩ := bind_eq_ok.mp hhash
      obtain rfl := Except.ok.inj hhash
      exact ⟨by omega, w, ps, hw, hloop, hQ⟩
  · rintro ⟨h0, w, ps, hw, hloop, hQ⟩
    refine ⟨_, n, ps, ?_, (TorrentFile.numberAt_eq_ok h.1 h.2.1).mpr h, hloop, hQ⟩
    rw [infoHash, hsize, ok_bind, if_neg (by omega)]
    exact bind_eq_ok.mpr ⟨w, hw, rfl⟩

/-- A run that succeeds has found its words and its number. -/
theorem found_of_create_metafile {SHA1 : List UInt8 → Vector UInt8 20} {heap : Mem}
    {stale m : Metafile} (hm : create_metafile SHA1 heap f.text be_decoden stale = .ok m) :
    ∃ p q n, f.Found p q n := by
  obtain ⟨⟨p, hp⟩, q, hq⟩ := f.exists_find
  obtain ⟨-, n, -, -, hn, -⟩ :=
    (create_metafile_iff f hdec stale fun _ _ => True).mp ⟨m, hm, trivial⟩
  exact ⟨p, q, n, (TorrentFile.numberAt_eq_ok hp hq).mp hn⟩

end Run

/-! ## The info hash -/

/-- A metafile that holds nothing. -/
instance : Inhabited Metafile where
  default := ⟨[], [], [], [], [], [], [], [], [], 0, 0, 0, 0, Vector.replicate 20 0⟩

namespace TorrentFile
variable (f : TorrentFile)

/-- **The info dictionary is hashed**: whatever the hash function, and whatever memory
held before, the hash is that of the bytes of the info value. -/
def Hashed (be_decoden : List UInt8 → Option be_node) : Prop :=
  ∀ SHA1 heap stale, ∃ m, create_metafile SHA1 heap f.text be_decoden stale = .ok m ∧
    m.info_hash = SHA1 f.infoText

/-- The computed size is that of the info value, and the number in the text asks for no
hash behind the end of the pieces string. -/
def Measured : Prop :=
  ∃ p q n, f.Found p q n ∧ (Int32.ofInt (p - q + n.toInt + 9)).toInt = f.infoText.length ∧
    (n.toInt.tdiv 20).toNat * 20 ≤ f.pieces.length + 1

theorem zeros_ne_ones : Vector.replicate 20 (0 : UInt8) ≠ Vector.replicate 20 1 := by decide

variable {f} {be_decoden : List UInt8 → Option be_node}
  (hdec : be_decoden f.text = some (node (.dict f.dict)))
include hdec

theorem measured_of_hashed (h : f.Hashed be_decoden) : f.Measured := by
  -- a hash function that tells the info value from everything else
  obtain ⟨m, hm, hhash⟩ := h
    (fun bs => if bs = f.infoText then Vector.replicate 20 1 else Vector.replicate 20 0)
    (fun _ => 0) default
  obtain ⟨p, q, n, hfound⟩ := found_of_create_metafile f hdec hm
  refine ⟨p, q, n, hfound, ?_⟩
  obtain ⟨h0, w, ps, hw, hloop, hQ⟩ := (create_metafile_found_iff f hdec hfound _ _ _
    fun hash _ => hash = _).mp ⟨m, hm, hhash⟩
  constructor
  · rw [if_pos rfl] at hQ
    split at hQ
    next heq =>
      have hlen := congrArg List.length heq
      have hle := (be_encode_fits hw).bytes_le
      rw [List.length_append, Mem.slice_length] at hlen
      omega
    · exact absurd hQ zeros_ne_ones
  · by_cases hz : (n.toInt.tdiv 20).toNat = 0
    · omega
    · have := le_of_piecesLoop hloop hz
      omega

theorem hashed_of_measured (h : f.Measured) : f.Hashed be_decoden := by
  obtain ⟨p, q, n, hfound, hsize, hcount⟩ := h
  intro SHA1 heap stale
  refine (create_metafile_found_iff f hdec hfound SHA1 heap stale fun hash _ =>
    hash = SHA1 f.infoText).mpr ⟨by omega, ?_⟩
  obtain ⟨ps, hps, -⟩ := piecesLoop_of_le (s := f.pieces) (k := 0)
    (n := (n.toInt.tdiv 20).toNat) [] (by omega)
  have hlen : (encode (.dict f.info)).length = f.infoText.length := rfl
  have hint := Int32.toInt_lt (Int32.ofInt (p - q + n.toInt + 9))
  have hrest : (Int32.ofInt (p - q + n.toInt + 9)).toInt.toNat -
      (encode (.dict f.info)).length = 0 := by
    omega
  refine ⟨_, ps, be_encode_node (.dict f.info) (by omega) (by omega), hps, ?_⟩
  rw [hrest, Mem.slice_zero, List.append_nil]
  rfl

/-- **Exactly which files have their info dictionary hashed.** -/
theorem hashed_iff_measured : f.Hashed be_decoden ↔ f.Measured :=
  ⟨measured_of_hashed hdec, hashed_of_measured hdec⟩

omit hdec

/-- A file with an announce string and a pieces string. -/
def announcing (announce pieces : List UInt8) : TorrentFile where
  dict := [(ascii "announce", .str announce), (ascii "info", .dict [(ascii "pieces", .str pieces)])]
  info := [(ascii "pieces", .str pieces)]
  pieces := pieces
  has_info := List.mem_cons_of_mem _ List.mem_cons_self
  has_pieces := List.mem_cons_self
  nodup := show [ascii "announce", ascii "info"].Nodup by decide
  info_nodup := List.nodup_singleton _
  info_alone := by simp [ReadsAlone, ascii, cstr]
  pieces_alone := by simp [ReadsAlone]
  typed := by
    intro k v h kind hkind
    simp only [List.mem_cons, List.not_mem_nil, or_false, Prod.mk.injEq] at h
    rcases h with ⟨rfl, rfl⟩ | ⟨rfl, rfl⟩
    · obtain rfl := Option.some.inj hkind
      exact ⟨_, rfl⟩
    · obtain rfl := Option.some.inj hkind
      exact ⟨_, rfl⟩
  info_typed := by
    intro k v h kind hkind
    simp only [List.mem_cons, List.not_mem_nil, or_false, Prod.mk.injEq] at h
    obtain ⟨rfl, rfl⟩ := h
    obtain rfl := Option.some.inj hkind
    exact ⟨_, rfl⟩

/-- The decoder of the grammar reads a file. -/
theorem decoder_text (f : TorrentFile) : decoder f.text = some (node (.dict f.dict)) := by
  have := grammatical_decoder.1 (.dict f.dict) []
  rwa [List.append_nil] at this

/-- The number behind `pieces` in the announce string happens to make the size right. -/
theorem hashed_announcing_pieces :
    (announcing (ascii "pieces14x") []).Hashed decoder :=
  (hashed_iff_measured (decoder_text _)).mpr
    ⟨13, 24, 14, by unfold Found; decide, by decide, by decide⟩

/-- One hash, behind a length of two digits. -/
theorem not_hashed_one_hash :
    ¬ (announcing [] (List.replicate 20 0)).Hashed decoder := by
  intro h
  obtain ⟨p, q, n, ⟨hp, hq, hn⟩, hsize, -⟩ := measured_of_hashed (decoder_text _) h
  obtain rfl : 22 = p := Option.some.inj (.trans (by decide) hp)
  obtain rfl : 15 = q := Option.some.inj (.trans (by decide) hq)
  obtain rfl : (20 : Int32) = n := Option.some.inj (.trans (by decide) hn)
  exact absurd hsize (by decide)

/-! ## The piece hashes -/

/-- A list of the 20-byte sections of a string. -/
structure Sections (s : List UInt8) (ps : List (List UInt8)) : Prop where
  count : ps.length = s.length / 20
  length : ∀ p ∈ ps, p.length = 20
  flatten : ps.flatten = s

variable (f) in
/-- The number in the text asks for as many hashes as the pieces string holds, and the
size computed from it is one to allocate. -/
def Counted : Prop :=
  ∃ p q n, f.Found p q n ∧ (n.toInt.tdiv 20).toNat = f.pieces.length / 20 ∧
    0 ≤ (Int32.ofInt (p - q + n.toInt + 9)).toInt

/-- The sections of a string, put together. -/
theorem flatten_sections {n : Nat} {s : List UInt8} (h : s.length = n * 20) :
    ((List.range n).map fun j => (s.drop (j * 20)).take 20).flatten = s := by
  induction n generalizing s with
  | zero => exact (List.eq_nil_of_length_eq_zero (by omega)).symm
  | succ n ih =>
    rw [List.range_succ_eq_map, List.map_cons, List.map_map, List.flatten_cons, Nat.zero_mul,
      List.drop_zero]
    have htail := ih (s := s.drop 20) (by rw [List.length_drop]; omega)
    rw [List.map_congr_left (g := fun j => ((s.drop 20).drop (j * 20)).take 20)]
    · rw [htail, List.take_append_drop]
    · intro j _
      rw [Function.comp_apply, List.drop_drop, Nat.succ_eq_add_one,
        show 20 + j * 20 = (j + 1) * 20 from by omega]

/-- A section inside a string is not the one with the terminating zero. -/
theorem section_append_zero {s : List UInt8} {j : Nat} (h : j * 20 + 20 ≤ s.length) :
    ((s ++ [0]).drop (j * 20)).take 20 = (s.drop (j * 20)).take 20 := by
  rw [List.drop_append_of_le_length (by omega), List.take_append_of_le_length]
  rw [List.length_drop]
  omega

/-- The sections of a string of whole hashes are the hashes. -/
theorem sections_of_eq {s : List UInt8} {ps : List (List UInt8)} (hwhole : s.length % 20 = 0)
    (hps : ps = (List.range (s.length / 20)).map fun j => (s.drop (j * 20)).take 20) :
    Sections s ps := by
  subst hps
  refine ⟨by rw [List.length_map, List.length_range], ?_, flatten_sections (by omega)⟩
  intro p hp
  obtain ⟨j, hj, rfl⟩ := List.mem_map.mp hp
  have := List.mem_range.mp hj
  rw [List.length_take, List.length_drop]
  omega

section Sections
variable (SHA1 : List UInt8 → Vector UInt8 20) (heap : Mem) (stale : Metafile)
include hdec

/-- A run that lists as many hashes as there are has found their number. -/
theorem counted_of_create_metafile {m : Metafile}
    (hm : create_metafile SHA1 heap f.text be_decoden stale = .ok m)
    (hlen : m.pieces.length = f.pieces.length / 20) : f.Counted := by
  obtain ⟨p, q, n, hfound⟩ := found_of_create_metafile f hdec hm
  obtain ⟨h0, w, ps, -, hloop, hQ⟩ := (create_metafile_found_iff f hdec hfound SHA1 heap stale
    fun _ ps => ps.length = f.pieces.length / 20).mp ⟨m, hm, hlen⟩
  have := length_of_piecesLoop hloop
  rw [List.length_nil] at this
  exact ⟨p, q, n, hfound, by omega, h0⟩

/-- With the right number the hashes are listed. -/
theorem create_metafile_of_counted (hwhole : f.pieces.length % 20 = 0) (h : f.Counted) :
    ∃ m, create_metafile SHA1 heap f.text be_decoden stale = .ok m ∧
      Sections f.pieces m.pieces := by
  obtain ⟨p, q, n, hfound, hcount, h0⟩ := h
  refine (create_metafile_found_iff f hdec hfound SHA1 heap stale fun _ ps =>
    Sections f.pieces ps).mpr ⟨h0, ?_⟩
  obtain ⟨w, hw⟩ := be_encode_total (.dict f.info) (Int32.ofInt (p - q + n.toInt + 9)).toInt.toNat
  obtain ⟨ps, hloop, hps⟩ := piecesLoop_of_le (s := f.pieces) (k := 0)
    (n := (n.toInt.tdiv 20).toNat) [] (by omega)
  refine ⟨w, ps, hw, hloop, sections_of_eq hwhole ?_⟩
  rw [hps, hcount, List.nil_append]
  apply List.map_congr_left
  intro j hj
  have := List.mem_range.mp hj
  rw [Nat.zero_add, section_append_zero (by omega)]

end Sections

end TorrentFile

end TorrentClient
