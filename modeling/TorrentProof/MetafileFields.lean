import Mathlib
import TorrentProof.MetafileInfo

/-! # The integers of the metafile

`create_metafile` stores four integers of the file in fields of 32 bits: `length`,
`piece_length` and `private_field` from the info dictionary, and `creation_date`.  Two of
the fields have no initializer.  What each of them holds after a run follows from the last
entry that is read as its key (`Final`), and with that `integersOf_iff` says when the fields are
the integers of the file.
-/
namespace TorrentClient
open Bytes Bencode CText Decimal Fallible

/-! ## One entry -/

section Entries
variable {SHA1 : List UInt8 → Vector UInt8 20} {heap : Mem} {f : TorrentFile} {k : List UInt8}
  {v : Value} {st st' : Metafile × Int}

theorem infoEntry_sets (hmem : (k, v) ∈ f.info)
    (h : infoEntry f.text st (some k, node v) = .ok st') : SetsInfo (cstr k) v st st' := by
  by_cases hk : cstr k = ascii "pieces"
  · obtain ⟨rfl, rfl⟩ :=
      Prod.mk.inj (eq_of_cstr_eq f.info_nodup f.pieces_alone hmem hk f.has_pieces)
    obtain ⟨«meta», size⟩ := st
    obtain ⟨text, n, ps, -, -, -, rfl⟩ := infoEntry_pieces.mp h
    exact setsInfo_of_ne (by decide) rfl rfl
  · obtain ⟨st₁, hst₁, -, hsets⟩ := infoEntry_spec (f.info_typed k v hmem) hk st
    obtain rfl := Except.ok.inj (hst₁.symm.trans h)
    exact hsets

/-- The loop over the info dictionary does not set the date. -/
theorem creation_date_infoLoop (h : (entries f.info).foldlM (infoEntry f.text) st = .ok st') :
    st'.1.creation_date = st.1.creation_date := by
  refine foldlM_keeps_of_ok (g := fun st => st.1.creation_date) ?_ h
  intro e he s s' hs
  rw [entries_eq_map] at he
  obtain ⟨⟨k, v⟩, hmem, rfl⟩ := List.mem_map.mp he
  exact (infoEntry_sets hmem hs).creation_date

theorem topEntry_sets (hmem : (k, v) ∈ f.dict)
    (h : topEntry SHA1 heap f.text st (some k, node v) = .ok st') :
    Sets (cstr k = ascii "creation date") v st.1.creation_date st'.1.creation_date ∧
      (cstr k ≠ ascii "info" → infoFields st' = infoFields st) := by
  by_cases hk : cstr k = ascii "info"
  · obtain ⟨rfl, rfl⟩ := Prod.mk.inj (eq_of_cstr_eq f.nodup f.info_alone hmem hk f.has_info)
    rw [topEntry_info] at h
    obtain ⟨hash, -, hloop⟩ := bind_eq_ok.mp h
    refine ⟨?_, fun hne => absurd hk hne⟩
    rw [creation_date_infoLoop hloop]
    exact sets_of_not (by decide)
  · obtain ⟨st₁, hst₁, -, hfields, hsets⟩ := topEntry_spec (f.typed k v hmem) hk st
    obtain rfl := Except.ok.inj (hst₁.symm.trans h)
    exact ⟨hsets, fun _ => hfields⟩

end Entries

/-! ## A whole run -/

/-- The value of the last entry that reads as `key`. -/
def lastRead (key : List UInt8) : List (List UInt8 × Value) → Option Value
  | [] => none
  | (k, v) :: d => (lastRead key d).or (if cstr k = key then some v else none)

theorem mem_of_lastRead {key : List UInt8} {d : List (List UInt8 × Value)} {v : Value}
    (h : lastRead key d = some v) : ∃ k, (k, v) ∈ d ∧ cstr k = key := by
  induction d with
  | nil => cases h
  | cons e d ih =>
    obtain ⟨k, w⟩ := e
    rw [lastRead, Option.or_eq_some_iff] at h
    rcases h with hlater | ⟨-, hhere⟩
    · obtain ⟨k', hmem, hread⟩ := ih hlater
      exact ⟨k', List.mem_cons_of_mem _ hmem, hread⟩
    · split at hhere
      next hread =>
        obtain rfl := Option.some.inj hhere
        exact ⟨k, List.mem_cons_self, hread⟩
      · cases hhere

theorem lastRead_isSome {key k : List UInt8} {d : List (List UInt8 × Value)} {v : Value}
    (hmem : (k, v) ∈ d) (hread : cstr k = key) : ∃ w, lastRead key d = some w := by
  induction d with
  | nil => cases hmem
  | cons e d ih =>
    obtain ⟨k', w⟩ := e
    rw [lastRead]
    rcases List.mem_cons.mp hmem with heq | hmem
    · obtain ⟨rfl, rfl⟩ := Prod.mk.inj heq
      rw [if_pos hread]
      cases lastRead key d with
      | none => exact ⟨v, rfl⟩
      | some w => exact ⟨w, rfl⟩
    · obtain ⟨w', hw'⟩ := ih hmem
      exact ⟨w', by rw [hw']; rfl⟩

/-- What a field holds after a loop over the dictionary `d` when an entry whose key reads
`key` sets it: the integer of the last such entry, and without one what it held before. -/
structure Final (d : List (List UInt8 × Value)) (key : List UInt8) (initial final : UInt32) :
    Prop where
  set : ∀ v, lastRead key d = some v → ∃ i, v = .int i ∧ final = unsignedOf i
  keep : lastRead key d = none → final = initial

/-- One more entry in front. -/
theorem Final.cons {d : List (List UInt8 × Value)} {key k : List UInt8} {v : Value}
    {old new final : UInt32} (hsets : Sets (cstr k = key) v old new)
    (h : Final d key new final) : Final ((k, v) :: d) key old final := by
  cases hlast : lastRead key d with
  | some w =>
    have hcons : lastRead key ((k, v) :: d) = some w := by
      rw [lastRead, hlast]
      rfl
    constructor
    · intro v' hv'
      obtain rfl := Option.some.inj (hcons.symm.trans hv')
      exact h.set w hlast
    · intro hnone
      cases hcons.symm.trans hnone
  | none =>
    have hcons : lastRead key ((k, v) :: d) = if cstr k = key then some v else none := by
      rw [lastRead, hlast]
      rfl
    have hkeep := h.keep hlast
    constructor
    · intro v' hv'
      rw [hcons] at hv'
      split at hv'
      next hread =>
        obtain rfl := Option.some.inj hv'
        rw [hkeep]
        exact hsets.1 hread
      · cases hv'
    · intro hnone
      rw [hcons] at hnone
      split at hnone
      · cases hnone
      next hread => rw [hkeep, hsets.2 hread]

theorem final_of_foldlM {step : Metafile × Int → Option (List UInt8) × be_node →
      Except Fault (Metafile × Int)} (field : Metafile × Int → UInt32) {key : List UInt8}
    {d : List (List UInt8 × Value)} {st st' : Metafile × Int}
    (hstep : ∀ k v, (k, v) ∈ d → ∀ st st', step st (some k, node v) = .ok st' →
      Sets (cstr k = key) v (field st) (field st'))
    (h : (entries d).foldlM step st = .ok st') : Final d key (field st) (field st') := by
  induction d generalizing st with
  | nil =>
    obtain rfl := Except.ok.inj h
    exact ⟨nofun, fun _ => rfl⟩
  | cons e d ih =>
    obtain ⟨k, v⟩ := e
    rw [entries, List.foldlM_cons] at h
    obtain ⟨st₁, hst₁, h⟩ := bind_eq_ok.mp h
    have hrest := ih (fun k' v' hmem => hstep k' v' (List.mem_cons_of_mem _ hmem)) h
    exact hrest.cons (hstep k v List.mem_cons_self st st₁ hst₁)

/-- **What the integer fields hold after a run**: two of them start as the memory they are
in, the others as 0. -/
structure Finals (f : TorrentFile) (stale m : Metafile) : Prop where
  length : Final f.info (ascii "length") stale.length m.length
  piece_length : Final f.info (ascii "piece length") stale.piece_length m.piece_length
  private_field : Final f.info (ascii "private") 0 m.private_field
  creation_date : Final f.dict (ascii "creation date") 0 m.creation_date

/-- A run succeeds when the size computed from the text is not negative, and the number in
the text asks for no hash behind the end of the pieces string. -/
def TorrentFile.Reads (f : TorrentFile) : Prop :=
  ∃ p q n, f.Found p q n ∧ 0 ≤ (Int32.ofInt (p - q + n.toInt + 9)).toInt ∧
    (n.toInt.tdiv 20).toNat * 20 ≤ f.pieces.length + 1

section Run
variable (f : TorrentFile) {be_decoden : List UInt8 → Option be_node}
  (hdec : be_decoden f.text = some (node (.dict f.dict)))
include hdec

theorem finals_of_create_metafile {SHA1 : List UInt8 → Vector UInt8 20} {heap : Mem}
    {stale m : Metafile} (hm : create_metafile SHA1 heap f.text be_decoden stale = .ok m) :
    Finals f stale m := by
  rw [create_metafile, hdec] at hm
  dsimp only at hm
  rw [node, be_node.d_BE_DICT, ok_bind] at hm
  obtain ⟨st, hst, hm⟩ := bind_eq_ok.mp hm
  obtain rfl := Except.ok.inj hm
  have hdate := final_of_foldlM (fun st => st.1.creation_date)
    (fun k v hmem st st' h => (topEntry_sets hmem h).1) hst
  -- the entries around the key `info` keep the fields of its dictionary
  obtain ⟨before, after, hsplit, hother⟩ := split_of_mem f.nodup f.info_alone f.has_info
  rw [hsplit, entries_append] at hst
  obtain ⟨s₁, s₂, hnew, hinfo, hfields⟩ := foldlM_one_of_ok (g := infoFields) (by
    intro e he s s' hs
    obtain ⟨k, v, hmem, hd, rfl⟩ := mem_around he
    rw [← hsplit] at hd
    exact (topEntry_sets hd hs).2 (hother (k, v) hmem)) hst
  rw [topEntry_info] at hinfo
  obtain ⟨hash, -, hloop⟩ := bind_eq_ok.mp hinfo
  obtain ⟨hlength, hrest⟩ := Prod.mk.inj hfields
  obtain ⟨hpiece, hprivate⟩ := Prod.mk.inj hrest
  obtain ⟨hlength₁, hrest₁⟩ := Prod.mk.inj hnew
  obtain ⟨hpiece₁, hprivate₁⟩ := Prod.mk.inj hrest₁
  constructor
  · have hfinal := final_of_foldlM (fun st => st.1.length)
      (fun k v hmem st st' h => (infoEntry_sets hmem h).length) hloop
    dsimp only at hfinal
    rwa [hlength₁, ← hlength] at hfinal
  · have hfinal := final_of_foldlM (fun st => st.1.piece_length)
      (fun k v hmem st st' h => (infoEntry_sets hmem h).piece_length) hloop
    dsimp only at hfinal
    rwa [hpiece₁, ← hpiece] at hfinal
  · have hfinal := final_of_foldlM (fun st => st.1.private_field)
      (fun k v hmem st st' h => (infoEntry_sets hmem h).private_field) hloop
    dsimp only at hfinal
    rwa [hprivate₁, ← hprivate] at hfinal
  · exact hdate

theorem create_metafile_ok_iff (SHA1 : List UInt8 → Vector UInt8 20) (heap : Mem)
    (stale : Metafile) :
    (∃ m, create_metafile SHA1 heap f.text be_decoden stale = .ok m) ↔ f.Reads := by
  constructor
  · rintro ⟨m, hm⟩
    obtain ⟨p, q, n, hfound⟩ := found_of_create_metafile f hdec hm
    obtain ⟨h0, w, ps, -, hloop, -⟩ := (create_metafile_found_iff f hdec hfound SHA1 heap stale
      fun _ _ => True).mp ⟨m, hm, trivial⟩
    refine ⟨p, q, n, hfound, h0, ?_⟩
    by_cases hz : (n.toInt.tdiv 20).toNat = 0
    · omega
    · have := le_of_piecesLoop hloop hz
      omega
  · rintro ⟨p, q, n, hfound, h0, hcount⟩
    obtain ⟨w, hw⟩ := be_encode_total (.dict f.info) (Int32.ofInt (p - q + n.toInt + 9)).toInt.toNat
    obtain ⟨ps, hps, -⟩ :
        ∃ ps, piecesLoop (node (.str f.pieces)) 0 (n.toInt.tdiv 20).toNat [] = .ok ps ∧ _ :=
      piecesLoop_of_le [] (by omega)
    obtain ⟨m, hm, -⟩ := (create_metafile_found_iff f hdec hfound SHA1 heap stale
      fun _ _ => True).mpr ⟨h0, w, ps, hw, hps, trivial⟩
    exact ⟨m, hm⟩

end Run

/-! ## The fields and the integers of the file -/

/-- The field is the integer stored under `key`, if that is not negative, and 0 if the key is
absent. -/
structure Exact (d : List (List UInt8 × Value)) (key : List UInt8) (field : UInt32) : Prop where
  stored : ∀ i, (key, .int i) ∈ d → 0 ≤ i.toInt → (field.toNat : Int) = i.toInt
  absent : (∀ v, (key, v) ∉ d) → field = 0

/-- An integer that is stored under `key` and not negative is what the integer of the last entry
that reads as `key` leaves in 32 bits; without the key that leaves 0. -/
structure Fits32 (d : List (List UInt8 × Value)) (key : List UInt8) : Prop where
  stored : ∀ i, (key, .int i) ∈ d → 0 ≤ i.toInt → ∀ j, lastRead key d = some (.int j) →
    j.toInt % 2 ^ 32 = i.toInt
  absent : (∀ v, (key, v) ∉ d) → ∀ j, lastRead key d = some (.int j) → j.toInt % 2 ^ 32 = 0

/-- Some key reads as `key`. -/
def Present (d : List (List UInt8 × Value)) (key : List UInt8) : Prop :=
  ∃ e ∈ d, cstr e.1 = key

/-- If no other key reads as `key` the integer stored under it has to fit 32 bits. -/
theorem fits32_iff {d : List (List UInt8 × Value)} {key : List UInt8} (hkey : cstr key = key)
    (hnodup : (d.map Prod.fst).Nodup) (halone : ReadsAlone key d) :
    Fits32 d key ↔ ∀ i, (key, .int i) ∈ d → 0 ≤ i.toInt → i.toInt < 2 ^ 32 := by
  have hlast : ∀ v, lastRead key d = some v → (key, v) ∈ d := by
    intro v hv
    obtain ⟨k, hmem, hread⟩ := mem_of_lastRead hv
    obtain rfl : k = key := halone (k, v) hmem hread
    exact hmem
  constructor
  · intro h i hmem h0
    obtain ⟨v, hv⟩ := lastRead_isSome hmem hkey
    obtain ⟨-, rfl⟩ := Prod.mk.inj (eq_of_cstr_eq hnodup halone (hlast v hv) hkey hmem)
    have := h.stored i hmem h0 i hv
    omega
  · intro h
    constructor
    · intro i hmem h0 j hj
      obtain ⟨-, hji⟩ := Prod.mk.inj (eq_of_cstr_eq hnodup halone (hlast _ hj) hkey hmem)
      obtain rfl := Value.int.inj hji
      exact Int.emod_eq_of_lt h0 (h j hmem h0)
    · intro hnone j hj
      exact absurd (hlast _ hj) (hnone _)

theorem toNat_unsignedOf (i : Int64) : ((unsignedOf i).toNat : Int) = i.toInt % 2 ^ 32 := by
  have hword : i.toInt = if 2 * i.toUInt64.toNat < 2 ^ 64 then (i.toUInt64.toNat : Int)
      else i.toUInt64.toNat - (2 ^ 64 : Nat) := BitVec.toInt_eq_toNat_cond i.toBitVec
  rw [unsignedOf, UInt64.toNat_toUInt32, hword]
  split
  · omega
  · omega

theorem unsignedOf_eq_zero {i : Int64} : unsignedOf i = 0 ↔ i.toInt % 2 ^ 32 = 0 := by
  rw [← toNat_unsignedOf, ← UInt32.toNat_inj]
  exact Int.natCast_eq_zero.symm

section Field
variable {d : List (List UInt8 × Value)} {key : List UInt8} {initial field : UInt32}
  (hkey : cstr key = key) (hfinal : Final d key initial field)
include hfinal

theorem Final.eq_unsignedOf {i : Int64} (h : lastRead key d = some (.int i)) :
    field = unsignedOf i := by
  obtain ⟨j, hj, hfield⟩ := hfinal.set _ h
  rw [hfield, Value.int.inj hj]

/-- Without such a key the field keeps its initial value. -/
theorem Final.eq_initial (h : ¬ Present d key) : field = initial := by
  apply hfinal.keep
  by_contra hsome
  obtain ⟨v, hv⟩ := Option.ne_none_iff_exists'.mp hsome
  obtain ⟨k, hmem, hread⟩ := mem_of_lastRead hv
  exact h ⟨(k, v), hmem, hread⟩

/-- With one it is that of an integer. -/
theorem Final.exists_int (h : Present d key) : ∃ i, lastRead key d = some (.int i) := by
  obtain ⟨e, hmem, hread⟩ := h
  obtain ⟨v, hv⟩ := lastRead_isSome (v := e.2) hmem hread
  obtain ⟨i, rfl, -⟩ := hfinal.set v hv
  exact ⟨i, hv⟩

theorem fits32_of_exact (h : Exact d key field) : Fits32 d key where
  stored := by
    intro i hmem h0 j hj
    rw [← toNat_unsignedOf, ← hfinal.eq_unsignedOf hj]
    exact h.stored i hmem h0
  absent := by
    intro hnone j hj
    rw [← unsignedOf_eq_zero, ← hfinal.eq_unsignedOf hj]
    exact h.absent hnone

include hkey

theorem present_or_of_exact (h : Exact d key field) : Present d key ∨ initial = 0 := by
  by_cases hpresent : Present d key
  · exact .inl hpresent
  · right
    rw [← hfinal.eq_initial hpresent]
    apply h.absent
    intro v hv
    exact hpresent ⟨(key, v), hv, hkey⟩

theorem exact_of_fits32 (hfits : Fits32 d key) (hinitial : Present d key ∨ initial = 0) :
    Exact d key field where
  stored := by
    intro i hmem h0
    obtain ⟨j, hj⟩ := hfinal.exists_int ⟨_, hmem, hkey⟩
    rw [hfinal.eq_unsignedOf hj, toNat_unsignedOf]
    exact hfits.stored i hmem h0 j hj
  absent := by
    intro hnone
    by_cases hpresent : Present d key
    · obtain ⟨j, hj⟩ := hfinal.exists_int hpresent
      rw [hfinal.eq_unsignedOf hj, unsignedOf_eq_zero]
      exact hfits.absent hnone j hj
    · rw [hfinal.eq_initial hpresent]
      exact hinitial.resolve_left hpresent

/-- **Exactly when a field is the integer of the file**, whatever the initial value. -/
theorem exact_iff : Exact d key field ↔ Fits32 d key ∧ (Present d key ∨ initial = 0) := by
  constructor
  · intro h
    exact ⟨fits32_of_exact hfinal h, present_or_of_exact hkey hfinal h⟩
  · rintro ⟨hfits, hinitial⟩
    exact exact_of_fits32 hkey hfinal hfits hinitial

end Field

namespace TorrentFile
variable (f : TorrentFile)

/-- The integer fields of a metafile are the integers of the file. -/
structure IntegersOf (m : Metafile) : Prop where
  length : Exact f.info (ascii "length") m.length
  piece_length : Exact f.info (ascii "piece length") m.piece_length
  private_field : Exact f.info (ascii "private") m.private_field
  creation_date : Exact f.dict (ascii "creation date") m.creation_date

/-- The file is read to its end, its integers fit 32 bits, and the two keys whose fields have
no initializer are there. -/
structure FieldsFit : Prop where
  reads : f.Reads
  length : Fits32 f.info (ascii "length") ∧ Present f.info (ascii "length")
  piece_length : Fits32 f.info (ascii "piece length") ∧ Present f.info (ascii "piece length")
  private_field : Fits32 f.info (ascii "private")
  creation_date : Fits32 f.dict (ascii "creation date")

variable {f} {stale m : Metafile}

/-- **When the integer fields are right** after a run: the integers fit 32 bits, and the fields
without an initializer are set or held 0. -/
theorem integersOf_iff (hfinals : Finals f stale m) : f.IntegersOf m ↔
    (Fits32 f.info (ascii "length") ∧ (Present f.info (ascii "length") ∨ stale.length = 0)) ∧
    (Fits32 f.info (ascii "piece length") ∧
      (Present f.info (ascii "piece length") ∨ stale.piece_length = 0)) ∧
    Fits32 f.info (ascii "private") ∧ Fits32 f.dict (ascii "creation date") := by
  rw [← exact_iff (by decide) hfinals.length, ← exact_iff (by decide) hfinals.piece_length]
  have hprivate := exact_iff (by decide) hfinals.private_field
  have hdate := exact_iff (by decide) hfinals.creation_date
  rw [and_iff_left (.inr rfl)] at hprivate hdate
  rw [← hprivate, ← hdate]
  constructor
  · rintro ⟨h₁, h₂, h₃, h₄⟩
    exact ⟨h₁, h₂, h₃, h₄⟩
  · rintro ⟨h₁, h₂, h₃, h₄⟩
    exact ⟨h₁, h₂, h₃, h₄⟩

end TorrentFile

end TorrentClient
