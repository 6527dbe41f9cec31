import Mathlib
import TorrentProof.DecodeCalls
import TorrentProof.MetafileFields

/-! # The files that are read right

Of a torrent file `create_metafile` is to give the hash of its info dictionary, its piece hashes
and its integers.  It goes to the tree that `bencode.c` decodes for some of that, and to the text
of the file for the rest, so that each of the three comes down to the numbers found in the text;
and none of them is right for a file with an empty dictionary, which the decoder does not
survive.
-/
namespace TorrentClient
open Bytes Bencode CText Decimal Fallible

namespace TorrentFile
variable (f : TorrentFile)

/-- **The info dictionary is hashed**, with the decoder of `bencode.c`. -/
def HashedDecoded : Prop :=
  ∀ SHA1 heap stale, ∃ m left, Metafile.create_metafile SHA1 heap f.text stale = .ok (m, left) ∧
    m.info_hash = SHA1 f.infoText

/-- **The piece hashes are listed**: whatever the hash function, and whatever memory held
before, they are the 20-byte sections of the pieces string. -/
def Listed : Prop :=
  ∀ SHA1 heap stale, ∃ m left, Metafile.create_metafile SHA1 heap f.text stale = .ok (m, left) ∧
    Sections f.pieces m.pieces

/-- **The integer fields are right**: whatever the hash function, and whatever memory held
before, a metafile is returned whose fields are the integers of the file. -/
def IntegersRead : Prop :=
  ∀ SHA1 heap stale, ∃ m left, Metafile.create_metafile SHA1 heap f.text stale = .ok (m, left) ∧
    f.IntegersOf m

variable {f}

section File
variable (hmax : f.text.length < 2 ^ 63)
include hmax

/-- **Exactly which files, of those with whole hashes, have them listed.** -/
theorem listed_iff_counted (hwhole : f.pieces.length % 20 = 0) :
    f.Listed ↔ filled (.dict f.dict) = true ∧ f.Counted := by
  constructor
  · intro h
    obtain ⟨hfilled, m, hm, hsections⟩ :=
      (Metafile.create_metafile_ok_iff _ _ _ f hmax fun m => Sections f.pieces m.pieces).mp
        (h (fun _ => Vector.replicate 20 0) (fun _ => 0) default)
    exact ⟨hfilled, counted_of_create_metafile f.decoder_text _ _ _ hm hsections.count⟩
  · rintro ⟨hfilled, hcounted⟩ SHA1 heap stale
    exact (Metafile.create_metafile_ok_iff _ _ _ f hmax _).mpr
      ⟨hfilled, create_metafile_of_counted f.decoder_text SHA1 heap stale hwhole hcounted⟩

/-- Fields that are right, in memory in which those without an initializer are not 0. -/
theorem fieldsFit_of_integersRead (h : f.IntegersRead) :
    filled (.dict f.dict) = true ∧ f.FieldsFit := by
  obtain ⟨hfilled, m, hm, hintegers⟩ :=
    (Metafile.create_metafile_ok_iff _ _ _ f hmax f.IntegersOf).mp
      (h (fun _ => Vector.replicate 20 0) (fun _ => 0)
        { (default : Metafile) with length := 1, piece_length := 1 })
  obtain ⟨hlength, hpiece, hprivate, hdate⟩ :=
    (integersOf_iff (finals_of_create_metafile f f.decoder_text hm)).mp hintegers
  have hne : ¬ (1 : UInt32) = 0 := by decide
  exact ⟨hfilled, (create_metafile_ok_iff f f.decoder_text _ _ _).mp ⟨m, hm⟩,
    ⟨hlength.1, hlength.2.resolve_right hne⟩, ⟨hpiece.1, hpiece.2.resolve_right hne⟩, hprivate,
    hdate⟩

/-- **Exactly for which files the integer fields are right.** -/
theorem integersRead_iff :
    f.IntegersRead ↔ filled (.dict f.dict) = true ∧ f.FieldsFit := by
  constructor
  · exact fieldsFit_of_integersRead hmax
  · rintro ⟨hfilled, hfit⟩ SHA1 heap stale
    obtain ⟨m, hm⟩ := (create_metafile_ok_iff f f.decoder_text SHA1 heap stale).mpr hfit.reads
    refine (Metafile.create_metafile_ok_iff _ _ _ f hmax _).mpr ⟨hfilled, m, hm, ?_⟩
    refine (integersOf_iff (finals_of_create_metafile f f.decoder_text hm)).mpr
      ⟨⟨hfit.length.1, .inl hfit.length.2⟩, ⟨hfit.piece_length.1, .inl hfit.piece_length.2⟩,
        hfit.private_field, hfit.creation_date⟩

end File

/-! ## Files with an announce string -/

/-- One hash. -/
theorem listed_one_hash : (announcing [] (List.replicate 20 0)).Listed :=
  (listed_iff_counted (by decide) (by decide)).mpr
    ⟨rfl, 22, 15, 20, by unfold Found; decide, by decide, by decide⟩

/-- The announce string holds the word `pieces` and, with what follows it, a number that
asks for no hash. -/
theorem not_listed_announcing_pieces :
    ¬ (announcing (ascii "pieces0") (List.replicate 20 0)).Listed := by
  intro h
  obtain ⟨-, m, hm, hsections⟩ := (Metafile.create_metafile_ok_iff _ _ _ _ (by decide) _).mp
    (h (fun _ => Vector.replicate 20 0) (fun _ => 0) default)
  obtain ⟨p, q, n, ⟨hp, -, hn⟩, hcount, -⟩ :=
    counted_of_create_metafile (decoder_text _) _ _ _ hm hsections.count
  obtain rfl : 13 = p := Option.some.inj (.trans (by decide) hp)
  obtain rfl : (4 : Int32) = n := Option.some.inj (.trans (by decide) hn)
  exact absurd hcount (by decide)

/-! ## Single files -/

/-- A metafile for a single file without pieces. -/
def single (length piece_length : Int64) : TorrentFile where
  dict := [(ascii "info", .dict [(ascii "length", .int length),
    (ascii "piece length", .int piece_length), (ascii "pieces", .str [])])]
  info := [(ascii "length", .int length), (ascii "piece length", .int piece_length),
    (ascii "pieces", .str [])]
  pieces := []
  has_info := List.mem_cons_self
  has_pieces := List.mem_cons_of_mem _ (List.mem_cons_of_mem _ List.mem_cons_self)
  nodup := List.nodup_singleton _
  info_nodup := show [ascii "length", ascii "piece length", ascii "pieces"].Nodup by decide
  info_alone := by simp [ReadsAlone]
  pieces_alone := by simp [ReadsAlone, ascii, cstr]
  typed := by
    intro k v h kind hkind
    obtain ⟨rfl, rfl⟩ := Prod.mk.inj (List.mem_singleton.mp h)
    obtain rfl := Option.some.inj hkind
    exact ⟨_, rfl⟩
  info_typed := by
    intro k v h kind hkind
    simp only [List.mem_cons, List.not_mem_nil, or_false, Prod.mk.injEq] at h
    rcases h with ⟨rfl, rfl⟩ | ⟨rfl, rfl⟩ | ⟨rfl, rfl⟩
    all_goals
      obtain rfl := Option.some.inj hkind
      exact ⟨_, rfl⟩

/-- The integers of a file of one byte are read. -/
theorem integersRead_single : (single 1 1).IntegersRead := by
  have hreads : (single 1 1).Reads :=
    ⟨39, 3, 0, by unfold Found; decide, by decide, by decide⟩
  have hkeys : ∀ e ∈ (single 1 1).info, cstr e.1 = e.1 := by
    show ∀ e ∈ [(ascii "length", Value.int 1), (ascii "piece length", .int 1),
      (ascii "pieces", .str [])], cstr e.1 = e.1
    simp only [List.forall_mem_cons]
    decide
  have hsmall : ∀ k i, (k, .int i) ∈ (single 1 1).info → i.toInt < 2 ^ 32 := by
    intro k i hmem
    rcases List.mem_cons.mp hmem with heq | hmem
    · cases heq
      decide
    rcases List.mem_cons.mp hmem with heq | hmem
    · cases heq
      decide
    · cases List.mem_singleton.mp hmem
  have hinfo : ∀ key, cstr key = key → Fits32 (single 1 1).info key := by
    intro key hkey
    refine (fits32_iff hkey (single 1 1).info_nodup ?_).mpr fun i hmem _ => hsmall key i hmem
    intro e he hread
    exact (hkeys e he).symm.trans hread
  have hdict : Fits32 (single 1 1).dict (ascii "creation date") := by
    constructor
    · intro i hmem
      cases List.mem_singleton.mp hmem
    · intro _ j hj
      cases hj
  exact (integersRead_iff (by decide)).mpr ⟨rfl, hreads,
    ⟨hinfo _ (by decide), _, List.mem_cons_self, by decide⟩,
    ⟨hinfo _ (by decide), _, List.mem_cons_of_mem _ List.mem_cons_self, by decide⟩,
    hinfo _ (by decide), hdict⟩

/-- A file of 4 GiB. -/
theorem not_integersRead_large : ¬ (single 4294967296 1).IntegersRead := by
  intro h
  have hfit := (fieldsFit_of_integersRead (by decide) h).2.length.1.stored 4294967296
    List.mem_cons_self (by decide) 4294967296 rfl
  exact absurd hfit (by decide)

end TorrentFile

end TorrentClient
