import Mathlib
import TorrentProof.BeDecodeSafe
import TorrentProof.MetafileInfo
import TorrentProof.TrackerPeers

/-! # The two calls of the decoder

`create_metafile` decodes a file, in memory that ends where the file does, and `request` a
response in a buffer of zeros.  On what `encode` writes both do what they do with the decoder
of the grammar, unless there is an empty dictionary in it (`create_metafile_eq`,
`request_decoded_eq`).  A response with a zero byte is decoded in part, and if that byte is in
the ip or the id of a peer, the peers cannot come out right (`listedDecoded_iff`).  A file that
breaks off is read beyond its end, and so is a response that fills more than half the buffer
with open lists (`decodeResponse_inside_iff`).
-/
namespace TorrentClient
open Bytes Bencode CText Fallible

/-! ## `create_metafile` -/

namespace Metafile
variable (SHA1 : List UInt8 → Vector UInt8 20) (heap : Mem) (memblock : List UInt8)
  (stale : Metafile)

/-- `Metafile::create_metafile(path)` with the decoder of `bencode.c`, for a file with the
contents `memblock`: the metafile, and how many blocks of the tree `be_free(n)` has left
allocated. -/
def create_metafile : Except Fault (Metafile × Option Nat) := do
  let (n, c) ← decodeCall memblock memblock.length
  let «meta» ← TorrentClient.create_metafile SHA1 heap memblock (fun _ => n) stale
  pure («meta», n.bind fun n => be_free n c.live)

variable {SHA1 heap memblock stale}

/-- Where the decoder faults, so does the call. -/
theorem create_metafile_error {e : Fault}
    (h : be_decoden memblock memblock.length = .error e) :
    create_metafile SHA1 heap memblock stale = .error e := by
  rw [be_decoden] at h
  rcases hcall : decodeCall memblock memblock.length with e' | r
  · rw [hcall] at h
    obtain rfl : e' = e := Except.error.inj h
    rw [create_metafile, hcall]
    rfl
  · rw [hcall] at h
    cases h

/-- **A file that breaks off is read beyond its end.** -/
theorem create_metafile_brokenOff (h : BrokenOff memblock) (hmax : memblock.length < 2 ^ 63) :
    create_metafile SHA1 heap memblock stale = .error .outOfBounds :=
  create_metafile_error (be_decoden_eq_error.mpr
    (decode_brokenOff h (Int.le_refl _) (by omega) 0 (Nat.le_refl _)))

section File
variable (f : TorrentFile) (hmax : f.text.length < 2 ^ 63)
include hmax

theorem create_metafile_filled (hfilled : filled (.dict f.dict) = true) :
    create_metafile SHA1 heap f.text stale =
      (TorrentClient.create_metafile SHA1 heap f.text decoder stale).map fun m =>
        (m, some 0) := by
  have hlen : (encode (.dict f.dict)).length < 2 ^ 63 := hmax
  have hcall : decodeCall f.text f.text.length = .ok (some (node (.dict f.dict)),
      ⟨[], f.text.length - f.text.length, blocks (node (.dict f.dict))⟩) := by
    have := decodeCall_spells ((strict_encode (.dict f.dict)).spells hfilled) []
      (Int.le_refl _) (by omega)
    rwa [List.append_nil] at this
  have hfree := be_free_add (node (.dict f.dict)) 0
  rw [Nat.zero_add] at hfree
  have hdec : TorrentClient.create_metafile SHA1 heap f.text
      (fun _ => some (node (.dict f.dict))) stale =
        TorrentClient.create_metafile SHA1 heap f.text decoder stale := by
    rw [TorrentClient.create_metafile, TorrentClient.create_metafile, f.decoder_text]
  rw [create_metafile, hcall, ok_bind]
  dsimp only
  rw [hdec, Option.bind_some, hfree]
  cases TorrentClient.create_metafile SHA1 heap f.text decoder stale with
  | error e => rfl
  | ok m => rfl

theorem create_metafile_not_filled (hfilled : ¬ filled (.dict f.dict) = true) :
    create_metafile SHA1 heap f.text stale = .error .nullPointer := by
  have hlen : (encode (.dict f.dict)).length < 2 ^ 63 := hmax
  have hnot := be_decoden_strict (strict_encode (.dict f.dict)) [] (Int.le_refl _) (by omega)
  rw [List.append_nil, if_neg hfilled] at hnot
  exact create_metafile_error hnot

/-- **On a torrent file without an empty dictionary the decoder of `bencode.c` does as well as
that of the grammar**, and all it has allocated is freed.  With an empty dictionary anywhere in
the file the call writes through a null pointer. -/
theorem create_metafile_eq : create_metafile SHA1 heap f.text stale =
    if filled (.dict f.dict) = true then
      (TorrentClient.create_metafile SHA1 heap f.text decoder stale).map fun m => (m, some 0)
    else .error .nullPointer := by
  by_cases hfilled : filled (.dict f.dict) = true
  · rw [if_pos hfilled]
    exact create_metafile_filled f hmax hfilled
  · rw [if_neg hfilled]
    exact create_metafile_not_filled f hmax hfilled

variable (SHA1 heap stale) in
/-- A metafile is returned where the decoder of the grammar leads to one, for a file without an
empty dictionary. -/
theorem create_metafile_ok_iff (P : Metafile → Prop) :
    (∃ m left, create_metafile SHA1 heap f.text stale = .ok (m, left) ∧ P m) ↔
      filled (.dict f.dict) = true ∧
        ∃ m, TorrentClient.create_metafile SHA1 heap f.text decoder stale = .ok m ∧ P m := by
  by_cases hfilled : filled (.dict f.dict) = true
  · rw [create_metafile_filled f hmax hfilled, and_iff_right hfilled]
    constructor
    · rintro ⟨m, left, hm, hP⟩
      cases hrun : TorrentClient.create_metafile SHA1 heap f.text decoder stale with
      | error e =>
        rw [hrun] at hm
        cases hm
      | ok m' =>
        rw [hrun] at hm
        obtain ⟨rfl, -⟩ := Prod.mk.inj (Except.ok.inj hm)
        exact ⟨m', rfl, hP⟩
    · rintro ⟨m, hm, hP⟩
      exact ⟨m, some 0, by rw [hm]; rfl, hP⟩
  · rw [create_metafile_not_filled f hmax hfilled]
    constructor
    · rintro ⟨m, left, hm, -⟩
      cases hm
    · rintro ⟨h, -⟩
      exact absurd h hfilled

end File

/-- A file with an announce string and no pieces. -/
theorem create_metafile_eq_announcing :
    create_metafile (fun _ => Vector.replicate 20 0) (fun _ => 0)
        (TorrentFile.announcing [] []).text default =
      (TorrentClient.create_metafile (fun _ => Vector.replicate 20 0) (fun _ => 0)
        (TorrentFile.announcing [] []).text decoder default).map fun m => (m, some 0) :=
  (create_metafile_eq (TorrentFile.announcing [] []) (by decide)).trans (if_pos rfl)

end Metafile

/-! ## `request` -/

/-- `be_decode(data)`, where the memory from `data` on is `memory`. -/
def be_decode (memory : List UInt8) : Except Fault (Option be_node) :=
  -- `strlen`
  if 0 ∈ memory then be_decoden memory (cstr memory).length else .error .outOfBounds

namespace TrackerConnector

/-- What `request` has decoded once the response is delivered.  No chunk may be written past
the end of `response`. -/
def decodeResponse (chunks : List (List UInt8)) (stack : Mem) : Except Fault (Option be_node) :=
  if (response chunks stack).Within InResponse then
    TorrentClient.be_decode ((response chunks stack).val.slice 0 responseSize)
  else .error .outOfBounds

/-- `TrackerConnector::request(info_hash, peer_id, port)` with the decoder of `bencode.c`. -/
def request_decoded (info_hash peer_id : Option Mem) (chunks : List (List UInt8)) (stack : Mem)
    (peers : List peer) : Except Fault (Int × List peer) :=
  if info_hash.isNone then pure (-1, peers)
  else if peer_id.isNone then pure (-1, peers)
  else do
    match ← decodeResponse chunks stack with
    | none => throw .nullPointer
    | some n => do
      let peers ← readPeers peers (← n.d)
      pure (0, peers)

section Response
variable {d : Delivery}

/-- The memory that is decoded. -/
theorem decodeResponse_eq (hfits : d.body.length < responseSize) (hintact : d.Intact)
    (stack : Mem) : decodeResponse d.chunks stack =
      be_decoden (d.body ++ List.replicate (responseSize - d.body.length) 0)
        (cstr d.body).length := by
  have hzero : 0 ∈ d.body ++ List.replicate (responseSize - d.body.length) 0 :=
    List.mem_append_right _ (List.mem_replicate.mpr ⟨by omega, rfl⟩)
  rw [decodeResponse, if_pos ((within_response _ _).mpr hintact.1),
    (d.slice_response_iff stack hfits).mpr (hintact.2 hfits), TorrentClient.be_decode,
    if_pos hzero, cstr_append_zeros]

/-- What becomes of the text of a response. -/
theorem decodeResponse_text {r : TrackerResponse} (hbody : d.body = r.text)
    (hfits : d.body.length < responseSize) (hintact : d.Intact) (h0 : 0 ∉ r.text) (stack : Mem) :
    decodeResponse d.chunks stack =
      if filled (.dict r.dict) = true then .ok (some (node (.dict r.dict)))
      else .error .nullPointer := by
  have hsize : responseSize = 10000 := rfl
  have hlen : r.text.length < responseSize := hbody ▸ hfits
  rw [decodeResponse_eq hfits hintact, hbody, cstr_eq_self h0]
  exact be_decoden_strict (strict_encode (.dict r.dict)) _ (Int.le_refl _)
    (show (r.text.length : Int) < 2 ^ 63 by omega)

section Text
variable {r : TrackerResponse} (hbody : d.body = r.text) (hfits : d.body.length < responseSize)
  (hintact : d.Intact) (h0 : 0 ∉ r.text) (info_hash peer_id stack : Mem) (peers : List peer)
include hbody hfits hintact h0

theorem request_decoded_filled (hfilled : filled (.dict r.dict) = true) :
    request_decoded (some info_hash) (some peer_id) d.chunks stack peers =
      request decoder (some info_hash) (some peer_id) d.chunks stack peers := by
  have hgrammar : TrackerConnector.be_decode decoder
      ((response d.chunks stack).val.slice 0 responseSize) = some (node (.dict r.dict)) := by
    rw [be_decode_response hbody hfits hintact, TrackerConnector.be_decode, cstr_eq_self h0,
      ← List.append_nil r.text]
    exact grammatical_decoder.1 (.dict r.dict) []
  rw [request_decoded, decodeResponse_text hbody hfits hintact h0, if_pos hfilled, request_some,
    hgrammar]
  rfl

theorem request_decoded_not_filled (hfilled : ¬ filled (.dict r.dict) = true) :
    request_decoded (some info_hash) (some peer_id) d.chunks stack peers =
      .error .nullPointer := by
  rw [request_decoded, decodeResponse_text hbody hfits hintact h0, if_neg hfilled]
  rfl

/-- **On a response without a zero byte and without an empty dictionary `request` does what it
does with the decoder of the grammar.**  With an empty dictionary it writes through a null
pointer. -/
theorem request_decoded_eq : request_decoded (some info_hash) (some peer_id) d.chunks stack peers =
    if filled (.dict r.dict) = true then
      request decoder (some info_hash) (some peer_id) d.chunks stack peers
    else .error .nullPointer := by
  by_cases hfilled : filled (.dict r.dict) = true
  · rw [if_pos hfilled]
    exact request_decoded_filled hbody hfits hintact h0 _ _ _ _ hfilled
  · rw [if_neg hfilled]
    exact request_decoded_not_filled hbody hfits hintact h0 _ _ _ _ hfilled

end Text

/-- The response with one peer. -/
theorem request_decoded_eq_onePeer :
    request_decoded (some fun _ => 0) (some fun _ => 0)
        (onePeer (Vector.replicate 20 65)).atOnce.chunks (fun _ => 0) [] =
      request decoder (some fun _ => 0) (some fun _ => 0)
        (onePeer (Vector.replicate 20 65)).atOnce.chunks (fun _ => 0) [] :=
  (request_decoded_eq (List.append_nil _) (by decide) (by decide) (by decide)
    (fun _ => 0) (fun _ => 0) (fun _ => 0) []).trans (if_pos rfl)

/-! ### The peers that are listed -/

/-- A member of `peers` went through a `char *`. -/
def peer.IsText (p : peer) : Prop := 0 ∉ p.ip ∧ 0 ∉ p.peer_id

theorem isText_of_parse_list_dict {l : List be_node} {ps : List peer}
    (h : parse_list_dict l = .ok ps) : ∀ p ∈ ps, p.IsText := by
  induction l generalizing ps with
  | nil =>
    obtain rfl := Except.ok.inj h
    exact fun p hp => absurd hp List.not_mem_nil
  | cons n l ih =>
    obtain ⟨p?, hp, h⟩ := bind_eq_ok.mp h
    rcases p? with _ | p
    · obtain rfl := Except.ok.inj h
      exact fun p hp => absurd hp List.not_mem_nil
    · obtain ⟨ps', hps', h⟩ := bind_eq_ok.mp h
      obtain rfl := Except.ok.inj h
      rw [List.forall_mem_cons]
      refine ⟨?_, ih hps'⟩
      obtain ⟨key, val, rest, rfl, hne⟩ := head_of_peerOf hp
      rw [peerOf_eq hne] at hp
      split at hp
      · obtain ⟨p', hread, hp⟩ := bind_eq_ok.mp hp
        obtain rfl := Option.some.inj (Except.ok.inj hp)
        obtain ⟨ip, k₁, peerId, k₂, port, rest', -, -, rfl⟩ := readPeer_eq_ok.mp hread
        exact ⟨zero_not_mem_cstr ip, zero_not_mem_cstr peerId⟩
      · cases hp

theorem isText_of_readPeers {dict : List (Option (List UInt8) × be_node)} {peers ps : List peer}
    (h : readPeers peers dict = .ok ps) (hpeers : ∀ p ∈ peers, p.IsText) :
    ∀ p ∈ ps, p.IsText := by
  induction dict generalizing peers with
  | nil =>
    obtain rfl := Except.ok.inj h
    exact hpeers
  | cons e dict ih =>
    obtain ⟨key, -, h⟩ := bind_eq_ok.mp h
    split at h
    · obtain ⟨l, -, h⟩ := bind_eq_ok.mp h
      obtain ⟨peers', hpeers', h⟩ := bind_eq_ok.mp h
      exact ih h (isText_of_parse_list_dict hpeers')
    · exact ih h hpeers

/-- Whatever is decoded, no string with a zero byte in it gets into `peers`. -/
theorem isText_of_request_decoded {info_hash peer_id stack : Mem} {chunks : List (List UInt8)}
    {code : Int} {ps : List peer}
    (h : request_decoded (some info_hash) (some peer_id) chunks stack [] = .ok (code, ps)) :
    ∀ p ∈ ps, p.IsText := by
  obtain ⟨n, -, h⟩ := bind_eq_ok.mp h
  rcases n with _ | n
  · cases h
  · obtain ⟨dict, -, h⟩ := bind_eq_ok.mp h
    obtain ⟨ps', hps', h⟩ := bind_eq_ok.mp h
    obtain ⟨-, rfl⟩ := Prod.mk.inj (Except.ok.inj h)
    exact isText_of_readPeers hps' fun p hp => absurd hp List.not_mem_nil

/-- The peers of the response are listed, with the decoder of `bencode.c`. -/
def TrackerResponse.ListedDecoded (r : TrackerResponse) (d : Delivery) : Prop :=
  ∀ info_hash peer_id stack peers, ∃ ps,
    request_decoded (some info_hash) (some peer_id) d.chunks stack peers = .ok (0, ps) ∧
      List.Forall₂ (fun p e => e.Matches p) ps r.peers

/-- A peer with a zero byte in its ip or its id cannot be listed. -/
theorem not_listedDecoded_of_mem_zero {r : TrackerResponse} {e : PeerEntry} (he : e ∈ r.peers)
    (h0 : 0 ∈ e.ip ∨ 0 ∈ e.peerId.toList) : ¬ r.ListedDecoded d := by
  intro h
  obtain ⟨ps, hps, hmatch⟩ := h (fun _ => 0) (fun _ => 0) (fun _ => 0) []
  obtain ⟨i, hi, rfl⟩ := List.mem_iff_getElem.mp he
  have hi' : i < ps.length := hmatch.length_eq ▸ hi
  obtain ⟨hip, hid, -⟩ := hmatch.get hi' hi
  obtain ⟨hip0, hid0⟩ := isText_of_request_decoded hps (ps.get ⟨i, hi'⟩) (List.get_mem _ _)
  rw [hip] at hip0
  rw [hid] at hid0
  exact h0.elim hip0 hid0

/-- **Exactly which responses have their peers listed by the program**, if what zero bytes they
hold are in the ip or in the id of a peer. -/
theorem listedDecoded_iff {r : TrackerResponse} (hbody : d.body = r.text)
    (hfits : d.body.length < responseSize) (hintact : d.Intact)
    (hzero : 0 ∈ r.text → ∃ e ∈ r.peers, 0 ∈ e.ip ∨ 0 ∈ e.peerId.toList) :
    r.ListedDecoded d ↔
      0 ∉ r.text ∧ filled (.dict r.dict) = true ∧ ∀ e ∈ r.peers, e.InOrder := by
  by_cases h0 : 0 ∈ r.text
  · obtain ⟨e, he, hmem⟩ := hzero h0
    exact iff_of_false (not_listedDecoded_of_mem_zero he hmem) fun h => h.1 h0
  by_cases hfilled : filled (.dict r.dict) = true
  · rw [← parse_list_dict_iff (r.not_mem_entry h0), and_iff_right h0, and_iff_right hfilled]
    have hrun : ∀ info_hash peer_id stack peers,
        request_decoded (some info_hash) (some peer_id) d.chunks stack peers =
          (parse_list_dict (r.peers.map fun e => node (.dict e.dict)) >>= fun ps =>
            .ok (0, ps)) := by
      intro info_hash peer_id stack peers
      rw [request_decoded_filled hbody hfits hintact h0 _ _ _ _ hfilled,
        request_eq grammatical_decoder hbody hfits hintact h0]
    constructor
    · intro h
      obtain ⟨ps, hps, hmatch⟩ := h (fun _ => 0) (fun _ => 0) (fun _ => 0) []
      rw [hrun] at hps
      obtain ⟨ps', hparse, heq⟩ := bind_eq_ok.mp hps
      obtain ⟨-, rfl⟩ := Prod.mk.inj (Except.ok.inj heq)
      exact ⟨ps', hparse, hmatch⟩
    · rintro ⟨ps, hparse, hmatch⟩ info_hash peer_id stack peers
      exact ⟨ps, by rw [hrun, hparse]; rfl, hmatch⟩
  · refine iff_of_false ?_ fun h => hfilled h.2.1
    intro h
    obtain ⟨ps, hps, -⟩ := h (fun _ => 0) (fun _ => 0) (fun _ => 0) []
    rw [request_decoded_not_filled hbody hfits hintact h0 _ _ _ _ hfilled] at hps
    cases hps

theorem listedDecoded_onePeer : (onePeer (Vector.replicate 20 65)).ListedDecoded
    (onePeer (Vector.replicate 20 65)).atOnce := by
  refine (listedDecoded_iff (List.append_nil _) (by decide) (by decide)
    fun h => absurd h (by decide)).mpr ⟨by decide, rfl, fun e he => ?_⟩
  obtain rfl := List.mem_singleton.mp he
  exact ⟨by decide, rfl, rfl, by decide⟩

end Response

/-- So many lists that are opened, in one chunk. -/
def openLists (k : Nat) : Delivery := ⟨[List.replicate (k + 1) 108], by simp⟩

theorem body_openLists (k : Nat) : (openLists k).body = List.replicate (k + 1) 108 := by
  simp [Delivery.body, openLists]

theorem intact_openLists {k : Nat} (h : k + 1 ≤ responseSize) : (openLists k).Intact := by
  refine ⟨?_, fun _ => by simp [openLists, Harmless]⟩
  simpa [openLists] using h

/-- **`request` decodes every response of up to `n` bytes inside its buffer if and only if the
buffer has room for it twice.** -/
theorem decodeResponse_inside_iff (n : Nat) :
    (∀ d : Delivery, d.Intact → d.body.length ≤ n → ∀ stack,
      decodeResponse d.chunks stack ≠ .error .outOfBounds) ↔ 2 * n ≤ responseSize := by
  obtain ⟨k, hpos, hk⟩ : ∃ k, 0 < k ∧ responseSize = 2 * k + 2 := ⟨4999, by decide, rfl⟩
  constructor
  · intro h
    by_contra hlt
    -- more lists that are opened than there is room for zeros
    have hlen : (openLists (k + 1)).body.length = k + 2 := by
      rw [body_openLists, List.length_replicate]
    have hintact : (openLists (k + 1)).Intact := intact_openLists (by omega)
    have hfits : (openLists (k + 1)).body.length < responseSize := by omega
    refine h (openLists (k + 1)) hintact (by omega) (fun _ => 0) ?_
    rw [decodeResponse_eq hfits hintact, hlen, body_openLists]
    have hcstr : cstr (List.replicate (k + 1 + 1) 108) = List.replicate (k + 1 + 1) 108 :=
      cstr_eq_self fun h => absurd (List.eq_of_mem_replicate h) (by decide)
    have hnested := be_decoden_nested (k + 1) (responseSize - (k + 2))
    rw [if_pos (by omega)] at hnested
    rw [hcstr, List.length_replicate]
    exact hnested
  · intro h d hintact hn stack
    rw [decodeResponse_eq (by omega) hintact]
    refine be_decoden_padded (by omega) (by omega) ?_
    exact_mod_cast (List.takeWhile_prefix _).length_le

end TrackerConnector
end TorrentClient
