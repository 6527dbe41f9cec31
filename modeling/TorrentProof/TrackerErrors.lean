import Mathlib
import TorrentProof.TrackerPeers

/-! # A bad tracker answer

`request` decodes what is in the response buffer, whatever the transfer came to, and walks
the tree without a look at its tags: it takes the root for a dictionary, the value under
`peers` for a list, each entry of it for a dictionary, and in that the first values for those
of a peer.  Where the tree is not like that the run is undefined (`Readable`), and where it
ends `request` returns 0.  So an answer without a peer list is never told from one with a
list, and `guarded_iff` comes down to answers that are not bad.
-/
namespace TorrentClient
open Bytes Bencode CText Fallible
namespace TrackerConnector

/-- What is decoded after the transfer. -/
def decoded (be_decoden : List UInt8 → Option be_node) (chunks : List (List UInt8))
    (stack : Mem) : Option be_node :=
  be_decode be_decoden ((response chunks stack).val.slice 0 responseSize)

/-! ## Peer lists -/

/-- A dictionary with the fields of a peer, each of its type. -/
def PeerShaped (node : be_node) : Prop :=
  ∃ d, node = .BE_DICT d ∧
    (∃ key ip, (some key, .BE_STR (some ip)) ∈ d ∧ cstr key = ascii "ip") ∧
    (∃ key peerId, (some key, .BE_STR (some peerId)) ∈ d ∧ cstr key = ascii "peer id") ∧
    ∃ key port, (some key, .BE_INT port) ∈ d ∧ cstr key = ascii "port"

/-- The tree has a list of peers. -/
def HasPeerList (tree : Option be_node) : Prop :=
  ∃ d key l, tree = some (.BE_DICT d) ∧ (some key, .BE_LIST l) ∈ d ∧
    cstr key = ascii "peers" ∧ ∀ node ∈ l, PeerShaped node

/-- **A bad answer changes nothing**: `request` comes to its end without a null pointer and
without a wrong member of a union, and without a list of peers in the tree it returns a number
that is not 0 and leaves `peers` as it was. -/
def Guarded (be_decoden : List UInt8 → Option be_node) (info_hash peer_id : Mem)
    (chunks : List (List UInt8)) (stack : Mem) (peers : List peer) : Prop :=
  ∃ code ps, request be_decoden (some info_hash) (some peer_id) chunks stack peers =
      .ok (code, ps) ∧
    (¬ HasPeerList (decoded be_decoden chunks stack) → code ≠ 0 ∧ ps = peers)

/-! ## Trees that are read without a fault -/

/-- The values the loop of `parse_list_dict` takes for those of a peer. -/
def InPlace (val : be_node) (rest : List (Option (List UInt8) × be_node)) : Prop :=
  ∃ ip k₁ peerId k₂ port rest', val = .BE_STR (some ip) ∧
    rest = (k₁, .BE_STR (some peerId)) :: (k₂, .BE_INT port) :: rest'

/-- The nodes of a list can be read: each is a dictionary with a first key, and if that begins
with `ip` the values are in their places; otherwise the rest of the list is not looked at. -/
def ReadableList : List be_node → Prop
  | [] => True
  | node :: l => ∃ key val rest, node = .BE_DICT ((some key, val) :: rest) ∧ key ≠ [] ∧
      (key.take 2 = ascii "ip" → InPlace val rest ∧ ReadableList l)

/-- The tree is a dictionary in which no key is null and what is under `peers` can be read. -/
def Readable (tree : Option be_node) : Prop :=
  ∃ d, tree = some (.BE_DICT d) ∧ ∀ e ∈ d, ∃ key, e.1 = some key ∧
    (cstr key = ascii "peers" → ∃ l, e.2 = .BE_LIST l ∧ ReadableList l)

/-! ## Lists and dictionaries -/

/-- The values are read when they are in their places. -/
theorem readPeer_ok_iff {val : be_node} {rest : List (Option (List UInt8) × be_node)} :
    (∃ p, readPeer val rest = .ok p) ↔ InPlace val rest := by
  constructor
  · rintro ⟨p, h⟩
    obtain ⟨ip, k₁, peerId, k₂, port, rest', hval, hrest, -⟩ := readPeer_eq_ok.mp h
    exact ⟨ip, k₁, peerId, k₂, port, rest', hval, hrest⟩
  · rintro ⟨ip, k₁, peerId, k₂, port, rest', hval, hrest⟩
    exact ⟨_, readPeer_eq_ok.mpr ⟨ip, k₁, peerId, k₂, port, rest', hval, hrest, rfl⟩⟩

/-- **Exactly which lists are read without a fault.** -/
theorem parse_list_dict_ok_iff (l : List be_node) :
    (∃ ps, parse_list_dict l = .ok ps) ↔ ReadableList l := by
  induction l with
  | nil =>
    constructor
    · intro _
      trivial
    · intro _
      exact ⟨[], rfl⟩
  | cons node l ih =>
    constructor
    · rintro ⟨ps, h⟩
      obtain ⟨p?, hp, h⟩ := bind_eq_ok.mp h
      obtain ⟨key, val, rest, rfl, hne⟩ := head_of_peerOf hp
      refine ⟨key, val, rest, rfl, hne, ?_⟩
      intro hkey
      rw [peerOf_eq hne, if_pos hkey] at hp
      obtain ⟨p, hread, hp⟩ := bind_eq_ok.mp hp
      obtain rfl := Except.ok.inj hp
      obtain ⟨ps', hps', -⟩ := bind_eq_ok.mp h
      exact ⟨readPeer_ok_iff.mp ⟨p, hread⟩, ih.mp ⟨ps', hps'⟩⟩
    · rintro ⟨key, val, rest, rfl, hne, hread⟩
      rw [parse_list_dict, peerOf_eq hne]
      by_cases hkey : key.take 2 = ascii "ip"
      · obtain ⟨hplace, hlist⟩ := hread hkey
        obtain ⟨p, hp⟩ := readPeer_ok_iff.mpr hplace
        obtain ⟨ps, hps⟩ := ih.mpr hlist
        refine ⟨p :: ps, ?_⟩
        rw [if_pos hkey, hp, ok_bind, ok_bind]
        dsimp only
        rw [hps]
        rfl
      · refine ⟨[], ?_⟩
        rw [if_neg hkey]
        rfl

/-- **Exactly which dictionaries are.** -/
theorem readPeers_ok_iff (d : List (Option (List UInt8) × be_node)) (peers : List peer) :
    (∃ ps, readPeers peers d = .ok ps) ↔ ∀ e ∈ d, ∃ key, e.1 = some key ∧
      (cstr key = ascii "peers" → ∃ l, e.2 = .BE_LIST l ∧ ReadableList l) := by
  induction d generalizing peers with
  | nil =>
    constructor
    · intro _ e he
      exact absurd he List.not_mem_nil
    · intro _
      exact ⟨peers, rfl⟩
  | cons e d ih =>
    obtain ⟨key, val⟩ := e
    rw [List.forall_mem_cons]
    constructor
    · rintro ⟨ps, h⟩
      unfold readPeers at h
      obtain ⟨key, hkey, hval⟩ := bind_eq_ok.mp h
      obtain rfl := deref_eq_ok.mp hkey
      by_cases hpeers : cstr key = ascii "peers"
      · rw [if_pos hpeers] at hval
        obtain ⟨l, hl, hlist⟩ := bind_eq_ok.mp hval
        obtain rfl := be_node.l_eq_ok.mp hl
        obtain ⟨ps', hps', hrest⟩ := bind_eq_ok.mp hlist
        refine ⟨⟨key, rfl, fun _ => ⟨l, rfl, ?_⟩⟩, (ih ps').mp ⟨ps, hrest⟩⟩
        exact (parse_list_dict_ok_iff l).mp ⟨ps', hps'⟩
      · rw [if_neg hpeers] at hval
        exact ⟨⟨key, rfl, fun heq => absurd heq hpeers⟩, (ih peers).mp ⟨ps, hval⟩⟩
    · rintro ⟨⟨key, rfl, hval⟩, hrest⟩
      rw [readPeers, deref_some, ok_bind]
      by_cases hpeers : cstr key = ascii "peers"
      · obtain ⟨l, rfl, hl⟩ := hval hpeers
        obtain ⟨ps', hps'⟩ := (parse_list_dict_ok_iff l).mpr hl
        rw [if_pos hpeers, be_node.l_BE_LIST, ok_bind, hps', ok_bind]
        exact (ih ps').mpr hrest
      · rw [if_neg hpeers]
        exact (ih peers).mpr hrest

section Request
variable {be_decoden : List UInt8 → Option be_node} {info_hash peer_id : Mem}
  {chunks : List (List UInt8)} {stack : Mem} {peers : List peer}

/-- Whenever `request` comes to its end it returns 0. -/
theorem request_ok {code : Int} {ps : List peer}
    (h : request be_decoden (some info_hash) (some peer_id) chunks stack peers = .ok (code, ps)) :
    code = 0 := by
  rw [request_some] at h
  split at h
  · cases h
  · obtain ⟨d, -, h⟩ := bind_eq_ok.mp h
    obtain ⟨ps', -, h⟩ := bind_eq_ok.mp h
    exact (Prod.mk.inj (Except.ok.inj h)).1.symm

/-- It does so for the trees that can be read. -/
theorem request_ok_iff :
    (∃ r, request be_decoden (some info_hash) (some peer_id) chunks stack peers = .ok r) ↔
      Readable (decoded be_decoden chunks stack) := by
  rw [request_some]
  unfold decoded
  cases be_decode be_decoden ((response chunks stack).val.slice 0 responseSize) with
  | none =>
    constructor
    · rintro ⟨r, h⟩
      cases h
    · rintro ⟨d, h, -⟩
      cases h
  | some n =>
    constructor
    · rintro ⟨r, h⟩
      obtain ⟨d, hd, hloop⟩ := bind_eq_ok.mp h
      obtain rfl := be_node.d_eq_ok.mp hd
      obtain ⟨ps, hps, -⟩ := bind_eq_ok.mp hloop
      exact ⟨d, rfl, (readPeers_ok_iff d peers).mp ⟨ps, hps⟩⟩
    · rintro ⟨d, heq, hd⟩
      obtain rfl := Option.some.inj heq
      obtain ⟨ps, hps⟩ := (readPeers_ok_iff d peers).mpr hd
      refine ⟨(0, ps), ?_⟩
      dsimp only
      rw [be_node.d_BE_DICT, ok_bind, hps]
      rfl

/-- Without a peer list the run would have to end with another number. -/
theorem hasPeerList_of_guarded (h : Guarded be_decoden info_hash peer_id chunks stack peers) :
    HasPeerList (decoded be_decoden chunks stack) := by
  obtain ⟨code, ps, hok, hbad⟩ := h
  by_contra hnone
  exact (hbad hnone).1 (request_ok hok)

/-- **Exactly when a bad answer changes nothing**: when it is none. -/
theorem guarded_iff : Guarded be_decoden info_hash peer_id chunks stack peers ↔
    HasPeerList (decoded be_decoden chunks stack) ∧
      Readable (decoded be_decoden chunks stack) := by
  have hends : (∃ r, request be_decoden (some info_hash) (some peer_id) chunks stack peers =
      .ok r) ↔ Readable (decoded be_decoden chunks stack) := request_ok_iff
  rw [← hends]
  constructor
  · intro h
    refine ⟨hasPeerList_of_guarded h, ?_⟩
    obtain ⟨code, ps, hok, -⟩ := h
    exact ⟨(code, ps), hok⟩
  · rintro ⟨hlist, ⟨code, ps⟩, hok⟩
    exact ⟨code, ps, hok, fun hnone => absurd hlist hnone⟩

end Request

/-- Nothing is decoded from the buffer of a transfer that has failed. -/
theorem decoded_empty (be_decoden : List UInt8 → Option be_node) (stack : Mem) :
    decoded be_decoden [] stack = be_decoden [] := by
  have hzeros : (response [] stack).val.slice 0 responseSize =
      [] ++ List.replicate (responseSize - 0) 0 := by
    refine (Mem.slice_eq_padded_iff _ (Nat.zero_le _)).mpr ?_
    intro p hp
    exact Mem.bzero_of_lt _ hp
  rw [decoded, hzeros, be_decode, cstr_append_zeros]
  rfl

/-- After a transfer that has failed the null pointer is read. -/
theorem not_guarded_empty : ¬ ∃ info_hash peer_id stack peers,
    Guarded decoder info_hash peer_id [] stack peers := by
  rintro ⟨info_hash, peer_id, stack, peers, h⟩
  obtain ⟨d, key, l, hroot, -⟩ := hasPeerList_of_guarded h
  rw [decoded_empty] at hroot
  cases hroot

end TrackerConnector
end TorrentClient
