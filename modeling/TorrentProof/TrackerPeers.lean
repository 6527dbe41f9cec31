import Mathlib
import TorrentProof.BeNode
import TorrentProof.TrackerBody

/-! # The peers of a tracker response

`request` decodes what is in the response buffer up to the first zero byte and takes
the peers from the list under `peers`.  It finds the fields of an entry by position,
and passes every string through a `char *`.  `listed_iff` says for which responses
this gives the peers of the list all the same.
-/
namespace TorrentClient
open Bytes Bencode CText Fallible
namespace TrackerConnector

/-- `struct peer`. -/
structure peer where
  ip : List UInt8
  peer_id : List UInt8
  port : Int32

/-- The body of the loop in `parse_list_dict`: the peer of one node, or `none` where
the loop is left. -/
def peerOf (node : be_node) : Except Fault (Option peer) := do
  let d ← node.d
  let (key, ip) ← be_node.entry d 0
  let key ← deref key
  -- `str.assign(key, 2)` copies two bytes, of which the terminator may be one
  if key = [] then throw .outOfBounds
  if (key ++ [0]).take 2 ≠ ascii "ip" then pure none
  else
    let ip ← ip.s
    let (_, peer_id) ← be_node.entry d 1
    let peer_id ← peer_id.s
    let (_, port) ← be_node.entry d 2
    let port ← port.i
    pure (some { ip := cstr ip, peer_id := cstr peer_id, port := port.toInt32 })

/-- `TrackerConnector::parse_list_dict(node)`. -/
def parse_list_dict : List be_node → Except Fault (List peer)
  | [] => pure []
  | node :: rest => do
    match ← peerOf node with
    | none => pure []
    | some p => do
      let peer_list ← parse_list_dict rest
      pure (p :: peer_list)

/-- The loop of `request` over the decoded dictionary, `peers` being the member of
that name. -/
def readPeers (peers : List peer) :
    List (Option (List UInt8) × be_node) → Except Fault (List peer)
  | [] => pure peers
  | (key, val) :: d => do
    let key ← deref key
    if cstr key = ascii "peers" then
      let peers ← parse_list_dict (← val.l)
      readPeers peers d
    else readPeers peers d

/-- `be_decode(data)`. -/
def be_decode (be_decoden : List UInt8 → Option be_node) (data : List UInt8) : Option be_node :=
  be_decoden (cstr data)

/-- `TrackerConnector::request(info_hash, peer_id, port)` with the response delivered in
`chunks`: the number returned and the member `peers` afterwards, which is what
`get_peers` returns.  The URL of the request is not part of the model, nor is what a chunk
larger than the buffer does to the memory behind it (`Delivery.Reassembled`). -/
def request (be_decoden : List UInt8 → Option be_node) (info_hash peer_id : Option Mem)
    (chunks : List (List UInt8)) (stack : Mem) (peers : List peer) :
    Except Fault (Int × List peer) :=
  if info_hash.isNone then pure (-1, peers)
  else if peer_id.isNone then pure (-1, peers)
  else
    match be_decode be_decoden ((response chunks stack).val.slice 0 responseSize) with
    | none => throw .nullPointer
    | some n => do
      let peers ← readPeers peers (← n.d)
      pure (0, peers)

/-! ## Responses -/

/-- An entry of a peer list: a dictionary that holds `ip`, `peer id` and `port`. -/
structure PeerEntry where
  dict : List (List UInt8 × Value)
  nodup : (dict.map Prod.fst).Nodup
  ip : List UInt8
  peerId : Vector UInt8 20
  port : Int64
  has_ip : (ascii "ip", .str ip) ∈ dict
  has_peerId : (ascii "peer id", .str peerId.toList) ∈ dict
  has_port : (ascii "port", .int port) ∈ dict

/-- A tracker response with a list of such entries under `peers`. -/
structure TrackerResponse where
  dict : List (List UInt8 × Value)
  nodup : (dict.map Prod.fst).Nodup
  peers : List PeerEntry
  has_peers : (ascii "peers", .list (peers.map fun e => .dict e.dict)) ∈ dict

/-- The response as it comes over the wire. -/
def TrackerResponse.text (r : TrackerResponse) : List UInt8 := encode (.dict r.dict)

/-- The peer of an entry. -/
def PeerEntry.Matches (e : PeerEntry) (p : peer) : Prop :=
  p.ip = e.ip ∧ p.peer_id = e.peerId.toList ∧ p.port.toInt = e.port.toInt

/-- **The peers of the response are listed**: after `request`, whatever was in the
buffer and in `peers` before, there is one peer for each entry, in the same order. -/
def TrackerResponse.Listed (be_decoden : List UInt8 → Option be_node) (r : TrackerResponse)
    (d : Delivery) : Prop :=
  ∀ info_hash peer_id stack peers, ∃ ps,
    request be_decoden (some info_hash) (some peer_id) d.chunks stack peers = .ok (0, ps) ∧
      List.Forall₂ (fun p e => e.Matches p) ps r.peers

/-- The first three values of an entry are the ip, the peer id and a number with the
low 32 bits of the port, and the first key begins with `ip`. -/
def PeerEntry.InOrder (e : PeerEntry) : Prop :=
  match e.dict with
  | (key, .str ip) :: (_, .str peerId) :: (_, .int port) :: _ =>
    key.take 2 = ascii "ip" ∧ ip = e.ip ∧ peerId = e.peerId.toList ∧
      port.toInt32.toInt = e.port.toInt
  | _ => False

/-! ## One node -/

/-- Two bytes are copied from a key, the terminator included. -/
theorem take_two_terminated (key : List UInt8) :
    (key ++ [0]).take 2 = ascii "ip" ↔ key.take 2 = ascii "ip" := by
  match key with
  | [] => decide
  | [a] =>
    rw [show ascii "ip" = [105, 112] from rfl]
    simp
  | a :: b :: key => rfl

/-- A node that does not end the program is a dictionary with a first key. -/
theorem head_of_peerOf {node : be_node} {p? : Option peer} (h : peerOf node = .ok p?) :
    ∃ key val rest, node = .BE_DICT ((some key, val) :: rest) ∧ key ≠ [] := by
  obtain ⟨d, hd, hfirst⟩ := bind_eq_ok.mp h
  obtain rfl := be_node.d_eq_ok.mp hd
  cases d with
  | nil => cases hfirst
  | cons e rest =>
    obtain ⟨key, val⟩ := e
    rw [be_node.entry_zero, ok_bind] at hfirst
    obtain ⟨key, hkey, hvalues⟩ := bind_eq_ok.mp hfirst
    obtain rfl := deref_eq_ok.mp hkey
    refine ⟨key, val, rest, rfl, ?_⟩
    rintro rfl
    cases hvalues

/-- The three values behind such a key. -/
def readPeer (val : be_node) (rest : List (Option (List UInt8) × be_node)) : Except Fault peer := do
  let ip ← val.s
  let (_, peer_id) ← be_node.entry rest 0
  let peer_id ← peer_id.s
  let (_, port) ← be_node.entry rest 1
  let port ← port.i
  pure { ip := cstr ip, peer_id := cstr peer_id, port := port.toInt32 }

theorem peerOf_eq {key : List UInt8} {val : be_node}
    {rest : List (Option (List UInt8) × be_node)} (hne : key ≠ []) :
    peerOf (.BE_DICT ((some key, val) :: rest)) =
      if key.take 2 = ascii "ip" then (readPeer val rest >>= fun p => .ok (some p))
      else .ok none := by
  by_cases hkey : key.take 2 = ascii "ip"
  · simp [peerOf, readPeer, hne, take_two_terminated, hkey, bind_assoc]
    rfl
  · simp [peerOf, hne, take_two_terminated, hkey]
    rfl

/-- **The three values are read if they are two strings and an integer**, as the next of a
dictionary. -/
theorem readPeer_eq_ok {val : be_node} {rest : List (Option (List UInt8) × be_node)} {p : peer} :
    readPeer val rest = .ok p ↔ ∃ ip k₁ peerId k₂ port rest', val = .BE_STR (some ip) ∧
      rest = (k₁, .BE_STR (some peerId)) :: (k₂, .BE_INT port) :: rest' ∧
        p = { ip := cstr ip, peer_id := cstr peerId, port := port.toInt32 } := by
  constructor
  · intro h
    obtain ⟨ip, hip, h⟩ := bind_eq_ok.mp h
    obtain ⟨⟨k₁, v₁⟩, h₁, h⟩ := bind_eq_ok.mp h
    obtain ⟨peerId, hid, h⟩ := bind_eq_ok.mp h
    obtain ⟨⟨k₂, v₂⟩, h₂, h⟩ := bind_eq_ok.mp h
    obtain ⟨port, hport, h⟩ := bind_eq_ok.mp h
    obtain rfl := be_node.s_eq_ok.mp hip
    obtain rfl := be_node.s_eq_ok.mp hid
    obtain rfl := be_node.i_eq_ok.mp hport
    rw [be_node.entry_eq_ok] at h₁ h₂
    match rest, h₁, h₂ with
    | _ :: _ :: rest', h₁, h₂ =>
      obtain rfl := Option.some.inj h₁
      obtain rfl := Option.some.inj h₂
      exact ⟨ip, k₁, peerId, k₂, port, rest', rfl, rfl, (Except.ok.inj h).symm⟩
  · rintro ⟨ip, k₁, peerId, k₂, port, rest', rfl, rfl, rfl⟩
    rfl

/-! ## One entry -/

/-- Where the text of a dictionary has no zero byte, its keys and values have none. -/
theorem not_mem_of_entry {dict : List (List UInt8 × Value)} {k : List UInt8} {v : Value}
    (h0 : 0 ∉ encode (.dict dict)) (h : (k, v) ∈ dict) : 0 ∉ k ∧ 0 ∉ encode v := by
  have hsub : 0 ∉ encodeStr k ++ encode v := fun hmem =>
    h0 (((entry_infix_of_mem h).trans (infix_encodeDict dict)).subset hmem)
  rw [List.mem_append, not_or] at hsub
  exact ⟨not_mem_encodeStr hsub.1, hsub.2⟩

theorem cstr_entry {dict : List (List UInt8 × Value)} {k s : List UInt8}
    (h0 : 0 ∉ encode (.dict dict)) (h : (k, .str s) ∈ dict) : cstr s = s :=
  cstr_eq_self (not_mem_encodeStr (not_mem_of_entry h0 h).2)

theorem TrackerResponse.not_mem_entry (r : TrackerResponse) (h0 : 0 ∉ r.text) :
    ∀ e ∈ r.peers, 0 ∉ encode (.dict e.dict) := by
  intro e he hmem
  refine (not_mem_of_entry h0 r.has_peers).2 ?_
  rw [encode]
  exact List.mem_append_left _ (List.mem_cons_of_mem _
    (encode_subset_of_mem (List.mem_map.mpr ⟨e, he, rfl⟩) hmem))

section Entry
variable {e : PeerEntry}

theorem peerOf_cons (key k₁ k₂ ip peerId : List UInt8) (port : Int64)
    (rest : List (List UInt8 × Value)) (hkey : key.take 2 = ascii "ip") :
    peerOf (node (.dict ((key, .str ip) :: (k₁, .str peerId) :: (k₂, .int port) :: rest))) =
      .ok (some { ip := cstr ip, peer_id := cstr peerId, port := port.toInt32 }) := by
  have hne : key ≠ [] := by
    rintro rfl
    exact absurd hkey (by decide)
  rw [node, entries, peerOf_eq hne, if_pos hkey]
  rfl

/-- What is read as a peer has the fields of a peer in their places. -/
theorem peerOf_inv {dict : List (List UInt8 × Value)} {p : peer}
    (h : peerOf (node (.dict dict)) = .ok (some p)) :
    ∃ key k₁ k₂ ip peerId port rest,
      dict = (key, .str ip) :: (k₁, .str peerId) :: (k₂, .int port) :: rest ∧
        key.take 2 = ascii "ip" ∧
        p = { ip := cstr ip, peer_id := cstr peerId, port := port.toInt32 } := by
  obtain ⟨key', val, rest', hnode, hne⟩ := head_of_peerOf h
  rw [hnode, peerOf_eq hne] at h
  split at h
  next hkey =>
    obtain ⟨p', hread, hp⟩ := bind_eq_ok.mp h
    obtain rfl := Option.some.inj (Except.ok.inj hp)
    obtain ⟨ip, k₁', peerId, k₂', port, rest'', rfl, rfl, rfl⟩ := readPeer_eq_ok.mp hread
    obtain ⟨key, v₀, d₁, rfl, hkey', hv₀, hd₁⟩ := entries_eq_cons (be_node.BE_DICT.inj hnode)
    obtain ⟨k₁, v₁, d₂, rfl, -, hv₁, hd₂⟩ := entries_eq_cons hd₁
    obtain ⟨k₂, v₂, rest, rfl, -, hv₂, -⟩ := entries_eq_cons hd₂
    obtain rfl := node_eq_BE_STR.mp hv₀
    obtain rfl := node_eq_BE_STR.mp hv₁
    obtain rfl := node_eq_BE_INT.mp hv₂
    obtain rfl := Option.some.inj hkey'
    exact ⟨key', k₁, k₂, ip, peerId, port, rest, rfl, hkey, rfl⟩
  · cases h

/-- **An entry is read as its peer if and only if its fields are in their places.** -/
theorem peerOf_iff (h0 : 0 ∉ encode (.dict e.dict)) :
    (∃ p, peerOf (node (.dict e.dict)) = .ok (some p) ∧ e.Matches p) ↔ e.InOrder := by
  constructor
  · rintro ⟨p, hp, hip, hid, hport⟩
    obtain ⟨key, k₁, k₂, ip, peerId, port, rest, hdict, hkey, rfl⟩ := peerOf_inv hp
    rw [PeerEntry.InOrder, hdict]
    dsimp only at hip hid hport ⊢
    rw [cstr_entry (k := key) h0 (by rw [hdict]; simp)] at hip
    rw [cstr_entry (k := k₁) h0 (by rw [hdict]; simp)] at hid
    exact ⟨hkey, hip, hid, hport⟩
  · intro h
    rw [PeerEntry.InOrder] at h
    split at h
    next key ip k₁ peerId k₂ port rest hdict =>
      obtain ⟨hkey, hip, hid, hport⟩ := h
      have hread : peerOf (node (.dict e.dict)) =
          .ok (some { ip := cstr ip, peer_id := cstr peerId, port := port.toInt32 }) := by
        rw [hdict]
        exact peerOf_cons key k₁ k₂ ip peerId port rest hkey
      refine ⟨_, hread, ?_, ?_, hport⟩
      · exact (cstr_entry (k := key) h0 (by rw [hdict]; simp)).trans hip
      · exact (cstr_entry (k := k₁) h0 (by rw [hdict]; simp)).trans hid
    · exact h.elim

end Entry

/-! ## The list -/

/-- The list is read whole if and only if every entry is. -/
theorem parse_list_dict_iff {es : List PeerEntry}
    (h0 : ∀ e ∈ es, 0 ∉ encode (.dict e.dict)) :
    (∃ ps, parse_list_dict (es.map fun e => node (.dict e.dict)) = .ok ps ∧
      List.Forall₂ (fun p e => e.Matches p) ps es) ↔ ∀ e ∈ es, e.InOrder := by
  induction es with
  | nil =>
    constructor
    · intro _ e he
      exact absurd he List.not_mem_nil
    · intro _
      exact ⟨[], rfl, .nil⟩
  | cons e es ih =>
    have ih := ih fun e' he' => h0 e' (List.mem_cons_of_mem e he')
    have hhead := peerOf_iff (h0 e List.mem_cons_self)
    rw [List.map_cons, parse_list_dict, List.forall_mem_cons, ← hhead, ← ih]
    constructor
    · rintro ⟨ps, hps, hmatch⟩
      obtain ⟨p?, hp, hps⟩ := bind_eq_ok.mp hps
      cases p? with
      | none =>
        -- the loop was left: no peer for this entry
        obtain rfl := Except.ok.inj hps
        cases hmatch
      | some p =>
        obtain ⟨ps', hps', hps⟩ := bind_eq_ok.mp hps
        obtain rfl := Except.ok.inj hps
        obtain ⟨hpe, hmatch⟩ := List.forall₂_cons.mp hmatch
        exact ⟨⟨p, hp, hpe⟩, ps', hps', hmatch⟩
    · rintro ⟨⟨p, hp, hpe⟩, ps, hps, hmatch⟩
      refine ⟨p :: ps, ?_, .cons hpe hmatch⟩
      rw [hp, ok_bind]
      dsimp only
      rw [hps]
      rfl

/-! ## The response -/

section Dict
variable {dict : List (List UInt8 × Value)} {peers : List peer}

/-- A dictionary without the key `peers` leaves the member as it is. -/
theorem readPeers_of_not_mem (h0 : ∀ e ∈ dict, 0 ∉ e.1) (h : ascii "peers" ∉ dict.map Prod.fst) :
    readPeers peers (entries dict) = .ok peers := by
  induction dict with
  | nil => rfl
  | cons e dict ih =>
    obtain ⟨k, v⟩ := e
    rw [List.map_cons, List.mem_cons, not_or] at h
    rw [List.forall_mem_cons] at h0
    have hk : cstr k ≠ ascii "peers" := by
      rw [cstr_eq_self h0.1]
      exact Ne.symm h.1
    rw [entries, readPeers, deref_some, ok_bind, if_neg hk, ih h0.2 h.2]

/-- The list under `peers` is what the member is set to. -/
theorem readPeers_of_mem {l : List Value} (h0 : ∀ e ∈ dict, 0 ∉ e.1)
    (hnodup : (dict.map Prod.fst).Nodup) (h : (ascii "peers", .list l) ∈ dict) :
    readPeers peers (entries dict) = parse_list_dict (nodes l) := by
  induction dict with
  | nil => exact absurd h List.not_mem_nil
  | cons e dict ih =>
    obtain ⟨k, v⟩ := e
    rw [List.map_cons, List.nodup_cons] at hnodup
    rw [List.forall_mem_cons] at h0
    rw [entries, readPeers, deref_some, ok_bind, cstr_eq_self h0.1]
    rcases List.mem_cons.mp h with heq | hmem
    · obtain ⟨rfl, rfl⟩ := Prod.mk.inj heq
      rw [if_pos rfl, node, be_node.l_BE_LIST, ok_bind]
      cases parse_list_dict (nodes l) with
      | error fault => rfl
      | ok ps => exact readPeers_of_not_mem h0.2 hnodup.1
    · have hne : k ≠ ascii "peers" := by
        rintro rfl
        exact hnodup.1 (List.mem_map.mpr ⟨_, hmem, rfl⟩)
      rw [if_neg hne, ih h0.2 hnodup.2 hmem]

end Dict

/-- Zeros behind a text do not change its first C string. -/
theorem cstr_append_zeros (s : List UInt8) (n : Nat) :
    cstr (s ++ List.replicate n 0) = cstr s := by
  have hz : (List.replicate n (0 : UInt8)).takeWhile (· != 0) = [] := by
    cases n <;> rfl
  rw [cstr, cstr, List.takeWhile_append, hz, List.append_nil]
  split
  next h => exact (List.takeWhile_prefix _).eq_of_length h |>.symm
  · rfl

/-- With a zero byte in it, the text that is decoded breaks off before its end. -/
theorem be_decode_of_mem_zero {be_decoden : List UInt8 → Option be_node}
    (hdec : Grammatical be_decoden) {v : Value} (h0 : 0 ∈ encode v) :
    be_decode be_decoden (encode v) = none := by
  refine hdec.2 _ ?_
  intro v' rest heq
  have hsplit : encode v ++ [] = encode v' ++ (rest ++ (encode v).dropWhile (· != 0)) := by
    rw [← List.append_assoc, ← heq, List.append_nil]
    exact List.takeWhile_append_dropWhile.symm
  have hnil := (List.append_eq_nil_iff.mp (encode_append_inj hsplit).2.symm).2
  have := List.dropWhile_eq_nil_iff.mp hnil 0 h0
  exact absurd this (by decide)

theorem request_some (be_decoden : List UInt8 → Option be_node) (info_hash peer_id : Mem)
    (chunks : List (List UInt8)) (stack : Mem) (peers : List peer) :
    request be_decoden (some info_hash) (some peer_id) chunks stack peers =
      match be_decode be_decoden ((response chunks stack).val.slice 0 responseSize) with
      | none => .error .nullPointer
      | some n => n.d >>= fun d => readPeers peers d >>= fun peers => .ok (0, peers) := rfl

section Request
variable {be_decoden : List UInt8 → Option be_node} (hdec : Grammatical be_decoden)
  {r : TrackerResponse} {d : Delivery} (hbody : d.body = r.text)
  (hfits : d.body.length < responseSize) (hintact : d.Intact)
include hbody hfits hintact

/-- What `request` decodes. -/
theorem be_decode_response (stack : Mem) :
    be_decode be_decoden ((response d.chunks stack).val.slice 0 responseSize) =
      be_decode be_decoden r.text := by
  rw [(d.slice_response_iff stack hfits).mpr (hintact.2 hfits), be_decode, cstr_append_zeros,
    hbody, be_decode]

include hdec

/-- Without a zero byte in the response, `request` reads the list of the response. -/
theorem request_eq (h0 : 0 ∉ r.text) (info_hash peer_id stack : Mem) (peers : List peer) :
    request be_decoden (some info_hash) (some peer_id) d.chunks stack peers =
      (parse_list_dict (r.peers.map fun e => node (.dict e.dict)) >>= fun ps => .ok (0, ps)) := by
  have hwhole : be_decode be_decoden r.text = some (node (.dict r.dict)) := by
    rw [be_decode, cstr_eq_self h0, ← List.append_nil r.text]
    exact hdec.1 (.dict r.dict) []
  have hkeys : ∀ e ∈ r.dict, 0 ∉ e.1 := fun e he => (not_mem_of_entry h0 (v := e.2) he).1
  rw [request_some, be_decode_response hbody hfits hintact, hwhole]
  dsimp only
  rw [node, be_node.d_BE_DICT, ok_bind, readPeers_of_mem hkeys r.nodup r.has_peers, nodes_eq_map,
    List.map_map]
  rfl

/-- A response with a zero byte is not decoded at all. -/
theorem not_listed_of_mem_zero (h0 : 0 ∈ r.text) : ¬ r.Listed be_decoden d := by
  intro h
  obtain ⟨ps, hps, -⟩ := h (fun _ => 0) (fun _ => 0) (fun _ => 0) []
  have hnone : be_decode be_decoden r.text = none := be_decode_of_mem_zero hdec h0
  rw [request_some, be_decode_response hbody hfits hintact, hnone] at hps
  cases hps

/-- **Exactly which responses have their peers listed.** -/
theorem listed_iff : r.Listed be_decoden d ↔ 0 ∉ r.text ∧ ∀ e ∈ r.peers, e.InOrder := by
  by_cases h0 : 0 ∈ r.text
  · exact iff_of_false (not_listed_of_mem_zero hdec hbody hfits hintact h0) fun h => h.1 h0
  · rw [← parse_list_dict_iff (r.not_mem_entry h0)]
    constructor
    · intro h
      refine ⟨h0, ?_⟩
      obtain ⟨ps, hps, hmatch⟩ := h (fun _ => 0) (fun _ => 0) (fun _ => 0) []
      rw [request_eq hdec hbody hfits hintact h0] at hps
      obtain ⟨ps', hparse, heq⟩ := bind_eq_ok.mp hps
      obtain ⟨-, rfl⟩ := Prod.mk.inj (Except.ok.inj heq)
      exact ⟨ps', hparse, hmatch⟩
    · rintro ⟨-, ps, hparse, hmatch⟩ info_hash peer_id stack peers
      exact ⟨ps, by rw [request_eq hdec hbody hfits hintact h0, hparse]; rfl, hmatch⟩

end Request

/-- A response with one peer, whose fields come in the order of their keys. -/
def onePeer (peerId : Vector UInt8 20) : TrackerResponse where
  dict := [(ascii "peers", .list [.dict [(ascii "ip", .str (ascii "10.0.0.7")),
    (ascii "peer id", .str peerId.toList), (ascii "port", .int 6881)]])]
  nodup := show [ascii "peers"].Nodup by decide
  peers := [{
    dict := [(ascii "ip", .str (ascii "10.0.0.7")), (ascii "peer id", .str peerId.toList),
      (ascii "port", .int 6881)]
    nodup := show [ascii "ip", ascii "peer id", ascii "port"].Nodup by decide
    ip := ascii "10.0.0.7"
    peerId := peerId
    port := 6881
    has_ip := List.mem_cons_self
    has_peerId := List.mem_cons_of_mem _ List.mem_cons_self
    has_port := List.mem_cons_of_mem _ (List.mem_cons_of_mem _ List.mem_cons_self) }]
  has_peers := List.mem_cons_self

/-- A response delivered at once. -/
def TrackerResponse.atOnce (r : TrackerResponse) : Delivery :=
  ⟨[r.text], by simp [TrackerResponse.text, encode]⟩

theorem onePeer_listed :
    (onePeer (Vector.replicate 20 65)).Listed decoder
      (onePeer (Vector.replicate 20 65)).atOnce := by
  refine (listed_iff grammatical_decoder (List.append_nil _) (by decide) (by decide)).mpr
    ⟨by decide, fun e he => ?_⟩
  obtain rfl := List.mem_singleton.mp he
  exact ⟨by decide, rfl, rfl, by decide⟩

/-- A peer id of zero bytes. -/
theorem zeroPeer_not_listed :
    ¬ (onePeer (Vector.replicate 20 0)).Listed decoder
      (onePeer (Vector.replicate 20 0)).atOnce :=
  not_listed_of_mem_zero grammatical_decoder (List.append_nil _) (by decide) (by decide)
    (by decide)

end TrackerConnector
end TorrentClient
