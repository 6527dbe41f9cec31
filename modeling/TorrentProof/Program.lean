import Mathlib
import TorrentProof.AnnounceUrl
import TorrentProof.Connect
import TorrentProof.DecodeCalls
import TorrentProof.MetafileFields
import TorrentProof.PollRound

/-! # The program

`main` reads a port off its second argument, and `Torrent::Torrent` does the rest: it reads the
metafile, asks the tracker, greets the peers it is told of, and goes into its event loop.  The
first peer ends the program, since its handshake is given the null pointer for its size.  So
the loop is started if and only if there is none (`torrent_starts_iff`), and then it waits for
nothing, forever (`main_idle`).
-/
namespace TorrentClient
open Bytes Bencode CText Decimal Fallible Numerals TrackerConnector Url

/-- What the program finds around it. -/
structure World where
  /-- the contents of the file at a path, if it can be opened -/
  file : List UInt8 → Option (List UInt8)
  SHA1 : List UInt8 → Vector UInt8 20
  curl_easy_escape : List UInt8 → List UInt8
  /-- the response to the request of a URL -/
  answer : List UInt8 → Delivery
  rand : Nat → Nat
  /-- the listening socket -/
  sock : Int
  /-- what `socket` and `connect` return for each peer -/
  rounds : Nat → Round
  /-- what is in the memory before it is written -/
  heap : Mem
  stack : Mem
  stale : Metafile
  slots : Vector pollfd 5

/-! ## The port -/

/-- The `int` nearest to a number. -/
def clampInt (n : Int) : Int32 := Int32.ofInt (max (-2 ^ 31) (min (2 ^ 31 - 1) n))

/-- `argv2 << arg; argv2 >> port`, where `port` held `stale`: it stays so if there is nothing but
white space. -/
def readPort (stale : Int32) (arg : List UInt8) : Int32 :=
  let text := arg.dropWhile isSpace
  if text = [] then stale
  else
    let number := signOf text
    clampInt (number.1 * value (number.2.takeWhile isDigit))

/-- `htons(port)`, as a number. -/
def listeningPort (port : Int32) : UInt16 := port.toUInt32.toUInt16

/-! ## The constructor and `main` -/

/-- The program at its event loop. -/
structure Started where
  «meta» : Metafile
  /-- the URL that was requested -/
  url : List UInt8
  sin_port : UInt16
  peers : List peer
  /-- the handshakes that were sent -/
  sent : List (List UInt8)
  loop : EventLoop

/-- `make_peer_id()` with its length. -/
def ownId (rand : Nat → Nat) : Vector UInt8 20 :=
  ⟨(make_peer_id rand).toArray, by simp [length_make_peer_id]⟩

/-- The URL of the request for a metafile. -/
def requestUrl (w : World) («meta» : Metafile) (port : Int32) : List UInt8 :=
  encode w.curl_easy_escape «meta».announce «meta».info_hash (ownId w.rand) port

/-- `connector.request(meta.info_hash, peer_id.c_str(), port)`. -/
def askTracker (w : World) («meta» : Metafile) (port : Int32) : Except Fault (Int × List peer) :=
  request_decoded (some (Mem.ofList «meta».info_hash.toList fun _ => 0))
    (some (Mem.ofList (ownId w.rand).toList fun _ => 0))
    (w.answer (requestUrl w «meta» port)).chunks w.stack []

/-- `Torrent::Torrent(metafile_path, port)`, up to its event loop. -/
def Torrent (w : World) (metafile_path : List UInt8) (port : Int32) : Except Fault Started := do
  match w.file metafile_path with
  -- `tellg` returns -1
  | none => throw .badAlloc
  | some memblock => do
    let («meta», _) ← Metafile.create_metafile w.SHA1 w.heap memblock w.stale
    let (_, peers) ← askTracker w «meta» port
    let hash := Mem.ofList «meta».info_hash.toList fun _ => 0
    let handshakes := handshakeLoop .null hash w.rounds 0 peers
    match handshakes.halt with
    | some fault => throw fault
    | none => pure ⟨«meta», requestUrl w «meta» port, listeningPort port, peers, handshakes.sent,
        .init w.sock w.slots⟩

/-- What becomes of `main`: it returns a status, or it stays in the constructor. -/
inductive Outcome where
  | returned (status : Int)
  | started (s : Started)

/-- `main(argc, argv)`, where `port` holds `stale` before it is read. -/
def main (w : World) (stale : Int32) : List (List UInt8) → Except Fault Outcome
  | [_, path, arg] => do
    let s ← Torrent w path (readPort stale arg)
    pure (.started s)
  | _ => pure (.returned (-1))

/-! ## Nothing is ever served -/

section Idle
variable {sock : Int} {stale : Vector pollfd 5} {s s' : EventLoop}

/-- Where no slot is counted nothing is accepted. -/
theorem accepted_step (h : s.fd_count = 0) (hstep : EventLoop.Step sock s s') :
    s'.accepted = s.accepted := by
  cases hstep with
  | poll _ _ => rfl
  | done _ _ => rfl
  | skip _ _ _ _ => rfl
  | accept _ _ _ hi _ _ _ => omega
  | receive _ _ _ _ _ => rfl

theorem accepted_of_reachable (h : EventLoop.Reachable sock stale s) : s.accepted = [] := by
  induction h with
  | refl => rfl
  | tail hreach hstep ih =>
    rw [accepted_step (EventLoop.fd_count_of_reachable hreach) hstep, ih]

end Idle

/-- A program that waits for nothing: it has no peer and has sent nothing, and its loop, however
long it runs, polls no descriptor, accepts no connection and receives nothing. -/
structure Started.Idle (sock : Int) (s : Started) : Prop where
  peers : s.peers = []
  sent : s.sent = []
  polled : ∀ l, Relation.ReflTransGen (EventLoop.Step sock) s.loop l → l.polled = []
  accepted : ∀ l, Relation.ReflTransGen (EventLoop.Step sock) s.loop l → l.accepted = []
  serves : ∀ l, Relation.ReflTransGen (EventLoop.Step sock) s.loop l → ∀ j, ¬ l.Serves j

/-- The loop over the peers gets to its end where there is none. -/
theorem halt_handshakeLoop {hash : Mem} {rounds : Nat → Round} {i : Nat} {qs : List peer} :
    (handshakeLoop .null hash rounds i qs).halt = if qs = [] then none else some .nullPointer := by
  cases qs with
  | nil => rfl
  | cons q qs => rfl

theorem Torrent_eq_ok {w : World} {path : List UInt8} {port : Int32} {s : Started} :
    Torrent w path port = .ok s ↔ ∃ memblock «meta» left ret, w.file path = some memblock ∧
      Metafile.create_metafile w.SHA1 w.heap memblock w.stale = .ok («meta», left) ∧
      askTracker w «meta» port = .ok (ret, []) ∧
      s = ⟨«meta», requestUrl w «meta» port, listeningPort port, [], [], .init w.sock w.slots⟩ := by
  rw [Torrent]
  constructor
  · intro h
    cases hfile : w.file path with
    | none =>
      rw [hfile] at h
      cases h
    | some memblock =>
      rw [hfile] at h
      obtain ⟨⟨«meta», left⟩, hmeta, h⟩ := bind_eq_ok.mp h
      obtain ⟨⟨ret, peers⟩, hpeers, h⟩ := bind_eq_ok.mp h
      dsimp only at h
      rw [halt_handshakeLoop, sent_handshakeLoop_null] at h
      by_cases hnil : peers = []
      · subst hnil
        exact ⟨memblock, «meta», left, ret, rfl, hmeta, hpeers, (Except.ok.inj h).symm⟩
      · rw [if_neg hnil] at h
        cases h
  · rintro ⟨memblock, «meta», left, ret, hfile, hmeta, hpeers, rfl⟩
    rw [hfile]
    dsimp only
    rw [hmeta, ok_bind, hpeers]
    rfl

/-- The loop that is started waits for nothing. -/
theorem idle_of_Torrent {w : World} {path : List UInt8} {port : Int32} {s : Started}
    (h : Torrent w path port = .ok s) : s.Idle w.sock := by
  obtain ⟨memblock, «meta», left, ret, -, -, -, rfl⟩ := Torrent_eq_ok.mp h
  refine ⟨rfl, rfl, ?_, fun l hl => accepted_of_reachable hl, ?_⟩
  · intro l hl
    rw [EventLoop.polled, EventLoop.fd_count_of_reachable hl, List.take_zero]
  · rintro l hl j ⟨-, hj, -⟩
    rw [EventLoop.fd_count_of_reachable hl] at hj
    exact Nat.not_lt_zero j hj

/-- **Whatever the arguments, the file, the tracker and the peers are, the program returns at
once, ends in a fault, or waits for nothing.** -/
theorem main_idle (w : World) (stale : Int32) (argv : List (List UInt8)) :
    Ends (fun _ => True) (main w stale argv) fun o =>
      o = .returned (-1) ∨ ∃ s, o = .started s ∧ s.Idle w.sock := by
  match argv with
  | [_, path, arg] =>
    rw [main, ends_bind]
    cases h : Torrent w path (readPort stale arg) with
    | error _ => trivial
    | ok s => exact .inr ⟨s, rfl, idle_of_Torrent h⟩
  | [] => exact .inl rfl
  | [_] => exact .inl rfl
  | [_, _] => exact .inl rfl
  | _ :: _ :: _ :: _ :: _ => exact .inl rfl

/-! ## When the loop is started -/

/-- A world in which all goes well as far as the metafile and the tracker are concerned: the
file at `path` is a torrent file, and whatever the request, the response comes over intact, fits
its buffer and has its peers in a form that `request` reads. -/
structure World.Proper (w : World) (path : List UInt8) (f : TorrentFile) (r : TrackerResponse) :
    Prop where
  file : w.file path = some f.text
  file_lt : f.text.length < 2 ^ 63
  body : ∀ url, (w.answer url).body = r.text
  intact : ∀ url, (w.answer url).Intact
  fits : r.text.length < responseSize
  no_zero : 0 ∉ r.text
  inOrder : ∀ e ∈ r.peers, e.InOrder

section Starts
variable {w : World} {path : List UInt8} {f : TorrentFile} {r : TrackerResponse}
  (h : w.Proper path f r) (port : Int32)
include h

/-- The tracker is asked, and answers with its peers. -/
theorem askTracker_proper («meta» : Metafile) : ∃ ps : List peer, ps.length = r.peers.length ∧
    askTracker w «meta» port =
      if filled (.dict r.dict) = true then .ok (0, ps) else .error .nullPointer := by
  have hbody := h.body (requestUrl w «meta» port)
  have hintact := h.intact (requestUrl w «meta» port)
  have hfits : (w.answer (requestUrl w «meta» port)).body.length < responseSize := by
    rw [hbody]
    exact h.fits
  obtain ⟨ps, hps, hmatch⟩ :=
    (parse_list_dict_iff (r.not_mem_entry h.no_zero)).mpr h.inOrder
  refine ⟨ps, hmatch.length_eq, ?_⟩
  rw [askTracker]
  by_cases hfilled : filled (.dict r.dict) = true
  · rw [if_pos hfilled, request_decoded_filled hbody hfits hintact h.no_zero _ _ _ _ hfilled,
      request_eq grammatical_decoder hbody hfits hintact h.no_zero, hps]
    rfl
  · rw [if_neg hfilled, request_decoded_not_filled hbody hfits hintact h.no_zero _ _ _ _ hfilled]

/-- The metafile is read. -/
theorem create_metafile_proper :
    (∃ «meta» left, Metafile.create_metafile w.SHA1 w.heap f.text w.stale = .ok («meta», left)) ↔
      filled (.dict f.dict) = true ∧ f.Reads := by
  have hiff : (∃ m left, Metafile.create_metafile w.SHA1 w.heap f.text w.stale =
      .ok (m, left) ∧ True) ↔ _ :=
    Metafile.create_metafile_ok_iff w.SHA1 w.heap w.stale f h.file_lt fun _ => True
  simp only [and_true] at hiff
  rw [hiff, create_metafile_ok_iff f f.decoder_text]

/-- With no peer to greet the loop is started. -/
theorem torrent_starts (hread : filled (.dict f.dict) = true ∧ f.Reads)
    (hfilled : filled (.dict r.dict) = true) (hpeers : r.peers = []) :
    ∃ s, Torrent w path port = .ok s := by
  obtain ⟨«meta», left, hmeta⟩ := (create_metafile_proper h).mpr hread
  obtain ⟨ps, hlen, hps⟩ := askTracker_proper h port «meta»
  rw [if_pos hfilled] at hps
  obtain rfl : ps = [] := List.eq_nil_of_length_eq_zero (by rw [hlen, hpeers]; rfl)
  exact ⟨_, Torrent_eq_ok.mpr ⟨f.text, «meta», left, 0, h.file, hmeta, hps, rfl⟩⟩

/-- **The event loop is started if and only if** the metafile can be read, neither it nor the
response has an empty dictionary in it, and **the tracker has no peer**. -/
theorem torrent_starts_iff : (∃ s, Torrent w path port = .ok s) ↔
    (filled (.dict f.dict) = true ∧ f.Reads) ∧ filled (.dict r.dict) = true ∧ r.peers = [] := by
  constructor
  · rintro ⟨s, hs⟩
    obtain ⟨memblock, «meta», left, ret, hfile, hmeta, hask, -⟩ := Torrent_eq_ok.mp hs
    obtain rfl := Option.some.inj (h.file.symm.trans hfile)
    obtain ⟨ps, hlen, hps⟩ := askTracker_proper h port «meta»
    rw [hask] at hps
    by_cases hfilled : filled (.dict r.dict) = true
    · rw [if_pos hfilled] at hps
      obtain ⟨-, rfl⟩ := Prod.mk.inj (Except.ok.inj hps)
      exact ⟨(create_metafile_proper h).mp ⟨«meta», left, hmeta⟩, hfilled,
        List.length_eq_zero_iff.mp hlen.symm⟩
    · rw [if_neg hfilled] at hps
      cases hps
  · rintro ⟨hread, hfilled, hpeers⟩
    exact torrent_starts h port hread hfilled hpeers

/-- With a peer to greet the program ends, as it would write through the null pointer. -/
theorem torrent_null_of_peers (hfilled : filled (.dict f.dict) = true) (hreads : f.Reads)
    (hpeers : r.peers ≠ []) : Torrent w path port = .error .nullPointer := by
  obtain ⟨«meta», left, hmeta⟩ := (create_metafile_proper h).mpr ⟨hfilled, hreads⟩
  obtain ⟨ps, hlen, hps⟩ := askTracker_proper h port «meta»
  rw [Torrent, h.file]
  dsimp only
  rw [hmeta, ok_bind, hps]
  by_cases hfilled : filled (.dict r.dict) = true
  · have hne : ps ≠ [] := by
      rintro rfl
      exact hpeers (List.length_eq_zero_iff.mp hlen.symm)
    rw [if_pos hfilled, ok_bind]
    dsimp only
    rw [halt_handshakeLoop, if_neg hne]
    rfl
  · rw [if_neg hfilled]
    rfl

end Starts

/-- A response without a peer. -/
def noPeers : TrackerResponse where
  dict := [(ascii "peers", .list [])]
  nodup := List.nodup_singleton _
  peers := []
  has_peers := List.mem_cons_self

/-- A world in which every file announces no pieces, and every request is answered so. -/
def quietWorld : World where
  file _ := some (TorrentFile.announcing [] []).text
  SHA1 _ := Vector.replicate 20 0
  curl_easy_escape := percentEncode
  answer _ := noPeers.atOnce
  rand _ := 0
  sock := 3
  rounds _ := ⟨4, 0, fun _ => 0, fun _ => 0⟩
  heap _ := 0
  stack _ := 0
  stale := default
  slots := EventLoop.zeroSlots

theorem proper_quietWorld : quietWorld.Proper [] (TorrentFile.announcing [] []) noPeers where
  file := rfl
  file_lt := by decide
  body _ := List.append_nil _
  intact _ := show noPeers.atOnce.Intact by decide
  fits := by decide
  no_zero := by decide
  inOrder _ he := absurd he List.not_mem_nil

theorem reads_quietWorld : (TorrentFile.announcing [] []).Reads :=
  ⟨22, 15, 0, by unfold TorrentFile.Found; decide, by decide, by decide⟩

theorem torrent_starts_iff_quietWorld : ∃ s, Torrent quietWorld [] 6881 = .ok s :=
  (torrent_starts_iff proper_quietWorld 6881).mpr ⟨⟨rfl, reads_quietWorld⟩, rfl, rfl⟩

/-! ## The port that is announced -/

theorem toInt_clampInt (n : Int) : (clampInt n).toInt = max (-2 ^ 31) (min (2 ^ 31 - 1) n) := by
  rw [clampInt, Int32.toInt_ofInt_of_le]
  · omega
  · omega

/-- A number is read up to a byte that is no digit. -/
theorem readPort_numeral (n : Numeral) {rest : List UInt8}
    (hrest : ∀ b ∈ rest.head?, isDigit b = false) (stale : Int32) :
    readPort stale (n.text ++ rest) = clampInt n.number := by
  obtain ⟨sign, hsign, hnumber⟩ := n.signOf_text rest
  have htake : (n.digits ++ rest).takeWhile isDigit = n.digits := by
    rw [List.takeWhile_append_of_pos n.isDigit_of_mem]
    cases rest with
    | nil => simp
    | cons b rest =>
      have hb := hrest b rfl
      rw [List.takeWhile_cons_of_neg (by simp [hb])]
      exact List.append_nil _
  have hne : signText n.sign ++ n.digits ++ rest ≠ [] := by
    simp [n.digits_ne_nil]
  rw [readPort, n.dropWhile_text]
  dsimp only
  rw [if_neg hne, hsign]
  dsimp only
  rw [htake, hnumber]

/-- `htons` takes the port as it is if 16 bits hold it. -/
theorem listeningPort_eq_iff (port : Int32) :
    ((listeningPort port).toNat : Int) = port.toInt ↔ 0 ≤ port.toInt ∧ port.toInt < 2 ^ 16 := by
  constructor
  · intro h
    have := (listeningPort port).toNat_lt
    omega
  · rintro ⟨h0, hlt⟩
    have hport := Bytes.toNat_toUInt32 h0
    rw [listeningPort, UInt32.toNat_toUInt16]
    omega

theorem main_eq_started {w : World} {stale : Int32} {prog path arg : List UInt8} {s : Started} :
    main w stale [prog, path, arg] = .ok (.started s) ↔
      Torrent w path (readPort stale arg) = .ok s := by
  constructor
  · intro h
    obtain ⟨s', hs', h⟩ := bind_eq_ok.mp h
    rw [hs', Outcome.started.inj (Except.ok.inj h)]
  · intro h
    rw [main, h]
    rfl

/-- The parameter `port` of the announcement. -/
theorem mem_announcement_port {info_hash peer_id : Vector UInt8 20} {p p' : List UInt8} :
    (ascii "port", p) ∈ announcement info_hash peer_id p' ↔ p = p' := by
  have hne : ∀ name ∈ ["info_hash", "peer_id", "uploaded", "downloaded", "left", "compact"],
      ascii "port" ≠ ascii name := by decide
  simp only [List.forall_mem_cons] at hne
  simp [announcement, hne]

/-- Its announce string is empty. -/
theorem announce_quietWorld : ∃ m left, Metafile.create_metafile quietWorld.SHA1 quietWorld.heap
    (TorrentFile.announcing [] []).text quietWorld.stale = .ok (m, left) ∧ m.announce = [] :=
  ⟨_, _, rfl, rfl⟩

end TorrentClient
