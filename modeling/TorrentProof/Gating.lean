import Mathlib
import TorrentProof.BlockStore
import TorrentProof.Connect
import TorrentProof.Dispatch
import TorrentProof.HaveBranch

/-! # Which requests the event loop makes

A run of the event loop is the messages that are received, each with the socket it came
from, in the order they are dispatched.  The loop asks for a piece as soon as a peer says
that it has it.  It never looks whether that peer is choking, nor whether the piece is
stored: the latter does not matter, as nothing is ever stored (`empty_run`), and for the
former `gated_of_unchoked` says which runs it goes well in.
-/
namespace TorrentClient
open Bytes Fallible

/-- A message dispatched by the event loop. -/
structure Incoming where
  /-- the socket it came from -/
  fd : Int
  message : PeerMessage
  /-- what follows it in memory -/
  behind : Mem
  /-- what the locals of `decode` hold -/
  locals : Locals
  /-- rounds enough for the loops of the branch -/
  fuel : Nat

/-- `retMsg`. -/
def Incoming.retMsg (e : Incoming) : MSG := received e.behind e.locals e.message

/-- A call of `m.request` for a socket, with the messages received and the blocks stored
when it is made. -/
structure Requested where
  fd : Int
  range : Range
  before : List Incoming
  pieces : Store

/-- The state of the event loop between two messages. -/
structure Client where
  pieces : Store
  received : List Incoming
  requests : List Requested
  /-- the program has been ended by a fault, or is held in a loop -/
  halted : Bool

/-- What the loop depends on and does not change. -/
structure Setting where
  size : SizePtr
  ctx : PieceContext

namespace Client

/-- The state before the first message. -/
def init (cfg : Setting) : Client := ⟨Store.new cfg.ctx.hashes.length, [], [], false⟩

/-- The branch the event loop takes for a message. -/
def act (cfg : Setting) (s : Client) (e : Incoming) : Action → Client
  | .have index =>
    let calls := haveBranch cfg.size cfg.ctx.piece_length index e.fuel
    { s with
      requests := s.requests ++ calls.ranges.map fun r => ⟨e.fd, r, s.received, s.pieces⟩
      halted := calls.halt.isSome }
  | .request index _ _ =>
    -- `pieces[retMsg.index]`, then `*msgByte` in `m.piece`
    { s with halted := index.toInt < 0 ∨ (s.pieces.length : Int) ≤ index.toInt ∨ cfg.size = .null }
  | .piece index begin block =>
    match pieceBranch cfg.ctx e.fuel ⟨index, begin, block⟩ s.pieces with
    | .error _ => { s with halted := true }
    | .ok (pieces, _) => { s with pieces }
  | .ignore => s

/-- A message is received, decoded and dispatched. -/
def step (cfg : Setting) (s : Client) (e : Incoming) : Client :=
  if s.halted then s
  else
    let s := act cfg s e (dispatch e.retMsg)
    { s with received := s.received ++ [e] }

/-- A run: the messages `es` in this order. -/
def run (cfg : Setting) (es : List Incoming) : Client := es.foldl (step cfg) (init cfg)

end Client

/-! ## What a request needs -/

/-- Whether the peer at `fd` is choking after the messages `es`: the last choke or unchoke
that came from it says so, and without one it is. -/
def choking (fd : Int) (es : List Incoming) : Bool :=
  es.foldl (fun c e => if e.fd = fd then
    match e.message with
    | .choke => true
    | .unchoke => false
    | _ => c
    else c) true

/-- All blocks of a piece are stored. -/
def AllStored (piece_length : UInt32) (pieces : Store) (index : Int32) : Prop :=
  0 ≤ index.toInt ∧ ∃ blocks ∈ pieces[index.toInt.toNat]?,
    ∀ j, j = 0 ∨ 16384 * j < piece_length.toNat →
      ∃ b ∈ blocks, b.offset = Int32.ofNat (16384 * j)

/-- **The requests are gated**: each was made to a peer that was not choking, for a piece of
which blocks were missing. -/
def Client.Gated (cfg : Setting) (s : Client) : Prop :=
  ∀ q ∈ s.requests, choking q.fd q.before = false ∧
    ¬ AllStored cfg.ctx.piece_length q.pieces q.range.index

/-- Nothing `decode` takes for a have comes from a peer that is choking. -/
def Unchoked (es : List Incoming) : Prop :=
  ∀ (before : List Incoming) (e : Incoming) (after : List Incoming),
    es = before ++ e :: after → e.retMsg.msgType = 4 →
      choking e.fd before = false

/-! ## The store stays empty -/

/-- No vector of the store has a block. -/
def EmptyStore (pieces : Store) : Prop := ∀ blocks ∈ pieces, blocks = []

theorem emptyStore_new (n : Nat) : EmptyStore (Store.new n) :=
  fun _ h => List.eq_of_mem_replicate h

/-- A block that arrives at an empty store is not stored. -/
theorem pieceBranch_emptyStore {ctx : PieceContext} {fuel : Nat} {p : block_t} {pieces : Store}
    (h : EmptyStore pieces) {result : Store × Hashed}
    (hok : pieceBranch ctx fuel p pieces = .ok result) : EmptyStore result.1 := by
  cases pieces with
  | nil =>
    obtain rfl := Except.ok.inj hok
    intro _ hmem
    exact absurd hmem List.not_mem_nil
  | cons blocks pieces =>
    obtain rfl := h blocks List.mem_cons_self
    cases hok

theorem not_allStored_emptyStore {piece_length : UInt32} {pieces : Store} {index : Int32}
    (h : EmptyStore pieces) : ¬ AllStored piece_length pieces index := by
  rintro ⟨-, blocks, hblocks, hall⟩
  obtain rfl := h blocks (List.mem_of_getElem? hblocks)
  obtain ⟨b, hb, -⟩ := hall 0 (.inl rfl)
  cases hb

/-! ## One step, and a run -/

namespace Client
variable {cfg : Setting} {s : Client} {es : List Incoming} {e : Incoming}

/-- A request was made with an empty store, in answer to what was taken for a have, which is
one of the messages received. -/
def Answered (received : List Incoming) (q : Requested) : Prop :=
  EmptyStore q.pieces ∧ ∃ (e : Incoming) (after : List Incoming),
    received = q.before ++ e :: after ∧ e.fd = q.fd ∧ e.retMsg.msgType = 4

/-- What every state of a run satisfies. -/
structure Inv (s : Client) : Prop where
  empty : EmptyStore s.pieces
  answered : ∀ q ∈ s.requests, Answered s.received q

theorem inv_init : (init cfg).Inv where
  empty := emptyStore_new _
  answered := by
    intro _ h
    exact absurd h List.not_mem_nil

/-- Only a message of type 4 leads to the branch that makes requests. -/
theorem msgType_of_dispatch {retMsg : MSG} {index : Int32} (h : dispatch retMsg = .have index) :
    retMsg.msgType = 4 := by
  unfold dispatch at h
  split at h
  · assumption
  · split at h
    · cases h
    · split at h <;> cases h

/-- A request is still an answer when a message is received after it. -/
theorem Answered.snoc {received : List Incoming} {q : Requested} (h : Answered received q)
    (e : Incoming) : Answered (received ++ [e]) q := by
  obtain ⟨hempty, e', after, heq, hfd, htype⟩ := h
  refine ⟨hempty, e', after ++ [e], ?_, hfd, htype⟩
  rw [heq, List.append_assoc, List.cons_append]

/-- Every step keeps the invariant. -/
theorem Inv.step (h : s.Inv) (e : Incoming) : (step cfg s e).Inv := by
  have hsnoc : ∀ q ∈ s.requests, Answered (s.received ++ [e]) q := by
    intro q hq
    exact (h.answered q hq).snoc e
  unfold Client.step
  split
  · exact h
  · cases hact : dispatch e.retMsg with
    | «have» index =>
      refine ⟨h.empty, ?_⟩
      intro q hq
      rcases List.mem_append.mp hq with hq | hq
      · exact hsnoc q hq
      · obtain ⟨r, -, rfl⟩ := List.mem_map.mp hq
        exact ⟨h.empty, e, [], rfl, rfl, msgType_of_dispatch hact⟩
    | request index begin blockLen => exact ⟨h.empty, hsnoc⟩
    | piece index begin block =>
      unfold act
      dsimp only
      split
      · exact ⟨h.empty, hsnoc⟩
      next pieces hashed hok => exact ⟨pieceBranch_emptyStore h.empty hok, hsnoc⟩
    | ignore => exact ⟨h.empty, hsnoc⟩

/-- And so does a run. -/
theorem inv_run (es : List Incoming) : (run cfg es).Inv := by
  unfold run
  have key : ∀ s : Client, s.Inv → (es.foldl (Client.step cfg) s).Inv := by
    induction es with
    | nil =>
      intro s h
      exact h
    | cons e es ih =>
      intro s h
      exact ih _ (h.step e)
  exact key _ inv_init

/-- Nothing is ever stored. -/
theorem empty_run (es : List Incoming) : EmptyStore (run cfg es).pieces := (inv_run es).empty

theorem received_act (a : Action) : (act cfg s e a).received = s.received := by
  cases a with
  | «have» index => rfl
  | request index begin blockLen => rfl
  | piece index begin block =>
    unfold act
    dsimp only
    split <;> rfl
  | ignore => rfl

/-- Nothing happens after a fault. -/
theorem foldl_step_halted (h : s.halted = true) : es.foldl (step cfg) s = s := by
  induction es with
  | nil => rfl
  | cons e es ih =>
    rw [List.foldl_cons, step, if_pos h]
    exact ih

/-- What a run has received is the first of its messages. -/
theorem received_foldl (s : Client) :
    (es.foldl (step cfg) s).received <+: s.received ++ es := by
  induction es generalizing s with
  | nil => exact List.prefix_append _ _
  | cons e es ih =>
    by_cases h : s.halted = true
    · rw [foldl_step_halted h]
      exact List.prefix_append _ _
    · have hreceived : (step cfg s e).received = s.received ++ [e] := by
        rw [step, if_neg h]
        exact congrArg (· ++ [e]) (received_act _)
      have := ih (step cfg s e)
      rw [hreceived, List.append_assoc] at this
      exact this

/-- **In a run in which no choking peer has a piece to offer, the requests are gated.**  A
request counts when it is passed to `m.request` for a socket, whether or not it is sent. -/
theorem gated_of_unchoked (h : Unchoked es) : (run cfg es).Gated cfg := by
  intro q hq
  obtain ⟨hempty, e, after, heq, hfd, htype⟩ := (inv_run es).answered q hq
  obtain ⟨rest, hrest⟩ : (run cfg es).received <+: es := received_foldl (init cfg)
  refine ⟨?_, not_allStored_emptyStore hempty⟩
  rw [← hfd]
  refine h q.before e (after ++ rest) ?_ htype
  rw [← hrest, heq, List.append_assoc, List.cons_append]

end Client

/-- A message with nothing behind it, and zeros in the locals. -/
def Incoming.plain (fd : Int) (message : PeerMessage) : Incoming :=
  ⟨fd, message, fun _ => 0, ⟨default, fun _ => 0⟩, 1⟩

/-- A peer that unchokes and then has piece 0. -/
theorem unchoked_have : Unchoked [.plain 4 .unchoke, .plain 4 (.have 0)] := by
  intro before e after heq htype
  match before with
  | [] =>
    obtain ⟨rfl, -⟩ := List.cons.inj heq
    have hone : (Incoming.plain 4 .unchoke).retMsg.msgType = 1 :=
      msgType_received 1 rfl (by decide) (by decide)
    rw [hone] at htype
    exact absurd htype (by decide)
  | [e₁] =>
    obtain ⟨h₁, heq⟩ := List.cons.inj heq
    obtain ⟨h₂, -⟩ := List.cons.inj heq
    rw [← h₁, ← h₂]
    rfl
  | e₁ :: e₂ :: before =>
    have := congrArg List.length heq
    simp only [List.length_append, List.length_cons, List.length_nil] at this
    omega

theorem gated_unchoked_have : (Client.run ⟨.cell, ⟨[[]], 16384, []⟩⟩
    [.plain 4 .unchoke, .plain 4 (.have 0)]).Gated ⟨.cell, ⟨[[]], 16384, []⟩⟩ :=
  Client.gated_of_unchoked unchoked_have

/-- A peer that says what it has is asked for it without having unchoked. -/
theorem not_gated_have : ¬ ∃ size, (Client.run ⟨size, ⟨[[]], 16384, []⟩⟩
    [.plain 4 (.have 0)]).Gated ⟨size, ⟨[[]], 16384, []⟩⟩ := by
  rintro ⟨size, h⟩
  have hact : dispatch (Incoming.plain 4 (.have 0)).retMsg = .have 0 := dispatch_received_have 0
  have hmem : (⟨4, ⟨0, 0, 16384⟩, [], Store.new 1⟩ : Requested) ∈
      (Client.run ⟨size, ⟨[[]], 16384, []⟩⟩ [.plain 4 (.have 0)]).requests := by
    have hrunning : ¬ (Client.init ⟨size, ⟨[[]], 16384, []⟩⟩).halted = true := Bool.false_ne_true
    show _ ∈ (Client.step _ (Client.init _) _).requests
    rw [Client.step, if_neg hrunning, hact]
    cases size with
    | null => exact List.mem_singleton.mpr rfl
    | cell => exact List.mem_singleton.mpr rfl
  exact absurd (h _ hmem).1 (by decide)

end TorrentClient
