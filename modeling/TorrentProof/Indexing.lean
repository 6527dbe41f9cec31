import Mathlib
import TorrentProof.Gating
import TorrentProof.HaveAnswer
import TorrentProof.ServeRequest

/-! # Accesses to the vectors of the event loop

The branches of the event loop index three vectors: `pieces` and each of its vectors, and
`meta.pieces`.  A request is answered from `pieces[index]` without a look at the index, and
a piece message is compared with the first block of vectors that are empty.  So an access
is inside its vector, and a message for a piece the torrent does not have is ignored,
exactly in the runs whose messages are for pieces of the torrent and among which there is no
piece message at all (`indexSafe_iff`).
-/
namespace TorrentClient
open Bytes Fallible

/-- An access `v[index]` to a vector that has `size` elements when it is made. -/
structure Indexed where
  index : Int
  size : Nat
  deriving DecidableEq

/-- The element exists. -/
def Indexed.InBounds (a : Indexed) : Prop := 0 ≤ a.index ∧ a.index < a.size

instance (a : Indexed) : Decidable a.InBounds := inferInstanceAs (Decidable (_ ∧ _))

/-! ## The accesses of each branch -/

/-- The loop over the blocks of a piece from block `j` on, of a vector of `size` blocks:
`pieces[i][j]` until a block with the offset of `p` or a larger one. -/
def insertAccesses (p : block_t) (size : Nat) : Nat → List block_t → List Indexed
  | _, [] => []
  | j, b :: bs =>
    ⟨j, size⟩ :: if b.offset = p.offset ∨ p.offset < b.offset then []
      else insertAccesses p size (j + 1) bs

/-- The check of a piece: `pieces[i][0]` for the number of the piece and again in each round
of the reassembly, then `meta.pieces[piece]`. -/
def checkAccesses (ctx : PieceContext) (fuel : Nat) (blocks : List block_t) : List Indexed :=
  ⟨0, blocks.length⟩ ::
    match blocks with
    | [] => []
    | b :: _ =>
      match reassembleLoop ctx.piece_length.toNat blocks 0 fuel [] with
      | .error _ => []
      | .ok _ => [⟨b.piece_index.toInt, ctx.hashes.length⟩]

/-- The loop over the pieces from piece `i` on, of a store of `n`: `pieces[i]`, then
`pieces[i][0]`, and what the loop over its blocks and the check access. -/
def storeAccesses (ctx : PieceContext) (fuel : Nat) (p : block_t) (n : Nat) :
    Bool → Nat → Store → List Indexed
  | _, _, [] => []
  | _, i, [] :: _ => [⟨i, n⟩, ⟨0, 0⟩]
  | inserted, i, (b :: bs) :: pieces =>
    ⟨i, n⟩ :: ⟨0, (b :: bs).length⟩ ::
      if b.piece_index = p.piece_index then
        let r := insertInto p inserted (b :: bs)
        (if inserted then [] else insertAccesses p (b :: bs).length 0 (b :: bs)) ++
          (if r.2 then checkAccesses ctx fuel r.1 else []) ++
          match (if r.2 then checkPiece ctx fuel r.1 else pure []) with
          | .error _ => []
          | .ok _ => storeAccesses ctx fuel p n r.2 (i + 1) pieces
      else storeAccesses ctx fuel p n inserted (i + 1) pieces

/-- What the branch for a message accesses. -/
def Client.accesses (cfg : Setting) (s : Client) (fuel : Nat) : Action → List Indexed
  | .«have» _ => []
  | .request index _ _ => [⟨index.toInt, s.pieces.length⟩]
  | .piece index begin block =>
    storeAccesses cfg.ctx fuel ⟨index, begin, block⟩ s.pieces.length false 0 s.pieces
  | .ignore => []

/-! ## A branch that comes to its end -/

section Connection
variable {ctx : PieceContext} {fuel : Nat} {p : block_t}

theorem insertAccesses_inBounds {size j : Nat} {blocks : List block_t}
    (h : j + blocks.length = size) : ∀ a ∈ insertAccesses p size j blocks, a.InBounds := by
  induction blocks generalizing j with
  | nil =>
    intro a ha
    exact absurd ha List.not_mem_nil
  | cons b bs ih =>
    rw [List.length_cons] at h
    intro a ha
    rw [insertAccesses] at ha
    rcases List.mem_cons.mp ha with rfl | ha
    · unfold Indexed.InBounds
      dsimp only
      omega
    · split at ha
      · exact absurd ha List.not_mem_nil
      · exact ih (by omega) a ha

theorem checkAccesses_inBounds {blocks : List block_t} {hashed : Hashed}
    (h : checkPiece ctx fuel blocks = .ok hashed) :
    ∀ a ∈ checkAccesses ctx fuel blocks, a.InBounds := by
  cases blocks with
  | nil => cases h
  | cons b bs =>
    obtain ⟨buf, hbuf, -, h0, hlt, -⟩ := checkPiece_eq_ok h
    intro a ha
    unfold checkAccesses at ha
    dsimp only at ha
    rw [hbuf] at ha
    rcases List.mem_cons.mp ha with rfl | ha
    · exact ⟨le_refl 0, Int.natCast_pos.mpr (Nat.succ_pos _)⟩
    · obtain rfl := List.mem_singleton.mp ha
      exact ⟨h0, hlt⟩

/-- **A branch that comes to its end has made no access outside a vector.** -/
theorem storeAccesses_inBounds {n i : Nat} {inserted : Bool} {pieces : Store}
    {r : Store × Hashed} (hn : i + pieces.length = n)
    (h : storeLoop ctx fuel p inserted pieces = .ok r) :
    ∀ a ∈ storeAccesses ctx fuel p n inserted i pieces, a.InBounds := by
  induction pieces generalizing i inserted r with
  | nil =>
    intro a ha
    exact absurd ha List.not_mem_nil
  | cons blocks pieces ih =>
    cases blocks with
    | nil => cases h
    | cons b bs =>
      rw [List.length_cons] at hn
      intro a ha
      unfold storeAccesses at ha
      rcases List.mem_cons.mp ha with rfl | ha
      · exact ⟨Int.natCast_nonneg i, by dsimp only; omega⟩
      rcases List.mem_cons.mp ha with rfl | ha
      · exact ⟨le_refl 0, Int.natCast_pos.mpr (Nat.succ_pos _)⟩
      have hcases := storeLoop_eq_ok h
      by_cases heq : b.piece_index = p.piece_index
      · rw [if_pos heq] at ha hcases
        obtain ⟨hashed, pieces', rest, hcheck, hloop, -⟩ := hcases
        dsimp only at ha
        rw [hcheck] at ha
        rcases List.mem_append.mp ha with ha | ha
        · rcases List.mem_append.mp ha with ha | ha
          · split at ha
            · exact absurd ha List.not_mem_nil
            · exact insertAccesses_inBounds (Nat.zero_add _) a ha
          · split at ha
            next hstored =>
              rw [if_pos hstored] at hcheck
              exact checkAccesses_inBounds hcheck a ha
            · exact absurd ha List.not_mem_nil
        · exact ih (by omega) hloop a ha
      · rw [if_neg heq] at ha hcases
        obtain ⟨pieces', rest, hloop, -⟩ := hcases
        exact ih (by omega) hloop a ha

end Connection

/-! ## Safe runs -/

/-- The index a message is dispatched with. -/
def Action.named : Action → Option Int32
  | .«have» index => some index
  | .request index _ _ => some index
  | .piece index _ _ => some index
  | .ignore => none

/-- The index names a piece of the torrent. -/
def Setting.Names (cfg : Setting) (index : Int32) : Prop :=
  0 ≤ index.toInt ∧ index.toInt < cfg.ctx.hashes.length

namespace Client

/-- Indexing is safe for a message in the state `s`: all accesses are inside their vectors,
and nothing is done for an index that names no piece. -/
structure SafeStep (cfg : Setting) (s : Client) (e : Incoming) : Prop where
  inBounds : ∀ a ∈ accesses cfg s e.fuel (dispatch e.retMsg), a.InBounds
  ignored : ∀ index ∈ (dispatch e.retMsg).named, ¬ cfg.Names index →
    act cfg s e (dispatch e.retMsg) = s

/-- **Indexing is safe in a run**, for every message that is acted on. -/
def IndexSafe (cfg : Setting) (es : List Incoming) : Prop :=
  ∀ (before : List Incoming) (e : Incoming) (after : List Incoming),
    es = before ++ e :: after → (run cfg before).halted = false → SafeStep cfg (run cfg before) e

/-- A message for a piece of the torrent, and a piece message only if it has none. -/
def Guarded (cfg : Setting) : Action → Prop
  | .«have» index => cfg.Names index
  | .request index _ _ => cfg.Names index
  | .piece _ _ _ => cfg.ctx.hashes.length = 0
  | .ignore => True

/-- Every message of a run that is acted on is guarded. -/
def AllGuarded (cfg : Setting) (es : List Incoming) : Prop :=
  ∀ (before : List Incoming) (e : Incoming) (after : List Incoming),
    es = before ++ e :: after → (run cfg before).halted = false → Guarded cfg (dispatch e.retMsg)

variable {cfg : Setting} {s : Client} {es : List Incoming} {e : Incoming}

/-! ## The number of vectors -/

theorem length_act (a : Action) : (act cfg s e a).pieces.length = s.pieces.length := by
  cases a with
  | piece index begin block =>
    unfold act
    dsimp only
    split
    · rfl
    next pieces hashed hok => exact length_storeLoop hok
  | _ => rfl

theorem length_step : (step cfg s e).pieces.length = s.pieces.length := by
  unfold step
  split
  · rfl
  · exact length_act _

/-- There is a vector for each piece. -/
theorem length_run (es : List Incoming) :
    (run cfg es).pieces.length = cfg.ctx.hashes.length := by
  have key : ∀ s : Client, (es.foldl (step cfg) s).pieces.length = s.pieces.length := by
    induction es with
    | nil =>
      intro s
      rfl
    | cons e es ih =>
      intro s
      exact (ih _).trans length_step
  exact (key _).trans List.length_replicate

/-! ## One message -/

/-- The answer to a have is never nothing. -/
theorem act_have_ne (index : Int32) (hrunning : s.halted = false) :
    act cfg s e (.«have» index) ≠ s := by
  intro h
  have hrequests : (act cfg s e (.«have» index)).requests.length = s.requests.length :=
    congrArg (fun s => s.requests.length) h
  have hhalted : (act cfg s e (.«have» index)).halted = s.halted := congrArg Client.halted h
  unfold act at hrequests hhalted
  dsimp only at hrequests hhalted
  rw [hrunning] at hhalted
  rw [List.length_append, List.length_map] at hrequests
  have hacts : (∃ r, r ∈ (haveBranch cfg.size cfg.ctx.piece_length index e.fuel).ranges) ∨
      (haveBranch cfg.size cfg.ctx.piece_length index e.fuel).halt.isSome = true :=
    haveBranch_acts e.fuel
  rcases hacts with ⟨r, hr⟩ | hhalt
  · have := List.length_pos_of_mem hr
    omega
  · rw [hhalt] at hhalted
    cases hhalted

/-- A have accesses no vector, and is ignored only if it is not for a wrong index. -/
theorem safeStep_have_iff {index : Int32} (hact : dispatch e.retMsg = .«have» index)
    (hrunning : s.halted = false) : SafeStep cfg s e ↔ cfg.Names index := by
  constructor
  · rintro ⟨-, hignored⟩
    rw [hact] at hignored
    by_contra hnot
    exact act_have_ne index hrunning (hignored index rfl hnot)
  · intro h
    constructor
    · rw [hact]
      intro a ha
      exact absurd ha List.not_mem_nil
    · rw [hact]
      intro i hi hnot
      obtain rfl := Option.some.inj hi
      exact absurd h hnot

/-- A request accesses the vector of its index. -/
theorem safeStep_request_iff {index begin blockLen : Int32}
    (hact : dispatch e.retMsg = .request index begin blockLen)
    (hlength : s.pieces.length = cfg.ctx.hashes.length) :
    SafeStep cfg s e ↔ cfg.Names index := by
  have hnames : (Indexed.InBounds ⟨index.toInt, s.pieces.length⟩) ↔ cfg.Names index := by
    unfold Indexed.InBounds Setting.Names
    rw [hlength]
  constructor
  · rintro ⟨hbounds, -⟩
    rw [hact] at hbounds
    exact hnames.mp (hbounds _ (List.mem_singleton.mpr rfl))
  · intro h
    constructor
    · rw [hact]
      intro a ha
      rw [List.mem_singleton.mp ha]
      exact hnames.mpr h
    · rw [hact]
      intro i hi hnot
      obtain rfl := Option.some.inj hi
      exact absurd h hnot

/-- A piece message looks at the first block of a vector that has none. -/
theorem safeStep_piece_iff {index begin : Int32} {block : List UInt8}
    (hact : dispatch e.retMsg = .piece index begin block) (hempty : EmptyStore s.pieces) :
    SafeStep cfg s e ↔ s.pieces = [] := by
  constructor
  · rintro ⟨hbounds, -⟩
    rw [hact] at hbounds
    unfold accesses at hbounds
    cases hpieces : s.pieces with
    | nil => rfl
    | cons blocks pieces =>
      rw [hpieces] at hempty hbounds
      obtain rfl := hempty blocks List.mem_cons_self
      have hzero := hbounds ⟨0, 0⟩ (List.mem_cons_of_mem _ List.mem_cons_self)
      exact absurd hzero.2 (lt_irrefl _)
  · intro hnone
    constructor
    · rw [hact]
      intro a ha
      unfold accesses at ha
      rw [hnone] at ha
      exact absurd ha List.not_mem_nil
    · rw [hact]
      intro i _ _
      unfold act
      rw [hnone]
      show { s with pieces := [] } = s
      rw [← hnone]

/-- Nothing is done for the other messages. -/
theorem safeStep_ignore (hact : dispatch e.retMsg = .ignore) : SafeStep cfg s e := by
  constructor
  · rw [hact]
    intro a ha
    exact absurd ha List.not_mem_nil
  · rw [hact]
    intro i hi
    cases hi

/-- In a state with empty vectors, one for each piece, indexing is safe for the messages that
are guarded. -/
theorem safeStep_iff (hempty : EmptyStore s.pieces)
    (hlength : s.pieces.length = cfg.ctx.hashes.length) (hrunning : s.halted = false) :
    SafeStep cfg s e ↔ Guarded cfg (dispatch e.retMsg) := by
  cases hact : dispatch e.retMsg with
  | «have» index => exact safeStep_have_iff hact hrunning
  | request index begin blockLen => exact safeStep_request_iff hact hlength
  | piece index begin block =>
    rw [safeStep_piece_iff hact hempty, ← List.length_eq_zero_iff, hlength]
    rfl
  | ignore => exact iff_of_true (safeStep_ignore hact) trivial

/-- **Exactly in which runs indexing is safe.** -/
theorem indexSafe_iff (cfg : Setting) (es : List Incoming) :
    IndexSafe cfg es ↔ AllGuarded cfg es := by
  have key : ∀ before e, (run cfg before).halted = false →
      (SafeStep cfg (run cfg before) e ↔ Guarded cfg (dispatch e.retMsg)) := by
    intro before e hrunning
    exact safeStep_iff (empty_run before) (length_run before) hrunning
  constructor
  · intro h before e after heq hrunning
    exact (key before e hrunning).mp (h before e after heq hrunning)
  · intro h before e after heq hrunning
    exact (key before e hrunning).mpr (h before e after heq hrunning)

end Client

/-! ## What can be decoded -/

/-- Whatever `decode` returns, it is dispatched as one of the messages of the protocol is,
received with some contents of the stack. -/
theorem dispatch_eq_received (retMsg : MSG) :
    ∃ behind l m, dispatch retMsg = dispatch (received behind l m) := by
  cases hact : dispatch retMsg with
  | «have» index =>
    refine ⟨fun _ => 0, ⟨{ retMsg with index }, fun _ => 0⟩, .«have» 0, ?_⟩
    rw [dispatch_received_have]
  | request index begin blockLen =>
    refine ⟨fun _ => 0, ⟨{ retMsg with blockLen }, fun _ => 0⟩,
      .request index.toUInt32 begin.toUInt32 0, ?_⟩
    rw [dispatch_received_request, Int32.toInt32_toUInt32, Int32.toInt32_toUInt32]
  | piece index begin block =>
    refine ⟨fun _ => 0, ⟨{ retMsg with block := Mem.ofList block fun _ => 0 }, fun _ => 0⟩,
      .piece index.toUInt32 begin.toUInt32 (List.replicate 4 0) (by decide), ?_⟩
    have hlength : block.length = MAX_BLOCK := by
      rw [dispatch] at hact
      split_ifs at hact
      obtain ⟨-, -, rfl⟩ := Action.piece.inj hact
      exact Mem.slice_length _ _ _
    rw [received_piece_four rfl]
    show _ = Action.piece index.toUInt32.toInt32 begin.toUInt32.toInt32
      ((Mem.ofList block fun _ => 0).slice 0 MAX_BLOCK)
    rw [← hlength, Mem.slice_ofList, Int32.toInt32_toUInt32, Int32.toInt32_toUInt32]
  | ignore =>
    refine ⟨fun _ => 0, ⟨retMsg, fun _ => 0⟩, .choke, ?_⟩
    rw [dispatch_eq_ignore]
    rw [msgType_received 0 rfl (by decide) (by decide)]
    decide

/-- A request for the piece before the first. -/
theorem not_indexSafe_negative : ¬ ∃ size, Client.IndexSafe ⟨size, ⟨[[]], 16384, []⟩⟩
    [.plain 4 (.request 0xFFFFFFFF 0 16384)] := by
  rintro ⟨size, h⟩
  have hguarded := (Client.indexSafe_iff _ _).mp h [] _ [] rfl rfl
  have hact : dispatch (Incoming.plain 4 (.request 0xFFFFFFFF 0 16384)).retMsg =
      .request (-1) 0 0 := dispatch_received_request _ _ _
  rw [hact] at hguarded
  exact absurd hguarded.1 (by decide)

end TorrentClient
