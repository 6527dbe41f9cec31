import Mathlib
import TorrentProof.BeNode

/-! # `be_free`

`be_free` walks a tree and gives back its blocks: every string, every array and every node.
The heap is the number of blocks that are allocated, and a `free` where none is fails.
`be_free_add` says how many a tree takes.
-/
namespace TorrentClient

/-- `free`: what is still allocated behind it. -/
def freeBlock : Nat → Option Nat
  | 0 => none
  | live + 1 => some live

/-- `_be_free_str(str)`. -/
def _be_free_str (str : Option (List UInt8)) (live : Nat) : Option Nat :=
  if str.isSome then freeBlock live else some live

mutual

/-- `be_free(node)`. -/
def be_free : be_node → Nat → Option Nat
  | .BE_STR s, live => do
    let live ← _be_free_str s live
    freeBlock live
  | .BE_INT _, live => freeBlock live
  | .BE_LIST l, live => do
    let live ← be_free_list l live
    let live ← freeBlock live
    freeBlock live
  | .BE_DICT d, live => do
    let live ← be_free_dict d live
    let live ← freeBlock live
    freeBlock live

/-- The loop of `be_free` over a list. -/
def be_free_list : List be_node → Nat → Option Nat
  | [], live => some live
  | node :: l, live => do
    let live ← be_free node live
    be_free_list l live

/-- The loop of `be_free` over a dictionary. -/
def be_free_dict : List (Option (List UInt8) × be_node) → Nat → Option Nat
  | [], live => some live
  | (key, val) :: d, live => do
    let live ← _be_free_str key live
    let live ← be_free val live
    be_free_dict d live

end

/-! ## The blocks of a tree -/

/-- A string that is not null is one block. -/
def strBlocks (str : Option (List UInt8)) : Nat := if str.isSome then 1 else 0

mutual

/-- The blocks of a tree. -/
def blocks : be_node → Nat
  | .BE_STR s => strBlocks s + 1
  | .BE_INT _ => 1
  | .BE_LIST l => blocksList l + 2
  | .BE_DICT d => blocksDict d + 2

def blocksList : List be_node → Nat
  | [] => 0
  | node :: l => blocks node + blocksList l

def blocksDict : List (Option (List UInt8) × be_node) → Nat
  | [] => 0
  | (key, val) :: d => strBlocks key + blocks val + blocksDict d

end

@[simp] theorem blocksList_append (l l' : List be_node) :
    blocksList (l ++ l') = blocksList l + blocksList l' := by
  induction l with
  | nil => simp [blocksList]
  | cons n l ih => simp [blocksList, ih, Nat.add_assoc]

theorem be_free_str_add (str : Option (List UInt8)) (live : Nat) :
    _be_free_str str (live + strBlocks str) = some live := by
  cases str with
  | none => rfl
  | some s => rfl

mutual

/-- **`be_free` gives back the blocks of the tree**, and no others. -/
theorem be_free_add (n : be_node) (live : Nat) : be_free n (live + blocks n) = some live := by
  match n with
  | .BE_STR s =>
    rw [blocks, be_free, Nat.add_comm (strBlocks s), ← Nat.add_assoc, be_free_str_add]
    rfl
  | .BE_INT i => rfl
  | .BE_LIST l =>
    rw [blocks, be_free, Nat.add_comm (blocksList l), ← Nat.add_assoc, be_free_list_add l]
    rfl
  | .BE_DICT d =>
    rw [blocks, be_free, Nat.add_comm (blocksDict d), ← Nat.add_assoc, be_free_dict_add d]
    rfl

theorem be_free_list_add (l : List be_node) (live : Nat) :
    be_free_list l (live + blocksList l) = some live := by
  match l with
  | [] => rfl
  | n :: l =>
    rw [blocksList, be_free_list, Nat.add_comm (blocks n), ← Nat.add_assoc, be_free_add n]
    exact be_free_list_add l live

theorem be_free_dict_add (d : List (Option (List UInt8) × be_node)) (live : Nat) :
    be_free_dict d (live + blocksDict d) = some live := by
  match d with
  | [] => rfl
  | (key, val) :: d =>
    have hsum : live + (strBlocks key + blocks val + blocksDict d) =
        live + blocksDict d + blocks val + strBlocks key := by omega
    rw [blocksDict, be_free_dict, hsum, be_free_str_add]
    show (be_free val _ >>= fun live => be_free_dict d live) = _
    rw [be_free_add val]
    exact be_free_dict_add d live

end

end TorrentClient
