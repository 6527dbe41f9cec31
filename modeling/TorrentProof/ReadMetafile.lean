import Mathlib
import TorrentProof.BeNode

/-! # `Metafile::create_metafile`

The metafile is decoded once, and its dictionary walked with a chain of `strcmp`.  The
key `info` takes a second look at the file itself: the size of its encoded value is
computed from where the words `info` and `pieces` are found in the text, and so many
bytes of a buffer are hashed.
-/
namespace TorrentClient
open Bytes Bencode CText Decimal

/-- `std::map<string, string>`. -/
abbrev StringMap := List UInt8 → Option (List UInt8)

/-- The fields of `class Metafile` that `create_metafile` sets. -/
structure Metafile where
  announce : List UInt8
  comment : List UInt8
  created_by : List UInt8
  encoding : List UInt8
  name : List UInt8
  md5sum : List UInt8
  announce_list : List (List (List UInt8))
  files : List StringMap
  pieces : List (List UInt8)
  creation_date : UInt32
  piece_length : UInt32
  private_field : UInt32
  length : UInt32
  info_hash : Vector UInt8 20

/-- A new `Metafile`, in memory that held `stale`. -/
def Metafile.new (stale : Metafile) : Metafile :=
  { stale with
    announce := [], comment := [], created_by := [], encoding := [], name := [], md5sum := [],
    announce_list := [], files := [], pieces := [], creation_date := 0, private_field := 0 }

/-- A `long long` cut down to an `unsigned int`. -/
def unsignedOf (i : Int64) : UInt32 := i.toUInt64.toUInt32

/-! ## The lists of the metafile -/

/-- The strings of a list, each up to its first zero byte. -/
def strings : List be_node → Except Fault (List (List UInt8))
  | [] => pure []
  | node :: l => do
    let s ← node.s
    let list ← strings l
    pure (cstr s :: list)

/-- `parse_list_list(node)`. -/
def parse_list_list : List be_node → Except Fault (List (List (List UInt8)))
  | [] => pure []
  | node :: l => do
    let list ← strings (← node.l)
    let list_list ← parse_list_list l
    pure (list :: list_list)

/-- The loop over a path: `path = path + … + "/";`. -/
def pathLoop (path : List UInt8) : List be_node → Except Fault (List UInt8)
  | [] => pure path
  | node :: l => do
    let s ← node.s
    pathLoop (path ++ cstr s ++ [47]) l

/-- The loop of `parse_dict` over one file. -/
def fileLoop (dict : StringMap) :
    List (Option (List UInt8) × be_node) → Except Fault StringMap
  | [] => pure dict
  | (key, val) :: d => do
    let key := cstr (← deref key)
    if key = ascii "length" then
      let i ← val.i
      fileLoop (Function.update dict (ascii "length") (some (renderInt i.toInt))) d
    else if key = ascii "md5sum" ∨ key = ascii "md5" then
      let s ← val.s
      fileLoop (Function.update dict (ascii "md5sum") (some (cstr s))) d
    else if key = ascii "path" then
      let path ← pathLoop [] (← val.l)
      -- `pop_back` on an empty string
      if path = [] then throw .outOfBounds
      fileLoop (Function.update dict (ascii "path") (some path.dropLast)) d
    else fileLoop dict d

/-- `parse_dict(node)`. -/
def parse_dict : List be_node → Except Fault (List StringMap)
  | [] => pure []
  | node :: l => do
    let dict ← fileLoop (fun _ => none) (← node.d)
    let list_dict ← parse_dict l
    pure (dict :: list_dict)

/-! ## What is read off the text of the file -/

/-- `s.assign(memblock, size)`. -/
def assign (memblock : List UInt8) (size : Int) : Except Fault (List UInt8) :=
  if size < 0 then .error .badAlloc
  else if memblock.length < size then .error .outOfBounds
  else .ok (memblock.take size.toNat)

/-- The position behind the first `word` in `s`.  Where there is none, `npos` plus the
length of the word wraps around. -/
def endOf (word s : List UInt8) : Nat :=
  match find word s with
  | none => word.length - 1
  | some p => p + word.length

/-- `atoi(&memblock[pos])`. -/
def numberAt (memblock : List UInt8) (pos : Nat) : Except Fault Int32 :=
  match atoi (memblock.drop pos) with
  | none => .error .outOfBounds
  | some n => .ok n

/-- `info_size`. -/
def infoSize (memblock : List UInt8) (size : Int) : Except Fault Int32 := do
  let s ← assign memblock size
  let pieces_pos := endOf (ascii "pieces") s
  let pieces_size ← numberAt memblock pieces_pos
  let info_position := Int32.ofNat (endOf (ascii "info") s)
  pure (Int32.ofInt (pieces_pos - info_position.toInt + pieces_size.toInt + 7))

section Create
variable (SHA1 : List UInt8 → Vector UInt8 20) (heap : Mem) (memblock : List UInt8)

/-- The hash of the key `info`, whose value is `val`; `heap` is what the bytes of
`outBuf` were before. -/
def infoHash (size : Int) (val : be_node) : Except Fault (Vector UInt8 20) := do
  let info_size ← infoSize memblock size
  if info_size.toInt < 0 then throw .badAlloc
  let len := info_size.toInt.toNat
  let w ← be_encode val len
  pure (SHA1 (w.bytes ++ heap.slice w.bytes.length (len - w.bytes.length)))

/-- The loop over the hashes, from round `k` on, `n` rounds to go: `memcpy(sha, s + k*20, 20)`
in each, where `s` is the string of `val`, an array that ends with a zero. -/
def piecesLoop (val : be_node) :
    Nat → Nat → List (List UInt8) → Except Fault (List (List UInt8))
  | _, 0, pieces => pure pieces
  | k, n + 1, pieces => do
    let s ← val.s
    if s.length + 1 < k * 20 + 20 then throw .outOfBounds
    piecesLoop val (k + 1) n (pieces ++ [((s ++ [0]).drop (k * 20)).take 20])

/-- The body of the loop over the info dictionary.  The variable `size` starts as the
size of the file and is overwritten by the key `pieces`. -/
def infoEntry : Metafile × Int → Option (List UInt8) × be_node → Except Fault (Metafile × Int)
  | («meta», size), (key, val) => do
    let key := cstr (← deref key)
    if key = ascii "piece length" then
      let i ← val.i
      pure ({ «meta» with piece_length := unsignedOf i }, size)
    else if key = ascii "pieces" then
      let s ← assign memblock size
      let size ← numberAt memblock (endOf (ascii "pieces") s)
      let pieces ← piecesLoop val 0 (size.toInt.tdiv 20).toNat «meta».pieces
      pure ({ «meta» with pieces }, size.toInt)
    else if key = ascii "private" then
      let i ← val.i
      pure ({ «meta» with private_field := unsignedOf i }, size)
    else if key = ascii "name" then
      let s ← val.s
      pure ({ «meta» with name := cstr s }, size)
    else if key = ascii "length" then
      let i ← val.i
      pure ({ «meta» with length := unsignedOf i }, size)
    else if key = ascii "files" then
      let files ← parse_dict (← val.l)
      pure ({ «meta» with files }, size)
    else if key = ascii "md5sum" then
      let s ← val.s
      pure ({ «meta» with md5sum := cstr s }, size)
    else pure («meta», size)

/-- The body of the loop over the dictionary of the file. -/
def topEntry : Metafile × Int → Option (List UInt8) × be_node → Except Fault (Metafile × Int)
  | («meta», size), (key, val) => do
    let key := cstr (← deref key)
    if key = ascii "announce" then
      let s ← val.s
      pure ({ «meta» with announce := cstr s }, size)
    else if key = ascii "announce-list" then
      let announce_list ← parse_list_list (← val.l)
      pure ({ «meta» with announce_list }, size)
    else if key = ascii "creation date" then
      let i ← val.i
      pure ({ «meta» with creation_date := unsignedOf i }, size)
    else if key = ascii "created by" then
      let s ← val.s
      pure ({ «meta» with created_by := cstr s }, size)
    else if key = ascii "comment" then
      let s ← val.s
      pure ({ «meta» with comment := cstr s }, size)
    else if key = ascii "encoding" then
      let s ← val.s
      pure ({ «meta» with encoding := cstr s }, size)
    else if key = ascii "info" then
      let info_hash ← infoHash SHA1 heap memblock size val
      (← val.d).foldlM (infoEntry memblock) ({ «meta» with info_hash }, size)
    else pure («meta», size)

/-- `Metafile::create_metafile(path)` for a file with the contents `memblock`. -/
def create_metafile (be_decoden : List UInt8 → Option be_node) (stale : Metafile) :
    Except Fault Metafile :=
  match be_decoden memblock with
  | none => .error .nullPointer
  | some n => do
    let («meta», _) ← (← n.d).foldlM (topEntry SHA1 heap memblock) (stale.new, memblock.length)
    pure «meta»

end Create
end TorrentClient
